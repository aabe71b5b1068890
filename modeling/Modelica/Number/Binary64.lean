/-!
# Rounding to double precision

`Binary64.nearest` gives the bits of the double nearest to a non-negative fraction; an exact half
goes to the neighbour with an even last bit, and what is too large becomes infinity. It works in
exact arithmetic: the fraction is scaled by a power of two so that its whole part has 53 bits, or
as many as fit above the smallest double, and rounded once.
-/

namespace Modelica.Binary64

/-- The bits of infinity. -/
def infinity : Nat := 2047 <<< 52

/-- The whole number nearest to a fraction; an exact half goes to the even one. -/
def roundHalfEven (num den : Nat) : Nat :=
  let q := num / den
  let r := num % den
  if 2 * r < den then q
  else if den < 2 * r then q + 1
  else if q % 2 = 0 then q else q + 1

/-- The fraction times a power of two, as a fraction. -/
def scale (num den : Nat) (exponent : Int) : Nat × Nat :=
  if 0 ≤ exponent then (num <<< exponent.toNat, den) else (num, den <<< (-exponent).toNat)

/-- The largest power of two that is not above a positive fraction. -/
def binaryOrder (num den : Nat) : Int :=
  let guess : Int := (num.log2 : Int) - (den.log2 : Int)
  let (n, d) := scale num den (-guess)
  if d ≤ n then guess else guess - 1

/-- The exponent of the last bit of the double nearest to a positive fraction. -/
def lastBit (num den : Nat) : Int := max (binaryOrder num den - 52) (-1074)

/-- The bits of the double nearest to `num / den`. -/
def nearest (num den : Nat) : Nat :=
  if num = 0 then 0
  else
    let e := lastBit num den
    let (n, d) := scale num den (-e)
    let q := roundHalfEven n d
    if q < 1 <<< 52 then q else min infinity (((e + 1075).toNat <<< 52) + (q - (1 <<< 52)))

end Modelica.Binary64
