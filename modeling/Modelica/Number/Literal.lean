import Modelica.Number.Binary64
import Modelica.Token.Pattern

/-!
# Values of number literals

An integer literal has a value when it fits into 64 bits, a real literal always: the nearest
double. Text that is more than a literal, such as one with blanks around it, has no value.
-/

namespace Modelica.Number

open Pattern (isDigit)

/-- The number that some decimal digits spell. -/
def ofDigits (digits : List Char) : Nat :=
  digits.foldl (fun n c => 10 * n + (c.toNat - '0'.toNat)) 0

/-- The value of an integer literal below `2 ^ 64`. -/
def natural? (text : String) : Option Nat :=
  let cs := text.toList
  if !cs.isEmpty && cs.all isDigit && ofDigits cs < UInt64.size then some (ofDigits cs) else none

/-- An exponent with its mark and sign; zero where there is none. -/
def exponent? : List Char → Option Int
  | [] => some 0
  | e :: rest =>
    if e ≠ 'e' ∧ e ≠ 'E' then none
    else
      let (negative, digits) := match rest with
        | '-' :: ds => (true, ds)
        | '+' :: ds => (false, ds)
        | ds => (false, ds)
      if !digits.isEmpty && digits.all isDigit then
        some (if negative then -(ofDigits digits : Int) else ofDigits digits)
      else none

/-- A decimal number: its digits without the point, and the power of ten they are taken times. -/
def decimal? (text : String) : Option (List Char × Int) :=
  let cs := text.toList
  let whole := cs.takeWhile isDigit
  let (fraction, rest) := match cs.dropWhile isDigit with
    | '.' :: r => (r.takeWhile isDigit, r.dropWhile isDigit)
    | r => ([], r)
  let digits := whole ++ fraction
  if digits.isEmpty then none
  else (exponent? rest).map fun e => (digits, e - fraction.length)

/-- The bits of the double nearest to a decimal number. Numbers far outside the range of doubles
are recognised by their size, without working them out. -/
def decimalBits (digits : List Char) (exponent : Int) : Nat :=
  let significant := digits.dropWhile (· == '0')
  let order : Int := significant.length + exponent
  if significant.isEmpty || order < -400 then 0
  else if 400 < order then Binary64.infinity
  else
    let m := ofDigits significant
    if 0 ≤ exponent then Binary64.nearest (m * Nat.pow 10 exponent.toNat) 1
    else Binary64.nearest m (Nat.pow 10 (-exponent).toNat)

/-- The bits of the value of a real literal. -/
def realBits? (text : String) : Option Nat :=
  (decimal? text).map fun (digits, exponent) => decimalBits digits exponent

/-- The value of a real literal. -/
def real? (text : String) : Option Float :=
  (realBits? text).map fun bits => Float.ofBits bits.toUInt64

end Modelica.Number
