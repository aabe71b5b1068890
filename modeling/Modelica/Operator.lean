import Modelica.Kind

/-!
# Operator bands

All operators of expressions stand in one table of bands, the loosest first. A band is known by
its level, its place in the table. `unaryLevel?` and `binaryLevel?` look an operator up; the
additive operators stand in two bands, once with one operand and once with two.
-/

namespace Modelica

/-- How a chain of operators of one band groups. -/
inductive Associativity where
  | left | right
  /-- A chain of two is an error. -/
  | neither
  deriving DecidableEq, Inhabited

inductive Arity where
  | unary | binary
  deriving DecidableEq, Inhabited

/-- Operators that bind equally tight. -/
structure Band where
  precedence : Nat
  operators : List Kind
  associativity : Associativity
  arity : Arity
  deriving DecidableEq, Inhabited

namespace Band

def relational : List Kind := [.less, .lessEq, .greater, .greaterEq, .equal, .notEqual]

def additive : List Kind := [.plus, .minus, .dotPlus, .dotMinus]

def multiplicative : List Kind := [.star, .slash, .dotStar, .dotSlash]

def power : List Kind := [.caret, .dotCaret]

/-- Every band, the loosest first. -/
def table : List Band := [
  ⟨4, [.orKw], .left, .binary⟩,
  ⟨5, [.andKw], .left, .binary⟩,
  ⟨6, [.notKw], .right, .unary⟩,
  ⟨7, relational, .neither, .binary⟩,
  ⟨8, additive, .left, .binary⟩,
  ⟨9, additive, .right, .unary⟩,
  ⟨10, multiplicative, .left, .binary⟩,
  ⟨11, power, .right, .binary⟩]

def holds (b : Band) (arity : Arity) (k : Kind) : Bool := b.arity == arity && b.operators.contains k

/-- The level, `least` or above, of the band of two-operand operators that has `k`. -/
def binaryLevel? (k : Kind) (least : Nat) : Option Nat :=
  ((table.zipIdx.drop least).find? fun b => b.1.holds .binary k).map (·.2)

/-- The level of the band of one-operand operators that has `k`. -/
def unaryLevel? (k : Kind) : Option Nat := table.findIdx? fun b => b.holds .unary k

/-- How the operators of a level group. -/
def associativityAt (level : Nat) : Associativity :=
  (table[level]?.map associativity).getD .left

end Band

end Modelica
