import Modelica.Kind

/-!
# Constructs that own clauses

`if`, `when`, `for` and `while` blocks stay open until their `end`. An `elseif`, `else` or
`elsewhen` clause belongs to the nearest open block of the kind that owns it, as long as only
blocks of its own category lie between: `resolveClause` decides this from the open blocks,
innermost first.
-/

namespace Modelica

/-- The families in which clauses attach; none attaches across families. -/
inductive Category where
  | equation | statement | expression
  deriving DecidableEq, Inhabited

inductive Construct where
  | ifBlock | whenBlock | forBlock | whileBlock
  deriving DecidableEq, Inhabited

/-- The keyword after the `end` of a block. -/
def Construct.endKeyword : Construct → Kind
  | .ifBlock => .ifKw
  | .whenBlock => .whenKw
  | .forBlock => .forKw
  | .whileBlock => .whileKw

/-- A block that waits for its `end`. -/
structure OpenConstruct where
  construct : Construct
  category : Category
  deriving DecidableEq, Inhabited

/-- To whom a clause belongs. -/
inductive Resolution where
  /-- To the innermost open block. -/
  | attach
  /-- To a block further out; so many inner blocks have to end first. -/
  | unwind (inner : Nat)
  /-- To no open block. -/
  | orphan
  /-- To a block beyond one of another category. -/
  | ambiguous
  deriving DecidableEq, Inhabited

/-- The construct that owns the clause a keyword starts. -/
def clauseOwner? : Kind → Option Construct
  | .elseifKw | .elseKw => some .ifBlock
  | .elsewhenKw => some .whenBlock
  | _ => none

def isClauseKeyword (k : Kind) : Bool := (clauseOwner? k).isSome

/-- Search outwards for the owner, past `inner` blocks so far. -/
def findOwner (owner : OpenConstruct) : Nat → List OpenConstruct → Resolution
  | _, [] => .orphan
  | inner, entry :: outer =>
    if entry.category ≠ owner.category then
      if outer.contains owner then .ambiguous else .orphan
    else if entry.construct = owner.construct then
      if inner = 0 then .attach else .unwind inner
    else findOwner owner (inner + 1) outer

/-- Who owns a clause met among equations, statements or expressions. -/
def resolveClause (stack : List OpenConstruct) (clause : Kind) (category : Category) :
    Resolution :=
  match clauseOwner? clause with
  | none => .orphan
  | some owner => findOwner ⟨owner, category⟩ 0 stack

end Modelica
