import Modelica.Schema.Slot

/-!
# Filling slots

`Slot.assign` distributes the children of a node over slots. Children are taken in order and go to
the first slot, from a cursor on, that accepts them and has room. A slot for one child moves the
cursor past itself. A slot for many stays open, together with the slots for many right before it,
so their children may alternate. Afterwards a required slot that is still empty takes the child of
the nearest optional slot before it that it accepts: in `a:b` the last part, not the middle one, is
filled. Trivia fills no slot, the byte-order mark apart, and what no slot accepts is left out.
-/

namespace Modelica

/-- One child in one slot, both by their index. -/
structure Placement where
  slot : Nat
  child : Nat
  kind : Kind
  deriving DecidableEq, Inhabited

namespace Slot

/-- The slot at an index holds at most one child and needs none. -/
def isOptional (slots : List Slot) (i : Nat) : Bool :=
  slots[i]?.any (·.cardinality == .optional)

def isMany (slots : List Slot) (i : Nat) : Bool := slots[i]?.any (·.cardinality == .many)

/-- A slot has a child. -/
def isFilled (placed : List Placement) (i : Nat) : Bool := placed.any (·.slot == i)

/-- The first slot, from the cursor on, that takes a child of some kind. -/
def opening? (slots : List Slot) (placed : List Placement) (cursor : Nat) (k : Kind) :
    Option Nat :=
  ((slots.zipIdx.drop cursor).find? fun (slot, i) =>
    slot.matcher.accepts k && (slot.cardinality == .many || !isFilled placed i)).map (·.2)

/-- The first of the slots for many that stand in a row before index `i`. -/
def runStart (slots : List Slot) : Nat → Nat
  | 0 => 0
  | i + 1 => if isMany slots i then runStart slots i else i + 1

/-- Where the cursor goes once a slot has got a child. -/
def cursorAfter (slots : List Slot) (i : Nat) : Nat :=
  if isMany slots i then runStart slots i else i + 1

/-- Children are offered to slots; trivia is not, the byte-order mark apart. -/
def isOffered (k : Kind) : Bool := !k.isTrivia || k == .byteOrderMark

/-- Offer children in order. The placements so far come last one first. -/
def fill (slots : List Slot) : Nat → Nat → List Placement → List Kind → List Placement
  | _, _, placed, [] => placed.reverse
  | cursor, child, placed, k :: ks =>
    match if isOffered k then opening? slots placed cursor k else none with
    | some i => fill slots (cursorAfter slots i) (child + 1) (⟨i, child, k⟩ :: placed) ks
    | none => fill slots cursor (child + 1) placed ks

/-- The last child in an optional slot before a required one that the latter accepts. -/
def donor? (slots : List Slot) (placed : List Placement) (required : Nat) (m : Matcher) :
    Option Placement :=
  placed.reverse.find? fun p => p.slot < required && isOptional slots p.slot && m.accepts p.kind

/-- Let a required slot that is empty take over a child. -/
def takeOver (slots : List Slot) (placed : List Placement) : Slot × Nat → List Placement
  | (slot, i) =>
    if slot.cardinality = .required ∧ !isFilled placed i then
      match donor? slots placed i slot.matcher with
      | some d => placed.map fun p => if p.child = d.child then { p with slot := i } else p
      | none => placed
    else placed

/-- Distribute children, given by their kinds, over slots. Placements come in child order. -/
def assign (slots : List Slot) (children : List Kind) : List Placement :=
  slots.zipIdx.foldl (takeOver slots) (fill slots 0 0 [] children)

end Slot

end Modelica
