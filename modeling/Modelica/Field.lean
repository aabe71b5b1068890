import Modelica.Located
import Modelica.Schema.Assign
import Modelica.Schema.Standard

/-!
# Fields

The fields of a node are its slots and the children that fill them. `Schema.resolve` assigns the
children; `Schema.field` reads the assignment by the name of a slot, `Located.fields` lists all
slots that are filled, and `Located.fieldNameOf` goes from a child back to its slot.
-/

namespace Modelica

/-- What a slot of a node holds. -/
inductive Field where
  | absent
  | one (child : Located)
  | many (children : List Located)
  deriving Inhabited

namespace Field

def isAbsent : Field → Bool
  | absent => true
  | _ => false

def toList : Field → List Located
  | absent => []
  | one child => [child]
  | many children => children

/-- The child, or the first of several. -/
def first? (f : Field) : Option Located := f.toList.head?

/-- The first child if it is a node. -/
def node? (f : Field) : Option Located := f.first?.filter Located.isNode

/-- The first child if it is a token. -/
def token? (f : Field) : Option Located := f.first?.filter (!·.isNode)

/-- The value of a slot, from the children it got. -/
def ofChildren (cardinality : Cardinality) : List Located → Field
  | [] => absent
  | child :: rest => if cardinality = .many then many (child :: rest) else one child

end Field

namespace Schema

/-- The children of a node with the index of the slot each of them fills, in child order. -/
def resolve (s : Schema) (n : Located) : List (Nat × Located) :=
  let children := n.children.toArray
  (Slot.assign (s.slots n.kind) (n.children.map Located.kind)).filterMap fun p =>
    children[p.child]?.map fun child => (p.slot, child)

/-- The children in the slot at an index. -/
def childrenIn (s : Schema) (n : Located) (slot : Nat) : List Located :=
  ((s.resolve n).filter (·.1 == slot)).map (·.2)

/-- What the slot of a node called `name` holds; nothing when the kind has no such slot. -/
def field (s : Schema) (n : Located) (name : String) : Field :=
  let slots := s.slots n.kind
  match slots.zipIdx.find? (·.1.name == name) with
  | some (slot, i) => .ofChildren slot.cardinality (s.childrenIn n i)
  | none => .absent

end Schema

namespace Located

/-- What a slot of a node holds. -/
def field (n : Located) (name : String) : Field := Schema.standard.field n name

/-- The slots of a node that are filled, in the order of the schema. -/
def fields (n : Located) : List (String × Field) :=
  (Schema.standard.slots n.kind).zipIdx.filterMap fun (slot, i) =>
    match Field.ofChildren slot.cardinality (Schema.standard.childrenIn n i) with
    | .absent => none
    | f => some (slot.name, f)

/-- The node in a slot. -/
def childByField (n : Located) (name : String) : Option Located := (n.field name).node?

/-- The children of a node that fill a slot, each with the name of its slot. -/
def named (n : Located) : List (String × Located) :=
  let slots := Schema.standard.slots n.kind
  (Schema.standard.resolve n).filterMap fun (slot, child) =>
    slots[slot]?.map fun s => (s.name, child)

/-- The name of the slot that a tree fills: what is equal to it at the same place has that name. -/
def nameIn (named : List (String × Located)) (child : Located) : Option String :=
  (named.find? (·.2.same child)).map (·.1)

/-- The name of the slot of `n` that holds a tree equal to `child` at the same place. -/
def fieldNameOf (n child : Located) : Option String := nameIn n.named child

/-- The slot that each child fills, by the index of the child. -/
def slotNames (n : Located) : List (Option String) :=
  let slots := Schema.standard.slots n.kind
  let placed := Slot.assign slots (n.tree.children.map Tree.kind)
  (List.range n.tree.children.length).map fun i =>
    (placed.find? (·.child == i)).bind fun p => slots[p.slot]?.map Slot.name

/-- The choices of the grammar that the kind of a node is an alternative of. -/
def supertypes (n : Located) : List Supertype := n.kind.supertypes

end Located

end Modelica
