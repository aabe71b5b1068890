import Modelica.Field

/-!
# Views of nodes

A `View k` is a node known to have the kind `k`; a `Choice s` is one known to be an alternative of
the supertype `s`. Views give typed access to the parts of a node: the modules beside this one
define, for each kind, functions named after its parts. They never fail on a tree that recovery has
left incomplete: a part that is missing is `none` or an empty list.
-/

namespace Modelica

/-- A node of one kind. -/
structure View (k : Kind) where
  node : Located
  kind_eq : node.kind = k

/-- A node that is an alternative of one choice of the grammar. -/
structure Choice (s : Supertype) where
  node : Located
  isA : node.kind.isA s = true

namespace View

def of? (k : Kind) (n : Located) : Option (View k) := if h : n.kind = k then some ⟨n, h⟩ else none

/-- The source text of the node, with the trivia inside it. -/
def text {k : Kind} (v : View k) : String := v.node.text

end View

namespace Choice

variable {s : Supertype}

def of? (s : Supertype) (n : Located) : Option (Choice s) :=
  if h : n.kind.isA s = true then some ⟨n, h⟩ else none

/-- The source text of the node, with the trivia inside it. -/
def text (c : Choice s) : String := c.node.text

/-- The choices made between `s` and the kind of the node, the widest first. -/
def steps (c : Choice s) : List Supertype := (c.node.kind.supertypes.takeWhile (· != s)).reverse

end Choice

/-- A type of views. -/
class NodeView (α : Type) where
  /-- A node seen as `α`, where its kind allows that. -/
  ofNode? : Located → Option α
  toNode : α → Located

instance {k : Kind} : NodeView (View k) := ⟨View.of? k, View.node⟩

instance {s : Supertype} : NodeView (Choice s) := ⟨Choice.of? s, Choice.node⟩

namespace Located

/-- A token of some kind is a child. -/
def has (n : Located) (k : Kind) : Bool := n.tokenChildren.any (·.kind == k)

/-- The texts of the identifiers among the children. A quoted one keeps its quotes. -/
def identifiers (n : Located) : List String :=
  (n.tokenChildren.filter (·.kind == .ident)).map Located.text

/-- The text of the first identifier among the children. -/
def identifier? (n : Located) : Option String := n.identifiers.head?

/-- A slot is filled. -/
def fills (n : Located) (slot : String) : Bool := !(n.field slot).isAbsent

/-- The token in a slot. -/
def tokenIn? (n : Located) (slot : String) : Option Located := (n.field slot).token?

variable {α : Type} [NodeView α]

/-- The first child that can be seen as `α`. -/
def first? (n : Located) : Option α := n.nodeChildren.findSome? NodeView.ofNode?

/-- All children that can be seen as `α`. -/
def every (n : Located) : List α := n.nodeChildren.filterMap NodeView.ofNode?

/-- The node in a slot, seen as `α`. -/
def nodeIn? (n : Located) (slot : String) : Option α :=
  (n.childByField slot).bind NodeView.ofNode?

/-- The nodes in a slot that can be seen as `α`. -/
def nodesIn (n : Located) (slot : String) : List α :=
  ((n.field slot).toList.filter isNode).filterMap NodeView.ofNode?

end Located

end Modelica
