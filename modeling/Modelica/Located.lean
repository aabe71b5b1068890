import Modelica.Position
import Modelica.Tree

/-!
# Trees with a place

A tree does not know where it stands in the text. `Located` adds the offset of its first byte; the
offsets of its children follow, each child starting where the one before it stops.
-/

namespace Modelica

structure Located where
  start : Nat
  tree : Tree
  deriving Inhabited

namespace Located

/-- A whole tree, which starts at the start of its text. -/
def root (t : Tree) : Located := ⟨0, t⟩

def kind (n : Located) : Kind := n.tree.kind

def stop (n : Located) : Nat := n.start + n.tree.width

def span (n : Located) : Span := ⟨n.start, n.stop⟩

def text (n : Located) : String := n.tree.text

def isNode (n : Located) : Bool := !n.tree.isLeaf

/-- Trees one after the other. -/
def row : Nat → List Tree → List Located
  | _, [] => []
  | start, t :: ts => ⟨start, t⟩ :: row (start + t.width) ts

def children (n : Located) : List Located := row n.start n.tree.children

/-- The children that are nodes. -/
def nodeChildren (n : Located) : List Located := n.children.filter isNode

/-- The children that are tokens. -/
def tokenChildren (n : Located) : List Located := n.children.filter (!·.isNode)

mutual

/-- A tree and everything below it, each before what is below it. -/
def preorder (start : Nat) : Tree → List Located
  | .leaf t => [⟨start, .leaf t⟩]
  | .node k cs => ⟨start, .node k cs⟩ :: preorderRow start cs

def preorderRow (start : Nat) : List Tree → List Located
  | [] => []
  | t :: ts => preorder start t ++ preorderRow (start + t.width) ts

end

/-- Every node of a tree, each before those below it. -/
def nodes (n : Located) : List Located := (preorder n.start n.tree).filter isNode

/-- Every token of a tree from left to right. -/
def tokens (n : Located) : List Located := (preorder n.start n.tree).filter (!·.isNode)

/-- The same tree at the same place. -/
def same (a b : Located) : Bool := a.start == b.start && a.tree == b.tree

end Located

end Modelica
