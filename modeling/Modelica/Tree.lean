import Modelica.Token

/-!
# Syntax trees

A tree holds the tokens of a text as its leaves and labels every inner node with a kind. Read from
left to right its leaves (`Tree.leaves`) spell the text it stands for (`Tree.text`).
-/

namespace Modelica

inductive Tree where
  | leaf (token : Token)
  | node (kind : Kind) (children : List Tree)
  deriving Inhabited

namespace Tree

def kind : Tree → Kind
  | leaf t => t.kind
  | node k _ => k

def children : Tree → List Tree
  | leaf _ => []
  | node _ cs => cs

def isLeaf : Tree → Bool
  | leaf _ => true
  | node .. => false

mutual

/-- The tokens of a tree from left to right. -/
def leaves : Tree → List Token
  | leaf t => [t]
  | node _ cs => leavesOf cs

/-- The tokens of several trees from left to right. -/
def leavesOf : List Tree → List Token
  | [] => []
  | t :: ts => t.leaves ++ leavesOf ts

end

mutual

/-- The number of bytes of a tree's text. -/
def width : Tree → Nat
  | leaf t => t.width
  | node _ cs => widthOf cs

def widthOf : List Tree → Nat
  | [] => 0
  | t :: ts => t.width + widthOf ts

end

mutual

/-- How many steps a way down a tree can have. -/
def height : Tree → Nat
  | leaf _ => 0
  | node _ cs => heightOf cs + 1

def heightOf : List Tree → Nat
  | [] => 0
  | t :: ts => max t.height (heightOf ts)

end

mutual

def beq : Tree → Tree → Bool
  | leaf a, leaf b => a == b
  | node k as, node l bs => k == l && beqAll as bs
  | _, _ => false

def beqAll : List Tree → List Tree → Bool
  | [], [] => true
  | a :: as, b :: bs => a.beq b && beqAll as bs
  | _, _ => false

end

instance : BEq Tree := ⟨beq⟩

/-- The text a tree stands for. -/
def text (t : Tree) : String := Token.concat t.leaves

end Tree

end Modelica
