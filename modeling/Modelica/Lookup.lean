import Modelica.Kind.Supertype
import Modelica.Located

/-!
# Looking things up in a tree

`nodeAtRange?` finds the smallest node around a range, `tokenAt?` the token at an offset and
`nodeAt?` the node that holds it. Both descend from the root, at each level into the child that
reaches over the place in question.
-/

namespace Modelica

/-- The text between two offsets, unless one of them is past the end or inside a character. -/
def textBetween? (text : String) (start stop : Nat) : Option String :=
  if start ≤ stop then
    (go start text.toList).bind fun rest => (keep (stop - start) rest).map String.ofList
  else none
where
  /-- What is left after so many bytes. -/
  go : Nat → List Char → Option (List Char)
    | 0, cs => some cs
    | _ + 1, [] => none
    | n + 1, c :: cs => if c.utf8Size ≤ n + 1 then go (n + 1 - c.utf8Size) cs else none
  /-- The characters of the next so many bytes. -/
  keep : Nat → List Char → Option (List Char)
    | 0, _ => some []
    | _ + 1, [] => none
    | n + 1, c :: cs =>
      if c.utf8Size ≤ n + 1 then (keep (n + 1 - c.utf8Size) cs).map (c :: ·) else none

namespace Located

/-- The trees met on a way down: `choose` says which child to go on with. -/
def descend (choose : Located → Option Located) : Nat → Located → List Located
  | 0, n => [n]
  | steps + 1, n =>
    match choose n with
    | some child => n :: descend choose steps child
    | none => [n]

/-- The way down from a tree as far as `choose` goes. -/
def path (choose : Located → Option Located) (n : Located) : List Located :=
  descend choose n.tree.height n

def contains (n : Located) (s : Span) : Bool := n.start ≤ s.start && s.stop ≤ n.stop

/-- The child that a range leads to: one that overlaps it; for an empty range between two children
the last one that ends there, or the first child when none does. -/
def candidate? (s : Span) (children : List Located) : Option Located :=
  (children.find? fun c => s.start < c.stop && c.start < s.stop) <|>
  (children.filter (·.stop ≤ s.start)).getLast? <|>
  children.head?

/-- The child to go on with in search of the smallest tree around a range. -/
def towardsRange (s : Span) (n : Located) : Option Located :=
  (candidate? s n.children).filter (·.contains s)

/-- The smallest node around a range. -/
def nodeAtRange? (n : Located) (s : Span) : Option Located :=
  if n.contains s then ((n.path (towardsRange s)).filter isNode).getLast? else none

/-- The child to go on with in search of the token at an offset. Of two children that meet there it
is the second; empty ones do not count. -/
def towardsOffset (offset : Nat) (n : Located) : Option Located :=
  (n.children.filter fun c => c.start < c.stop && c.start ≤ offset && offset ≤ c.stop).getLast?

/-- The token at an offset: the one that starts there where two tokens meet. -/
def tokenAt? (n : Located) (offset : Nat) : Option Located :=
  ((n.path (towardsOffset offset)).getLast?).filter (!·.isNode)

/-- The innermost node that holds the token at an offset. -/
def nodeAt? (n : Located) (offset : Nat) : Option Located :=
  if (n.tokenAt? offset).isSome then
    ((n.path (towardsOffset offset)).filter isNode).getLast?
  else none

/-- Every node of a kind, in the order of the text. -/
def nodesOfKind (n : Located) (k : Kind) : List Located := n.nodes.filter (·.kind == k)

/-- Every node whose kind is an alternative of a choice, in the order of the text. -/
def nodesOfSupertype (n : Located) (s : Supertype) : List Located := n.nodes.filter (·.kind.isA s)

end Located

end Modelica
