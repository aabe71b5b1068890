import Modelica.Field
import Modelica.Text.Quoted

/-!
# Outlines

An outline of a tree has a line for every node and every token that is no trivia. A line is
indented by its depth and names the slot that is filled, then the kind; a node adds its span, a
token its text in quotes.
-/

namespace Modelica

namespace Outline

/-- The part of a line that is the same for nodes and tokens. -/
def label (depth : Nat) (slot : Option String) (k : Kind) : String :=
  String.ofList (List.replicate (2 * depth) ' ') ++
    (match slot with
      | some name => name ++ ": "
      | none => "") ++ k.grammarName

mutual

/-- The lines of a tree that fills some slot. -/
def lines (depth : Nat) (slot : Option String) (start : Nat) : Tree → List String
  | .leaf t => if t.isTrivia then [] else [label depth slot t.kind ++ " " ++ Text.quoted t.text]
  | .node k cs =>
    let n : Located := ⟨start, .node k cs⟩
    (label depth slot k ++ " " ++ toString n.start ++ ".." ++ toString n.stop) ::
      linesOf (depth + 1) n.named start cs

/-- The lines of some children of a node, which has named children. -/
def linesOf (depth : Nat) (named : List (String × Located)) (start : Nat) :
    List Tree → List String
  | [] => []
  | t :: ts =>
    lines depth (Located.nameIn named ⟨start, t⟩) start t ++
      linesOf depth named (start + t.width) ts

end

end Outline

/-- The lines of a whole tree. -/
def Tree.outline (t : Tree) : List String := Outline.lines 0 none 0 t

end Modelica
