import Modelica.Tree

/-!
# Putting the gaps back

The grammar reads significant tokens only and builds a tree over them. Between two significant
tokens lies a gap: trivia and bad tokens. `Tree.weave` puts the gaps of a text back into such a
tree. A gap goes into the node that is being filled when the next node starts or, if none starts
there, when the next significant token comes; so every node but the root starts with a significant
token, unless it is empty. What follows the last significant token goes to the end of the root.
A bad token gets an `error` node of its own.
-/

namespace Modelica

/-- The tokens of a text that the grammar reads. -/
def Token.significant (ts : List Token) : List Token := ts.filter Token.isSignificant

namespace Tree

/-- A token of a gap as it stands in the tree. -/
def ofGapToken (t : Token) : Tree :=
  if t.kind = .error then node .error [leaf t] else leaf t

/-- The gap that a token list starts with, as trees. -/
def gap (ts : List Token) : List Tree :=
  (ts.takeWhile (!·.isSignificant)).map ofGapToken

/-- What is left of a token list after its gap. -/
def afterGap (ts : List Token) : List Token := ts.dropWhile (!·.isSignificant)

mutual

/-- Weave one child of a node: first the gap before it, unless no significant token is left, then
the child itself. Gives the trees and the tokens that are still to be placed. -/
def weaveChild (ts : List Token) : Tree → List Tree × List Token
  | leaf t =>
    (gap ts ++ [leaf t], (afterGap ts).tail)
  | node k cs =>
    let rest := afterGap ts
    if rest.isEmpty then
      let (woven, left) := weaveAll ts cs
      ([node k woven], left)
    else
      let (woven, left) := weaveAll rest cs
      (gap ts ++ [node k woven], left)

def weaveAll (ts : List Token) : List Tree → List Tree × List Token
  | [] => ([], ts)
  | c :: cs =>
    let (woven, left) := weaveChild ts c
    let (more, last) := weaveAll left cs
    (woven ++ more, last)

end

/-- A tree over the significant tokens of a text, with everything else put back in. -/
def weave (ts : List Token) : Tree → Tree
  | leaf t => leaf t
  | node k cs =>
    let (woven, left) := weaveAll ts cs
    node k (woven ++ gap left)

end Tree

end Modelica
