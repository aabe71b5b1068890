import Modelica.Production
import Modelica.Tree.Weave

/-!
# The tree builder

A parser puts its tree together with a builder. The builder has all finished trees in one row and
knows of each open node where its children begin in that row; a node that is opened late, at a
place in the row that was marked before, takes in the trees that stand after the mark. Beside it
there are stacks for the context and for the open blocks, and a counter for the levels. Each of
these can be tripped: by a mark that is no longer good, or by taking off what was not put on. A
step that trips gives `none`.
-/

namespace Modelica

structure Builder where
  /-- The tokens that are in no tree yet. -/
  pending : List Token
  /-- The significant tokens not read yet. -/
  ahead : List Token
  index : Spot
  /-- The finished trees of all open nodes in one row, the last one first. -/
  finished : List Tree
  /-- The open nodes, innermost first, each with the number of trees before its children. -/
  nodes : List (Kind × Nat)
  contexts : List Context
  constructs : List OpenConstruct
  depth : Nat
  limit : Nat
  faults : List (Diagnostic Spot)
  deriving Inhabited

namespace Builder

def start (limit : Nat) (tokens : List Token) : Builder where
  pending := tokens
  ahead := Token.significant tokens
  index := 0
  finished := []
  nodes := []
  contexts := []
  constructs := []
  depth := 0
  limit := limit
  faults := []

def context (b : Builder) : Context := b.contexts.head?.getD .topLevel

def look (b : Builder) : Lookahead := ⟨b.ahead, b.index, b.context, b.constructs⟩

def openNode (kind : Kind) (b : Builder) : Builder :=
  { b with nodes := (kind, b.finished.length) :: b.nodes }

/-- Open a node at a mark, which must lie in the innermost open node. -/
def openAt (mark : Nat) (kind : Kind) (b : Builder) : Option Builder :=
  if mark ≤ b.finished.length ∧ ∀ n ∈ b.nodes.head?, n.2 ≤ mark then
    some { b with nodes := (kind, mark) :: b.nodes }
  else none

/-- Close the innermost open node over the trees since it was opened. -/
def closeNode (b : Builder) : Option Builder :=
  match b.nodes with
  | [] => none
  | (kind, first) :: nodes =>
    if first ≤ b.finished.length then
      let count := b.finished.length - first
      some { b with
        nodes,
        finished := .node kind (b.finished.take count).reverse :: b.finished.drop count }
    else none

def add (t : Token) (b : Builder) : Builder := { b with finished := .leaf t :: b.finished }

/-- Trees are complete when one node is left and none is open. -/
def finish (b : Builder) : Option Tree :=
  match b.nodes, b.finished with
  | [], [.node k cs] => some (.node k cs)
  | _, _ => none

/-- Add a token of a gap; a bad one gets a node of its own. -/
def addGapToken (b : Builder) (t : Token) : Option Builder :=
  if t.kind = .error then ((b.openNode .error).add t).closeNode else some (b.add t)

/-- Add the tokens before the next significant one. -/
def flush (b : Builder) : Option Builder := do
  let b' ← (b.pending.takeWhile (!·.isSignificant)).foldlM addGapToken b
  some { b' with pending := Tree.afterGap b.pending }

/-- Before a node starts, the gap goes into the node around it. A gap before the root, and one
after the last token, waits. -/
def flushLeading (b : Builder) : Option Builder :=
  if b.nodes ≠ [] ∧ b.ahead ≠ [] then b.flush else some b

/-- Add the next significant token with the gap before it. -/
def read (b : Builder) : Option Builder :=
  match b.ahead with
  | [] => some b
  | _ :: ahead => do
    let b' ← b.flush
    match b'.pending with
    | [] => none
    | t :: pending => some { b'.add t with pending, ahead, index := b.index + 1 }

/-- Close a node; the root takes the gap at the end in. -/
def close (b : Builder) : Option Builder :=
  if b.nodes.length = 1 then do (← b.flush).closeNode else b.closeNode

def pushContext (context : Context) (b : Builder) : Builder :=
  { b with contexts := context :: b.contexts }

def popContext (b : Builder) : Option Builder :=
  match b.contexts with
  | [] => none
  | _ :: contexts => some { b with contexts }

def pushConstruct (block : OpenConstruct) (b : Builder) : Builder :=
  { b with constructs := block :: b.constructs }

def popConstruct (b : Builder) : Option Builder :=
  match b.constructs with
  | [] => none
  | _ :: constructs => some { b with constructs }

def enter (b : Builder) : Builder := { b with depth := b.depth + 1 }

def leave (b : Builder) : Option Builder :=
  match b.depth with
  | 0 => none
  | depth + 1 => some { b with depth }

def report (fault : Diagnostic Spot) (b : Builder) : Builder :=
  { b with faults := (Reading.report fault ⟨b.ahead, b.index, [], b.faults⟩).faults }

end Builder

end Modelica
