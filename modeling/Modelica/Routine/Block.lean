import Modelica.Grammar.Block
import Modelica.Routine.Expression

/-!
# Routines for blocks
-/

namespace Modelica.Routine

def missingBlockEnd (keyword : Kind) (opened : Spot) : Routine Unit := do
  let v ← look
  report { Diagnostic.ofCode .missingEnd v.index with
    message := "expected `end " ++ Grammar.keywordText keyword ++ "`, found " ++
      Kind.foundName v.found ++ " " ++ v.context.description,
    expected := [.endKw], found := v.found,
    related := [⟨"`" ++ Grammar.keywordText keyword ++ "` opened here", opened⟩] }

/-- Read the `end` of a block, unless it is missing or belongs to something around the block. -/
def blockEnd (construct : Construct) (opened : Spot) : Routine Bool := do
  let keyword := construct.endKeyword
  let v ← look
  if !v.sees .endKw then
    missingBlockEnd keyword opened
    return false
  if v.nth 1 = keyword then
    bump
    bump
    return true
  if Grammar.endClaimedOutside v then
    missingBlockEnd keyword opened
    return false
  report { Diagnostic.ofCode .mismatchedEnd v.index with
    message := "expected `end " ++ Grammar.keywordText keyword ++ "`, found `end " ++
      Grammar.keywordText (v.nth 1) ++ "`",
    expected := [keyword], found := some (v.nth 1),
    related := [⟨"`" ++ Grammar.keywordText keyword ++ "` opened here", opened⟩] }
  bump
  bump
  return true

def finishBlock (construct : Construct) (opened : Spot) : Routine Unit := do
  if (← blockEnd construct opened) then
    rule .comment
    expect .semicolon

def strayEnd : Routine Unit := do
  let target := (← look).nth 1
  error .mismatchedEnd ("`end " ++ Grammar.keywordText target ++ "` without an open `" ++
    Grammar.keywordText target ++ "`")
  startNode .error
  bump
  bump
  eat .semicolon
  finishNode

def body (family : Family) : Routine Unit :=
  repeatUntil (·.bodyEnds family.category) (rule (.item family))

def sectionBody (family : Family) : Routine Unit :=
  repeatUntil (fun v => v.bodyEnds family.category && !v.atBlockEnd) do
    if (← look).atBlockEnd then
      strayEnd
    else
      rule (.item family)

/-- A clause keyword with its head under an `error` node. -/
def clauseHeadAsError (kind : Kind) : Routine Unit := do
  startNode .error
  bump
  if kind != .elseKw then
    rule .expression
    eat .thenKw
  finishNode

def strayClause (family : Family) : Routine Unit := do
  let v ← look
  let owner := Grammar.keywordText (((clauseOwner? v.kind).map Construct.endKeyword).getD .ifKw)
  match v.clauseResolution family.category with
  | .ambiguous =>
    error .ambiguousClause (v.kind.displayName ++ " could close more than one open `" ++ owner ++
      "`")
  | _ => error .orphanClause (v.kind.displayName ++ " without an enclosing `" ++ owner ++ "`")
  clauseHeadAsError v.kind

def elseIfClause (family : Family) : Routine Unit := do
  startNode family.elseIfKind
  bump
  rule .expression
  expect .thenKw
  rule (.body family)
  finishNode

def elseClause (family : Family) : Routine Unit := do
  startNode family.elseKind
  bump
  rule (.body family)
  finishNode

def elseWhenClause (family : Family) : Routine Unit := do
  startNode family.elseWhenKind
  bump
  rule .expression
  expect .thenKw
  rule (.body family)
  finishNode

/-- The clauses of an `if`. One after the `else` is reported, and its items stay in the block. -/
def ifClauses (family : Family) (elseBefore : Bool) : Routine Unit := do
  let mut seenElse := elseBefore
  for _ in forever do
    let v ← look
    if !v.clauseAttaches family.category then
      break
    if seenElse then
      error .unexpectedToken (v.kind.displayName ++ " after `else` in the same `if`")
      clauseHeadAsError v.kind
      rule (.body family)
    else
      match v.kind with
      | .elseifKw => rule (.elseIfClause family)
      | .elseKw =>
        rule (.elseClause family)
        seenElse := true
      | _ => break

def ifBlock (family : Family) : Routine Unit := do
  let opened := (← look).index
  startNode family.ifKind
  bump
  rule .expression
  expect .thenKw
  openConstruct ⟨.ifBlock, family.category⟩
  rule (.body family)
  ifClauses family false
  closeConstruct
  finishBlock .ifBlock opened
  finishNode

def whenBlock (family : Family) : Routine Unit := do
  let opened := (← look).index
  startNode family.whenKind
  bump
  rule .expression
  expect .thenKw
  openConstruct ⟨.whenBlock, family.category⟩
  rule (.body family)
  repeatWhile (fun v => v.sees .elsewhenKw && v.clauseAttaches family.category) fun _ =>
    rule (.elseWhenClause family)
  closeConstruct
  finishBlock .whenBlock opened
  finishNode

def forBlock (family : Family) : Routine Unit := do
  let opened := (← look).index
  startNode family.forKind
  bump
  separated .comma (rule .forIndex)
  expect .loopKw
  openConstruct ⟨.forBlock, family.category⟩
  rule (.body family)
  closeConstruct
  finishBlock .forBlock opened
  finishNode

def whileBlock : Routine Unit := do
  let opened := (← look).index
  startNode .whileStatement
  bump
  rule .expression
  expect .loopKw
  openConstruct ⟨.whileBlock, .statement⟩
  rule (.body .statements)
  closeConstruct
  finishBlock .whileBlock opened
  finishNode

end Modelica.Routine
