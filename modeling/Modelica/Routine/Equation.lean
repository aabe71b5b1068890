import Modelica.Grammar.Equation
import Modelica.Routine.Block

/-!
# Routines for equations and statements
-/

namespace Modelica.Routine

def item : Family → Routine Unit
  | .equations => rule .equation
  | .statements => rule .statement

def equationSection : Routine Unit := do
  startNode .equationSection
  eat .initialKw
  expect .equationKw
  withContext .equationSection (rule (.sectionBody .equations))
  finishNode

def equation : Routine Unit := do
  if !(← enterNesting) then
    skipNested
    exitNesting
    return
  let v ← look
  match v.kind with
  | .ifKw => rule (.ifBlock .equations)
  | .forKw => rule (.forBlock .equations)
  | .whenKw => rule (.whenBlock .equations)
  | .connectKw => rule .connectEquation
  | .elseifKw | .elseKw | .elsewhenKw => strayClause .equations
  | kind =>
    if v.atCallEquation then
      rule .specialEquation
    else if v.atPrimaryStart || (Band.unaryLevel? kind).isSome then
      rule .simpleEquation
    else
      recoverThroughSemicolon .unexpectedToken
        ("expected an equation, found " ++ kind.displayName ++ " " ++ v.context.description)
  exitNesting

def simpleEquation : Routine Unit := do
  startNode .simpleEquation
  rule .simpleExpression
  let v ← look
  match v.kind with
  | .equals =>
    bump
    rule .expression
  | .assign =>
    report { Diagnostic.ofCode .assignInEquation v.index with
      expected := [.equals], found := some .assign,
      hint := some "equations use `=`; `:=` belongs in algorithm sections" }
    bump
    rule .expression
  | _ => errorExpected .missingEquals [.equals]
  rule .comment
  expect .semicolon
  finishNode

def specialEquation : Routine Unit := do
  startNode .specialEquation
  rule .componentReference
  rule .callArguments
  rule .comment
  expect .semicolon
  finishNode

def connectEquation : Routine Unit := do
  startNode .connectEquation
  rule .connectClause
  rule .comment
  expect .semicolon
  finishNode

def algorithmSection : Routine Unit := do
  startNode .algorithmSection
  eat .initialKw
  expect .algorithmKw
  withContext .algorithmSection (rule (.sectionBody .statements))
  finishNode

def statement : Routine Unit := do
  if !(← enterNesting) then
    skipNested
    exitNesting
    return
  let v ← look
  match v.kind with
  | .ifKw => rule (.ifBlock .statements)
  | .forKw => rule (.forBlock .statements)
  | .whenKw => rule (.whenBlock .statements)
  | .whileKw => rule .whileBlock
  | .breakKw => rule (.keywordStatement .breakStatement)
  | .returnKw => rule (.keywordStatement .returnStatement)
  | .lParen => rule .destructuringAssignment
  | .ident | .dot => rule .referenceStatement
  | .elseifKw | .elseKw | .elsewhenKw => strayClause .statements
  | kind =>
    recoverThroughSemicolon .notAStatement
      ("expected a statement, found " ++ kind.displayName ++ " " ++ v.context.description)
  exitNesting

def keywordStatement (kind : Kind) : Routine Unit := do
  startNode kind
  bump
  rule .comment
  expect .semicolon
  finishNode

/-- Assignments and calls start alike; the node is started at the mark once the token after the
reference tells which it is. -/
def referenceStatement : Routine Unit := do
  let mark ← checkpoint
  rule .componentReference
  let v ← look
  match v.kind with
  | .assign =>
    startNodeAt mark .simpleAssignmentStatement
    bump
    rule .expression
  | .lParen =>
    startNodeAt mark .functionCallStatement
    rule .callArguments
  | .equals =>
    startNodeAt mark .simpleAssignmentStatement
    report { Diagnostic.ofCode .notAStatement v.index with
      message := "`=` is not an assignment in algorithm sections",
      expected := [.assign], found := some .equals, hint := some "use `:=` to assign" }
    bump
    rule .expression
  | _ =>
    startNodeAt mark .simpleAssignmentStatement
    errorExpected .notAStatement [.assign, .lParen]
  rule .comment
  expect .semicolon
  finishNode

def destructuringAssignment : Routine Unit := do
  startNode .destructuringAssignmentStatement
  rule .parenthesized
  expect .assign
  if (← seesAny [.ident, .dot]) then
    rule .componentReference
    rule .callArguments
  else
    errorExpected .notAStatement [.ident]
  rule .comment
  expect .semicolon
  finishNode

end Modelica.Routine
