import Modelica.Grammar.Expression
import Modelica.Routine

/-!
# Routines for expressions

Names and references, operators, primary expressions and arguments.
-/

namespace Modelica.Routine

/-- A node over one token. -/
def single (kind : Kind) : Routine Unit := do
  startNode kind
  bump
  finishNode

def name : Routine Unit := do
  startNode .name
  expect .ident
  repeatWhile Lookahead.continuesChain fun _ => do
    bump
    bump
  finishNode

def typeSpecifier : Routine Unit := do
  startNode .typeSpecifier
  eat .dot
  if (← sees .ident) then
    rule .name
  else
    errorExpected .missingType [.ident]
  finishNode

def componentReference : Routine Unit := do
  startNode .componentReference
  eat .dot
  for _ in forever do
    rule .componentReferencePart
    if !(← look).continuesChain then
      break
    bump
  finishNode

def componentReferencePart : Routine Unit := do
  startNode .componentReferencePart
  expect .ident
  if (← sees .lBracket) then
    rule .arraySubscripts
  finishNode

def arraySubscripts : Routine Unit := do
  startNode .arraySubscripts
  bump
  withContext .arraySubscripts do
    separated .comma (rule .subscript)
    expect .rBracket
  finishNode

def subscript : Routine Unit := do
  startNode .subscript
  let v ← look
  if v.sees .colon && (v.nth 1 == .comma || v.nth 1 == .rBracket) then
    bump
  else
    rule .expression
  finishNode

/-! ## Expressions and operators -/

def expression : Routine Unit := do
  if !(← enterNesting) then
    skipNested
    exitNesting
    return
  if (← sees .ifKw) then
    rule .ifExpression
  else
    let mark ← checkpoint
    rule .simpleExpression
    if (← sees .colon) then
      startNodeAt mark .rangeExpression
      bump
      rule .simpleExpression
      if (← ate .colon) then
        rule .simpleExpression
      finishNode
  exitNesting

def ifExpression : Routine Unit := do
  startNode .ifExpression
  let opened := (← look).index
  bump
  openConstruct ⟨.ifBlock, .expression⟩
  rule .expression
  expect .thenKw
  rule .expression
  repeatWhile (·.sees .elseifKw) fun _ => do
    startNode .elseIfExpressionClause
    bump
    rule .expression
    expect .thenKw
    rule .expression
    finishNode
  let v ← look
  if v.sees .elseKw then
    bump
    rule .expression
  else
    report { Diagnostic.ofCode .expectedToken v.index with
      message := Diagnostic.expectedMessage [.elseKw] v.found v.context,
      expected := [.elseifKw, .elseKw], found := v.found,
      related := [⟨"`if` expression opened here", opened⟩],
      hint := some "an if-expression always needs an `else` branch" }
  closeConstruct
  finishNode

/-- The operators after the first operand. The node of each is started at the mark of that operand,
which has become its left one. -/
def operations (least mark : Nat) (before : Option Nat) : Routine Unit := do
  let mut previous := before
  for _ in forever do
    let v ← look
    match Band.binaryLevel? v.kind least with
    | none => break
    | some level =>
      if Band.associativityAt level = .neither ∧ previous = some level then
        report { Diagnostic.ofCode .chainedRelation v.index with
          found := some v.kind, hint := some "add parentheses to group the comparison" }
      startNodeAt mark .binaryExpression
      bump
      if Band.associativityAt level = .right then
        rule (.operand level)
      else
        rule (.band (level + 1))
      finishNode
      previous := some level

def band (least : Nat) : Routine Unit := do
  let mark ← checkpoint
  let v ← look
  match Band.unaryLevel? v.kind with
  | none => rule .primary
  | some level =>
    if least ≤ level then
      rule (.unary level)
    else
      error .misplacedUnary ("prefix " ++ v.kind.displayName ++
        " is not allowed here; wrap the operand in parentheses")
      rule (.unary level)
  operations least mark none

def unary (level : Nat) : Routine Unit := do
  startNode .unaryExpression
  bump
  rule (.operand level)
  finishNode

def operand (level : Nat) : Routine Unit := do
  if (← enterNesting) then
    rule (.band level)
  else
    skipNested
  exitNesting

/-! ## Primary expressions -/

def missingExpression : Routine Unit := do
  let v ← look
  error .missingExpression ("expected an expression, found " ++ v.kind.displayName ++ " " ++
    v.context.description)
  startNode .error
  if (Band.binaryLevel? v.kind 0).isSome then
    bump
  finishNode

def primary : Routine Unit := do
  let v ← look
  match v.kind with
  | .unsignedInteger => single .unsignedIntegerLiteral
  | .unsignedReal => single .unsignedRealLiteral
  | .string => single .stringLiteral
  | .trueKw | .falseKw => single .logicalLiteral
  | .derKw | .initialKw | .pureKw =>
    startNode .functionCall
    bump
    rule .callArguments
    finishNode
  | .ident | .dot =>
    let mark ← checkpoint
    rule .componentReference
    if (← sees .lParen) then
      startNodeAt mark .functionCall
      rule .callArguments
      finishNode
  | .lParen => rule .parenthesized
  | .lBracket => rule .arrayConcatenation
  | .lBrace => rule .arrayConstructor
  | .endKw =>
    if v.endIsExpression then
      single .endExpression
    else
      missingExpression
  | _ => missingExpression

/-- Positions may be empty, as in `(a, , b) := f(x)`. -/
def parenthesized : Routine Unit := do
  startNode .parenthesizedExpression
  bump
  withContext .expression do
    if !(← sees .rParen) then
      for _ in forever do
        if !(← seesAny [.comma, .rParen]) then
          rule .expression
        if !(← ate .comma) then
          break
    expect .rParen
  finishNode

def arrayConcatenation : Routine Unit := do
  startNode .arrayConcatenation
  bump
  withContext .expression do
    separated .semicolon (rule .expressionList)
    expect .rBracket
  finishNode

def forIndices : Routine Unit := do
  bump
  separated .comma (rule .forIndex)

def forIndex : Routine Unit := do
  startNode .forIndex
  expect .ident
  if (← ate .inKw) then
    rule .expression
  finishNode

def arrayConstructor : Routine Unit := do
  startNode .arrayConstructor
  bump
  withContext .expression do
    if !(← sees .rBrace) then
      let mark ← checkpoint
      rule .expression
      if (← sees .forKw) then
        startNodeAt mark .comprehensionClause
        forIndices
        finishNode
      else
        startNodeAt mark .expressionList
        repeatWhile (·.sees .comma) fun _ => do
          bump
          rule .expression
        finishNode
    expect .rBrace
  finishNode

def expressionList : Routine Unit := do
  startNode .expressionList
  separated .comma (rule .expression)
  finishNode

/-! ## Arguments -/

def callArguments : Routine Unit := do
  if !(← expected .lParen) then
    return
  withContext .argumentList do
    if !(← sees .rParen) then
      rule .functionArguments
    expect .rParen

/-- The arguments after the first. Once one is a named one, a positional one is reported. -/
def moreArguments (namedBefore : Bool) : Routine Unit := do
  let mut named := namedBefore
  for _ in forever do
    if !(← ate .comma) then
      break
    let v ← look
    if v.atNamedArgument then
      named := true
      rule .namedArgument
    else
      if named then
        report { Diagnostic.ofCode .positionalAfterNamed v.index with
          found := v.found, hint := some "move positional arguments before the named ones" }
      rule .functionArgument

def functionArguments : Routine Unit := do
  startNode .functionArguments
  let first ← look
  if first.atNamedArgument then
    rule .namedArgument
  else if first.sees .functionKw then
    rule .functionArgument
  else
    let mark ← checkpoint
    rule .expression
    if (← sees .forKw) then
      startNodeAt mark .comprehensionClause
      forIndices
      finishNode
    else
      startNodeAt mark .functionArgument
      finishNode
  moreArguments first.atNamedArgument
  finishNode

def functionArgument : Routine Unit := do
  startNode .functionArgument
  if (← sees .functionKw) then
    rule .partialApplication
  else
    rule .expression
  finishNode

def namedArgument : Routine Unit := do
  startNode .namedArgument
  expect .ident
  expect .equals
  rule .functionArgument
  finishNode

def partialApplication : Routine Unit := do
  startNode .functionPartialApplication
  bump
  rule .typeSpecifier
  if (← expected .lParen) then
    if !(← sees .rParen) then
      separated .comma (rule .namedArgument)
    expect .rParen
  finishNode

end Modelica.Routine
