import Modelica.Grammar.Element
import Modelica.Routine.Modification

/-!
# Routines for elements
-/

namespace Modelica.Routine

def elements : Routine Unit := repeatUntil Lookahead.atSectionBoundary (rule .element)

def element : Routine Unit := do
  let v ← look
  match v.kind with
  | .importKw => rule .importClause
  | .extendsKw => rule .extendsClause
  | .redeclareKw | .finalKw | .innerKw | .outerKw | .replaceableKw | .encapsulatedKw =>
    rule .namedElementClause
  | kind =>
    if v.seesAny Kind.classPrefixStart || v.seesAny Kind.componentClauseStart then
      rule .namedElementClause
    else
      recoverThroughSemicolon .unexpectedInClass
        ("unexpected " ++ kind.displayName ++ " " ++ v.context.description ++ "; expected " ++
          Context.expectation .classBody)

def importClause : Routine Unit := do
  let kind := (← look).importKind
  startNode kind
  bump
  withContext .importClause do
    match kind with
    | .compoundImportClause =>
      rule .name
      bump
      bump
      separated .comma (expect .ident)
      expect .rBrace
    | .unqualifiedImportClause =>
      rule .name
      if !(← ate .dotStar) then
        bump
        bump
    | _ =>
      let v ← look
      if v.sees .ident && v.nth 1 == .equals then
        bump
        bump
      if (← sees .ident) then
        rule .name
      else
        errorExpected .invalidImport [.ident]
    rule .comment
    expect .semicolon
  finishNode

def extendsClause : Routine Unit := do
  startNode .extendsClause
  bump
  rule .typeSpecifier
  if (← sees .lParen) then
    rule .classOrInheritanceModification
  if (← sees .annotationKw) then
    rule .annotationClause
  expect .semicolon
  finishNode

def constrainingClause : Routine Unit := do
  startNode .constrainingClause
  bump
  rule .typeSpecifier
  if (← sees .lParen) then
    rule .classModification
  finishNode

def namedElementClause : Routine Unit := do
  startNode .namedElementClause
  for modifier in [.redeclareKw, .finalKw, .innerKw, .outerKw, .replaceableKw] do
    eat modifier
  if (← look).atClassDefinition then
    rule .classDefinition
  else
    rule .componentClause
  if (← sees .constrainedbyKw) then
    rule .constrainingClause
    rule .comment
  expect .semicolon
  finishNode

def typePrefix : Routine Unit := do
  for group in [[.flowKw, .streamKw], [.discreteKw, .parameterKw, .constantKw],
      [.inputKw, .outputKw]] do
    if (← seesAny group) then
      bump

def componentClause : Routine Unit := do
  startNode .componentClause
  rule .typePrefix
  rule .typeSpecifier
  if (← sees .lBracket) then
    rule .arraySubscripts
  separated .comma (rule .componentDeclaration)
  finishNode

def componentDeclaration : Routine Unit := do
  startNode .componentDeclaration
  rule .declaration
  if (← sees .ifKw) then
    startNode .conditionAttribute
    bump
    rule .expression
    finishNode
  rule .comment
  finishNode

def declaration : Routine Unit := do
  startNode .declaration
  expect .ident
  if (← sees .lBracket) then
    rule .arraySubscripts
  if (← seesAny Grammar.modificationStart) then
    rule .modification
  finishNode

end Modelica.Routine
