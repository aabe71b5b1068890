import Modelica.Grammar.Modification
import Modelica.Routine.Expression

/-!
# Routines for comments and modifications
-/

namespace Modelica.Routine

def descriptionString : Routine Unit := do
  startNode .descriptionString
  separated .plus do
    if (← sees .string) then
      single .stringLiteral
    else
      errorExpected .expectedToken [.string]
  finishNode

def annotationClause : Routine Unit := do
  startNode .annotationClause
  expect .annotationKw
  if (← sees .lParen) then
    rule .classModification
  else
    errorExpected .expectedToken [.lParen]
  finishNode

def comment : Routine Unit := do
  if (← sees .string) then
    rule .descriptionString
  if (← sees .annotationKw) then
    rule .annotationClause

def modification : Routine Unit := do
  startNode .modification
  if (← sees .lParen) then
    rule .classModification
    if (← ate .equals) then
      rule .modificationExpression
  else
    bump
    rule .modificationExpression
  finishNode

def modificationExpression : Routine Unit := do
  startNode .modificationExpression
  if !(← ate .breakKw) then
    rule .expression
  finishNode

def classModification : Routine Unit := do
  startNode .classModification
  bump
  withContext .modification do
    if !(← sees .rParen) then
      separated .comma (rule .argument)
    expect .rParen
  finishNode

def classOrInheritanceModification : Routine Unit := do
  startNode .classOrInheritanceModification
  bump
  withContext .modification do
    if !(← sees .rParen) then
      separated .comma do
        if (← sees .breakKw) then
          rule .inheritanceModification
        else
          rule .argument
    expect .rParen
  finishNode

def inheritanceModification : Routine Unit := do
  startNode .inheritanceModification
  bump
  if (← sees .connectKw) then
    rule .connectClause
  else
    expect .ident
  finishNode

def connectClause : Routine Unit := do
  startNode .connectClause
  bump
  if (← expected .lParen) then
    rule .componentReference
    expect .comma
    rule .componentReference
    expect .rParen
  finishNode

def argument : Routine Unit := do
  let v ← look
  if v.sees .redeclareKw then
    rule .elementRedeclaration
  else
    match v.argumentHead with
    | .replaceableKw => rule .elementReplaceable
    | .ident => rule .elementModification
    | _ =>
      let message := "expected " ++ Context.expectation .modification ++ ", found " ++
        v.kind.displayName
      if v.seesAny [.comma, .rParen] || v.atEnd then
        error .expectedToken (message ++ " " ++ v.context.description)
      else
        errorRecover .unexpectedToken message (Context.recovery .modification)

def elementModification : Routine Unit := do
  startNode .elementModification
  eat .eachKw
  eat .finalKw
  if (← look).chainHasSubscripts then
    rule .componentReference
  else
    rule .name
  if (← seesAny Grammar.modificationStart) then
    rule .modification
  if (← sees .string) then
    rule .descriptionString
  finishNode

def elementRedeclaration : Routine Unit := do
  startNode .elementRedeclaration
  bump
  eat .eachKw
  eat .finalKw
  eat .replaceableKw
  rule .redeclaredElement
  finishNode

def elementReplaceable : Routine Unit := do
  startNode .elementReplaceable
  eat .eachKw
  eat .finalKw
  expect .replaceableKw
  rule .redeclaredElement
  finishNode

def redeclaredElement : Routine Unit := do
  if (← seesAny Kind.classPrefixStart) then
    startNode .shortClassDefinition
    rule .classPrefixes
    rule .shortClassSpecifier
    finishNode
  else
    rule .componentClause1
  if (← sees .constrainedbyKw) then
    rule .constrainingClause

def componentClause1 : Routine Unit := do
  startNode .componentClause1
  rule .typePrefix
  rule .typeSpecifier
  startNode .componentDeclaration1
  rule .declaration
  rule .comment
  finishNode
  finishNode

end Modelica.Routine
