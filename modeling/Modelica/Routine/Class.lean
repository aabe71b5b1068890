import Modelica.Grammar.Class
import Modelica.Routine.Block

/-!
# Routines for classes
-/

namespace Modelica.Routine

def storedDefinition : Routine Unit := do
  startNode .storedDefinition
  if (← sees .withinKw) then
    rule .withinClause
  repeatWhile (!·.atEnd) fun _ => do
    let v ← look
    if v.sees .finalKw || v.atClassDefinition then
      rule .classDefinitionClause
    else
      errorRecover .unexpectedToken
        ("expected " ++ Context.expectation .topLevel ++ ", found " ++ v.kind.displayName)
        (Context.recovery .topLevel)
  finishNode

def withinClause : Routine Unit := do
  startNode .withinClause
  bump
  if (← sees .ident) then
    rule .name
  expect .semicolon
  finishNode

def classDefinitionClause : Routine Unit := do
  startNode .classDefinitionClause
  eat .finalKw
  rule .classDefinition
  expect .semicolon
  finishNode

def classDefinition : Routine Unit := do
  if !(← enterNesting) then
    skipNested
    exitNesting
    return
  startNode .classDefinition
  eat .encapsulatedKw
  withContext .classDefinition (rule .classPrefixes)
  match (← look).classSpecifierKind with
  | .shortClassSpecifier => rule .shortClassSpecifier
  | .derClassSpecifier => rule .derClassSpecifier
  | _ => rule .longClassSpecifier
  finishNode
  exitNesting

def expectClassKind (kinds : List Kind) : Routine Unit := do
  if (← seesAny kinds) then
    bump
  else
    errorExpected .missingClassKind kinds

def classPrefixes : Routine Unit := do
  startNode .classPrefixes
  eat .partialKw
  match (← look).kind with
  | .classKw | .modelKw | .recordKw | .blockKw | .connectorKw | .typeKw | .packageKw
  | .functionKw => bump
  | .expandableKw =>
    bump
    expectClassKind [.connectorKw]
  | .operatorKw =>
    bump
    if (← seesAny [.recordKw, .functionKw]) then
      bump
  | .pureKw | .impureKw =>
    bump
    eat .operatorKw
    expectClassKind [.functionKw]
  | _ => errorExpected .missingClassKind Grammar.classKinds
  finishNode

/-- Read the `end` of a class and its name, which should be that of the class. -/
def classEnd (name : Option String) (opened : Spot) : Routine Unit := do
  let v ← look
  if !v.sees .endKw then
    report { Diagnostic.ofCode .missingEnd v.index with
      message := Diagnostic.expectedMessage [.endKw] v.found v.context,
      expected := [.endKw], found := v.found,
      related := [⟨match name with
        | some n => "class `" ++ n ++ "` opened here"
        | none => "class opened here", opened⟩] }
    return
  bump
  let w ← look
  if !w.sees .ident then
    errorExpected .missingIdentifier [.ident]
    return
  if let some n := name then
    if w.text != n then
      report (Grammar.endNameMismatch w n opened)
  bump

def longClassSpecifier : Routine Unit := do
  startNode .longClassSpecifier
  let opened := (← look).index
  let extended ← ate .extendsKw
  let v ← look
  let name := if v.sees .ident then some v.text else none
  expect .ident
  if extended then
    if (← sees .lParen) then
      rule .classModification
  if (← sees .string) then
    rule .descriptionString
  withContext .classBody (rule .classBody)
  if (← sees .externalKw) then
    rule .externalFunctionClause
  if (← sees .annotationKw) then
    rule .annotationClause
    expect .semicolon
  classEnd name opened
  finishNode

/-- The lists and sections of a class body. -/
def classSections : Routine Unit := do
  for _ in forever do
    let v ← look
    match v.kind with
    | .publicKw | .protectedKw =>
      startNode .elementList
      bump
      rule .elements
      finishNode
    | .equationKw => rule .equationSection
    | .algorithmKw => rule .algorithmSection
    | .initialKw =>
      if !v.initialOpensSection then
        break
      if v.nth 1 = .equationKw then
        rule .equationSection
      else
        rule .algorithmSection
    | .endKw =>
      if !v.atBlockEnd then
        break
      strayEnd
    | _ => break

def classBody : Routine Unit := do
  if !(← look).atSectionBoundary then
    startNode .initialElementList
    rule .elements
    finishNode
  classSections

def enumerationLiteral : Routine Unit := do
  startNode .enumerationLiteral
  expect .ident
  rule .comment
  finishNode

def shortClassSpecifier : Routine Unit := do
  startNode .shortClassSpecifier
  expect .ident
  expect .equals
  if (← ate .enumerationKw) then
    if (← expected .lParen) then
      let v ← look
      if v.sees .colon then
        bump
      else if v.sees .ident then
        separated .comma (rule .enumerationLiteral)
      expect .rParen
  else
    if (← seesAny [.inputKw, .outputKw]) then
      bump
    rule .typeSpecifier
    if (← sees .lBracket) then
      rule .arraySubscripts
    if (← sees .lParen) then
      rule .classModification
  rule .comment
  finishNode

def derClassSpecifier : Routine Unit := do
  startNode .derClassSpecifier
  bump
  bump
  bump
  bump
  rule .typeSpecifier
  expect .comma
  separated .comma (expect .ident)
  expect .rParen
  rule .comment
  finishNode

def externalFunctionClause : Routine Unit := do
  startNode .externalFunctionClause
  bump
  withContext .externalClause do
    if (← sees .string) then
      startNode .languageSpecification
      single .stringLiteral
      finishNode
    if (← seesAny [.ident, .dot]) then
      rule .externalFunctionCall
    if (← sees .annotationKw) then
      rule .annotationClause
    expect .semicolon
  finishNode

def externalFunctionCall : Routine Unit := do
  startNode .externalFunctionCall
  let v ← look
  if !(v.sees .ident && v.nth 1 == .lParen) then
    rule .componentReference
    expect .equals
  expect .ident
  if (← expected .lParen) then
    if !(← sees .rParen) then
      rule .expressionList
    expect .rParen
  finishNode

end Modelica.Routine
