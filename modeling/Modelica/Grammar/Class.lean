import Modelica.Grammar.Block

/-!
# Classes

A stored definition is a list of class definitions. A class has prefixes and a specifier in one of
three forms; the long form has a body of element lists and sections and ends by naming the class
again.
-/

namespace Modelica.Grammar

open Production

/-- `WithinClause? ClassDefinitionClause*` -/
def storedDefinition : Production :=
  node .storedDefinition [
    before .withinKw (call .withinClause),
    many (!·.atEnd) fun _ => look fun v =>
      if v.sees .finalKw || v.atClassDefinition then call .classDefinitionClause
      else skipUntil .unexpectedToken
        ("expected " ++ Context.expectation .topLevel ++ ", found " ++ v.kind.displayName)
        (Context.recovery .topLevel)]

/-- `'within' Name? ';'` -/
def withinClause : Production :=
  node .withinClause [shift, before .ident (call .name), expect .semicolon]

/-- `'final'? ClassDefinition ';'` -/
def classDefinitionClause : Production :=
  node .classDefinitionClause [
    accept .finalKw, call .classDefinition, expect .semicolon]

/-- `'encapsulated'? ClassPrefixes ClassSpecifier` -/
def classDefinition : Production :=
  deeper <| node .classDefinition [
    accept .encapsulatedKw,
    inContext .classDefinition (call .classPrefixes),
    look fun v =>
      match v.classSpecifierKind with
      | .shortClassSpecifier => call .shortClassSpecifier
      | .derClassSpecifier => call .derClassSpecifier
      | _ => call .longClassSpecifier]

/-- The keywords that say which kind of class is defined. -/
def classKinds : List Kind := [
  .classKw, .modelKw, .recordKw, .blockKw, .connectorKw, .typeKw, .packageKw, .functionKw,
  .operatorKw]

/-- One of the keywords that a class prefix asks for. -/
def expectClassKind (kinds : List Kind) : Production :=
  look fun v => if v.seesAny kinds then shift else missing .missingClassKind kinds

/-- `'partial'? ('class' | 'model' | 'operator'? 'record' | 'block' | 'expandable'? 'connector' |
'type' | 'package' | ('pure' | 'impure')? 'operator'? 'function' | 'operator')` -/
def classPrefixes : Production :=
  node .classPrefixes [
    accept .partialKw,
    look fun v =>
      match v.kind with
      | .classKw | .modelKw | .recordKw | .blockKw | .connectorKw | .typeKw | .packageKw
      | .functionKw => shift
      | .expandableKw => seq [shift, expectClassKind [.connectorKw]]
      | .operatorKw => seq [shift, acceptAny [.recordKw, .functionKw]]
      | .pureKw | .impureKw => seq [
          shift, accept .operatorKw, expectClassKind [.functionKw]]
      | _ => missing .missingClassKind classKinds]

/-- The warning that the name after `end` is not the name of the class. -/
def endNameMismatch (v : Lookahead) (name : String) (opened : Spot) : Diagnostic Spot :=
  { Diagnostic.ofCode .endNameMismatch v.index with
    message := "`end " ++ v.text ++ "` does not match class `" ++ name ++ "`",
    severity := .warning, related := [⟨"class name", opened⟩],
    hint := some ("write `end " ++ name ++ "`") }

/-- `'end' IDENT`, where the identifier should repeat the name of the class. -/
def classEnd (name : Option String) (opened : Spot) : Production :=
  look fun v =>
    if v.sees .endKw then seq [
      shift,
      look fun w =>
        if w.sees .ident then seq [
          match name with
          | some n => if w.text = n then done else report (endNameMismatch w n opened)
          | none => done,
          shift]
        else missing .missingIdentifier [.ident]]
    else report { Diagnostic.ofCode .missingEnd v.index with
      message := Diagnostic.expectedMessage [.endKw] v.found v.context,
      expected := [.endKw], found := v.found,
      related := [⟨match name with
        | some n => "class `" ++ n ++ "` opened here"
        | none => "class opened here", opened⟩] }

/-- `(IDENT | 'extends' IDENT ClassModification?) DescriptionString? ClassBody
ExternalFunctionClause? (AnnotationClause ';')? 'end' IDENT` -/
def longClassSpecifier : Production :=
  look fun start => node .longClassSpecifier [
    accept .extendsKw,
    look fun v => seq [
      expect .ident,
      if start.sees .extendsKw then before .lParen (call .classModification) else done,
      before .string (call .descriptionString),
      inContext .classBody (call .classBody),
      before .externalKw (call .externalFunctionClause),
      before .annotationKw <| seq [call .annotationClause, expect .semicolon],
      classEnd (if v.sees .ident then some v.text else none) start.index]]

/-- One more list of elements or section follows in the body of a class. -/
def atClassSection (v : Lookahead) : Bool :=
  match v.kind with
  | .publicKw | .protectedKw | .equationKw | .algorithmKw => true
  | .initialKw => v.initialOpensSection
  | .endKw => v.atBlockEnd
  | _ => false

/-- A list of elements, a section, or an `end if` that closes nothing. -/
def classSection : Production :=
  look fun v =>
    match v.kind with
    | .publicKw | .protectedKw => node .elementList [shift, call .elements]
    | .equationKw => call .equationSection
    | .algorithmKw => call .algorithmSection
    | .initialKw =>
      if v.nth 1 = .equationKw then call .equationSection else call .algorithmSection
    | _ => strayEnd

/-- `InitialElementList? (ElementList | EquationSection | AlgorithmSection)*` -/
def classBody : Production :=
  seq [
    look fun v =>
      if v.atSectionBoundary then done else node .initialElementList [call .elements],
    many atClassSection fun _ => classSection]

/-- `IDENT DescriptionString? AnnotationClause?` -/
def enumerationLiteral : Production := node .enumerationLiteral [expect .ident, call .comment]

/-- `'enumeration' '(' (EnumerationLiteral (',' EnumerationLiteral)* | ':')? ')'` -/
def enumeration : Production :=
  seq [
    shift,
    expectThen .lParen <| seq [
      look fun v =>
        if v.sees .colon then shift
        else if v.sees .ident then separated .comma (call .enumerationLiteral)
        else done,
      expect .rParen]]

/-- `('input' | 'output')? TypeSpecifier ArraySubscripts? ClassModification?` -/
def derivedType : Production :=
  seq [
    acceptAny [.inputKw, .outputKw],
    call .typeSpecifier,
    before .lBracket (call .arraySubscripts),
    before .lParen (call .classModification)]

/-- `IDENT '=' (an enumeration or a type) DescriptionString? AnnotationClause?` -/
def shortClassSpecifier : Production :=
  node .shortClassSpecifier [
    expect .ident,
    expect .equals,
    look fun v => if v.sees .enumerationKw then enumeration else derivedType,
    call .comment]

/-- `IDENT '=' 'der' '(' TypeSpecifier ',' IDENT (',' IDENT)* ')'
DescriptionString? AnnotationClause?` -/
def derClassSpecifier : Production :=
  node .derClassSpecifier [
    shifts 4,
    call .typeSpecifier,
    expect .comma,
    separated .comma (expect .ident),
    expect .rParen,
    call .comment]

/-- `'external' LanguageSpecification? ExternalFunctionCall? AnnotationClause? ';'` -/
def externalFunctionClause : Production :=
  node .externalFunctionClause [
    shift,
    inContext .externalClause <| seq [
      before .string <| node .languageSpecification [single .stringLiteral],
      look fun v => if v.seesAny [.ident, .dot] then call .externalFunctionCall else done,
      before .annotationKw (call .annotationClause),
      expect .semicolon]]

/-- `(ComponentReference '=')? IDENT '(' ExpressionList? ')'` -/
def externalFunctionCall : Production :=
  node .externalFunctionCall [
    look fun v =>
      if v.sees .ident && v.nth 1 == .lParen then done
      else seq [call .componentReference, expect .equals],
    expect .ident,
    expectThen .lParen <| seq [
      look fun v => if v.sees .rParen then done else call .expressionList,
      expect .rParen]]

end Modelica.Grammar
