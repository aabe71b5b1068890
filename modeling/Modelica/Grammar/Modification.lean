import Modelica.Grammar.Name

/-!
# Comments and modifications

Comments are the description string and annotation that may end a declaration, an equation or a
statement. Modifications change declarations, base classes and annotations; their arguments are
modified elements, redeclared ones and replaceable ones.
-/

namespace Modelica.Grammar

open Production

/-- `StringLiteral ('+' StringLiteral)*` -/
def descriptionString : Production :=
  node .descriptionString [
    separated .plus <| look fun v =>
      if v.sees .string then single .stringLiteral else missing .expectedToken [.string]]

/-- `'annotation' ClassModification` -/
def annotationClause : Production :=
  node .annotationClause [
    expect .annotationKw,
    look fun v =>
      if v.sees .lParen then call .classModification else missing .expectedToken [.lParen]]

/-- `DescriptionString? AnnotationClause?` -/
def comment : Production :=
  seq [before .string (call .descriptionString), before .annotationKw (call .annotationClause)]

/-- The tokens that start a modification. -/
def modificationStart : List Kind := [.lParen, .equals, .assign]

/-- `ClassModification ('=' ModificationExpression)? | ('=' | ':=') ModificationExpression` -/
def modification : Production :=
  node .modification [look fun v =>
    if v.sees .lParen then seq [
      call .classModification,
      before .equals <| seq [shift, call .modificationExpression]]
    else seq [shift, call .modificationExpression]]

/-- `'break' | Expression` -/
def modificationExpression : Production :=
  node .modificationExpression [look fun v =>
    if v.sees .breakKw then shift else call .expression]

/-- A list of arguments in parentheses, which may be empty. -/
def argumentGroup (item : Production) : Production :=
  seq [
    shift,
    inContext .modification <| seq [
      look fun v => if v.sees .rParen then done else separated .comma item,
      expect .rParen]]

/-- `'(' (Argument (',' Argument)*)? ')'` -/
def classModification : Production :=
  node .classModification [argumentGroup (call .argument)]

/-- `'(' ((Argument | InheritanceModification) (',' ...)*)? ')'` -/
def classOrInheritanceModification : Production :=
  node .classOrInheritanceModification [argumentGroup <| look fun v =>
    if v.sees .breakKw then call .inheritanceModification else call .argument]

/-- `'break' (ConnectClause | IDENT)` -/
def inheritanceModification : Production :=
  node .inheritanceModification [
    shift,
    look fun v => if v.sees .connectKw then call .connectClause else expect .ident]

/-- `'connect' '(' ComponentReference ',' ComponentReference ')'` -/
def connectClause : Production :=
  node .connectClause [
    shift,
    expectThen .lParen <| seq [
      call .componentReference,
      expect .comma,
      call .componentReference,
      expect .rParen]]

/-- `ElementModification | ElementRedeclaration | ElementReplaceable`; `each` and `final` may come
before the first and the last of them. -/
def argument : Production :=
  look fun v =>
    if v.sees .redeclareKw then call .elementRedeclaration
    else match v.argumentHead with
      | .replaceableKw => call .elementReplaceable
      | .ident => call .elementModification
      | _ =>
        let message := "expected " ++ Context.expectation .modification ++ ", found " ++
          v.kind.displayName
        if v.seesAny [.comma, .rParen] || v.atEnd then
          fault .expectedToken (message ++ " " ++ v.context.description)
        else skipUntil .unexpectedToken message (Context.recovery .modification)

/-- `'each'? 'final'? Name Modification? DescriptionString?`; a name with subscripts is read as a
component reference. -/
def elementModification : Production :=
  node .elementModification [
    accept .eachKw,
    accept .finalKw,
    look fun v => if v.chainHasSubscripts then call .componentReference else call .name,
    look fun v => if v.seesAny modificationStart then call .modification else done,
    before .string (call .descriptionString)]

/-- `'redeclare' 'each'? 'final'? 'replaceable'? (ShortClassDefinition | ComponentClause1)
ConstrainingClause?` -/
def elementRedeclaration : Production :=
  node .elementRedeclaration [
    shift, accept .eachKw, accept .finalKw, accept .replaceableKw, call .redeclaredElement]

/-- `'each'? 'final'? 'replaceable' (ShortClassDefinition | ComponentClause1)
ConstrainingClause?` -/
def elementReplaceable : Production :=
  node .elementReplaceable [
    accept .eachKw, accept .finalKw, expect .replaceableKw, call .redeclaredElement]

/-- `(ClassPrefixes ShortClassSpecifier | ComponentClause1) ConstrainingClause?` -/
def redeclaredElement : Production :=
  seq [
    look fun v =>
      if v.seesAny Kind.classPrefixStart then
        node .shortClassDefinition [call .classPrefixes, call .shortClassSpecifier]
      else call .componentClause1,
    before .constrainedbyKw (call .constrainingClause)]

/-- `TypePrefix TypeSpecifier ComponentDeclaration1`, where the last is
`Declaration DescriptionString? AnnotationClause?` -/
def componentClause1 : Production :=
  node .componentClause1 [
    call .typePrefix,
    call .typeSpecifier,
    node .componentDeclaration1 [call .declaration, call .comment]]

end Modelica.Grammar
