import Modelica.Grammar.Modification

/-!
# Elements

What the element lists of a class hold: import clauses, extends clauses, nested classes and
components.
-/

namespace Modelica.Grammar

open Production

/-- `Element*` up to the next section boundary. -/
def elements : Production := repeatUntil Lookahead.atSectionBoundary (call .element)

/-- `ImportClause | ExtendsClause | NamedElementClause` -/
def element : Production :=
  look fun v =>
    match v.kind with
    | .importKw => call .importClause
    | .extendsKw => call .extendsClause
    | .redeclareKw | .finalKw | .innerKw | .outerKw | .replaceableKw | .encapsulatedKw =>
      call .namedElementClause
    | kind =>
      if v.seesAny Kind.classPrefixStart || v.seesAny Kind.componentClauseStart then
        call .namedElementClause
      else skipThroughSemicolon .unexpectedInClass
        ("unexpected " ++ kind.displayName ++ " " ++ v.context.description ++ "; expected " ++
          Context.expectation .classBody)

/-- The part of an import clause between `import` and the comment, by the form of the clause. -/
def importPath : Kind → Production
  | .compoundImportClause => seq [
      call .name, shifts 2, separated .comma (expect .ident), expect .rBrace]
  | .unqualifiedImportClause => seq [
      call .name, look fun v => if v.sees .dotStar then shift else shifts 2]
  | _ => seq [
      look fun v => if v.sees .ident && v.nth 1 == .equals then shifts 2 else done,
      look fun v => if v.sees .ident then call .name else missing .invalidImport [.ident]]

/-- `'import' (IDENT '=')? Name`, `'import' Name '.' '{' IDENT (',' IDENT)* '}'` or
`'import' Name '.*'`, each followed by a comment and `;` -/
def importClause : Production :=
  look fun v =>
    node v.importKind [
      shift,
      inContext .importClause <| seq [
        importPath v.importKind, call .comment, expect .semicolon]]

/-- `'extends' TypeSpecifier ClassOrInheritanceModification? AnnotationClause? ';'` -/
def extendsClause : Production :=
  node .extendsClause [
    shift,
    call .typeSpecifier,
    before .lParen (call .classOrInheritanceModification),
    before .annotationKw (call .annotationClause),
    expect .semicolon]

/-- `'constrainedby' TypeSpecifier ClassModification?` -/
def constrainingClause : Production :=
  node .constrainingClause [
    shift, call .typeSpecifier, before .lParen (call .classModification)]

/-- `'redeclare'? 'final'? 'inner'? 'outer'? 'replaceable'? (ClassDefinition | ComponentClause)
(ConstrainingClause DescriptionString? AnnotationClause?)? ';'` -/
def namedElementClause : Production :=
  node .namedElementClause [
    accept .redeclareKw, accept .finalKw, accept .innerKw, accept .outerKw,
    accept .replaceableKw,
    look fun v =>
      if v.atClassDefinition then call .classDefinition else call .componentClause,
    before .constrainedbyKw <| seq [call .constrainingClause, call .comment],
    expect .semicolon]

/-- `('flow' | 'stream')? ('discrete' | 'parameter' | 'constant')? ('input' | 'output')?` -/
def typePrefix : Production :=
  seq [
    acceptAny [.flowKw, .streamKw],
    acceptAny [.discreteKw, .parameterKw, .constantKw],
    acceptAny [.inputKw, .outputKw]]

/-- `TypePrefix TypeSpecifier ArraySubscripts? ComponentDeclaration (',' ComponentDeclaration)*` -/
def componentClause : Production :=
  node .componentClause [
    call .typePrefix,
    call .typeSpecifier,
    before .lBracket (call .arraySubscripts),
    separated .comma (call .componentDeclaration)]

/-- `Declaration ('if' Expression)? DescriptionString? AnnotationClause?` -/
def componentDeclaration : Production :=
  node .componentDeclaration [
    call .declaration,
    before .ifKw <| node .conditionAttribute [shift, call .expression],
    call .comment]

/-- `IDENT ArraySubscripts? Modification?` -/
def declaration : Production :=
  node .declaration [
    expect .ident,
    before .lBracket (call .arraySubscripts),
    look fun v => if v.seesAny modificationStart then call .modification else done]

end Modelica.Grammar
