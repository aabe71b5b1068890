import Modelica.Kind

/-!
# Contexts

The part of a source text that is being read. A context words diagnostics ("in equation section")
and lists the tokens at which reading may resume after a fault.
-/

namespace Modelica

inductive Context where
  | topLevel | classDefinition | classBody | equationSection | algorithmSection | externalClause
  | importClause | modification | expression | argumentList | arraySubscripts
  deriving DecidableEq, Inhabited

namespace Context

def all : List Context := [
  .topLevel, .classDefinition, .classBody, .equationSection, .algorithmSection, .externalClause,
  .importClause, .modification, .expression, .argumentList, .arraySubscripts]

/-- Where a fault was met. -/
def description : Context → String
  | .topLevel => "at top level"
  | .classDefinition => "in class definition"
  | .classBody => "in class body"
  | .equationSection => "in equation section"
  | .algorithmSection => "in algorithm section"
  | .externalClause => "in external clause"
  | .importClause => "in import clause"
  | .modification => "in modification"
  | .expression => "in expression"
  | .argumentList => "in argument list"
  | .arraySubscripts => "in array subscripts"

/-- What would have been accepted there. -/
def expectation : Context → String
  | .topLevel => "a class definition or `within` clause"
  | .classDefinition => "class prefixes followed by a class name"
  | .classBody => "a component, class, import or extends clause"
  | .equationSection => "an equation (`=`, if, for, when, connect)"
  | .algorithmSection => "a statement (`:=`, call, if, for, while, when)"
  | .externalClause => "a language string or external function call"
  | .importClause => "a package name"
  | .modification => "a modification argument"
  | .expression => "an expression (literal, reference, call or operator)"
  | .argumentList => "an argument"
  | .arraySubscripts => "a subscript expression or `:`"

/-- The tokens that end the skipping after a fault. -/
def recovery : Context → List Kind
  | .topLevel => [
    .withinKw, .finalKw, .encapsulatedKw, .partialKw, .classKw, .modelKw, .recordKw, .blockKw,
    .connectorKw, .expandableKw, .typeKw, .packageKw, .functionKw, .operatorKw, .pureKw,
    .impureKw]
  | .classDefinition | .classBody => [
    .semicolon, .publicKw, .protectedKw, .equationKw, .algorithmKw, .initialKw, .externalKw,
    .annotationKw, .endKw]
  | .equationSection | .algorithmSection => [
    .semicolon, .endKw, .equationKw, .algorithmKw, .publicKw, .protectedKw]
  | .externalClause | .importClause => [.semicolon, .endKw]
  | .modification | .argumentList => [.comma, .rParen, .semicolon]
  | .expression => [.semicolon, .rParen, .rBrace, .rBracket, .comma]
  | .arraySubscripts => [.rBracket, .comma, .semicolon]

/-- In an equation or algorithm section. -/
def isInSection : Context → Bool
  | .equationSection | .algorithmSection => true
  | _ => false

end Context

end Modelica
