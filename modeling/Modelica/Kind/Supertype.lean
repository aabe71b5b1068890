import Modelica.Kind

/-!
# Supertypes

A supertype names a closed set of node kinds: the alternatives of one choice in the grammar.
It never labels a node itself. `Kind.supertypes` lists the supertypes of a kind from the innermost
outwards, `Supertype.members` reads the same relation the other way.
-/

namespace Modelica

/-- A choice of the grammar that has no node of its own. -/
inductive Supertype where
  | argument | classSpecifier | element | equation | expression | importClause | literal
  | primaryExpression | simpleExpression | statement | unsignedNumberLiteral
  deriving DecidableEq, Inhabited

namespace Supertype

def all : List Supertype := [
  .argument, .classSpecifier, .element, .equation, .expression, .importClause, .literal,
  .primaryExpression, .simpleExpression, .statement, .unsignedNumberLiteral]

/-- The name in the grammar, which starts with an underscore by convention. -/
def grammarName : Supertype → String
  | .argument => "_Argument"
  | .classSpecifier => "_ClassSpecifier"
  | .element => "_Element"
  | .equation => "_Equation"
  | .expression => "_Expression"
  | .importClause => "_ImportClause"
  | .literal => "_Literal"
  | .primaryExpression => "_PrimaryExpression"
  | .simpleExpression => "_SimpleExpression"
  | .statement => "_Statement"
  | .unsignedNumberLiteral => "_UnsignedNumberLiteral"

end Supertype

namespace Kind

/-- The choices that a node kind is an alternative of, innermost first. -/
def supertypes : Kind → List Supertype
  | .unsignedIntegerLiteral | .unsignedRealLiteral =>
    [.unsignedNumberLiteral, .literal, .primaryExpression, .simpleExpression, .expression]
  | .stringLiteral | .logicalLiteral =>
    [.literal, .primaryExpression, .simpleExpression, .expression]
  | .functionCall | .componentReference | .parenthesizedExpression | .arrayConcatenation
  | .arrayConstructor | .endExpression =>
    [.primaryExpression, .simpleExpression, .expression]
  | .unaryExpression | .binaryExpression => [.simpleExpression, .expression]
  | .ifExpression | .rangeExpression => [.expression]
  | .simpleEquation | .specialEquation | .ifEquation | .forEquation | .connectEquation
  | .whenEquation => [.equation]
  | .simpleAssignmentStatement | .functionCallStatement | .destructuringAssignmentStatement
  | .breakStatement | .returnStatement | .ifStatement | .forStatement | .whileStatement
  | .whenStatement => [.statement]
  | .simpleImportClause | .compoundImportClause | .unqualifiedImportClause =>
    [.importClause, .element]
  | .extendsClause | .namedElementClause => [.element]
  | .longClassSpecifier | .shortClassSpecifier | .derClassSpecifier => [.classSpecifier]
  | .elementModification | .elementReplaceable | .elementRedeclaration => [.argument]
  | _ => []

def isA (k : Kind) (s : Supertype) : Bool := k.supertypes.contains s

end Kind

/-- The node kinds among the alternatives of a choice, in the order of the grammar. -/
def Supertype.members (s : Supertype) : List Kind := Kind.productions.filter (·.isA s)

end Modelica
