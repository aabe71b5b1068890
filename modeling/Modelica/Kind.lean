/-!
# Kinds of tokens and nodes

One closed list of kinds labels both the leaves and the inner nodes of a syntax tree. Node kinds
follow the productions of the Modelica grammar one to one. `error` labels bad tokens as well as
the nodes that recovery leaves behind; `endOfInput` is never stored, it is what lookahead sees
past the last token.
-/

namespace Modelica

/-- What a leaf or a node is. -/
inductive Kind where
  -- blanks and comments
  | whitespace | lineComment | blockComment | byteOrderMark
  -- words and literals
  | ident | unsignedInteger | unsignedReal | string
  -- punctuation and operators
  | lParen | rParen | lBracket | rBracket | lBrace | rBrace | semicolon | comma | dot | colon
  | equals | assign | plus | minus | star | slash | caret | dotPlus | dotMinus | dotStar
  | dotSlash | dotCaret | less | lessEq | greater | greaterEq | equal | notEqual
  -- keywords
  | algorithmKw | andKw | annotationKw | blockKw | breakKw | classKw | connectKw | connectorKw
  | constantKw | constrainedbyKw | derKw | discreteKw | eachKw | elseKw | elseifKw | elsewhenKw
  | encapsulatedKw | endKw | enumerationKw | equationKw | expandableKw | extendsKw | externalKw
  | falseKw | finalKw | flowKw | forKw | functionKw | ifKw | importKw | impureKw | inKw
  | initialKw | innerKw | inputKw | loopKw | modelKw | notKw | operatorKw | orKw | outerKw
  | outputKw | packageKw | parameterKw | partialKw | protectedKw | publicKw | pureKw | recordKw
  | redeclareKw | replaceableKw | returnKw | streamKw | thenKw | trueKw | typeKw | whenKw
  | whileKw | withinKw
  -- stored definition and classes
  | storedDefinition | withinClause | classDefinitionClause | classDefinition | classPrefixes
  | longClassSpecifier | shortClassSpecifier | derClassSpecifier | externalFunctionClause
  | enumerationLiteral | languageSpecification | externalFunctionCall | initialElementList
  | elementList
  -- elements
  | namedElementClause | simpleImportClause | compoundImportClause | unqualifiedImportClause
  | extendsClause | constrainingClause | classOrInheritanceModification | inheritanceModification
  | componentClause | componentDeclaration | conditionAttribute | declaration
  -- modifications
  | modification | modificationExpression | classModification | elementModification
  | elementRedeclaration | elementReplaceable | componentClause1 | componentDeclaration1
  | shortClassDefinition
  -- equations and statements
  | equationSection | algorithmSection | simpleEquation | specialEquation | ifEquation
  | elseIfEquationClause | elseEquationClause | forEquation | connectEquation | connectClause
  | whenEquation | elseWhenEquationClause | simpleAssignmentStatement | functionCallStatement
  | destructuringAssignmentStatement | breakStatement | returnStatement | ifStatement
  | elseIfStatementClause | elseStatementClause | forStatement | forIndex | whileStatement
  | whenStatement | elseWhenStatementClause
  -- expressions
  | ifExpression | elseIfExpressionClause | rangeExpression | unaryExpression | binaryExpression
  | endExpression | unsignedIntegerLiteral | unsignedRealLiteral | logicalLiteral | stringLiteral
  | typeSpecifier | name | componentReference | componentReferencePart | functionCall
  | functionArguments | arrayConcatenation | arrayConstructor | comprehensionClause
  | namedArgument | functionArgument | functionPartialApplication | parenthesizedExpression
  | expressionList | arraySubscripts | subscript | descriptionString | annotationClause
  -- recovery and lookahead
  | error | endOfInput
  deriving DecidableEq, Inhabited

namespace Kind

/-- Blanks, comments and the byte-order mark. -/
def blanks : List Kind := [
  .whitespace, .lineComment, .blockComment, .byteOrderMark]

/-- Identifiers and literals: the tokens whose spelling varies. -/
def words : List Kind := [
  .ident, .unsignedInteger, .unsignedReal, .string]

/-- Punctuation and operators. -/
def punctuation : List Kind := [
  .lParen, .rParen, .lBracket, .rBracket, .lBrace, .rBrace, .semicolon, .comma, .dot, .colon,
  .equals, .assign, .plus, .minus, .star, .slash, .caret, .dotPlus, .dotMinus, .dotStar,
  .dotSlash, .dotCaret, .less, .lessEq, .greater, .greaterEq, .equal, .notEqual]

/-- The reserved words, in alphabetical order. -/
def keywords : List Kind := [
  .algorithmKw, .andKw, .annotationKw, .blockKw, .breakKw, .classKw, .connectKw, .connectorKw,
  .constantKw, .constrainedbyKw, .derKw, .discreteKw, .eachKw, .elseKw, .elseifKw, .elsewhenKw,
  .encapsulatedKw, .endKw, .enumerationKw, .equationKw, .expandableKw, .extendsKw, .externalKw,
  .falseKw, .finalKw, .flowKw, .forKw, .functionKw, .ifKw, .importKw, .impureKw, .inKw,
  .initialKw, .innerKw, .inputKw, .loopKw, .modelKw, .notKw, .operatorKw, .orKw, .outerKw,
  .outputKw, .packageKw, .parameterKw, .partialKw, .protectedKw, .publicKw, .pureKw, .recordKw,
  .redeclareKw, .replaceableKw, .returnKw, .streamKw, .thenKw, .trueKw, .typeKw, .whenKw,
  .whileKw, .withinKw]

/-- Every node kind of the grammar, in the order of the grammar. -/
def productions : List Kind := [
  .storedDefinition, .withinClause, .classDefinitionClause, .classDefinition, .classPrefixes,
  .longClassSpecifier, .shortClassSpecifier, .derClassSpecifier, .externalFunctionClause,
  .enumerationLiteral, .languageSpecification, .externalFunctionCall, .initialElementList,
  .elementList, .namedElementClause, .simpleImportClause, .compoundImportClause,
  .unqualifiedImportClause, .extendsClause, .constrainingClause, .classOrInheritanceModification,
  .inheritanceModification, .componentClause, .componentDeclaration, .conditionAttribute,
  .declaration, .modification, .modificationExpression, .classModification, .elementModification,
  .elementRedeclaration, .elementReplaceable, .componentClause1, .componentDeclaration1,
  .shortClassDefinition, .equationSection, .algorithmSection, .simpleEquation, .specialEquation,
  .ifEquation, .elseIfEquationClause, .elseEquationClause, .forEquation, .connectEquation,
  .connectClause, .whenEquation, .elseWhenEquationClause, .simpleAssignmentStatement,
  .functionCallStatement, .destructuringAssignmentStatement, .breakStatement, .returnStatement,
  .ifStatement, .elseIfStatementClause, .elseStatementClause, .forStatement, .forIndex,
  .whileStatement, .whenStatement, .elseWhenStatementClause, .ifExpression,
  .elseIfExpressionClause, .rangeExpression, .unaryExpression, .binaryExpression, .endExpression,
  .unsignedIntegerLiteral, .unsignedRealLiteral, .logicalLiteral, .stringLiteral, .typeSpecifier,
  .name, .componentReference, .componentReferencePart, .functionCall, .functionArguments,
  .arrayConcatenation, .arrayConstructor, .comprehensionClause, .namedArgument,
  .functionArgument, .functionPartialApplication, .parenthesizedExpression, .expressionList,
  .arraySubscripts, .subscript, .descriptionString, .annotationClause]

/-- Every kind once. -/
def all : List Kind :=
  blanks ++ words ++ punctuation ++ keywords ++ productions ++ [.error, .endOfInput]

/-- Kept in the tree but invisible to the grammar. -/
def isTrivia : Kind → Bool
  | .whitespace | .lineComment | .blockComment | .byteOrderMark => true
  | _ => false

def isPunctuation (k : Kind) : Bool := punctuation.contains k

def isKeyword (k : Kind) : Bool := keywords.contains k

def isWord (k : Kind) : Bool := words.contains k

/-- Kinds that may label an inner node; `error` is one of them. -/
def isNode (k : Kind) : Bool := k == .error || productions.contains k

/-- What the grammar reads: neither trivia nor a bad token. -/
def isSignificant (k : Kind) : Bool := !k.isTrivia && k != .error

end Kind

end Modelica
