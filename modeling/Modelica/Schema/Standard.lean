import Modelica.Schema.Slot

/-!
# The schema of Modelica

The declarative half of the grammar: for every node kind the slots that its children fill. The
productions build the tree, the schema names its parts.
-/

namespace Modelica.Schema

def optional (name : String) (m : Matcher) : Slot := ⟨name, m, .optional⟩

def required (name : String) (m : Matcher) : Slot := ⟨name, m, .required⟩

def many (name : String) (m : Matcher) : Slot := ⟨name, m, .many⟩

/-- A keyword that is there or not, such as `final`. -/
def flag (name : String) (keyword : Kind) : Slot := optional name (.kind keyword)

def description : Slot := optional "descriptionString" (.kind .descriptionString)

def annotation : Slot := optional "annotationClause" (.kind .annotationClause)

def condition : Slot := required "condition" (.alternative .expression)

def equations : Slot := many "equation" (.alternative .equation)

def statements : Slot := many "statement" (.alternative .statement)

def binaryOperators : List Kind := [
  .orKw, .andKw, .less, .lessEq, .greater, .greaterEq, .equal, .notEqual, .plus, .minus, .dotPlus,
  .dotMinus, .star, .slash, .dotStar, .dotSlash, .caret, .dotCaret]

def unaryOperators : List Kind := [.notKw, .plus, .minus, .dotPlus, .dotMinus]

/-- The keywords that may stand before the type of a component. -/
def typePrefix : List Slot := [
  flag "flow" .flowKw, flag "stream" .streamKw, flag "discrete" .discreteKw,
  flag "parameter" .parameterKw, flag "constant" .constantKw, flag "input" .inputKw,
  flag "output" .outputKw]

/-- The slots of stored definitions and classes. -/
def classes : Schema := [
  (.storedDefinition, [
    optional "bom" (.kind .byteOrderMark), optional "withinClause" (.kind .withinClause),
    many "classDefinitionClause" (.kind .classDefinitionClause)]),
  (.withinClause, [optional "packageName" (.kind .name)]),
  (.classDefinitionClause, [
    flag "final" .finalKw, required "classDefinition" (.kind .classDefinition)]),
  (.classDefinition, [
    flag "encapsulated" .encapsulatedKw, required "classPrefixes" (.kind .classPrefixes),
    required "classSpecifier" (.alternative .classSpecifier)]),
  (.classPrefixes, [
    flag "partial" .partialKw, flag "class" .classKw, flag "model" .modelKw,
    flag "block" .blockKw, flag "type" .typeKw, flag "package" .packageKw,
    flag "expandable" .expandableKw, flag "connector" .connectorKw, flag "pure" .pureKw,
    flag "impure" .impureKw, flag "operator" .operatorKw, flag "record" .recordKw,
    flag "function" .functionKw]),
  (.longClassSpecifier, [
    flag "extends" .extendsKw, required "identifier" (.kind .ident),
    optional "classModification" (.kind .classModification), description,
    optional "initialElementList" (.kind .initialElementList),
    many "elementList" (.kind .elementList), many "equationSection" (.kind .equationSection),
    many "algorithmSection" (.kind .algorithmSection),
    optional "externalFunctionClause" (.kind .externalFunctionClause), annotation,
    required "endIdentifier" (.kind .ident)]),
  (.shortClassSpecifier, [
    required "identifier" (.kind .ident), flag "input" .inputKw, flag "output" .outputKw,
    optional "typeSpecifier" (.kind .typeSpecifier),
    optional "arraySubscripts" (.kind .arraySubscripts),
    optional "classModification" (.kind .classModification), flag "enumeration" .enumerationKw,
    many "enumerationLiteral" (.kind .enumerationLiteral), optional "unspecified" (.kind .colon),
    description, annotation]),
  (.derClassSpecifier, [
    required "identifier" (.kind .ident), required "typeSpecifier" (.kind .typeSpecifier),
    many "input" (.kind .ident), description, annotation]),
  (.externalFunctionClause, [
    optional "languageSpecification" (.kind .languageSpecification),
    optional "externalFunctionCall" (.kind .externalFunctionCall), annotation]),
  (.enumerationLiteral, [required "identifier" (.kind .ident), description, annotation]),
  (.languageSpecification, [required "language" (.kind .stringLiteral)]),
  (.externalFunctionCall, [
    optional "output" (.kind .componentReference), required "functionName" (.kind .ident),
    optional "arguments" (.kind .expressionList)]),
  (.initialElementList, [many "element" (.alternative .element)]),
  (.elementList, [
    flag "protected" .protectedKw, flag "public" .publicKw,
    many "element" (.alternative .element)])]

/-- The slots of elements. -/
def elements : Schema := [
  (.namedElementClause, [
    flag "redeclare" .redeclareKw, flag "final" .finalKw, flag "inner" .innerKw,
    flag "outer" .outerKw, flag "replaceable" .replaceableKw,
    optional "classDefinition" (.kind .classDefinition),
    optional "componentClause" (.kind .componentClause),
    optional "constrainingClause" (.kind .constrainingClause), description, annotation]),
  (.simpleImportClause, [
    optional "shortName" (.kind .ident), required "packageName" (.kind .name), description,
    annotation]),
  (.compoundImportClause, [
    required "packageName" (.kind .name), many "importName" (.kind .ident), description,
    annotation]),
  (.unqualifiedImportClause, [required "packageName" (.kind .name), description, annotation]),
  (.extendsClause, [
    required "typeSpecifier" (.kind .typeSpecifier),
    optional "classOrInheritanceModification" (.kind .classOrInheritanceModification),
    annotation]),
  (.constrainingClause, [
    required "typeSpecifier" (.kind .typeSpecifier),
    optional "classModification" (.kind .classModification)]),
  (.classOrInheritanceModification, [
    many "argumentOrInheritanceModification" (.oneOf [.elementModification,
      .elementRedeclaration, .elementReplaceable, .inheritanceModification])]),
  (.inheritanceModification, [
    optional "connectClause" (.kind .connectClause), optional "identifier" (.kind .ident)]),
  (.componentClause, typePrefix ++ [
    required "typeSpecifier" (.kind .typeSpecifier),
    optional "arraySubscripts" (.kind .arraySubscripts),
    many "componentDeclaration" (.kind .componentDeclaration)]),
  (.componentDeclaration, [
    required "declaration" (.kind .declaration),
    optional "conditionAttribute" (.kind .conditionAttribute), description, annotation]),
  (.conditionAttribute, [condition]),
  (.declaration, [
    required "identifier" (.kind .ident), optional "arraySubscripts" (.kind .arraySubscripts),
    optional "modification" (.kind .modification)])]

/-- The slots of modifications. -/
def modifications : Schema := [
  (.modification, [
    optional "classModification" (.kind .classModification),
    optional "modificationExpression" (.kind .modificationExpression)]),
  (.modificationExpression, [
    flag "break" .breakKw, optional "expression" (.alternative .expression)]),
  (.classModification, [many "argument" (.alternative .argument)]),
  (.elementModification, [
    flag "each" .eachKw, flag "final" .finalKw,
    required "name" (.oneOf [.name, .componentReference]),
    optional "modification" (.kind .modification), description]),
  (.elementRedeclaration, [
    flag "each" .eachKw, flag "final" .finalKw, flag "replaceable" .replaceableKw,
    optional "shortClassDefinition" (.kind .shortClassDefinition),
    optional "componentClause" (.kind .componentClause1),
    optional "constrainingClause" (.kind .constrainingClause)]),
  (.elementReplaceable, [
    flag "each" .eachKw, flag "final" .finalKw,
    optional "shortClassDefinition" (.kind .shortClassDefinition),
    optional "componentClause" (.kind .componentClause1),
    optional "constrainingClause" (.kind .constrainingClause)]),
  (.componentClause1, typePrefix ++ [
    required "typeSpecifier" (.kind .typeSpecifier),
    required "componentDeclaration" (.kind .componentDeclaration1)]),
  (.componentDeclaration1, [
    required "declaration" (.kind .declaration), description, annotation]),
  (.shortClassDefinition, [
    required "classPrefixes" (.kind .classPrefixes),
    required "shortClassSpecifier" (.kind .shortClassSpecifier)])]

/-- The slots of equations and statements. -/
def equationsAndStatements : Schema := [
  (.equationSection, [flag "initial" .initialKw, equations]),
  (.algorithmSection, [flag "initial" .initialKw, statements]),
  (.simpleEquation, [
    required "expression1" (.alternative .simpleExpression),
    required "expression2" (.alternative .expression), description, annotation]),
  (.specialEquation, [
    required "functionReference" (.kind .componentReference),
    optional "functionArguments" (.kind .functionArguments), description, annotation]),
  (.ifEquation, [
    condition, equations, many "elseIfEquationClause" (.kind .elseIfEquationClause),
    optional "elseEquationClause" (.kind .elseEquationClause), description, annotation]),
  (.elseIfEquationClause, [condition, equations]),
  (.elseEquationClause, [equations]),
  (.forEquation, [many "forIndex" (.kind .forIndex), equations, description, annotation]),
  (.connectEquation, [required "connectClause" (.kind .connectClause), description, annotation]),
  (.connectClause, [
    required "componentReference1" (.kind .componentReference),
    required "componentReference2" (.kind .componentReference)]),
  (.whenEquation, [
    condition, equations, many "elseWhenClause" (.kind .elseWhenEquationClause), description,
    annotation]),
  (.elseWhenEquationClause, [condition, equations]),
  (.simpleAssignmentStatement, [
    required "target" (.kind .componentReference),
    required "expression" (.alternative .expression), description, annotation]),
  (.functionCallStatement, [
    required "functionReference" (.kind .componentReference),
    optional "functionArguments" (.kind .functionArguments), description, annotation]),
  (.destructuringAssignmentStatement, [
    required "targets" (.kind .parenthesizedExpression),
    required "functionReference" (.kind .componentReference),
    optional "functionArguments" (.kind .functionArguments), description, annotation]),
  (.breakStatement, [description, annotation]),
  (.returnStatement, [description, annotation]),
  (.ifStatement, [
    condition, statements, many "elseIfStatementClause" (.kind .elseIfStatementClause),
    optional "elseStatementClause" (.kind .elseStatementClause), description, annotation]),
  (.elseIfStatementClause, [condition, statements]),
  (.elseStatementClause, [statements]),
  (.forStatement, [many "forIndex" (.kind .forIndex), statements, description, annotation]),
  (.forIndex, [
    required "identifier" (.kind .ident), optional "expression" (.alternative .expression)]),
  (.whileStatement, [condition, statements, description, annotation]),
  (.whenStatement, [
    condition, statements, many "elseWhenClause" (.kind .elseWhenStatementClause), description,
    annotation]),
  (.elseWhenStatementClause, [condition, statements])]

/-- The slots of expressions and comments. -/
def expressions : Schema := [
  (.ifExpression, [
    condition, required "thenExpression" (.alternative .expression),
    many "elseIfExpressionClause" (.kind .elseIfExpressionClause),
    required "elseExpression" (.alternative .expression)]),
  (.elseIfExpressionClause, [condition, required "thenExpression" (.alternative .expression)]),
  (.rangeExpression, [
    required "startExpression" (.alternative .simpleExpression),
    optional "stepExpression" (.alternative .simpleExpression),
    required "stopExpression" (.alternative .simpleExpression)]),
  (.unaryExpression, [
    required "operator" (.oneOf unaryOperators),
    required "operand" (.alternative .simpleExpression)]),
  (.binaryExpression, [
    required "operand1" (.alternative .simpleExpression),
    required "operator" (.oneOf binaryOperators),
    required "operand2" (.alternative .simpleExpression)]),
  (.endExpression, []),
  (.unsignedIntegerLiteral, []),
  (.unsignedRealLiteral, []),
  (.logicalLiteral, []),
  (.stringLiteral, []),
  (.typeSpecifier, [optional "global" (.kind .dot), required "name" (.kind .name)]),
  (.name, [many "part" (.kind .ident)]),
  (.componentReference, [
    optional "global" (.kind .dot), many "part" (.kind .componentReferencePart)]),
  (.componentReferencePart, [
    required "identifier" (.kind .ident), optional "arraySubscripts" (.kind .arraySubscripts)]),
  (.functionCall, [
    required "functionReference" (.oneOf [.componentReference, .derKw, .initialKw, .pureKw]),
    optional "functionArguments" (.kind .functionArguments)]),
  (.functionArguments, [
    optional "comprehensionClause" (.kind .comprehensionClause),
    many "argument" (.kind .functionArgument), many "namedArgument" (.kind .namedArgument)]),
  (.arrayConcatenation, [many "expressionList" (.kind .expressionList)]),
  (.arrayConstructor, [
    optional "comprehensionClause" (.kind .comprehensionClause),
    optional "expressionList" (.kind .expressionList)]),
  (.comprehensionClause, [
    required "expression" (.alternative .expression), many "forIndex" (.kind .forIndex)]),
  (.namedArgument, [
    required "identifier" (.kind .ident), required "argument" (.kind .functionArgument)]),
  (.functionArgument, [
    optional "functionPartialApplication" (.kind .functionPartialApplication),
    optional "expression" (.alternative .expression)]),
  (.functionPartialApplication, [
    required "typeSpecifier" (.kind .typeSpecifier), many "namedArgument" (.kind .namedArgument)]),
  (.parenthesizedExpression, [many "expression" (.alternative .expression)]),
  (.expressionList, [many "expression" (.alternative .expression)]),
  (.arraySubscripts, [many "subscript" (.kind .subscript)]),
  (.subscript, [
    optional "flexible" (.kind .colon), optional "expression" (.alternative .expression)]),
  (.descriptionString, [many "string" (.kind .stringLiteral)]),
  (.annotationClause, [required "classModification" (.kind .classModification)])]

/-- The slots of every node kind. -/
def standard : Schema :=
  classes ++ elements ++ modifications ++ equationsAndStatements ++ expressions

end Modelica.Schema
