import Modelica.View.Basic

/-!
# One name for each view

Every node kind and every choice of the grammar gives a type of its own name, so the parts of a
node have types such as `Option Expression` or `List ForIndex`.
-/

namespace Modelica

abbrev Argument := Choice .argument

abbrev ClassSpecifier := Choice .classSpecifier

abbrev Element := Choice .element

abbrev Equation := Choice .equation

abbrev Expression := Choice .expression

abbrev ImportClause := Choice .importClause

abbrev Literal := Choice .literal

abbrev PrimaryExpression := Choice .primaryExpression

abbrev SimpleExpression := Choice .simpleExpression

abbrev Statement := Choice .statement

abbrev UnsignedNumberLiteral := Choice .unsignedNumberLiteral

abbrev StoredDefinition := View .storedDefinition

abbrev WithinClause := View .withinClause

abbrev ClassDefinitionClause := View .classDefinitionClause

abbrev ClassDefinition := View .classDefinition

abbrev ClassPrefixes := View .classPrefixes

abbrev LongClassSpecifier := View .longClassSpecifier

abbrev ShortClassSpecifier := View .shortClassSpecifier

abbrev DerClassSpecifier := View .derClassSpecifier

abbrev ExternalFunctionClause := View .externalFunctionClause

abbrev EnumerationLiteral := View .enumerationLiteral

abbrev LanguageSpecification := View .languageSpecification

abbrev ExternalFunctionCall := View .externalFunctionCall

abbrev InitialElementList := View .initialElementList

abbrev ElementList := View .elementList

abbrev NamedElementClause := View .namedElementClause

abbrev SimpleImportClause := View .simpleImportClause

abbrev CompoundImportClause := View .compoundImportClause

abbrev UnqualifiedImportClause := View .unqualifiedImportClause

abbrev ExtendsClause := View .extendsClause

abbrev ConstrainingClause := View .constrainingClause

abbrev ClassOrInheritanceModification := View .classOrInheritanceModification

abbrev InheritanceModification := View .inheritanceModification

abbrev ComponentClause := View .componentClause

abbrev ComponentDeclaration := View .componentDeclaration

abbrev ConditionAttribute := View .conditionAttribute

abbrev Declaration := View .declaration

abbrev Modification := View .modification

abbrev ModificationExpression := View .modificationExpression

abbrev ClassModification := View .classModification

abbrev ElementModification := View .elementModification

abbrev ElementRedeclaration := View .elementRedeclaration

abbrev ElementReplaceable := View .elementReplaceable

abbrev ComponentClause1 := View .componentClause1

abbrev ComponentDeclaration1 := View .componentDeclaration1

abbrev ShortClassDefinition := View .shortClassDefinition

abbrev EquationSection := View .equationSection

abbrev AlgorithmSection := View .algorithmSection

abbrev SimpleEquation := View .simpleEquation

abbrev SpecialEquation := View .specialEquation

abbrev IfEquation := View .ifEquation

abbrev ElseIfEquationClause := View .elseIfEquationClause

abbrev ElseEquationClause := View .elseEquationClause

abbrev ForEquation := View .forEquation

abbrev ConnectEquation := View .connectEquation

abbrev ConnectClause := View .connectClause

abbrev WhenEquation := View .whenEquation

abbrev ElseWhenEquationClause := View .elseWhenEquationClause

abbrev SimpleAssignmentStatement := View .simpleAssignmentStatement

abbrev FunctionCallStatement := View .functionCallStatement

abbrev DestructuringAssignmentStatement := View .destructuringAssignmentStatement

abbrev BreakStatement := View .breakStatement

abbrev ReturnStatement := View .returnStatement

abbrev IfStatement := View .ifStatement

abbrev ElseIfStatementClause := View .elseIfStatementClause

abbrev ElseStatementClause := View .elseStatementClause

abbrev ForStatement := View .forStatement

abbrev ForIndex := View .forIndex

abbrev WhileStatement := View .whileStatement

abbrev WhenStatement := View .whenStatement

abbrev ElseWhenStatementClause := View .elseWhenStatementClause

abbrev IfExpression := View .ifExpression

abbrev ElseIfExpressionClause := View .elseIfExpressionClause

abbrev RangeExpression := View .rangeExpression

abbrev UnaryExpression := View .unaryExpression

abbrev BinaryExpression := View .binaryExpression

abbrev EndExpression := View .endExpression

abbrev UnsignedIntegerLiteral := View .unsignedIntegerLiteral

abbrev UnsignedRealLiteral := View .unsignedRealLiteral

abbrev LogicalLiteral := View .logicalLiteral

abbrev StringLiteral := View .stringLiteral

abbrev TypeSpecifier := View .typeSpecifier

abbrev Name := View .name

abbrev ComponentReference := View .componentReference

abbrev ComponentReferencePart := View .componentReferencePart

abbrev FunctionCall := View .functionCall

abbrev FunctionArguments := View .functionArguments

abbrev ArrayConcatenation := View .arrayConcatenation

abbrev ArrayConstructor := View .arrayConstructor

abbrev ComprehensionClause := View .comprehensionClause

abbrev NamedArgument := View .namedArgument

abbrev FunctionArgument := View .functionArgument

abbrev FunctionPartialApplication := View .functionPartialApplication

abbrev ParenthesizedExpression := View .parenthesizedExpression

abbrev ExpressionList := View .expressionList

abbrev ArraySubscripts := View .arraySubscripts

abbrev Subscript := View .subscript

abbrev DescriptionString := View .descriptionString

abbrev AnnotationClause := View .annotationClause

end Modelica
