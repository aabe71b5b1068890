import Modelica.Proofs.Contracts.Blocks

/-!
# Every rule builds what the tables say
-/

namespace Modelica

open Grammar Production in
/-- Every rule builds what the tables say. -/
theorem Nonterminal.adds_production :
    (rule : Nonterminal) → (v : Lookahead) → rule.Ready v → rule.production.Adds rule.adds v
  | .name, _, _ => adds_name
  | .typeSpecifier, _, _ => adds_typeSpecifier
  | .componentReference, _, _ => adds_componentReference
  | .componentReferencePart, _, _ => adds_componentReferencePart
  | .arraySubscripts, _, h => adds_arraySubscripts h
  | .subscript, _, _ => adds_subscript
  | .expression, _, _ => adds_expression
  | .ifExpression, _, h => adds_ifExpression h
  | .simpleExpression, _, _ => adds_call trivial
  | .band least, _, _ => adds_band least
  | .unary _, _, h => adds_unary h
  | .operand level, _, _ => adds_operand level
  | .primary, _, _ => adds_primary
  | .callArguments, _, _ => adds_callArguments
  | .functionArguments, _, _ => adds_functionArguments
  | .functionArgument, _, _ => adds_functionArgument
  | .namedArgument, _, _ => adds_namedArgument
  | .partialApplication, _, h => adds_partialApplication h
  | .forIndex, _, _ => adds_forIndex
  | .parenthesized, _, h => adds_parenthesized h
  | .arrayConcatenation, _, h => adds_arrayConcatenation h
  | .arrayConstructor, _, h => adds_arrayConstructor h
  | .expressionList, _, _ => adds_expressionList
  | .descriptionString, _, _ => adds_descriptionString
  | .annotationClause, _, _ => adds_annotationClause
  | .comment, _, _ => adds_comment
  | .modification, _, h => adds_modification h
  | .modificationExpression, _, _ => adds_modificationExpression
  | .classModification, _, h => adds_classModification h
  | .classOrInheritanceModification, _, h => adds_classOrInheritanceModification h
  | .inheritanceModification, _, h => adds_inheritanceModification h
  | .connectClause, _, h => adds_connectClause h
  | .argument, _, _ => adds_argument
  | .elementModification, _, _ => adds_elementModification
  | .elementRedeclaration, _, h => adds_elementRedeclaration h
  | .elementReplaceable, _, _ => adds_elementReplaceable
  | .redeclaredElement, _, _ => adds_redeclaredElement
  | .componentClause1, _, _ => adds_componentClause1
  | .elements, _, _ => adds_elements
  | .element, _, _ => adds_element
  | .importClause, _, h => adds_importClause h
  | .extendsClause, _, h => adds_extendsClause h
  | .constrainingClause, _, h => adds_constrainingClause h
  | .namedElementClause, _, _ => adds_namedElementClause
  | .typePrefix, _, _ => adds_typePrefix
  | .componentClause, _, _ => adds_componentClause
  | .componentDeclaration, _, _ => adds_componentDeclaration
  | .declaration, _, _ => adds_declaration
  | .storedDefinition, _, _ => adds_storedDefinition
  | .withinClause, _, h => adds_withinClause h
  | .classDefinitionClause, _, _ => adds_classDefinitionClause
  | .classDefinition, _, _ => adds_classDefinition
  | .classPrefixes, _, _ => adds_classPrefixes
  | .longClassSpecifier, _, _ => adds_longClassSpecifier
  | .classBody, _, _ => adds_classBody
  | .shortClassSpecifier, _, _ => adds_shortClassSpecifier
  | .enumerationLiteral, _, _ => adds_enumerationLiteral
  | .derClassSpecifier, _, h => adds_derClassSpecifier h
  | .externalFunctionClause, _, h => adds_externalFunctionClause h
  | .externalFunctionCall, _, _ => adds_externalFunctionCall
  | .equationSection, _, _ => adds_equationSection
  | .algorithmSection, _, _ => adds_algorithmSection
  | .sectionBody family, _, _ => adds_sectionBody family
  | .body family, _, _ => adds_body family
  | .item family, _, _ => adds_item family
  | .equation, _, _ => adds_equation
  | .simpleEquation, _, _ => adds_simpleEquation
  | .specialEquation, _, _ => adds_specialEquation
  | .connectEquation, _, h => adds_connectEquation h
  | .statement, _, _ => adds_statement
  | .keywordStatement _, _, h => adds_keywordStatement h
  | .referenceStatement, _, _ => adds_referenceStatement
  | .destructuringAssignment, _, h => adds_destructuringAssignment h
  | .ifBlock family, _, h => adds_ifBlock family h
  | .elseIfClause family, _, h => adds_elseIfClause family h
  | .elseClause family, _, h => adds_elseClause family h
  | .whenBlock family, _, h => adds_whenBlock family h
  | .elseWhenClause family, _, h => adds_elseWhenClause family h
  | .forBlock family, _, h => adds_forBlock family h
  | .whileBlock, _, h => adds_whileBlock h

end Modelica
