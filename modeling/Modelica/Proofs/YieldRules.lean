import Modelica.Proofs.YieldRules.Blocks

/-!
# Every rule yields what the tables say
-/

namespace Modelica

open Grammar Production in
/-- Every right-hand side yields what may be left of what the table says. -/
theorem Nonterminal.gives_production : (rule : Nonterminal) → (v : Lookahead) → rule.Ready v →
    rule.production.Gives [rule.adds.maybe] v
  | .name, _, _ => gives_part gives_name
  | .typeSpecifier, _, _ => gives_part gives_typeSpecifier
  | .componentReference, _, _ => gives_part gives_componentReference
  | .componentReferencePart, _, _ => gives_part gives_componentReferencePart
  | .arraySubscripts, _, h => gives_part (gives_arraySubscripts h)
  | .subscript, _, _ => gives_part gives_subscript
  | .expression, _, _ => gives_expression
  | .ifExpression, _, h => gives_part (gives_ifExpression h)
  | .simpleExpression, _, _ => gives_call trivial
  | .band least, _, _ => gives_band least
  | .unary _, _, h => gives_part (gives_unary h)
  | .operand level, _, _ => gives_operand level
  | .primary, _, _ => gives_primary
  | .callArguments, _, _ => gives_callArguments
  | .functionArguments, _, _ => gives_part gives_functionArguments
  | .functionArgument, _, _ => gives_part gives_functionArgument
  | .namedArgument, _, _ => gives_part gives_namedArgument
  | .partialApplication, _, h => gives_part (gives_partialApplication h)
  | .forIndex, _, _ => gives_part gives_forIndex
  | .parenthesized, _, h => gives_part (gives_parenthesized h)
  | .arrayConcatenation, _, h => gives_part (gives_arrayConcatenation h)
  | .arrayConstructor, _, h => gives_part (gives_arrayConstructor h)
  | .expressionList, _, _ => gives_part gives_expressionList
  | .descriptionString, _, _ => gives_part gives_descriptionString
  | .annotationClause, _, _ => gives_part gives_annotationClause
  | .comment, _, _ => gives_comment
  | .modification, _, h => gives_part (gives_modification h)
  | .modificationExpression, _, _ => gives_part gives_modificationExpression
  | .classModification, _, h => gives_part (gives_classModification h)
  | .classOrInheritanceModification, _, h => gives_part (gives_classOrInheritanceModification h)
  | .inheritanceModification, _, h => gives_part (gives_inheritanceModification h)
  | .connectClause, _, h => gives_part (gives_connectClause h)
  | .argument, _, _ => gives_argument
  | .elementModification, _, _ => gives_part gives_elementModification
  | .elementRedeclaration, _, h => gives_part (gives_elementRedeclaration h)
  | .elementReplaceable, _, _ => gives_part gives_elementReplaceable
  | .redeclaredElement, _, _ => gives_redeclaredElement
  | .componentClause1, _, _ => gives_part gives_componentClause1
  | .elements, _, _ => gives_elements
  | .element, _, _ => gives_element
  | .importClause, _, h => gives_part (gives_importClause h)
  | .extendsClause, _, h => gives_part (gives_extendsClause h)
  | .constrainingClause, _, h => gives_part (gives_constrainingClause h)
  | .namedElementClause, _, _ => gives_part gives_namedElementClause
  | .typePrefix, _, _ => gives_typePrefix
  | .componentClause, _, _ => gives_part gives_componentClause
  | .componentDeclaration, _, _ => gives_part gives_componentDeclaration
  | .declaration, _, _ => gives_part gives_declaration
  | .storedDefinition, _, _ => gives_part gives_storedDefinition
  | .withinClause, _, h => gives_part (gives_withinClause h)
  | .classDefinitionClause, _, _ => gives_part gives_classDefinitionClause
  | .classDefinition, _, _ => gives_classDefinition
  | .classPrefixes, _, _ => gives_part gives_classPrefixes
  | .longClassSpecifier, _, _ => gives_part gives_longClassSpecifier
  | .classBody, _, _ => gives_classBody
  | .shortClassSpecifier, _, _ => gives_part gives_shortClassSpecifier
  | .enumerationLiteral, _, _ => gives_part gives_enumerationLiteral
  | .derClassSpecifier, _, h => gives_part (gives_derClassSpecifier h)
  | .externalFunctionClause, _, h => gives_part (gives_externalFunctionClause h)
  | .externalFunctionCall, _, _ => gives_part gives_externalFunctionCall
  | .equationSection, _, _ => gives_part gives_equationSection
  | .algorithmSection, _, _ => gives_part gives_algorithmSection
  | .sectionBody family, _, _ => gives_sectionBody family
  | .body family, _, _ => gives_body family
  | .item family, _, _ => gives_item family
  | .equation, _, _ => gives_equation
  | .simpleEquation, _, _ => gives_part gives_simpleEquation
  | .specialEquation, _, _ => gives_part gives_specialEquation
  | .connectEquation, _, h => gives_part (gives_connectEquation h)
  | .statement, _, _ => gives_statement
  | .keywordStatement _, _, h => gives_part (gives_keywordStatement h)
  | .referenceStatement, _, _ => gives_part gives_referenceStatement
  | .destructuringAssignment, _, h => gives_part (gives_destructuringAssignment h)
  | .ifBlock family, _, h => gives_part (gives_ifBlock family h)
  | .elseIfClause family, _, h => gives_part (gives_elseIfClause family h)
  | .elseClause family, _, h => gives_part (gives_elseClause family h)
  | .whenBlock family, _, h => gives_part (gives_whenBlock family h)
  | .elseWhenClause family, _, h => gives_part (gives_elseWhenClause family h)
  | .forBlock family, _, h => gives_part (gives_forBlock family h)
  | .whileBlock, _, h => gives_part (gives_whileBlock h)

end Modelica
