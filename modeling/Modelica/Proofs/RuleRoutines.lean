import Modelica.Proofs.RuleRoutines.Blocks

/-!
# Every rule is read by its routine

Whatever the paired calls of a production get done, the routine of its rule gets done with its own
calls.
-/

namespace Modelica

open Production Routine

variable {mark : Nat}

namespace Nonterminal

attribute [local simp] before acceptAny shifts sees seesAny Routine.atEnd ate expected

attribute [local simp]
  Grammar.name Grammar.typeSpecifier Grammar.componentReferencePart Grammar.arraySubscripts
  Grammar.subscript Grammar.simpleExpression Grammar.unary Grammar.callArguments
  Grammar.functionArgument Grammar.namedArgument Grammar.partialApplication Grammar.forIndex
  Grammar.arrayConcatenation Grammar.arrayConstructor Grammar.expressionList Grammar.forIndices
  Grammar.single Grammar.missingExpression
  Routine.name Routine.typeSpecifier Routine.componentReferencePart Routine.arraySubscripts
  Routine.subscript Routine.unary Routine.callArguments Routine.functionArgument
  Routine.namedArgument Routine.partialApplication Routine.forIndex Routine.arrayConcatenation
  Routine.arrayConstructor Routine.expressionList Routine.forIndices Routine.single
  Routine.missingExpression

theorem paired_primary : Grammar.primary.paired mark = Routine.primary := by
  simp only [Grammar.primary, Routine.primary, paired]
  congr 1
  funext v
  split <;> simp [*]

attribute [local simp]
  Grammar.descriptionString Grammar.annotationClause Grammar.comment Grammar.modification
  Grammar.modificationExpression Grammar.classModification Grammar.classOrInheritanceModification
  Grammar.inheritanceModification Grammar.connectClause Grammar.elementModification
  Grammar.elementRedeclaration Grammar.elementReplaceable Grammar.redeclaredElement
  Grammar.componentClause1 Grammar.argumentGroup
  Routine.descriptionString Routine.annotationClause Routine.comment Routine.modification
  Routine.modificationExpression Routine.classModification Routine.classOrInheritanceModification
  Routine.inheritanceModification Routine.connectClause Routine.elementModification
  Routine.elementRedeclaration Routine.elementReplaceable Routine.redeclaredElement
  Routine.componentClause1

theorem paired_argument : Grammar.argument.paired mark = Routine.argument := by
  simp only [Grammar.argument, Routine.argument, paired, paired_ite]
  congr 1
  funext v
  split
  · rfl
  · split <;> simp [*]

attribute [local simp]
  Grammar.elements Grammar.extendsClause Grammar.constrainingClause Grammar.namedElementClause
  Grammar.typePrefix Grammar.componentClause Grammar.componentDeclaration Grammar.declaration
  Routine.elements Routine.extendsClause Routine.constrainingClause Routine.namedElementClause
  Routine.typePrefix Routine.componentClause Routine.componentDeclaration Routine.declaration

theorem paired_importClause : Grammar.importClause.paired mark = Routine.importClause := by
  simp only [Grammar.importClause, Grammar.importPath, Routine.importClause, paired]
  congr 1
  funext v
  split <;> simp [*]

attribute [local simp]
  Grammar.storedDefinition Grammar.withinClause Grammar.classDefinitionClause
  Grammar.shortClassSpecifier Grammar.enumerationLiteral Grammar.derClassSpecifier
  Grammar.externalFunctionClause Grammar.enumeration Grammar.derivedType
  Routine.storedDefinition Routine.withinClause Routine.classDefinitionClause
  Routine.shortClassSpecifier Routine.enumerationLiteral Routine.derClassSpecifier
  Routine.externalFunctionClause

theorem paired_externalFunctionCall :
    Grammar.externalFunctionCall.paired mark = Routine.externalFunctionCall := by
  simp only [Grammar.externalFunctionCall, Routine.externalFunctionCall, paired_node,
    paired_seq_cons, paired, bind_assoc]
  congr 1; funext; congr 1; funext v
  cases v.sees .ident && v.nth 1 == .lParen <;> simp

theorem paired_classPrefixes : Grammar.classPrefixes.paired mark = Routine.classPrefixes := by
  simp only [Grammar.classPrefixes, Grammar.expectClassKind, Routine.classPrefixes,
    Routine.expectClassKind, paired_node, paired_seq_cons, paired, bind_assoc, paired_accept]
  congr 1; funext; congr 1; funext; congr 1; funext v
  split <;> simp [*]

attribute [local simp]
  Grammar.equationSection Grammar.algorithmSection Grammar.sectionBody Grammar.body
  Grammar.specialEquation Grammar.connectEquation Grammar.keywordStatement
  Grammar.destructuringAssignment Grammar.elseIfClause Grammar.elseClause Grammar.elseWhenClause
  Grammar.itemEnd
  Routine.equationSection Routine.algorithmSection Routine.sectionBody Routine.body
  Routine.specialEquation Routine.connectEquation Routine.keywordStatement
  Routine.destructuringAssignment Routine.elseIfClause Routine.elseClause Routine.elseWhenClause

theorem paired_simpleEquation : Grammar.simpleEquation.paired mark = Routine.simpleEquation := by
  simp only [Grammar.simpleEquation, Routine.simpleEquation, paired_node, paired_seq_cons, paired,
    bind_assoc]
  congr 1; funext; congr 1; funext; congr 1; funext v
  split <;> simp [*]

theorem paired_referenceStatement :
    Grammar.referenceStatement.paired mark = Routine.referenceStatement := by
  simp only [Grammar.referenceStatement, Routine.referenceStatement, paired_group_seq,
    paired_seq_cons, paired, bind_assoc]
  congr 1; funext; congr 1; funext; congr 1; funext v
  split <;> simp [*]

/-- What the paired calls of a rule get done, its routine gets done. -/
theorem routine_follows (rule : Nonterminal) :
    Follows (rule.production.paired mark) rule.routine := by
  cases rule <;> simp only [production, routine]
  case expression => exact follows_expression
  case ifExpression => exact follows_ifExpression
  case band => exact follows_band
  case operand => exact follows_operand
  case componentReference => exact follows_componentReference
  case parenthesized => exact follows_parenthesized
  case functionArguments => exact follows_functionArguments
  case element => exact follows_element
  case equation => exact follows_equation
  case statement => exact follows_statement
  case ifBlock => exact follows_ifBlock
  case classDefinition => exact follows_classDefinition
  case longClassSpecifier => exact follows_longClassSpecifier
  case classBody => exact follows_classBody
  case item family => cases family <;> exact .refl _
  case primary => exact .of_eq paired_primary
  case argument => exact .of_eq paired_argument
  case importClause => exact .of_eq paired_importClause
  case classPrefixes => exact .of_eq paired_classPrefixes
  case externalFunctionCall => exact .of_eq paired_externalFunctionCall
  case simpleEquation => exact .of_eq paired_simpleEquation
  case referenceStatement => exact .of_eq paired_referenceStatement
  case whenBlock => exact .of_eq paired_whenBlock
  case forBlock => exact .of_eq paired_forBlock
  case whileBlock => exact .of_eq paired_whileBlock
  all_goals exact .of_eq (by simp [paired_strayEnd])

end Nonterminal

namespace FragmentRule

theorem paired_production (rule : FragmentRule) : rule.production.paired mark = rule.routine := by
  cases rule <;>
    simp [production, startingWith, routine, missingStart, seesAny]

theorem paired_scratch (rule : FragmentRule) : rule.scratch.paired mark = rule.scratchRoutine := by
  simp [scratch, scratchRoutine, paired_production]

end FragmentRule

end Modelica
