import Modelica.Fragment
import Modelica.Routine.Class
import Modelica.Routine.Element
import Modelica.Routine.Equation

/-!
# The routines of the rules
-/

namespace Modelica

/-- The routine that reads a rule. -/
def Nonterminal.routine : Nonterminal → Routine Unit
  | name => Routine.name
  | typeSpecifier => Routine.typeSpecifier
  | componentReference => Routine.componentReference
  | componentReferencePart => Routine.componentReferencePart
  | arraySubscripts => Routine.arraySubscripts
  | subscript => Routine.subscript
  | expression => Routine.expression
  | ifExpression => Routine.ifExpression
  | simpleExpression => Routine.rule (.band 0)
  | band least => Routine.band least
  | unary level => Routine.unary level
  | operand level => Routine.operand level
  | primary => Routine.primary
  | callArguments => Routine.callArguments
  | functionArguments => Routine.functionArguments
  | functionArgument => Routine.functionArgument
  | namedArgument => Routine.namedArgument
  | partialApplication => Routine.partialApplication
  | forIndex => Routine.forIndex
  | parenthesized => Routine.parenthesized
  | arrayConcatenation => Routine.arrayConcatenation
  | arrayConstructor => Routine.arrayConstructor
  | expressionList => Routine.expressionList
  | descriptionString => Routine.descriptionString
  | annotationClause => Routine.annotationClause
  | comment => Routine.comment
  | modification => Routine.modification
  | modificationExpression => Routine.modificationExpression
  | classModification => Routine.classModification
  | classOrInheritanceModification => Routine.classOrInheritanceModification
  | inheritanceModification => Routine.inheritanceModification
  | connectClause => Routine.connectClause
  | argument => Routine.argument
  | elementModification => Routine.elementModification
  | elementRedeclaration => Routine.elementRedeclaration
  | elementReplaceable => Routine.elementReplaceable
  | redeclaredElement => Routine.redeclaredElement
  | componentClause1 => Routine.componentClause1
  | elements => Routine.elements
  | element => Routine.element
  | importClause => Routine.importClause
  | extendsClause => Routine.extendsClause
  | constrainingClause => Routine.constrainingClause
  | namedElementClause => Routine.namedElementClause
  | typePrefix => Routine.typePrefix
  | componentClause => Routine.componentClause
  | componentDeclaration => Routine.componentDeclaration
  | declaration => Routine.declaration
  | storedDefinition => Routine.storedDefinition
  | withinClause => Routine.withinClause
  | classDefinitionClause => Routine.classDefinitionClause
  | classDefinition => Routine.classDefinition
  | classPrefixes => Routine.classPrefixes
  | longClassSpecifier => Routine.longClassSpecifier
  | classBody => Routine.classBody
  | shortClassSpecifier => Routine.shortClassSpecifier
  | enumerationLiteral => Routine.enumerationLiteral
  | derClassSpecifier => Routine.derClassSpecifier
  | externalFunctionClause => Routine.externalFunctionClause
  | externalFunctionCall => Routine.externalFunctionCall
  | equationSection => Routine.equationSection
  | algorithmSection => Routine.algorithmSection
  | sectionBody family => Routine.sectionBody family
  | body family => Routine.body family
  | item family => Routine.item family
  | equation => Routine.equation
  | simpleEquation => Routine.simpleEquation
  | specialEquation => Routine.specialEquation
  | connectEquation => Routine.connectEquation
  | statement => Routine.statement
  | keywordStatement kind => Routine.keywordStatement kind
  | referenceStatement => Routine.referenceStatement
  | destructuringAssignment => Routine.destructuringAssignment
  | ifBlock family => Routine.ifBlock family
  | elseIfClause family => Routine.elseIfClause family
  | elseClause family => Routine.elseClause family
  | whenBlock family => Routine.whenBlock family
  | elseWhenClause family => Routine.elseWhenClause family
  | forBlock family => Routine.forBlock family
  | whileBlock => Routine.whileBlock

namespace FragmentRule

open Routine

/-- Report that none of the tokens that start a rule comes next, and leave an empty node. -/
def missingStart (start : List Kind) : Routine Unit := do
  errorExpected .expectedToken start
  startNode .error
  finishNode

/-- The routine that reads a fragment. -/
def routine : FragmentRule → Routine Unit
  | .storedDefinition => rule .storedDefinition
  | .classDefinition => rule .classDefinition
  | .element => rule .element
  | .equation => withContext .equationSection (rule .equation)
  | .statement => withContext .algorithmSection (rule .statement)
  | .expression => rule .expression
  | .simpleExpression => rule .simpleExpression
  | .modification => do
    if (← seesAny [.equals, .assign, .lParen]) then
      rule .modification
    else
      missingStart [.equals, .assign, .lParen]
  | .classModification => do
    if (← seesAny [.lParen]) then
      rule .classModification
    else
      missingStart [.lParen]
  | .annotationClause => rule .annotationClause
  | .componentReference => rule .componentReference
  | .name => rule .name
  | .typeSpecifier => rule .typeSpecifier
  | .arraySubscripts => do
    if (← seesAny [.lBracket]) then
      rule .arraySubscripts
    else
      missingStart [.lBracket]

/-- A fragment inside a scratch node, which takes in what the rule leaves over. -/
def scratchRoutine (fragment : FragmentRule) : Routine Unit := do
  startNode .error
  fragment.routine
  let v ← look
  if !v.atEnd then
    error .unexpectedToken ("unexpected " ++ v.kind.displayName ++ " after " ++ fragment.label)
    repeatWhile (!·.atEnd) fun _ => bump
  finishNode

end FragmentRule

end Modelica
