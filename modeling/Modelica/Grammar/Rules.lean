import Modelica.Grammar.Class
import Modelica.Grammar.Element
import Modelica.Grammar.Equation
import Modelica.Grammar.Expression

/-!
# The rules tied together

`Nonterminal.production` gives every named rule its right-hand side, and `Nonterminal.run` runs a
rule with fuel for nested calls. `callBound` is enough fuel: between two tokens read, calls nest no
deeper than a fixed number.
-/

namespace Modelica

/-- The right-hand side of a rule. -/
def Nonterminal.production : Nonterminal → Production
  | name => Grammar.name
  | typeSpecifier => Grammar.typeSpecifier
  | componentReference => Grammar.componentReference
  | componentReferencePart => Grammar.componentReferencePart
  | arraySubscripts => Grammar.arraySubscripts
  | subscript => Grammar.subscript
  | expression => Grammar.expression
  | ifExpression => Grammar.ifExpression
  | simpleExpression => Grammar.simpleExpression
  | band least => Grammar.band least
  | unary level => Grammar.unary level
  | operand level => Grammar.operand level
  | primary => Grammar.primary
  | callArguments => Grammar.callArguments
  | functionArguments => Grammar.functionArguments
  | functionArgument => Grammar.functionArgument
  | namedArgument => Grammar.namedArgument
  | partialApplication => Grammar.partialApplication
  | forIndex => Grammar.forIndex
  | parenthesized => Grammar.parenthesized
  | arrayConcatenation => Grammar.arrayConcatenation
  | arrayConstructor => Grammar.arrayConstructor
  | expressionList => Grammar.expressionList
  | descriptionString => Grammar.descriptionString
  | annotationClause => Grammar.annotationClause
  | comment => Grammar.comment
  | modification => Grammar.modification
  | modificationExpression => Grammar.modificationExpression
  | classModification => Grammar.classModification
  | classOrInheritanceModification => Grammar.classOrInheritanceModification
  | inheritanceModification => Grammar.inheritanceModification
  | connectClause => Grammar.connectClause
  | argument => Grammar.argument
  | elementModification => Grammar.elementModification
  | elementRedeclaration => Grammar.elementRedeclaration
  | elementReplaceable => Grammar.elementReplaceable
  | redeclaredElement => Grammar.redeclaredElement
  | componentClause1 => Grammar.componentClause1
  | elements => Grammar.elements
  | element => Grammar.element
  | importClause => Grammar.importClause
  | extendsClause => Grammar.extendsClause
  | constrainingClause => Grammar.constrainingClause
  | namedElementClause => Grammar.namedElementClause
  | typePrefix => Grammar.typePrefix
  | componentClause => Grammar.componentClause
  | componentDeclaration => Grammar.componentDeclaration
  | declaration => Grammar.declaration
  | storedDefinition => Grammar.storedDefinition
  | withinClause => Grammar.withinClause
  | classDefinitionClause => Grammar.classDefinitionClause
  | classDefinition => Grammar.classDefinition
  | classPrefixes => Grammar.classPrefixes
  | longClassSpecifier => Grammar.longClassSpecifier
  | classBody => Grammar.classBody
  | shortClassSpecifier => Grammar.shortClassSpecifier
  | enumerationLiteral => Grammar.enumerationLiteral
  | derClassSpecifier => Grammar.derClassSpecifier
  | externalFunctionClause => Grammar.externalFunctionClause
  | externalFunctionCall => Grammar.externalFunctionCall
  | equationSection => Grammar.equationSection
  | algorithmSection => Grammar.algorithmSection
  | sectionBody family => Grammar.sectionBody family
  | body family => Grammar.body family
  | item family => Grammar.item family
  | equation => Grammar.equation
  | simpleEquation => Grammar.simpleEquation
  | specialEquation => Grammar.specialEquation
  | connectEquation => Grammar.connectEquation
  | statement => Grammar.statement
  | keywordStatement kind => Grammar.keywordStatement kind
  | referenceStatement => Grammar.referenceStatement
  | destructuringAssignment => Grammar.destructuringAssignment
  | ifBlock family => Grammar.ifBlock family
  | elseIfClause family => Grammar.elseIfClause family
  | elseClause family => Grammar.elseClause family
  | whenBlock family => Grammar.whenBlock family
  | elseWhenClause family => Grammar.elseWhenClause family
  | forBlock family => Grammar.forBlock family
  | whileBlock => Grammar.whileBlock

/-- What a rule does, with fuel for the calls it makes. -/
def Nonterminal.run (bound : Nat) : Nat → Nonterminal → Surroundings → Reading → Reading
  | 0, _, _, r => r
  | fuel + 1, rule, env, r => rule.production.run (Nonterminal.run bound fuel) bound env r

/-- Enough repetitions for so many tokens. -/
def repeatBound (tokens : Nat) : Nat := tokens + 1

/-- Enough fuel for so many tokens: calls between two tokens nest less than a hundred deep. -/
def callBound (tokens : Nat) : Nat := 100 * (tokens + 1)

/-- Run a production on all the significant tokens of a text. -/
def Production.read (p : Production) (limit : Nat) (tokens : List Token) : Reading :=
  let n := tokens.length
  p.run (Nonterminal.run (repeatBound n) (callBound n)) (repeatBound n)
    ⟨.topLevel, [], 0, limit⟩ (.start tokens)

end Modelica
