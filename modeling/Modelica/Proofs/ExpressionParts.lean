import Modelica.Proofs.Agreement
import Modelica.View.Expression
import Modelica.View.Literal

/-!
# The parts of expressions and names

What the views of expressions, calls, arrays and names read for a part is what its slot holds.
-/

namespace Modelica

structure IfExpression.Agrees (v : IfExpression) : Prop where
  condition : v.node.Shows "condition" v.condition?
  thenBranch : v.node.Shows "thenExpression" v.thenBranch?
  elseIfClauses : v.node.Shows "elseIfExpressionClause" v.elseIfClauses
  elseBranch : v.node.Shows "elseExpression" v.elseBranch?

theorem IfExpression.agrees (v : IfExpression) (h : v.node.Remains) : v.Agrees where
  condition := v.shows_nodeIn? h (by decide +kernel)
  thenBranch := v.shows_nodeIn? h (by decide +kernel)
  elseIfClauses := v.shows_every h (by decide +kernel)
  elseBranch := v.shows_nodeIn? h (by decide +kernel)

structure ElseIfExpressionClause.Agrees (v : ElseIfExpressionClause) : Prop where
  condition : v.node.Shows "condition" v.condition?
  thenBranch : v.node.Shows "thenExpression" v.thenBranch?

theorem ElseIfExpressionClause.agrees (v : ElseIfExpressionClause) (h : v.node.Remains) :
    v.Agrees where
  condition := v.shows_nodeIn? h (by decide +kernel)
  thenBranch := v.shows_nodeIn? h (by decide +kernel)

structure RangeExpression.Agrees (v : RangeExpression) : Prop where
  start : v.node.Shows "startExpression" v.start?
  step : v.node.Shows "stepExpression" v.step?
  stop : v.node.Shows "stopExpression" v.stop?

theorem RangeExpression.agrees (v : RangeExpression) (h : v.node.Remains) : v.Agrees where
  start := v.shows_nodeIn? h (by decide +kernel)
  step := v.shows_nodeIn? h (by decide +kernel)
  stop := v.shows_nodeIn? h (by decide +kernel)

structure UnaryExpression.Agrees (v : UnaryExpression) : Prop where
  operator : v.node.Shows "operator" v.operator?
  operand : v.node.Shows "operand" v.operand?

theorem UnaryExpression.agrees (v : UnaryExpression) (h : v.node.Remains) : v.Agrees where
  operator := v.shows_tokenIn? h (by decide +kernel)
  operand := v.shows_nodeIn? h (by decide +kernel)

structure BinaryExpression.Agrees (v : BinaryExpression) : Prop where
  left : v.node.Shows "operand1" v.left?
  operator : v.node.Shows "operator" v.operator?
  operatorKind : v.operatorKind? = (v.node.field "operator").toList.head?.map Located.kind
  right : v.node.Shows "operand2" v.right?

theorem BinaryExpression.agrees (v : BinaryExpression) (h : v.node.Remains) : v.Agrees where
  left := v.shows_nodeIn? h (by decide +kernel)
  operator := v.shows_tokenIn? h (by decide +kernel)
  operatorKind := congrArg (Option.map Located.kind) (v.shows_tokenIn? h (by decide +kernel))
  right := v.shows_nodeIn? h (by decide +kernel)

structure ParenthesizedExpression.Agrees (v : ParenthesizedExpression) : Prop where
  expressions : v.node.Shows "expression" v.expressions

theorem ParenthesizedExpression.agrees (v : ParenthesizedExpression) (h : v.node.Remains) :
    v.Agrees where
  expressions := v.shows_every h (by decide +kernel)

structure ExpressionList.Agrees (v : ExpressionList) : Prop where
  expressions : v.node.Shows "expression" v.expressions

theorem ExpressionList.agrees (v : ExpressionList) (h : v.node.Remains) : v.Agrees where
  expressions := v.shows_every h (by decide +kernel)

structure FunctionCall.Agrees (v : FunctionCall) : Prop where
  callee : v.node.Shows "functionReference" v.callee?
  arguments : v.node.Shows "functionArguments" v.arguments?

theorem FunctionCall.agrees (v : FunctionCall) (h : v.node.Remains) : v.Agrees where
  callee := rfl
  arguments := v.shows_first? h (by decide +kernel)

structure FunctionArguments.Agrees (v : FunctionArguments) : Prop where
  comprehension : v.node.Shows "comprehensionClause" v.comprehension?
  positional : v.node.Shows "argument" v.positional
  named : v.node.Shows "namedArgument" v.named

theorem FunctionArguments.agrees (v : FunctionArguments) (h : v.node.Remains) : v.Agrees where
  comprehension := v.shows_first? h (by decide +kernel)
  positional := v.shows_every h (by decide +kernel)
  named := v.shows_every h (by decide +kernel)

structure FunctionArgument.Agrees (v : FunctionArgument) : Prop where
  partialApplication : v.node.Shows "functionPartialApplication" v.partialApplication?
  expression : v.node.Shows "expression" v.expression?

theorem FunctionArgument.agrees (v : FunctionArgument) (h : v.node.Remains) : v.Agrees where
  partialApplication := v.shows_first? h (by decide +kernel)
  expression := v.shows_first? h (by decide +kernel)

structure NamedArgument.Agrees (v : NamedArgument) : Prop where
  name : v.node.Shows "identifier" v.name?
  value : v.node.Shows "argument" v.value?

theorem NamedArgument.agrees (v : NamedArgument) (h : v.node.Remains) : v.Agrees where
  name := v.shows_identifier? h (by decide +kernel)
  value := v.shows_first? h (by decide +kernel)

structure FunctionPartialApplication.Agrees (v : FunctionPartialApplication) : Prop where
  typeSpecifier : v.node.Shows "typeSpecifier" v.typeSpecifier?
  namedArguments : v.node.Shows "namedArgument" v.namedArguments

theorem FunctionPartialApplication.agrees (v : FunctionPartialApplication) (h : v.node.Remains) :
    v.Agrees where
  typeSpecifier := v.shows_first? h (by decide +kernel)
  namedArguments := v.shows_every h (by decide +kernel)

structure ArrayConcatenation.Agrees (v : ArrayConcatenation) : Prop where
  rows : v.node.Shows "expressionList" v.rows

theorem ArrayConcatenation.agrees (v : ArrayConcatenation) (h : v.node.Remains) : v.Agrees where
  rows := v.shows_every h (by decide +kernel)

structure ArrayConstructor.Agrees (v : ArrayConstructor) : Prop where
  comprehension : v.node.Shows "comprehensionClause" v.comprehension?
  elements : v.node.Shows "expressionList" v.elements?

theorem ArrayConstructor.agrees (v : ArrayConstructor) (h : v.node.Remains) : v.Agrees where
  comprehension := v.shows_first? h (by decide +kernel)
  elements := v.shows_first? h (by decide +kernel)

structure ComprehensionClause.Agrees (v : ComprehensionClause) : Prop where
  expression : v.node.Shows "expression" v.expression?
  indices : v.node.Shows "forIndex" v.indices

theorem ComprehensionClause.agrees (v : ComprehensionClause) (h : v.node.Remains) : v.Agrees where
  expression := v.shows_first? h (by decide +kernel)
  indices := v.shows_every h (by decide +kernel)

structure ArraySubscripts.Agrees (v : ArraySubscripts) : Prop where
  subscripts : v.node.Shows "subscript" v.subscripts

theorem ArraySubscripts.agrees (v : ArraySubscripts) (h : v.node.Remains) : v.Agrees where
  subscripts := v.shows_every h (by decide +kernel)

structure Subscript.Agrees (v : Subscript) : Prop where
  isFlexible : v.node.Shows "flexible" v.isFlexible
  expression : v.node.Shows "expression" v.expression?

theorem Subscript.agrees (v : Subscript) (h : v.node.Remains) : v.Agrees where
  isFlexible := v.shows_has h (by decide +kernel)
  expression := v.shows_first? h (by decide +kernel)

structure TypeSpecifier.Agrees (v : TypeSpecifier) : Prop where
  isGlobal : v.node.Shows "global" v.isGlobal
  name : v.node.Shows "name" v.name?

theorem TypeSpecifier.agrees (v : TypeSpecifier) (h : v.node.Remains) : v.Agrees where
  isGlobal := v.shows_fills
  name := v.shows_first? h (by decide +kernel)

structure Name.Agrees (v : Name) : Prop where
  parts : v.node.Shows "part" v.parts

theorem Name.agrees (v : Name) (h : v.node.Remains) : v.Agrees where
  parts := v.shows_identifiers h (by decide +kernel)

structure ComponentReference.Agrees (v : ComponentReference) : Prop where
  isGlobal : v.node.Shows "global" v.isGlobal
  parts : v.node.Shows "part" v.parts

theorem ComponentReference.agrees (v : ComponentReference) (h : v.node.Remains) : v.Agrees where
  isGlobal := v.shows_fills
  parts := v.shows_every h (by decide +kernel)

structure ComponentReferencePart.Agrees (v : ComponentReferencePart) : Prop where
  name : v.node.Shows "identifier" v.name?
  arraySubscripts : v.node.Shows "arraySubscripts" v.arraySubscripts?

theorem ComponentReferencePart.agrees (v : ComponentReferencePart) (h : v.node.Remains) :
    v.Agrees where
  name := v.shows_identifier? h (by decide +kernel)
  arraySubscripts := v.shows_first? h (by decide +kernel)

structure DescriptionString.Agrees (v : DescriptionString) : Prop where
  parts : v.node.Shows "string" v.parts

theorem DescriptionString.agrees (v : DescriptionString) (h : v.node.Remains) : v.Agrees where
  parts := v.shows_every h (by decide +kernel)

end Modelica
