import Modelica.View.Name

/-!
# Expressions

The parts of expressions, calls and array constructors. Operands and branches are read from their
slots, since a node may have several children of the same type.
-/

namespace Modelica

namespace IfExpression

variable (v : IfExpression)

def condition? : Option Expression := v.node.nodeIn? "condition"

def thenBranch? : Option Expression := v.node.nodeIn? "thenExpression"

def elseIfClauses : List ElseIfExpressionClause := v.node.every

def elseBranch? : Option Expression := v.node.nodeIn? "elseExpression"

end IfExpression

namespace ElseIfExpressionClause

variable (v : ElseIfExpressionClause)

def condition? : Option Expression := v.node.nodeIn? "condition"

def thenBranch? : Option Expression := v.node.nodeIn? "thenExpression"

end ElseIfExpressionClause

namespace RangeExpression

variable (v : RangeExpression)

def start? : Option SimpleExpression := v.node.nodeIn? "startExpression"

def step? : Option SimpleExpression := v.node.nodeIn? "stepExpression"

def stop? : Option SimpleExpression := v.node.nodeIn? "stopExpression"

end RangeExpression

namespace UnaryExpression

variable (v : UnaryExpression)

def operator? : Option Located := v.node.tokenIn? "operator"

def operand? : Option SimpleExpression := v.node.nodeIn? "operand"

end UnaryExpression

namespace BinaryExpression

variable (v : BinaryExpression)

def left? : Option SimpleExpression := v.node.nodeIn? "operand1"

def operator? : Option Located := v.node.tokenIn? "operator"

def operatorKind? : Option Kind := v.operator?.map Located.kind

def right? : Option SimpleExpression := v.node.nodeIn? "operand2"

end BinaryExpression

namespace ParenthesizedExpression

variable (v : ParenthesizedExpression)

/-- The expressions in the list. Places left empty, as in `(a, , c)`, do not count. -/
def expressions : List Expression := v.node.every

end ParenthesizedExpression

namespace ExpressionList

variable (v : ExpressionList)

def expressions : List Expression := v.node.every

end ExpressionList

namespace FunctionCall

variable (v : FunctionCall)

def arguments? : Option FunctionArguments := v.node.first?

/-- The called name as it is written: a reference, or a keyword such as `der`. -/
def callee? : Option String := (v.node.field "functionReference").first?.map Located.text

end FunctionCall

namespace FunctionArguments

variable (v : FunctionArguments)

def comprehension? : Option ComprehensionClause := v.node.first?

def positional : List FunctionArgument := v.node.every

def named : List NamedArgument := v.node.every

end FunctionArguments

namespace FunctionArgument

variable (v : FunctionArgument)

def partialApplication? : Option FunctionPartialApplication := v.node.first?

def expression? : Option Expression := v.node.first?

end FunctionArgument

namespace NamedArgument

variable (v : NamedArgument)

def name? : Option String := v.node.identifier?

def value? : Option FunctionArgument := v.node.first?

end NamedArgument

namespace FunctionPartialApplication

variable (v : FunctionPartialApplication)

def typeSpecifier? : Option TypeSpecifier := v.node.first?

def namedArguments : List NamedArgument := v.node.every

end FunctionPartialApplication

namespace ArrayConcatenation

variable (v : ArrayConcatenation)

def rows : List ExpressionList := v.node.every

end ArrayConcatenation

namespace ArrayConstructor

variable (v : ArrayConstructor)

def elements? : Option ExpressionList := v.node.first?

def comprehension? : Option ComprehensionClause := v.node.first?

end ArrayConstructor

namespace ComprehensionClause

variable (v : ComprehensionClause)

def expression? : Option Expression := v.node.first?

def indices : List ForIndex := v.node.every

end ComprehensionClause

namespace ForIndex

variable (v : ForIndex)

def name? : Option String := v.node.identifier?

/-- What the index runs over; left out where it follows from the use of the index. -/
def range? : Option Expression := v.node.first?

end ForIndex

end Modelica
