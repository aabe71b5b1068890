import Modelica.View.Kinds

/-!
# Statements

The parts of algorithm sections and statements.
-/

namespace Modelica

namespace AlgorithmSection

variable (v : AlgorithmSection)

def isInitial : Bool := v.node.has .initialKw

def statements : List Statement := v.node.every

end AlgorithmSection

namespace SimpleAssignmentStatement

variable (v : SimpleAssignmentStatement)

def target? : Option ComponentReference := v.node.nodeIn? "target"

def value? : Option Expression := v.node.nodeIn? "expression"

end SimpleAssignmentStatement

namespace FunctionCallStatement

variable (v : FunctionCallStatement)

def functionReference? : Option ComponentReference := v.node.first?

def arguments? : Option FunctionArguments := v.node.first?

end FunctionCallStatement

namespace DestructuringAssignmentStatement

variable (v : DestructuringAssignmentStatement)

def targets? : Option ParenthesizedExpression := v.node.first?

def functionReference? : Option ComponentReference := v.node.first?

def arguments? : Option FunctionArguments := v.node.first?

end DestructuringAssignmentStatement

namespace IfStatement

variable (v : IfStatement)

def condition? : Option Expression := v.node.first?

def thenStatements : List Statement := v.node.every

def elseIfClauses : List ElseIfStatementClause := v.node.every

def elseClause? : Option ElseStatementClause := v.node.first?

end IfStatement

namespace ElseIfStatementClause

variable (v : ElseIfStatementClause)

def condition? : Option Expression := v.node.first?

def statements : List Statement := v.node.every

end ElseIfStatementClause

namespace ElseStatementClause

variable (v : ElseStatementClause)

def statements : List Statement := v.node.every

end ElseStatementClause

namespace ForStatement

variable (v : ForStatement)

def indices : List ForIndex := v.node.every

def statements : List Statement := v.node.every

end ForStatement

namespace WhileStatement

variable (v : WhileStatement)

def condition? : Option Expression := v.node.first?

def statements : List Statement := v.node.nodesIn "statement"

end WhileStatement

namespace WhenStatement

variable (v : WhenStatement)

def condition? : Option Expression := v.node.first?

def statements : List Statement := v.node.every

def elseWhenClauses : List ElseWhenStatementClause := v.node.every

end WhenStatement

namespace ElseWhenStatementClause

variable (v : ElseWhenStatementClause)

def condition? : Option Expression := v.node.first?

def statements : List Statement := v.node.every

end ElseWhenStatementClause

end Modelica
