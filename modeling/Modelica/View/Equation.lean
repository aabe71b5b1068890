import Modelica.View.Kinds

/-!
# Equations

The parts of equation sections and equations.
-/

namespace Modelica

namespace EquationSection

variable (v : EquationSection)

def isInitial : Bool := v.node.has .initialKw

def equations : List Equation := v.node.every

end EquationSection

namespace SimpleEquation

variable (v : SimpleEquation)

def left? : Option SimpleExpression := v.node.nodeIn? "expression1"

def right? : Option Expression := v.node.nodeIn? "expression2"

def description? : Option DescriptionString := v.node.first?

def annotation? : Option AnnotationClause := v.node.first?

end SimpleEquation

namespace SpecialEquation

variable (v : SpecialEquation)

def functionReference? : Option ComponentReference := v.node.first?

def arguments? : Option FunctionArguments := v.node.first?

def description? : Option DescriptionString := v.node.first?

end SpecialEquation

namespace IfEquation

variable (v : IfEquation)

def condition? : Option Expression := v.node.first?

def thenEquations : List Equation := v.node.every

def elseIfClauses : List ElseIfEquationClause := v.node.every

def elseClause? : Option ElseEquationClause := v.node.first?

end IfEquation

namespace ElseIfEquationClause

variable (v : ElseIfEquationClause)

def condition? : Option Expression := v.node.first?

def equations : List Equation := v.node.every

end ElseIfEquationClause

namespace ElseEquationClause

variable (v : ElseEquationClause)

def equations : List Equation := v.node.every

end ElseEquationClause

namespace ForEquation

variable (v : ForEquation)

def indices : List ForIndex := v.node.every

def equations : List Equation := v.node.every

end ForEquation

namespace ConnectEquation

variable (v : ConnectEquation)

def connectClause? : Option ConnectClause := v.node.first?

end ConnectEquation

namespace ConnectClause

variable (v : ConnectClause)

def source? : Option ComponentReference := v.node.nodeIn? "componentReference1"

def target? : Option ComponentReference := v.node.nodeIn? "componentReference2"

end ConnectClause

namespace WhenEquation

variable (v : WhenEquation)

def condition? : Option Expression := v.node.first?

def equations : List Equation := v.node.every

def elseWhenClauses : List ElseWhenEquationClause := v.node.every

end WhenEquation

namespace ElseWhenEquationClause

variable (v : ElseWhenEquationClause)

def condition? : Option Expression := v.node.first?

def equations : List Equation := v.node.every

end ElseWhenEquationClause

end Modelica
