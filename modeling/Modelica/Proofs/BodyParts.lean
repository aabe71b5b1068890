import Modelica.Proofs.Agreement
import Modelica.View.Equation
import Modelica.View.Expression
import Modelica.View.Statement

/-!
# The parts of equations and statements

What the views of equations and statements read for a part is what its slot holds, but for the
items of an `if` that come after its `else` clause: they are read with the items of the first
branch, yet the slot of these is closed by then.
-/

namespace Modelica

structure EquationSection.Agrees (v : EquationSection) : Prop where
  isInitial : v.node.Shows "initial" v.isInitial
  equations : v.node.Shows "equation" v.equations

theorem EquationSection.agrees (v : EquationSection) (h : v.node.Remains) : v.Agrees where
  isInitial := v.shows_has h (by decide +kernel)
  equations := v.shows_every h (by decide +kernel)

structure SimpleEquation.Agrees (v : SimpleEquation) : Prop where
  left : v.node.Shows "expression1" v.left?
  right : v.node.Shows "expression2" v.right?
  description : v.node.Shows "descriptionString" v.description?
  annotation : v.node.Shows "annotationClause" v.annotation?

theorem SimpleEquation.agrees (v : SimpleEquation) (h : v.node.Remains) : v.Agrees where
  left := v.shows_nodeIn? h (by decide +kernel)
  right := v.shows_nodeIn? h (by decide +kernel)
  description := v.shows_first? h (by decide +kernel)
  annotation := v.shows_first? h (by decide +kernel)

structure SpecialEquation.Agrees (v : SpecialEquation) : Prop where
  functionReference : v.node.Shows "functionReference" v.functionReference?
  arguments : v.node.Shows "functionArguments" v.arguments?
  description : v.node.Shows "descriptionString" v.description?

theorem SpecialEquation.agrees (v : SpecialEquation) (h : v.node.Remains) : v.Agrees where
  functionReference := v.shows_first? h (by decide +kernel)
  arguments := v.shows_first? h (by decide +kernel)
  description := v.shows_first? h (by decide +kernel)

structure IfEquation.Agrees (v : IfEquation) : Prop where
  condition : v.node.Shows "condition" v.condition?
  thenEquations : v.node.ShowsBefore .elseEquationClause "equation" v.thenEquations
  elseIfClauses : v.node.Shows "elseIfEquationClause" v.elseIfClauses
  elseClause : v.node.Shows "elseEquationClause" v.elseClause?

theorem IfEquation.agrees (v : IfEquation) (h : v.node.Remains) : v.Agrees where
  condition := v.shows_first? h (by decide +kernel)
  thenEquations := v.shows_before h (by decide +kernel)
  elseIfClauses := v.shows_every h (by decide +kernel)
  elseClause := v.shows_first? h (by decide +kernel)

structure ElseIfEquationClause.Agrees (v : ElseIfEquationClause) : Prop where
  condition : v.node.Shows "condition" v.condition?
  equations : v.node.Shows "equation" v.equations

theorem ElseIfEquationClause.agrees (v : ElseIfEquationClause) (h : v.node.Remains) : v.Agrees where
  condition := v.shows_first? h (by decide +kernel)
  equations := v.shows_every h (by decide +kernel)

structure ElseEquationClause.Agrees (v : ElseEquationClause) : Prop where
  equations : v.node.Shows "equation" v.equations

theorem ElseEquationClause.agrees (v : ElseEquationClause) (h : v.node.Remains) : v.Agrees where
  equations := v.shows_every h (by decide +kernel)

structure ForEquation.Agrees (v : ForEquation) : Prop where
  indices : v.node.Shows "forIndex" v.indices
  equations : v.node.Shows "equation" v.equations

theorem ForEquation.agrees (v : ForEquation) (h : v.node.Remains) : v.Agrees where
  indices := v.shows_every h (by decide +kernel)
  equations := v.shows_every h (by decide +kernel)

structure ConnectEquation.Agrees (v : ConnectEquation) : Prop where
  connectClause : v.node.Shows "connectClause" v.connectClause?

theorem ConnectEquation.agrees (v : ConnectEquation) (h : v.node.Remains) : v.Agrees where
  connectClause := v.shows_first? h (by decide +kernel)

structure ConnectClause.Agrees (v : ConnectClause) : Prop where
  source : v.node.Shows "componentReference1" v.source?
  target : v.node.Shows "componentReference2" v.target?

theorem ConnectClause.agrees (v : ConnectClause) (h : v.node.Remains) : v.Agrees where
  source := v.shows_nodeIn? h (by decide +kernel)
  target := v.shows_nodeIn? h (by decide +kernel)

structure WhenEquation.Agrees (v : WhenEquation) : Prop where
  condition : v.node.Shows "condition" v.condition?
  equations : v.node.Shows "equation" v.equations
  elseWhenClauses : v.node.Shows "elseWhenClause" v.elseWhenClauses

theorem WhenEquation.agrees (v : WhenEquation) (h : v.node.Remains) : v.Agrees where
  condition := v.shows_first? h (by decide +kernel)
  equations := v.shows_every h (by decide +kernel)
  elseWhenClauses := v.shows_every h (by decide +kernel)

structure ElseWhenEquationClause.Agrees (v : ElseWhenEquationClause) : Prop where
  condition : v.node.Shows "condition" v.condition?
  equations : v.node.Shows "equation" v.equations

theorem ElseWhenEquationClause.agrees (v : ElseWhenEquationClause) (h : v.node.Remains) :
    v.Agrees where
  condition := v.shows_first? h (by decide +kernel)
  equations := v.shows_every h (by decide +kernel)

structure AlgorithmSection.Agrees (v : AlgorithmSection) : Prop where
  isInitial : v.node.Shows "initial" v.isInitial
  statements : v.node.Shows "statement" v.statements

theorem AlgorithmSection.agrees (v : AlgorithmSection) (h : v.node.Remains) : v.Agrees where
  isInitial := v.shows_has h (by decide +kernel)
  statements := v.shows_every h (by decide +kernel)

structure SimpleAssignmentStatement.Agrees (v : SimpleAssignmentStatement) : Prop where
  target : v.node.Shows "target" v.target?
  value : v.node.Shows "expression" v.value?

theorem SimpleAssignmentStatement.agrees (v : SimpleAssignmentStatement) (h : v.node.Remains) :
    v.Agrees where
  target := v.shows_nodeIn? h (by decide +kernel)
  value := v.shows_nodeIn? h (by decide +kernel)

structure FunctionCallStatement.Agrees (v : FunctionCallStatement) : Prop where
  functionReference : v.node.Shows "functionReference" v.functionReference?
  arguments : v.node.Shows "functionArguments" v.arguments?

theorem FunctionCallStatement.agrees (v : FunctionCallStatement) (h : v.node.Remains) :
    v.Agrees where
  functionReference := v.shows_first? h (by decide +kernel)
  arguments := v.shows_first? h (by decide +kernel)

structure DestructuringAssignmentStatement.Agrees (v : DestructuringAssignmentStatement) :
    Prop where
  targets : v.node.Shows "targets" v.targets?
  functionReference : v.node.Shows "functionReference" v.functionReference?
  arguments : v.node.Shows "functionArguments" v.arguments?

theorem DestructuringAssignmentStatement.agrees (v : DestructuringAssignmentStatement)
    (h : v.node.Remains) : v.Agrees where
  targets := v.shows_first? h (by decide +kernel)
  functionReference := v.shows_first? h (by decide +kernel)
  arguments := v.shows_first? h (by decide +kernel)

structure IfStatement.Agrees (v : IfStatement) : Prop where
  condition : v.node.Shows "condition" v.condition?
  thenStatements : v.node.ShowsBefore .elseStatementClause "statement" v.thenStatements
  elseIfClauses : v.node.Shows "elseIfStatementClause" v.elseIfClauses
  elseClause : v.node.Shows "elseStatementClause" v.elseClause?

theorem IfStatement.agrees (v : IfStatement) (h : v.node.Remains) : v.Agrees where
  condition := v.shows_first? h (by decide +kernel)
  thenStatements := v.shows_before h (by decide +kernel)
  elseIfClauses := v.shows_every h (by decide +kernel)
  elseClause := v.shows_first? h (by decide +kernel)

structure ElseIfStatementClause.Agrees (v : ElseIfStatementClause) : Prop where
  condition : v.node.Shows "condition" v.condition?
  statements : v.node.Shows "statement" v.statements

theorem ElseIfStatementClause.agrees (v : ElseIfStatementClause) (h : v.node.Remains) :
    v.Agrees where
  condition := v.shows_first? h (by decide +kernel)
  statements := v.shows_every h (by decide +kernel)

structure ElseStatementClause.Agrees (v : ElseStatementClause) : Prop where
  statements : v.node.Shows "statement" v.statements

theorem ElseStatementClause.agrees (v : ElseStatementClause) (h : v.node.Remains) : v.Agrees where
  statements := v.shows_every h (by decide +kernel)

structure ForStatement.Agrees (v : ForStatement) : Prop where
  indices : v.node.Shows "forIndex" v.indices
  statements : v.node.Shows "statement" v.statements

theorem ForStatement.agrees (v : ForStatement) (h : v.node.Remains) : v.Agrees where
  indices := v.shows_every h (by decide +kernel)
  statements := v.shows_every h (by decide +kernel)

structure ForIndex.Agrees (v : ForIndex) : Prop where
  name : v.node.Shows "identifier" v.name?
  range : v.node.Shows "expression" v.range?

theorem ForIndex.agrees (v : ForIndex) (h : v.node.Remains) : v.Agrees where
  name := v.shows_identifier? h (by decide +kernel)
  range := v.shows_first? h (by decide +kernel)

structure WhileStatement.Agrees (v : WhileStatement) : Prop where
  condition : v.node.Shows "condition" v.condition?
  statements : v.node.Shows "statement" v.statements

theorem WhileStatement.agrees (v : WhileStatement) (h : v.node.Remains) : v.Agrees where
  condition := v.shows_first? h (by decide +kernel)
  statements := v.shows_nodesIn h (by decide +kernel)

structure WhenStatement.Agrees (v : WhenStatement) : Prop where
  condition : v.node.Shows "condition" v.condition?
  statements : v.node.Shows "statement" v.statements
  elseWhenClauses : v.node.Shows "elseWhenClause" v.elseWhenClauses

theorem WhenStatement.agrees (v : WhenStatement) (h : v.node.Remains) : v.Agrees where
  condition := v.shows_first? h (by decide +kernel)
  statements := v.shows_every h (by decide +kernel)
  elseWhenClauses := v.shows_every h (by decide +kernel)

structure ElseWhenStatementClause.Agrees (v : ElseWhenStatementClause) : Prop where
  condition : v.node.Shows "condition" v.condition?
  statements : v.node.Shows "statement" v.statements

theorem ElseWhenStatementClause.agrees (v : ElseWhenStatementClause) (h : v.node.Remains) :
    v.Agrees where
  condition := v.shows_first? h (by decide +kernel)
  statements := v.shows_every h (by decide +kernel)

end Modelica
