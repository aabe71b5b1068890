import Modelica.Grammar.Block

/-!
# Equations and statements

The items of equation sections and of algorithm sections. Both end with an optional comment and a
semicolon.
-/

namespace Modelica.Grammar

open Production

/-- `DescriptionString? AnnotationClause? ';'` -/
def itemEnd : Production := seq [call .comment, expect .semicolon]

def item : Family → Production
  | .equations => call .equation
  | .statements => call .statement

/-- `'initial'? 'equation' Equation*` -/
def equationSection : Production :=
  node .equationSection [
    accept .initialKw,
    expect .equationKw,
    inContext .equationSection (call (.sectionBody .equations))]

/-- `SimpleEquation | IfEquation | ForEquation | ConnectEquation | WhenEquation |
SpecialEquation` -/
def equation : Production :=
  deeper <| look fun v =>
    match v.kind with
    | .ifKw => call (.ifBlock .equations)
    | .forKw => call (.forBlock .equations)
    | .whenKw => call (.whenBlock .equations)
    | .connectKw => call .connectEquation
    | .elseifKw | .elseKw | .elsewhenKw => strayClause .equations
    | kind =>
      if v.atCallEquation then call .specialEquation
      else if v.atPrimaryStart || (Band.unaryLevel? kind).isSome then call .simpleEquation
      else skipThroughSemicolon .unexpectedToken
        ("expected an equation, found " ++ kind.displayName ++ " " ++ v.context.description)

/-- `SimpleExpression '=' Expression DescriptionString? AnnotationClause? ';'` -/
def simpleEquation : Production :=
  node .simpleEquation [
    call .simpleExpression,
    look fun v =>
      match v.kind with
      | .equals => seq [shift, call .expression]
      | .assign => seq [
          report { Diagnostic.ofCode .assignInEquation v.index with
            expected := [.equals], found := some .assign,
            hint := some "equations use `=`; `:=` belongs in algorithm sections" },
          shift,
          call .expression]
      | _ => missing .missingEquals [.equals],
    itemEnd]

/-- `ComponentReference '(' FunctionArguments? ')' DescriptionString? AnnotationClause? ';'` -/
def specialEquation : Production :=
  node .specialEquation [call .componentReference, call .callArguments, itemEnd]

/-- `ConnectClause DescriptionString? AnnotationClause? ';'` -/
def connectEquation : Production := node .connectEquation [call .connectClause, itemEnd]

/-- `'initial'? 'algorithm' Statement*` -/
def algorithmSection : Production :=
  node .algorithmSection [
    accept .initialKw,
    expect .algorithmKw,
    inContext .algorithmSection (call (.sectionBody .statements))]

/-- `SimpleAssignmentStatement | FunctionCallStatement | DestructuringAssignmentStatement |
BreakStatement | ReturnStatement | IfStatement | ForStatement | WhileStatement | WhenStatement` -/
def statement : Production :=
  deeper <| look fun v =>
    match v.kind with
    | .ifKw => call (.ifBlock .statements)
    | .forKw => call (.forBlock .statements)
    | .whenKw => call (.whenBlock .statements)
    | .whileKw => call .whileBlock
    | .breakKw => call (.keywordStatement .breakStatement)
    | .returnKw => call (.keywordStatement .returnStatement)
    | .lParen => call .destructuringAssignment
    | .ident | .dot => call .referenceStatement
    | .elseifKw | .elseKw | .elsewhenKw => strayClause .statements
    | kind => skipThroughSemicolon .notAStatement
        ("expected a statement, found " ++ kind.displayName ++ " " ++ v.context.description)

/-- `keyword DescriptionString? AnnotationClause? ';'` -/
def keywordStatement (kind : Kind) : Production := node kind [shift, itemEnd]

/-- `ComponentReference ':=' Expression` or `ComponentReference '(' FunctionArguments? ')'`, then a
comment and `;`. Both start alike, so the node is chosen by the token after the reference. -/
def referenceStatement : Production :=
  group <| seq [
    call .componentReference,
    look fun v =>
      match v.kind with
      | .assign => wrap .simpleAssignmentStatement <| seq [shift, call .expression, itemEnd]
      | .lParen => wrap .functionCallStatement <| seq [call .callArguments, itemEnd]
      | .equals => wrap .simpleAssignmentStatement <| seq [
          report { Diagnostic.ofCode .notAStatement v.index with
            message := "`=` is not an assignment in algorithm sections",
            expected := [.assign], found := some .equals, hint := some "use `:=` to assign" },
          shift,
          call .expression,
          itemEnd]
      | _ => wrap .simpleAssignmentStatement <| seq [
          missing .notAStatement [.assign, .lParen], itemEnd]]

/-- `ParenthesizedExpression ':=' ComponentReference '(' FunctionArguments? ')'
DescriptionString? AnnotationClause? ';'` -/
def destructuringAssignment : Production :=
  node .destructuringAssignmentStatement [
    call .parenthesized,
    expect .assign,
    look fun v =>
      if v.seesAny [.ident, .dot] then seq [call .componentReference, call .callArguments]
      else missing .notAStatement [.ident],
    itemEnd]

end Modelica.Grammar
