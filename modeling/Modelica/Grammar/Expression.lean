import Modelica.Grammar.Name

/-!
# Expressions

Operators are read by climbing the bands of `Band.table`: a band reads an operand and then, as long
as an operator of its own level or a tighter one follows, wraps what it has as the left operand.
Everything that nests without a bracket counts towards the bound on levels.
-/

namespace Modelica.Grammar

open Production

/-- `IfExpression | RangeExpression | SimpleExpression`; a range shows by the `:` after its first
operand. -/
def expression : Production :=
  deeper <| look fun v =>
    if v.sees .ifKw then call .ifExpression
    else group <| seq [
      call .simpleExpression,
      before .colon <| wrap .rangeExpression <| seq [
        shift,
        call .simpleExpression,
        before .colon <| seq [shift, call .simpleExpression]]]

/-- The `else` branch of an `if` expression, which may not be left out. -/
def elseBranch (opened : Spot) : Production :=
  look fun v =>
    if v.sees .elseKw then seq [shift, call .expression]
    else report { Diagnostic.ofCode .expectedToken v.index with
      message := Diagnostic.expectedMessage [.elseKw] v.found v.context,
      expected := [.elseifKw, .elseKw], found := v.found,
      related := [⟨"`if` expression opened here", opened⟩],
      hint := some "an if-expression always needs an `else` branch" }

/-- `'if' Expression 'then' Expression ElseIfExpressionClause* 'else' Expression` -/
def ifExpression : Production :=
  look fun start => node .ifExpression [
    shift,
    opening ⟨.ifBlock, .expression⟩ <| seq [
      call .expression,
      expect .thenKw,
      call .expression,
      many (·.sees .elseifKw) fun _ => node .elseIfExpressionClause [
        shift, call .expression, expect .thenKw, call .expression],
      elseBranch start.index]]

/-- An expression without the `if` and range forms. -/
def simpleExpression : Production := call (.band 0)

/-- The first operand of a band. An operator with one operand that binds looser than the band has
to stand in parentheses. -/
def leftmost (least : Nat) : Production :=
  look fun v =>
    match Band.unaryLevel? v.kind with
    | none => call .primary
    | some level =>
      if least ≤ level then call (.unary level)
      else seq [
        fault .misplacedUnary ("prefix " ++ v.kind.displayName ++
          " is not allowed here; wrap the operand in parentheses"),
        call (.unary level)]

/-- An operator with two operands, the left one being read already. A second operator in a chain
that may not be longer than one is reported. -/
def operation (least : Nat) (previous : Option Lookahead) : Production :=
  look fun v =>
    match Band.binaryLevel? v.kind least with
    | none => done
    | some level => seq [
        if Band.associativityAt level = .neither ∧
            (previous.bind fun p => Band.binaryLevel? p.kind least) = some level then
          report { Diagnostic.ofCode .chainedRelation v.index with
            found := some v.kind, hint := some "add parentheses to group the comparison" }
        else done,
        wrap .binaryExpression <| seq [
          shift,
          if Band.associativityAt level = .right then call (.operand level)
          else call (.band (level + 1))]]

/-- An operand whose operators all bind at the level `least` or tighter. -/
def band (least : Nat) : Production :=
  group <| seq [
    leftmost least,
    many (fun v => (Band.binaryLevel? v.kind least).isSome) (operation least)]

/-- An operator with one operand, which may use the operator's own level. -/
def unary (level : Nat) : Production := node .unaryExpression [shift, call (.operand level)]

/-- An operand that nests without a bracket. -/
def operand (level : Nat) : Production := deeper (call (.band level))

/-- Report that an operand is missing and leave an empty node in its place. A stray operator goes
into that node; anything else is left to the rule around. -/
def missingExpression : Production :=
  look fun v => seq [
    fault .missingExpression ("expected an expression, found " ++ v.kind.displayName ++ " " ++
      v.context.description),
    node .error [if (Band.binaryLevel? v.kind 0).isSome then shift else done]]

/-- `Literal | FunctionCall | ComponentReference | ParenthesizedExpression | ArrayConcatenation |
ArrayConstructor | EndExpression` -/
def primary : Production :=
  look fun v =>
    match v.kind with
    | .unsignedInteger => single .unsignedIntegerLiteral
    | .unsignedReal => single .unsignedRealLiteral
    | .string => single .stringLiteral
    | .trueKw | .falseKw => single .logicalLiteral
    | .derKw | .initialKw | .pureKw => node .functionCall [shift, call .callArguments]
    | .ident | .dot => group <| seq [
        call .componentReference,
        before .lParen <| wrap .functionCall (call .callArguments)]
    | .lParen => call .parenthesized
    | .lBracket => call .arrayConcatenation
    | .lBrace => call .arrayConstructor
    | .endKw => if v.endIsExpression then single .endExpression else missingExpression
    | _ => missingExpression

/-- `'(' (Expression? (',' Expression?)*)? ')'`, with empty positions as in `(a, , b) := f()`. -/
def parenthesized : Production :=
  let position := look fun v => if v.seesAny [.comma, .rParen] then done else call .expression
  node .parenthesizedExpression [
    shift,
    inContext .expression <| seq [
      look fun v => if v.sees .rParen then done else separated .comma position,
      expect .rParen]]

/-- `'[' ExpressionList (';' ExpressionList)* ']'` -/
def arrayConcatenation : Production :=
  node .arrayConcatenation [
    shift,
    inContext .expression <| seq [
      separated .semicolon (call .expressionList),
      expect .rBracket]]

/-- `'for' ForIndex (',' ForIndex)*` -/
def forIndices : Production := seq [shift, separated .comma (call .forIndex)]

/-- `IDENT ('in' Expression)?` -/
def forIndex : Production :=
  node .forIndex [expect .ident, before .inKw <| seq [shift, call .expression]]

/-- `'{' (ComprehensionClause | ExpressionList)? '}'` -/
def arrayConstructor : Production :=
  node .arrayConstructor [
    shift,
    inContext .expression <| seq [
      look fun v =>
        if v.sees .rBrace then done
        else group <| seq [
          call .expression,
          look fun w =>
            if w.sees .forKw then wrap .comprehensionClause forIndices
            else wrap .expressionList <|
              many (·.sees .comma) fun _ => seq [shift, call .expression]],
      expect .rBrace]]

/-- `Expression (',' Expression)*` -/
def expressionList : Production := node .expressionList [separated .comma (call .expression)]

/-- `'(' FunctionArguments? ')'` -/
def callArguments : Production :=
  expectThen .lParen <| inContext .argumentList <| seq [
    look fun v => if v.sees .rParen then done else call .functionArguments,
    expect .rParen]

/-- The arguments after the first named one; a positional one among them is reported. -/
def argumentsAfterNamed : Production :=
  many (·.sees .comma) fun _ => seq [
    shift,
    look fun v =>
      if v.atNamedArgument then call .namedArgument
      else seq [
        report { Diagnostic.ofCode .positionalAfterNamed v.index with
          found := v.found, hint := some "move positional arguments before the named ones" },
        call .functionArgument]]

/-- The first argument where it is no named one: with `for` after it, a comprehension. -/
def firstArgument : Production :=
  look fun v =>
    if v.sees .functionKw then call .functionArgument
    else group <| seq [
      call .expression,
      look fun w =>
        if w.sees .forKw then wrap .comprehensionClause forIndices
        else wrap .functionArgument done]

/-- `ComprehensionClause`, or positional arguments followed by named ones. -/
def functionArguments : Production :=
  node .functionArguments [look fun v =>
    if v.atNamedArgument then seq [call .namedArgument, argumentsAfterNamed]
    else seq [
      firstArgument,
      many (fun w => w.sees .comma && !(w.nth 1 == .ident && w.nth 2 == .equals))
        fun _ => seq [shift, call .functionArgument],
      argumentsAfterNamed]]

/-- `FunctionPartialApplication | Expression` -/
def functionArgument : Production :=
  node .functionArgument [look fun v =>
    if v.sees .functionKw then call .partialApplication else call .expression]

/-- `IDENT '=' FunctionArgument` -/
def namedArgument : Production :=
  node .namedArgument [expect .ident, expect .equals, call .functionArgument]

/-- `'function' TypeSpecifier '(' (NamedArgument (',' NamedArgument)*)? ')'` -/
def partialApplication : Production :=
  node .functionPartialApplication [
    shift,
    call .typeSpecifier,
    expectThen .lParen <| seq [
      look fun v => if v.sees .rParen then done else separated .comma (call .namedArgument),
      expect .rParen]]

end Modelica.Grammar
