import Modelica.Lookahead
import Modelica.Tree

/-!
# Productions

The right-hand sides of the grammar are values of a small language of reading steps. `Production`
has the steps, `Production.run` says what they do: they read significant tokens from the front of
a list, collect trees, and report diagnostics at token indices. Since every grammar rule is built
from these few steps, what each of them keeps, every rule keeps.

Rules call one another by name (`Nonterminal`). `Nonterminal.run` ties them together; its fuel
bounds how deep calls nest, and a caller passes enough of it for any input (`callBound`).
-/

namespace Modelica

/-- Equations and statements have the same blocks; a family says which of the two is read. -/
inductive Family where
  | equations | statements
  deriving DecidableEq, Inhabited

def Family.category : Family → Category
  | .equations => .equation
  | .statements => .statement

/-- The named rules of the grammar. -/
inductive Nonterminal where
  -- names and expressions
  | name | typeSpecifier | componentReference | componentReferencePart | arraySubscripts
  | subscript | expression | ifExpression | simpleExpression | band (least : Nat)
  | unary (level : Nat) | operand (level : Nat) | primary | callArguments | functionArguments
  | functionArgument | namedArgument | partialApplication | forIndex | parenthesized
  | arrayConcatenation | arrayConstructor | expressionList
  -- comments and modifications
  | descriptionString | annotationClause | comment | modification | modificationExpression
  | classModification | classOrInheritanceModification | inheritanceModification | connectClause
  | argument | elementModification | elementRedeclaration | elementReplaceable
  | redeclaredElement | componentClause1
  -- elements
  | elements | element | importClause | extendsClause | constrainingClause | namedElementClause
  | typePrefix | componentClause | componentDeclaration | declaration
  -- classes
  | storedDefinition | withinClause | classDefinitionClause | classDefinition | classPrefixes
  | longClassSpecifier | classBody | shortClassSpecifier | enumerationLiteral
  | derClassSpecifier | externalFunctionClause | externalFunctionCall
  -- equations and statements
  | equationSection | algorithmSection | sectionBody (family : Family) | body (family : Family)
  | item (family : Family) | equation | simpleEquation | specialEquation | connectEquation
  | statement | keywordStatement (kind : Kind) | referenceStatement | destructuringAssignment
  | ifBlock (family : Family) | elseIfClause (family : Family) | elseClause (family : Family)
  | whenBlock (family : Family) | elseWhenClause (family : Family) | forBlock (family : Family)
  | whileBlock
  deriving DecidableEq, Inhabited

/-- A sequence of reading steps. -/
inductive Production where
  | done
  | andThen (first second : Production)
  /-- Read one token. -/
  | shift
  /-- Collect trees apart from those that stand before. -/
  | group (body : Production)
  /-- Take more trees in, then put all trees of the group under one node. -/
  | wrap (kind : Kind) (body : Production)
  /-- Choose by what lies ahead. -/
  | look (next : Lookahead → Production)
  /-- Repeat while the test holds. An item is told where the one before it started. -/
  | many (continues : Lookahead → Bool) (item : Option Lookahead → Production)
  | call (rule : Nonterminal)
  | report (fault : Diagnostic Spot)
  | inContext (context : Context) (body : Production)
  /-- Read with one more block open. -/
  | opening (block : OpenConstruct) (body : Production)
  /-- Read one level deeper, or do something else where the bound on levels is reached. -/
  | nested (body tooDeep : Production)

/-- What holds around a production and ends with it. -/
structure Surroundings where
  context : Context
  /-- The blocks that wait for their `end`, innermost first. -/
  constructs : List OpenConstruct
  depth : Nat
  /-- The deepest level that may be entered. -/
  limit : Nat
  deriving DecidableEq, Inhabited

/-- How far reading has come. -/
structure Reading where
  /-- The significant tokens not read yet. -/
  ahead : List Token
  /-- How many tokens have been read. -/
  index : Spot
  /-- The trees of the current group, the last one first. -/
  built : List Tree
  /-- The diagnostics so far, the last one first. -/
  faults : List (Diagnostic Spot)
  deriving Inhabited

namespace Reading

def start (tokens : List Token) : Reading := ⟨tokens, 0, [], []⟩

def look (env : Surroundings) (r : Reading) : Lookahead :=
  ⟨r.ahead, r.index, env.context, env.constructs⟩

/-- Read one token; nothing happens at the end of the input. -/
def shift (r : Reading) : Reading :=
  match r.ahead with
  | [] => r
  | t :: rest => { r with ahead := rest, index := r.index + 1, built := .leaf t :: r.built }

/-- Keep a diagnostic, unless the one kept last has its place and severity: recovery often meets
the same fault twice. -/
def report (fault : Diagnostic Spot) (r : Reading) : Reading :=
  match r.faults with
  | [] => { r with faults := [fault] }
  | last :: _ =>
    if last.place = fault.place ∧ last.severity = fault.severity then r
    else { r with faults := fault :: r.faults }

/-- Put all trees of the current group under one node. -/
def wrap (kind : Kind) (r : Reading) : Reading :=
  { r with built := [.node kind r.built.reverse] }

/-- Run `read` on a group of its own, then append its trees to those that stand before. -/
def apart (read : Reading → Reading) (r : Reading) : Reading :=
  let r' := read { r with built := [] }
  { r' with built := r'.built ++ r.built }

/-- Repeat `item` while the test holds, `bound` times at most. -/
def repeatWhile (env : Surroundings) (continues : Lookahead → Bool)
    (item : Option Lookahead → Reading → Reading) : Nat → Option Lookahead → Reading → Reading
  | 0, _, r => r
  | bound + 1, before, r =>
    if continues (r.look env) then
      repeatWhile env continues item bound (some (r.look env)) (item before r)
    else r

end Reading

namespace Production

/-- What a production does, given what the rules it calls do. Each repetition reads a token, so
`bound` repetitions are enough when it is not less than the number of tokens. -/
def run (callee : Nonterminal → Surroundings → Reading → Reading) (bound : Nat) :
    Production → Surroundings → Reading → Reading
  | done, _, r => r
  | andThen p q, env, r => run callee bound q env (run callee bound p env r)
  | shift, _, r => r.shift
  | group body, env, r => r.apart (run callee bound body env)
  | wrap kind body, env, r => (run callee bound body env r).wrap kind
  | look next, env, r => run callee bound (next (r.look env)) env r
  | many continues item, env, r =>
    r.repeatWhile env continues (fun before => run callee bound (item before) env) bound none
  | call rule, env, r => callee rule env r
  | report fault, _, r => r.report fault
  | inContext context body, env, r => run callee bound body { env with context } r
  | opening block body, env, r =>
    run callee bound body { env with constructs := block :: env.constructs } r
  | nested body tooDeep, env, r =>
    let deeper := { env with depth := env.depth + 1 }
    if deeper.depth ≤ env.limit then run callee bound body deeper r
    else run callee bound tooDeep deeper r

def seq : List Production → Production
  | [] => done
  | [p] => p
  | p :: ps => andThen p (seq ps)

/-- A node of its own. -/
def node (kind : Kind) (steps : List Production) : Production := group (wrap kind (seq steps))

/-- Read so many tokens. -/
def shifts : Nat → Production
  | 0 => done
  | n + 1 => andThen shift (shifts n)

/-- Read a token of one kind if it comes next. -/
def accept (k : Kind) : Production := look fun v => if v.sees k then shift else done

/-- Read a token of one of several kinds if one comes next. -/
def acceptAny (ks : List Kind) : Production := look fun v => if v.seesAny ks then shift else done

/-- Run a production only before a token of one kind. -/
def before (k : Kind) (p : Production) : Production := look fun v => if v.sees k then p else done

/-- Report an error at the next token. -/
def fault (code : Code) (message : String) : Production :=
  look fun v => report { Diagnostic.ofCode code v.index with message, found := v.found }

/-- Report that one of some kinds should have come next. -/
def missing (code : Code) (expected : List Kind) : Production :=
  look fun v => report
    { Diagnostic.ofCode code v.index with
      message := Diagnostic.expectedMessage expected v.found v.context, expected,
      found := v.found }

/-- The code for a token of this kind that is missing. -/
def missingCode : Kind → Code
  | .semicolon => .missingSemicolon
  | .rBrace => .unclosedBrace
  | .rParen => .unclosedParen
  | .rBracket => .unclosedBracket
  | .endKw => .missingEnd
  | .ident => .missingIdentifier
  | _ => .expectedToken

/-- Read a token of one kind and then `next`; report it when it is missing. -/
def expectThen (k : Kind) (next : Production) : Production :=
  look fun v => if v.sees k then andThen shift next else missing (missingCode k) [k]

/-- Read a token of one kind or report that it is missing. -/
def expect (k : Kind) : Production :=
  look fun v => if v.sees k then shift else missing (missingCode k) [k]

/-- One item or more, with a token between them. -/
def separated (separator : Kind) (item : Production) : Production :=
  andThen item (many (·.sees separator) fun _ => andThen shift item)

/-- Report an error, then put tokens up to one of the recovery set under an `error` node. Reads at
least one token unless the input has ended. -/
def skipUntil (code : Code) (message : String) (recovery : List Kind) : Production :=
  andThen (fault code message) <| look fun v =>
    if v.atEnd then done
    else node .error [shift, many (fun v => !v.atEnd && !v.seesAny recovery) fun _ => shift]

/-- Report an error and skip through the next `;`, stopping early at a section boundary. Reads at
least one token unless the input has ended. -/
def skipThroughSemicolon (code : Code) (message : String) : Production :=
  andThen (fault code message) <| look fun start =>
    if start.atEnd then done
    else node .error [
      many (fun v => !v.atEnd && !v.sees .semicolon &&
        !(v.index != start.index && v.atSectionBoundary)) fun _ => shift,
      accept .semicolon]

/-- Skip what is nested beyond the bound, up to the bracket that closes it. -/
def skipNested : Production :=
  andThen (fault .nestedTooDeep Code.nestedTooDeep.defaultMessage) <| look fun v =>
    node .error [shifts (Token.nestedExtent 0 v.ahead)]

/-- Read one level deeper; what is nested beyond the bound is skipped. -/
def deeper (body : Production) : Production := nested body skipNested

/-- Repeat an item until `stop` holds or the input ends. Where an item reads nothing, all tokens
that are left become an error, so the repetition ends. -/
def repeatUntil (stop : Lookahead → Bool) (item : Production) : Production :=
  many (fun v => !v.atEnd && !stop v) fun _ => look fun start =>
    andThen item <| look fun v =>
      if v.index = start.index ∧ !v.atEnd then
        skipUntil .unexpectedToken
          ("unexpected " ++ v.kind.displayName ++ " " ++ v.context.description) []
      else done

end Production

end Modelica
