import Modelica.Proofs.Building
import Modelica.Proofs.Run
import Modelica.Proofs.Starts

/-!
# What a production does, given what the rules do

What is known of a production while nothing is known of the rules yet, except for what they are
claimed to do.

* `Nonterminal.Expects`, `Nonterminal.Leaves`: what a caller knows before and after a rule;
* `Nonterminal.Stops`: what must hold of the tokens after a rule;
* `Production.Does`: what a production does, given what the rules do.
-/

namespace Modelica

open Token (headKind nextKind)

@[simp] theorem Token.headKind_append (ts rest : List Token) :
    headKind (ts ++ rest) = nextKind ts (headKind rest) := by
  cases ts <;> rfl

@[simp] theorem Token.nextKind_cons (t : Token) (ts : List Token) (k : Kind) :
    nextKind (t :: ts) k = t.kind := rfl

@[simp] theorem Token.nextKind_append (ts vs : List Token) (k : Kind) :
    nextKind (ts ++ vs) k = nextKind ts (nextKind vs k) := by
  cases ts <;> rfl

@[simp] theorem Token.nextKind_nil (k : Kind) : nextKind [] k = k := rfl

@[simp] theorem Reading.wrap_ahead (k : Kind) (r : Reading) : (r.wrap k).ahead = r.ahead := rfl

@[simp] theorem Reading.wrap_built (k : Kind) (r : Reading) :
    (r.wrap k).built = [.node k r.built.reverse] := rfl

theorem Reading.sees_look {env : Surroundings} {r : Reading} {k : Kind} :
    (r.look env).sees k = true ↔ headKind r.ahead = k :=
  beq_iff_eq

/-- A condition on the tokens after a production. -/
inductive Stop where
  /-- The next kind is a good one. -/
  | kind (good : Kind → Bool)
  /-- A test of what comes next, given the blocks that are open. -/
  | test (holds : List OpenConstruct → List Token → Prop)

namespace Stop

def Holds : Stop → List OpenConstruct → List Token → Prop
  | kind good, _, rest => good (headKind rest) = true
  | test holds, constructs, rest => holds constructs rest

/-- Anything may come. -/
def any : Stop := kind fun _ => true

/-- None of these kinds comes next. -/
def except (ks : List Kind) : Stop := kind fun k => !ks.contains k

/-- One of these kinds comes next. -/
def only (ks : List Kind) : Stop := kind ks.contains

/-- A list of elements or a section ends here. -/
def sectionEnd : Stop := test fun constructs rest =>
  (Lookahead.mk rest 0 .topLevel constructs).atSectionBoundary = true ∧
    (Lookahead.mk rest 0 .topLevel constructs).atBlockEnd = false

/-- The body of a block ends here. -/
def bodyEnd (family : Family) : Stop := test fun constructs rest =>
  (Lookahead.mk rest 0 .topLevel constructs).bodyEnds family.category = true

end Stop

namespace Kind

/-- What goes on with a primary expression. -/
def afterPrimary : List Kind := [.dot, .lParen, .lBracket]

/-- What goes on with an expression. -/
def afterExpression : List Kind := .colon :: operators ++ afterPrimary

/-- Nothing that goes on with an operand of a band. -/
def endsBand (least : Nat) (k : Kind) : Bool :=
  (Band.binaryLevel? k least).isNone && !afterPrimary.contains k

end Kind

namespace Nonterminal

/-- What a rule needs to see where it starts. -/
def Expects : Nonterminal → List Token → Prop
  | unary least, ts => Band.unaryLevel? (headKind ts) = some least
  | elementModification, ts => (Lookahead.mk ts 0 .topLevel []).argumentHead = .ident
  | rule, ts => rule.Ready ⟨ts, 0, .topLevel, []⟩

/-- What is known of the tokens after a rule. -/
def Leaves : Nonterminal → List Token → Prop
  | name, rest => Token.continuesChain rest = false
  | band least, rest | unary least, rest | operand least, rest =>
    Band.binaryLevel? (headKind rest) least = none
  | _, _ => True

/-- The rules that primary expressions are made of. -/
def inner : Nonterminal → Bool
  | name | typeSpecifier | componentReference | componentReferencePart | arraySubscripts
  | subscript | expression | ifExpression | simpleExpression | band _ | unary _ | operand _
  | primary | callArguments | functionArguments | functionArgument | namedArgument
  | partialApplication | forIndex | parenthesized | arrayConcatenation | arrayConstructor
  | expressionList => true
  | _ => false

/-- What must hold of the tokens after a rule, so that it reads none of them. -/
def Stops : Nonterminal → Stop
  | name => .test fun _ rest => Token.continuesChain rest = false
  | typeSpecifier => .except [.dot]
  | componentReference => .except [.dot, .lBracket]
  | componentReferencePart => .except [.lBracket]
  | subscript => .only [.comma, .rBracket]
  | expression | ifExpression | modificationExpression | functionArgument | namedArgument =>
    .except Kind.afterExpression
  | simpleExpression => Stop.kind (Kind.endsBand 0)
  | band least | unary least | operand least => Stop.kind (Kind.endsBand least)
  | primary => .except Kind.afterPrimary
  | functionArguments => .only [.rParen]
  | forIndex => .except (.inKw :: Kind.afterExpression)
  | expressionList => .except (.comma :: Kind.afterExpression)
  | descriptionString => .except [.plus]
  | comment => .except [.string, .plus, .annotationKw]
  | modification => .except (.equals :: Kind.afterExpression)
  | argument | elementModification | elementRedeclaration | elementReplaceable
  | redeclaredElement | enumerationLiteral => .only [.comma, .rParen]
  | componentClause1 => .only [.comma, .rParen, .constrainedbyKw]
  | constrainingClause => .except [.dot, .lParen]
  | typePrefix => .only [.dot, .ident]
  | componentClause | classDefinition | derClassSpecifier => .only [.semicolon, .constrainedbyKw]
  | componentDeclaration => .only [.comma, .semicolon, .constrainedbyKw]
  | declaration => .except ([.equals, .assign] ++ Kind.afterExpression)
  | shortClassSpecifier => .only [.comma, .rParen, .semicolon, .constrainedbyKw]
  | storedDefinition => .only [.endOfInput]
  | classPrefixes => .only [.ident, .extendsKw]
  | elements | sectionBody _ | equationSection | algorithmSection => .sectionEnd
  | classBody => .test fun constructs rest => Stop.sectionEnd.Holds constructs rest ∧
      headKind rest ∈ [.externalKw, .annotationKw, .endKw]
  | body family | elseIfClause family | elseClause family | elseWhenClause family => .bodyEnd family
  | _ => .any

end Nonterminal

/-- What an interpretation of the rules says of a call. -/
abbrev CallClaim : Type := Nonterminal → Surroundings → Reading → Reading → Prop

/-- Turns of a repetition, up to where its test fails. -/
inductive Turned (env : Surroundings) (continues : Lookahead → Bool)
    (item : Option Lookahead → Reading → Reading → Prop) :
    Option Lookahead → Reading → Reading → Prop
  | stop {before r} : continues (r.look env) = false → Turned env continues item before r r
  | turn {before r m r'} : continues (r.look env) = true → item before r m →
      Turned env continues item (some (r.look env)) m r' → Turned env continues item before r r'

/-- What a production does without errors. -/
def Production.Does (claim : CallClaim) : Production → Surroundings → Reading → Reading → Prop
  | done, _, r, r' => r' = r
  | andThen p q, env, r, r' => ∃ m, p.Does claim env r m ∧ q.Does claim env m r'
  | shift, _, r, r' => r' = r.shift
  | group p, env, r, r' => ∃ m, p.Does claim env { r with built := [] } m ∧
      r' = { m with built := m.built ++ r.built }
  | wrap k p, env, r, r' => ∃ m, p.Does claim env r m ∧ r' = m.wrap k
  | look next, env, r, r' => (next (r.look env)).Does claim env r r'
  | many continues item, env, r, r' =>
    Turned env continues (fun before => (item before).Does claim env) none r r'
  | call rule, env, r, r' => claim rule env r r'
  | report fault, _, r, r' => fault.isError = false ∧ r' = r.report fault
  | inContext context p, env, r, r' => p.Does claim { env with context } r r'
  | opening block p, env, r, r' =>
    p.Does claim { env with constructs := block :: env.constructs } r r'
  | nested p q, env, r, r' =>
    env.depth + 1 ≤ env.limit ∧ p.Does claim { env with depth := env.depth + 1 } r r' ∨
      ¬ env.depth + 1 ≤ env.limit ∧ q.Does claim { env with depth := env.depth + 1 } r r'

/-- What there is to do, given what the rules do. -/
def Task.Does (claim : CallClaim) : Task → Surroundings → Reading → Reading → Prop
  | of p, env, r, r' => p.Does claim env r r'
  | rest continues item before, env, r, r' =>
    Turned env continues (fun before => (item before).Does claim env) before r r'

/-- What every rule keeps from the rules it calls, all runs keep. -/
theorem Runs.does {claim : CallClaim} (hc : ∀ {rule : Nonterminal} {env r r'},
      rule.production.Does claim env r r' → claim rule env r r')
    {task : Task} {env : Surroundings} {r r' : Reading} (h : Runs noError task env r r') :
    task.Does claim env r r' := by
  induction h with
  | done | shift => exact rfl
  | andThen _ _ ihp ihq => exact ⟨_, ihp, ihq⟩
  | group _ ih | wrap _ ih => exact ⟨_, ih, rfl⟩
  | look _ ih | many _ ih | inContext _ ih | opening _ ih => exact ih
  | stop ht => exact .stop ht
  | turn ht _ _ ihi ihr => exact .turn ht ihi ihr
  | call _ ih => exact hc ih
  | report hf => exact ⟨hf, rfl⟩
  | within hd _ ih => exact .inl ⟨hd, ih⟩
  | beyond hd _ ih => exact .inr ⟨hd, ih⟩

section

variable {env : Surroundings} {continues : Lookahead → Bool}
variable {item : Option Lookahead → Reading → Reading → Prop} {before : Option Lookahead}
variable {r r' : Reading}

theorem Turned.test_eq_false (h : Turned env continues item before r r') :
    continues (r'.look env) = false := by
  induction h with
  | stop ht => exact ht
  | turn _ _ _ ih => exact ih

theorem Turned.eq_of_test (h : Turned env continues item before r r')
    (ht : continues (r.look env) = false) : r' = r := by
  cases h with
  | stop _ => rfl
  | turn ht' _ _ => cases ht.symm.trans ht'

end

namespace Production

variable {claim : CallClaim} {p : Production} {ps : List Production} {env : Surroundings}
variable {r r' : Reading}

theorem not_does_of_fails (h : p.Fails (r.look env)) : ¬ p.Does claim env r r' := by
  induction p generalizing r r' with
  | report fault => exact fun hd => by cases h.symm.trans hd.1
  | andThen p q ihp _ => exact fun ⟨_, hp, _⟩ => ihp h hp
  | look next ih => exact fun hd => ih _ h hd
  | _ => exact h.elim

theorem does_node {k : Kind} : (node k ps).Does claim env r r' ↔
    ∃ m, (seq ps).Does claim env { r with built := [] } m ∧
      r' = { m with built := .node k m.built.reverse :: r.built } := by
  constructor
  · rintro ⟨_, ⟨m, hm, rfl⟩, rfl⟩
    exact ⟨m, hm, rfl⟩
  · rintro ⟨m, hm, rfl⟩
    exact ⟨m.wrap k, ⟨m, hm, rfl⟩, rfl⟩

end Production

end Modelica
