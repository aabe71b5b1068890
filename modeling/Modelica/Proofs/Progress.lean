import Modelica.Proofs.Run

/-!
# Progress

Which productions are certain to read a token, and which rules a production may call before it has
read one. Both are read off the production at the place `v` where it starts.

* `Production.MayStall`: the production may end where it started;
* `Production.Heads`: what it calls before it reads a token has a rank below a limit;
* `Production.Tame`: each turn of its repetitions reads a token;
* `Production.Reports`: the codes of its reports are allowed.

`Nonterminal.reads` and `Nonterminal.rank` are the tables for the rules. That the grammar keeps to
them is shown in `Proofs.Orderly`.
-/

namespace Modelica

namespace Nonterminal

/-- The rule is certain to read a token here. -/
def reads : Nonterminal → Lookahead → Bool
  | classPrefixes, v => v.seesAny Kind.classPrefixStart
  | classDefinition, v => v.atClassDefinition
  | classDefinitionClause, v => v.sees .finalKw || v.atClassDefinition
  | equationSection, v => v.sees .initialKw || v.sees .equationKw
  | algorithmSection, v => v.sees .initialKw || v.sees .algorithmKw
  | elseIfClause _, v | elseWhenClause _, v => !v.ahead.isEmpty
  | _, _ => false

/-- The rule starts by reading a token, whatever it is. -/
def shiftsFirst : Nonterminal → Bool
  | arraySubscripts | ifExpression | unary _ | parenthesized | arrayConcatenation
  | arrayConstructor | partialApplication | classModification | classOrInheritanceModification
  | inheritanceModification | connectClause | elementRedeclaration | importClause | extendsClause
  | constrainingClause | withinClause | derClassSpecifier | externalFunctionClause
  | keywordStatement _ | ifBlock _ | elseIfClause _ | elseClause _ | whenBlock _
  | elseWhenClause _ | forBlock _ | whileBlock => true
  | _ => false

/-- How deep the calls of a rule may nest before a token is read. -/
def height : Nonterminal → Nat
  | name | descriptionString | typePrefix | forIndex | classPrefixes | componentReferencePart
  | callArguments | annotationClause | connectClause | inheritanceModification => 1
  | typeSpecifier | componentReference | comment | withinClause => 2
  | primary | partialApplication | shortClassSpecifier | constrainingClause | extendsClause
  | importClause | derClassSpecifier | externalFunctionCall | enumerationLiteral
  | connectEquation | specialEquation | referenceStatement | keywordStatement _ => 3
  | band _ | externalFunctionClause => 4
  | operand _ | simpleExpression => 5
  | expression | unary _ | simpleEquation => 6
  | ifExpression | subscript | functionArgument | parenthesized | expressionList
  | arrayConstructor | modificationExpression | equation => 7
  | arraySubscripts | namedArgument | arrayConcatenation | modification
  | destructuringAssignment => 8
  | functionArguments | elementModification | declaration | statement => 9
  | componentClause1 | componentDeclaration | item _ => 10
  | redeclaredElement | componentClause | body _ | sectionBody _ => 11
  | elementReplaceable | elementRedeclaration | namedElementClause | equationSection
  | algorithmSection | ifBlock _ | elseIfClause _ | elseClause _ | whenBlock _
  | elseWhenClause _ | forBlock _ | whileBlock => 12
  | argument | element => 13
  | classModification | classOrInheritanceModification | elements => 14
  | classBody => 15
  | longClassSpecifier => 16
  | classDefinition => 17
  | classDefinitionClause => 18
  | storedDefinition => 19

/-- The rank of a rule here. A rule that is certain to read a token first ranks low. -/
def rank (rule : Nonterminal) (v : Lookahead) : Nat :=
  if rule.shiftsFirst && !v.ahead.isEmpty then 0
  else if rule = classDefinition ∧ v.atClassDefinition then 2
  else rule.height

theorem rank_lt (rule : Nonterminal) (v : Lookahead) : rule.rank v < 20 := by
  unfold rank
  split
  · omega
  · split
    · omega
    · cases rule <;> simp [height]

end Nonterminal

/-! ## Reading off a production -/

namespace Production

/-- The production may end at `v` with nothing read. -/
@[simp] def MayStall : Production → Lookahead → Prop
  | done, _ | report _, _ => True
  | andThen p q, v => MayStall p v ∧ MayStall q v
  | shift, v => v.ahead = []
  | group p, v | wrap _ p, v => MayStall p v
  | look next, v => MayStall (next v) v
  | many continues _, v => continues v = false
  | call rule, v => rule.reads v = false
  | inContext context p, v => MayStall p { v with context }
  | opening block p, v => MayStall p { v with constructs := block :: v.constructs }
  | nested p q, v => MayStall p v ∨ MayStall q v

/-- Every rule called at `v`, before anything is read, has a rank below the limit. -/
@[simp] def Heads (limit : Nat) : Production → Lookahead → Prop
  | done, _ | report _, _ | shift, _ => True
  | andThen p q, v => Heads limit p v ∧ (MayStall p v → Heads limit q v)
  | group p, v | wrap _ p, v => Heads limit p v
  | look next, v => Heads limit (next v) v
  | many continues item, v => continues v = true → Heads limit (item none) v
  | call rule, v => rule.rank v < limit
  | inContext context p, v => Heads limit p { v with context }
  | opening block p, v => Heads limit p { v with constructs := block :: v.constructs }
  | nested p q, v => Heads limit p v ∧ Heads limit q v

/-- Every turn of a repetition reads a token. -/
@[simp] def Tame : Production → Prop
  | done | report _ | shift | call _ => True
  | andThen p q | nested p q => Tame p ∧ Tame q
  | group p | wrap _ p | inContext _ p | opening _ p => Tame p
  | look next => ∀ v, Tame (next v)
  | many continues item =>
    ∀ before, Tame (item before) ∧ ∀ v, continues v = true → ¬ MayStall (item before) v

/-- Every report, wherever it is made, has an allowed code. Calls answer for themselves. -/
@[simp] def Reports (allowed : Code → Prop) : Production → Prop
  | done | shift | call _ => True
  | report fault => allowed fault.code
  | andThen p q | nested p q => Reports allowed p ∧ Reports allowed q
  | group p | wrap _ p | inContext _ p | opening _ p => Reports allowed p
  | look next => ∀ v, Reports allowed (next v)
  | many _ item => ∀ before, Reports allowed (item before)

end Production

/-- A code for what the grammar finds, not for a bad token. -/
@[simp] def Code.Grammatical : Code → Prop
  | .invalidCharacter | .unterminatedString | .unterminatedComment | .misplacedMark
  | .unterminatedName => False
  | _ => True

theorem Code.grammatical_iff (c : Code) : c.Grammatical ↔ c.isLexical = false := by
  cases c <;> simp [isLexical, area]

/-- A rule keeps to the tables, and leaves the lexical codes to the bad tokens. -/
structure Nonterminal.Orderly (rule : Nonterminal) : Prop where
  tame : rule.production.Tame
  heads : ∀ v, rule.production.Heads (rule.rank v) v
  reads : ∀ v, rule.reads v = true → ¬ rule.production.MayStall v
  reports : rule.production.Reports Code.Grammatical

/-! ## Steps built from the others -/

namespace Lookahead

variable {v : Lookahead} {k : Kind}

theorem ahead_ne_nil_of_sees (h : v.sees k = true) (hk : k ≠ .endOfInput) : v.ahead ≠ [] := by
  intro hn
  simp only [sees, kind, hn, Token.headKind, beq_iff_eq] at h
  exact hk h.symm

theorem ahead_ne_nil_of_not_atEnd (h : v.atEnd = false) : v.ahead ≠ [] := by
  intro hn
  simp [atEnd, sees, kind, hn, Token.headKind] at h

theorem importKind_cases (v : Lookahead) : v.importKind = .simpleImportClause ∨
    v.importKind = .compoundImportClause ∨ v.importKind = .unqualifiedImportClause := by
  unfold importKind
  split
  · exact .inl rfl
  · simp only
    split <;> simp

/-- A place where a token of some kind comes next. -/
def seeing (k : Kind) : Lookahead := ⟨[⟨k, ""⟩], 0, .topLevel, []⟩

theorem sees_seeing (k : Kind) : (seeing k).sees k = true := by
  simp [seeing, sees, kind, Token.headKind]

theorem exists_not_sees (k : Kind) : ∃ v : Lookahead, v.sees k = false := by
  by_cases hk : k = .ident
  · exact ⟨seeing .comma, hk ▸ rfl⟩
  · exact ⟨seeing .ident, by simpa [seeing, sees, kind, Token.headKind] using fun h => hk h.symm⟩

end Lookahead

namespace Production

open Lookahead (ahead_ne_nil_of_sees ahead_ne_nil_of_not_atEnd sees_seeing exists_not_sees)

variable {v : Lookahead} {limit : Nat} {p q : Production} {ps : List Production} {k : Kind}

@[simp] theorem mayStall_ite {c : Prop} [Decidable c] :
    (if c then p else q).MayStall v ↔ (c ∧ p.MayStall v) ∨ (¬ c ∧ q.MayStall v) := by
  split <;> simp [*]

@[simp] theorem heads_ite {c : Prop} [Decidable c] :
    (if c then p else q).Heads limit v ↔ (c → p.Heads limit v) ∧ (¬ c → q.Heads limit v) := by
  split <;> simp [*]

@[simp] theorem tame_ite {c : Prop} [Decidable c] :
    (if c then p else q).Tame ↔ (c → p.Tame) ∧ (¬ c → q.Tame) := by
  split <;> simp [*]

@[simp] theorem mayStall_seq_nil : (seq []).MayStall v := True.intro

@[simp] theorem mayStall_seq_cons :
    (seq (p :: ps)).MayStall v ↔ p.MayStall v ∧ (seq ps).MayStall v := by
  cases ps <;> simp [seq]

@[simp] theorem heads_seq_nil : (seq []).Heads limit v := True.intro

@[simp] theorem heads_seq_cons : (seq (p :: ps)).Heads limit v ↔
    p.Heads limit v ∧ (p.MayStall v → (seq ps).Heads limit v) := by
  cases ps <;> simp [seq]

@[simp] theorem tame_seq_nil : (seq []).Tame := True.intro

@[simp] theorem tame_seq_cons : (seq (p :: ps)).Tame ↔ p.Tame ∧ (seq ps).Tame := by
  cases ps <;> simp [seq]

@[simp] theorem mayStall_node : (node k ps).MayStall v ↔ (seq ps).MayStall v := Iff.rfl

@[simp] theorem heads_node : (node k ps).Heads limit v ↔ (seq ps).Heads limit v := Iff.rfl

@[simp] theorem tame_node : (node k ps).Tame ↔ (seq ps).Tame := Iff.rfl

@[simp] theorem mayStall_shifts (n : Nat) : (shifts n).MayStall v ↔ n = 0 ∨ v.ahead = [] := by
  induction n with
  | zero => simp [shifts]
  | succ n ih => simp only [shifts, MayStall, ih]; grind

@[simp] theorem heads_shifts (n : Nat) : (shifts n).Heads limit v := by
  induction n with
  | zero => exact True.intro
  | succ n ih => exact ⟨True.intro, fun _ => ih⟩

@[simp] theorem tame_shifts (n : Nat) : (shifts n).Tame := by
  induction n with
  | zero => exact True.intro
  | succ n ih => exact ⟨True.intro, ih⟩

@[simp] theorem mayStall_accept :
    (accept k).MayStall v ↔ (v.sees k = true → v.ahead = []) := by
  simp only [accept, MayStall, mayStall_ite]
  grind

@[simp] theorem heads_accept : (accept k).Heads limit v := by
  simp [accept]

@[simp] theorem tame_accept : (accept k).Tame := by simp [accept]

@[simp] theorem heads_acceptAny {ks : List Kind} : (acceptAny ks).Heads limit v := by
  simp [acceptAny]

@[simp] theorem tame_acceptAny {ks : List Kind} : (acceptAny ks).Tame := by simp [acceptAny]

@[simp] theorem mayStall_before :
    (before k p).MayStall v ↔ (v.sees k = true → p.MayStall v) := by
  simp only [before, MayStall, mayStall_ite]
  grind

@[simp] theorem heads_before :
    (before k p).Heads limit v ↔ (v.sees k = true → p.Heads limit v) := by
  simp [before]

@[simp] theorem tame_before : (before k p).Tame ↔ p.Tame := by
  simp only [before, Tame, tame_ite, implies_true, and_true]
  exact ⟨fun h => h (.seeing k) (sees_seeing k), fun h _ _ => h⟩

@[simp] theorem mayStall_fault {code : Code} {message : String} :
    (fault code message).MayStall v := True.intro

@[simp] theorem heads_fault {code : Code} {message : String} :
    (fault code message).Heads limit v := True.intro

@[simp] theorem tame_fault {code : Code} {message : String} : (fault code message).Tame :=
  fun _ => True.intro

@[simp] theorem mayStall_missing {code : Code} {ks : List Kind} :
    (missing code ks).MayStall v := True.intro

@[simp] theorem heads_missing {code : Code} {ks : List Kind} :
    (missing code ks).Heads limit v := True.intro

@[simp] theorem tame_missing {code : Code} {ks : List Kind} : (missing code ks).Tame :=
  fun _ => True.intro

@[simp] theorem mayStall_expectThen : (expectThen k p).MayStall v ↔
    (v.sees k = true → v.ahead = [] ∧ p.MayStall v) := by
  simp only [expectThen, MayStall, mayStall_ite, mayStall_missing]
  grind

@[simp] theorem heads_expectThen : (expectThen k p).Heads limit v ↔
    (v.sees k = true → v.ahead = [] → p.Heads limit v) := by
  simp [expectThen]

@[simp] theorem tame_expectThen : (expectThen k p).Tame ↔ p.Tame := by
  simp only [expectThen, Tame, tame_ite, tame_missing, implies_true, and_true, true_and]
  exact ⟨fun h => h (.seeing k) (sees_seeing k), fun h _ _ => h⟩

@[simp] theorem mayStall_expect :
    (expect k).MayStall v ↔ (v.sees k = true → v.ahead = []) := by
  simp only [expect, MayStall, mayStall_ite, mayStall_missing]
  grind

@[simp] theorem heads_expect : (expect k).Heads limit v := by simp [expect]

@[simp] theorem tame_expect : (expect k).Tame := by simp [expect]

@[simp] theorem mayStall_separated :
    (separated k p).MayStall v ↔ p.MayStall v ∧ v.sees k = false := Iff.rfl

@[simp] theorem heads_separated (hk : k ≠ .endOfInput) :
    (separated k p).Heads limit v ↔ p.Heads limit v := by
  simp only [separated, Heads, MayStall, and_iff_left_iff_imp]
  exact fun _ _ hs => ⟨True.intro, fun hn => absurd hn (ahead_ne_nil_of_sees hs hk)⟩

@[simp] theorem tame_separated (hk : k ≠ .endOfInput) : (separated k p).Tame ↔ p.Tame :=
  ⟨fun h => h.1, fun h => ⟨h, fun _ => ⟨⟨True.intro, h⟩,
    fun _ hs hm => ahead_ne_nil_of_sees hs hk hm.1⟩⟩⟩

/-- Skipping reads a token unless the input has ended. -/
theorem mayStall_skipUntil {code : Code} {message : String} {ks : List Kind} :
    (skipUntil code message ks).MayStall v → v.atEnd = true := by
  intro h
  cases he : v.atEnd with
  | true => rfl
  | false =>
    simp only [skipUntil, MayStall, mayStall_ite, he] at h
    simp only [Bool.false_eq_true, false_and, not_false_eq_true, mayStall_node, mayStall_seq_cons,
      true_and, false_or] at h
    exact absurd h.2.1 (ahead_ne_nil_of_not_atEnd he)

@[simp] theorem heads_skipUntil {code : Code} {message : String} {ks : List Kind} :
    (skipUntil code message ks).Heads limit v := by
  simp [skipUntil]

@[simp] theorem tame_skipUntil {code : Code} {message : String} {ks : List Kind} :
    (skipUntil code message ks).Tame := by
  simp only [skipUntil, Tame, tame_ite, tame_node, tame_seq_cons, tame_seq_nil, tame_fault]
  refine ⟨True.intro, fun _ =>
    ⟨fun _ => True.intro, fun _ => ⟨True.intro, fun _ => ?_, True.intro⟩⟩⟩
  refine ⟨True.intro, fun v hv => ahead_ne_nil_of_not_atEnd ?_⟩
  simp only [Bool.and_eq_true, Bool.not_eq_true'] at hv
  exact hv.1

@[simp] theorem heads_skipThroughSemicolon {code : Code} {message : String} :
    (skipThroughSemicolon code message).Heads limit v := by
  simp [skipThroughSemicolon]

@[simp] theorem tame_skipThroughSemicolon {code : Code} {message : String} :
    (skipThroughSemicolon code message).Tame := by
  simp only [skipThroughSemicolon, Tame, tame_ite, tame_node, tame_seq_cons, tame_seq_nil,
    tame_fault, tame_accept]
  refine ⟨True.intro, fun _ =>
    ⟨fun _ => True.intro, fun _ => ⟨fun _ => ?_, True.intro, True.intro⟩⟩⟩
  refine ⟨True.intro, fun v hv => ahead_ne_nil_of_not_atEnd ?_⟩
  simp only [Bool.and_eq_true, Bool.not_eq_true'] at hv
  exact hv.1.1

@[simp] theorem heads_skipNested : skipNested.Heads limit v := by simp [skipNested]

@[simp] theorem tame_skipNested : skipNested.Tame := by simp [skipNested]

@[simp] theorem mayStall_skipNested :
    skipNested.MayStall v ↔ Token.nestedExtent 0 v.ahead = 0 ∨ v.ahead = [] := by
  simp [skipNested]

@[simp] theorem mayStall_deeper :
    (deeper p).MayStall v ↔ p.MayStall v ∨ skipNested.MayStall v := Iff.rfl

@[simp] theorem heads_deeper : (deeper p).Heads limit v ↔ p.Heads limit v := by
  simp [deeper]

@[simp] theorem tame_deeper : (deeper p).Tame ↔ p.Tame := by simp [deeper]

/-- Where an item reads nothing the rest of the input is skipped, so every turn reads. -/
@[simp] theorem tame_repeatUntil {stop : Lookahead → Bool} :
    (repeatUntil stop p).Tame ↔ p.Tame := by
  refine ⟨fun h => ((h none).1 default).1, fun h _ => ?_⟩
  refine ⟨fun _ => ⟨h, fun v => by simp⟩, fun v hv hm => ?_⟩
  have he : v.atEnd = false := by
    simp only [Bool.and_eq_true, Bool.not_eq_true'] at hv
    exact hv.1
  simp only [MayStall, he, Bool.not_false, and_self, ↓reduceIte] at hm
  rw [mayStall_skipUntil hm.2] at he
  cases he

theorem heads_repeatUntil {stop : Lookahead → Bool}
    (h : v.atEnd = false → stop v = false → p.Heads limit v) :
    (repeatUntil stop p).Heads limit v := by
  intro hv
  simp only [Bool.and_eq_true, Bool.not_eq_true'] at hv
  exact ⟨h hv.1 hv.2, fun _ => by simp⟩

/-! ## What is reported -/

section

variable {allowed : Code → Prop} {code : Code} {message : String}

@[simp] theorem reports_ite {c : Prop} [Decidable c] :
    (if c then p else q).Reports allowed ↔ (c → p.Reports allowed) ∧ (¬ c → q.Reports allowed) := by
  split <;> simp [*]

@[simp] theorem reports_seq_nil : (seq []).Reports allowed := True.intro

@[simp] theorem reports_seq_cons :
    (seq (p :: ps)).Reports allowed ↔ p.Reports allowed ∧ (seq ps).Reports allowed := by
  cases ps <;> simp [seq]

@[simp] theorem reports_node : (node k ps).Reports allowed ↔ (seq ps).Reports allowed := Iff.rfl

@[simp] theorem reports_shifts (n : Nat) : (shifts n).Reports allowed := by
  induction n with
  | zero => exact True.intro
  | succ n ih => exact ⟨True.intro, ih⟩

@[simp] theorem reports_accept : (accept k).Reports allowed := by simp [accept]

@[simp] theorem reports_acceptAny {ks : List Kind} : (acceptAny ks).Reports allowed := by
  simp [acceptAny]

@[simp] theorem reports_before : (before k p).Reports allowed ↔ p.Reports allowed := by
  simp only [before, Reports, reports_ite, implies_true, and_true]
  exact ⟨fun h => h (.seeing k) (sees_seeing k), fun h _ _ => h⟩

@[simp] theorem reports_fault : (fault code message).Reports allowed ↔ allowed code :=
  ⟨fun h => h default, fun h _ => h⟩

@[simp] theorem reports_missing {ks : List Kind} :
    (missing code ks).Reports allowed ↔ allowed code :=
  ⟨fun h => h default, fun h _ => h⟩

@[simp] theorem reports_expectThen :
    (expectThen k p).Reports allowed ↔ p.Reports allowed ∧ allowed (missingCode k) := by
  simp only [expectThen, Reports, reports_ite, reports_missing, true_and]
  obtain ⟨v, hv⟩ := exists_not_sees k
  exact ⟨fun h => ⟨(h (.seeing k)).1 (sees_seeing k), (h v).2 (by simp [hv])⟩,
    fun h _ => ⟨fun _ => h.1, fun _ => h.2⟩⟩

@[simp] theorem reports_expect : (expect k).Reports allowed ↔ allowed (missingCode k) := by
  simp only [expect, Reports, reports_ite, reports_missing, implies_true, true_and]
  obtain ⟨v, hv⟩ := exists_not_sees k
  exact ⟨fun h => h v (by simp [hv]), fun h _ _ => h⟩

@[simp] theorem reports_separated : (separated k p).Reports allowed ↔ p.Reports allowed := by
  simp [separated]

@[simp] theorem reports_skipUntil {ks : List Kind} :
    (skipUntil code message ks).Reports allowed ↔ allowed code := by
  simp [skipUntil]

@[simp] theorem reports_skipThroughSemicolon :
    (skipThroughSemicolon code message).Reports allowed ↔ allowed code := by
  simp [skipThroughSemicolon]

@[simp] theorem reports_deeper :
    (deeper p).Reports allowed ↔ p.Reports allowed ∧ allowed .nestedTooDeep := by
  simp [deeper, skipNested]

@[simp] theorem reports_repeatUntil {stop : Lookahead → Bool} :
    (repeatUntil stop p).Reports allowed ↔ p.Reports allowed ∧ allowed .unexpectedToken := by
  simp only [repeatUntil, Reports, reports_ite, reports_skipUntil, implies_true, and_true]
  refine ⟨fun h => ⟨(h none default).1, (h none (.seeing .ident)).2 (.seeing .ident) ?_⟩,
    fun h _ _ => ⟨h.1, fun _ _ => h.2⟩⟩
  exact ⟨rfl, rfl⟩

end

end Production

end Modelica
