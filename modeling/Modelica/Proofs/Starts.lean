import Modelica.Proofs.Form

/-!
# How right-hand sides start

Which kinds may come first and second in what a right-hand side stands for, and whether it may be
empty. Each rule has its entries in a table; `Nonterminal.keepsTo` checks the tables against the
right-hand sides once, and then they hold of all derivations.

The tables are read with `ends := true` where an `end` may be an expression and with
`ends := false` where it may not.
-/

namespace Modelica

namespace Kind

/-- The kinds that start a primary expression. -/
def primaryStart (ends : Bool) : List Kind :=
  [.unsignedInteger, .unsignedReal, .string, .trueKw, .falseKw, .derKw, .initialKw, .pureKw,
    .ident, .dot, .lParen, .lBracket, .lBrace] ++ if ends then [.endKw] else []

def operandStart (ends : Bool) : List Kind := .notKw :: Band.additive ++ primaryStart ends

def expressionStart (ends : Bool) : List Kind := .ifKw :: operandStart ends

/-- The operators with two operands, the loosest first. -/
def operators : List Kind :=
  [.orKw, .andKw] ++ Band.relational ++ Band.additive ++ Band.multiplicative ++ Band.power

def classStart : List Kind := .encapsulatedKw :: classPrefixStart

def namedElementStart : List Kind :=
  [.redeclareKw, .finalKw, .innerKw, .outerKw, .replaceableKw] ++ classStart ++
    componentClauseStart

def elementStart : List Kind := [.importKw, .extendsKw] ++ namedElementStart

def equationStart (ends : Bool) : List Kind :=
  [.ifKw, .forKw, .whenKw, .connectKw] ++ operandStart ends

def statementStart : List Kind := [
  .ifKw, .forKw, .whenKw, .whileKw, .breakKw, .returnKw, .lParen, .ident, .dot]

/-- What may follow the first token of an expression. -/
def expressionSecond (ends : Bool) : List Kind :=
  [.ident, .dot, .lParen, .lBracket, .rBrace, .comma, .rParen, .colon] ++ operators ++
    expressionStart ends

def equationSecond (ends : Bool) : List Kind :=
  [.equals, .string, .annotationKw, .semicolon] ++ expressionSecond ends

end Kind

/-- The kinds that start an item of a section or a body. -/
def Family.start (ends : Bool) : Family → List Kind
  | .equations => Kind.equationStart ends
  | .statements => Kind.statementStart

namespace Nonterminal

open Kind

/-- The rule may stand for nothing. -/
def nullable : Nonterminal → Bool
  | comment | typePrefix | elements | classBody | sectionBody _ | body _ | storedDefinition => true
  | _ => false

/-- The rule stands for two tokens at least. -/
def long : Nonterminal → Bool
  | callArguments | connectClause | equation | item .equations | simpleEquation | specialEquation
  | connectEquation | ifBlock _ | forBlock _ | whenBlock _ | longClassSpecifier => true
  | _ => false

/-- The kinds that may come first. -/
def first (ends : Bool) : Nonterminal → List Kind
  | name | componentReferencePart | forIndex | namedArgument | declaration
  | componentDeclaration | enumerationLiteral | shortClassSpecifier | derClassSpecifier => [.ident]
  | typeSpecifier | componentReference | externalFunctionCall | specialEquation
  | referenceStatement => [.dot, .ident]
  | arraySubscripts | arrayConcatenation => [.lBracket]
  | callArguments | parenthesized | classModification | classOrInheritanceModification
  | destructuringAssignment => [.lParen]
  | arrayConstructor => [.lBrace]
  | subscript => .colon :: expressionStart ends
  | expression | expressionList => expressionStart ends
  | ifExpression | ifBlock _ => [.ifKw]
  | simpleExpression | band _ | operand _ | simpleEquation => operandStart ends
  | unary least => prefixOperators least
  | primary => primaryStart ends
  | functionArguments | functionArgument => .functionKw :: expressionStart ends
  | partialApplication => [.functionKw]
  | descriptionString => [.string]
  | annotationClause => [.annotationKw]
  | comment => [.string, .annotationKw]
  | modification => [.lParen, .equals, .assign]
  | modificationExpression => .breakKw :: expressionStart ends
  | inheritanceModification => [.breakKw]
  | connectClause | connectEquation => [.connectKw]
  | argument => [.eachKw, .finalKw, .ident, .redeclareKw, .replaceableKw]
  | elementModification => [.eachKw, .finalKw, .ident]
  | elementRedeclaration => [.redeclareKw]
  | elementReplaceable => [.eachKw, .finalKw, .replaceableKw]
  | redeclaredElement => classPrefixStart ++ componentClauseStart
  | componentClause1 | componentClause => componentClauseStart
  | typePrefix => [
      .flowKw, .streamKw, .discreteKw, .parameterKw, .constantKw, .inputKw, .outputKw]
  | elements | element => elementStart
  | importClause => [.importKw]
  | extendsClause => [.extendsKw]
  | constrainingClause => [.constrainedbyKw]
  | namedElementClause => namedElementStart
  | storedDefinition => .withinKw :: .finalKw :: classStart
  | withinClause => [.withinKw]
  | classDefinitionClause => .finalKw :: classStart
  | classDefinition => classStart
  | classPrefixes => classPrefixStart
  | longClassSpecifier => [.ident, .extendsKw]
  | classBody => [.publicKw, .protectedKw, .initialKw, .equationKw, .algorithmKw] ++ elementStart
  | externalFunctionClause => [.externalKw]
  | equationSection => [.initialKw, .equationKw]
  | algorithmSection => [.initialKw, .algorithmKw]
  | sectionBody family | body family | item family => family.start ends
  | equation => equationStart ends
  | statement => statementStart
  | keywordStatement kind => statementKeyword kind
  | elseIfClause _ => [.elseifKw]
  | elseClause _ => [.elseKw]
  | whenBlock _ => [.whenKw]
  | elseWhenClause _ => [.elsewhenKw]
  | forBlock _ => [.forKw]
  | whileBlock => [.whileKw]

/-- The kinds that may come second, for the rules where a choice depends on it. -/
def second (ends : Bool) : Nonterminal → Option (List Kind)
  | name => some [.dot]
  | componentReference | componentReferencePart => some [.ident, .dot, .lBracket]
  | expression | ifExpression | simpleExpression | band _ | unary _ | operand _ | primary
  | parenthesized | arrayConcatenation | arrayConstructor | partialApplication
  | functionArgument => some (expressionSecond ends)
  | equation | item .equations | simpleEquation | specialEquation | connectEquation
  | connectClause | ifBlock .equations | forBlock .equations | whenBlock .equations =>
    some (equationSecond ends)
  | longClassSpecifier =>
    some ([.ident, .string, .externalKw, .annotationKw, .endKw] ++ classBody.first ends)
  | _ => none

end Nonterminal

namespace Form

def nullable : Form → Bool
  | empty | many _ => true
  | token _ | endToken => false
  | seq f g => f.nullable && g.nullable
  | alt f g => f.nullable || g.nullable
  | rule r => r.nullable
  | node _ f | level f | chain _ f _ => f.nullable

def long : Form → Bool
  | empty | token _ | endToken | many _ => false
  | seq f g => f.long || g.long || !f.nullable && !g.nullable
  | alt f g => f.long && g.long
  | rule r => r.long
  | node _ f | level f | chain _ f _ => f.long

def first (ends : Bool) : Form → List Kind
  | empty => []
  | token ks => ks
  | endToken => if ends then [.endKw] else []
  | seq f g | chain _ f g => f.first ends ++ if f.nullable then g.first ends else []
  | alt f g => f.first ends ++ g.first ends
  | many f | node _ f | level f => f.first ends
  | rule r => r.first ends

/-- Kinds that may come second, if they are known. -/
def second (ends : Bool) : Form → Option (List Kind)
  | empty | token _ | endToken => some []
  | seq f g | chain _ f g => do
    let ks ← f.second ends
    if f.nullable then return ks ++ g.first ends ++ (← g.second ends)
    else return ks ++ g.first ends
  | alt f g => return (← f.second ends) ++ (← g.second ends)
  | many f => return (← f.second ends) ++ f.first ends
  | node _ f | level f => f.second ends
  | rule r => r.second ends

end Form

namespace Nonterminal

/-- The entries of a rule cover those of its right-hand side. -/
def keepsTo (ends : Bool) (r : Nonterminal) : Bool :=
  (!r.form.nullable || r.nullable) && (!r.long || r.form.long) &&
    (r.form.first ends).all (r.first ends).contains &&
    match r.second ends with
    | none => true
    | some ks =>
      match r.form.second ends with
      | none => false
      | some ls => ls.all ks.contains

theorem keepsTo_form (ends : Bool) (r : Nonterminal) : r.keepsTo ends = true := by
  cases ends
  all_goals
    cases r
    case band least => rcases least with _ | _ | _ | _ | _ | _ | _ | _ | _ <;> rfl
    case unary least => rcases least with _ | _ | _ | _ | _ | _ | _ <;> rfl
    case operand => rfl
    case keywordStatement kind => cases kind <;> decide +kernel
    case sectionBody family | body family | item family | ifBlock family | elseIfClause family
        | elseClause family | whenBlock family | elseWhenClause family | forBlock family =>
      cases family <;> decide +kernel
    all_goals decide +kernel

end Nonterminal

/-- Some tokens start as the tables say. -/
structure StartsIn (nullable : Bool) (first : List Kind) (second : Option (List Kind))
    (ts : List Token) : Prop where
  empty : ts = [] → nullable = true
  first : ∀ t rest, ts = t :: rest → t.kind ∈ first
  second : ∀ t u rest ks, ts = t :: u :: rest → second = some ks → u.kind ∈ ks

namespace StartsIn

variable {nullable nullable' : Bool} {first first' : List Kind}
variable {second second' : Option (List Kind)}
variable {ts vs : List Token}

theorem nil (hn : nullable = true) : StartsIn nullable first second [] := by
  refine ⟨fun _ => hn, fun t rest h => ?_, fun t u rest ks h => ?_⟩ <;> simp at h

theorem singleton {t : Token} (ht : t.kind ∈ first) : StartsIn nullable first second [t] := by
  refine ⟨fun h => ?_, fun u rest h => ?_, fun u v rest ks h => ?_⟩
  · simp at h
  · simp only [List.cons.injEq] at h
    exact h.1 ▸ ht
  · simp at h

theorem mono (h : StartsIn nullable first second ts) (hn : nullable = true → nullable' = true)
    (hf : first ⊆ first') (hs : ∀ ls, second' = some ls → ∃ ks, second = some ks ∧ ks ⊆ ls) :
    StartsIn nullable' first' second' ts where
  empty he := hn (h.empty he)
  first t rest he := hf (h.first t rest he)
  second t u rest ls he hl := by
    obtain ⟨ks, hk, hsub⟩ := hs ls hl
    exact hsub (h.second t u rest ks he hk)

/-- The second token of a sequence is in its first part, or starts its second part, unless the
first part is empty. -/
theorem append (h : StartsIn nullable first second ts) (h' : StartsIn nullable' first' second' vs) :
    StartsIn (nullable && nullable') (first ++ if nullable then first' else [])
      (do
        let ks ← second
        if nullable then return ks ++ first' ++ (← second') else return ks ++ first')
      (ts ++ vs) where
  empty he := by
    obtain ⟨ht, hv⟩ := List.append_eq_nil_iff.mp he
    rw [h.empty ht, h'.empty hv]
    rfl
  first t rest he := by
    cases ts with
    | nil =>
      rw [h.empty rfl]
      exact List.mem_append_right _ (h'.first t rest he)
    | cons t' ts' =>
      cases he
      exact List.mem_append_left _ (h.first _ _ rfl)
  second t u rest ks he hk := by
    cases hs : second with
    | none => simp [hs] at hk
    | some ls =>
      simp only [hs, Option.bind_eq_bind, Option.bind_some] at hk
      rcases ts with _ | ⟨t', _ | ⟨u', ts'⟩⟩
      · rw [h.empty rfl] at hk
        cases hs' : second' with
        | none => simp [hs'] at hk
        | some ms =>
          simp only [hs', if_true, Option.bind_some, Option.pure_def, Option.some.injEq] at hk
          rw [← hk]
          exact List.mem_append_right _ (h'.second t u rest ms he hs')
      · simp only [List.cons_append, List.nil_append, List.cons.injEq] at he
        have hu := h'.first u rest he.2
        split at hk
        · obtain ⟨ms, -, hms⟩ := Option.bind_eq_some_iff.mp hk
          cases hms
          exact List.mem_append_left _ (List.mem_append_right _ hu)
        · cases hk
          exact List.mem_append_right _ hu
      · cases he
        have hu := h.second _ _ _ ls rfl hs
        split at hk
        · obtain ⟨ms, -, hms⟩ := Option.bind_eq_some_iff.mp hk
          cases hms
          exact List.mem_append_left _ (List.mem_append_left _ hu)
        · cases hk
          exact List.mem_append_left _ hu

end StartsIn

namespace Nonterminal

theorem startsIn_of_form {ends : Bool} {r : Nonterminal} {ts : List Token}
    (h : StartsIn r.form.nullable (r.form.first ends) (r.form.second ends) ts) :
    StartsIn r.nullable (r.first ends) (r.second ends) ts := by
  have hk := r.keepsTo_form ends
  simp only [keepsTo, Bool.and_eq_true, Bool.or_eq_true, Bool.not_eq_true'] at hk
  obtain ⟨⟨⟨hn, -⟩, hf⟩, hs⟩ := hk
  refine h.mono (fun ht => hn.resolve_left (by simp [ht])) ?_ fun ls hl => ?_
  · intro k hk
    simpa using List.all_eq_true.mp hf k hk
  · rw [hl] at hs
    cases hr : r.form.second ends with
    | none => simp [hr] at hs
    | some ks =>
      refine ⟨ks, rfl, fun k hk => ?_⟩
      simp only [hr] at hs
      simpa using List.all_eq_true.mp hs k hk

end Nonterminal

/-- Derivations start as the tables say. -/
theorem Derives.starts {ends : Kind → Prop} {e : Bool} (he : e = true ∨ ∀ k, ¬ ends k) {f : Form}
    {n : Nat} {ts : List Token} {us : List Tree} {k : Kind} (h : Derives ends f n ts us k) :
    StartsIn f.nullable (f.first e) (f.second e) ts := by
  induction h with
  | empty | none => exact .nil rfl
  | token ht => exact .singleton ht
  | @endToken t n k ht hk =>
    obtain rfl := he.resolve_right fun hn => hn k hk
    exact .singleton (by simp [Form.first, ht])
  | seq _ _ ihf ihg => exact ihf.append ihg
  | left _ ih =>
    refine ih.mono (fun hn => by simp [Form.nullable, hn]) (by simp [Form.first]) fun ls hl => ?_
    obtain ⟨ks, hk, hks⟩ := Option.bind_eq_some_iff.mp hl
    obtain ⟨ms, -, hms⟩ := Option.bind_eq_some_iff.mp hks
    cases hms
    exact ⟨ks, hk, by simp⟩
  | right _ ih =>
    refine ih.mono (fun hn => by simp [Form.nullable, hn]) (by simp [Form.first]) fun ls hl => ?_
    obtain ⟨ks, hk, hks⟩ := Option.bind_eq_some_iff.mp hl
    obtain ⟨ms, hm, hms⟩ := Option.bind_eq_some_iff.mp hks
    cases hms
    exact ⟨ms, hm, by simp⟩
  | @more f n ts us vs ws k _ _ ihf ihg =>
    refine (ihf.append ihg).mono (fun _ => rfl) ?_ fun ls hl => ?_
    · simp only [Form.first]
      intro x hx
      split at hx <;> simpa using hx
    · obtain ⟨ks, hk, hks⟩ := Option.bind_eq_some_iff.mp hl
      cases hks
      simp only [Form.second, hk, Form.first, Option.bind_eq_bind, Option.bind_some]
      split
      · exact ⟨_, rfl, by simp⟩
      · exact ⟨_, rfl, by simp⟩
  | rule _ ih => exact Nonterminal.startsIn_of_form ih
  | node _ ih | level _ ih => exact ih
  | @operand kind f g n ts us k _ ih =>
    refine ih.mono id (by simp [Form.first]) fun ls hl => ?_
    simp only [Form.second] at hl
    obtain ⟨ks, hk, hks⟩ := Option.bind_eq_some_iff.mp hl
    refine ⟨ks, hk, ?_⟩
    split at hks
    · obtain ⟨ms, -, hms⟩ := Option.bind_eq_some_iff.mp hks
      cases hms
      simp
    · cases hks
      simp
  | @step kind f g n ts us vs ws k _ _ ihf ihg =>
    refine (ihf.append ihg).mono (fun hn => (Bool.and_eq_true _ _ ▸ hn).1) ?_ fun ls hl => ?_
    · simp only [Form.first, Form.nullable]
      intro x hx
      split at hx <;> simp_all
    · rw [hl]
      simp only [Form.second] at hl
      obtain ⟨ks, -, hks⟩ := Option.bind_eq_some_iff.mp hl
      by_cases hn : f.nullable = true
      · rw [if_pos hn] at hks
        obtain ⟨ms, hm, hms⟩ := Option.bind_eq_some_iff.mp hks
        cases hms
        simp [Form.nullable, hn, hm]
      · rw [if_neg hn] at hks
        cases hks
        simp [Form.nullable, hn]

theorem Nonterminal.long_form {r : Nonterminal} (h : r.long = true) : r.form.long = true := by
  have hk := r.keepsTo_form true
  simp only [keepsTo, Bool.and_eq_true, Bool.or_eq_true, Bool.not_eq_true'] at hk
  exact hk.1.1.2.resolve_left (by simp [h])

theorem Derives.ne_nil {ends : Kind → Prop} {f : Form} {n : Nat} {ts : List Token} {us : List Tree}
    {k : Kind} (h : Derives ends f n ts us k) (hf : f.nullable = false) : ts ≠ [] := by
  intro hts
  have hn := (h.starts (e := true) (.inl rfl)).empty hts
  rw [hf] at hn
  cases hn

/-- Derivations are as long as the table says. -/
theorem Derives.two_le_length {ends : Kind → Prop} {f : Form} {n : Nat} {ts : List Token}
    {us : List Tree} {k : Kind} (h : Derives ends f n ts us k) (hf : f.long = true) :
    2 ≤ ts.length := by
  induction h with
  | empty | token _ | endToken _ _ | none | more => cases hf
  | seq hd hd' ih ih' =>
    simp only [Form.long, Bool.or_eq_true, Bool.and_eq_true, Bool.not_eq_true'] at hf
    rw [List.length_append]
    rcases hf with (hf | hf) | ⟨hf, hg⟩
    · exact Nat.le_add_right_of_le (ih hf)
    · exact Nat.le_add_left_of_le (ih' hf)
    · have h1 := List.length_pos_iff.mpr (hd.ne_nil hf)
      have h2 := List.length_pos_iff.mpr (hd'.ne_nil hg)
      omega
  | left _ ih => exact ih ((Bool.and_eq_true _ _).mp hf).1
  | right _ ih => exact ih ((Bool.and_eq_true _ _).mp hf).2
  | rule _ ih => exact ih (Nonterminal.long_form hf)
  | node _ ih | level _ ih | operand _ ih => exact ih hf
  | step _ _ ih _ =>
    rw [List.length_append]
    exact Nat.le_add_right_of_le (ih hf)

end Modelica
