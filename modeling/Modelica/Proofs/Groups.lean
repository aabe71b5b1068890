import Modelica.Proofs.Reads.Dispatch

/-!
# Groups of brackets

What a right-hand side stands for opens and closes its brackets in pairs, so counting brackets finds
where a group ends (`afterGroup_of_derives`), and skipping over a reference finds where it ends
(`afterReference_of_derives`). With that `atCallEquation` tells the two kinds of equations apart
that may start with a reference (`atCallEquation_of_special`, `atCallEquation_of_simple`).
-/

namespace Modelica

open Token

namespace Form

/-- The depth in brackets after a right-hand side, with the depth before it, if both count up to the
same for all that it stands for. -/
def depth : Form → Nat → Option Nat
  | empty, d | endToken, d => some d
  | token ks, d =>
    if ks.all fun k => !opensGroup k && !closesGroup k then some d
    else if ks.all opensGroup then some (d + 1)
    else if ks.all fun k => !opensGroup k && closesGroup k then
      match d with
      | 0 => none
      | e + 1 => some e
    else none
  | seq f g, d => (f.depth d).bind g.depth
  | alt f g, d => if f.depth d = g.depth d then f.depth d else none
  | many f, d => if f.depth d = some d then some d else none
  | rule _, d => some d
  | node _ f, d | level f, d => f.depth d
  | chain _ f g, d => if f.depth d = some d ∧ g.depth d = some d then some d else none

theorem depth_alt_eq_some {f g : Form} {a b : Nat} :
    (alt f g).depth a = some b ↔ f.depth a = some b ∧ g.depth a = some b := by
  rw [depth]
  split
  next heq => rw [heq, and_self]
  next hne => exact ⟨nofun, fun h => absurd (h.1.trans h.2.symm) hne⟩

theorem depth_many_eq_some {f : Form} {a b : Nat} :
    (many f).depth a = some b ↔ f.depth a = some a ∧ a = b := by
  simp [depth]

theorem depth_chain_eq_some {k : Kind} {f g : Form} {a b : Nat} :
    (chain k f g).depth a = some b ↔ (f.depth a = some a ∧ g.depth a = some a) ∧ a = b := by
  simp [depth]

end Form

/-- Every rule closes the brackets that it opens. -/
theorem Nonterminal.depth_form (r : Nonterminal) : r.form.depth 0 = some 0 := by
  cases r
  case band least => rcases least with _ | _ | _ | _ | _ | _ | _ | _ | _ <;> rfl
  case unary least => rcases least with _ | _ | _ | _ | _ | _ | _ <;> rfl
  case operand => rfl
  case keywordStatement kind => cases kind <;> decide +kernel
  case sectionBody family | body family | item family | ifBlock family | elseIfClause family
      | elseClause family | whenBlock family | elseWhenClause family | forBlock family =>
    cases family <;> decide +kernel
  all_goals decide +kernel

/-- A token that a form counts from `a` brackets to `b` is counted so. -/
theorem afterGroup_of_token {ks : List Kind} {t : Token} (ht : t.kind ∈ ks) {a b : Nat}
    (hf : (Form.token ks).depth a = some b) (d : Nat) (rest : List Token) :
    afterGroup (d + a + 1) (t :: rest) = afterGroup (d + b + 1) rest := by
  simp only [Form.depth] at hf
  split at hf
  case isTrue hplain =>
    have hk := List.all_eq_true.mp hplain _ ht
    simp only [Bool.and_eq_true, Bool.not_eq_true'] at hk
    cases hf
    simp [afterGroup, hk]
  split at hf
  case isTrue hopens =>
    have hk := List.all_eq_true.mp hopens _ ht
    cases hf
    simp only [afterGroup, hk, if_true]
    rfl
  split at hf
  case isFalse => cases hf
  case isTrue hcloses =>
    have hk := List.all_eq_true.mp hcloses _ ht
    simp only [Bool.and_eq_true, Bool.not_eq_true'] at hk
    cases a with
    | zero => cases hf
    | succ e =>
      cases hf
      simp only [afterGroup, hk, if_true, Bool.false_eq_true, if_false]
      rfl

/-- Where a right-hand side counts from `a` brackets to `b`, skipping a group goes on behind it. -/
theorem afterGroup_of_derives {ends : Kind → Prop} {f : Form} {n : Nat} {ts : List Token}
    {us : List Tree} {k : Kind} (h : Derives ends f n ts us k) {a b : Nat}
    (hf : f.depth a = some b) (d : Nat) (rest : List Token) :
    afterGroup (d + a + 1) (ts ++ rest) = afterGroup (d + b + 1) rest := by
  induction h generalizing a b d rest with
  | empty =>
    cases hf
    rfl
  | none =>
    obtain ⟨-, rfl⟩ := Form.depth_many_eq_some.mp hf
    rfl
  | token ht => exact afterGroup_of_token ht hf d rest
  | endToken ht _ =>
    cases hf
    simp [afterGroup, ht, opensGroup, closesGroup]
  | seq _ _ ihf ihg =>
    obtain ⟨c, hc, hg⟩ := Option.bind_eq_some_iff.mp hf
    rw [List.append_assoc, ihf hc, ihg hg]
  | left _ ih => exact ih (Form.depth_alt_eq_some.mp hf).1 d rest
  | right _ ih => exact ih (Form.depth_alt_eq_some.mp hf).2 d rest
  | more _ _ ihf ihg =>
    obtain ⟨hitem, rfl⟩ := Form.depth_many_eq_some.mp hf
    rw [List.append_assoc, ihf hitem, ihg hf]
  | @rule r _ _ _ _ _ ih =>
    cases hf
    exact ih r.depth_form (d + a) rest
  | node _ ih | level _ ih => exact ih hf d rest
  | operand _ ih =>
    obtain ⟨⟨hoperand, -⟩, rfl⟩ := Form.depth_chain_eq_some.mp hf
    exact ih hoperand d rest
  | step _ _ ihf ihg =>
    obtain ⟨⟨-, hstep⟩, rfl⟩ := Form.depth_chain_eq_some.mp hf
    rw [List.append_assoc, ihf hf, ihg hstep]

section

variable {ends : Kind → Prop} {f : Form} {n : Nat} {ts vs rest : List Token} {us ws : List Tree}
variable {k o c : Kind}

/-- Skipping a group ends behind its last bracket. -/
theorem afterGroup_of_brackets (ho : opensGroup o = true) (hc : closesGroup c = true)
    (hc' : opensGroup c = false) (hf : f.depth 0 = some 0)
    (h : Derives ends (.seq (.leaf o) (.seq f (.leaf c))) n ts us k) :
    afterGroup 0 (ts ++ rest) = some rest := by
  obtain ⟨t, _, _, rfl, -, ht, h⟩ := h.of_leaf_seq
  cases h with
  | @seq _ _ _ vs _ _ _ _ hbody hclose =>
    cases hclose with
    | @token _ u _ _ hu =>
      have hskip := afterGroup_of_derives hbody hf 0 (u :: rest)
      have hu' := List.mem_singleton.mp hu
      calc afterGroup 0 (t :: (vs ++ [u]) ++ rest)
          = afterGroup 1 (vs ++ u :: rest) := by simp [afterGroup, ht, ho]
        _ = afterGroup 1 (u :: rest) := hskip
        _ = some rest := by simp [afterGroup, hu', hc, hc']

theorem afterGroup_of_subscripts (h : Derives ends (.rule .arraySubscripts) n ts us k) :
    afterGroup 0 (ts ++ rest) = some rest := by
  cases derives_rule.mp h with
  | node h => exact afterGroup_of_brackets rfl rfl rfl rfl h

theorem afterGroup_of_arguments (h : Derives ends (.rule .callArguments) n ts us k) :
    afterGroup 0 (ts ++ rest) = some rest :=
  afterGroup_of_brackets rfl rfl rfl rfl (derives_rule.mp h)

/-! ## Skipping references -/

theorem headKind_of_subscripts (h : Derives ends (.rule .arraySubscripts) n ts us k) :
    headKind (ts ++ rest) = .lBracket := by
  cases derives_rule.mp h with
  | node h =>
    obtain ⟨t, _, _, rfl, -, ht, -⟩ := h.of_leaf_seq
    exact ht

/-- Skipping one part of a reference, from behind its identifier. -/
theorem afterParts_succ (h : Derives ends (.opt (.rule .arraySubscripts)) n ts us k)
    (hr : headKind rest ≠ .lBracket) (fuel : Nat) :
    afterParts (fuel + 1) (ts ++ rest) =
      if continuesChain rest then afterParts fuel (rest.drop 2) else some rest := by
  cases h with
  | left h => simp [afterParts, headKind_of_subscripts h, afterGroup_of_subscripts h]
  | right h =>
    cases h
    simp [afterParts, hr]

/-- What follows the parts of a reference, from behind an identifier. -/
theorem afterParts_of_derives {ss : List Token} {l : Kind}
    (hs : Derives ends (.opt (.rule .arraySubscripts)) n ss us l)
    (h : Repeated (Derives ends (.seq (.leaf .dot) (.rule .componentReferencePart)) n) vs ws k)
    (hr : headKind rest ≠ .dot) (hr' : headKind rest ≠ .lBracket) {fuel : Nat}
    (hfuel : vs.length < fuel) : afterParts fuel (ss ++ (vs ++ rest)) = some rest := by
  induction h generalizing ss us l fuel with
  | none =>
    obtain ⟨fuel, rfl⟩ := Nat.exists_eq_add_of_lt hfuel
    have hend : continuesChain rest = false := by simp [continuesChain, kindAt, hr]
    rw [List.nil_append, afterParts_succ hs hr', hend]
    rfl
  | more hd _ ih =>
    obtain ⟨t, _, _, rfl, -, ht, hd⟩ := hd.of_leaf_seq
    cases derives_rule.mp hd with
    | node hd =>
      obtain ⟨u, ss', _, rfl, -, hu, hs'⟩ := hd.of_leaf_seq
      obtain ⟨fuel, rfl⟩ := Nat.exists_eq_add_of_lt hfuel
      simp only [List.length_append, List.length_cons] at hfuel
      rw [afterParts_succ hs (by simp [headKind, ht])]
      simp only [List.cons_append, List.append_assoc]
      rw [if_pos (by simp [continuesChain, kindAt, headKind, ht, hu])]
      exact ih hs' (by simp only [List.length_cons, List.length_append]; omega)

/-- Skipping a reference ends behind it. -/
theorem afterReference_of_derives (h : Derives ends (.rule .componentReference) n ts us k)
    (hr : headKind rest ≠ .dot) (hr' : headKind rest ≠ .lBracket) :
    afterReference (ts ++ rest) = some rest := by
  have hparts : ∀ {ts us},
      Derives ends (.separated .dot (.rule .componentReferencePart)) n ts us k →
      ∃ t vs, ts = t :: vs ∧ t.kind = .ident ∧
        ∀ fuel, vs.length < fuel → afterParts fuel (vs ++ rest) = some rest := by
    intro ts us h
    cases h with
    | @seq _ _ _ _ _ vs _ _ hpart hlinks =>
      cases derives_rule.mp hpart with
      | node hpart =>
        obtain ⟨t, ss, _, rfl, -, ht, hs⟩ := hpart.of_leaf_seq
        refine ⟨t, ss ++ vs, rfl, ht, fun fuel hfuel => ?_⟩
        rw [List.length_append] at hfuel
        rw [List.append_assoc]
        exact afterParts_of_derives hs hlinks.repeated hr hr' (by omega)
  cases derives_rule.mp h with
  | node h =>
    cases h with
    | @seq _ _ _ ps _ _ _ _ hpoint h =>
      obtain ⟨t, vs, rfl, ht, hskip⟩ := hparts h
      cases hpoint with
      | left hpoint =>
        cases hpoint with
        | @token _ p _ _ hp =>
          have hp' := List.mem_singleton.mp hp
          simp only [List.cons_append, List.nil_append, afterReference, headKind, hp', if_true,
            List.drop_one, List.tail_cons, ht]
          refine hskip _ ?_
          rw [List.length_cons, List.length_append]
          omega
      | right hpoint =>
        cases hpoint
        simp only [List.nil_append, List.cons_append, afterReference, headKind, ht, if_true,
          List.drop_one, List.tail_cons, reduceCtorEq, if_false]
        refine hskip _ ?_
        rw [List.length_cons, List.length_append]
        omega

/-! ## Expressions that start with a reference -/

/-- What comes next in an expression is an operator, or the expression ends. -/
def Interrupted (ts : List Token) : Prop := ts = [] ∨ headKind ts ∈ Kind.operators

/-- The tokens start with a reference or with a call, and then an operator comes or the end. -/
def LeadsWithReference (ends : Kind → Prop) (ts : List Token) : Prop :=
  ∃ n us k ref tail, ts = ref ++ tail ∧ Derives ends (.rule .componentReference) n ref us k ∧
    (Interrupted tail ∨ ∃ m ws l args more, tail = args ++ more ∧
      Derives ends (.rule .callArguments) m args ws l ∧ Interrupted more)

theorem Interrupted.append (h : Interrupted ts) (hv : headKind vs ∈ Kind.operators) :
    Interrupted (ts ++ vs) := by
  cases ts with
  | nil => exact .inr hv
  | cons t ts => exact .inr (h.resolve_left (List.cons_ne_nil t ts))

theorem LeadsWithReference.append (h : LeadsWithReference ends ts)
    (hv : headKind vs ∈ Kind.operators) : LeadsWithReference ends (ts ++ vs) := by
  obtain ⟨n, us, k, ref, tail, rfl, href, htail | ⟨m, ws, l, args, more, rfl, hargs, hmore⟩⟩ := h
  · exact ⟨n, us, k, ref, tail ++ vs, by simp, href, .inl (htail.append hv)⟩
  · exact ⟨n, us, k, ref, args ++ (more ++ vs), by simp, href,
      .inr ⟨m, ws, l, args, more ++ vs, rfl, hargs, hmore.append hv⟩⟩

/-- What is known of the parts of an expression, besides that they are derived. -/
def Leading (ends : Kind → Prop) : RuleClaim := fun rule n ts us k =>
  Derives ends (.rule rule) n ts us k ∧ match rule with
    | .band _ | .simpleExpression | .primary =>
      headKind ts ∈ [.ident, .dot] → LeadsWithReference ends ts
    | _ => True

/-- What starts with other kinds does not start with a reference. -/
theorem not_reference_of_first (h : Derives ends f n ts us k)
    (hf : (!f.nullable && (f.first true).all fun k => k != .ident && k != .dot) = true) :
    headKind ts ∉ [.ident, .dot] := by
  simp only [Bool.and_eq_true, Bool.not_eq_true', List.all_eq_true] at hf
  cases ts with
  | nil => exact absurd rfl (h.ne_nil hf.1)
  | cons t ts =>
    have ht := hf.2 _ ((h.starts (e := true) (.inl rfl)).first t ts rfl)
    simpa [headKind] using ht

theorem leading_primary (h : (Nonterminal.form .primary).Holds ends (Leading ends) n ts us k)
    (hk : headKind ts ∈ [.ident, .dot]) : LeadsWithReference ends ts := by
  obtain ⟨f, hf, hl⟩ := Production.holds_of_alts h
  have hd := hl.derives fun hc => hc.1
  have hother :
      (!f.nullable && (f.first true).all fun k => k != .ident && k != .dot) = true → False :=
    fun hfirst => not_reference_of_first hd hfirst hk
  simp only [List.mem_cons, List.not_mem_nil, or_false] at hf
  rcases hf with rfl | rfl | rfl | rfl | rfl | rfl | rfl | rfl | rfl | rfl
  case inr.inr.inr.inr.inr.inl =>
    rcases hl with ⟨_, rfl, ref, us, args, ws, rfl, rfl, href, hargs⟩ | href
    · exact ⟨n, us, _, ref, args, rfl, href.1,
        .inr ⟨n, ws, k, args, [], by simp, hargs.1, .inl rfl⟩⟩
    · exact ⟨n, us, k, ts, [], by simp, href.1, .inl (.inl rfl)⟩
  all_goals exact (hother (by decide)).elim

/-- An operator and more, after what is not empty. -/
theorem leads_of_operator {t : Token} (hts : ts ≠ []) (ht : t.kind ∈ Kind.operators)
    (hk : headKind (ts ++ t :: vs) ∈ [.ident, .dot])
    (h : headKind ts ∈ [.ident, .dot] → LeadsWithReference ends ts) :
    LeadsWithReference ends (ts ++ t :: vs) := by
  refine (h ?_).append ht
  cases ts with
  | nil => exact absurd rfl hts
  | cons => exact hk

theorem leading_chain {ops : List Kind} {level : Nat} (hops : ∀ k ∈ ops, k ∈ Kind.operators)
    (h : Chained .binaryExpression ((Form.rule (.band level)).Holds ends (Leading ends) n)
      ((Form.seq (.token ops) (.rule (.band level))).Holds ends (Leading ends) n) ts us k)
    (hk : headKind ts ∈ [.ident, .dot]) : LeadsWithReference ends ts := by
  induction h with
  | operand h => exact h.2 hk
  | step hleft hstep ih =>
    obtain ⟨_, _, _, _, rfl, rfl, ⟨t, ht, rfl, rfl⟩, -⟩ := hstep
    have hne := (Form.Holds.derives (f := .leftChain ops (.rule (.band level))) (fun hc => hc.1)
      hleft).ne_nil rfl
    exact leads_of_operator hne (hops _ ht) hk ih

theorem not_reference_of_prefixOperators {level : Nat} (h : k ∈ Nonterminal.prefixOperators level) :
    k ∉ [.ident, .dot] := by
  unfold Nonterminal.prefixOperators at h
  split at h
  · revert k
    decide
  · revert k
    decide
  · cases h

theorem leading_band {level : Nat}
    (h : (Nonterminal.form (.band level)).Holds ends (Leading ends) n ts us k)
    (hk : headKind ts ∈ [.ident, .dot]) : LeadsWithReference ends ts := by
  have hchain : ∀ {ops level}, (∀ k ∈ ops, k ∈ Kind.operators) →
      (Form.leftChain ops (.rule (.band level))).Holds ends (Leading ends) n ts us k →
      LeadsWithReference ends ts :=
    fun hops h => leading_chain hops h hk
  have hbinary : ∀ {r r' : Nonterminal} {ops : List Kind}, r.nullable = false →
      (∀ k ∈ ops, k ∈ Kind.operators) →
      (∀ {ts us k}, Leading ends r n ts us k → headKind ts ∈ [.ident, .dot] →
        LeadsWithReference ends ts) →
      (Form.binary (.rule r) ops (.rule r')).Holds ends (Leading ends) n ts us k →
      LeadsWithReference ends ts := by
    intro r r' ops hr hops hleads h
    obtain ⟨_, rfl, _, _, _, _, rfl, rfl, hleft, _, _, _, _, rfl, rfl, ⟨t, ht, rfl, rfl⟩, -⟩ := h
    exact leads_of_operator (hleft.1.ne_nil hr) (hops _ ht) hk (hleads hleft)
  have hunary : ∀ {level}, Leading ends (.unary level) n ts us k → LeadsWithReference ends ts := by
    intro level h
    cases derives_rule.mp h.1 with
    | node h =>
      cases h with
      | seq h _ =>
        cases h with
        | @token _ t _ _ ht =>
          exact absurd hk (not_reference_of_prefixOperators ht)
  rcases level with _ | _ | _ | _ | _ | _ | _ | _ | level
  · exact hchain (by decide) h
  · exact hchain (by decide) h
  · exact h.elim hunary fun h => h.2 hk
  · exact h.elim (hbinary rfl (by decide) fun h => h.2) fun h => h.2 hk
  · exact hchain (by decide) h
  · exact h.elim hunary fun h => h.2 hk
  · exact hchain (by decide) h
  · exact h.elim (hbinary rfl (by decide) fun h => h.2) fun h => h.2 hk
  · exact h.2 hk

theorem leading_of_derives (h : Derives ends (.rule .simpleExpression) n ts us k)
    (hk : headKind ts ∈ [.ident, .dot]) : LeadsWithReference ends ts := by
  have hall : (Form.rule .simpleExpression).Holds ends (Leading ends) n ts us k := by
    refine h.holds fun {r n ts us k} hl => ⟨.rule (hl.derives fun hc => hc.1), ?_⟩
    cases r with
    | band level => exact leading_band hl
    | simpleExpression => exact hl.2
    | primary => exact leading_primary hl
    | _ => trivial
  exact hall.2 hk

/-! ## Equations that start with a reference -/

theorem headKind_of_arguments (h : Derives ends (.rule .callArguments) n ts us k) :
    headKind (ts ++ rest) = .lParen := by
  obtain ⟨t, _, _, rfl, -, ht, -⟩ := (derives_rule.mp h).of_leaf_seq
  exact ht

/-- What `atCallEquation` decides, from where reference and arguments end. -/
theorem atCallEquation_eq {v : Lookahead} {rest after : List Token}
    (hr : afterReference v.ahead = some rest) (ha : afterGroup 0 rest = some after)
    (hk : headKind rest = .lParen) :
    v.atCallEquation = [Kind.semicolon, .string, .annotationKw].contains (headKind after) := by
  simp only [Lookahead.atCallEquation, hr, ha, hk]
  generalize headKind after = k
  cases k <;> rfl

/-- The tokens start with a reference and one list of arguments, and then a description, an
annotation or the `;` comes. -/
def Token.CallEquation (ends : Kind → Prop) (ts : List Token) : Prop :=
  ∃ n us ws ref args rest, ts = ref ++ (args ++ rest) ∧
    Derives ends (.rule .componentReference) n ref us (headKind (args ++ rest)) ∧
    Derives ends (.rule .callArguments) n args ws (headKind rest) ∧
    headKind rest ∈ [.semicolon, .string, .annotationKw]

/-- The scans come past the reference and past its arguments. -/
theorem atCallEquation_of_callEquation {v : Lookahead} (h : CallEquation ends v.ahead) :
    v.atCallEquation = true := by
  obtain ⟨n, us, ws, ref, args, rest, ha, href, hargs, hk⟩ := h
  have hparen : headKind (args ++ rest) = .lParen := headKind_of_arguments hargs
  have hafter : afterReference v.ahead = some (args ++ rest) := by
    rw [ha]
    exact afterReference_of_derives href (by rw [hparen]; decide) (by rw [hparen]; decide)
  rw [atCallEquation_eq hafter (afterGroup_of_arguments hargs) hparen]
  simpa using hk

theorem callEquation_of_special (h : Derives ends (.rule .specialEquation) n ts us k)
    (rest : List Token) : CallEquation ends (ts ++ rest) := by
  cases derives_rule.mp h with
  | node h =>
    cases h with
    | @seq _ _ _ ref _ _ _ _ href h =>
      cases h with
      | @seq _ _ _ args _ tail _ _ hargs hend =>
        obtain ⟨t, args, rfl⟩ := List.exists_cons_of_ne_nil (hargs.ne_nil rfl)
        obtain ⟨u, tail, rfl⟩ := List.exists_cons_of_ne_nil (hend.ne_nil rfl)
        refine ⟨_, _, _, ref, t :: args, u :: tail ++ rest, by simp, href, hargs, ?_⟩
        have hs := hend.starts (e := true) (.inl rfl)
        have hall : ∀ k ∈ Form.first true (.sequence [.itemEnd]),
            k ∈ [Kind.semicolon, .string, .annotationKw] := by decide
        exact hall _ (hs.first u tail rfl)

theorem atCallEquation_of_special {v : Lookahead}
    (h : Derives ends (.rule .specialEquation) n ts us k) (ha : v.ahead = ts ++ rest) :
    v.atCallEquation = true :=
  atCallEquation_of_callEquation (ha ▸ callEquation_of_special h rest)

theorem afterReference_eq_none (h : headKind ts ∉ [.ident, .dot]) : afterReference ts = none := by
  simp only [List.mem_cons, List.not_mem_nil, or_false, not_or] at h
  simp [afterReference, h]

theorem atCallEquation_of_simple {v : Lookahead}
    (h : Derives ends (.rule .simpleEquation) n ts us k) (ha : v.ahead = ts ++ rest) :
    v.atCallEquation = false := by
  cases derives_rule.mp h with
  | node h =>
    cases h with
    | @seq _ _ _ left _ _ _ _ hleft h =>
      obtain ⟨t, vs, _, rfl, -, ht, h⟩ := h.of_leaf_seq
      have hahead : v.ahead = left ++ (t :: (vs ++ rest)) := by simp [ha]
      -- behind the reference, and behind the arguments, an operator or the `=` comes
      have hnext : ∀ {tail}, Interrupted tail →
          headKind (tail ++ t :: (vs ++ rest)) ∈ Kind.equals :: Kind.operators := by
        intro tail htail
        cases tail with
        | nil => exact List.mem_cons.mpr (.inl ht)
        | cons u tail => exact List.mem_cons_of_mem _ (htail.resolve_left (List.cons_ne_nil u tail))
      have hother : ∀ k ∈ Kind.equals :: Kind.operators, k ≠ .dot ∧ k ≠ .lBracket ∧ k ≠ .lParen ∧
          [Kind.semicolon, .string, .annotationKw].contains k = false := by decide
      by_cases hk : headKind left ∈ [.ident, .dot]
      · obtain ⟨_, _, _, ref, tail, rfl, href, htail⟩ := leading_of_derives hleft hk
        rcases htail with htail | ⟨_, _, _, args, more, rfl, hargs, hmore⟩
        · obtain ⟨hdot, hbracket, hparen, -⟩ := hother _ (hnext htail)
          have hafter : afterReference v.ahead = some (tail ++ t :: (vs ++ rest)) := by
            rw [hahead, List.append_assoc]
            exact afterReference_of_derives href hdot hbracket
          simp only [Lookahead.atCallEquation, hafter, beq_eq_false_iff_ne.mpr hparen,
            Bool.false_and]
        · have hparen : headKind (args ++ (more ++ t :: (vs ++ rest))) = .lParen :=
            headKind_of_arguments hargs
          have hafter : afterReference v.ahead = some (args ++ (more ++ t :: (vs ++ rest))) := by
            rw [hahead, List.append_assoc, List.append_assoc]
            exact afterReference_of_derives href (by rw [hparen]; decide) (by rw [hparen]; decide)
          rw [atCallEquation_eq hafter (afterGroup_of_arguments hargs) hparen]
          exact (hother _ (hnext hmore)).2.2.2
      · have hk' : headKind v.ahead ∉ [.ident, .dot] := by
          rw [hahead]
          cases left with
          | nil => exact absurd rfl (hleft.ne_nil rfl)
          | cons => exact hk
        simp only [Lookahead.atCallEquation, afterReference_eq_none hk']

end

end Modelica
