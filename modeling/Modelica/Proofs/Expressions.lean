import Modelica.Proofs.Expressions.Primary

/-!
# The arguments of a call are read as they are written down

Arguments with names come after those without, and a comprehension stands alone. An identifier
begins a named argument where an equals sign follows it, and an expression elsewhere.
-/

namespace Modelica.Grammar

open Production Token

variable {ends : Kind → Prop} {inner : Bool}

theorem kinds_of_namedArgument {n : Nat} {ts : List Token} {us : List Tree} {k : Kind}
    (h : Derives ends (.rule .namedArgument) n ts us k) :
    ∃ t u vs, ts = t :: u :: vs ∧ t.kind = .ident ∧ u.kind = .equals := by
  cases derives_rule.mp h with
  | node h =>
    obtain ⟨t, _, _, rfl, -, ht, h⟩ := h.of_leaf_seq
    obtain ⟨u, vs, _, rfl, -, hu, -⟩ := h.of_leaf_seq
    exact ⟨t, u, vs, rfl, ht, hu⟩

/-- The arguments after the first named one. -/
theorem reads_argumentsAfterNamed : argumentsAfterNamed.Reads
    (.many (.sequence [.leaf .comma, .rule .namedArgument])) ends true anywhere
    (.only [.rParen]) := by
  have hnamed : (look fun v => if v.atNamedArgument then call .namedArgument
      else seq [
        report { Diagnostic.ofCode .positionalAfterNamed v.index with
          found := v.found, hint := some "move positional arguments before the named ones" },
        call .functionArgument]).Reads (.rule .namedArgument) ends true anywhere
      Nonterminal.namedArgument.Stops := by
    have hcall : (call .namedArgument).Reads (.rule .namedArgument) ends true anywhere
        Nonterminal.namedArgument.Stops :=
      reads_call (fun _ _ => trivial) fun _ => rfl
    refine reads_guard_test hcall (fun _ _ => trivial) (fun _ v n ts us rest hd ha => ?_) fun _ =>
      rfl
    obtain ⟨t, u, vs, rfl, ht, hu⟩ := kinds_of_namedArgument hd
    simp [Lookahead.atNamedArgument, Lookahead.sees, Lookahead.kind, Lookahead.nth, kindAt, ha,
      headKind, ht, hu]
  have hcomma : shift.Reads (.leaf .comma) ends true (atOneOf [.comma]) .any :=
    reads_shift (fun _ h => h) (by decide)
  exact Reads.weaken
    (reads_many_kind (sees_eq_contains · .comma) (reads_andThen hcomma hnamed fits_any) (by decide)
      (by decide))
    (by decide)

/-- A comma and a named argument come next. -/
def beforeNamed (ts : List Token) : Prop :=
  kindAt ts 0 = .comma ∧ kindAt ts 1 = .ident ∧ kindAt ts 2 = .equals

/-- The positional arguments after the first. -/
theorem reads_positional : (many (fun w => w.sees .comma &&
      !(w.nth 1 == .ident && w.nth 2 == .equals))
        fun _ => seq [shift, call .functionArgument]).Reads
    (.many (.sequence [.leaf .comma, .rule .functionArgument])) ends true anywhere
    (.test fun _ rest => headKind rest = .rParen ∨ beforeNamed rest) := by
  have hcomma : shift.Reads (.leaf .comma) ends true (atOneOf [.comma]) .any :=
    reads_shift (fun _ h => h) (by decide)
  have hcall : (call .functionArgument).Reads (.rule .functionArgument) ends true anywhere
      (.only [.comma, .rParen]) :=
    Reads.weaken (reads_call (fun _ _ => trivial) fun _ => rfl) (by decide)
  refine reads_many (reads_andThen hcomma hcall fits_any) (fun v h => ?_)
    (fun he v n ts us rest hd ha hs => ?_) (fun v h => ?_) fun he constructs n ts us rest hd h => ?_
  · simp only [Bool.and_eq_true] at h
    exact mem_of_sees h.1
  · obtain ⟨t, vs, ws, rfl, -, ht, hd⟩ := hd.of_leaf_seq
    -- no equals sign follows an identifier alone, nor the first one of a longer argument
    have hequals : ∀ u us, vs = u :: us → headKind (us ++ rest) ≠ .equals := by
      rintro u us rfl hk
      cases us with
      | nil =>
        have hr : headKind rest ∈ [.comma, .rParen] := List.contains_iff_mem.mp hs
        have hk' : headKind rest = .equals := hk
        rw [hk'] at hr
        revert hr
        decide
      | cons w ws =>
        have hw := (hd.starts_of_allows he).second u w ws _ rfl rfl
        have hk' : w.kind = .equals := hk
        rw [hk'] at hw
        revert hw
        decide
    cases vs with
    | nil => exact absurd hd (derives_nil rfl)
    | cons u vs =>
      have hsees : v.sees .comma = true := by
        rw [Lookahead.sees, Lookahead.kind, ha]
        exact beq_iff_eq.mpr ht
      have hnth : v.nth 2 ≠ .equals := by
        rw [Lookahead.nth, ha]
        exact hequals u vs rfl
      simp [hsees, hnth]
  · rcases h with h | ⟨-, h1, h2⟩
    · simp [Lookahead.sees, Lookahead.kind, h]
    · simp [Lookahead.nth, h1, h2]
  · cases ts with
    | nil =>
      rcases h with h | ⟨h0, -⟩
      · simp [Stop.only, Stop.Holds, h]
      · have hk : headKind rest = .comma := h0
        simp [Stop.only, Stop.Holds, hk]
    | cons t ts =>
      have ht := (hd.starts_of_allows he).first t ts rfl
      simp only [Form.first, Form.sequence, Form.leaf, Form.nullable, Bool.false_eq_true,
        if_false, List.append_nil, List.mem_singleton] at ht
      simp [Stop.only, Stop.Holds, headKind, ht]

/-- What is read first where no named argument comes first. -/
theorem does_firstArgument {env : Surroundings} {r m : Reading}
    (h : firstArgument.Does Nonterminal.Spelled env r m) :
    Spells .argument env r m ∨ Spells .comprehension env r m ∧ headKind m.ahead ≠ .comma := by
  simp only [firstArgument, Does] at h
  split at h
  · exact .inl ((h trivial).1.map derives_rule.mp)
  · obtain ⟨w, ⟨e, he, hw⟩, rfl⟩ := h
    obtain ⟨ts, us, ha, hb, hd⟩ := (he trivial).1
    have hb' : e.built = us.reverse := by simpa using hb
    simp only [seq, Does] at hw
    split at hw
    · rename_i hfor
      obtain ⟨x, hx, rfl⟩ := hw
      have hstart : atOneOf [.forKw] e.ahead := mem_of_sees hfor
      obtain ⟨vs, ws, ha', hb'', hd'⟩ := (@reads_forIndices endGuarded).sound env hstart hx
      rw [ha', Token.headKind_append] at hd
      refine .inr ⟨⟨ts ++ vs, [.node .comprehensionClause (us ++ ws)], ?_, ?_, .node (.seq hd hd')⟩,
        ?_⟩
      · simpa [ha'] using ha
      · simp [Reading.wrap, hb', hb'']
      · obtain ⟨_, -, _, -, hmany⟩ := hx
        simpa [Reading.look, Lookahead.sees, Lookahead.kind] using Turned.test_eq_false hmany
    · obtain ⟨x, rfl, rfl⟩ := hw
      left
      refine ⟨ts, [.node .functionArgument us], ha, ?_, .node (.right hd)⟩
      simp [Reading.wrap, hb']

/-- An argument that comes first and is no named one. -/
theorem takes_firstArgument (he : Allows ends true) {env : Surroundings} {r : Reading} {n : Nat}
    {ts rest : List Token} {us : List Tree}
    (h : Form.argument.Holds ends (Completes ends) n ts us (headKind rest))
    (ha : r.ahead = ts ++ rest) (hn : env.depth + n ≤ env.limit)
    (hr : headKind rest ∈ [.comma, .rParen]) : firstArgument.Takes true env r us rest := by
  have hstop : (Stop.only [.comma, .rParen]).Holds env.constructs rest :=
    List.contains_iff_mem.mpr hr
  have hafter : (Stop.except Kind.afterExpression).Holds env.constructs rest :=
    Stop.holds_of_kinds (by decide) _ _ hstop
  refine takes_look ?_
  obtain ⟨vs, rfl, hpartial | hexpr⟩ := h
  · have hk : headKind r.ahead ∈ [.functionKw] :=
      ha ▸ headKind_of_opens he (by decide) hpartial.1 rest
    rw [if_pos (Reading.sees_look.mpr (List.mem_singleton.mp hk))]
    exact takes_call (isRead_functionArgument.complete he env ⟨vs, rfl, .inl hpartial⟩ ha hn hafter)
  · have hk : headKind r.ahead ∈ Kind.expressionStart true :=
      ha ▸ headKind_of_opens he (by decide) hexpr.1 rest
    have hne : ¬ (r.look env).sees .functionKw = true := by
      intro hs
      rw [Reading.sees_look.mp hs] at hk
      revert hk
      decide
    rw [if_neg hne]
    obtain ⟨m, hrun, ham, hbm⟩ := (hexpr.2 he).1 env { r with built := [] } rest rfl ha hn hafter
    have hfor : ¬ (m.look env).sees .forKw = true := by
      intro hs
      rw [← ham, Reading.sees_look.mp hs] at hr
      revert hr
      decide
    have hrest : Runs noError (.of (look fun w =>
        if w.sees .forKw then wrap .comprehensionClause forIndices
        else wrap .functionArgument done)) env m (m.wrap .functionArgument) :=
      .look ((if_neg hfor).symm ▸ .wrap .done)
    refine ⟨_, .group (.andThen hrun hrest), ham, fun _ => ?_⟩
    simp [hbm rfl]

/-- A comprehension as the only argument. -/
theorem takes_comprehension (he : Allows ends true) {env : Surroundings} {r : Reading} {n : Nat}
    {ts rest : List Token} {us : List Tree}
    (h : Form.comprehension.Holds ends (Completes ends) n ts us (headKind rest))
    (ha : r.ahead = ts ++ rest) (hn : env.depth + n ≤ env.limit)
    (hr : headKind rest = .rParen) : firstArgument.Takes true env r us rest := by
  have hfor : forIndices.Reads .forIndices ends true (atOneOf [.forKw]) (.only [.rParen]) :=
    Reads.weaken reads_forIndices (by decide)
  have hdone : done.Reads .empty ends true anywhere (.only [.rParen]) := reads_done
  have hclosed := reads_group_closes reads_call_expression (closes_ite (sees_eq_contains · .forKw)
    (closes_wrap (k := .comprehensionClause) hfor (fun _ h => List.contains_iff_mem.mp h)
      (fits_of_first (by decide)) (fits_of_first (by decide)))
    (closes_wrap (k := .functionArgument) hdone (fun _ _ => trivial)
      (fits_of_clears (by decide)) (fits_of_clears (by decide)))
    fun _ => rfl)
  have hk : headKind r.ahead ∈ Kind.expressionStart true :=
    ha ▸ headKind_of_opens (f := .comprehension) he (by decide) h.derives_of_completes rest
  refine takes_look ?_
  rw [if_neg]
  · exact hclosed.complete he env (.inl h) ha hn
      (List.contains_iff_mem.mpr (List.mem_singleton.mpr hr))
  · intro hs
    rw [Reading.sees_look.mp hs] at hk
    revert hk
    decide

/-- Named arguments, up to the end of the list, stop the positional ones. -/
theorem fits_named : Fits ends true
    (.test fun _ rest => headKind rest = .rParen ∨ beforeNamed rest)
    (.many (.sequence [.leaf .comma, .rule .namedArgument])) (.only [.rParen]) := by
  rintro he constructs n ts us rest hd hs
  cases hd with
  | none => exact .inl (List.mem_singleton.mp (List.contains_iff_mem.mp hs))
  | more hd _ =>
    obtain ⟨t, _, _, rfl, -, ht, hd⟩ := hd.of_leaf_seq
    obtain ⟨u, v, _, rfl, hu, hv⟩ := kinds_of_namedArgument hd
    exact .inr ⟨ht, hu, hv⟩

/-- The arguments where no named one comes first. -/
theorem reads_fromFirst : (seq [firstArgument,
      many (fun w => w.sees .comma && !(w.nth 1 == .ident && w.nth 2 == .equals))
        fun _ => seq [shift, call .functionArgument],
      argumentsAfterNamed]).Reads
    (.alt .comprehension (.sequence [.argument,
      .many (.sequence [.leaf .comma, .rule .functionArgument]),
      .many (.sequence [.leaf .comma, .rule .namedArgument])])) ends true anywhere
    (.only [.rParen]) := by
  have hrest := reads_andThen (@reads_positional ends) reads_argumentsAfterNamed
    fits_named
  constructor
  · rintro env r r' - ⟨m, hfirst, hmore⟩
    rcases does_firstArgument hfirst with h | ⟨h, hcomma⟩
    · exact (h.seq (hrest.sound env trivial hmore)).map .right
    · obtain ⟨w, hw, hr⟩ := hmore
      have hsees : (m.look env).sees .comma = false := by
        simpa [Reading.look, Lookahead.sees, Lookahead.kind] using hcomma
      obtain rfl : w = m := hw.eq_of_test (by simp [hsees])
      obtain rfl : r' = w := hr.eq_of_test hsees
      exact h.map .left
  · intro he env r n ts us rest h ha hn hs
    rcases h with h | ⟨ts₁, us₁, ts₂, us₂, rfl, rfl, hfirst, hmore⟩
    · have hr : headKind rest = .rParen := List.mem_singleton.mp (List.contains_iff_mem.mp hs)
      have hnil : (Form.seq (.many (.sequence [.leaf .comma, .rule .functionArgument]))
          (.many (.sequence [.leaf .comma, .rule .namedArgument]))).Holds ends (Completes ends) n
          [] [] (headKind rest) :=
        ⟨[], [], [], [], rfl, rfl, .none, .none⟩
      have hfirst : firstArgument.Takes true env r us ([] ++ rest) :=
        takes_comprehension he h ha hn hr
      rw [← List.append_nil us]
      exact takes_andThen hfirst fun m hm => hrest.complete he env hnil hm hn hs
    · have hfits : Fits ends true (.only [.comma, .rParen]) (.sequence [
          .many (.sequence [.leaf .comma, .rule .functionArgument]),
          .many (.sequence [.leaf .comma, .rule .namedArgument])]) (.only [.rParen]) :=
        fits_of_clears (by decide)
      have hk : headKind (ts₂ ++ rest) ∈ [.comma, .rParen] :=
        List.contains_iff_mem.mp (hfits he hmore.derives_of_completes hs)
      rw [← Token.headKind_append] at hfirst
      exact takes_andThen (takes_firstArgument he hfirst (by simpa using ha) hn hk) fun m hm =>
        hrest.complete he env hmore hm hn hs

theorem isRead_functionArguments : Nonterminal.functionArguments.IsRead ends := by
  have hcall : (call .namedArgument).Reads (.rule .namedArgument) ends true anywhere
      Nonterminal.namedArgument.Stops :=
    reads_call (fun _ _ => trivial) fun _ => rfl
  have hnamed : (seq [call .namedArgument, argumentsAfterNamed]).Reads
      (.separated .comma (.rule .namedArgument)) ends true anywhere (.only [.rParen]) :=
    reads_andThen hcall reads_argumentsAfterNamed (fits_of_clears (by decide))
  refine reads_node (reads_ite hnamed reads_fromFirst (fun _ _ _ => trivial) (fun _ _ _ => trivial)
    ?_ ?_)
  · intro he v n ts us rest hd ha _
    cases hd with
    | seq hd _ =>
      obtain ⟨t, u, vs, rfl, ht, hu⟩ := kinds_of_namedArgument hd
      simp [Lookahead.atNamedArgument, Lookahead.sees, Lookahead.kind, Lookahead.nth, kindAt, ha,
        headKind, ht, hu]
  · intro he v n ts us rest hd ha hs
    have hr : headKind rest = .rParen := List.mem_singleton.mp (List.contains_iff_mem.mp hs)
    have hnth : v.nth 1 ≠ .equals := by
      intro h
      rw [Lookahead.nth, ha] at h
      rcases ts with _ | ⟨t, _ | ⟨u, ts⟩⟩
      · exact absurd hd (derives_nil rfl)
      · have hk : headKind rest = .equals := h
        rw [hr] at hk
        cases hk
      · have hu := (hd.starts_of_allows he).second t u ts _ rfl rfl
        have hk : u.kind = .equals := h
        rw [hk] at hu
        revert hu
        decide
    simp [Lookahead.atNamedArgument, hnth]

end Modelica.Grammar
