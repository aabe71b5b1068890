import Modelica.Proofs.Contents
import Modelica.Proofs.Progress

/-!
# What productions build

`Production.Turns c d v` is read off a production at the place `v` where it starts: run there
without errors, it turns trees of shape `c` into trees of shape `d`. A call counts as what
`Nonterminal.adds` says. `Production.Adds s v` is the same for a production that leaves the trees
before it alone.
-/

namespace Modelica

open Shape

namespace Production

/-- The production is certain to report an error at `v`. -/
def Fails : Production → Lookahead → Prop
  | report fault, _ => fault.isError = true
  | andThen p _, v => p.Fails v
  | look next, v => (next v).Fails v
  | _, _ => False

/-- `p.After v w`: what is ahead at `w`, where `p` has ended, as far as that shows at `v`. -/
def After : Production → Lookahead → Lookahead → Prop
  | done, v, w | report _, v, w => w.ahead = v.ahead
  | shift, v, w => w.ahead = v.ahead.tail
  | andThen p q, v, w => ∃ m, p.After v m ∧ q.After m w
  | look next, v, w => (next v).After v w
  | _, _, _ => True

/-- Run at `v` without errors, the production turns trees of shape `c` into trees of shape `d`. -/
def Turns : Production → Shape → Shape → Lookahead → Prop
  | done, c, d, _ => Le c d
  | andThen p q, c, d, v =>
    p.Fails v ∨ ∃ m, p.Turns c m v ∧ ∀ w, p.After v w → q.Turns m d w
  | shift, c, d, v =>
    ∃ ks, (v.kind ∈ ks ∨ Kind.significant ⊆ ks) ∧ (v.ahead = [] → Le c d) ∧ Le (c ++ [one ks]) d
  | group p, c, d, v => ∃ s, p.Turns [] s v ∧ Le (c ++ s) d
  | wrap k p, c, d, v =>
    ∃ s, p.Turns c s v ∧ k ∈ Kind.productions ∧ Le s k.shape ∧ Le [one [k]] d
  | look next, c, d, v => (next v).Turns c d v
  | many continues item, c, d, _ =>
    ∃ m, Le c m ∧ Le m d ∧ ∀ before w, continues w = true → (item before).Turns m m w
  | call rule, c, d, v => rule.Ready v ∧ Le (c ++ rule.adds) d
  | report fault, c, d, _ => fault.isError = true ∨ Le c d
  | inContext context p, c, d, v => p.Turns c d { v with context }
  | opening block p, c, d, v => p.Turns c d { v with constructs := block :: v.constructs }
  | nested p q, c, d, v => p.Turns c d v ∧ q.Turns c d v

/-- Run at `v` without errors, the production adds trees of shape `s` to those before it. -/
def Adds (p : Production) (s : Shape) (v : Lookahead) : Prop := ∀ c, p.Turns c (c ++ s) v

variable {p q : Production} {ps : List Production} {c d s t : Shape} {v : Lookahead} {k : Kind}
variable {ks : List Kind}

theorem turns_of_fails (h : p.Fails v) : p.Turns c d v := by
  induction p generalizing d with
  | report fault => exact .inl h
  | andThen p q => exact .inl h
  | look next ih => exact ih v h
  | _ => exact h.elim

/-- More may be claimed of what is before than is needed, and less of what comes out. -/
theorem Turns.weaken (h : p.Turns c d v) (hd : Le d t) : p.Turns c t v := by
  induction p generalizing c d t v with
  | done => exact h.trans hd
  | andThen p q _ ihq =>
    obtain hf | ⟨m, hp, hq⟩ := h
    · exact .inl hf
    · exact .inr ⟨m, hp, fun w hw => ihq (hq w hw) hd⟩
  | shift =>
    obtain ⟨ks, hk, hn, hs⟩ := h
    exact ⟨ks, hk, fun he => (hn he).trans hd, hs.trans hd⟩
  | group p =>
    obtain ⟨s, hp, hs⟩ := h
    exact ⟨s, hp, hs.trans hd⟩
  | wrap k p =>
    obtain ⟨s, hp, hk, hs, hl⟩ := h
    exact ⟨s, hp, hk, hs, hl.trans hd⟩
  | look next ih => exact ih _ h hd
  | many continues item =>
    obtain ⟨m, hc, hm, hi⟩ := h
    exact ⟨m, hc, hm.trans hd, hi⟩
  | call rule => exact ⟨h.1, h.2.trans hd⟩
  | report fault => exact h.imp_right fun hl => hl.trans hd
  | inContext context p ih | opening block p ih => exact ih h hd
  | nested p q ihp ihq => exact ⟨ihp h.1 hd, ihq h.2 hd⟩

theorem adds_weaken (h : p.Adds s v) (hs : Le s t) : p.Adds t v :=
  fun c => (h c).weaken (Le.append_left c hs)

theorem adds_of_covers (h : p.Adds s v) (hs : s.covers t = true) : p.Adds t v :=
  adds_weaken h (le_of_covers hs)

/-- A production that starts a group. -/
theorem turns_of_adds (h : p.Adds s v) : p.Turns [] s v := h []

theorem adds_of_fails (h : p.Fails v) : p.Adds s v := fun _ => turns_of_fails h

theorem adds_look {next : Lookahead → Production} (h : (next v).Adds s v) :
    (look next).Adds s v := h

theorem turns_look {next : Lookahead → Production} (h : (next v).Turns c d v) :
    (look next).Turns c d v := h

theorem adds_ite {b : Prop} [Decidable b] (hp : b → p.Adds s v) (hq : ¬ b → q.Adds s v) :
    (if b then p else q).Adds s v := by
  split
  · exact hp ‹_›
  · exact hq ‹_›

theorem turns_ite {b : Prop} [Decidable b] (hp : b → p.Turns c d v) (hq : ¬ b → q.Turns c d v) :
    (if b then p else q).Turns c d v := by
  split
  · exact hp ‹_›
  · exact hq ‹_›

theorem kind_of_sees (h : v.sees k = true) : v.kind = k := beq_iff_eq.mp h

theorem mem_of_sees (h : v.sees k = true) : v.kind ∈ [k] := by
  simpa [Lookahead.sees] using h

theorem mem_of_seesAny (h : v.seesAny ks = true) : v.kind ∈ ks := by
  simpa [Lookahead.seesAny] using h

theorem fails_fault {code : Code} {message : String} : (fault code message).Fails v := rfl

theorem fails_missing {code : Code} : (missing code ks).Fails v := rfl

theorem fails_seq_cons (h : p.Fails v) : (seq (p :: ps)).Fails v := by
  cases ps with
  | nil => exact h
  | cons q ps => exact h

theorem adds_done : done.Adds [] v := fun c => (List.append_nil c).symm ▸ Le.refl c

theorem ahead_ne_nil (h : v.kind ∈ ks) (hk : .endOfInput ∉ ks) : v.ahead ≠ [] := by
  intro hn
  rw [Lookahead.kind, hn] at h
  exact hk h

theorem adds_shift (h : v.kind ∈ ks) (hk : .endOfInput ∉ ks) : shift.Adds [one ks] v :=
  fun _ => ⟨ks, .inl h, fun hn => absurd hn (ahead_ne_nil h hk), Le.refl _⟩

/-- Any token may come, or none. -/
theorem adds_shift_any : shift.Adds [opt Kind.significant] v := fun c =>
  ⟨Kind.significant, .inr (List.Subset.refl _), fun _ => Le.append_nil c le_nil_opt,
    Le.append_left c le_one_opt⟩

theorem adds_accept : (accept k).Adds [opt [k]] v := by
  intro c
  by_cases h : v.sees k = true
  · rw [accept, Turns, if_pos h]
    exact ⟨[k], .inl (mem_of_sees h), fun _ => Le.append_nil c le_nil_opt,
      Le.append_left c le_one_opt⟩
  · rw [accept, Turns, if_neg h]
    exact Le.append_nil c le_nil_opt

theorem adds_acceptAny : (acceptAny ks).Adds [opt ks] v := by
  intro c
  by_cases h : v.seesAny ks = true
  · rw [acceptAny, Turns, if_pos h]
    exact ⟨ks, .inl (mem_of_seesAny h), fun _ => Le.append_nil c le_nil_opt,
      Le.append_left c le_one_opt⟩
  · rw [acceptAny, Turns, if_neg h]
    exact Le.append_nil c le_nil_opt

theorem adds_shift_of_kind (h : v.kind = k) (hk : (k == .endOfInput) = false) :
    shift.Adds [one [k]] v :=
  adds_shift (List.mem_singleton.mpr h)
    fun hm => beq_eq_false_iff_ne.mp hk (List.mem_singleton.mp hm).symm

theorem adds_expect (hk : (k == .endOfInput) = false) : (expect k).Adds [one [k]] v :=
  adds_ite (fun h => adds_shift_of_kind (kind_of_sees h) hk) fun _ => adds_of_fails fails_missing

/-- Who has read one token sees the tokens after it. -/
theorem nth_of_tail {w : Lookahead} (h : w.ahead = v.ahead.tail) (n : Nat) :
    w.nth n = v.nth (n + 1) := by
  simp [Lookahead.nth, Token.kindAt, h]

theorem adds_andThen (hp : p.Adds s v) (hq : ∀ w, p.After v w → q.Adds t w) :
    (andThen p q).Adds (s ++ t) v := by
  refine fun c => .inr ⟨c ++ s, hp c, fun w hw => ?_⟩
  rw [← List.append_assoc]
  exact hq w hw (c ++ s)

theorem adds_seq_cons (hp : p.Adds s v) (hq : ∀ w, p.After v w → (seq (q :: ps)).Adds t w) :
    (seq (p :: q :: ps)).Adds (s ++ t) v :=
  adds_andThen hp hq

theorem adds_expectThen (hk : (k == .endOfInput) = false) (hp : ∀ w, p.Adds s w) :
    (expectThen k p).Adds (one [k] :: s) v :=
  adds_ite (fun h => adds_andThen (adds_shift_of_kind (kind_of_sees h) hk) fun w _ => hp w)
    fun _ => adds_of_fails fails_missing

/-- Tokens that are known before they are read. -/
theorem adds_shifts_succ {n : Nat} (h : v.kind = k) (hk : (k == .endOfInput) = false)
    (hn : ∀ w, w.ahead = v.ahead.tail → (shifts n).Adds s w) :
    (shifts (n + 1)).Adds (one [k] :: s) v :=
  adds_andThen (adds_shift_of_kind h hk) hn

theorem adds_shifts_any {n : Nat} : (shifts n).Adds [Shape.many Kind.significant] v := by
  induction n generalizing v with
  | zero => exact adds_weaken adds_done (le_of_covers rfl)
  | succ n ih =>
    refine adds_weaken (adds_andThen adds_shift_any fun _ _ => ih) (le_of_covers ?_)
    simp [covers, opt, Shape.many]

/-- What makes no more than a report reads nothing. -/
theorem turns_quiet_cons (hp : p = done ∨ ∃ fault, p = report fault)
    (h : ∀ w, w.ahead = v.ahead → (seq (q :: ps)).Turns c d w) :
    (seq (p :: q :: ps)).Turns c d v := by
  obtain rfl | ⟨fault, rfl⟩ := hp
  · exact .inr ⟨c, Le.refl c, h⟩
  · exact .inr ⟨c, .inr (Le.refl c), h⟩

theorem turns_seq_cons (hp : p.Turns c t v) (hq : ∀ w, p.After v w → (seq (q :: ps)).Turns t d w) :
    (seq (p :: q :: ps)).Turns c d v :=
  .inr ⟨t, hp, hq⟩

theorem adds_group (h : p.Turns [] s v) : (group p).Adds s v := fun _ => ⟨s, h, Le.refl _⟩

theorem turns_wrap (h : p.Adds s v) (hk : k ∈ Kind.productions) (hs : Le (c ++ s) k.shape) :
    (wrap k p).Turns c [one [k]] v :=
  ⟨c ++ s, h c, hk, hs, Le.refl _⟩

theorem adds_node (h : (seq ps).Adds s v) (hk : k ∈ Kind.productions)
    (hs : s.covers k.shape = true) : (node k ps).Adds [one [k]] v :=
  adds_group (turns_wrap h hk (le_of_covers hs))

theorem adds_call {rule : Nonterminal} (h : rule.Ready v) : (call rule).Adds rule.adds v :=
  fun _ => ⟨h, Le.refl _⟩

theorem adds_inContext {context : Context} (h : p.Adds s { v with context }) :
    (inContext context p).Adds s v := h

theorem adds_opening {block : OpenConstruct}
    (h : p.Adds s { v with constructs := block :: v.constructs }) :
    (opening block p).Adds s v := h

theorem adds_deeper (h : p.Adds s v) : (deeper p).Adds s v :=
  fun c => ⟨h c, turns_of_fails (fails_fault (v := v))⟩

theorem adds_before (h : v.sees k = true → p.Adds s v) : (before k p).Adds s.maybe v :=
  adds_ite (fun hk => adds_weaken (h hk) (le_maybe s)) fun _ =>
    adds_weaken adds_done (le_nil_maybe s)

theorem turns_before (hp : v.sees k = true → p.Turns c d v) (hc : Le c d) :
    (before k p).Turns c d v := by
  by_cases h : v.sees k = true
  · rw [before, Turns, if_pos h]
    exact hp h
  · rw [before, Turns, if_neg h]
    exact hc

theorem adds_unless {b : Prop} [Decidable b] (h : ¬ b → p.Adds s v) :
    (if b then done else p).Adds s.maybe v :=
  adds_ite (fun _ => adds_weaken adds_done (le_nil_maybe s)) fun hb =>
    adds_weaken (h hb) (le_maybe s)

theorem adds_when {b : Prop} [Decidable b] (h : b → p.Adds s v) :
    (if b then p else done).Adds s.maybe v :=
  adds_ite (fun hb => adds_weaken (h hb) (le_maybe s)) fun _ =>
    adds_weaken adds_done (le_nil_maybe s)

theorem adds_many {continues : Lookahead → Bool} {item : Option Lookahead → Production}
    (h : ∀ before w, continues w = true → (item before).Adds s w) :
    (many continues item).Adds [Shape.many s.kinds] v := by
  intro c
  refine ⟨c ++ [Shape.many s.kinds], Le.append_nil c (le_of_covers rfl), Le.refl _,
    fun before w hw => (h before w hw _).weaken ?_⟩
  rw [List.append_assoc]
  exact Le.append_left c (le_many_kinds s)

theorem adds_separated (hk : (k == .endOfInput) = false) (h : ∀ w, p.Adds s w) :
    (separated k p).Adds [Shape.many (k :: s.kinds)] v := by
  have hrest : ∀ w, (many (·.sees k) fun _ => andThen shift p).Adds
      [Shape.many (Shape.kinds (one [k] :: s))] w :=
    fun w => adds_many fun _ w hw =>
      adds_andThen (adds_shift_of_kind (kind_of_sees hw) hk) fun w _ => h w
  refine adds_weaken (adds_andThen (h v) fun w _ => hrest w) fun l hl =>
    matches_many fun l' hm => ?_
  have := mem_kinds hl l' hm
  simpa [kinds, Shape.many, one, or_left_comm] using this

theorem adds_repeatUntil {stop : Lookahead → Bool}
    (h : ∀ w, w.atEnd = false → stop w = false → p.Adds s w) :
    (repeatUntil stop p).Adds [Shape.many s.kinds] v := by
  refine adds_many fun _ w hw => ?_
  simp only [Bool.and_eq_true, Bool.not_eq_true'] at hw
  have hrest : ∀ u, (look fun v =>
      if v.index = w.index ∧ !v.atEnd then
        skipUntil .unexpectedToken
          ("unexpected " ++ v.kind.displayName ++ " " ++ v.context.description) []
      else done).Adds [] u :=
    fun u => adds_ite (fun _ => adds_of_fails fails_fault) fun _ => adds_done
  have hall := adds_andThen (h w hw.1 hw.2) fun u _ => hrest u
  rwa [List.append_nil] at hall

end Production

end Modelica
