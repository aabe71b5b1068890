import Modelica.Proofs.Building
import Modelica.Proofs.Remains

/-!
# What productions yield in any case

`Production.Turns` says what a production builds where it reports no error, and
`Production.Yields c d v` what it builds in any case: run at `v`, it takes trees of the shapes `c`
to trees of the shapes `d`, trivia and `error` nodes not counted. A call yields what may be left of
`Nonterminal.adds`. `Production.Gives vs v` is the same for a production that leaves the trees
before it alone.
-/

namespace Modelica

open Shape

namespace Production

/-- Run at `v`, the production takes trees of the shapes `c` to trees of the shapes `d`. -/
def Yields : Production → Variants → Variants → Lookahead → Prop
  | done, c, d, _ | report _, c, d, _ => c.Le d
  | andThen p q, c, d, v => ∃ m, p.Yields c m v ∧ ∀ w, p.After v w → q.Yields m d w
  | shift, c, d, v =>
    ∃ ks, (v.kind ∈ ks ∨ Kind.significant ⊆ ks) ∧ (v.ahead = [] → c.Le d) ∧
      (c.join [[one ks]]).Le d
  | group p, c, d, v => ∃ vs, p.Yields [[]] vs v ∧ (c.join vs).Le d
  | wrap k p, c, d, v => ∃ vs, p.Yields c vs v ∧
      (k = .error ∧ Variants.Le [[]] d ∨
        k ∈ Kind.productions ∧ vs.Le k.remains ∧ Variants.Le [[one [k]]] d)
  | look next, c, d, v => (next v).Yields c d v
  | many continues item, c, d, _ =>
    ∃ m, c.Le m ∧ m.Le d ∧ ∀ before w, continues w = true → (item before).Yields m m w
  | call rule, c, d, v => rule.Ready v ∧ (c.join [rule.adds.maybe]).Le d
  | inContext context p, c, d, v => p.Yields c d { v with context }
  | opening block p, c, d, v => p.Yields c d { v with constructs := block :: v.constructs }
  | nested p q, c, d, v => p.Yields c d v ∧ q.Yields c d v

/-- Run at `v`, the production adds trees of the shapes `vs` to those before it. -/
def Gives (p : Production) (vs : Variants) (v : Lookahead) : Prop := ∀ c, p.Yields c (c.join vs) v

variable {p q : Production} {l : List Production} {c d vs ws : Variants} {s t : Shape}
variable {v : Lookahead} {k : Kind} {ks : List Kind}

theorem Yields.weaken (h : p.Yields c d v) (hd : d.Le ws) : p.Yields c ws v := by
  induction p generalizing c d ws v with
  | done | report fault => exact h.trans hd
  | andThen p q _ ihq =>
    obtain ⟨m, hp, hq⟩ := h
    exact ⟨m, hp, fun w hw => ihq (hq w hw) hd⟩
  | shift =>
    obtain ⟨ks, hk, hn, hs⟩ := h
    exact ⟨ks, hk, fun he => (hn he).trans hd, hs.trans hd⟩
  | group p =>
    obtain ⟨vs, hp, hs⟩ := h
    exact ⟨vs, hp, hs.trans hd⟩
  | wrap k p =>
    obtain ⟨vs, hp, ⟨hk, hl⟩ | ⟨hk, hs, hl⟩⟩ := h
    · exact ⟨vs, hp, .inl ⟨hk, hl.trans hd⟩⟩
    · exact ⟨vs, hp, .inr ⟨hk, hs, hl.trans hd⟩⟩
  | look next ih => exact ih _ h hd
  | many continues item =>
    obtain ⟨m, hc, hm, hi⟩ := h
    exact ⟨m, hc, hm.trans hd, hi⟩
  | call rule => exact ⟨h.1, h.2.trans hd⟩
  | inContext context p ih | opening block p ih => exact ih h hd
  | nested p q ihp ihq => exact ⟨ihp h.1 hd, ihq h.2 hd⟩

theorem gives_weaken (h : p.Gives vs v) (hs : vs.Le ws) : p.Gives ws v :=
  fun c => (h c).weaken (.join_left c hs)

theorem gives_of_covers (h : p.Gives vs v) (hs : vs.covers ws = true) : p.Gives ws v :=
  gives_weaken h (Variants.le_of_covers hs)

/-- A production that starts a group. -/
theorem yields_of_gives (h : p.Gives vs v) : p.Yields [[]] vs v :=
  (h [[]]).weaken fun ks hk => by
    obtain ⟨x, y, rfl, hx, hy⟩ := Variants.matches_join.mp hk
    rwa [matches_nil (Variants.matches_singleton.mp hx)]

theorem gives_look {next : Lookahead → Production} (h : (next v).Gives vs v) :
    (look next).Gives vs v := h

theorem yields_look {next : Lookahead → Production} (h : (next v).Yields c d v) :
    (look next).Yields c d v := h

theorem gives_ite {b : Prop} [Decidable b] (hp : b → p.Gives vs v) (hq : ¬ b → q.Gives vs v) :
    (if b then p else q).Gives vs v := by
  split
  · exact hp ‹_›
  · exact hq ‹_›

theorem yields_ite {b : Prop} [Decidable b] (hp : b → p.Yields c d v)
    (hq : ¬ b → q.Yields c d v) : (if b then p else q).Yields c d v := by
  split
  · exact hp ‹_›
  · exact hq ‹_›

theorem gives_done : done.Gives [[]] v := fun c => (Variants.join_nil c).symm ▸ .refl c

theorem gives_report {fault : Diagnostic Spot} : (report fault).Gives [[]] v :=
  fun c => (Variants.join_nil c).symm ▸ .refl c

theorem gives_fault {code : Code} {message : String} : (fault code message).Gives [[]] v :=
  gives_look gives_report

theorem gives_missing {code : Code} : (missing code ks).Gives [[]] v :=
  gives_look gives_report

theorem gives_shift (h : v.kind ∈ ks) (hk : .endOfInput ∉ ks) : shift.Gives [[one ks]] v :=
  fun _ => ⟨ks, .inl h, fun hn => absurd hn (ahead_ne_nil h hk), .refl _⟩

theorem gives_shift_of_kind (h : v.kind = k) (hk : (k == .endOfInput) = false) :
    shift.Gives [[one [k]]] v :=
  gives_shift (List.mem_singleton.mpr h)
    fun hm => beq_eq_false_iff_ne.mp hk (List.mem_singleton.mp hm).symm

/-- Any token may come, or none. -/
theorem gives_shift_any : shift.Gives [[opt Kind.significant]] v := fun c =>
  ⟨Kind.significant, .inr (List.Subset.refl _),
    fun _ => .join_nil c (Variants.le_singleton le_nil_opt),
    .join_left c (Variants.le_singleton le_one_opt)⟩

theorem gives_opt (h : v.kind ∈ ks) (hk : .endOfInput ∉ ks) : shift.Gives [[opt ks]] v :=
  gives_weaken (gives_shift h hk) (Variants.le_singleton le_one_opt)

theorem gives_nothing (h : p.Gives [[]] v) : p.Gives [s.maybe] v :=
  gives_weaken h (Variants.le_nil_maybe s)

theorem gives_expect (hk : (k == .endOfInput) = false) : (expect k).Gives [[opt [k]]] v :=
  gives_ite (fun h => gives_weaken (gives_shift_of_kind (kind_of_sees h) hk)
    (Variants.le_singleton le_one_opt)) fun _ => gives_nothing (s := [one [k]]) gives_missing

theorem gives_accept (hk : (k == .endOfInput) = false) : (accept k).Gives [[opt [k]]] v :=
  gives_ite (fun h => gives_weaken (gives_shift_of_kind (kind_of_sees h) hk)
    (Variants.le_singleton le_one_opt)) fun _ => gives_nothing (s := [one [k]]) gives_done

theorem gives_acceptAny (hk : .endOfInput ∉ ks) : (acceptAny ks).Gives [[opt ks]] v :=
  gives_ite (fun h => gives_opt (mem_of_seesAny h) hk)
    fun _ => gives_nothing (s := [one ks]) gives_done

theorem gives_andThen (hp : p.Gives vs v) (hq : ∀ w, p.After v w → q.Gives ws w) :
    (andThen p q).Gives (vs.join ws) v := by
  refine fun c => ⟨c.join vs, hp c, fun w hw => ?_⟩
  rw [← Variants.join_assoc]
  exact hq w hw _

theorem gives_seq_join (hp : p.Gives vs v) (hq : ∀ w, p.After v w → (seq (q :: l)).Gives ws w) :
    (seq (p :: q :: l)).Gives (vs.join ws) v :=
  gives_andThen hp hq

theorem gives_seq_cons (hp : p.Gives [s] v)
    (hq : ∀ w, p.After v w → (seq (q :: l)).Gives [t] w) : (seq (p :: q :: l)).Gives [s ++ t] v :=
  gives_seq_join hp hq

/-- A first step that builds nothing. -/
theorem gives_after (hp : p.Gives [[]] v) (hq : ∀ w, p.After v w → (seq (q :: l)).Gives vs w) :
    (seq (p :: q :: l)).Gives vs v := by
  intro c
  have hc := hp c
  rw [Variants.join_nil] at hc
  exact ⟨c, hc, fun w hw => hq w hw c⟩

theorem yields_seq_cons (hp : p.Yields c d v)
    (hq : ∀ w, p.After v w → (seq (q :: l)).Yields d ws w) : (seq (p :: q :: l)).Yields c ws v :=
  ⟨d, hp, hq⟩

theorem gives_expectThen (hk : (k == .endOfInput) = false) (hp : ∀ w, p.Gives [s] w) :
    (expectThen k p).Gives [opt [k] :: s.maybe] v :=
  gives_ite
    (fun h => gives_weaken (gives_andThen (gives_shift_of_kind (kind_of_sees h) hk) fun w _ => hp w)
      (Variants.le_maybe (one [k] :: s)))
    fun _ => gives_nothing (s := one [k] :: s) gives_missing

/-- Tokens that are known before they are read. -/
theorem gives_shifts_succ {n : Nat} (h : v.kind = k) (hk : (k == .endOfInput) = false)
    (hn : ∀ w, w.ahead = v.ahead.tail → (shifts n).Gives [s] w) :
    (shifts (n + 1)).Gives [one [k] :: s] v :=
  gives_andThen (gives_shift_of_kind h hk) hn

theorem gives_shifts_any {n : Nat} : (shifts n).Gives [[Shape.many Kind.significant]] v := by
  induction n generalizing v with
  | zero => exact gives_of_covers gives_done rfl
  | succ n ih =>
    refine gives_weaken (gives_andThen gives_shift_any fun _ _ => ih)
      (Variants.le_singleton (le_of_covers ?_))
    simp [Shape.covers, opt, Shape.many]

theorem gives_group (h : p.Yields [[]] vs v) : (group p).Gives vs v := fun _ => ⟨vs, h, .refl _⟩

theorem yields_wrap (h : p.Gives vs v) (hk : k ∈ Kind.productions)
    (hs : (c.join vs).covers k.remains = true) : (wrap k p).Yields c [[one [k]]] v :=
  ⟨c.join vs, h c, .inr ⟨hk, Variants.le_of_covers hs, .refl _⟩⟩

theorem gives_node (h : (seq l).Gives vs v) (hk : k ∈ Kind.productions)
    (hs : vs.covers k.remains = true) : (node k l).Gives [[one [k]]] v :=
  gives_group ⟨vs, yields_of_gives h, .inr ⟨hk, Variants.le_of_covers hs, .refl _⟩⟩

/-- A production that builds what is left of a node. -/
theorem gives_whole (h : (seq l).Gives k.remains v) (hk : k ∈ Kind.productions) :
    (node k l).Gives [[one [k]]] v :=
  gives_group ⟨k.remains, yields_of_gives h, .inr ⟨hk, .refl _, .refl _⟩⟩

/-- An `error` node does not count, whatever it holds. -/
theorem gives_error (h : (seq l).Gives vs v) : (node .error l).Gives [[]] v :=
  gives_group ⟨vs, yields_of_gives h, .inl ⟨rfl, .refl _⟩⟩

theorem gives_call {rule : Nonterminal} (h : rule.Ready v) :
    (call rule).Gives [rule.adds.maybe] v :=
  fun _ => ⟨h, .refl _⟩

theorem gives_inContext {context : Context} (h : p.Gives vs { v with context }) :
    (inContext context p).Gives vs v := h

theorem gives_opening {block : OpenConstruct}
    (h : p.Gives vs { v with constructs := block :: v.constructs }) :
    (opening block p).Gives vs v := h

theorem gives_before (h : v.sees k = true → p.Gives [s] v) : (before k p).Gives [s.maybe] v :=
  gives_ite (fun hk => gives_weaken (h hk) (Variants.le_maybe s)) fun _ => gives_nothing gives_done

theorem yields_before (hp : v.sees k = true → p.Yields c d v) (hc : c.Le d) :
    (before k p).Yields c d v :=
  yields_ite hp fun _ => hc

theorem gives_unless {b : Prop} [Decidable b] (h : ¬ b → p.Gives [s] v) :
    (if b then done else p).Gives [s.maybe] v :=
  gives_ite (fun _ => gives_nothing gives_done) fun hb => gives_weaken (h hb) (Variants.le_maybe s)

theorem gives_when {b : Prop} [Decidable b] (h : b → p.Gives [s] v) :
    (if b then p else done).Gives [s.maybe] v :=
  gives_ite (fun hb => gives_weaken (h hb) (Variants.le_maybe s)) fun _ => gives_nothing gives_done

theorem gives_many {continues : Lookahead → Bool} {item : Option Lookahead → Production}
    (h : ∀ before w, continues w = true → (item before).Gives [s] w) :
    (many continues item).Gives [[Shape.many s.kinds]] v := by
  intro c
  refine ⟨c.join [[Shape.many s.kinds]], .join_nil c (Variants.le_of_covers rfl), .refl _,
    fun before w hw => (h before w hw _).weaken ?_⟩
  rw [Variants.join_assoc]
  exact .join_left c (Variants.le_singleton (le_many_kinds s))

theorem gives_separated (hk : (k == .endOfInput) = false) (h : ∀ w, p.Gives [s] w) :
    (separated k p).Gives [[Shape.many (k :: s.kinds)]] v := by
  have hrest : ∀ w, (many (·.sees k) fun _ => andThen shift p).Gives
      [[Shape.many (Shape.kinds (one [k] :: s))]] w :=
    fun w => gives_many fun _ w hw =>
      gives_andThen (gives_shift_of_kind (kind_of_sees hw) hk) fun w _ => h w
  refine gives_weaken (gives_andThen (h v) fun w _ => hrest w)
    (Variants.le_singleton fun l hl => matches_many fun l' hm => ?_)
  have := mem_kinds hl l' hm
  simpa [kinds, Shape.many, one, or_left_comm] using this

/-- What is skipped goes into an `error` node. -/
theorem gives_skipUntil {code : Code} {message : String} {recovery : List Kind} :
    (skipUntil code message recovery).Gives [[]] v :=
  gives_after (l := []) gives_fault fun _ _ => gives_look <| gives_ite (fun _ => gives_done)
    fun _ => gives_error <| gives_seq_cons gives_shift_any fun _ _ =>
      gives_many fun _ _ _ => gives_shift_any

theorem gives_skipThroughSemicolon {code : Code} {message : String} :
    (skipThroughSemicolon code message).Gives [[]] v :=
  gives_after (l := []) gives_fault fun _ _ => gives_look <| gives_ite (fun _ => gives_done)
    fun _ => gives_error <| gives_seq_cons (gives_many fun _ _ _ => gives_shift_any)
      fun _ _ => gives_accept rfl

theorem gives_skipNested : skipNested.Gives [[]] v :=
  gives_after (l := []) gives_fault fun _ _ => gives_look <| gives_error gives_shifts_any

theorem gives_deeper (h : p.Gives [s] v) : (deeper p).Gives [s.maybe] v :=
  fun c => ⟨gives_weaken h (Variants.le_maybe s) c, gives_nothing (s := s) gives_skipNested c⟩

theorem gives_repeatUntil {stop : Lookahead → Bool} (h : ∀ w, stop w = false → p.Gives [s] w) :
    (repeatUntil stop p).Gives [[Shape.many s.kinds]] v := by
  refine gives_many fun _ w hw => ?_
  simp only [Bool.and_eq_true, Bool.not_eq_true'] at hw
  have hrest : ∀ u, (look fun v =>
      if v.index = w.index ∧ !v.atEnd then
        skipUntil .unexpectedToken
          ("unexpected " ++ v.kind.displayName ++ " " ++ v.context.description) []
      else done).Gives [[]] u :=
    fun u => gives_ite (fun _ => gives_skipUntil) fun _ => gives_done
  have hall := gives_andThen (h w hw.2) fun u _ => hrest u
  rwa [Variants.join_nil] at hall

end Production

end Modelica
