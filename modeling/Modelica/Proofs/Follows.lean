import Modelica.Proofs.Builds

/-!
# One routine does what another does

Two routines may say the same in different ways: a loop may be left by `break` or by its test, and
what lies ahead may be looked at sooner or later. `Routine.Follows p q` says that whatever `p` gets
done without a trip, `q` gets done in the same way; `Routine.FollowsFrom` says it of one builder.
-/

namespace Modelica

variable {keeps : Builder → Builder → Prop} {α β : Type} {b b' : Builder}

namespace Routine

/-- From `b`, the second routine does what the first does. -/
def FollowsFrom (b : Builder) (p q : Routine α) : Prop :=
  ∀ keeps x b', Builds keeps p b x b' → Builds keeps q b x b'

/-- The second routine does what the first does. -/
def Follows (p q : Routine α) : Prop := ∀ b, FollowsFrom b p q

variable {p q r : Routine α}

theorem FollowsFrom.refl (p : Routine α) : FollowsFrom b p p := fun _ _ _ h => h

theorem FollowsFrom.of_eq (h : p = q) : FollowsFrom b p q := h ▸ .refl p

theorem Follows.refl (p : Routine α) : Follows p p := fun _ => .refl p

theorem Follows.of_eq (h : p = q) : Follows p q := h ▸ .refl p

theorem FollowsFrom.trans (hp : FollowsFrom b p q) (hq : FollowsFrom b q r) : FollowsFrom b p r :=
  fun keeps x b' h => hq keeps x b' (hp keeps x b' h)

theorem Follows.trans (hp : Follows p q) (hq : Follows q r) : Follows p r :=
  fun b => (hp b).trans (hq b)

theorem FollowsFrom.bind {f f' : α → Routine β} (hp : FollowsFrom b p q)
    (hf : ∀ keeps x m, Builds keeps p b x m → FollowsFrom m (f x) (f' x)) :
    FollowsFrom b (p >>= f) (q >>= f') := by
  intro keeps y b' h
  obtain ⟨x, m, h, h'⟩ := builds_bind.mp h
  exact (hp keeps x m h).bind (hf keeps x m h keeps y b' h')

theorem Follows.bind {f f' : α → Routine β} (hp : Follows p q) (hf : ∀ x, Follows (f x) (f' x)) :
    Follows (p >>= f) (q >>= f') :=
  fun b => (hp b).bind fun _ x m _ => hf x m

/-- Both begin with the same. -/
theorem Follows.after {f f' : α → Routine β} (hf : ∀ x, Follows (f x) (f' x)) :
    Follows (p >>= f) (p >>= f') :=
  (Follows.refl p).bind hf

/-- Both begin with the same, and go on from where it has led. -/
theorem FollowsFrom.after {f f' : α → Routine β}
    (hf : ∀ keeps x m, Builds keeps p b x m → FollowsFrom m (f x) (f' x)) :
    FollowsFrom b (p >>= f) (p >>= f') :=
  (FollowsFrom.refl p).bind hf

theorem FollowsFrom.look_left {f : Lookahead → Routine α} (h : FollowsFrom b (f b.look) q) :
    FollowsFrom b (look >>= f) q :=
  fun keeps x b' hp => h keeps x b' (builds_look.mp hp)

theorem FollowsFrom.look_right {f : Lookahead → Routine α} (h : FollowsFrom b p (f b.look)) :
    FollowsFrom b p (look >>= f) :=
  fun keeps x b' hp => builds_look.mpr (h keeps x b' hp)

theorem eat_seen {k : Kind} {f : Unit → Routine α} (h : b.look.sees k = true) :
    FollowsFrom b (eat k >>= f) (bump >>= f) := by
  simp only [eat, ate, sees, bind_assoc, pure_bind, ite_bind]
  refine .look_left ?_
  rw [if_pos h]
  exact .refl _

theorem eat_unseen {k : Kind} {f : Unit → Routine α} (h : b.look.sees k = false) :
    FollowsFrom b (eat k >>= f) (f ()) := by
  simp only [eat, ate, sees, bind_assoc, pure_bind, ite_bind]
  refine .look_left ?_
  rw [if_neg (Bool.eq_false_iff.mp h)]
  exact .refl _

/-- Nothing that can be looked at is changed. -/
def Quiet (p : Routine α) : Prop := ∀ keeps b x m, Builds keeps p b x m → m.look = b.look

theorem quiet_startNode (kind : Kind) : Quiet (startNode kind) := by
  intro keeps b x m h
  cases h with
  | act ha hr =>
    cases hr
    obtain ⟨w, hw, he⟩ := Option.map_eq_some_iff.mp ha
    cases he
    exact (Builder.look_of_flushLeading hw).trans rfl

theorem quiet_error (code : Code) (message : String) : Quiet (error code message) := by
  intro keeps b x m h
  cases builds_look.mp h with
  | act ha hr =>
    cases ha
    cases hr
    rfl

theorem ahead_of_bump {m : Builder} (h : Builds keeps bump b () m) : m.ahead = b.ahead.tail := by
  cases h with
  | act ha hr =>
    cases hr
    obtain ⟨w, hw, he⟩ := Option.map_eq_some_iff.mp ha
    cases he
    exact Builder.ahead_of_read hw

/-- A quiet routine may as well come first. -/
theorem Quiet.follows_look {f : Lookahead → α → Routine β} (h : Quiet p) :
    Follows (look >>= fun v => p >>= f v) (p >>= fun x => look >>= fun v => f v x) :=
  fun _ => .look_left <| .after fun _ _ _ hp => .look_right (h _ _ _ _ hp ▸ .refl _)

/-- After a quiet routine there is nothing new to be seen. -/
theorem Quiet.followsFrom {f : Lookahead → α → Routine β} (h : Quiet p) :
    FollowsFrom b (p >>= fun x => look >>= fun v => f v x) (p >>= f b.look) :=
  .after fun _ _ _ hp => .look_left (h _ _ _ _ hp ▸ .refl _)

section

variable {σ : Type} {turn : Unit → σ → Routine (ForInStep σ)} {next l : σ → Routine α}

/-- A loop takes one turn and, unless it is left, goes on. -/
theorem turn_follows (hl : ∀ vars, l vars = forIn forever vars turn >>= next) (vars : σ) :
    Follows (turn () vars >>= fun
      | .yield vars => l vars
      | .done vars => next vars) (l vars) := by
  intro b keeps x b' h
  obtain ⟨s, m, ht, hn⟩ := builds_bind.mp h
  rw [hl]
  cases s with
  | yield s =>
    simp only [hl] at hn
    exact .turn ht hn
  | done s => exact .stop ht hn

theorem follows_turn (hl : ∀ vars, l vars = forIn forever vars turn >>= next) (vars : σ) :
    Follows (l vars) (turn () vars >>= fun
      | .yield vars => l vars
      | .done vars => next vars) := by
  intro b keeps x b' h
  refine builds_bind.mpr ?_
  rw [hl] at h
  cases h with
  | turn ht hn =>
    refine ⟨_, _, ht, ?_⟩
    simp only [hl]
    exact hn
  | stop ht hn => exact ⟨_, _, ht, hn⟩

end

/-- A repetition is followed by whatever, told how the last turn began, takes a turn where the test
holds and goes on as after the repetition where it does not. -/
theorem follows_repeatWhile {test : Lookahead → Bool} {body : Option Lookahead → Routine Unit}
    {k : Routine α} {q : Option Lookahead → Routine α}
    (hturn : ∀ b before, test b.look = true →
      FollowsFrom b (body before >>= fun _ => q (some b.look)) (q before))
    (hstop : ∀ b before, test b.look = false → FollowsFrom b k (q before)) :
    Follows (repeatWhile test body >>= fun _ => k) (q none) := by
  intro b keeps x b' h
  change Builds keeps (.loop none _ fun _ => k) b x b' at h
  generalize hb : (none : Option Lookahead) = before at h ⊢
  clear hb
  generalize hl : Routine.loop _ _ _ = l at h
  induction h generalizing before with
  | ret | act | call => cases hl
  | @turn _ _ _ _ _ _ _ b _ _ ht _ _ ih =>
    cases hl
    replace ht := builds_look.mp ht
    by_cases hc : test b.look = true
    · simp only [hc, Bool.not_true, Bool.false_eq_true, if_false] at ht
      obtain ⟨_, m, hm, hr⟩ := builds_bind.mp ht
      cases hr
      exact hturn b before hc keeps _ _ (hm.bind (ih hturn hstop _ rfl))
    · simp only [hc, Bool.not_false, if_true] at ht
      cases ht
  | @stop _ _ _ _ _ _ _ b _ _ ht hk _ =>
    cases hl
    replace ht := builds_look.mp ht
    by_cases hc : test b.look = true
    · simp only [hc, Bool.not_true, Bool.false_eq_true, if_false] at ht
      obtain ⟨_, m, _, hr⟩ := builds_bind.mp ht
      cases hr
    · simp only [hc, Bool.not_false, if_true] at ht
      cases ht
      exact hstop b before (Bool.eq_false_iff.mpr hc) keeps _ _ hk

/-- A repetition is followed by a loop that has the same turns: it goes on where the test holds,
with what its variables say of the last turn, and is left where the test does not hold. -/
theorem follows_loop {σ : Type} {turn : Unit → σ → Routine (ForInStep σ)}
    {next l : σ → Routine α} {test : Lookahead → Bool} {body : Option Lookahead → Routine Unit}
    {k : Routine α}
    (hl : ∀ vars, l vars = forIn forever vars turn >>= next) (vars : Option Lookahead → σ)
    (hturn : ∀ b before, test b.look = true →
      FollowsFrom b (body before >>= fun _ => l (vars (some b.look)))
        (turn () (vars before) >>= fun
          | .yield vars => l vars
          | .done vars => next vars))
    (hstop : ∀ b before, test b.look = false →
      FollowsFrom b k (turn () (vars before) >>= fun
        | .yield vars => l vars
        | .done vars => next vars)) :
    Follows (repeatWhile test body >>= fun _ => k) (l (vars none)) :=
  follows_repeatWhile (q := fun before => l (vars before))
    (fun b before hc => (hturn b before hc).trans (turn_follows hl _ b))
    fun b before hc => (hstop b before hc).trans (turn_follows hl _ b)

/-- A loop that is left in the middle of a turn. -/
theorem follows_leftInTurn {test : Lookahead → Bool} {item step : Routine Unit} {k : Routine α} :
    Follows (item >>= fun _ => repeatWhile test (fun _ => step >>= fun _ => item) >>= fun _ => k)
      (forIn forever () (fun _ _ => item >>= fun _ => look >>= fun v =>
        if test v then step >>= fun _ => pure (.yield ()) else pure (.done ())) >>=
        fun _ => k) := by
  generalize hl : forIn forever () _ >>= (fun _ => k) = l
  have hloop : Follows (item >>= fun _ => look >>= fun v =>
      if test v then step >>= fun _ => l else k) l :=
    .trans (.of_eq (by simp [ite_bind])) (turn_follows (fun _ => hl.symm) ())
  refine .trans (.after fun _ => ?_) hloop
  refine follows_repeatWhile (q := fun _ => look >>= fun v =>
    if test v then step >>= fun _ => l else k) (fun b _ hc => .look_right ?_)
    fun b _ hc => .look_right ?_
  · simp only [hc, if_true, bind_assoc]
    exact .after fun _ _ m _ => hloop m
  · simp only [hc, Bool.false_eq_true, if_false]
    exact .refl k

theorem follows_separated {separator : Kind} {item k : Routine Unit} :
    Follows (separated separator item >>= fun _ => k)
      (forIn forever () (fun _ _ => item >>= fun _ => look >>= fun v =>
        if v.sees separator then bump >>= fun _ => pure (.yield ()) else pure (.done ())) >>=
        fun _ => k) := by
  simp only [separated, bind_assoc]
  exact follows_leftInTurn

end Routine

end Modelica
