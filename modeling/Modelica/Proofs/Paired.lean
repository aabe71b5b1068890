import Modelica.Proofs.Follows

/-!
# Productions as routines

A production has what it begins and ends in one step: a context with what is read in it, a node
with what goes into it. `Production.paired` spells the steps out as calls, each ending right after
what it is around. Whether the routine of a rule does the same is to be seen rule by rule, since
its calls stand alone and may be left out on a way through it.
-/

namespace Modelica

open Routine in
/-- The calls of a production, in a group that began at `mark`. -/
@[simp] def Production.paired : Production → Nat → Routine Unit
  | done, _ => pure ()
  | andThen p q, mark => do
    p.paired mark
    q.paired mark
  | shift, _ => bump
  | group (wrap kind p), mark => do
    startNode kind
    p.paired mark
    finishNode
  | group p, _ => do
    let mark ← checkpoint
    p.paired mark
  | wrap kind p, mark => do
    startNodeAt mark kind
    p.paired mark
    finishNode
  | look next, mark => do
    let v ← Routine.look
    (next v).paired mark
  | many continues item, mark => repeatWhile continues fun before => (item before).paired mark
  | call callee, _ => rule callee
  | report fault, _ => Routine.report fault
  | inContext context p, mark => withContext context (p.paired mark)
  | opening block p, mark => do
    openConstruct block
    p.paired mark
    closeConstruct
  | nested p q, mark => do
    if (← enterNesting) then
      p.paired mark
      exitNesting
    else
      q.paired mark
      exitNesting

namespace Production

open Routine

variable {p q : Production} {ps : List Production} {k : Kind} {mark : Nat} {code : Code}
variable {message : String} {kinds : List Kind}

@[simp] theorem paired_ite {c : Prop} [Decidable c] :
    (if c then p else q).paired mark = if c then p.paired mark else q.paired mark := by
  split <;> rfl

@[simp] theorem paired_seq_nil : (seq []).paired mark = pure () := rfl

@[simp] theorem paired_seq_cons :
    (seq (p :: ps)).paired mark = p.paired mark >>= fun _ => (seq ps).paired mark := by
  cases ps with
  | nil => simp [seq]
  | cons => rfl

@[simp] theorem paired_node : (node k ps).paired mark =
    startNode k >>= fun _ => (seq ps).paired mark >>= fun _ => finishNode := rfl

@[simp] theorem paired_group_seq : (group (seq (p :: q :: ps))).paired mark =
    checkpoint >>= fun mark => (seq (p :: q :: ps)).paired mark := rfl

@[simp] theorem paired_fault : (fault code message).paired mark = error code message := rfl

@[simp] theorem paired_missing : (missing code kinds).paired mark = errorExpected code kinds := rfl

@[simp] theorem paired_separated : (Production.separated k p).paired mark =
    Routine.separated k (p.paired mark) := rfl

@[simp] theorem paired_accept : (accept k).paired mark = eat k := by
  simp only [accept, paired, paired_ite, eat, ate, sees, bind_assoc, pure_bind, Routine.ite_bind,
    bind_pure_unit]

@[simp] theorem paired_expectThen : (expectThen k p).paired mark =
    (do if (← expected k) then p.paired mark) := by
  simp [expectThen, expected, sees]

@[simp] theorem paired_expect : (Production.expect k).paired mark = Routine.expect k := by
  simp only [Production.expect, paired, paired_ite, paired_missing, Routine.expect, expected, sees,
    bind_assoc, pure_bind, Routine.ite_bind, bind_pure_unit]

@[simp] theorem paired_skipUntil :
    (skipUntil code message kinds).paired mark = errorRecover code message kinds := by
  simp [skipUntil, errorRecover, Routine.atEnd]

@[simp] theorem paired_repeatUntil {stop : Lookahead → Bool} :
    (Production.repeatUntil stop p).paired mark =
      Routine.repeatUntil stop (p.paired mark) := by
  simp [Production.repeatUntil, Routine.repeatUntil]

/-- A test before each turn stops where a `break` does. -/
theorem follows_skipThroughSemicolon :
    Follows ((skipThroughSemicolon code message).paired mark)
      (recoverThroughSemicolon code message) := by
  simp only [skipThroughSemicolon, paired, paired_fault, paired_ite, paired_node, paired_seq_cons,
    paired_seq_nil, paired_accept, recoverThroughSemicolon]
  refine .after fun _ => .after fun start => ?_
  split
  · exact .refl _
  simp only [bind_assoc, bind_pure_unit]
  refine .after fun _ => ?_
  generalize hl : (forIn forever () _ : Routine Unit) >>= (fun _ => finishNode) = l
  have hloop : Follows (do
      if (← Routine.look).atEnd then finishNode
      else if (← Routine.look).sees .semicolon then do
        bump
        finishNode
      else do
        let v ← Routine.look
        if v.index != start.index && v.atSectionBoundary then finishNode
        else do
          bump
          l) l :=
    .trans (.of_eq (by simp [Routine.ite_bind, Routine.atEnd, ate, sees]))
      (turn_follows (fun _ => hl.symm) ())
  refine follows_repeatWhile (q := fun _ => l) (fun b _ hc => .trans (.look_right ?_) (hloop b))
    fun b _ hc => .trans (.look_right ?_) (hloop b)
  · simp only [Bool.and_eq_true, Bool.not_eq_true'] at hc
    obtain ⟨⟨he, hs⟩, hb⟩ := hc
    rw [if_neg (by simp [he])]
    refine .look_right ?_
    rw [if_neg (by simp [hs])]
    refine .look_right ?_
    rw [if_neg (by simp [hb])]
    exact .refl _
  · by_cases hs : b.look.sees .semicolon = true
    · have he : ¬ b.look.atEnd = true := by
        simp only [Lookahead.sees, beq_iff_eq] at hs
        simp [Lookahead.atEnd, Lookahead.sees, hs]
      rw [if_neg he]
      refine .look_right ?_
      rw [if_pos hs]
      exact eat_seen hs
    · refine .trans (eat_unseen (Bool.eq_false_iff.mpr hs)) ?_
      split
      · exact .refl _
      · rename_i he
        refine .look_right ?_
        rw [if_neg hs]
        refine .look_right ?_
        rw [if_pos (by simpa [he, hs] using hc)]
        exact .refl _

/-- Counting brackets ahead, or while skipping them. -/
theorem follows_shifts {f : Unit → Nat → Routine (ForInStep Nat)} {k : Routine Unit}
    (hf : ∀ depth, f () depth = Routine.look >>= fun v =>
      if v.ahead.isEmpty then pure (.done depth)
      else if Token.opensGroup v.kind then bump >>= fun _ => pure (.yield (depth + 1))
      else if Token.closesGroup v.kind then
        if depth = 0 then pure (.done depth) else bump >>= fun _ => pure (.yield (depth - 1))
      else if v.kind = .semicolon ∧ depth = 0 then pure (.done depth)
      else bump >>= fun _ => pure (.yield depth)) (ts : List Token) :
    ∀ (depth : Nat) (b : Builder), b.ahead = ts →
      FollowsFrom b ((shifts (Token.nestedExtent depth ts)).paired mark >>= fun _ => k)
        (forIn forever depth f >>= fun _ => k) := by
  have hloop :=
    turn_follows (l := fun depth => forIn forever depth f >>= fun _ => k) (fun _ => rfl)
  induction ts with
  | nil =>
    intro depth b hb
    refine .trans ?_ (hloop depth b)
    simp only [hf, bind_assoc]
    refine .look_right ?_
    rw [if_pos (by simp [Builder.look, hb])]
    exact .refl _
  | cons t ts ih =>
    intro depth b hb
    have hkind : b.look.kind = t.kind := by simp [Builder.look, hb, Lookahead.kind, Token.headKind]
    refine .trans ?_ (hloop depth b)
    simp only [hf, bind_assoc]
    refine .look_right ?_
    rw [if_neg (by simp [Builder.look, hb]), hkind]
    have hbump (d : Nat) : FollowsFrom b
        ((shifts (1 + Token.nestedExtent d ts)).paired mark >>= fun _ => k)
        (bump >>= fun _ => forIn forever d f >>= fun _ => k) := by
      rw [Nat.add_comm]
      exact .after fun _ _ m hm => ih d m ((ahead_of_bump hm).trans (by rw [hb]; rfl))
    by_cases ho : Token.opensGroup t.kind = true
    · simpa [Token.nestedExtent, ho] using hbump (depth + 1)
    by_cases hc : Token.closesGroup t.kind = true
    · cases depth with
      | zero => simpa [Token.nestedExtent, ho, hc] using .refl k
      | succ d => simpa [Token.nestedExtent, ho, hc] using hbump d
    by_cases hs : t.kind = .semicolon ∧ depth = 0
    · simpa [Token.nestedExtent, ho, hc, hs] using .refl k
    · simpa [Token.nestedExtent, ho, hc, hs] using hbump depth

theorem follows_skipNested : Follows (skipNested.paired mark) Routine.skipNested := by
  simp only [skipNested, paired, paired_fault, paired_node, paired_seq_cons, paired_seq_nil,
    bind_pure_unit, Routine.skipNested]
  refine .after fun _ => .trans (quiet_startNode _).follows_look (.after fun _ => ?_)
  refine fun b => .look_left (follows_shifts (fun depth => ?_) _ _ b rfl)
  congr 1
  funext v
  split
  · rfl
  · split
    case h_8 =>
      have ho : Token.opensGroup v.kind = false := by unfold Token.opensGroup; split <;> simp_all
      have hc : Token.closesGroup v.kind = false := by unfold Token.closesGroup; split <;> simp_all
      simp_all
    all_goals simp_all [Token.opensGroup, Token.closesGroup]

end Production

end Modelica
