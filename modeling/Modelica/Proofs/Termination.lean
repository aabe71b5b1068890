import Modelica.Proofs.Orderly

/-!
# Reading ends

The fuel and the repetition bound that a reading gets are never used up, so what
`Production.read` computes is a run without bounds.

The cost of a call grows with the tokens left and, while none is read, falls with the rank.
-/

namespace Modelica

/-- The task may end at `v` with nothing read. -/
def Task.MayStall : Task → Lookahead → Prop
  | of p, v => p.MayStall v
  | rest continues _ _, v => continues v = false

/-- Every turn of a repetition reads a token. -/
def Task.Tame : Task → Prop
  | of p => p.Tame
  | rest continues item _ => (Production.many continues item).Tame

/-- Who has read nothing looks at the same place. -/
theorem Reading.Leads.look_eq {r r' : Reading} {env : Surroundings} (h : r.Leads r')
    (hl : r'.ahead.length = r.ahead.length) : r'.look env = r.look env := by
  obtain ⟨ha, hi⟩ := h.same hl
  simp [Reading.look, ha, hi]

theorem Runs.mayStall {allowed : Diagnostic Spot → Prop} {task : Task} {env : Surroundings}
    {r r' : Reading} (h : Runs allowed task env r r') (ht : task.Tame)
    (hl : r'.ahead.length = r.ahead.length) : task.MayStall (r.look env) := by
  induction h with
  | done | report _ => exact True.intro
  | andThen hp hq ihp ihq =>
    have hm := Nat.le_antisymm hp.leads.length_le (hl ▸ hq.leads.length_le)
    refine ⟨ihp ht.1 hm, ?_⟩
    rw [← hp.leads.look_eq hm]
    exact ihq ht.2 (hl.trans hm.symm)
  | @shift env r =>
    cases ha : r.ahead with
    | nil => exact ha
    | cons t ts => simp [Reading.shift_cons ha, ha] at hl
  | group _ ih | wrap _ ih | many _ ih | inContext _ ih | opening _ ih => exact ih ht hl
  | look _ ih => exact ih (ht _) hl
  | stop hc => exact hc
  | turn hc hi hr ihi _ =>
    have hm := Nat.le_antisymm hi.leads.length_le (hl ▸ hr.leads.length_le)
    exact absurd (ihi (ht _).1 hm) ((ht _).2 _ hc)
  | @call rule _ _ _ _ ih =>
    have hs := ih rule.orderly.tame hl
    exact Bool.eq_false_iff.mpr fun hr => rule.orderly.reads _ hr hs
  | within _ _ ih => exact .inl (ih ht.1 hl)
  | beyond _ _ ih => exact .inr (ih ht.2 hl)

namespace Production

/-- Ranks do not reach twenty, so below it every call is allowed. -/
theorem heads_any (p : Production) (v : Lookahead) : p.Heads 20 v := by
  induction p generalizing v with
  | done | shift | report => exact True.intro
  | andThen p q ihp ihq => exact ⟨ihp v, fun _ => ihq v⟩
  | group p ih | wrap k p ih | inContext context p ih | opening block p ih => exact ih _
  | look next ih => exact ih v v
  | many continues item ih => exact fun _ => ih none v
  | call rule => exact rule.rank_lt v
  | nested p q ihp ihq => exact ⟨ihp v, ihq v⟩

/-- The callee runs to its end on fewer than `n` tokens, and on `n` where the rank is below the
limit. -/
def Able (callee : Nonterminal → Surroundings → Reading → Reading) (n limit : Nat) : Prop :=
  ∀ rule env r, r.ahead.length < n ∨ (r.ahead.length = n ∧ rule.rank (r.look env) < limit) →
    Runs anyReport (.of (.call rule)) env r (callee rule env r)

variable {callee : Nonterminal → Surroundings → Reading → Reading} {n limit bound : Nat}

theorem Able.of_lt (h : Able callee n limit) {m : Nat} (hm : m < n) : Able callee m 20 :=
  fun rule env r hr => h rule env r (.inl (hr.elim (Nat.lt_trans · hm) (·.1 ▸ hm)))

/-- A repetition whose items run to their end. -/
theorem runs_repeatWhile {continues : Lookahead → Bool} {item : Option Lookahead → Production}
    (ht : (many continues item).Tame) (env : Surroundings)
    (hi : ∀ before r, r.ahead.length ≤ n → continues (r.look env) = true →
      Runs anyReport (.of (item before)) env r ((item before).run callee bound env r)) :
    ∀ turns before (r : Reading), r.ahead.length ≤ n → r.ahead.length < turns →
      Runs anyReport (.rest continues item before) env r
        (r.repeatWhile env continues (fun before => (item before).run callee bound env) turns
          before) := by
  intro turns
  induction turns with
  | zero => intro _ _ _ h; exact absurd h (Nat.not_lt_zero _)
  | succ turns ih =>
    intro before r hn hl
    unfold Reading.repeatWhile
    split
    · rename_i hc
      have hr := hi before r hn hc
      have hle := hr.leads.length_le
      have hne : ((item before).run callee bound env r).ahead.length ≠ r.ahead.length :=
        fun he => (ht before).2 _ hc (hr.mayStall (ht before).1 he)
      exact .turn hc hr (ih _ _ (by omega) (by omega))
    · rename_i hc
      exact .stop (Bool.eq_false_iff.mpr hc)

theorem runs_run (p : Production) (ht : p.Tame) (env : Surroundings) (r : Reading)
    (hb : r.ahead.length < bound) (hh : p.Heads limit (r.look env))
    (ha : Able callee r.ahead.length limit) :
    Runs anyReport (.of p) env r (p.run callee bound env r) := by
  induction p generalizing env r limit with
  | done => exact .done
  | shift => exact .shift
  | report fault => exact .report True.intro
  | andThen p q ihp ihq =>
    have hp := ihp ht.1 env r hb hh.1 ha
    refine .andThen hp ?_
    have hle := hp.leads.length_le
    by_cases hm : (p.run callee bound env r).ahead.length = r.ahead.length
    · refine ihq ht.2 env _ (by omega) ?_ (hm ▸ ha)
      rw [hp.leads.look_eq hm]
      exact hh.2 (hp.mayStall ht.1 hm)
    · exact ihq ht.2 env _ (by omega) (q.heads_any _) (ha.of_lt (by omega))
  | group p ih => exact .group (ih ht env { r with built := [] } hb hh ha)
  | wrap k p ih => exact .wrap (ih ht env r hb hh ha)
  | look next ih => exact .look (ih _ (ht _) env r hb hh ha)
  | inContext context p ih => exact .inContext (ih ht _ r hb hh ha)
  | opening block p ih => exact .opening (ih ht _ r hb hh ha)
  | call rule => exact ha rule env r (.inr ⟨rfl, hh⟩)
  | nested p q ihp ihq =>
    by_cases hd : env.depth + 1 ≤ env.limit
    · simp only [run, if_pos hd]
      exact .within hd (ihp ht.1 _ r hb hh.1 ha)
    · simp only [run, if_neg hd]
      exact .beyond hd (ihq ht.2 _ r hb hh.2 ha)
  | many continues item ih =>
    refine .many ?_
    unfold run
    cases bound with
    | zero => exact absurd hb (Nat.not_lt_zero _)
    | succ turns =>
      unfold Reading.repeatWhile
      split
      · rename_i hc
        -- The first turn starts where the repetition does, each later one further on.
        have hr := ih none (ht none).1 env r hb (hh hc) ha
        have hle := hr.leads.length_le
        have hne : ((item none).run callee (turns + 1) env r).ahead.length ≠ r.ahead.length :=
          fun he => (ht none).2 _ hc (hr.mayStall (ht none).1 he)
        refine .turn hc hr (runs_repeatWhile ht env ?_ _ _ _ (Nat.le_refl _) (by omega))
        intro before m hm _
        exact ih before (ht before).1 env m (by omega) (heads_any _ _) (ha.of_lt (by omega))
      · rename_i hc
        exact .stop (Bool.eq_false_iff.mpr hc)

end Production

namespace Nonterminal

/-- More than the calls below a call can nest. -/
def cost (rule : Nonterminal) (v : Lookahead) : Nat := 100 * v.ahead.length + rule.rank v

theorem runs_of_cost_lt {bound : Nat} (fuel : Nat) (rule : Nonterminal) (env : Surroundings)
    (r : Reading) (hb : r.ahead.length < bound) (hf : rule.cost (r.look env) < fuel) :
    Runs anyReport (.of (.call rule)) env r (rule.run bound fuel env r) := by
  induction fuel generalizing rule env r with
  | zero => exact absurd hf (Nat.not_lt_zero _)
  | succ fuel ih =>
    refine .call (Production.runs_run rule.production rule.orderly.tame env r hb
      (rule.orderly.heads _) ?_)
    intro callee env' m hm
    have hc : rule.cost (r.look env) ≤ fuel := Nat.le_of_lt_succ hf
    have hr := callee.rank_lt (m.look env')
    refine ih callee env' m ?_ ?_ <;>
      simp only [cost, Reading.look] at * <;> omega

end Nonterminal

namespace Production

/-- With enough repetitions and enough fuel, reading comes to its end. -/
theorem runs_of_bounds (p : Production) (ht : p.Tame) (limit : Nat) {tokens : List Token}
    {bound fuel : Nat} (hb : repeatBound tokens.length ≤ bound)
    (hf : callBound tokens.length ≤ fuel) :
    Runs anyReport (.of p) ⟨.topLevel, [], 0, limit⟩ (.start tokens)
      (p.run (Nonterminal.run bound fuel) bound ⟨.topLevel, [], 0, limit⟩ (.start tokens)) := by
  refine p.runs_run ht _ _ hb (p.heads_any _) ?_
  intro rule env r hr
  have hrank := rule.rank_lt (r.look env)
  have hlen : r.ahead.length ≤ tokens.length := by
    simp only [Reading.start] at hr
    omega
  refine Nonterminal.runs_of_cost_lt _ rule env r (Nat.lt_of_le_of_lt hlen hb) ?_
  simp only [Nonterminal.cost, callBound, Reading.look] at *
  omega

/-- What is read is a run: neither fuel nor the bound on repetitions is ever used up. -/
theorem runs_read (p : Production) (ht : p.Tame) (limit : Nat) (tokens : List Token) :
    Runs anyReport (.of p) ⟨.topLevel, [], 0, limit⟩ (.start tokens) (p.read limit tokens) :=
  p.runs_of_bounds ht limit (Nat.le_refl _) (Nat.le_refl _)

/-- What is read and is clean in the end is a run without errors. -/
theorem runs_of_clean (p : Production) (ht : p.Tame) {limit : Nat} {tokens : List Token}
    (hc : (p.read limit tokens).Clean) :
    Runs noError (.of p) ⟨.topLevel, [], 0, limit⟩ (.start tokens) (p.read limit tokens) :=
  (p.runs_read ht limit tokens).restrict hc

end Production

end Modelica
