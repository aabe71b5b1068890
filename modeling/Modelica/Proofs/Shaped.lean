import Modelica.Proofs.Contracts

/-!
# Runs without errors build trees of the shapes in the tables

`Production.Turns` and `Production.Adds` speak of a production; here they are joined to what it
does.
-/

namespace Modelica

open Shape

/-- Trees of some shape, the last one first, each with the children its kind asks for. -/
def Shape.Holds (c : Shape) (built : List Tree) : Prop :=
  c.Matches (built.reverse.map Tree.kind) ∧ ∀ t ∈ built, t.Shaped

namespace Shape

variable {c d s : Shape} {built more : List Tree}

theorem Holds.mono (h : c.Holds built) (hl : Le c d) : d.Holds built := ⟨hl _ h.1, h.2⟩

theorem holds_nil : Holds [] [] := ⟨.nil, fun _ h => nomatch h⟩

theorem Holds.append (h : c.Holds built) (h' : s.Holds more) : (c ++ s).Holds (more ++ built) := by
  refine ⟨?_, fun t ht => (List.mem_append.mp ht).elim (h'.2 t) (h.2 t)⟩
  rw [List.reverse_append, List.map_append]
  exact matches_append h.1 h'.1

theorem holds_leaf {t : Token} {ks : List Kind} (h : t.kind ∈ ks) (ht : t.kind ∈ Kind.significant) :
    Holds [one ks] [.leaf t] := by
  refine ⟨matches_one h, fun u hu => ?_⟩
  cases List.mem_singleton.mp hu
  exact .leaf ht

theorem holds_node {k : Kind} (hk : k ∈ Kind.productions) (h : k.shape.Holds built) :
    Holds [one [k]] [.node k built.reverse] := by
  refine ⟨matches_one (List.mem_singleton.mpr rfl), fun u hu => ?_⟩
  cases List.mem_singleton.mp hu
  exact .node hk h.1 fun t ht => h.2 t (List.mem_reverse.mp ht)

end Shape

namespace Runs

variable {task : Task} {env : Surroundings} {r r' : Reading}

theorem not_fails {p : Production} (h : Runs noError (.of p) env r r') :
    ¬ p.Fails (r.look env) := by
  induction p generalizing env r r' with
  | report fault =>
    intro hf
    have hn : fault.isError = false := (runs_report.mp h).1
    exact Bool.eq_false_iff.mp hn hf
  | andThen p q ihp _ =>
    obtain ⟨m, hp, -⟩ := runs_andThen.mp h
    exact ihp hp
  | look next ih => exact ih _ (runs_look.mp h)
  | _ => exact id

theorem after {allowed : Diagnostic Spot → Prop} {p : Production}
    (h : Runs allowed (.of p) env r r') : p.After (r.look env) (r'.look env) := by
  induction p generalizing env r r' with
  | done => exact congrArg Reading.ahead (runs_done.mp h)
  | report fault =>
    obtain ⟨-, rfl⟩ := runs_report.mp h
    exact Reading.report_ahead r fault
  | shift =>
    obtain rfl := runs_shift.mp h
    simp only [Production.After, Reading.look]
    cases ha : r.ahead with
    | nil => rw [Reading.shift_nil ha, ha]; rfl
    | cons t ts => rw [Reading.shift_cons ha]; rfl
  | andThen p q ihp ihq =>
    obtain ⟨m, hp, hq⟩ := runs_andThen.mp h
    exact ⟨m.look env, ihp hp, ihq hq⟩
  | look next ih => exact ih _ (runs_look.mp h)
  | _ => exact trivial

/-- What a production turns its trees into, it does turn them into. For what is left of a
repetition, the shape in question is the one its items keep. -/
theorem holds (h : Runs noError task env r r') (ht : ∀ t ∈ r.ahead, t.kind ∈ Kind.significant)
    {c d : Shape} (hc : c.Holds r.built) (hp : match task with
      | .of p => p.Turns c d (r.look env)
      | .rest continues item _ => c = d ∧
        ∀ before w, continues w = true → (item before).Turns c c w) :
    d.Holds r'.built := by
  induction h generalizing c d with
  | done => exact hc.mono hp
  | @andThen p q env r m r' hrp _ ihp ihq =>
    obtain hf | ⟨s, hs, hq⟩ := hp
    · exact absurd hf hrp.not_fails
    · exact ihq (fun t hm => ht t (hrp.leads.1.subset hm)) (ihp ht hc hs) (hq _ hrp.after)
  | @shift env r =>
    obtain ⟨ks, hk, hn, hl⟩ := hp
    cases ha : r.ahead with
    | nil => rw [Reading.shift_nil ha]; exact hc.mono (hn ha)
    | cons t ts =>
      have htk : t.kind ∈ Kind.significant := ht t (by simp [ha])
      have hks : t.kind ∈ ks := by
        refine hk.elim (fun h => ?_) fun h => h htk
        simpa [Reading.look, Lookahead.kind, ha, Token.headKind] using h
      rw [Reading.shift_cons ha]
      exact (hc.append (holds_leaf hks htk)).mono hl
  | group _ ih =>
    obtain ⟨s, hs, hl⟩ := hp
    exact (hc.append (ih ht holds_nil hs)).mono hl
  | wrap _ ih =>
    obtain ⟨s, hs, hk, hle, hl⟩ := hp
    exact (holds_node hk ((ih ht hc hs).mono hle)).mono hl
  | look _ ih => exact ih ht hc hp
  | many _ ih =>
    obtain ⟨m, hcm, hmd, hi⟩ := hp
    exact (ih ht (hc.mono hcm) ⟨rfl, hi⟩).mono hmd
  | stop _ => exact hp.1 ▸ hc
  | turn hcont hri _ ihi ihr =>
    obtain ⟨rfl, hi⟩ := hp
    exact ihr (fun t hm => ht t (hri.leads.1.subset hm)) (ihi ht hc (hi _ _ hcont)) ⟨rfl, hi⟩
  | @call rule env r r' _ ih =>
    exact (ih ht hc (rule.adds_production _ hp.1 c)).mono hp.2
  | @report fault env r hf =>
    rw [Reading.report_built]
    obtain he | hl := hp
    · exact absurd he (Bool.eq_false_iff.mp hf)
    · exact hc.mono hl
  | inContext _ ih | opening _ ih => exact ih ht hc hp
  | within _ _ ih => exact ih ht hc hp.1
  | beyond _ _ ih => exact ih ht hc hp.2

end Runs

end Modelica
