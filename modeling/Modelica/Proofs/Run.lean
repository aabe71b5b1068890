import Modelica.Grammar.Rules

/-!
# Runs of productions

`Runs` says what a production does with no bound on repetitions or on nested calls: the rules of
`Production.run`, one constructor for each step. A run is a finite derivation, so what every step
keeps every run keeps, by induction.

* `Runs.determined`: a production takes a reading to one reading at most;
* `Runs.leads`: a run reads from the front and counts what it reads;
* `Runs.faults_suffix`: a run takes no diagnostic back;
* `Runs.forall_faults`: what a run keeps is allowed;
* `Runs.restrict`: a run that ends without errors has reported none on the way.
-/

namespace Modelica

/-- What there is to do: a production, or what is left of a repetition. -/
inductive Task where
  | of (p : Production)
  | rest (continues : Lookahead → Bool) (item : Option Lookahead → Production)
      (before : Option Lookahead)

/-- `Runs allowed task env r r'`: doing `task` takes the reading `r` to `r'`, and every diagnostic
that is reported on the way, kept or not, is an allowed one. -/
inductive Runs (allowed : Diagnostic Spot → Prop) :
    Task → Surroundings → Reading → Reading → Prop
  | done {env r} : Runs allowed (.of .done) env r r
  | andThen {p q env r m r'} : Runs allowed (.of p) env r m → Runs allowed (.of q) env m r' →
      Runs allowed (.of (.andThen p q)) env r r'
  | shift {env r} : Runs allowed (.of .shift) env r r.shift
  | group {p env r m} : Runs allowed (.of p) env { r with built := [] } m →
      Runs allowed (.of (.group p)) env r { m with built := m.built ++ r.built }
  | wrap {k p env r m} : Runs allowed (.of p) env r m →
      Runs allowed (.of (.wrap k p)) env r (m.wrap k)
  | look {next env r r'} : Runs allowed (.of (next (r.look env))) env r r' →
      Runs allowed (.of (.look next)) env r r'
  | many {continues item env r r'} : Runs allowed (.rest continues item none) env r r' →
      Runs allowed (.of (.many continues item)) env r r'
  | stop {continues item before env r} : continues (r.look env) = false →
      Runs allowed (.rest continues item before) env r r
  | turn {continues item before env r m r'} : continues (r.look env) = true →
      Runs allowed (.of (item before)) env r m →
      Runs allowed (.rest continues item (some (r.look env))) env m r' →
      Runs allowed (.rest continues item before) env r r'
  | call {rule env r r'} : Runs allowed (.of rule.production) env r r' →
      Runs allowed (.of (.call rule)) env r r'
  | report {fault env r} : allowed fault → Runs allowed (.of (.report fault)) env r (r.report fault)
  | inContext {context p env r r'} : Runs allowed (.of p) { env with context } r r' →
      Runs allowed (.of (.inContext context p)) env r r'
  | opening {block p env r r'} :
      Runs allowed (.of p) { env with constructs := block :: env.constructs } r r' →
      Runs allowed (.of (.opening block p)) env r r'
  | within {p q env r r'} : env.depth + 1 ≤ env.limit →
      Runs allowed (.of p) { env with depth := env.depth + 1 } r r' →
      Runs allowed (.of (.nested p q)) env r r'
  | beyond {p q env r r'} : ¬ env.depth + 1 ≤ env.limit →
      Runs allowed (.of q) { env with depth := env.depth + 1 } r r' →
      Runs allowed (.of (.nested p q)) env r r'

/-- Every report is allowed. -/
def anyReport (_ : Diagnostic Spot) : Prop := True

/-- Only warnings are allowed. -/
def noError (fault : Diagnostic Spot) : Prop := fault.isError = false

namespace Runs

variable {allowed : Diagnostic Spot → Prop} {task : Task} {env : Surroundings} {r r' r'' : Reading}

/-! ## A production has one result -/

theorem determined (h : Runs allowed task env r r') (h' : Runs allowed task env r r'') :
    r' = r'' := by
  induction h generalizing r'' with
  | done => cases h'; rfl
  | andThen _ _ ihp ihq =>
    cases h' with
    | andThen hp hq => cases ihp hp; exact ihq hq
  | shift => cases h'; rfl
  | group _ ih => cases h' with | group hp => cases ih hp; rfl
  | wrap _ ih => cases h' with | wrap hp => cases ih hp; rfl
  | look _ ih => cases h' with | look hp => exact ih hp
  | many _ ih => cases h' with | many hp => exact ih hp
  | stop hc =>
    cases h' with
    | stop _ => rfl
    | turn hc' => rw [hc] at hc'; cases hc'
  | turn hc _ _ ihi ihr =>
    cases h' with
    | stop hc' => rw [hc] at hc'; cases hc'
    | turn _ hi hr => cases ihi hi; exact ihr hr
  | call _ ih => cases h' with | call hp => exact ih hp
  | report _ => cases h'; rfl
  | inContext _ ih => cases h' with | inContext hp => exact ih hp
  | opening _ ih => cases h' with | opening hp => exact ih hp
  | within hd _ ih =>
    cases h' with
    | within _ hp => exact ih hp
    | beyond hd' => exact absurd hd hd'
  | beyond hd _ ih =>
    cases h' with
    | within hd' => exact absurd hd' hd
    | beyond _ hp => exact ih hp

theorem mono {allowed' : Diagnostic Spot → Prop} (ha : ∀ fault, allowed fault → allowed' fault)
    (h : Runs allowed task env r r') : Runs allowed' task env r r' := by
  induction h with
  | done => exact .done
  | andThen _ _ ihp ihq => exact .andThen ihp ihq
  | shift => exact .shift
  | group _ ih => exact .group ih
  | wrap _ ih => exact .wrap ih
  | look _ ih => exact .look ih
  | many _ ih => exact .many ih
  | stop hc => exact .stop hc
  | turn hc _ _ ihi ihr => exact .turn hc ihi ihr
  | call _ ih => exact .call ih
  | report hf => exact .report (ha _ hf)
  | inContext _ ih => exact .inContext ih
  | opening _ ih => exact .opening ih
  | within hd _ ih => exact .within hd ih
  | beyond hd _ ih => exact .beyond hd ih

end Runs

/-! ## What each step does -/

section

variable {allowed : Diagnostic Spot → Prop} {env : Surroundings} {r r' : Reading}
variable {p q : Production} {ps : List Production}

theorem runs_done : Runs allowed (.of .done) env r r' ↔ r' = r :=
  ⟨fun h => by cases h; rfl, fun h => h ▸ .done⟩

theorem runs_shift : Runs allowed (.of .shift) env r r' ↔ r' = r.shift :=
  ⟨fun h => by cases h; rfl, fun h => h ▸ .shift⟩

theorem runs_andThen : Runs allowed (.of (.andThen p q)) env r r' ↔
    ∃ m, Runs allowed (.of p) env r m ∧ Runs allowed (.of q) env m r' :=
  ⟨fun h => by cases h with | andThen hp hq => exact ⟨_, hp, hq⟩, fun ⟨_, hp, hq⟩ => .andThen hp hq⟩

theorem runs_group : Runs allowed (.of (.group p)) env r r' ↔
    ∃ m, Runs allowed (.of p) env { r with built := [] } m ∧
      r' = { m with built := m.built ++ r.built } :=
  ⟨fun h => by cases h with | group hp => exact ⟨_, hp, rfl⟩, fun ⟨_, hp, he⟩ => he ▸ .group hp⟩

theorem runs_wrap {k : Kind} : Runs allowed (.of (.wrap k p)) env r r' ↔
    ∃ m, Runs allowed (.of p) env r m ∧ r' = m.wrap k :=
  ⟨fun h => by cases h with | wrap hp => exact ⟨_, hp, rfl⟩, fun ⟨_, hp, he⟩ => he ▸ .wrap hp⟩

theorem runs_look {next : Lookahead → Production} : Runs allowed (.of (.look next)) env r r' ↔
    Runs allowed (.of (next (r.look env))) env r r' :=
  ⟨fun h => by cases h with | look hp => exact hp, .look⟩

theorem runs_many {continues : Lookahead → Bool} {item : Option Lookahead → Production} :
    Runs allowed (.of (.many continues item)) env r r' ↔
      Runs allowed (.rest continues item none) env r r' :=
  ⟨fun h => by cases h with | many hp => exact hp, .many⟩

theorem runs_call {rule : Nonterminal} : Runs allowed (.of (.call rule)) env r r' ↔
    Runs allowed (.of rule.production) env r r' :=
  ⟨fun h => by cases h with | call hp => exact hp, .call⟩

theorem runs_report {fault : Diagnostic Spot} : Runs allowed (.of (.report fault)) env r r' ↔
    allowed fault ∧ r' = r.report fault :=
  ⟨fun h => by cases h with | report hf => exact ⟨hf, rfl⟩, fun ⟨hf, he⟩ => he ▸ .report hf⟩

theorem runs_inContext {context : Context} : Runs allowed (.of (.inContext context p)) env r r' ↔
    Runs allowed (.of p) { env with context } r r' :=
  ⟨fun h => by cases h with | inContext hp => exact hp, .inContext⟩

theorem runs_seq_nil : Runs allowed (.of (.seq [])) env r r' ↔ r' = r := runs_done

theorem runs_seq_cons : Runs allowed (.of (.seq (p :: ps))) env r r' ↔
    ∃ m, Runs allowed (.of p) env r m ∧ Runs allowed (.of (.seq ps)) env m r' := by
  cases ps with
  | nil => exact ⟨fun h => ⟨r', h, .done⟩, fun ⟨m, hp, hq⟩ => runs_seq_nil.mp hq ▸ hp⟩
  | cons q qs => exact runs_andThen

theorem runs_node {k : Kind} : Runs allowed (.of (.node k ps)) env r r' ↔
    ∃ m, Runs allowed (.of (.seq ps)) env { r with built := [] } m ∧
      r' = { m with built := .node k m.built.reverse :: r.built } := by
  unfold Production.node
  rw [runs_group]
  constructor
  · rintro ⟨w, hw, rfl⟩
    obtain ⟨m, hm, rfl⟩ := runs_wrap.mp hw
    exact ⟨m, hm, rfl⟩
  · rintro ⟨m, hm, rfl⟩
    exact ⟨m.wrap k, .wrap hm, rfl⟩

end

/-- A repetition ends where its test fails. -/
theorem Runs.test_eq_false {allowed : Diagnostic Spot → Prop} {env : Surroundings}
    {r r' : Reading} {continues : Lookahead → Bool} {item : Option Lookahead → Production}
    {before : Option Lookahead} (h : Runs allowed (.rest continues item before) env r r') :
    continues (r'.look env) = false := by
  generalize ht : Task.rest continues item before = task at h
  induction h generalizing before with
  | stop hc => cases ht; exact hc
  | turn _ _ _ _ ihr => cases ht; exact ihr rfl
  | _ => cases ht

/-! ## Reading goes forward -/

/-- `r'` is reached from `r` by reading tokens and nothing else. -/
def Reading.Leads (r r' : Reading) : Prop :=
  r'.ahead <:+ r.ahead ∧ r'.ahead.length + r'.index = r.ahead.length + r.index

namespace Reading

theorem Leads.refl (r : Reading) : r.Leads r := ⟨List.suffix_rfl, rfl⟩

theorem Leads.trans {r m r' : Reading} (h : r.Leads m) (h' : m.Leads r') : r.Leads r' :=
  ⟨h'.1.trans h.1, h'.2.trans h.2⟩

/-- No token comes back. -/
theorem Leads.ahead_eq_nil {r r' : Reading} (h : r.Leads r') (hr : r.ahead = []) :
    r'.ahead = [] :=
  List.suffix_nil.mp (hr ▸ h.1)

theorem Leads.length_le {r r' : Reading} (h : r.Leads r') : r'.ahead.length ≤ r.ahead.length :=
  h.1.length_le

theorem Leads.index_le {r r' : Reading} (h : r.Leads r') : r.index ≤ r'.index := by
  have hl := h.length_le
  obtain ⟨-, hi⟩ := h
  exact Nat.le_of_sub_eq_zero (by omega)

/-- Who has read nothing sees the same. -/
theorem Leads.same {r r' : Reading} (h : r.Leads r') (hl : r'.ahead.length = r.ahead.length) :
    r'.ahead = r.ahead ∧ r'.index = r.index := by
  refine ⟨h.1.eq_of_length hl, ?_⟩
  have := h.2
  rw [hl] at this
  exact Nat.add_left_cancel this

theorem shift_nil {r : Reading} (h : r.ahead = []) : r.shift = r := by
  unfold shift; rw [h]

theorem shift_cons {r : Reading} {t : Token} {ts : List Token} (h : r.ahead = t :: ts) :
    r.shift = { r with ahead := ts, index := r.index + 1, built := .leaf t :: r.built } := by
  unfold shift; rw [h]

theorem leads_shift (r : Reading) : r.Leads r.shift := by
  cases h : r.ahead with
  | nil => rw [shift_nil h]; exact .refl r
  | cons t ts =>
    rw [shift_cons h]
    refine ⟨by rw [h]; exact List.suffix_cons t ts, ?_⟩
    simp only [h, List.length_cons]
    omega

theorem leads_report (r : Reading) (fault : Diagnostic Spot) : r.Leads (r.report fault) := by
  unfold report
  split
  · exact ⟨List.suffix_rfl, rfl⟩
  · split <;> exact ⟨List.suffix_rfl, rfl⟩

@[simp] theorem report_ahead (r : Reading) (fault : Diagnostic Spot) :
    (r.report fault).ahead = r.ahead := by
  unfold report; split <;> (try split) <;> rfl

@[simp] theorem report_index (r : Reading) (fault : Diagnostic Spot) :
    (r.report fault).index = r.index := by
  unfold report; split <;> (try split) <;> rfl

@[simp] theorem report_built (r : Reading) (fault : Diagnostic Spot) :
    (r.report fault).built = r.built := by
  unfold report; split <;> (try split) <;> rfl

@[simp] theorem shift_faults (r : Reading) : r.shift.faults = r.faults := by
  unfold shift; split <;> rfl

/-- A diagnostic is kept unless the last one has its place and severity. -/
theorem report_eq (r : Reading) (d : Diagnostic Spot) : r.report d = r ∨
    r.report d = { r with faults := d :: r.faults } ∧
      ∀ last ∈ r.faults.head?, ¬ (last.place = d.place ∧ last.severity = d.severity) := by
  cases hf : r.faults with
  | nil => simp [report, hf]
  | cons last rest =>
    by_cases hs : last.place = d.place ∧ last.severity = d.severity
    · exact .inl (by simp [report, hf, hs])
    · exact .inr ⟨by simp [report, hf, hs], by simpa using hs⟩

end Reading

namespace Runs

variable {allowed : Diagnostic Spot → Prop} {task : Task} {env : Surroundings} {r r' : Reading}

theorem leads (h : Runs allowed task env r r') : r.Leads r' := by
  induction h with
  | done | stop _ => exact .refl _
  | andThen _ _ ihp ihq => exact ihp.trans ihq
  | shift => exact Reading.leads_shift _
  | group _ ih | wrap _ ih | look _ ih | many _ ih | call _ ih | inContext _ ih | opening _ ih
  | within _ _ ih | beyond _ _ ih => exact ih
  | turn _ _ _ ihi ihr => exact ihi.trans ihr
  | report _ => exact Reading.leads_report _ _

/-! ## Diagnostics stay -/

theorem faults_suffix (h : Runs allowed task env r r') : r.faults <:+ r'.faults := by
  induction h with
  | done | stop _ => exact List.suffix_rfl
  | andThen _ _ ihp ihq => exact ihp.trans ihq
  | shift => exact (Reading.shift_faults _).symm ▸ List.suffix_rfl
  | group _ ih | wrap _ ih | look _ ih | many _ ih | call _ ih | inContext _ ih | opening _ ih
  | within _ _ ih | beyond _ _ ih => exact ih
  | turn _ _ _ ihi ihr => exact ihi.trans ihr
  | @report fault _ r _ =>
    unfold Reading.report
    split
    · rename_i h; rw [h]; exact List.nil_suffix
    · rename_i last rest h
      split
      · exact List.suffix_rfl
      · exact List.suffix_cons _ _

/-- What is kept was kept before or is allowed. -/
theorem forall_faults (h : Runs allowed task env r r') (hr : ∀ fault ∈ r.faults, allowed fault) :
    ∀ fault ∈ r'.faults, allowed fault := by
  induction h with
  | done | stop _ => exact hr
  | andThen _ _ ihp ihq => exact ihq (ihp hr)
  | shift => rw [Reading.shift_faults]; exact hr
  | group _ ih | wrap _ ih | look _ ih | many _ ih | call _ ih | inContext _ ih | opening _ ih
  | within _ _ ih | beyond _ _ ih => exact ih hr
  | turn _ _ _ ihi ihr => exact ihr (ihi hr)
  | report hf =>
    unfold Reading.report
    split
    · exact List.forall_mem_singleton.mpr hf
    · split
      · exact hr
      · exact List.forall_mem_cons.mpr ⟨hf, hr⟩

/-- Where nothing may be reported, nothing is. -/
theorem faults_eq (h : Runs allowed task env r r') (hn : ∀ fault, ¬ allowed fault) :
    r'.faults = r.faults := by
  induction h with
  | done | stop _ => rfl
  | andThen _ _ ihp ihq => exact ihq.trans ihp
  | shift => exact Reading.shift_faults _
  | group _ ih | wrap _ ih | look _ ih | many _ ih | call _ ih | inContext _ ih | opening _ ih
  | within _ _ ih | beyond _ _ ih => exact ih
  | turn _ _ _ ihi ihr => exact ihr.trans ihi
  | report hf => exact absurd hf (hn _)

end Runs

namespace Reading

/-- No error has been kept. -/
def Clean (r : Reading) : Prop := ∀ fault ∈ r.faults, fault.isError = false

instance (r : Reading) : Decidable r.Clean :=
  inferInstanceAs (Decidable (∀ fault ∈ r.faults, fault.isError = false))

/-- An error that is reported leaves an error behind, if not itself then the one kept last. -/
theorem not_clean_report {r : Reading} {fault : Diagnostic Spot} (hf : fault.isError = true) :
    ¬ (r.report fault).Clean := by
  intro hc
  unfold report at hc
  split at hc
  · exact Bool.eq_false_iff.mp (hc fault (by simp)) hf
  · rename_i last rest h
    split at hc
    · rename_i same
      have he : last.isError = false := hc last (by simp [h])
      simp only [Diagnostic.isError, same.2] at he hf
      rw [hf] at he
      cases he
    · exact Bool.eq_false_iff.mp (hc fault (by simp)) hf

end Reading

namespace Runs

variable {task : Task} {env : Surroundings} {r r' : Reading}

theorem clean_of_clean {allowed : Diagnostic Spot → Prop} (h : Runs allowed task env r r')
    (hc : r'.Clean) : r.Clean :=
  fun fault hf => hc fault (h.faults_suffix.subset hf)

/-- A run that ends clean has reported no error on the way. -/
theorem restrict (h : Runs anyReport task env r r') (hc : r'.Clean) :
    Runs noError task env r r' := by
  induction h with
  | done => exact .done
  | andThen _ hq ihp ihq => exact .andThen (ihp (hq.clean_of_clean hc)) (ihq hc)
  | shift => exact .shift
  | group _ ih => exact .group (ih hc)
  | wrap _ ih => exact .wrap (ih hc)
  | look _ ih => exact .look (ih hc)
  | many _ ih => exact .many (ih hc)
  | stop hs => exact .stop hs
  | turn ht _ hr ihi ihr => exact .turn ht (ihi (hr.clean_of_clean hc)) (ihr hc)
  | call _ ih => exact .call (ih hc)
  | @report fault _ _ _ =>
    refine .report ?_
    cases he : fault.isError with
    | false => exact he
    | true => exact absurd hc (Reading.not_clean_report he)
  | inContext _ ih => exact .inContext (ih hc)
  | opening _ ih => exact .opening (ih hc)
  | within hd _ ih => exact .within hd (ih hc)
  | beyond hd _ ih => exact .beyond hd (ih hc)

end Runs

end Modelica
