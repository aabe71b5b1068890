import Modelica.Proofs.Setting
import Modelica.Proofs.Shaped

/-!
# The same steps in a larger text

Two productions are twins when a run of the one without errors, on a text of its own, is matched
step by step by a run of the other on the text in its setting. They have the same shape and make the
same choices; messages and contexts do not matter, and places are moved by the tokens that come
before.

* `Production.Twin`: what is asked of twins;
* `Setting.Matches`: every twin of what is done does the same in the setting, with
  `Setting.matches_andThen`, `Setting.matches_turn` and the others for one step each;
* `Runs.twin`: the statement for whole runs.

While a token of the text is left the choices are the same (`Setting.Place`). At the end of the text
a twin may still have choices to make, and then it sees the tokens after it. A production that is
followed by one that needs a token never comes to that (`Production.Starves`).
-/

namespace Modelica

/-- The rule is certain to fail where no token is left. -/
def Nonterminal.starves : Nonterminal → Bool
  | comment | typePrefix | elements | storedDefinition | classBody | sectionBody _ | body _
  | elseClause _ => false
  | _ => true

namespace Production

/-- The production is certain to fail where no token is left. -/
@[simp] def Starves : Production → Prop
  | done | shift | many _ _ => False
  | andThen p q => p.Starves ∨ q.Starves
  | group p | wrap _ p | inContext _ p | opening _ p => p.Starves
  | look next => ∀ index context constructs, (next ⟨[], index, context, constructs⟩).Starves
  | call rule => rule.starves = true
  | report fault => fault.isError = true
  | nested p q => p.Starves ∧ q.Starves

end Production

/-- What there is to do is certain to fail where no token is left. -/
def Task.Starves : Task → Prop
  | of p => p.Starves
  | rest .. => False

namespace Runs

variable {task : Task} {env : Surroundings} {r r' : Reading}

/-- What needs a token is not run without errors where none is left. -/
theorem not_starves (hcall : ∀ rule : Nonterminal, rule.starves = true → rule.production.Starves)
    (h : Runs noError task env r r') (hr : r.ahead = []) : ¬ task.Starves := by
  induction h with
  | done | shift | many _ | stop _ | turn _ _ _ => exact id
  | andThen hp _ ihp ihq => exact fun hs => hs.elim (ihp hr) (ihq (hp.leads.ahead_eq_nil hr))
  | group _ ih | wrap _ ih | inContext _ ih | opening _ ih => exact ih hr
  | look _ ih =>
    refine fun hs => ih hr ?_
    simp only [Reading.look, hr]
    exact hs _ _ _
  | call _ ih => exact fun hs => ih hr (hcall _ hs)
  | report hf => exact fun hs => Bool.eq_false_iff.mp hf hs
  | within _ _ ih => exact fun hs => ih hr hs.1
  | beyond _ _ ih => exact fun hs => ih hr hs.2

end Runs

/-- The rule may come to the end of the text and still have a choice to make there. Every rule may
that ends with a `;`; the others may where a `;` comes after the text, but for bodies and lists,
which take the end of the text for their own. -/
def Nonterminal.mayEnd (stops : Bool) : Nonterminal → Bool
  | withinClause | classDefinitionClause | element | importClause | extendsClause
  | namedElementClause | externalFunctionClause | item _ | equation | simpleEquation
  | specialEquation | connectEquation | statement | keywordStatement _ | referenceStatement
  | destructuringAssignment | ifBlock _ | whenBlock _ | forBlock _ | whileBlock => true
  | storedDefinition | elements | classBody | sectionBody _ | body _ | equationSection
  | algorithmSection | elseIfClause _ | elseClause _ | elseWhenClause _ => false
  | _ => stops

namespace Production

/-- The production is certain to report an error, wherever it starts. -/
def Hopeless (p : Production) : Prop := ∀ v, p.Fails v

/-- Somewhere the production runs at this place without errors. -/
def Passes (p : Production) (v : Lookahead) : Prop :=
  ∃ env r r', r.look env = v ∧ Runs noError (.of p) env r r'

/-- How many of so many tokens are left when the production has run, as far as it shows. -/
def left : Production → Nat → Nat
  | done, n | report _, n => n
  | shift, n => n - 1
  | _, _ => 0

/-- A run of the first production is matched by a run of the second one in the setting. With `edge`
it may come to the end of the text, and `n` tokens are certain to be left where it starts. -/
def Twin (s : Setting) : Bool → Nat → Production → Production → Prop
  | _, _, done, done => True
  | edge, n, shift, shift => edge = true → 1 ≤ n
  | edge, n, andThen p q, andThen p' q' =>
    Twin s false n p p' ∧ (edge = true → q.Starves ∨ Twin s true n p p') ∧
      (¬ p.Hopeless → Twin s edge (p.left n) q q')
  | edge, n, group p, group p' => Twin s edge n p p'
  | edge, n, wrap k p, wrap k' p' => k = k' ∧ Twin s edge n p p'
  | edge, n, look f, look f' =>
    (∀ (v : s.Place) context, (f v.toLookahead).Passes v.toLookahead →
      Twin s edge v.ahead.length (f v.toLookahead) (f' (v.outer context))) ∧
    (edge = true → n = 0 → ∀ index context context' constructs,
      ¬ (f ⟨[], index, context, constructs⟩).Starves →
        Twin s true 0 (f ⟨[], index, context, constructs⟩) (f' (s.edge index context' constructs)))
  | edge, _, many c f, many c' f' =>
    (∀ (v : s.Place) context, c' (v.outer context) = c v.toLookahead) ∧
    (edge = true → ∀ index context context' constructs,
      c ⟨[], index, context, constructs⟩ = false ∧
        c' (s.edge index context' constructs) = false) ∧
    (∀ v : s.Place, c v.toLookahead = true →
      Twin s edge v.ahead.length (f none) (f' none) ∧
      ∀ (w : s.Place) context,
        Twin s edge v.ahead.length (f (some w.toLookahead)) (f' (some (w.outer context))))
  | edge, _, call rule, call rule' =>
    rule = rule' ∧ (edge = true → rule.mayEnd (Token.headKind s.after == .semicolon) = true)
  | _, _, report fault, report fault' =>
    fault.isError = true ∨ fault' = fault.map (· + s.before)
  | edge, n, inContext _ p, inContext _ p' => Twin s edge n p p'
  | edge, n, opening block p, opening block' p' => block = block' ∧ Twin s edge n p p'
  | edge, n, nested p q, nested p' _ => Twin s edge n p p' ∧ q.Hopeless
  | _, _, _, _ => False

section

variable {s : Setting} {edge : Bool} {n : Nat} {p q p' q' : Production}

@[simp] theorem twin_done : done.Twin s edge n done := True.intro

@[simp] theorem twin_shift : shift.Twin s edge n shift ↔ (edge = true → 1 ≤ n) := Iff.rfl

@[simp] theorem twin_andThen : (andThen p q).Twin s edge n (andThen p' q') ↔
    p.Twin s false n p' ∧ (edge = true → q.Starves ∨ p.Twin s true n p') ∧
      (¬ p.Hopeless → q.Twin s edge (p.left n) q') :=
  Iff.rfl

@[simp] theorem twin_group : (group p).Twin s edge n (group p') ↔ p.Twin s edge n p' := Iff.rfl

@[simp] theorem twin_wrap {k k' : Kind} :
    (wrap k p).Twin s edge n (wrap k' p') ↔ k = k' ∧ p.Twin s edge n p' :=
  Iff.rfl

@[simp] theorem twin_look {f f' : Lookahead → Production} : (look f).Twin s edge n (look f') ↔
    (∀ (v : s.Place) context, (f v.toLookahead).Passes v.toLookahead →
      (f v.toLookahead).Twin s edge v.ahead.length (f' (v.outer context))) ∧
    (edge = true → n = 0 → ∀ index context context' constructs,
      ¬ (f ⟨[], index, context, constructs⟩).Starves →
        (f ⟨[], index, context, constructs⟩).Twin s true 0
          (f' (s.edge index context' constructs))) :=
  Iff.rfl

@[simp] theorem twin_many {c c' : Lookahead → Bool} {f f' : Option Lookahead → Production} :
    (many c f).Twin s edge n (many c' f') ↔
      (∀ (v : s.Place) context, c' (v.outer context) = c v.toLookahead) ∧
      (edge = true → ∀ index context context' constructs,
        c ⟨[], index, context, constructs⟩ = false ∧
          c' (s.edge index context' constructs) = false) ∧
      (∀ v : s.Place, c v.toLookahead = true →
        (f none).Twin s edge v.ahead.length (f' none) ∧
        ∀ (w : s.Place) context,
          (f (some w.toLookahead)).Twin s edge v.ahead.length (f' (some (w.outer context)))) :=
  Iff.rfl

@[simp] theorem twin_call {rule : Nonterminal} : (call rule).Twin s edge n (call rule) ↔
    (edge = true → rule.mayEnd (Token.headKind s.after == .semicolon) = true) :=
  and_iff_right rfl

@[simp] theorem twin_report {fault fault' : Diagnostic Spot} :
    (report fault).Twin s edge n (report fault') ↔
      fault.isError = true ∨ fault' = fault.map (· + s.before) :=
  Iff.rfl

@[simp] theorem twin_inContext {context context' : Context} :
    (inContext context p).Twin s edge n (inContext context' p') ↔ p.Twin s edge n p' :=
  Iff.rfl

@[simp] theorem twin_opening {block block' : OpenConstruct} :
    (opening block p).Twin s edge n (opening block' p') ↔
      block = block' ∧ p.Twin s edge n p' :=
  Iff.rfl

@[simp] theorem twin_nested : (nested p q).Twin s edge n (nested p' q') ↔
    p.Twin s edge n p' ∧ q.Hopeless :=
  Iff.rfl

end

end Production

/-- What there is to do has a twin. -/
def Task.Twin (s : Setting) (edge : Bool) (n : Nat) : Task → Task → Prop
  | of p, of p' => p.Twin s edge n p'
  | rest c f before, rest c' f' before' =>
    (Production.many c f).Twin s edge n (.many c' f') ∧
      (before = none ∧ before' = none ∨ ∃ (w : s.Place) (context : Context),
        before = some w.toLookahead ∧ before' = some (w.outer context))
  | _, _ => False

/-- `q` is where reading has come in the larger text when it has come to `r` in the text. -/
structure Setting.Sets (s : Setting) (r q : Reading) : Prop where
  ahead : q.ahead = r.ahead ++ s.after
  index : q.index = r.index + s.before
  built : q.built = r.built
  faults : q.faults = r.faults.map (Diagnostic.map (· + s.before))

/-- The same blocks are open, and there is room for as many levels. -/
structure Surroundings.Within (env env' : Surroundings) : Prop where
  constructs : env'.constructs = env.constructs
  room : env'.depth + env.limit ≤ env.depth + env'.limit

namespace Setting.Sets

variable {s : Setting} {r q : Reading}

theorem shift (h : s.Sets r q) (hr : r.ahead ≠ []) : s.Sets r.shift q.shift := by
  obtain ⟨t, ts, ha⟩ := List.exists_cons_of_ne_nil hr
  have hq : q.ahead = t :: (ts ++ s.after) := by rw [h.ahead, ha, List.cons_append]
  rw [Reading.shift_cons ha, Reading.shift_cons hq]
  exact ⟨rfl, by rw [h.index, Nat.add_right_comm], by rw [h.built], h.faults⟩

theorem report (h : s.Sets r q) (fault : Diagnostic Spot) :
    s.Sets (r.report fault) (q.report (fault.map (· + s.before))) where
  ahead := by simp [h.ahead]
  index := by simp [h.index]
  built := by simp [h.built]
  faults := by
    unfold Reading.report
    rw [h.faults]
    cases hf : r.faults with
    | nil => rfl
    | cons last rest =>
      have hsame : (last.map (· + s.before)).place = (fault.map (· + s.before)).place ∧
          (last.map (· + s.before)).severity = (fault.map (· + s.before)).severity ↔
          last.place = fault.place ∧ last.severity = fault.severity :=
        and_congr_left fun _ => Nat.add_right_cancel_iff
      by_cases hf' : last.place = fault.place ∧ last.severity = fault.severity
      · simp only [List.map_cons, if_pos hf', if_pos (hsame.mpr hf'), h.faults, hf]
      · simp only [List.map_cons, if_neg hf', if_neg (mt hsame.mp hf')]

/-- What the grammar sees while a token of the text is left. -/
theorem look {env env' : Surroundings} (h : s.Sets r q) (he : env.Within env')
    (hr : r.ahead ≠ []) (hb : s.Bounds r.ahead) :
    ∃ v : s.Place, v.toLookahead = r.look env ∧ q.look env' = v.outer env'.context :=
  ⟨⟨r.look env, hr, hb⟩, rfl, by
    simp [Reading.look, Setting.Place.outer, h.ahead, h.index, he.constructs]⟩

/-- What the grammar sees at the end of the text. -/
theorem look_nil {env env' : Surroundings} (h : s.Sets r q) (he : env.Within env')
    (hr : r.ahead = []) : r.look env = ⟨[], r.index, env.context, env.constructs⟩ ∧
      q.look env' = s.edge r.index env'.context env.constructs := by
  simp [Reading.look, Setting.edge, h.ahead, h.index, he.constructs, hr]

end Setting.Sets

theorem Runs.left_le {allowed : Diagnostic Spot → Prop} {p : Production} {env : Surroundings}
    {r r' : Reading} (h : Runs allowed (.of p) env r r') {n : Nat} (hn : n ≤ r.ahead.length) :
    p.left n ≤ r'.ahead.length := by
  cases p with
  | done => exact runs_done.mp h ▸ hn
  | report fault => rw [(runs_report.mp h).2, Reading.report_ahead]; exact hn
  | shift =>
    rw [runs_shift.mp h]
    cases ha : r.ahead with
    | nil => exact Nat.le_trans (Nat.sub_le n 1) (by rwa [Reading.shift_nil ha])
    | cons t ts =>
      rw [ha] at hn
      rw [Reading.shift_cons ha]
      exact Nat.sub_le_of_le_add hn
  | _ => exact Nat.zero_le _

namespace Task

theorem Twin.of {s : Setting} {edge : Bool} {n : Nat} {p : Production} {task : Task}
    (h : (Task.of p).Twin s edge n task) : ∃ p', task = .of p' ∧ p.Twin s edge n p' := by
  cases task with
  | of p' => exact ⟨p', rfl, h⟩
  | rest => exact False.elim h

end Task

theorem Production.Twin.task {s : Setting} {edge : Bool} {n : Nat} {p p' : Production}
    (h : p.Twin s edge n p') : (Task.of p).Twin s edge n (.of p') :=
  h

/-! ## What matches a step

A twin that starts where the run has to start in the setting comes to where the run ends. There is
one lemma for each step of a run. -/

/-- At `q` a twin starts that has to match a run from `r` to `r'`. With `edge` the run may come to
the end of the text, and `n` tokens are certain to be left where it starts. -/
structure Setting.Follows (s : Setting) (edge : Bool) (n : Nat) (env env' : Surroundings)
    (r r' q : Reading) : Prop where
  bounds : r.ahead ≠ [] → s.Bounds r.ahead
  ends : r'.ahead ≠ [] ∨ edge = true
  enough : edge = true → n ≤ r.ahead.length
  sets : s.Sets r q
  within : env.Within env'

/-- Every twin of what is done from `r` to `r'` does the same in the setting. -/
def Setting.Matches (s : Setting) (task : Task) (env : Surroundings) (r r' : Reading) : Prop :=
  ∀ {task' : Task} {edge : Bool} {n : Nat} {env' : Surroundings} {q : Reading},
    task.Twin s edge n task' → s.Follows edge n env env' r r' q →
      ∃ q', Runs noError task' env' q q' ∧ s.Sets r' q'

namespace Setting

variable {s : Setting} {edge : Bool} {n : Nat} {env env' : Surroundings} {r m r' q : Reading}
variable {p p₁ p₂ : Production}

/-- A run comes to the end of the text only where that is allowed for. -/
theorem Follows.edge_of_nil (h : s.Follows edge n env env' r r' q) (hl : m.Leads r')
    (hm : m.ahead = []) : edge = true :=
  h.ends.resolve_left fun hr => hr (hl.ahead_eq_nil hm)

theorem Follows.bounds_of_leads (h : s.Follows edge n env env' r r' q) (hl : r.Leads m)
    (hm : m.ahead ≠ []) : s.Bounds m.ahead :=
  (h.bounds fun hr => hm (hl.ahead_eq_nil hr)).of_suffix hl.1 hm

theorem matches_done : s.Matches (.of .done) env r r := by
  intro task' edge n env' q ht hf
  obtain ⟨p', rfl, ht⟩ := ht.of
  cases p' with
  | done => exact ⟨q, .done, hf.sets⟩
  | _ => exact ht.elim

theorem matches_shift : s.Matches (.of .shift) env r r.shift := by
  intro task' edge n env' q ht hf
  obtain ⟨p', rfl, ht⟩ := ht.of
  cases p' with
  | shift =>
    refine ⟨q.shift, .shift, hf.sets.shift fun hr => ?_⟩
    have he := hf.edge_of_nil (.refl _) (by rwa [Reading.shift_nil hr])
    have hpos := Nat.le_trans (ht he) (hf.enough he)
    simp [hr] at hpos
  | _ => exact ht.elim

theorem matches_report {fault : Diagnostic Spot} (h : noError fault) :
    s.Matches (.of (.report fault)) env r (r.report fault) := by
  intro task' edge n env' q ht hf
  obtain ⟨p', rfl, ht⟩ := ht.of
  cases p' with
  | report fault' =>
    obtain he | rfl := ht
    · exact absurd he (Bool.eq_false_iff.mp h)
    · exact ⟨_, .report h, hf.sets.report fault⟩
  | _ => exact ht.elim

/-- Where the first part comes to the end, the second one needs no token. -/
theorem matches_andThen
    (hcall : ∀ rule : Nonterminal, rule.starves = true → rule.production.Starves)
    (h₁ : Runs noError (.of p₁) env r m) (h₂ : Runs noError (.of p₂) env m r')
    (ih₁ : s.Matches (.of p₁) env r m) (ih₂ : s.Matches (.of p₂) env m r') :
    s.Matches (.of (.andThen p₁ p₂)) env r r' := by
  intro task' edge n env' q ht hf
  obtain ⟨p', rfl, ht⟩ := ht.of
  cases p' with
  | andThen p₁' p₂' =>
    obtain ⟨hinner, hedge, hrest⟩ := ht
    have hfirst : ∃ q', Runs noError (.of p₁') env' q q' ∧ s.Sets m q' := by
      by_cases hm : m.ahead = []
      · have he := hf.edge_of_nil h₂.leads hm
        exact ih₁ ((hedge he).resolve_left (h₂.not_starves hcall hm)).task
          ⟨hf.bounds, .inr rfl, fun _ => hf.enough he, hf.sets, hf.within⟩
      · exact ih₁ hinner.task ⟨hf.bounds, .inl hm, nofun, hf.sets, hf.within⟩
    obtain ⟨q₁, hq₁, hsets⟩ := hfirst
    obtain ⟨q₂, hq₂, hsets⟩ := ih₂ (hrest fun hfails => h₁.not_fails (hfails _)).task
      ⟨hf.bounds_of_leads h₁.leads, hf.ends, fun he => h₁.left_le (hf.enough he), hsets, hf.within⟩
    exact ⟨q₂, .andThen hq₁ hq₂, hsets⟩
  | _ => exact ht.elim

theorem matches_group (ih : s.Matches (.of p) env { r with built := [] } m) :
    s.Matches (.of (.group p)) env r { m with built := m.built ++ r.built } := by
  intro task' edge n env' q ht hf
  obtain ⟨p', rfl, ht⟩ := ht.of
  cases p' with
  | group p' =>
    have htwin : p.Twin s edge n p' := ht
    have hq := hf.sets
    obtain ⟨q', hq', hsets⟩ := ih (q := { q with built := [] }) htwin.task
      ⟨hf.bounds, hf.ends, hf.enough, ⟨hq.ahead, hq.index, rfl, hq.faults⟩, hf.within⟩
    exact ⟨_, .group hq', hsets.ahead, hsets.index, by rw [hsets.built, hq.built], hsets.faults⟩
  | _ => exact ht.elim

theorem matches_wrap {k : Kind} (ih : s.Matches (.of p) env r m) :
    s.Matches (.of (.wrap k p)) env r (m.wrap k) := by
  intro task' edge n env' q ht hf
  obtain ⟨p', rfl, ht⟩ := ht.of
  cases p' with
  | wrap k' p' =>
    obtain ⟨rfl, htwin⟩ := ht
    obtain ⟨q', hq', hsets⟩ := ih htwin.task
      ⟨hf.bounds, hf.ends, hf.enough, hf.sets, hf.within⟩
    exact ⟨_, .wrap hq', hsets.ahead, hsets.index, by simp [Reading.wrap, hsets.built],
      hsets.faults⟩
  | _ => exact ht.elim

/-- While a token is left both see the same; at the end of the text the twin sees what comes after
it. -/
theorem matches_look
    (hcall : ∀ rule : Nonterminal, rule.starves = true → rule.production.Starves)
    {next : Lookahead → Production} (h : Runs noError (.of (next (r.look env))) env r r')
    (ih : s.Matches (.of (next (r.look env))) env r r') :
    s.Matches (.of (.look next)) env r r' := by
  intro task' edge n env' q ht hf
  obtain ⟨p', rfl, ht⟩ := ht.of
  cases p' with
  | look next' =>
    by_cases hr : r.ahead = []
    · have he := hf.edge_of_nil h.leads hr
      obtain ⟨hv, hv'⟩ := hf.sets.look_nil hf.within hr
      have hn : n = 0 := Nat.le_zero.mp (by simpa [hr] using hf.enough he)
      have htwin := ht.2 he hn r.index env.context env'.context env.constructs
        (by rw [← hv]; exact h.not_starves hcall hr)
      rw [← hv, ← hv'] at htwin
      obtain ⟨q', hq', hsets⟩ := ih htwin.task
        ⟨hf.bounds, .inr rfl, fun _ => Nat.zero_le _, hf.sets, hf.within⟩
      exact ⟨q', .look hq', hsets⟩
    · obtain ⟨v, hv, hv'⟩ := hf.sets.look hf.within hr (hf.bounds hr)
      have htwin := ht.1 v env'.context ⟨env, r, r', hv.symm, hv ▸ h⟩
      rw [hv, ← hv'] at htwin
      obtain ⟨q', hq', hsets⟩ := ih htwin.task
        ⟨hf.bounds, hf.ends, fun _ => Nat.le_refl _, hf.sets, hf.within⟩
      exact ⟨q', .look hq', hsets⟩
  | _ => exact ht.elim

theorem matches_many {continues : Lookahead → Bool} {item : Option Lookahead → Production}
    (ih : s.Matches (.rest continues item none) env r r') :
    s.Matches (.of (.many continues item)) env r r' := by
  intro task' edge n env' q ht hf
  obtain ⟨p', rfl, ht⟩ := ht.of
  cases p' with
  | many c' f' =>
    have hrest : (Task.rest continues item none).Twin s edge n (.rest c' f' none) :=
      ⟨ht, .inl ⟨rfl, rfl⟩⟩
    obtain ⟨q', hq', hsets⟩ := ih hrest hf
    exact ⟨q', .many hq', hsets⟩
  | _ => exact ht.elim

theorem matches_stop {continues : Lookahead → Bool} {item : Option Lookahead → Production}
    {before : Option Lookahead} (hc : continues (r.look env) = false) :
    s.Matches (.rest continues item before) env r r := by
  intro task' edge n env' q ht hf
  cases task' with
  | rest c' f' before' =>
    obtain ⟨⟨hsame, hedge, -⟩, -⟩ := ht
    refine ⟨q, .stop ?_, hf.sets⟩
    by_cases hr : r.ahead = []
    · rw [(hf.sets.look_nil hf.within hr).2]
      exact (hedge (hf.edge_of_nil (.refl r) hr) r.index env.context env'.context _).2
    · obtain ⟨v, hv, hv'⟩ := hf.sets.look hf.within hr (hf.bounds hr)
      rw [hv', hsame, hv, hc]
  | of => exact ht.elim

/-- A repetition never goes on at the end of the text. -/
theorem matches_turn {continues : Lookahead → Bool} {item : Option Lookahead → Production}
    {before : Option Lookahead} (hc : continues (r.look env) = true) (hi : r.Leads m)
    (hl : m.Leads r') (ihi : s.Matches (.of (item before)) env r m)
    (ihr : s.Matches (.rest continues item (some (r.look env))) env m r') :
    s.Matches (.rest continues item before) env r r' := by
  intro task' edge n env' q ht hf
  cases task' with
  | rest c' f' before' =>
    obtain ⟨⟨hsame, hedge, hitem⟩, hbefore⟩ := ht
    have hr : r.ahead ≠ [] := fun hr => by
      have hstop := (hedge (hf.edge_of_nil (hi.trans hl) hr) r.index env.context env'.context
        env.constructs).1
      rw [← (hf.sets.look_nil hf.within hr).1, hc] at hstop
      cases hstop
    obtain ⟨v, hv, hv'⟩ := hf.sets.look hf.within hr (hf.bounds hr)
    have hcv : continues v.toLookahead = true := hv ▸ hc
    have hturn : (item before).Twin s edge v.ahead.length (f' before') := by
      obtain ⟨rfl, rfl⟩ | ⟨w, context, rfl, rfl⟩ := hbefore
      · exact (hitem v hcv).1
      · exact (hitem v hcv).2 w context
    obtain ⟨q₁, hq₁, hsets⟩ := ihi hturn.task
      ⟨hf.bounds, hf.ends.imp_left fun hne hm => hne (hl.ahead_eq_nil hm),
        fun _ => by rw [hv]; exact Nat.le_refl _, hf.sets, hf.within⟩
    have hrest : (Task.rest continues item (some (r.look env))).Twin s edge 0
        (.rest c' f' (some (q.look env'))) :=
      ⟨⟨hsame, hedge, hitem⟩, .inr ⟨v, env'.context, by rw [hv], by rw [hv']⟩⟩
    obtain ⟨q₂, hq₂, hsets⟩ := ihr hrest
      ⟨hf.bounds_of_leads hi, hf.ends, fun _ => Nat.zero_le _, hsets, hf.within⟩
    exact ⟨q₂, .turn (by rw [hv', hsame, hcv]) hq₁ hq₂, hsets⟩
  | of => exact ht.elim

theorem matches_call
    (hcall : ∀ rule : Nonterminal, rule.starves = true → rule.production.Starves)
    {rule : Nonterminal} (hrule : ∀ edge,
      (edge = true → rule.mayEnd (Token.headKind s.after == .semicolon) = true) →
        rule.production.Twin s edge rule.starves.toNat rule.production)
    (h : Runs noError (.of rule.production) env r r')
    (ih : s.Matches (.of rule.production) env r r') : s.Matches (.of (.call rule)) env r r' := by
  intro task' edge n env' q ht hf
  obtain ⟨p', rfl, ht⟩ := ht.of
  cases p' with
  | call rule' =>
    obtain ⟨rfl, hmay⟩ := ht
    have hneed : rule.starves.toNat ≤ r.ahead.length := by
      cases hs : rule.starves with
      | false => exact Nat.zero_le _
      | true => exact List.length_pos_iff.mpr fun hr => h.not_starves hcall hr (hcall rule hs)
    obtain ⟨q', hq', hsets⟩ := ih (hrule edge hmay).task
      ⟨hf.bounds, hf.ends, fun _ => hneed, hf.sets, hf.within⟩
    exact ⟨q', .call hq', hsets⟩
  | _ => exact ht.elim

theorem matches_inContext {context : Context} (ih : s.Matches (.of p) { env with context } r r') :
    s.Matches (.of (.inContext context p)) env r r' := by
  intro task' edge n env' q ht hf
  obtain ⟨p', rfl, ht⟩ := ht.of
  cases p' with
  | inContext context' p' =>
    have htwin : p.Twin s edge n p' := ht
    have hfollows : s.Follows edge n { env with context } { env' with context := context' }
        r r' q :=
      ⟨hf.bounds, hf.ends, hf.enough, hf.sets, hf.within.constructs, hf.within.room⟩
    obtain ⟨q', hq', hsets⟩ := ih htwin.task hfollows
    exact ⟨q', .inContext hq', hsets⟩
  | _ => exact ht.elim

theorem matches_opening {block : OpenConstruct}
    (ih : s.Matches (.of p) { env with constructs := block :: env.constructs } r r') :
    s.Matches (.of (.opening block p)) env r r' := by
  intro task' edge n env' q ht hf
  obtain ⟨p', rfl, ht⟩ := ht.of
  cases p' with
  | opening block' p' =>
    obtain ⟨rfl, htwin⟩ := ht
    have hfollows : s.Follows edge n { env with constructs := block :: env.constructs }
        { env' with constructs := block :: env'.constructs } r r' q :=
      ⟨hf.bounds, hf.ends, hf.enough, hf.sets, congrArg (block :: ·) hf.within.constructs,
        hf.within.room⟩
    obtain ⟨q', hq', hsets⟩ := ih htwin.task hfollows
    exact ⟨q', .opening hq', hsets⟩
  | _ => exact ht.elim

theorem matches_within (hd : env.depth + 1 ≤ env.limit)
    (ih : s.Matches (.of p₁) { env with depth := env.depth + 1 } r r') :
    s.Matches (.of (.nested p₁ p₂)) env r r' := by
  intro task' edge n env' q ht hf
  obtain ⟨p', rfl, ht⟩ := ht.of
  cases p' with
  | nested p' tooDeep =>
    have hroom := hf.within.room
    have hfollows : s.Follows edge n { env with depth := env.depth + 1 }
        { env' with depth := env'.depth + 1 } r r' q :=
      ⟨hf.bounds, hf.ends, hf.enough, hf.sets, hf.within.constructs, by simp only; omega⟩
    obtain ⟨q', hq', hsets⟩ := ih (Production.Twin.task ht.1) hfollows
    exact ⟨q', .within (by omega) hq', hsets⟩
  | _ => exact ht.elim

/-- A level that may not be entered costs an error. -/
theorem matches_beyond
    (h : Runs noError (.of p₂) { env with depth := env.depth + 1 } r r') :
    s.Matches (.of (.nested p₁ p₂)) env r r' := by
  intro task' edge n env' q ht hf
  obtain ⟨p', rfl, ht⟩ := ht.of
  cases p' with
  | nested p' tooDeep => exact absurd (ht.2 _) h.not_fails
  | _ => exact ht.elim

end Setting

/-- **Twins run alike.** A run without errors on a text is matched by a run of the twin on the text
in its setting, and both come to the same place with the same trees. -/
theorem Runs.twin {s : Setting}
    (hcall : ∀ rule : Nonterminal, rule.starves = true → rule.production.Starves)
    (hrule : ∀ (rule : Nonterminal) edge,
      (edge = true → rule.mayEnd (Token.headKind s.after == .semicolon) = true) →
        rule.production.Twin s edge rule.starves.toNat rule.production)
    {task : Task} {env : Surroundings} {r r' : Reading} (h : Runs noError task env r r') :
    s.Matches task env r r' := by
  induction h with
  | done => exact Setting.matches_done
  | andThen h₁ h₂ ih₁ ih₂ => exact Setting.matches_andThen hcall h₁ h₂ ih₁ ih₂
  | shift => exact Setting.matches_shift
  | group _ ih => exact Setting.matches_group ih
  | wrap _ ih => exact Setting.matches_wrap ih
  | look h ih => exact Setting.matches_look hcall h ih
  | many _ ih => exact Setting.matches_many ih
  | stop hc => exact Setting.matches_stop hc
  | turn hc hi hr ihi ihr => exact Setting.matches_turn hc hi.leads hr.leads ihi ihr
  | @call rule _ _ _ h ih => exact Setting.matches_call hcall (hrule rule) h ih
  | report hf => exact Setting.matches_report hf
  | inContext _ ih => exact Setting.matches_inContext ih
  | opening _ ih => exact Setting.matches_opening ih
  | within hd _ ih => exact Setting.matches_within hd ih
  | beyond _ h _ => exact Setting.matches_beyond h

end Modelica
