import Mathlib.Logic.Relation
import Modelica.Proofs.Checks
import Modelica.Proofs.Lossless
import Modelica.Proofs.Moments
import Modelica.Proofs.Trivia

/-!
# No clause is ambiguous

A clause would be ambiguous if a block of another category stood between it and its owner. While a
text is read this does not come about: whenever open blocks are asked for the owner of a clause, all
of them have the category that is asked for.

* `Runs.reported`: what a run reports, given the blocks that are open where it starts;
* `Moment.Step.sound`: a step keeps what each layer asks;
* `Moment.Reached.sound`: so it holds whenever a text is read;
* `resolution_uniform`: owners are sought among blocks of one category, and found or not.
-/

namespace Modelica

/-- What a rule of the layer may report when it starts at a place with these blocks open. -/
structure Layer.Reported (layer : Layer) (start : Spot) (constructs : List OpenConstruct)
    (d : Diagnostic Spot) : Prop where
  place : start ≤ d.place
  decided : d.code ≠ .ambiguousClause
  orphan : d.IsOrphan → layer ≠ .plain ∧
    ∃ k, d.found = some k ∧ (clauseOwner? k).isSome ∧ Unclaimed constructs k

section

variable {layer : Layer} {start : Spot} {constructs : List OpenConstruct} {d : Diagnostic Spot}

theorem Layer.Reported.earlier {start' : Spot} (h : layer.Reported start constructs d)
    (hs : start' ≤ start) : layer.Reported start' constructs d :=
  ⟨hs.trans h.place, h.decided, h.orphan⟩

/-- What no block claims, no block claims when fewer are open. -/
theorem Layer.Reported.outside {block : OpenConstruct}
    (h : layer.Reported start (block :: constructs) d) : layer.Reported start constructs d := by
  refine ⟨h.place, h.decided, fun ho => ?_⟩
  obtain ⟨hl, k, hf, hk, hu⟩ := h.orphan ho
  exact ⟨hl, k, hf, hk, fun owner he b hb => hu owner he b (.tail _ hb)⟩

theorem Layer.Reported.called {callee : Layer} (h : callee.Reported start constructs d)
    (hc : layer.Calls callee) : layer.Reported start constructs d := by
  refine ⟨h.place, h.decided, fun ho => ?_⟩
  obtain ⟨hl, hk⟩ := h.orphan ho
  refine ⟨?_, hk⟩
  rintro rfl
  exact hl hc

end

/-- A run reports what its layer may report. -/
theorem Runs.reported {allowed : Diagnostic Spot → Prop} {task : Task} {env : Surroundings}
    {r r' : Reading} (h : Runs allowed task env r r') {layer : Layer}
    (ht : task.Meets layer.demand (r.look env)) :
    ∀ d ∈ r'.faults, d ∈ r.faults ∨ layer.Reported r.index env.constructs d := by
  induction h generalizing layer with
  | done | stop _ => exact fun _ => .inl
  | andThen hp _ ihp ihq =>
    intro d hd
    rcases ihq (ht.2 _ _) d hd with hm | hm
    · exact ihp ht.1 d hm
    · exact .inr (hm.earlier hp.leads.index_le)
  | shift => exact fun d hd => .inl (Reading.shift_faults _ ▸ hd)
  | group _ ih | many _ ih | inContext _ ih => exact ih ht
  | wrap _ ih => exact ih ht.2
  | look _ ih => exact ih (ht.2 id)
  | turn hc hi _ ihi ihr =>
    intro d hd
    rcases ihr ht d hd with hm | hm
    · exact ihi ((ht _ _).2 hc _) d hm
    · exact .inr (hm.earlier hi.leads.index_le)
  | call _ ih =>
    exact fun d hd => (ih (Nonterminal.layer_production ht.1) d hd).imp_right (·.called ht.2)
  | @report fault env r _ =>
    intro d hd
    rcases r.report_eq fault with he | ⟨he, -⟩ <;> rw [he] at hd
    · exact .inl hd
    · rcases List.mem_cons.mp hd with rfl | hd
      · obtain ⟨hp, hc, ho⟩ := ht
        exact .inr ⟨hp.ge, hc, fun hi => ⟨(ho hi).1, _, (ho hi).2⟩⟩
      · exact .inl hd
  | opening _ ih => exact fun d hd => (ih ht d hd).imp_right (·.outside)
  | within _ _ ih => exact ih ht.1
  | beyond _ _ ih => exact ih ht.2

namespace Task

/-- The next step of the task looks ahead. -/
def LooksAhead : Task → Prop
  | of (.look _) | rest _ _ _ => True
  | _ => False

/-- A step that looks ahead goes on in the same way with these blocks open. -/
def SameWith (v : Lookahead) (constructs : List OpenConstruct) : Task → Prop
  | of (.look next) => next (v.withBlocks constructs) = next v
  | rest continues _ _ => continues (v.withBlocks constructs) = continues v
  | _ => True

/-- What there is to do is the same for blocks that are alike. -/
def Respects (alike : List OpenConstruct → List OpenConstruct → Prop) : Task → Prop
  | of p => p.Respects alike
  | rest continues item _ => (Production.many continues item).Respects alike

theorem Respects.sameWith {alike : List OpenConstruct → List OpenConstruct → Prop} {task : Task}
    {v : Lookahead} {constructs : List OpenConstruct} (h : task.Respects alike)
    (ha : alike v.constructs constructs) : task.SameWith v constructs := by
  cases task with
  | rest continues item before => exact h.1 v constructs ha
  | of p =>
    cases p with
    | look next => exact h.1 v constructs ha
    | _ => exact True.intro

theorem admits_of_looksAhead {layer : Layer} {task : Task} {v : Lookahead}
    (h : task.Meets layer.demand v) (hl : task.LooksAhead) : layer.Admits v.constructs := by
  cases task with
  | rest continues item before => exact (h v.ahead v.index).1
  | of p =>
    cases p with
    | look next => exact h.1
    | _ => exact absurd hl id

end Task

namespace Moment

/-- The layer of the rule that is read. Outside of all rules no block is open. -/
def layer (m : Moment) : Layer := (m.rule.map Nonterminal.layer).getD .classes

/-- What there is to do at a moment meets what its layer asks. -/
structure Sound (m : Moment) : Prop where
  meets : m.task.Meets m.layer.demand (m.reading.look m.env)
  respects : m.task.Respects m.layer.Alike

variable {m m' : Moment} {limit : Nat} {text : String}

theorem Step.sound (h : Step m m') (hm : m.Sound) : m'.Sound := by
  obtain ⟨ht, hr⟩ := hm
  cases h with
  | first => exact ⟨ht.1, hr.1⟩
  | second => exact ⟨ht.2 _ _, hr.2⟩
  | group | many | inContext | opening => exact ⟨ht, hr⟩
  | wrap => exact ⟨ht.2, hr⟩
  | look => exact ⟨ht.2 id, hr.2 _⟩
  | turn hc => exact ⟨(ht _ _).2 hc _, hr.2 _⟩
  | again => exact ⟨ht, hr⟩
  | @call _ callee => exact ⟨Nonterminal.layer_production ht.1, callee.respects_production⟩
  | within => exact ⟨ht.1, hr.1⟩
  | beyond => exact ⟨ht.2, hr.2⟩

theorem Starts.sound (h : Starts limit text m) : m.Sound := by
  cases h with
  | whole => exact ⟨⟨Nonterminal.entered_storedDefinition rfl, True.intro⟩, True.intro⟩
  | fragment rule => exact ⟨rule.layer_scratch rfl, rule.respects_scratch _⟩

theorem Reached.sound (h : Reached limit text m) : m.Sound := by
  obtain ⟨start, hs, hr⟩ := h
  induction hr with
  | refl => exact hs.sound
  | tail _ step ih => exact step.sound ih

/-- While the body of an `if` is read, the `if` is open. -/
theorem exists_ifBody (rule : Option Nonterminal) {family : Family} {env : Surroundings}
    {r r' : Reading} (h : Runs anyReport (.of (.call (.ifBlock family))) env r r') :
    ∃ m, Relation.ReflTransGen Step ⟨rule, .of (.call (.ifBlock family)), env, r⟩ m ∧
      m.task.LooksAhead ∧ m.layer = .items family ∧
      m.env.constructs = ⟨.ifBlock, family.category⟩ :: env.constructs := by
  obtain ⟨_, h, -⟩ := runs_node.mp (runs_look.mp (runs_call.mp h))
  obtain ⟨_, h₁, h⟩ := runs_andThen.mp h
  obtain ⟨_, h₂, h⟩ := runs_andThen.mp h
  obtain ⟨m, h₃, -⟩ := runs_andThen.mp h
  refine ⟨⟨some (.body family), .rest _ _ none, _, m⟩,
    .head .call <| .head .look <| .head .group <| .head .wrap <| .head (.second h₁) <|
      .head (.second h₂) <| .head (.second h₃) <| .head .first <| .head .opening <|
      .head .first <| .head .call <| .head .many .refl, True.intro, rfl, rfl⟩

end Moment

/-- No diagnostic says that a clause is ambiguous. -/
def Parse.Decided (p : Parse) : Prop := ∀ d ∈ p.faults, d.code ≠ .ambiguousClause

theorem Parse.decided_ofProduction {p : Production} (ht : p.Tame) {limit : Nat}
    (hm : ∀ v, v.constructs = [] → p.Meets Layer.classes.demand v) (text : String) :
    (ofProduction p limit text).Decided := by
  intro d hd
  rcases isLexical_or_reported hd with hl | ⟨e, he, rfl⟩
  · intro hc
    rw [hc] at hl
    exact absurd hl (by decide)
  · have hr := (p.runs_read ht limit (Token.significant (tokenize text))).reported (hm _ rfl)
    exact ((hr e he).resolve_left (nomatch ·)).decided

theorem Parse.decided_storedDefinition (limit : Nat) (text : String) :
    (ofProduction (.call .storedDefinition) limit text).Decided :=
  decided_ofProduction (p := .call .storedDefinition) True.intro
    (fun _ hv => ⟨Nonterminal.entered_storedDefinition hv, True.intro⟩) text

theorem Parse.decided_scratch (rule : FragmentRule) (limit : Nat) (text : String) :
    (ofProduction rule.scratch limit text).Decided :=
  decided_ofProduction rule.tame_scratch (fun _ hv => rule.layer_scratch hv) text

/-- The owner of a clause is always sought among blocks of one category. At every moment of the
reading of a text that looks ahead, the open blocks matter only in rules for items, and there only
by who owns a clause of the category of the items and by the `end` they wait for; all of them have
that category, so no clause is ambiguous. No parse reports that one is. -/
theorem resolution_uniform (text : String) :
    (∀ limit m, Moment.Reached limit text m → m.task.LooksAhead →
      (∀ constructs, m.layer.Alike m.env.constructs constructs →
        m.task.SameWith (m.reading.look m.env) constructs) ∧
      ∀ family, m.layer = .items family →
        (∀ block ∈ m.env.constructs, block.category = family.category) ∧
        ∀ clause, resolveClause m.env.constructs clause family.category ≠ .ambiguous) ∧
    (parse text).Decided ∧
    (∀ limit, ∃ p, parseWith ⟨limit, false⟩ text = .ok p ∧ p.Decided) ∧
    ∀ rule : FragmentRule, (parseFragment rule text).parse.Decided ∧
      ∀ limit, (Parse.ofProduction rule.scratch limit text).Decided := by
  refine ⟨fun limit m hm hl => ?_, Parse.decided_storedDefinition _ text, fun limit => ?_,
    fun rule => ⟨?_, fun limit => Parse.decided_scratch rule limit text⟩⟩
  · obtain ⟨ht, hr⟩ := hm.sound
    refine ⟨fun constructs ha => hr.sameWith ha, fun family hf => ?_⟩
    have hu : (Layer.items family).Admits m.env.constructs := hf ▸ Task.admits_of_looksAhead ht hl
    exact ⟨hu, fun _ => resolveClause_ne_ambiguous hu⟩
  · exact ⟨_, rfl, Parse.decided_storedDefinition limit text⟩
  · intro d hd
    rw [parseFragment_faults] at hd
    exact Parse.decided_scratch rule _ text d hd

/-- In the body of an `if` equation the `if` is open, and every clause keyword has an owner there or
is an orphan. -/
theorem resolution_uniform_ifBody : ∃ m, Moment.Reached 1 "if" m ∧ m.task.LooksAhead ∧
    m.env.constructs = [⟨.ifBlock, .equation⟩] ∧
    ∀ clause, resolveClause m.env.constructs clause .equation ≠ .ambiguous := by
  have hk : Token.headKind (Token.significant (tokenize "if")) = .ifKw := by decide +kernel
  have h := FragmentRule.equation.scratch.runs_read (FragmentRule.tame_scratch _) 1
    (Token.significant (tokenize "if"))
  obtain ⟨_, h, -⟩ := runs_node.mp h
  obtain ⟨_, h, -⟩ := runs_seq_cons.mp h
  cases runs_call.mp (runs_inContext.mp h) with
  | beyond hb => exact absurd (Nat.le_refl 1) hb
  | within hd h =>
    have h := runs_look.mp h
    simp only [Lookahead.kind, Reading.look, Reading.start, hk] at h
    obtain ⟨m, hs, hl, hm, hb⟩ := Moment.exists_ifBody (some .equation) h
    have hr : Moment.Reached 1 "if" m := by
      refine ⟨_, .fragment .equation, .head .group <| .head .wrap <| .head .first <|
        .head .inContext <| .head .call <| .head (.within hd) <| .head .look ?_⟩
      simp only [Lookahead.kind, Reading.look, Reading.start, hk]
      exact hs
    have hu := ((resolution_uniform "if").1 1 m hr hl).2 .equations hm
    exact ⟨m, hr, hl, hb, hu.2⟩

end Modelica
