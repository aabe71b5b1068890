import Mathlib.Logic.Relation
import Modelica.Fragment
import Modelica.Proofs.Run

/-!
# Moments of a reading

A reading is taken apart into what there is to do at one moment after another.
-/

namespace Modelica

/-- What there is to do at one moment, in which rule, and how far reading has come. -/
structure Moment where
  /-- The rule that is read. A fragment has none around its own. -/
  rule : Option Nonterminal
  task : Task
  env : Surroundings
  reading : Reading

namespace Moment

/-- What comes next: what a task begins with, and what is left of it when that is done. -/
inductive Step : Moment → Moment → Prop
  | first {rule p q env r} : Step ⟨rule, .of (.andThen p q), env, r⟩ ⟨rule, .of p, env, r⟩
  | second {rule p q env r r'} : Runs anyReport (.of p) env r r' →
      Step ⟨rule, .of (.andThen p q), env, r⟩ ⟨rule, .of q, env, r'⟩
  | group {rule p env r} :
      Step ⟨rule, .of (.group p), env, r⟩ ⟨rule, .of p, env, { r with built := [] }⟩
  | wrap {rule k p env r} : Step ⟨rule, .of (.wrap k p), env, r⟩ ⟨rule, .of p, env, r⟩
  | look {rule next env r} :
      Step ⟨rule, .of (.look next), env, r⟩ ⟨rule, .of (next (r.look env)), env, r⟩
  | many {rule continues item env r} :
      Step ⟨rule, .of (.many continues item), env, r⟩ ⟨rule, .rest continues item none, env, r⟩
  | turn {rule continues item before env r} : continues (r.look env) = true →
      Step ⟨rule, .rest continues item before, env, r⟩ ⟨rule, .of (item before), env, r⟩
  | again {rule continues item before env r r'} : continues (r.look env) = true →
      Runs anyReport (.of (item before)) env r r' →
      Step ⟨rule, .rest continues item before, env, r⟩
        ⟨rule, .rest continues item (some (r.look env)), env, r'⟩
  | call {rule callee env r} :
      Step ⟨rule, .of (.call callee), env, r⟩ ⟨some callee, .of callee.production, env, r⟩
  | inContext {rule context p env r} :
      Step ⟨rule, .of (.inContext context p), env, r⟩ ⟨rule, .of p, { env with context }, r⟩
  | opening {rule block p env r} : Step ⟨rule, .of (.opening block p), env, r⟩
      ⟨rule, .of p, { env with constructs := block :: env.constructs }, r⟩
  | within {rule p q env r} : env.depth + 1 ≤ env.limit →
      Step ⟨rule, .of (.nested p q), env, r⟩ ⟨rule, .of p, { env with depth := env.depth + 1 }, r⟩
  | beyond {rule p q env r} : ¬ env.depth + 1 ≤ env.limit →
      Step ⟨rule, .of (.nested p q), env, r⟩ ⟨rule, .of q, { env with depth := env.depth + 1 }, r⟩

/-- Where the reading of a text starts: of a whole text or of a fragment. -/
inductive Starts (limit : Nat) (text : String) : Moment → Prop
  | whole : Starts limit text ⟨none, .of (.call .storedDefinition), ⟨.topLevel, [], 0, limit⟩,
      .start (Token.significant (tokenize text))⟩
  | fragment (rule : FragmentRule) : Starts limit text ⟨none, .of rule.scratch,
      ⟨.topLevel, [], 0, limit⟩, .start (Token.significant (tokenize text))⟩

/-- The moments of the reading of a text. -/
def Reached (limit : Nat) (text : String) (m : Moment) : Prop :=
  ∃ start, Starts limit text start ∧ Relation.ReflTransGen Step start m

variable {m m' : Moment} {r' : Reading}

theorem Step.leads (h : Step m m') : m.reading.Leads m'.reading := by
  cases h with
  | second hp | again _ hp => exact hp.leads
  | _ => exact .refl _

theorem leads_of_steps (h : Relation.ReflTransGen Step m m') : m.reading.Leads m'.reading := by
  induction h with
  | refl => exact .refl _
  | tail _ step ih => exact ih.trans step.leads

/-- Where a task runs to its end, what comes next in it does so too. -/
theorem Step.runs (h : Step m m') (hr : Runs anyReport m.task m.env m.reading r') :
    ∃ r'', Runs anyReport m'.task m'.env m'.reading r'' ∧ r''.faults ⊆ r'.faults := by
  cases h with
  | first =>
    obtain ⟨w, hp, hq⟩ := runs_andThen.mp hr
    exact ⟨w, hp, hq.faults_suffix.subset⟩
  | second hp =>
    obtain ⟨w, hp', hq⟩ := runs_andThen.mp hr
    exact ⟨r', hp'.determined hp ▸ hq, List.Subset.refl _⟩
  | group =>
    obtain ⟨w, hp, rfl⟩ := runs_group.mp hr
    exact ⟨w, hp, List.Subset.refl _⟩
  | wrap =>
    obtain ⟨w, hp, rfl⟩ := runs_wrap.mp hr
    exact ⟨w, hp, List.Subset.refl _⟩
  | look => exact ⟨r', runs_look.mp hr, List.Subset.refl _⟩
  | many => exact ⟨r', runs_many.mp hr, List.Subset.refl _⟩
  | turn hc =>
    cases hr with
    | stop hn => exact absurd (hc.symm.trans hn) (by decide)
    | turn _ hi hn => exact ⟨_, hi, hn.faults_suffix.subset⟩
  | again hc hi =>
    cases hr with
    | stop hn => exact absurd (hc.symm.trans hn) (by decide)
    | turn _ hi' hn => exact ⟨r', hi'.determined hi ▸ hn, List.Subset.refl _⟩
  | call => exact ⟨r', runs_call.mp hr, List.Subset.refl _⟩
  | inContext => exact ⟨r', runs_inContext.mp hr, List.Subset.refl _⟩
  | opening =>
    cases hr with | opening hp => exact ⟨r', hp, List.Subset.refl _⟩
  | within hd =>
    cases hr with
    | within _ hp => exact ⟨r', hp, List.Subset.refl _⟩
    | beyond hn => exact absurd hd hn
  | beyond hd =>
    cases hr with
    | within hn => exact absurd hn hd
    | beyond _ hp => exact ⟨r', hp, List.Subset.refl _⟩

theorem runs_of_steps (h : Relation.ReflTransGen Step m m')
    (hr : Runs anyReport m.task m.env m.reading r') :
    ∃ r'', Runs anyReport m'.task m'.env m'.reading r'' ∧ r''.faults ⊆ r'.faults := by
  induction h with
  | refl => exact ⟨r', hr, List.Subset.refl _⟩
  | tail _ step ih =>
    obtain ⟨w, hw, hs⟩ := ih
    obtain ⟨r'', hr'', hs'⟩ := step.runs hw
    exact ⟨r'', hr'', List.Subset.trans hs' hs⟩

end Moment

end Modelica
