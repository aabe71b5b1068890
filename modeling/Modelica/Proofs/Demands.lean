import Mathlib.Tactic.Simps.Basic
import Modelica.Proofs.Run

/-!
# What is asked of each step

A statement about all steps of all runs is split in two. What it asks of the steps of one production
is a `Demand`, and `Production.Meets` reads off a production, from the place `v` where it starts,
whether its steps meet it. A run then goes from one production that meets its demand to the next,
since a demand also says which calls are good ones.

A step is judged by what lies ahead of it. After a first step the tokens ahead may be any, since it
is not known how many were read, but the context and the open blocks are still the same.
-/

namespace Modelica

/-- What is asked of the steps of a production. -/
structure Demand where
  /-- Of the places where it looks ahead. -/
  look : Lookahead → Prop
  /-- Of the diagnostics it reports. -/
  report : Lookahead → Diagnostic Spot → Prop
  /-- Of the rules it calls. -/
  call : Lookahead → Nonterminal → Prop
  /-- Of the nodes it puts over what a production reads. -/
  wrap : Kind → Lookahead → Production → Prop
  /-- Of steps that are judged together and not one by one. -/
  whole : Production → Prop

namespace Demand

/-- Diagnostics are errors at the place ahead. The end of a class may warn about a name, and then it
reads the name; it is judged as a whole. -/
def prompt : Demand where
  look _ := True
  report v d := d.place = v.index ∧ d.severity = .error
  call _ _ := True
  wrap _ _ _ := True
  whole p := ∃ name opened, p = Grammar.classEnd name opened

@[simp] theorem prompt_report {v : Lookahead} {d : Diagnostic Spot} :
    prompt.report v d ↔ d.place = v.index ∧ d.severity = .error := Iff.rfl

@[simp] theorem prompt_look {v : Lookahead} : prompt.look v := True.intro

@[simp] theorem prompt_call {v : Lookahead} {rule : Nonterminal} : prompt.call v rule := True.intro

@[simp] theorem prompt_wrap {kind : Kind} {v : Lookahead} {p : Production} :
    prompt.wrap kind v p := True.intro

end Demand

namespace Production

/-- The steps of a production that starts at `v` meet a demand. -/
@[simp] def Meets (d : Demand) : Production → Lookahead → Prop
  | done, _ | shift, _ => True
  | andThen p q, v => p.Meets d v ∧ ∀ ahead index, q.Meets d { v with ahead, index }
  | group p, v => p.Meets d v
  | wrap kind p, v => d.wrap kind v p ∧ p.Meets d v
  | look next, v => d.look v ∧ (¬ d.whole (look next) → (next v).Meets d v)
  | many continues item, v => ∀ ahead index, d.look { v with ahead, index } ∧
    (continues { v with ahead, index } = true →
      ∀ before, (item before).Meets d { v with ahead, index })
  | call rule, v => d.call v rule
  | report fault, v => d.report v fault
  | inContext context p, v => p.Meets d { v with context }
  | opening block p, v => p.Meets d { v with constructs := block :: v.constructs }
  | nested p q, v => p.Meets d v ∧ q.Meets d v

end Production

/-- What there is to do meets a demand. -/
def Task.Meets (d : Demand) : Task → Lookahead → Prop
  | of p, v => p.Meets d v
  | rest continues item _, v => (Production.many continues item).Meets d v

namespace Production

variable {d : Demand} {p q : Production} {ps : List Production} {v : Lookahead}

@[simp] theorem meets_ite {c : Prop} [Decidable c] : (if c then p else q).Meets d v ↔
    (c → p.Meets d v) ∧ (¬ c → q.Meets d v) := by
  split <;> simp [*]

@[simp] theorem meets_seq_nil : (seq []).Meets d v := True.intro

@[simp] theorem meets_seq_cons : (seq (p :: ps)).Meets d v ↔
    p.Meets d v ∧ ∀ ahead index, (seq ps).Meets d { v with ahead, index } := by
  cases ps with
  | nil => exact (and_iff_left fun _ _ => True.intro).symm
  | cons q qs => exact Iff.rfl

@[simp] theorem meets_shifts (n : Nat) : (shifts n).Meets d v := by
  induction n generalizing v with
  | zero => exact True.intro
  | succ n ih => exact ⟨True.intro, fun _ _ => ih⟩

end Production

/-- Where the rules meet the demand that they are called under, all reports are as demanded. -/
theorem Runs.demanded {d : Demand} (hd : ∀ p, ¬ d.whole p)
    (hc : ∀ {v rule}, d.call v rule → rule.production.Meets d v)
    {allowed : Diagnostic Spot → Prop} {task : Task} {env : Surroundings} {r r' : Reading}
    (h : Runs allowed task env r r') (ht : task.Meets d (r.look env)) :
    Runs (fun fault => allowed fault ∧ ∃ v, d.report v fault) task env r r' := by
  induction h with
  | done => exact .done
  | andThen _ _ ihp ihq => exact .andThen (ihp ht.1) (ihq (ht.2 _ _))
  | shift => exact .shift
  | group _ ih => exact .group (ih ht)
  | wrap _ ih => exact .wrap (ih ht.2)
  | look _ ih => exact .look (ih (ht.2 (hd _)))
  | many _ ih => exact .many (ih ht)
  | stop hs => exact .stop hs
  | turn hs _ _ ihi ihr => exact .turn hs (ihi ((ht _ _).2 hs _)) (ihr ht)
  | call _ ih => exact .call (ih (hc ht))
  | report hf => exact .report ⟨hf, _, ht⟩
  | inContext _ ih => exact .inContext (ih ht)
  | opening _ ih => exact .opening (ih ht)
  | within hl _ ih => exact .within hl (ih ht.1)
  | beyond hl _ ih => exact .beyond hl (ih ht.2)

end Modelica
