import Modelica.Proofs.Building

/-!
# Refused levels

Where the bound on levels is reached, a production does something else in place of what it would
read one level deeper. If that something else starts with an error, a run without errors has entered
every level that it came to.
-/

namespace Modelica

namespace Production

/-- Where a level may not be entered, the production is certain to report an error. -/
@[simp] def Refuses : Production → Prop
  | done | shift | call _ | report _ => True
  | andThen p q => p.Refuses ∧ q.Refuses
  | group p | wrap _ p | inContext _ p | opening _ p => p.Refuses
  | look next => ∀ v, (next v).Refuses
  | many _ item => ∀ before, (item before).Refuses
  | nested p q => p.Refuses ∧ ∀ v, q.Fails v

variable {p q : Production} {ps : List Production}

@[simp] theorem refuses_ite {c : Prop} [Decidable c] : (if c then p else q).Refuses ↔
    (c → p.Refuses) ∧ (¬ c → q.Refuses) := by
  split <;> simp [*]

@[simp] theorem refuses_seq_nil : (seq []).Refuses := True.intro

@[simp] theorem refuses_seq_cons : (seq (p :: ps)).Refuses ↔ p.Refuses ∧ (seq ps).Refuses := by
  cases ps with
  | nil => exact (and_iff_left True.intro).symm
  | cons q qs => exact Iff.rfl

@[simp] theorem refuses_shifts (n : Nat) : (shifts n).Refuses := by
  induction n with
  | zero => exact True.intro
  | succ n ih => exact ⟨True.intro, ih⟩

/-- What is nested too deep is reported before it is skipped. -/
@[simp] theorem refuses_deeper : (deeper p).Refuses ↔ p.Refuses :=
  and_iff_left fun _ => fails_fault

end Production

/-- What there is to do reports an error wherever it may not enter a level. -/
def Task.Refuses : Task → Prop
  | of p => p.Refuses
  | rest _ item _ => ∀ before, (item before).Refuses

end Modelica
