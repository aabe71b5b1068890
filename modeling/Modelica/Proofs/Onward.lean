import Modelica.Proofs.Run

/-!
# Diagnostics look back

A production reports nothing at a token that it has left behind, and what it warns about relates to
tokens no further on. Which token is reached is known wherever a production looks ahead.
-/

namespace Modelica

namespace Production

/-- From token `n` on, the production reports nothing before that token, and what it warns about
relates to nothing further on. -/
@[simp] def Onward : Production → Spot → Prop
  | done, _ | shift, _ | call _, _ => True
  | andThen p q, n | nested p q, n => p.Onward n ∧ q.Onward n
  | group p, n | wrap _ p, n | inContext _ p, n | opening _ p, n => p.Onward n
  | look next, n => ∀ v, n ≤ v.index → (next v).Onward v.index
  | many _ item, n => ∀ before, (item before).Onward n
  | report fault, n => n ≤ fault.place ∧
    (fault.isError = true ∨ ∀ related ∈ fault.related, related.place ≤ fault.place)

variable {p q : Production} {ps : List Production} {n : Spot}

@[simp] theorem onward_ite {c : Prop} [Decidable c] : (if c then p else q).Onward n ↔
    (c → p.Onward n) ∧ (¬ c → q.Onward n) := by
  split <;> simp [*]

@[simp] theorem onward_seq_nil : (seq []).Onward n := True.intro

@[simp] theorem onward_seq_cons :
    (seq (p :: ps)).Onward n ↔ p.Onward n ∧ (seq ps).Onward n := by
  cases ps with
  | nil => exact (and_iff_left True.intro).symm
  | cons q qs => exact Iff.rfl

@[simp] theorem onward_shifts (k : Nat) : (shifts k).Onward n := by
  induction k with
  | zero => exact True.intro
  | succ k ih => exact ⟨True.intro, ih⟩

end Production

end Modelica
