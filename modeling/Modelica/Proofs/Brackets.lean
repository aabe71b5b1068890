import Modelica.Proofs.Run

/-!
# Brackets of productions

The brackets of expressions hold rules that put no bracket of their own around what they call
before they have gone one level deeper.
-/

namespace Modelica

/-- The brackets that hold expressions. -/
def Kind.brackets : List Kind := [
  .parenthesizedExpression, .arrayConcatenation, .arrayConstructor, .arraySubscripts,
  .functionArguments]

/-- The rule may be called. Where there is no room for a bracket around what it calls, only some
rules may be. -/
def Nonterminal.fits : Nonterminal → Bool → Bool
  | name, _ | typeSpecifier, _ | subscript, _ | expression, _ | functionArgument, _
  | namedArgument, _ | partialApplication, _ | forIndex, _ | expressionList, _ => true
  | keywordStatement kind, roomy => roomy && !Kind.brackets.contains kind
  | _, roomy => roomy

namespace Production

/-- A production puts a bracket only around a group of its own, with no room for a second one in
it. There is room again one level deeper. -/
@[simp] def Narrow : Production → Bool → Bool → Prop
  | done, _, _ | shift, _, _ | report _, _, _ => True
  | andThen p q, fresh, roomy => p.Narrow fresh roomy ∧ q.Narrow false roomy
  | group p, _, roomy => p.Narrow true roomy
  | wrap k p, fresh, roomy =>
    if k ∈ Kind.brackets then fresh = true ∧ roomy = true ∧ p.Narrow true false
    else p.Narrow fresh roomy
  | look next, fresh, roomy => ∀ v, (next v).Narrow fresh roomy
  | many _ item, _, roomy => ∀ before, (item before).Narrow false roomy
  | call rule, _, roomy => rule.fits roomy = true
  | inContext _ p, fresh, roomy | opening _ p, fresh, roomy => p.Narrow fresh roomy
  | nested p q, fresh, _ => p.Narrow fresh true ∧ q.Narrow fresh false

variable {p q : Production} {ps : List Production} {k : Kind} {fresh roomy : Bool}

@[simp] theorem narrow_ite {c : Prop} [Decidable c] : (if c then p else q).Narrow fresh roomy ↔
    (c → p.Narrow fresh roomy) ∧ (¬ c → q.Narrow fresh roomy) := by
  split <;> simp [*]

@[simp] theorem narrow_seq_nil : (seq []).Narrow fresh roomy := True.intro

@[simp] theorem narrow_seq_cons : (seq (p :: ps)).Narrow fresh roomy ↔
    p.Narrow fresh roomy ∧ (seq ps).Narrow false roomy := by
  cases ps with
  | nil => exact (and_iff_left True.intro).symm
  | cons q qs => exact Iff.rfl

@[simp] theorem narrow_shifts (n : Nat) : (shifts n).Narrow fresh roomy := by
  induction n generalizing fresh with
  | zero => exact True.intro
  | succ n ih => exact ⟨True.intro, ih⟩

end Production

end Modelica
