import Modelica.Proofs.Run

/-!
# Literals are single tokens

A literal is a node over one token and nothing else.
-/

namespace Modelica

/-- The tokens that a literal may be. Other nodes are not said to be one token. -/
def Kind.literalTokens : Kind → List Kind
  | .unsignedIntegerLiteral => [.unsignedInteger]
  | .unsignedRealLiteral => [.unsignedReal]
  | .stringLiteral => [.string]
  | .logicalLiteral => [.trueKw, .falseKw]
  | _ => []

/-- The rule may be called: it makes no literal of a whole statement. -/
def Nonterminal.SparesLiterals : Nonterminal → Prop
  | keywordStatement kind => kind.literalTokens = []
  | _ => True

namespace Production

/-- A production puts a literal over one token that it has seen ahead, and only in a group that
holds nothing yet. -/
@[simp] def Lone : Production → Bool → Kind → Prop
  | done, _, _ | shift, _, _ | report _, _, _ => True
  | andThen p q, fresh, ahead => p.Lone fresh ahead ∧ ∀ next, q.Lone false next
  | group p, _, ahead => p.Lone true ahead
  | wrap k p, fresh, ahead =>
    if k.literalTokens = [] then p.Lone fresh ahead
    else fresh = true ∧ p = shift ∧ ahead ∈ k.literalTokens
  | look next, fresh, _ => ∀ v, (next v).Lone fresh v.kind
  | many _ item, _, _ => ∀ before next, (item before).Lone false next
  | call rule, _, _ => rule.SparesLiterals
  | inContext _ p, fresh, ahead | opening _ p, fresh, ahead => p.Lone fresh ahead
  | nested p q, fresh, ahead => p.Lone fresh ahead ∧ q.Lone fresh ahead

variable {p q : Production} {ps : List Production} {fresh : Bool} {ahead : Kind}

@[simp] theorem lone_ite {c : Prop} [Decidable c] : (if c then p else q).Lone fresh ahead ↔
    (c → p.Lone fresh ahead) ∧ (¬ c → q.Lone fresh ahead) := by
  split <;> simp [*]

@[simp] theorem seq_singleton : seq [p] = p := rfl

@[simp] theorem lone_seq_nil : (seq []).Lone fresh ahead := True.intro

@[simp] theorem lone_seq_cons : (seq (p :: ps)).Lone fresh ahead ↔
    p.Lone fresh ahead ∧ ∀ next, (seq ps).Lone false next := by
  cases ps with
  | nil => exact (and_iff_left fun _ => True.intro).symm
  | cons q qs => exact Iff.rfl

@[simp] theorem lone_shifts (n : Nat) : (shifts n).Lone fresh ahead := by
  induction n generalizing fresh ahead with
  | zero => exact True.intro
  | succ n ih => exact ⟨True.intro, fun _ => ih⟩

end Production

end Modelica
