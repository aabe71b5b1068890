import Modelica.Proofs.Building

/-!
# Productions that are certain to read

What is read without errors is not empty, except for a few rules. So the nodes of a clean tree have
tokens in them: each is put over something that is certain to be read.

`Nonterminal.gains` and `Nonterminal.bears` say which rules are the exceptions, and where. That the
grammar keeps to them is shown in `Proofs.Checks`.
-/

namespace Modelica

namespace Nonterminal

/-- Started here, the rule reads a token or reports an error. -/
def gains : Nonterminal → Lookahead → Prop
  | comment, _ | typePrefix, _ | classBody, _ | storedDefinition, _ | sectionBody _, _
  | body _, _ => False
  | elements, v => v.atSectionBoundary = false
  | elseClause _, v => v.kind ≠ .endOfInput
  | _, _ => True

/-- Started here, the rule puts nodes over tokens only. A whole text may be empty. -/
def bears (rule : Nonterminal) (v : Lookahead) : Prop :=
  rule ≠ storedDefinition ∧ ∀ family, rule = elseClause family → v.kind ≠ .endOfInput

end Nonterminal

namespace Production

/-- Started at `v`, the production reads a token or reports an error. -/
@[simp] def Gains : Production → Lookahead → Prop
  | done, _ => False
  | shift, v => v.kind ≠ .endOfInput
  | report fault, _ => fault.isError = true
  | andThen p q, v => p.Gains v ∨ ∀ ahead index, q.Gains { v with ahead, index }
  | group p, v | wrap _ p, v => p.Gains v
  | look next, v => (next v).Gains v
  | many continues item, v => continues v = true ∧ (item none).Gains v
  | call rule, v => rule.gains v
  | inContext context p, v => p.Gains { v with context }
  | opening block p, v => p.Gains { v with constructs := block :: v.constructs }
  | nested p q, v => p.Gains v ∧ q.Gains v

/-- Started at `v`, in a group that has a token already or not, the production puts nodes over
tokens only, unless it has reported an error. -/
@[simp] def Bears : Production → Lookahead → Prop → Prop
  | done, _, _ | shift, _, _ | report _, _, _ => True
  | andThen p q, v, filled => p.Bears v filled ∧
    (p.Fails v ∨ ∀ ahead index, q.Bears { v with ahead, index } (filled ∨ p.Gains v))
  | group p, v, _ => p.Bears v False
  | wrap _ p, v, filled => p.Bears v filled ∧ (filled ∨ p.Gains v)
  | look next, v, filled => (next v).Bears v filled
  | many continues item, v, filled => ∀ ahead index, continues { v with ahead, index } = true →
    ∀ before, (item before).Bears { v with ahead, index } filled
  | call rule, v, _ => rule.bears v
  | inContext context p, v, filled => p.Bears { v with context } filled
  | opening block p, v, filled => p.Bears { v with constructs := block :: v.constructs } filled
  | nested p q, v, filled => p.Bears v filled ∧ q.Bears v filled

variable {p q : Production} {ps : List Production} {v : Lookahead} {filled : Prop}
variable {k : Kind} {ks : List Kind} {code : Code} {message : String}

@[simp] theorem gains_ite {c : Prop} [Decidable c] : (if c then p else q).Gains v ↔
    (c → p.Gains v) ∧ (¬ c → q.Gains v) := by
  split <;> simp [*]

@[simp] theorem gains_seq_nil : ¬ (seq []).Gains v := id

@[simp] theorem gains_seq_cons : (seq (p :: ps)).Gains v ↔
    p.Gains v ∨ ∀ ahead index, (seq ps).Gains { v with ahead, index } := by
  cases ps with
  | nil => simp [seq]
  | cons q qs => exact Iff.rfl

@[simp] theorem gains_node : (node k ps).Gains v ↔ (seq ps).Gains v := Iff.rfl

@[simp] theorem gains_deeper : (deeper p).Gains v ↔ p.Gains v := and_iff_left (.inl rfl)

@[simp] theorem gains_fault : (fault code message).Gains v := rfl

@[simp] theorem gains_missing : (missing code ks).Gains v := rfl

@[simp] theorem gains_skipUntil : (skipUntil code message ks).Gains v := .inl rfl

@[simp] theorem gains_skipThroughSemicolon : (skipThroughSemicolon code message).Gains v := .inl rfl

theorem gains_shift (h : v.sees k = true) (hk : k ≠ .endOfInput) : shift.Gains v := by
  rw [Gains, kind_of_sees h]
  exact hk

@[simp] theorem gains_expect (hk : k ≠ .endOfInput) : (expect k).Gains v :=
  gains_ite.mpr ⟨fun h => gains_shift h hk, fun _ => gains_missing⟩

@[simp] theorem gains_expectThen (hk : k ≠ .endOfInput) : (expectThen k p).Gains v :=
  gains_ite.mpr ⟨fun h => .inl (gains_shift h hk), fun _ => gains_missing⟩

/-- Whether a separator follows is not known. -/
@[simp] theorem gains_separated : (separated k p).Gains v ↔ p.Gains v := by
  refine or_iff_left fun h => ?_
  by_cases hk : k = .ident
  · exact absurd (h [⟨.comma, ""⟩] 0).1 (by rw [hk]; exact Bool.false_ne_true)
  · exact hk (kind_of_sees (h [⟨.ident, ""⟩] 0).1).symm

theorem gains_repeatUntil {stop : Lookahead → Bool} (he : v.atEnd = false) (hs : stop v = false)
    (h : p.Gains v) : (repeatUntil stop p).Gains v :=
  ⟨by simp [he, hs], .inl h⟩

@[simp] theorem bears_ite {c : Prop} [Decidable c] : (if c then p else q).Bears v filled ↔
    (c → p.Bears v filled) ∧ (¬ c → q.Bears v filled) := by
  split <;> simp [*]

@[simp] theorem bears_seq_nil : (seq []).Bears v filled := True.intro

@[simp] theorem bears_seq_cons : (seq (p :: ps)).Bears v filled ↔ p.Bears v filled ∧
    (p.Fails v ∨ ∀ ahead index, (seq ps).Bears { v with ahead, index } (filled ∨ p.Gains v)) := by
  cases ps with
  | nil => exact (and_iff_left (.inr fun _ _ => True.intro)).symm
  | cons q qs => exact Iff.rfl

@[simp] theorem bears_shifts (n : Nat) : (shifts n).Bears v filled := by
  induction n generalizing v filled with
  | zero => exact True.intro
  | succ n ih => exact ⟨True.intro, .inr fun _ _ => ih⟩

@[simp] theorem bears_node :
    (node k ps).Bears v filled ↔ (seq ps).Bears v False ∧ (seq ps).Gains v :=
  and_congr_right' (or_iff_right id)

@[simp] theorem bears_fault : (fault code message).Bears v filled := True.intro

@[simp] theorem bears_missing : (missing code ks).Bears v filled := True.intro

@[simp] theorem bears_skipUntil : (skipUntil code message ks).Bears v filled :=
  ⟨True.intro, .inl rfl⟩

@[simp] theorem bears_skipThroughSemicolon : (skipThroughSemicolon code message).Bears v filled :=
  ⟨True.intro, .inl rfl⟩

@[simp] theorem bears_deeper : (deeper p).Bears v filled ↔ p.Bears v filled :=
  and_iff_left ⟨True.intro, .inl rfl⟩

@[simp] theorem bears_accept : (accept k).Bears v filled :=
  bears_ite.mpr ⟨fun _ => True.intro, fun _ => True.intro⟩

@[simp] theorem bears_acceptAny : (acceptAny ks).Bears v filled :=
  bears_ite.mpr ⟨fun _ => True.intro, fun _ => True.intro⟩

@[simp] theorem bears_before : (before k p).Bears v filled ↔ (v.sees k = true → p.Bears v filled) :=
  bears_ite.trans (and_iff_left fun _ => True.intro)

@[simp] theorem bears_expect : (expect k).Bears v filled :=
  bears_ite.mpr ⟨fun _ => True.intro, fun _ => True.intro⟩

@[simp] theorem bears_expectThen : (expectThen k p).Bears v filled ↔ (v.sees k = true →
    ∀ ahead index, p.Bears { v with ahead, index } (filled ∨ v.kind ≠ .endOfInput)) := by
  simp [expectThen, Fails]

@[simp] theorem bears_separated : (separated k p).Bears v filled ↔ p.Bears v filled ∧
    (p.Fails v ∨ ∀ ahead index, Lookahead.sees { v with ahead, index } k = true →
      ∀ ahead' index', p.Bears { v with ahead := ahead', index := index' }
        ((filled ∨ p.Gains v) ∨ Lookahead.kind { v with ahead, index } ≠ .endOfInput)) := by
  simp [separated, Fails]

@[simp] theorem bears_repeatUntil {stop : Lookahead → Bool} : (repeatUntil stop p).Bears v filled ↔
    ∀ ahead index, (!Lookahead.atEnd { v with ahead, index } &&
      !stop { v with ahead, index }) = true → p.Bears { v with ahead, index } filled := by
  simp [repeatUntil]

end Production

end Modelica
