import Modelica.Proofs.Orderly

/-!
# What diagnostics say was found

An error tells which kinds would have been accepted and which one was found. `Diagnostic.Tells`
says how the two relate to the tokens ahead; `Production.Tells` reads off a production that its
errors do.

Two diagnostics about the ends of blocks differ from the others. Where an `end` is left for
something further out, the `end` of the block is reported missing although an `end` comes next. And
where the keyword after an `end` is a wrong one, the diagnostic stands at the `end` but speaks of
that keyword.
-/

namespace Modelica

/-- The keywords that follow the `end` of a block. -/
def Kind.blockKeywords : List Kind := [.ifKw, .forKw, .whenKw, .whileKw]

/-- What an error says that is reported at `v`. -/
inductive Diagnostic.Tells {Place : Type} (d : Diagnostic Place) (v : Lookahead) : Prop
  /-- The next token is found, and it is none of those expected. -/
  | next : d.found = v.found → (∀ k ∈ d.expected, d.found ≠ some k) → Tells d v
  /-- The next `end` closes something further out. -/
  | claimed : d.code = .missingEnd → d.expected = [.endKw] → d.found = some .endKw →
      v.kind = .endKw → Tells d v
  /-- The keyword after the next `end` is found. -/
  | mismatched {keyword : Kind} : d.code = .mismatchedEnd → d.expected = [keyword] →
      d.found = some (v.nth 1) → v.nth 1 ≠ keyword → v.nth 1 ∈ Kind.blockKeywords →
      v.kind = .endKw → Tells d v

namespace Production

/-- `p.Halts v`: the production may come to its end where `v` lies ahead. -/
def Halts : Production → Lookahead → Prop
  | many continues _, v => continues v = false
  | _, _ => True

/-- Started at `v`, the production reports errors at the place ahead, and they tell what comes. -/
@[simp] def Tells : Production → Lookahead → Prop
  | done, _ | shift, _ | call _, _ => True
  | andThen p q, v => p.Tells v ∧
    ∀ ahead index, p.Halts { v with ahead, index } → q.Tells { v with ahead, index }
  | group p, v | wrap _ p, v => p.Tells v
  | look next, v => (next v).Tells v
  | many continues item, v => ∀ ahead index, continues { v with ahead, index } = true →
    ∀ before, (item before).Tells { v with ahead, index }
  | report fault, v => fault.isError = true → fault.place = v.index ∧ fault.Tells v
  | inContext context p, v => p.Tells { v with context }
  | opening block p, v => p.Tells { v with constructs := block :: v.constructs }
  | nested p q, v => p.Tells v ∧ q.Tells v

variable {p q : Production} {ps : List Production} {v : Lookahead} {k : Kind} {ks : List Kind}
variable {code : Code} {message : String}

@[simp] theorem halts_many {continues : Lookahead → Bool} {item : Option Lookahead → Production} :
    (many continues item).Halts v ↔ continues v = false := Iff.rfl

@[simp] theorem halts_shift : shift.Halts v := True.intro

@[simp] theorem tells_ite {c : Prop} [Decidable c] : (if c then p else q).Tells v ↔
    (c → p.Tells v) ∧ (¬ c → q.Tells v) := by
  split <;> simp [*]

@[simp] theorem tells_seq_nil : (seq []).Tells v := True.intro

@[simp] theorem tells_seq_cons : (seq (p :: ps)).Tells v ↔ p.Tells v ∧
    ∀ ahead index, p.Halts { v with ahead, index } → (seq ps).Tells { v with ahead, index } := by
  cases ps with
  | nil => exact (and_iff_left fun _ _ _ => True.intro).symm
  | cons q qs => exact Iff.rfl

@[simp] theorem tells_shifts (n : Nat) : (shifts n).Tells v := by
  induction n generalizing v with
  | zero => exact True.intro
  | succ n ih => exact ⟨True.intro, fun _ _ _ => ih⟩

@[simp] theorem tells_node : (node k ps).Tells v ↔ (seq ps).Tells v := Iff.rfl

theorem sees_eq_false : v.sees k = false ↔ v.kind ≠ k := by
  simp [Lookahead.sees]

theorem seesAny_eq_false : v.seesAny ks = false ↔ v.kind ∉ ks := by
  simp [Lookahead.seesAny]

theorem found_of_kind (hk : v.kind = k) (hn : k ≠ .endOfInput) : v.found = some k := by
  simp [Lookahead.found, Lookahead.atEnd, Lookahead.sees, hk, hn]

/-- What is found is none of these kinds where none of them comes next. -/
theorem found_ne_of_not_mem (h : v.kind ∉ ks) : ∀ k ∈ ks, v.found ≠ some k := by
  intro k hk he
  unfold Lookahead.found at he
  split at he
  · cases he
  · exact h (Option.some.inj he ▸ hk)

section

variable {Place : Type} {place : Place} {severity : Severity} {hint : Option String}
variable {related : List (Related Place)}

theorem tells_found (h : v.kind ∉ ks) :
    Diagnostic.Tells ⟨code, message, place, severity, hint, related, ks, v.found⟩ v :=
  .next rfl (found_ne_of_not_mem h)

theorem tells_kind (hk : v.kind = k) (hn : k ≠ .endOfInput) (h : k ∉ ks) :
    Diagnostic.Tells ⟨code, message, place, severity, hint, related, ks, some k⟩ v := by
  rw [← found_of_kind hk hn]
  exact tells_found (hk ▸ h)

end

@[simp] theorem tells_fault : (fault code message).Tells v :=
  fun _ => ⟨rfl, .next rfl fun _ h => nomatch h⟩

theorem tells_missing (h : v.kind ∉ ks) : (missing code ks).Tells v :=
  fun _ => ⟨rfl, tells_found h⟩

/-- The block ends that follow an `end`. -/
theorem mem_blockKeywords_of_atBlockEnd (h : v.atBlockEnd = true) :
    v.nth 1 ∈ Kind.blockKeywords := by
  simp only [Lookahead.atBlockEnd, Bool.and_eq_true] at h
  have hk := h.2
  split at hk <;> simp_all [Kind.blockKeywords]

@[simp] theorem tells_accept : (accept k).Tells v :=
  tells_ite.mpr ⟨fun _ => True.intro, fun _ => True.intro⟩

@[simp] theorem tells_acceptAny : (acceptAny ks).Tells v :=
  tells_ite.mpr ⟨fun _ => True.intro, fun _ => True.intro⟩

@[simp] theorem tells_before : (before k p).Tells v ↔ (v.sees k = true → p.Tells v) :=
  tells_ite.trans (and_iff_left fun _ => True.intro)

@[simp] theorem tells_expect : (expect k).Tells v :=
  tells_ite.mpr ⟨fun _ => True.intro, fun h => tells_missing (by simp_all [sees_eq_false])⟩

@[simp] theorem tells_expectThen : (expectThen k p).Tells v ↔
    (v.sees k = true → ∀ ahead index, p.Tells { v with ahead, index }) := by
  refine tells_ite.trans ((and_iff_left fun h => ?_).trans ?_)
  · exact tells_missing (by simp_all [sees_eq_false])
  · simp

@[simp] theorem tells_separated : (separated k p).Tells v ↔ p.Tells v ∧
    ∀ ahead index, p.Halts { v with ahead, index } →
      ∀ ahead index, Lookahead.sees { v with ahead, index } k = true →
        ∀ ahead' index', p.Tells { v with ahead := ahead', index := index' } := by
  simp [separated]

@[simp] theorem tells_skipUntil : (skipUntil code message ks).Tells v := by
  simp [skipUntil]

@[simp] theorem tells_skipThroughSemicolon : (skipThroughSemicolon code message).Tells v := by
  simp [skipThroughSemicolon]

@[simp] theorem tells_deeper : (deeper p).Tells v ↔ p.Tells v := by
  simp [deeper, skipNested]

@[simp] theorem tells_repeatUntil {stop : Lookahead → Bool} : (repeatUntil stop p).Tells v ↔
    ∀ ahead index, (!Lookahead.atEnd { v with ahead, index } &&
      !stop { v with ahead, index }) = true → p.Tells { v with ahead, index } := by
  simp [repeatUntil]

end Production

end Modelica
