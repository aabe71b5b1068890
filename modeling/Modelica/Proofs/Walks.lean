import Mathlib.Data.List.Dedup
import Mathlib.Data.List.ReduceOption
import Modelica.Proofs.Shape

/-!
# Walking along a shape

A machine reads a list from left to right and may refuse an element. `Shape.track?` follows a
machine that reads the children of a node along a shape, through every state it can be in; where
that succeeds, the machine reads every child list of the shape to its end.
-/

namespace Modelica

variable {α σ : Type}

/-- Reading the list takes the machine from one state to another. -/
inductive Walks (step : σ → α → Option σ) : σ → List α → σ → Prop
  | nil {c} : Walks step c [] c
  | cons {c a as m d} : step c a = some m → Walks step m as d → Walks step c (a :: as) d

/-- Once an element of the sort `p` has gone by, all that follow have to be of the sort `q`. -/
def once (p q : α → Bool) (seen : Bool) (a : α) : Option Bool :=
  if seen && !q a then none else some (seen || p a)

/-- An element of the sort `q` needs one of the sort `p` before it. -/
def needing (p q : α → Bool) (seen : Bool) (a : α) : Option Bool :=
  if q a && !seen then none else some (seen || p a)

namespace Walks

variable {step : σ → α → Option σ} {as bs : List α} {c d e : σ}

theorem append (h : Walks step c as d) (h' : Walks step d bs e) : Walks step c (as ++ bs) e := by
  induction h with
  | nil => exact h'
  | cons hs _ ih => exact .cons hs (ih h')

/-- What is passed over in every state may be left out of the walk. -/
theorem of_filter {q : α → Bool} (hq : ∀ c a, q a = false → step c a = some c)
    (h : Walks step c (as.filter q) d) : Walks step c as d := by
  induction as generalizing c with
  | nil => exact h
  | cons a as ih =>
    cases ha : q a with
    | false =>
      rw [List.filter_cons_of_neg (by simp [ha])] at h
      exact .cons (hq c a ha) (ih h)
    | true =>
      rw [List.filter_cons_of_pos ha] at h
      cases h with
      | cons hs hw => exact .cons hs (ih hw)

theorem of_map {β : Type} {f : β → α} {bs : List β} (h : Walks step c (bs.map f) d) :
    Walks (fun c b => step c (f b)) c bs d := by
  induction bs generalizing c with
  | nil => cases h; exact .nil
  | cons b bs ih =>
    cases h with
    | cons hs hw => exact .cons hs (ih hw)

variable {p q : α → Bool} {seen last : Bool}

theorem once_spec (h : Walks (once p q) seen as last) :
    (seen = true → ∀ a ∈ as, q a = true) ∧ as.Pairwise fun a b => p a = true → q b = true := by
  induction as generalizing seen with
  | nil => exact ⟨fun _ _ ha => (nomatch ha), .nil⟩
  | cons a as ih =>
    cases h with
    | cons hs hw =>
      simp only [once, Option.ite_none_left_eq_some, Option.some.injEq] at hs
      obtain ⟨hq, rfl⟩ := hs
      obtain ⟨hall, hpair⟩ := ih hw
      refine ⟨fun hseen b hb => ?_, .cons (fun b hb hp => hall (by simp [hp]) b hb) hpair⟩
      obtain rfl | hb := List.mem_cons.mp hb
      · simpa [hseen] using hq
      · exact hall (by simp [hseen]) b hb

/-- What is not of the sort `q` does not come after what is of the sort `p`. -/
theorem le_of_once (h : Walks (once p q) seen as last) {i j : Nat} {a b : α} (ha : as[i]? = some a)
    (hb : as[j]? = some b) (hp : p a = true) (hq : q b = false) : j ≤ i := by
  refine Nat.le_of_not_lt fun hij => ?_
  obtain ⟨hi, rfl⟩ := List.getElem?_eq_some_iff.mp ha
  obtain ⟨hj, rfl⟩ := List.getElem?_eq_some_iff.mp hb
  rw [List.pairwise_iff_getElem.mp (once_spec h).2 i j hi hj hij hp] at hq
  cases hq

theorem needing_spec (h : Walks (needing p q) seen as last) {i : Nat} {b : α} (hb : as[i]? = some b)
    (hq : q b = true) : seen = true ∨ ∃ j a, j < i ∧ as[j]? = some a ∧ p a = true := by
  induction as generalizing seen i with
  | nil => cases hb
  | cons a as ih =>
    cases h with
    | cons hs hw =>
      simp only [needing, Option.ite_none_left_eq_some, Option.some.injEq] at hs
      obtain ⟨hseen, rfl⟩ := hs
      cases i with
      | zero =>
        obtain rfl : a = b := by simpa using hb
        exact .inl (by simpa [hq] using hseen)
      | succ i =>
        obtain hor | ⟨j, a', hj, ha, hp⟩ := ih hw (by simpa using hb)
        · refine (Bool.or_eq_true_iff.mp hor).imp id fun hp => ⟨0, a, ?_, rfl, hp⟩
          exact Nat.succ_pos i
        · exact .inr ⟨j + 1, a', Nat.succ_lt_succ hj, ha, hp⟩

end Walks

namespace Shape

variable [DecidableEq σ]

/-- The states after one more child of some kinds. -/
def after? (step : σ → Kind → Option σ) (ks : List Kind) (states : List σ) : Option (List σ) :=
  let next := states.flatMap fun c => ks.map (step c)
  if none ∈ next then none else some next.reduceOption.dedup

/-- The states after any number of children of some kinds. -/
def close? (step : σ → Kind → Option σ) (ks : List Kind) : Nat → List σ → Option (List σ)
  | 0, _ => none
  | fuel + 1, states => do
    let next ← after? step ks states
    if next ⊆ states then some states else close? step ks fuel (next ∪ states)

/-- The states after all children of a shape. -/
def track? (step : σ → Kind → Option σ) (fuel : Nat) : Shape → List σ → Option (List σ)
  | [], states => some states
  | ⟨ks, .required⟩ :: s, states => after? step ks states >>= track? step fuel s
  | ⟨ks, .optional⟩ :: s, states =>
    after? step ks states >>= fun next => track? step fuel s (next ∪ states)
  | ⟨ks, .many⟩ :: s, states => close? step ks fuel states >>= track? step fuel s

variable {step : σ → Kind → Option σ} {fuel : Nat} {ks : List Kind}

theorem exists_of_after? {states next : List σ} (h : after? step ks states = some next) {c : σ}
    (hc : c ∈ states) {k : Kind} (hk : k ∈ ks) : ∃ d ∈ next, step c k = some d := by
  simp only [after?, Option.ite_none_left_eq_some, Option.some.injEq] at h
  obtain ⟨hn, rfl⟩ := h
  have hm : step c k ∈ states.flatMap fun c => ks.map (step c) :=
    List.mem_flatMap.mpr ⟨c, hc, List.mem_map_of_mem hk⟩
  cases hs : step c k with
  | none => rw [hs] at hm; exact absurd hm hn
  | some d =>
    rw [hs] at hm
    exact ⟨d, List.mem_dedup.mpr (List.reduceOption_mem_iff.mpr hm), rfl⟩

/-- Closing keeps the states, and the children do not lead out of what is closed. -/
theorem exists_of_close? {states closed : List σ}
    (h : close? step ks fuel states = some closed) :
    states ⊆ closed ∧ ∀ c ∈ closed, ∀ k ∈ ks, ∃ d ∈ closed, step c k = some d := by
  induction fuel generalizing states with
  | zero => cases h
  | succ fuel ih =>
    obtain ⟨next, ha, hn⟩ := Option.bind_eq_some_iff.mp h
    split at hn
    · rename_i hsub
      cases hn
      refine ⟨List.Subset.refl _, fun c hc k hk => ?_⟩
      obtain ⟨d, hd, hs⟩ := exists_of_after? ha hc hk
      exact ⟨d, hsub hd, hs⟩
    · obtain ⟨hsub, hstep⟩ := ih hn
      exact ⟨fun c hc => hsub (List.mem_union_iff.mpr (.inr hc)), hstep⟩

omit [DecidableEq σ] in
theorem exists_walks_of_closed {closed : List σ}
    (h : ∀ c ∈ closed, ∀ k ∈ ks, ∃ d ∈ closed, step c k = some d) {l : List Kind}
    (hl : ∀ k ∈ l, k ∈ ks) {c : σ} (hc : c ∈ closed) : ∃ d ∈ closed, Walks step c l d := by
  induction l generalizing c with
  | nil => exact ⟨c, hc, .nil⟩
  | cons k l ih =>
    obtain ⟨m, hm, hs⟩ := h c hc k (hl k (by simp))
    obtain ⟨d, hd, hw⟩ := ih (fun k' hk' => hl k' (by simp [hk'])) hm
    exact ⟨d, hd, .cons hs hw⟩

theorem exists_walks {s : Shape} {l : List Kind} (hm : s.Matches l) {states last : List σ}
    (h : s.track? step fuel states = some last) {c : σ} (hc : c ∈ states) :
    ∃ d ∈ last, Walks step c l d := by
  induction hm generalizing states c with
  | nil => cases h; exact ⟨c, hc, .nil⟩
  | cons hp _ ih =>
    cases hp with
    | one hk =>
      obtain ⟨next, ha, ht⟩ := Option.bind_eq_some_iff.mp h
      obtain ⟨m, hm, hs⟩ := exists_of_after? ha hc hk
      obtain ⟨d, hd, hw⟩ := ih ht hm
      exact ⟨d, hd, .cons hs hw⟩
    | none =>
      obtain ⟨next, ha, ht⟩ := Option.bind_eq_some_iff.mp h
      exact ih ht (List.mem_union_iff.mpr (.inr hc))
    | some hk =>
      obtain ⟨next, ha, ht⟩ := Option.bind_eq_some_iff.mp h
      obtain ⟨m, hm, hs⟩ := exists_of_after? ha hc hk
      obtain ⟨d, hd, hw⟩ := ih ht (List.mem_union_iff.mpr (.inl hm))
      exact ⟨d, hd, .cons hs hw⟩
    | many hk =>
      obtain ⟨closed, hcl, ht⟩ := Option.bind_eq_some_iff.mp h
      obtain ⟨hsub, hstep⟩ := exists_of_close? hcl
      obtain ⟨m, hm, hw⟩ := exists_walks_of_closed hstep hk (hsub hc)
      obtain ⟨d, hd, hw'⟩ := ih ht hm
      exact ⟨d, hd, hw.append hw'⟩

end Shape

end Modelica
