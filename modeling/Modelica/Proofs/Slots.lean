import Mathlib.Data.List.Find
import Modelica.Proofs.Walks
import Modelica.Schema.Assign

/-!
# How slots are filled

`Slot.assign` without its bookkeeping: a slot for one child that is filled lies before the cursor,
so the next slot depends on the cursor and the child alone.

* `Slot.fill_eq`: filling by cursor (`Slot.placements`) is filling with bookkeeping;
* `Slot.pairwise_assign`: a child fills one slot at most, and a slot not for many one child;
* `Slot.fits_of_suits`: where `Slot.suits` accepts a shape, children of that shape fill every
  required slot and every node among them fills a slot.
-/

namespace Modelica.Slot

variable {slots : List Slot}

/-- The first slot from the cursor on that accepts a child of some kind. -/
def next? (slots : List Slot) (cursor : Nat) (k : Kind) : Option Nat :=
  ((slots.zipIdx.drop cursor).find? fun (slot, _) => slot.matcher.accepts k).map (·.2)

/-- The placements from a cursor on. -/
def placements (slots : List Slot) : Nat → Nat → List Kind → List Placement
  | _, _, [] => []
  | cursor, child, k :: ks =>
    match if isOffered k then next? slots cursor k else none with
    | some i => ⟨i, child, k⟩ :: placements slots (cursorAfter slots i) (child + 1) ks
    | none => placements slots cursor (child + 1) ks

theorem runStart_le (slots : List Slot) (i : Nat) : runStart slots i ≤ i := by
  induction i with
  | zero => exact Nat.le_refl 0
  | succ i ih =>
    unfold runStart
    split
    · exact Nat.le_succ_of_le ih
    · exact Nat.le_refl _

/-- From the start of a run on, all slots are for many. -/
theorem isMany_of_runStart_le {i j : Nat} (h : runStart slots i ≤ j) (hj : j < i) :
    isMany slots j = true := by
  induction i with
  | zero => exact absurd hj (Nat.not_lt_zero j)
  | succ i ih =>
    unfold runStart at h
    split at h
    · rename_i hm
      rcases Nat.lt_succ_iff_lt_or_eq.mp hj with hlt | rfl
      · exact ih h hlt
      · exact hm
    · omega

theorem of_mem_drop_zipIdx {slot : Slot} {cursor i : Nat}
    (h : (slot, i) ∈ slots.zipIdx.drop cursor) : cursor ≤ i ∧ slots[i]? = some slot := by
  obtain ⟨n, hn, he⟩ := List.mem_iff_getElem.mp h
  simp only [List.getElem_drop, List.getElem_zipIdx, Prod.mk.injEq] at he
  obtain ⟨rfl, rfl⟩ := he
  exact ⟨by omega, by simp⟩

theorem le_of_next? {cursor i : Nat} {k : Kind} (h : next? slots cursor k = some i) :
    cursor ≤ i := by
  obtain ⟨⟨slot, j⟩, hf, rfl⟩ := Option.map_eq_some_iff.mp h
  exact (of_mem_drop_zipIdx (List.mem_of_find?_eq_some hf)).1

/-- A filled slot that is not for many lies before the cursor. -/
def Behind (slots : List Slot) (placed : List Placement) (cursor : Nat) : Prop :=
  ∀ p ∈ placed, isMany slots p.slot = false → p.slot < cursor

theorem isMany_eq {slot : Slot} {i : Nat} (h : slots[i]? = some slot) :
    isMany slots i = (slot.cardinality == .many) := by
  simp [isMany, h]

theorem opening?_eq {placed : List Placement} {cursor : Nat} (h : Behind slots placed cursor)
    (k : Kind) : opening? slots placed cursor k = next? slots cursor k := by
  unfold opening? next?
  congr 1
  refine List.find?_congr fun ⟨slot, i⟩ hm => ?_
  obtain ⟨hi, hs⟩ := of_mem_drop_zipIdx hm
  have hf : (slot.cardinality == .many || !isFilled placed i) = true := by
    rw [← isMany_eq hs]
    cases hmany : isMany slots i with
    | true => rfl
    | false =>
      simp only [Bool.false_or, Bool.not_eq_true', isFilled, List.any_eq_false, beq_iff_eq]
      intro p hp he
      have hlt := h p hp (he ▸ hmany)
      omega
  simp only [hf, Bool.and_true]

/-- Filling a slot keeps the cursor past all filled slots that are not for many. -/
theorem behind_cons {placed : List Placement} {cursor i child : Nat} {k : Kind}
    (h : Behind slots placed cursor) (hi : cursor ≤ i) :
    Behind slots (⟨i, child, k⟩ :: placed) (cursorAfter slots i) := by
  intro p hp hm
  have hs := runStart_le slots i
  unfold cursorAfter
  cases hp with
  | head =>
    rw [if_neg (by simp [hm])]
    exact Nat.lt_succ_self i
  | tail _ hp =>
    have hlt := h p hp hm
    split
    · -- Between the start of the run and its last slot all are for many.
      refine Nat.lt_of_not_le fun hle => ?_
      rw [isMany_of_runStart_le hle (Nat.lt_of_lt_of_le hlt hi)] at hm
      cases hm
    · omega

theorem fill_eq {placed : List Placement} {cursor : Nat} (h : Behind slots placed cursor)
    (child : Nat) (ks : List Kind) :
    fill slots cursor child placed ks = placed.reverse ++ placements slots cursor child ks := by
  induction ks generalizing placed cursor child with
  | nil => simp [fill, placements]
  | cons k ks ih =>
    unfold fill placements
    rw [opening?_eq h]
    cases hn : (if isOffered k then next? slots cursor k else none) with
    | none => exact ih h _
    | some i =>
      have hle : cursor ≤ i := by
        split at hn
        · exact le_of_next? hn
        · cases hn
      simp only [ih (behind_cons h hle), List.reverse_cons, List.append_assoc,
        List.singleton_append]

theorem fill_nil (slots : List Slot) (ks : List Kind) :
    fill slots 0 0 [] ks = placements slots 0 0 ks := by
  have h : Behind slots [] 0 := fun _ hp => nomatch hp
  exact fill_eq h 0 ks

/-! ## One child in one slot -/

/-- Two children, the first before the second, are in one slot only if it is for many. -/
def Apart (slots : List Slot) (p q : Placement) : Prop :=
  p.child < q.child ∧ (p.slot = q.slot → isMany slots p.slot = true)

theorem le_child {cursor child : Nat} {ks : List Kind} {p : Placement}
    (h : p ∈ placements slots cursor child ks) : child ≤ p.child := by
  induction ks generalizing cursor child with
  | nil => cases h
  | cons k ks ih =>
    unfold placements at h
    split at h
    · cases h with
      | head => exact Nat.le_refl _
      | tail _ h => exact Nat.le_of_succ_le (ih h)
    · exact Nat.le_of_succ_le (ih h)

theorem le_slot {cursor child : Nat} {ks : List Kind} {p : Placement}
    (h : p ∈ placements slots cursor child ks) (hm : isMany slots p.slot = false) :
    cursor ≤ p.slot := by
  induction ks generalizing cursor child with
  | nil => cases h
  | cons k ks ih =>
    unfold placements at h
    split at h
    · rename_i i hi
      have hle : cursor ≤ i := by
        split at hi
        · exact le_of_next? hi
        · cases hi
      cases h with
      | head => exact hle
      | tail _ h =>
        have hc := ih h
        unfold cursorAfter at hc
        split at hc
        · refine Nat.le_of_not_lt fun hlt => ?_
          rw [isMany_of_runStart_le hc (Nat.lt_of_lt_of_le hlt hle)] at hm
          cases hm
        · omega
    · exact ih h

theorem pairwise_placements (cursor child : Nat) (ks : List Kind) :
    (placements slots cursor child ks).Pairwise (Apart slots) := by
  induction ks generalizing cursor child with
  | nil => exact .nil
  | cons k ks ih =>
    unfold placements
    split
    · rename_i i _
      refine .cons (fun q hq => ⟨le_child hq, fun he => ?_⟩) (ih _ _)
      cases hm : isMany slots i with
      | true => rfl
      | false =>
        have hq' := le_slot hq (he ▸ hm)
        unfold cursorAfter at hq'
        rw [if_neg (by simp [hm])] at hq'
        simp only at he
        omega
    · exact ih _ _

/-- A required slot takes over a child only while it is empty. -/
theorem pairwise_takeOver {placed : List Placement} (h : placed.Pairwise (Apart slots))
    (slot : Slot × Nat) : (takeOver slots placed slot).Pairwise (Apart slots) := by
  obtain ⟨slot, i⟩ := slot
  simp only [takeOver]
  split
  · rename_i he
    cases donor? slots placed i slot.matcher with
    | none => exact h
    | some d =>
      have hi : ∀ p ∈ placed, p.slot ≠ i := by simpa [isFilled] using he.2
      refine List.pairwise_map.mpr (h.imp_of_mem fun {p q} hp hq hpq => ⟨?_, fun hs => ?_⟩)
      · split <;> split <;> exact hpq.1
      · have hc := hpq.1
        split at hs <;> split at hs
        · omega
        · exact absurd hs.symm (hi q hq)
        · exact absurd hs (hi p hp)
        · rename_i hp' _
          rw [if_neg hp']
          exact hpq.2 hs
  · exact h

/-- A child fills one slot at most, and only slots for many have more than one child. -/
theorem pairwise_assign (slots : List Slot) (ks : List Kind) :
    (assign slots ks).Pairwise (Apart slots) := by
  unfold assign
  refine List.foldlRecOn (motive := fun placed : List Placement => placed.Pairwise (Apart slots))
    _ _ ?_ fun placed h slot _ => pairwise_takeOver h slot
  rw [fill_nil]
  exact pairwise_placements 0 0 ks

/-! ## A child in a slot that accepts it -/

/-- A placement tells the kind of its child, which its slot accepts. -/
structure Sound (slots : List Slot) (ks : List Kind) (p : Placement) : Prop where
  kind : ks[p.child]? = some p.kind
  accepts : ∃ slot, slots[p.slot]? = some slot ∧ slot.matcher.accepts p.kind = true

theorem accepts_of_next? {cursor i : Nat} {k : Kind} (h : next? slots cursor k = some i) :
    ∃ slot, slots[i]? = some slot ∧ slot.matcher.accepts k = true := by
  obtain ⟨⟨slot, j⟩, hf, rfl⟩ := Option.map_eq_some_iff.mp h
  have ha := List.find?_some hf
  exact ⟨slot, (of_mem_drop_zipIdx (List.mem_of_find?_eq_some hf)).2, ha⟩

theorem sound_placements {ks : List Kind} (done : List Kind) {cursor : Nat} :
    ∀ p ∈ placements slots cursor done.length ks, Sound slots (done ++ ks) p := by
  induction ks generalizing done cursor with
  | nil => exact fun p hp => nomatch hp
  | cons k ks ih =>
    intro p hp
    have hrest : ∀ c, p ∈ placements slots c (done.length + 1) ks →
        Sound slots (done ++ k :: ks) p := fun c hc => by
      simpa using ih (done ++ [k]) p (by simpa using hc)
    unfold placements at hp
    split at hp
    · rename_i i hi
      have hn : next? slots cursor k = some i := by
        split at hi
        · exact hi
        · cases hi
      cases hp with
      | head => exact ⟨by simp, accepts_of_next? hn⟩
      | tail _ hp => exact hrest _ hp
    · exact hrest _ hp

theorem sound_takeOver {ks : List Kind} {placed : List Placement}
    (h : ∀ p ∈ placed, Sound slots ks p) {slot : Slot} {i : Nat} (hs : slots[i]? = some slot) :
    ∀ p ∈ takeOver slots placed (slot, i), Sound slots ks p := by
  simp only [takeOver]
  split
  · cases hd : donor? slots placed i slot.matcher with
    | none => exact h
    | some d =>
      intro p hp
      obtain ⟨q, hq, rfl⟩ := List.mem_map.mp hp
      by_cases hc : q.child = d.child
      · -- The child that moves is the donor, which the required slot accepts.
        have hdm : d ∈ placed := List.mem_reverse.mp (List.mem_of_find?_eq_some hd)
        have hkind : q.kind = d.kind := by
          have hqk := (h q hq).kind
          rw [hc, (h d hdm).kind] at hqk
          exact (Option.some.inj hqk).symm
        have ha := List.find?_some hd
        simp only [Bool.and_eq_true] at ha
        simp only [if_pos hc]
        exact ⟨(h q hq).kind, slot, hs, hkind ▸ ha.2⟩
      · simpa only [if_neg hc] using h q hq
  · exact h

theorem sound_assign (slots : List Slot) (ks : List Kind) :
    ∀ p ∈ assign slots ks, Sound slots ks p := by
  unfold assign
  refine List.foldlRecOn
    (motive := fun placed : List Placement => ∀ p ∈ placed, Sound slots ks p) _ _ ?_
    fun placed h ⟨slot, i⟩ hm => sound_takeOver h (List.mem_zipIdx_iff_getElem?.mp hm)
  rw [fill_nil]
  exact sound_placements []

/-! ## Deciding that a shape fits -/

/-- The slots of a node and the kinds of its children agree. -/
structure Fits (slots : List Slot) (ks : List Kind) : Prop where
  filled : ∀ i slot, slots[i]? = some slot → slot.cardinality = .required →
    ∃ p ∈ assign slots ks, p.slot = i
  placed : ∀ j k, ks[j]? = some k → k.isNode = true → ∃ p ∈ assign slots ks, p.child = j

/-- The cursor after one more child. No required slot may be passed over, and a node has to find a
slot. -/
def step? (slots : List Slot) (cursor : Nat) (k : Kind) : Option Nat :=
  if isOffered k then
    match next? slots cursor k with
    | some i =>
      if ((slots.drop cursor).take (i - cursor)).all (·.cardinality ≠ .required) then
        some (cursorAfter slots i)
      else none
    | none => if k.isNode then none else some cursor
  else some cursor

/-- Children of this shape fill every required slot, and every node among them finds one. -/
def suits (slots : List Slot) (s : Shape) : Bool :=
  (s.track? (step? slots) (slots.length + 1) [0]).any fun cursors =>
    cursors.all fun c => (slots.drop c).all (·.cardinality ≠ .required)

/-- What a step does: it fills the next slot, or passes over a token that no slot accepts. -/
theorem step?_cases {cursor m : Nat} {k : Kind} (h : step? slots cursor k = some m) :
    (∃ i, (if isOffered k then next? slots cursor k else none) = some i ∧
      (∀ j slot, cursor ≤ j → j < i → slots[j]? = some slot → slot.cardinality ≠ .required) ∧
      m = cursorAfter slots i) ∨
    ((if isOffered k then next? slots cursor k else none) = none ∧ k.isNode = false ∧
      m = cursor) := by
  unfold step? at h
  by_cases ho : isOffered k = true
  · rw [if_pos ho] at h ⊢
    cases hn : next? slots cursor k with
    | some i =>
      simp only [hn, Option.ite_none_right_eq_some, Option.some.injEq] at h
      refine .inl ⟨i, rfl, fun j slot hj hji hs => ?_, h.2.symm⟩
      have hmem : slot ∈ (slots.drop cursor).take (i - cursor) := by
        refine List.mem_of_getElem? (i := j - cursor) ?_
        rw [List.getElem?_take_of_lt (by omega), List.getElem?_drop]
        rwa [Nat.add_sub_cancel' hj]
      simpa using List.all_eq_true.mp h.1 slot hmem
    | none =>
      simp only [hn, Option.ite_none_left_eq_some, Option.some.injEq] at h
      exact .inr ⟨rfl, by simpa using h.1, h.2.symm⟩
  · rw [if_neg ho] at h ⊢
    refine .inr ⟨rfl, ?_, by simpa using h.symm⟩
    revert ho
    cases k <;> decide

section

variable {ks : List Kind} {c d : Nat}

/-- A required slot that the cursor has passed is filled. -/
theorem filled_of_walks (h : Walks (step? slots) c ks d) {i : Nat} {slot : Slot}
    (hs : slots[i]? = some slot) (hr : slot.cardinality = .required) (hc : c ≤ i) (hd : i < d)
    (child : Nat) :
    ∃ p ∈ placements slots c child ks, p.slot = i := by
  induction h generalizing child with
  | nil => omega
  | @cons c k ks m d hstep _ ih =>
    unfold placements
    obtain ⟨j, hn, hj, rfl⟩ | ⟨hn, -, rfl⟩ := step?_cases hstep
    · simp only [hn]
      by_cases hij : i = j
      · exact ⟨⟨j, child, k⟩, by simp, hij.symm⟩
      · have hcur : cursorAfter slots j ≤ i := by
          have hle : j ≤ i := Nat.le_of_not_lt fun hlt => hj i slot hc hlt hs hr
          have := runStart_le slots j
          unfold cursorAfter
          split <;> omega
        obtain ⟨p, hp, he⟩ := ih hcur hd (child + 1)
        exact ⟨p, List.mem_cons_of_mem _ hp, he⟩
    · simp only [hn]
      exact ih hc hd (child + 1)

/-- Every node is placed. -/
theorem placed_of_walks (h : Walks (step? slots) c ks d) {j : Nat} {k : Kind} (hj : ks[j]? = some k)
    (hk : k.isNode = true) (child : Nat) :
    ∃ p ∈ placements slots c child ks, p.child = child + j := by
  induction h generalizing child j with
  | nil => simp at hj
  | @cons c l ks m d hstep _ ih =>
    unfold placements
    cases j with
    | zero =>
      obtain ⟨i, hn, -⟩ | ⟨-, hl, -⟩ := step?_cases hstep
      · exact ⟨⟨i, child, l⟩, by simp [hn], rfl⟩
      · rw [List.getElem?_cons_zero, Option.some.injEq] at hj
        rw [hj, hk] at hl
        cases hl
    | succ j =>
      rw [List.getElem?_cons_succ] at hj
      obtain ⟨p, hp, he⟩ := ih hj (child + 1)
      refine ⟨p, ?_, by omega⟩
      obtain ⟨i, hn, -, rfl⟩ | ⟨hn, -, rfl⟩ := step?_cases hstep
      · simp only [hn]
        exact List.mem_cons_of_mem _ hp
      · simpa only [hn] using hp

end

/-- Where no slot takes anything over, children stay where they went first. -/
theorem assign_eq_placements {ks : List Kind} (h : ∀ i slot, slots[i]? = some slot →
      takeOver slots (placements slots 0 0 ks) (slot, i) = placements slots 0 0 ks) :
    assign slots ks = placements slots 0 0 ks := by
  have hid : ∀ l : List (Slot × Nat), (∀ e ∈ l, slots[e.2]? = some e.1) →
      l.foldl (takeOver slots) (placements slots 0 0 ks) = placements slots 0 0 ks := by
    intro l hl
    induction l with
    | nil => rfl
    | cons e l ih =>
      obtain ⟨slot, i⟩ := e
      rw [List.foldl_cons, h i slot (hl (slot, i) (by simp))]
      exact ih fun e he => hl e (by simp [he])
  unfold assign
  rw [fill_nil]
  exact hid _ fun ⟨slot, i⟩ he => List.mem_zipIdx_iff_getElem?.mp he

/-- Where every required slot is filled there is nothing to take over. -/
theorem assign_eq {ks : List Kind} (h : ∀ i slot, slots[i]? = some slot →
      slot.cardinality = .required → ∃ p ∈ placements slots 0 0 ks, p.slot = i) :
    assign slots ks = placements slots 0 0 ks := by
  refine assign_eq_placements fun i slot hs => if_neg fun ⟨hr, hf⟩ => ?_
  obtain ⟨p, hp, hpi⟩ := h i slot hs hr
  simp only [isFilled, Bool.not_eq_true', List.any_eq_false, beq_iff_eq] at hf
  exact hf p hp hpi

theorem filled_of_suits {s : Shape} (h : suits slots s = true) {ks : List Kind}
    (hm : s.Matches ks) :
    (∀ i slot, slots[i]? = some slot → slot.cardinality = .required →
      ∃ p ∈ placements slots 0 0 ks, p.slot = i) ∧
    ∀ j k, ks[j]? = some k → k.isNode = true → ∃ p ∈ placements slots 0 0 ks, p.child = j := by
  obtain ⟨last, ht, hlast⟩ := (Option.any_eq_true ..).mp h
  obtain ⟨d, hd, hw⟩ := Shape.exists_walks hm ht (List.mem_singleton.mpr rfl)
  refine ⟨fun i slot hs hr => ?_, fun j k hj hk => by simpa using placed_of_walks hw hj hk 0⟩
  refine filled_of_walks hw hs hr (Nat.zero_le i) (Nat.lt_of_not_le fun hle => ?_) 0
  -- A required slot that is left over was not passed.
  have hmem : slot ∈ slots.drop d := by
    refine List.mem_of_getElem? (i := i - d) ?_
    rwa [List.getElem?_drop, Nat.add_sub_cancel' hle]
  have hno := List.all_eq_true.mp (List.all_eq_true.mp hlast d hd) slot hmem
  simp [hr] at hno

theorem fits_of_suits {s : Shape} (h : suits slots s = true) {ks : List Kind}
    (hm : s.Matches ks) : Fits slots ks := by
  obtain ⟨hf, hp⟩ := filled_of_suits h hm
  have he := assign_eq hf
  exact ⟨fun i slot hs hr => he ▸ hf i slot hs hr, fun j k hj hk => he ▸ hp j k hj hk⟩

end Modelica.Slot
