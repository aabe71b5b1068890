import Modelica.Proofs.Fields

/-!
# What filling slots guarantees

`Slot.assign` and `Schema.resolve` for any slots and any children, of a caller's schema as well. A
child moves only once children have been offered, and only from an optional slot to a required one
after it. So what one required slot has taken over no later one takes away, and where nothing can
be taken over at a slot's turn nothing can be in the end.
-/

namespace Modelica

namespace Slot

variable {slots : List Slot} {placed : List Placement} {slot : Slot} {i : Nat}

theorem isOffered_of_placements {cursor child : Nat} {ks : List Kind} {p : Placement}
    (h : p ∈ placements slots cursor child ks) : isOffered p.kind = true := by
  induction ks generalizing cursor child with
  | nil => cases h
  | cons k ks ih =>
    unfold placements at h
    split at h
    · rename_i j hj
      cases h with
      | head =>
        split at hj
        · assumption
        · cases hj
      | tail _ h => exact ih h
    · exact ih h

/-- What is placed was placed before, or has come to the required slot whose turn it is. -/
theorem of_mem_takeOver {p : Placement} (h : p ∈ takeOver slots placed (slot, i)) :
    p ∈ placed ∨
      slot.cardinality = .required ∧ p.slot = i ∧ ∃ q ∈ placed, q.kind = p.kind := by
  simp only [takeOver] at h
  split at h
  · rename_i hr
    cases hd : donor? slots placed i slot.matcher with
    | none =>
      rw [hd] at h
      exact .inl h
    | some d =>
      rw [hd] at h
      obtain ⟨q, hq, rfl⟩ := List.mem_map.mp h
      by_cases hc : q.child = d.child
      · simp only [if_pos hc]
        exact .inr ⟨hr.1, trivial, q, hq, rfl⟩
      · simp only [if_neg hc]
        exact .inl hq
  · exact .inl h

theorem isOffered_of_assign {ks : List Kind} :
    ∀ p ∈ assign slots ks, isOffered p.kind = true := by
  unfold assign
  apply List.foldlRecOn
    (motive := fun placed : List Placement => ∀ p ∈ placed, isOffered p.kind = true)
  · intro p hp
    rw [fill_nil] at hp
    exact isOffered_of_placements hp
  · intro placed h ⟨slot, i⟩ _ p hp
    rcases of_mem_takeOver hp with hp | ⟨-, -, q, hq, hk⟩
    · exact h p hp
    · exact hk ▸ h q hq

/-- The slot at an index has a child, or no optional slot before it has one that it accepts. -/
def Served (slots : List Slot) (placed : List Placement) (slot : Slot) (i : Nat) : Prop :=
  (∃ p ∈ placed, p.slot = i) ∨
    ∀ p ∈ placed, p.slot < i → isOptional slots p.slot = true → slot.matcher.accepts p.kind = false

theorem isOptional_eq_false (hs : slots[i]? = some slot) (hr : slot.cardinality = .required) :
    isOptional slots i = false := by
  simp [isOptional, hs, hr]

/-- At its turn a required slot takes over what it can. -/
theorem served_takeOver (hs : slots[i]? = some slot) (hr : slot.cardinality = .required) :
    Served slots (takeOver slots placed (slot, i)) slot i := by
  by_cases hd : ∃ p ∈ placed,
      p.slot < i ∧ isOptional slots p.slot = true ∧ slot.matcher.accepts p.kind = true
  · obtain ⟨p, hp, hd⟩ := hd
    exact .inl (filled_takeOver hp hr hd)
  · refine .inr fun p hp hlt ho => ?_
    rcases of_mem_takeOver hp with hp | ⟨-, rfl, -⟩
    · by_contra ha
      exact hd ⟨p, hp, hlt, ho, by simpa using ha⟩
    · exact absurd hlt (Nat.lt_irrefl _)

/-- A required slot that is served stays so: its child does not move on, and no optional slot gets
a child. -/
theorem Served.takeOver (h : Served slots placed slot i) (hp : placed.Pairwise (Apart slots))
    (hs : slots[i]? = some slot) (hr : slot.cardinality = .required) {other : Slot} {j : Nat}
    (ho : slots[j]? = some other) :
    Served slots (Slot.takeOver slots placed (other, j)) slot i := by
  rcases h with ⟨p, hm, rfl⟩ | hno
  · exact .inl ⟨p, mem_takeOver hp hm (isOptional_eq_false hs hr) _, rfl⟩
  · refine .inr fun p hm hlt hopt => ?_
    rcases of_mem_takeOver hm with hm | ⟨hreq, rfl, -⟩
    · exact hno p hm hlt hopt
    · rw [isOptional_eq_false ho hreq] at hopt
      cases hopt

/-- Once all slots of a list had their turn, each required one among them is served. -/
theorem served_foldl {turns : List (Slot × Nat)} (hp : placed.Pairwise (Apart slots))
    (ht : ∀ e ∈ turns, slots[e.2]? = some e.1) (hs : slots[i]? = some slot)
    (hr : slot.cardinality = .required)
    (h : (slot, i) ∈ turns ∨ Served slots placed slot i) :
    Served slots (turns.foldl (Slot.takeOver slots) placed) slot i := by
  induction turns generalizing placed with
  | nil => exact h.resolve_left List.not_mem_nil
  | cons e turns ih =>
    obtain ⟨he, ht⟩ := List.forall_mem_cons.mp ht
    rw [List.foldl_cons]
    refine ih (pairwise_takeOver hp e) ht ?_
    rcases h with hm | h
    · rcases List.mem_cons.mp hm with rfl | hm
      · exact .inr (served_takeOver hs hr)
      · exact .inl hm
    · exact .inr (h.takeOver hp hs hr he)

theorem served_assign (slots : List Slot) (ks : List Kind) (hs : slots[i]? = some slot)
    (hr : slot.cardinality = .required) : Served slots (assign slots ks) slot i := by
  have hp : (fill slots 0 0 [] ks).Pairwise (Apart slots) := by
    rw [fill_nil]
    exact pairwise_placements 0 0 ks
  have hmem : (slot, i) ∈ slots.zipIdx := List.mem_zipIdx_iff_getElem?.mpr hs
  exact served_foldl hp (fun e he => List.mem_zipIdx_iff_getElem?.mp he) hs hr (.inl hmem)

end Slot

namespace Located

/-- What is picked from a list by something kept beside each element is in the order of the list. -/
theorem filterMap_fst_sublist {α β γ : Type} (pick : β → Option γ) (es : List (α × β)) :
    (es.filterMap fun e => (pick e.2).map fun _ => e.1).Sublist (es.map (·.1)) := by
  induction es with
  | nil => exact .slnil
  | cons e es ih =>
    rw [List.filterMap_cons, List.map_cons]
    cases pick e.2 with
    | none => exact ih.cons e.1
    | some _ => exact ih.cons_cons e.1

/-- Listed children are some of the children, in their order. -/
theorem sublist_resolve (s : Schema) (n : Located) :
    ((s.resolve n).map (·.2)).Sublist n.children := by
  have hpair := Slot.pairwise_assign (s.slots n.kind) (n.children.map kind)
  have hlist := Slot.filterMap_find? (fun _ c => c) n.children 0 _ (hpair.imp And.left)
    fun _ _ => Nat.zero_le _
  simp only [Option.map_id'] at hlist
  rw [map_resolve, List.filterMap_map, Function.comp_def, hlist]
  have hsub := filterMap_fst_sublist (fun i =>
    (Slot.assign (s.slots n.kind) (n.children.map kind)).find? (·.child == i)) n.children.zipIdx
  rwa [List.zipIdx_map_fst] at hsub

end Located

/-- What a schema promises of the children of a node that it lists, each with a slot. -/
structure Schema.Contract (s : Schema) (n : Located) : Prop where
  /-- Each child is listed once at most, and in child order. -/
  order : ((s.resolve n).map (·.2)).Sublist n.children
  /-- The only trivia that is listed is the byte-order mark. -/
  offered : ∀ i c, (i, c) ∈ s.resolve n → c.kind.isTrivia = true → c.kind = .byteOrderMark
  accepts : ∀ i c, (i, c) ∈ s.resolve n →
    ∃ slot, (s.slots n.kind)[i]? = some slot ∧ slot.matcher.accepts c.kind = true
  single : ∀ i slot, (s.slots n.kind)[i]? = some slot → slot.cardinality ≠ .many →
    (s.childrenIn n i).length ≤ 1
  /-- A required slot is empty only if no optional slot before it holds what it accepts. -/
  served : ∀ i slot, (s.slots n.kind)[i]? = some slot → slot.cardinality = .required →
    s.childrenIn n i = [] →
      ∀ j donor c, (s.slots n.kind)[j]? = some donor → donor.cardinality = .optional → j < i →
        (j, c) ∈ s.resolve n → slot.matcher.accepts c.kind = false

/-- **Slots keep their contract with any schema.** Whatever the slots of a node are, with any
matchers and cardinalities, and whatever its children are. -/
theorem resolve_contract (s : Schema) (n : Located) : s.Contract n where
  order := Located.sublist_resolve s n
  offered i c hm ht := by
    obtain ⟨p, hp, -, hk⟩ := Located.placed_of_mem_resolve hm
    have ho := Slot.isOffered_of_assign p hp
    rw [hk] at ho
    simpa [Slot.isOffered, ht] using ho
  accepts i c hm := Located.accepts_of_mem_resolve hm
  single i slot hs hm := by
    apply Located.length_childrenIn
    simpa [Slot.isMany_eq hs] using hm
  served i slot hs hr he j donor c hd ho hlt hm := by
    obtain ⟨p, hp, rfl, hk⟩ := Located.placed_of_mem_resolve hm
    rcases Slot.served_assign _ (n.children.map Located.kind) hs hr with ⟨q, hq, rfl⟩ | hno
    · exact absurd he (Located.childrenIn_ne_nil hq)
    · exact hk ▸ hno p hp hlt (by simp [Slot.isOptional, hd, ho])

end Modelica
