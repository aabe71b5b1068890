import Modelica.Proofs.Conformity

/-!
# Fields are views of one assignment

The children of a node are assigned to its slots once, and `Located.labelled` shows the outcome at
every child. What can be asked about fields are views of it.

* `Located.named_eq`: the children that fill a slot, each with its name;
* `Located.field_eq`: what a slot holds;
* `Located.fieldNameOf_eq`: a child is looked up by what it is and where it starts, so of several
  equal children, all of them empty, the first one that fills a slot is found;
* `fields_agree`: the views of a node together;
* `second_reference_misnamed`: two empty references that fill different slots.
-/

namespace Modelica

namespace Tree

mutual

theorem eq_of_beq : (a b : Tree) → a.beq b = true → a = b
  | leaf a, leaf b, h => by
    rw [beq, beq_iff_eq] at h
    rw [h]
  | node k as, node l bs, h => by
    rw [beq, Bool.and_eq_true, beq_iff_eq] at h
    rw [h.1, eq_of_beqAll as bs h.2]
  | leaf _, node .., h => by simp [beq] at h
  | node .., leaf _, h => by simp [beq] at h

theorem eq_of_beqAll : (as bs : List Tree) → beqAll as bs = true → as = bs
  | [], [], _ => rfl
  | a :: as, b :: bs, h => by
    rw [beqAll, Bool.and_eq_true] at h
    rw [eq_of_beq a b h.1, eq_of_beqAll as bs h.2]
  | [], _ :: _, h => by simp [beqAll] at h
  | _ :: _, [], h => by simp [beqAll] at h

end

mutual

theorem beq_self : (a : Tree) → a.beq a = true
  | leaf a => by simp [beq]
  | node k as => by simp [beq, beqAll_self as]

theorem beqAll_self : (as : List Tree) → beqAll as as = true
  | [] => rfl
  | a :: as => by simp [beqAll, beq_self a, beqAll_self as]

end

instance : LawfulBEq Tree where
  eq_of_beq {a b} h := eq_of_beq a b h
  rfl {a} := beq_self a

end Tree

namespace Located

theorem same_iff {a b : Located} : a.same b = true ↔ a = b := by
  cases a
  cases b
  simp [same]

/-- Of the children of a node the later one starts where the earlier one stops, or after it. -/
theorem pairwise_row (start : Nat) (ts : List Tree) :
    (∀ c ∈ row start ts, start ≤ c.start) ∧
      (row start ts).Pairwise fun c d => c.stop ≤ d.start := by
  induction ts generalizing start with
  | nil => exact ⟨fun _ hc => (nomatch hc), .nil⟩
  | cons t ts ih =>
    obtain ⟨hge, hpair⟩ := ih (start + t.width)
    refine ⟨fun c hc => ?_, .cons hge hpair⟩
    obtain rfl | hc := List.mem_cons.mp hc
    · exact Nat.le_refl start
    · exact Nat.le_of_add_right_le (hge c hc)

/-- A child that is not empty is not there twice. -/
theorem index_eq_of_width {n c : Located} {i j : Nat} (hi : n.children[i]? = some c)
    (hj : n.children[j]? = some c) (hw : c.start < c.stop) : i = j := by
  have hpair := List.pairwise_iff_getElem.mp (pairwise_row n.start n.tree.children).2
  have hnot : ∀ a b : Nat, n.children[a]? = some c → n.children[b]? = some c → ¬ a < b := by
    intro a b ha hb hab
    obtain ⟨hal, ha⟩ := List.getElem?_eq_some_iff.mp ha
    obtain ⟨hbl, hb⟩ := List.getElem?_eq_some_iff.mp hb
    have hle : n.children[a].stop ≤ n.children[b].start := hpair a b hal hbl hab
    rw [ha, hb] at hle
    omega
  exact Nat.le_antisymm (Nat.le_of_not_lt (hnot j i hj hi)) (Nat.le_of_not_lt (hnot i j hi hj))

end Located

/-! ## The assignment -/

namespace Slot

/-- Placements in child order are found one after the other along the children. -/
theorem filterMap_find? {α β : Type} (f : Placement → α → β) (cs : List α) (start : Nat)
    (ps : List Placement) (ho : ps.Pairwise fun p q => p.child < q.child)
    (hs : ∀ p ∈ ps, start ≤ p.child) :
    (ps.filterMap fun p => cs[p.child - start]?.map (f p)) =
      (cs.zipIdx start).filterMap fun e => (ps.find? (·.child == e.2)).map (f · e.1) := by
  induction cs generalizing start ps with
  | nil => simp
  | cons c cs ih =>
    -- Placements past the first child look the same from there.
    have hshift : ∀ qs : List Placement, (∀ p ∈ qs, start + 1 ≤ p.child) →
        (qs.filterMap fun p => (c :: cs)[p.child - start]?.map (f p)) =
          qs.filterMap fun p => cs[p.child - (start + 1)]?.map (f p) := fun qs hqs => by
      refine List.filterMap_congr fun p hp => ?_
      have hp' : p.child - start = p.child - (start + 1) + 1 := by have := hqs p hp; omega
      rw [hp', List.getElem?_cons_succ]
    cases ps with
    | nil => simp
    | cons p ps =>
      obtain ⟨hp, ho'⟩ := List.pairwise_cons.mp ho
      by_cases he : p.child = start
      · have hrest : ∀ q ∈ ps, start + 1 ≤ q.child := fun q hq => by have := hp q hq; omega
        have hlater : ∀ e ∈ cs.zipIdx (start + 1),
            (p :: ps).find? (·.child == e.2) = ps.find? (·.child == e.2) := fun e hm => by
          have := List.le_snd_of_mem_zipIdx hm
          exact List.find?_cons_of_neg (by simp; omega)
        rw [List.zipIdx_cons, List.filterMap_cons, List.filterMap_cons,
          List.find?_cons_of_pos (by simpa using he), he, Nat.sub_self, hshift ps hrest,
          ih (start + 1) ps ho' hrest]
        simp only [List.getElem?_cons_zero, Option.map_some]
        congr 1
        exact List.filterMap_congr fun e hm => by rw [hlater e hm]
      · have hge : ∀ q ∈ p :: ps, start + 1 ≤ q.child := fun q hq => by
          have hlt : start < p.child := by have := hs p (by simp); omega
          obtain rfl | hq := List.mem_cons.mp hq
          · exact hlt
          · have := hp q hq
            omega
        have hnone : (p :: ps).find? (·.child == start) = none :=
          List.find?_eq_none.mpr fun q hq => by have := hge q hq; simp; omega
        rw [hshift _ hge, ih (start + 1) _ ho hge, List.zipIdx_cons, List.filterMap_cons, hnone]
        rfl

end Slot

namespace Located

/-- The children of a node, each with the name of the slot that it fills. -/
def labelled (n : Located) : List (Located × Option String) := n.children.zip n.slotNames

/-- The children that fill the slot called `name`, from left to right. -/
def filling (n : Located) (name : String) : List Located :=
  (n.labelled.filter (·.2 == some name)).map (·.1)

variable {n : Located}

/-- The slot that the child at an index fills. -/
def slotAt? (n : Located) (i : Nat) : Option Nat :=
  ((Slot.assign (Schema.standard.slots n.kind) (n.children.map kind)).find? (·.child == i)).map
    Placement.slot

/-- The name of a slot of a node. -/
def slotName? (n : Located) (slot : Nat) : Option String :=
  (Schema.standard.slots n.kind)[slot]?.map Slot.name

theorem slotNames_eq (n : Located) : n.slotNames =
    (List.range n.children.length).map fun i => (n.slotAt? i).bind n.slotName? := by
  have hlength : n.tree.children.length = n.children.length := by
    rw [← map_tree_row n.start n.tree.children, List.length_map]
    rfl
  simp only [slotNames, slotAt?, hlength, children, map_kind_row, Option.bind_map]
  rfl

theorem labelled_eq (n : Located) :
    n.labelled = n.children.zipIdx.map fun e => (e.1, (n.slotAt? e.2).bind n.slotName?) := by
  rw [labelled, slotNames_eq, List.zip_map_right, List.zipIdx_eq_zip_range',
    List.range_eq_range']
  rfl

theorem slotAt?_eq_some {i j : Nat} : n.slotAt? i = some j ↔
    ∃ p ∈ Slot.assign (Schema.standard.slots n.kind) (n.children.map kind),
      p.child = i ∧ p.slot = j := by
  have hpair := Slot.pairwise_assign (Schema.standard.slots n.kind) (n.children.map kind)
  rw [slotAt?, Option.map_eq_some_iff]
  constructor
  · rintro ⟨p, hp, rfl⟩
    exact ⟨p, List.mem_of_find?_eq_some hp, by simpa using List.find?_some hp, rfl⟩
  · rintro ⟨p, hp, rfl, rfl⟩
    cases hf : List.find? (·.child == p.child)
        (Slot.assign (Schema.standard.slots n.kind) (n.children.map kind)) with
    | none => exact absurd (beq_self_eq_true p.child) (List.find?_eq_none.mp hf p hp)
    | some q =>
      have hc : q.child = p.child := by simpa using List.find?_some hf
      rw [Slot.child_injective hpair (List.mem_of_find?_eq_some hf) hp hc]
      exact ⟨p, rfl, rfl⟩

theorem resolve_eq_zipIdx (n : Located) : Schema.standard.resolve n =
    n.children.zipIdx.filterMap fun e => (n.slotAt? e.2).map (·, e.1) := by
  have hpair := Slot.pairwise_assign (Schema.standard.slots n.kind) (n.children.map kind)
  rw [resolve_eq]
  refine (Slot.filterMap_find? (fun p c => (p.slot, c)) n.children 0 _ (hpair.imp And.left)
    fun _ _ => Nat.zero_le _).trans ?_
  simp only [slotAt?, Option.map_map]
  rfl

theorem named_eq (n : Located) : n.named = n.labelled.filterMap fun e => e.2.map (·, e.1) := by
  rw [named, resolve_eq_zipIdx, labelled_eq, List.filterMap_filterMap, List.filterMap_map]
  refine List.filterMap_congr fun e _ => ?_
  cases h : n.slotAt? e.2 with
  | none => simp [h]
  | some slot => simp [h, slotName?, Option.map_map, Function.comp_def]

/-! ## Slots by name -/

/-- No kind has two slots of one name. -/
theorem nodup_slots (k : Kind) : ((Schema.standard.slots k).map Slot.name).Nodup := by
  have hall : ∀ e ∈ Schema.standard, (e.2.map Slot.name).Nodup := by decide +kernel
  unfold Schema.slots
  cases h : Schema.standard.lookup k with
  | none => exact .nil
  | some slots =>
    obtain ⟨l₁, l₂, he, -⟩ := List.lookup_eq_some_iff.mp h
    exact hall (k, slots) (by rw [he]; simp)

variable {slot : Slot} {i : Nat}

theorem slotName?_eq_some (h : (Schema.standard.slots n.kind)[i]? = some slot) {j : Nat} :
    n.slotName? j = some slot.name ↔ j = i := by
  have hi : n.slotName? i = some slot.name := by simp [slotName?, h]
  refine ⟨fun hj => ?_, fun he => he ▸ hi⟩
  have hlt : i < ((Schema.standard.slots n.kind).map Slot.name).length := by
    simpa using (List.getElem?_eq_some_iff.mp h).1
  refine ((List.getElem?_inj hlt (nodup_slots n.kind)).mp ?_).symm
  simpa [slotName?] using hi.trans hj.symm

theorem find?_slot (h : (Schema.standard.slots n.kind)[i]? = some slot) :
    (Schema.standard.slots n.kind).zipIdx.find? (·.1.name == slot.name) = some (slot, i) := by
  have hmem : (slot, i) ∈ (Schema.standard.slots n.kind).zipIdx :=
    List.mem_zipIdx_iff_getElem?.mpr h
  cases hf : (Schema.standard.slots n.kind).zipIdx.find? (·.1.name == slot.name) with
  | none => exact absurd (beq_self_eq_true slot.name) (List.find?_eq_none.mp hf _ hmem)
  | some e =>
    obtain ⟨slot', j⟩ := e
    have hj := List.mem_zipIdx_iff_getElem?.mp (List.mem_of_find?_eq_some hf)
    have hname : slot'.name = slot.name := by simpa using List.find?_some hf
    obtain rfl : j = i := (slotName?_eq_some h).mp (by simp [slotName?, hj, hname])
    obtain rfl : slot' = slot := Option.some.inj (hj.symm.trans h)
    rfl

theorem filling_eq (h : (Schema.standard.slots n.kind)[i]? = some slot) :
    n.filling slot.name = Schema.standard.childrenIn n i := by
  rw [filling, Schema.childrenIn, resolve_eq_zipIdx, labelled_eq]
  induction n.children.zipIdx with
  | nil => rfl
  | cons e es ih =>
    cases hs : n.slotAt? e.2 with
    | none => simpa [hs] using ih
    | some j =>
      have hj : (n.slotName? j == some slot.name) = (j == i) := by
        rw [Bool.eq_iff_iff, beq_iff_eq, beq_iff_eq, slotName?_eq_some h]
      simp only [List.map_cons, hs, Option.bind_some, List.filter_cons, hj, List.filterMap_cons,
        Option.map_some]
      split
      · exact congrArg (e.1 :: ·) ih
      · exact ih

/-- A slot holds the children that fill it. -/
theorem field_eq (h : slot ∈ Schema.standard.slots n.kind) :
    n.field slot.name = .ofChildren slot.cardinality (n.filling slot.name) := by
  obtain ⟨i, hi⟩ := List.mem_iff_getElem?.mp h
  simp only [field, Schema.field, find?_slot hi, filling_eq hi]

/-- Only a slot for many gets more than one child. -/
theorem length_filling (h : slot ∈ Schema.standard.slots n.kind) (hm : slot.cardinality ≠ .many) :
    (n.filling slot.name).length ≤ 1 := by
  obtain ⟨i, hi⟩ := List.mem_iff_getElem?.mp h
  rw [filling_eq hi]
  exact length_childrenIn (by simpa [Slot.isMany_eq hi] using hm)

/-- A slot that is not for many has one child at most, so all its children show. -/
theorem toList_field_eq (h : slot ∈ Schema.standard.slots n.kind) :
    (n.field slot.name).toList = n.filling slot.name := by
  have hone := length_filling h
  rw [field_eq h]
  generalize n.filling slot.name = cs at hone
  by_cases hm : slot.cardinality = .many
  · cases cs <;> simp [Field.ofChildren, Field.toList, hm]
  · match cs, hone hm with
    | [], _ => rfl
    | [c], _ => simp [Field.ofChildren, Field.toList, hm]

/-- A name that no slot has is no field. -/
theorem field_eq_absent {name : String}
    (h : ∀ slot ∈ Schema.standard.slots n.kind, slot.name ≠ name) :
    n.field name = .absent ∧ n.filling name = [] := by
  have hfind : (Schema.standard.slots n.kind).zipIdx.find? (·.1.name == name) = none := by
    refine List.find?_eq_none.mpr fun ⟨slot, i⟩ hs => ?_
    simpa using h slot (List.mem_of_getElem? (List.mem_zipIdx_iff_getElem?.mp hs))
  refine ⟨by simp only [field, Schema.field, hfind], ?_⟩
  rw [filling, labelled_eq, List.map_eq_nil_iff, List.filter_eq_nil_iff]
  intro e he hname
  obtain ⟨e', -, rfl⟩ := List.mem_map.mp he
  obtain ⟨j, -, hj⟩ := Option.bind_eq_some_iff.mp (beq_iff_eq.mp hname)
  obtain ⟨slot, hs, rfl⟩ := Option.map_eq_some_iff.mp hj
  exact h slot (List.mem_of_getElem? hs) rfl

/-- Listed are the slots that hold something. -/
theorem fields_eq (n : Located) : n.fields = (Schema.standard.slots n.kind).filterMap fun slot =>
    if (n.field slot.name).isAbsent then none else some (slot.name, n.field slot.name) := by
  conv_rhs => rw [← List.zipIdx_map_fst 0 (Schema.standard.slots n.kind), List.filterMap_map]
  refine List.filterMap_congr fun ⟨slot, i⟩ he => ?_
  have hi := List.mem_zipIdx_iff_getElem?.mp he
  rw [Function.comp_apply, field_eq (List.mem_of_getElem? hi), filling_eq hi]
  cases hf : Field.ofChildren slot.cardinality (Schema.standard.childrenIn n i) <;>
    simp [hf, Field.isAbsent]

/-- A child is looked up by what it is and where it starts: it goes by the name of the first of its
equals that fills a slot. -/
theorem fieldNameOf_eq (n c : Located) :
    n.fieldNameOf c = (n.labelled.find? fun e => e.1.same c && e.2.isSome).bind (·.2) := by
  have htest : ∀ e : Located × Option String,
      (e.2.map (·, e.1)).any (·.2.same c) = (e.1.same c && e.2.isSome) := by
    rintro ⟨d, s⟩
    cases s <;> simp
  rw [fieldNameOf, nameIn, named_eq, List.find?_filterMap, Option.map_bind]
  simp only [htest, Function.comp_def, Option.map_map, Option.map_id']

/-- A child that is not empty goes by the name of the slot that it fills. -/
theorem fieldNameOf_of_width {e : Located × Option String} (he : e ∈ n.labelled)
    (hw : e.1.start < e.1.stop) : n.fieldNameOf e.1 = e.2 := by
  obtain ⟨i, hi⟩ := List.mem_iff_getElem?.mp he
  have hunique : ∀ d ∈ n.labelled, d.1.same e.1 = true → d.2 = e.2 := by
    intro d hd hs
    obtain ⟨j, hj⟩ := List.mem_iff_getElem?.mp hd
    have hc := (List.getElem?_zip_eq_some.mp hj).1
    rw [same_iff.mp hs] at hc
    obtain rfl : i = j := index_eq_of_width (List.getElem?_zip_eq_some.mp hi).1 hc hw
    rw [Option.some.inj (hj.symm.trans hi)]
  rw [fieldNameOf_eq]
  cases hf : n.labelled.find? fun d => d.1.same e.1 && d.2.isSome with
  | none =>
    have hno := List.find?_eq_none.mp hf e he
    exact Eq.symm (by simpa [same_iff] using hno)
  | some d =>
    have hs := List.find?_some hf
    simp only [Bool.and_eq_true] at hs
    exact hunique d (List.mem_of_find?_eq_some hf) hs.1

/-- Every child has its label. -/
theorem map_fst_labelled (n : Located) : n.labelled.map (·.1) = n.children := by
  rw [labelled_eq, List.map_map]
  exact List.zipIdx_map_fst 0 n.children

/-- The labels are what children are resolved to. -/
theorem filter_labelled (n : Located) : n.labelled.filter (·.2.isSome) =
    (Schema.standard.resolve n).map fun e => (e.2, n.slotName? e.1) := by
  have hname : ∀ j slot, n.slotAt? j = some slot → (n.slotName? slot).isSome = true := by
    intro j slot hj
    obtain ⟨p, hp, rfl⟩ := Option.map_eq_some_iff.mp hj
    obtain ⟨s, hs, -⟩ := (Slot.sound_assign _ _ p (List.mem_of_find?_eq_some hp)).accepts
    simp [slotName?, hs]
  rw [labelled_eq, resolve_eq_zipIdx]
  induction n.children.zipIdx with
  | nil => rfl
  | cons e es ih =>
    cases hs : n.slotAt? e.2 with
    | none => simpa [hs] using ih
    | some slot => simpa [hs, hname e.2 slot hs] using ih

end Located

/-- The fields of a node are views of what its children are resolved to. Of several equal children,
all of them empty, the first that fills a slot lends its name to the others. -/
structure Located.FieldsAgree (n : Located) : Prop where
  children : n.labelled.map (·.1) = n.children
  resolve : n.labelled.filter (·.2.isSome) =
    (Schema.standard.resolve n).map fun e => (e.2, n.slotName? e.1)
  field : ∀ slot ∈ Schema.standard.slots n.kind,
    n.field slot.name = .ofChildren slot.cardinality (n.filling slot.name) ∧
      (slot.cardinality ≠ .many → (n.filling slot.name).length ≤ 1)
  absent : ∀ name, (∀ slot ∈ Schema.standard.slots n.kind, slot.name ≠ name) →
    n.field name = .absent ∧ n.filling name = []
  fields : n.fields = (Schema.standard.slots n.kind).filterMap fun slot =>
    if (n.field slot.name).isAbsent then none else some (slot.name, n.field slot.name)
  fieldNameOf : ∀ c, n.fieldNameOf c =
    (n.labelled.find? fun e => e.1.same c && e.2.isSome).bind (·.2)
  fieldNameOf_child : ∀ e ∈ n.labelled, e.1.start < e.1.stop → n.fieldNameOf e.1 = e.2

/-- All that can be asked about the fields of a node agrees, whatever its children are. -/
theorem fields_agree (n : Located) : n.FieldsAgree where
  children := n.map_fst_labelled
  resolve := n.filter_labelled
  field _ hs := ⟨Located.field_eq hs, Located.length_filling hs⟩
  absent _ := Located.field_eq_absent
  fields := n.fields_eq
  fieldNameOf := n.fieldNameOf_eq
  fieldNameOf_child _ := Located.fieldNameOf_of_width

/-- Both references of a `connect` are missing and stand, empty, at one place. The second fills a
slot of its own but goes by the name of the first. -/
theorem second_reference_misnamed : ∃ n ∈ (Located.root (parse
      "model M equation connect(1, 2); end M;").tree).nodes,
    ∃ c, (c, some "componentReference2") ∈ n.labelled ∧
      n.fieldNameOf c = some "componentReference1" := by
  have hclause : ∃ n ∈ (Located.root (parse "model M equation connect(1, 2); end M;").tree).nodes,
      (n.labelled.any fun e => e.2 == some "componentReference2" &&
        n.fieldNameOf e.1 == some "componentReference1") = true := by
    decide +kernel
  obtain ⟨n, hn, hc⟩ := hclause
  obtain ⟨⟨c, s⟩, hmem, hs⟩ := List.any_eq_true.mp hc
  simp only [Bool.and_eq_true, beq_iff_eq] at hs
  exact ⟨n, hn, c, hs.1 ▸ hmem, hs.2⟩

end Modelica
