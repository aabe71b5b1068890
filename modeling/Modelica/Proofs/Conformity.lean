import Mathlib.Data.List.Nodup
import Modelica.Field
import Modelica.Proofs.Lossless
import Modelica.Proofs.Places
import Modelica.Proofs.Shaped
import Modelica.Proofs.Slots

/-!
# Clean trees conform to the schema

A text that parses without errors has a tree in which every node has the children that its slots
ask for.

* `Slot.fits_standard`: children of the shapes in the tables fit the slots, with trivia or without;
* `Tree.conforms_weave`: so do the children of a tree with its trivia put back;
* `Located.conforms_of_tree`: what fits the slots is resolved without loss;
* `parse_conforms`: the statement for the nodes of a parse.
-/

namespace Modelica

open Shape

namespace Slot

/-- The same slots, some of them required, none of the others. -/
def recast (required : List String) (slots : List Slot) : List Slot :=
  slots.map fun s =>
    { s with cardinality :=
        if s.cardinality = .many then .many
        else if s.name ∈ required then .required else .optional }

theorem next?_recast (required : List String) (slots : List Slot) (cursor : Nat) (k : Kind) :
    next? (recast required slots) cursor k = next? slots cursor k := by
  unfold next? recast
  rw [List.zipIdx_map, ← List.map_drop, List.find?_map, Option.map_map]
  rfl

theorem isMany_recast (required : List String) (slots : List Slot) (i : Nat) :
    isMany (recast required slots) i = isMany slots i := by
  unfold isMany recast
  rw [List.getElem?_map]
  cases slots[i]? with
  | none => rfl
  | some s =>
    simp only [Option.map_some, Option.any_some]
    split
    · simp [*]
    · rename_i hm
      split <;> simp [hm]

theorem cursorAfter_recast (required : List String) (slots : List Slot) (i : Nat) :
    cursorAfter (recast required slots) i = cursorAfter slots i := by
  have hrun : ∀ i, runStart (recast required slots) i = runStart slots i := by
    intro i
    induction i with
    | zero => rfl
    | succ i ih => simp only [runStart, isMany_recast, ih]
  simp only [cursorAfter, isMany_recast, hrun]

/-- Where children go first does not depend on which slots are required. -/
theorem placements_recast (required : List String) (slots : List Slot) (cursor child : Nat)
    (ks : List Kind) :
    placements (recast required slots) cursor child ks = placements slots cursor child ks := by
  induction ks generalizing cursor child with
  | nil => rfl
  | cons k ks ih =>
    unfold placements
    simp only [next?_recast, cursorAfter_recast, ih]

theorem suits_standard : ∀ k ∈ Kind.productions, k ≠ .rangeExpression →
    suits (Schema.standard.slots k) k.shape.woven = true := by
  decide +kernel

/-- The slots of a range, which needs its first and its last part. -/
def rangeSlots : List Slot := [
  Schema.required "startExpression" (.alternative .simpleExpression),
  Schema.optional "stepExpression" (.alternative .simpleExpression),
  Schema.required "stopExpression" (.alternative .simpleExpression)]

theorem slots_rangeExpression : Schema.standard.slots .rangeExpression = rangeSlots := by
  decide +kernel

/-- The first two parts of a range are always there. -/
theorem suits_rangeSlots : suits (recast ["startExpression", "stepExpression"] rangeSlots)
    (Kind.shape .rangeExpression).woven = true := by
  decide +kernel

variable {slots : List Slot}

theorem child_injective {placed : List Placement} (h : placed.Pairwise (Apart slots))
    {p q : Placement} (hp : p ∈ placed) (hq : q ∈ placed) (he : p.child = q.child) : p = q := by
  have hn : (placed.map Placement.child).Nodup :=
    List.pairwise_map.mpr (h.imp fun hpq => Nat.ne_of_lt hpq.1)
  exact List.inj_on_of_nodup_map hn hp hq he

/-- Taking over moves children but loses none. -/
theorem exists_of_takeOver {placed : List Placement} {p : Placement} (hp : p ∈ placed)
    (slot : Slot × Nat) : ∃ q ∈ takeOver slots placed slot, q.child = p.child := by
  obtain ⟨slot, i⟩ := slot
  simp only [takeOver]
  split
  · cases donor? slots placed i slot.matcher with
    | none => exact ⟨p, hp, rfl⟩
    | some d =>
      refine ⟨_, List.mem_map_of_mem hp, ?_⟩
      split <;> rfl
  · exact ⟨p, hp, rfl⟩

theorem takeOver_of_filled {placed : List Placement} {slot : Slot} {i : Nat} {p : Placement}
    (hp : p ∈ placed) (hi : p.slot = i) : takeOver slots placed (slot, i) = placed := by
  refine if_neg fun ⟨_, hf⟩ => ?_
  simp only [isFilled, Bool.not_eq_true', List.any_eq_false, beq_iff_eq] at hf
  exact hf p hp hi

theorem takeOver_of_not_required {placed : List Placement} {slot : Slot} {i : Nat}
    (h : slot.cardinality ≠ .required) : takeOver slots placed (slot, i) = placed :=
  if_neg fun hr => h hr.1

/-- A required slot gets a child where a slot before it can give one away. -/
theorem filled_takeOver {placed : List Placement} {slot : Slot} {i : Nat} {p : Placement}
    (hp : p ∈ placed) (hr : slot.cardinality = .required)
    (hd : p.slot < i ∧ isOptional slots p.slot = true ∧ slot.matcher.accepts p.kind = true) :
    ∃ q ∈ takeOver slots placed (slot, i), q.slot = i := by
  by_cases hf : isFilled placed i = true
  · obtain ⟨q, hq, hqi⟩ := List.any_eq_true.mp hf
    have hqi : q.slot = i := by simpa using hqi
    rw [takeOver_of_filled hq hqi]
    exact ⟨q, hq, hqi⟩
  · have hs : (donor? slots placed i slot.matcher).isSome = true := by
      refine List.find?_isSome.mpr ⟨p, List.mem_reverse.mpr hp, ?_⟩
      simp [hd]
    obtain ⟨d, hd⟩ := Option.isSome_iff_exists.mp hs
    have hdm : d ∈ placed := List.mem_reverse.mp (List.mem_of_find?_eq_some hd)
    rw [takeOver, if_pos ⟨hr, by simpa using hf⟩, hd]
    exact ⟨_, List.mem_map_of_mem hdm, by simp⟩

/-- What is in a slot that is not optional stays there. -/
theorem mem_takeOver {placed : List Placement} (h : placed.Pairwise (Apart slots))
    {p : Placement} (hp : p ∈ placed) (ho : isOptional slots p.slot = false) (slot : Slot × Nat) :
    p ∈ takeOver slots placed slot := by
  obtain ⟨slot, i⟩ := slot
  simp only [takeOver]
  split
  · cases hd : donor? slots placed i slot.matcher with
    | none => exact hp
    | some d =>
      have hdm : d ∈ placed := List.mem_reverse.mp (List.mem_of_find?_eq_some hd)
      have hda := List.find?_some hd
      simp only [Bool.and_eq_true] at hda
      refine List.mem_map.mpr ⟨p, hp, if_neg fun hc => ?_⟩
      rw [child_injective h hp hdm hc, hda.1.2] at ho
      cases ho
  · exact hp

/-- In a range only the last slot can take a child over. -/
theorem assign_rangeSlots (ks : List Kind) :
    assign rangeSlots ks = takeOver rangeSlots (placements rangeSlots 0 0 ks)
      (Schema.required "stopExpression" (.alternative .simpleExpression), 2) := by
  have hstart : takeOver rangeSlots (placements rangeSlots 0 0 ks)
      (Schema.required "startExpression" (.alternative .simpleExpression), 0) =
        placements rangeSlots 0 0 ks := by
    have hdonor : donor? rangeSlots (placements rangeSlots 0 0 ks) 0
        (.alternative .simpleExpression) = none := List.find?_eq_none.mpr fun _ _ => by simp
    simp [takeOver, Schema.required, hdonor]
  have hstep : takeOver rangeSlots (placements rangeSlots 0 0 ks)
      (Schema.optional "stepExpression" (.alternative .simpleExpression), 1) =
        placements rangeSlots 0 0 ks := takeOver_of_not_required (by decide)
  unfold assign
  rw [fill_nil]
  show takeOver rangeSlots (takeOver rangeSlots (takeOver rangeSlots _ (_, 0)) (_, 1)) (_, 2) = _
  rw [hstart, hstep]

/-- In a range of two parts the second one ends up in the last slot. -/
theorem fits_rangeSlots {ks : List Kind} (h : (Kind.shape .rangeExpression).woven.Matches ks) :
    Fits rangeSlots ks := by
  obtain ⟨hf, hp⟩ := filled_of_suits suits_rangeSlots h
  simp only [placements_recast] at hf hp
  obtain ⟨a, ha, ha0⟩ := hf 0 _ rfl rfl
  obtain ⟨b, hb, hb1⟩ := hf 1 _ rfl rfl
  have hassign := assign_rangeSlots ks
  refine ⟨fun i slot hs hr => ?_, fun j k hj hk => ?_⟩
  · rw [hassign]
    match i, hs with
    | 0, _ =>
      refine ⟨a, mem_takeOver (pairwise_placements 0 0 ks) ha ?_ _, ha0⟩
      rw [ha0]
      rfl
    | 1, hs =>
      cases hs
      cases hr
    | 2, _ =>
      obtain ⟨slot, hslot, hacc⟩ := (sound_placements [] b hb).accepts
      rw [hb1] at hslot
      cases hslot
      exact filled_takeOver hb rfl ⟨by omega, by rw [hb1]; rfl, hacc⟩
    | _ + 3, hs => cases hs
  · obtain ⟨p, hpm, rfl⟩ := hp j k hj hk
    rw [hassign]
    exact exists_of_takeOver hpm _

theorem fits_standard {k : Kind} (hk : k ∈ Kind.productions) {ks : List Kind}
    (h : k.shape.woven.Matches ks) : Fits (Schema.standard.slots k) ks := by
  by_cases hr : k = .rangeExpression
  · subst hr
    rw [slots_rangeExpression]
    exact fits_rangeSlots h
  · exact fits_of_suits (suits_standard k hk hr) h

end Slot

/-! ## Trivia put back -/

theorem Tree.shaped_node {k : Kind} {cs : List Tree} : (Tree.node k cs).Shaped ↔
    k ∈ Kind.productions ∧ k.shape.Matches (cs.map Tree.kind) ∧ ∀ c ∈ cs, c.Shaped :=
  ⟨fun h => by cases h with | node hk hm hc => exact ⟨hk, hm, hc⟩,
    fun ⟨hk, hm, hc⟩ => .node hk hm hc⟩

/-- The children of every node fit its slots. -/
inductive Tree.Conforms : Tree → Prop
  | leaf {t} : Conforms (.leaf t)
  | node {k cs} : k ∈ Kind.productions →
      Slot.Fits (Schema.standard.slots k) (cs.map Tree.kind) → (∀ c ∈ cs, Conforms c) →
      Conforms (.node k cs)

namespace Tree

variable {ts : List Token}

/-- In a gap without bad tokens there is only trivia. -/
theorem gap_eq_leaves (h : ∀ t ∈ ts, t.kind ≠ .error) :
    ∀ c ∈ gap ts, ∃ t, c = .leaf t ∧ t.kind ∈ Kind.blanks := by
  intro c hc
  obtain ⟨t, ht, rfl⟩ := List.mem_map.mp hc
  have hs : t.isSignificant = false := by simpa using List.mem_takeWhile_imp ht
  have hne : t.kind ≠ .error := h t ((List.takeWhile_prefix _).subset ht)
  refine ⟨t, if_neg hne, ?_⟩
  simp only [Token.isSignificant, Kind.isSignificant, Bool.and_eq_false_iff, Bool.not_eq_false',
    bne_eq_false_iff_eq, hne, or_false] at hs
  revert hs
  cases t.kind <;> decide

theorem weaves_gap (h : ∀ t ∈ ts, t.kind ≠ .error) : Weaves [] ((gap ts).map Tree.kind) := by
  refine Weaves.of_blanks fun k hk => ?_
  obtain ⟨c, hc, rfl⟩ := List.mem_map.mp hk
  obtain ⟨t, rfl, ht⟩ := gap_eq_leaves h c hc
  exact ht

theorem conforms_gap (h : ∀ t ∈ ts, t.kind ≠ .error) : ∀ c ∈ gap ts, c.Conforms := by
  intro c hc
  obtain ⟨t, rfl, -⟩ := gap_eq_leaves h c hc
  exact .leaf

mutual

/-- What is left after weaving is left of what was there. -/
theorem weaveChild_suffix (ts : List Token) : (c : Tree) → (weaveChild ts c).2 <:+ ts
  | leaf t => (List.tail_suffix _).trans (List.dropWhile_suffix _)
  | node k cs => by
    unfold weaveChild
    by_cases he : (afterGap ts).isEmpty
    · simpa [he] using weaveAll_suffix ts cs
    · simpa [he] using (weaveAll_suffix (afterGap ts) cs).trans (List.dropWhile_suffix _)

theorem weaveAll_suffix (ts : List Token) : (cs : List Tree) → (weaveAll ts cs).2 <:+ ts
  | [] => List.suffix_rfl
  | c :: cs => (weaveAll_suffix _ cs).trans (weaveChild_suffix ts c)

end

theorem error_free_of_suffix {us : List Token} (h : ∀ t ∈ ts, t.kind ≠ .error) (hs : us <:+ ts) :
    ∀ t ∈ us, t.kind ≠ .error :=
  fun t ht => h t (hs.subset ht)

mutual

/-- Weaving one child puts trivia before it and into it, and nothing else. -/
theorem conforms_weaveChild (ts : List Token) (h : ∀ t ∈ ts, t.kind ≠ .error) :
    (c : Tree) → c.Shaped →
      (∀ d ∈ (weaveChild ts c).1, d.Conforms) ∧ Weaves [c.kind] ((weaveChild ts c).1.map kind)
  | leaf t, _ => by
    simp only [weaveChild, List.map_append]
    refine ⟨fun d hd => ?_, (weaves_gap h).append (.keep .nil)⟩
    obtain hg | hl := List.mem_append.mp hd
    · exact conforms_gap h d hg
    · cases List.mem_singleton.mp hl
      exact .leaf
  | node k cs, hc => by
    obtain ⟨hk, hm, hcs⟩ := shaped_node.mp hc
    have hnode : ∀ us, (∀ t ∈ us, t.kind ≠ .error) → (node k (weaveAll us cs).1).Conforms := by
      intro us hus
      obtain ⟨hw, hws⟩ := conforms_weaveAll us hus cs hcs
      exact .node hk (Slot.fits_standard hk (matches_woven hm hws)) hw
    have hafter := error_free_of_suffix h (List.dropWhile_suffix (!·.isSignificant))
    unfold weaveChild
    by_cases he : (afterGap ts).isEmpty
    · simp only [he, if_true]
      refine ⟨fun d hd => ?_, .keep .nil⟩
      cases List.mem_singleton.mp hd
      exact hnode ts h
    · simp only [he, Bool.false_eq_true, if_false, List.map_append]
      refine ⟨fun d hd => ?_, (weaves_gap h).append (.keep .nil)⟩
      obtain hg | hl := List.mem_append.mp hd
      · exact conforms_gap h d hg
      · cases List.mem_singleton.mp hl
        exact hnode _ hafter

theorem conforms_weaveAll (ts : List Token) (h : ∀ t ∈ ts, t.kind ≠ .error) :
    (cs : List Tree) → (∀ c ∈ cs, c.Shaped) →
      (∀ d ∈ (weaveAll ts cs).1, d.Conforms) ∧
        Weaves (cs.map kind) ((weaveAll ts cs).1.map kind)
  | [], _ => ⟨fun _ hd => (nomatch hd), .nil⟩
  | c :: cs, hc => by
    obtain ⟨hd, hw⟩ := conforms_weaveChild ts h c (hc c (by simp))
    have hleft := error_free_of_suffix h (weaveChild_suffix ts c)
    obtain ⟨hds, hws⟩ := conforms_weaveAll _ hleft cs fun c' hc' => hc c' (by simp [hc'])
    simp only [weaveAll, List.map_append]
    exact ⟨fun d hm => (List.mem_append.mp hm).elim (hd d) (hds d), hw.append hws⟩

end

/-- A tree of the shapes in the tables conforms once its trivia is put back. -/
theorem conforms_weave (h : ∀ t ∈ ts, t.kind ≠ .error) {t : Tree} (ht : t.Shaped) :
    (weave ts t).Conforms := by
  cases t with
  | leaf t => exact .leaf
  | node k cs =>
    obtain ⟨hk, hm, hcs⟩ := shaped_node.mp ht
    obtain ⟨hd, hw⟩ := conforms_weaveAll ts h cs hcs
    have hleft := error_free_of_suffix h (weaveAll_suffix ts cs)
    refine .node hk (Slot.fits_standard hk (matches_woven hm ?_)) fun c hc => ?_
    · rw [List.map_append, ← List.append_nil (cs.map kind)]
      exact hw.append (weaves_gap hleft)
    · exact (List.mem_append.mp hc).elim (hd c) (conforms_gap hleft c)

end Tree

/-! ## Nodes with their places -/

namespace Located

mutual

/-- What every node hands down to its children holds of everything below. -/
theorem forall_preorder {P : Tree → Prop} (hP : ∀ k cs, P (.node k cs) → ∀ c ∈ cs, P c)
    (start : Nat) : (t : Tree) → P t → ∀ n ∈ preorder start t, P n.tree
  | .leaf t, h => fun n hn => by
    cases List.mem_singleton.mp hn
    exact h
  | .node k cs, h => fun n hn => by
    cases hn with
    | head => exact h
    | tail _ hn => exact forall_preorderRow hP start cs (hP k cs h) n hn

theorem forall_preorderRow {P : Tree → Prop} (hP : ∀ k cs, P (.node k cs) → ∀ c ∈ cs, P c)
    (start : Nat) : (ts : List Tree) → (∀ t ∈ ts, P t) → ∀ n ∈ preorderRow start ts, P n.tree
  | [], _ => fun _ hn => nomatch hn
  | t :: ts, h => fun n hn =>
    (List.mem_append.mp hn).elim (forall_preorder hP start t (h t (by simp)) n)
      (forall_preorderRow hP _ ts (fun u hu => h u (by simp [hu])) n)

end

/-- What is below a tree that conforms conforms. -/
theorem conforms_preorder (start : Nat) (t : Tree) (h : t.Conforms) :
    ∀ n ∈ preorder start t, n.tree.Conforms :=
  forall_preorder (fun _ _ h => by cases h with | node _ _ hcs => exact hcs) start t h

/-- A node keeps to the schema: every required slot is filled, a slot that is not for many has one
child at most, every child that is a node is in one slot, and slots hold what they accept. -/
structure Conforms (n : Located) : Prop where
  kind_ne_error : n.kind ≠ .error
  required : ∀ i slot, (Schema.standard.slots n.kind)[i]? = some slot →
    slot.cardinality = .required → Schema.standard.childrenIn n i ≠ []
  single : ∀ i slot, (Schema.standard.slots n.kind)[i]? = some slot →
    slot.cardinality ≠ .many → (Schema.standard.childrenIn n i).length ≤ 1
  placed : ((Schema.standard.resolve n).map (·.2)).filter isNode = n.nodeChildren
  accepted : ∀ i child, (i, child) ∈ Schema.standard.resolve n →
    ∃ slot, (Schema.standard.slots n.kind)[i]? = some slot ∧
      slot.matcher.accepts child.kind = true

theorem map_kind_row (start : Nat) (ts : List Tree) :
    (row start ts).map Located.kind = ts.map Tree.kind := by
  induction ts generalizing start with
  | nil => rfl
  | cons t ts ih => simp [row, ih, Located.kind]

/-- A tree that conforms and is a node has the kind of a node. -/
theorem kind_isNode {n : Located} (h : n.tree.Conforms) (hn : n.isNode = true) :
    n.kind.isNode = true := by
  obtain ⟨start, t⟩ := n
  cases h with
  | leaf => cases hn
  | node hk _ _ => simp [Located.kind, Tree.kind, Kind.isNode, hk]

theorem map_tree_row (start : Nat) (ts : List Tree) : (row start ts).map tree = ts := by
  induction ts generalizing start with
  | nil => rfl
  | cons t ts ih => simp [row, ih]

theorem mem_tree_of_mem_children {n c : Located} (h : c ∈ n.children) :
    c.tree ∈ n.tree.children := by
  rw [← map_tree_row n.start n.tree.children]
  exact List.mem_map_of_mem h

/-- A list is picked again, as far as a test holds, by indices in order that miss nothing. -/
theorem filter_pick {α : Type} (q : α → Bool) (cs : List α) (start : Nat) (is : List Nat)
    (ho : is.Pairwise (· < ·)) (hs : ∀ i ∈ is, start ≤ i)
    (hq : ∀ j c, cs[j]? = some c → q c = true → start + j ∈ is) :
    (is.filterMap fun i => cs[i - start]?).filter q = cs.filter q := by
  induction cs generalizing start is with
  | nil => simp
  | cons c cs ih =>
    -- Past the first element the same indices pick from the rest.
    have hrest : ∀ js : List Nat, js.Pairwise (· < ·) → (∀ j ∈ js, start + 1 ≤ j) →
        (∀ j, start + 1 ≤ j → j ∈ is → j ∈ js) →
        (js.filterMap fun i => (c :: cs)[i - start]?).filter q = cs.filter q := by
      intro js hjo hjs hsub
      rw [← ih (start + 1) js hjo hjs fun j d hj hd => hsub _ (by omega) ?_]
      · congr 1
        refine List.filterMap_congr fun j hj => ?_
        have hj' : j - start = j - (start + 1) + 1 := by have := hjs j hj; omega
        rw [hj', List.getElem?_cons_succ]
      · have hm := hq (j + 1) d (by simpa using hj) hd
        rwa [Nat.add_right_comm, Nat.add_assoc]
    cases is with
    | nil =>
      have hc : q c = false := Bool.eq_false_iff.mpr fun h => nomatch hq 0 c rfl h
      rw [List.filter_cons_of_neg (by simp [hc])]
      exact hrest [] .nil (fun _ h => nomatch h) fun _ _ h => h
    | cons i is =>
      obtain ⟨hi, ho'⟩ := List.pairwise_cons.mp ho
      by_cases he : i = start
      · subst he
        have hpick := hrest is ho' (fun j hj => hi j hj) fun j hj hm =>
          (List.mem_cons.mp hm).resolve_left (by omega)
        simp only [List.filterMap_cons, Nat.sub_self, List.getElem?_cons_zero, List.filter_cons,
          hpick]
      · have hlt : start < i := by have := hs i (by simp); omega
        have hge : ∀ j ∈ i :: is, start + 1 ≤ j := by
          intro j hj
          obtain rfl | hj := List.mem_cons.mp hj
          · exact hlt
          · have := hi j hj
            omega
        have hc : q c = false := by
          refine Bool.eq_false_iff.mpr fun h => ?_
          have := hge _ (hq 0 c rfl h)
          omega
        rw [List.filter_cons_of_neg (by simp [hc])]
        exact hrest (i :: is) ho hge fun _ _ h => h

theorem resolve_eq (s : Schema) (n : Located) : s.resolve n =
    (Slot.assign (s.slots n.kind) (n.children.map Located.kind)).filterMap fun p =>
      n.children[p.child]?.map fun child => (p.slot, child) := by
  simp [Schema.resolve]

theorem mem_resolve {s : Schema} {n child : Located} {i : Nat} : (i, child) ∈ s.resolve n ↔
    ∃ p ∈ Slot.assign (s.slots n.kind) (n.children.map Located.kind),
      p.slot = i ∧ n.children[p.child]? = some child := by
  rw [resolve_eq, List.mem_filterMap]
  constructor
  · rintro ⟨p, hp, he⟩
    obtain ⟨c, hc, he⟩ := Option.map_eq_some_iff.mp he
    cases he
    exact ⟨p, hp, rfl, hc⟩
  · rintro ⟨p, hp, rfl, hc⟩
    exact ⟨p, hp, by rw [hc]; rfl⟩

/-- The child of a placement. -/
theorem exists_child {s : Schema} {n : Located} {p : Placement}
    (h : p ∈ Slot.assign (s.slots n.kind) (n.children.map Located.kind)) :
    ∃ child, n.children[p.child]? = some child ∧ child.kind = p.kind := by
  have hk := (Slot.sound_assign _ _ p h).kind
  rw [List.getElem?_map] at hk
  exact Option.map_eq_some_iff.mp hk

/-- What is listed was placed in its slot. -/
theorem placed_of_mem_resolve {s : Schema} {n child : Located} {i : Nat}
    (h : (i, child) ∈ s.resolve n) :
    ∃ p ∈ Slot.assign (s.slots n.kind) (n.children.map Located.kind),
      p.slot = i ∧ p.kind = child.kind := by
  obtain ⟨p, hp, hi, hc⟩ := mem_resolve.mp h
  obtain ⟨c, hc', hk⟩ := exists_child hp
  obtain rfl : c = child := Option.some.inj (hc'.symm.trans hc)
  exact ⟨p, hp, hi, hk.symm⟩

theorem accepts_of_mem_resolve {s : Schema} {n child : Located} {i : Nat}
    (h : (i, child) ∈ s.resolve n) :
    ∃ slot, (s.slots n.kind)[i]? = some slot ∧ slot.matcher.accepts child.kind = true := by
  obtain ⟨p, hp, rfl, hk⟩ := placed_of_mem_resolve h
  exact hk ▸ (Slot.sound_assign _ _ p hp).accepts

/-- A slot in which something was placed is not empty. -/
theorem childrenIn_ne_nil {s : Schema} {n : Located} {p : Placement}
    (h : p ∈ Slot.assign (s.slots n.kind) (n.children.map Located.kind)) :
    s.childrenIn n p.slot ≠ [] := by
  obtain ⟨child, hc, -⟩ := exists_child h
  have hmem : (p.slot, child) ∈ s.resolve n := mem_resolve.mpr ⟨p, h, rfl, hc⟩
  exact List.ne_nil_of_mem
    (List.mem_map.mpr ⟨(p.slot, child), List.mem_filter.mpr ⟨hmem, by simp⟩, rfl⟩)

theorem map_resolve (s : Schema) (n : Located) : (s.resolve n).map (·.2) =
    ((Slot.assign (s.slots n.kind) (n.children.map Located.kind)).map
      Placement.child).filterMap fun i => n.children[i - 0]? := by
  rw [resolve_eq, List.map_filterMap, List.filterMap_map]
  refine List.filterMap_congr fun p _ => ?_
  rw [Function.comp_apply, Nat.sub_zero, Option.map_map]
  exact Option.map_id'

/-- Only a slot for many gets more than one child. -/
theorem length_childrenIn {s : Schema} {n : Located} {i : Nat}
    (h : Slot.isMany (s.slots n.kind) i = false) : (s.childrenIn n i).length ≤ 1 := by
  have hpair := Slot.pairwise_assign (s.slots n.kind) (n.children.map Located.kind)
  have hresolve : (s.resolve n).Pairwise fun a b =>
      a.1 = b.1 → Slot.isMany (s.slots n.kind) a.1 = true := by
    rw [resolve_eq]
    refine hpair.filterMap _ fun p q hpq a ha b hb => ?_
    obtain ⟨-, -, rfl⟩ := Option.map_eq_some_iff.mp ha
    obtain ⟨-, -, rfl⟩ := Option.map_eq_some_iff.mp hb
    exact hpq.2
  have hslot : ∀ e ∈ (s.resolve n).filter (·.1 == i), e.1 = i := fun e he => by
    simpa using (List.mem_filter.mp he).2
  unfold Schema.childrenIn
  rw [List.length_map]
  match hl : (s.resolve n).filter (·.1 == i) with
  | [] | [_] => simp [hl]
  | a :: b :: rest =>
    have hab := hresolve.filter (·.1 == i)
    rw [hl] at hab hslot
    have hm := (List.pairwise_cons.mp hab).1 b (by simp)
    rw [hslot a (by simp), hslot b (by simp), h] at hm
    cases hm rfl

theorem conforms_of_tree {n : Located} (h : n.tree.Conforms) (hn : n.isNode = true) :
    n.Conforms := by
  obtain ⟨hprod, hfits, hchildren⟩ : n.kind ∈ Kind.productions ∧
      Slot.Fits (Schema.standard.slots n.kind) (n.children.map Located.kind) ∧
      ∀ c ∈ n.tree.children, c.Conforms := by
    unfold children
    rw [map_kind_row]
    obtain ⟨start, t⟩ := n
    cases h with
    | leaf => cases hn
    | node hk hf hc => exact ⟨hk, hf, hc⟩
  refine ⟨?_, fun i slot hs hr => ?_, fun i slot hs hm => length_childrenIn ?_, ?_,
    fun i child hm => ?_⟩
  · intro he
    rw [he] at hprod
    exact absurd hprod (by decide)
  · obtain ⟨p, hp, rfl⟩ := hfits.filled i slot hs hr
    exact childrenIn_ne_nil hp
  · simpa [Slot.isMany_eq hs] using hm
  · rw [map_resolve]
    refine filter_pick isNode n.children 0 _ ?_ (fun _ _ => Nat.zero_le _) fun j c hj hc => ?_
    · have hpair := Slot.pairwise_assign (Schema.standard.slots n.kind)
        (n.children.map Located.kind)
      exact List.pairwise_map.mpr (hpair.imp And.left)
    · have hkind : c.kind.isNode = true :=
        kind_isNode (hchildren _ (mem_tree_of_mem_children (List.mem_of_getElem? hj))) hc
      obtain ⟨p, hp, he⟩ := hfits.placed j c.kind (by rw [List.getElem?_map, hj]; rfl) hkind
      rw [Nat.zero_add, ← he]
      exact List.mem_map_of_mem hp
  · exact accepts_of_mem_resolve hm

end Located

theorem Token.kind_mem_significant {text : String} {t : Token}
    (h : t ∈ significant (tokenize text)) : t.kind ∈ Kind.significant := by
  obtain ⟨ht, hs⟩ := List.mem_filter.mp h
  have hk := kind_mem_tokens ht
  have hall : ∀ k ∈ Kind.tokens, k.isSignificant = true → k ∈ Kind.significant := by
    decide +kernel
  exact hall t.kind hk hs

namespace Parse

/-- Every bad token is reported. -/
theorem exists_mem_lexicalFaults {tokens : List Token} {t : Token} (ht : t ∈ tokens)
    (h : t.kind = .error) : ∃ d ∈ lexicalFaults tokens, d.isError = true := by
  rw [← Token.map_placeFrom 0 .origin tokens] at ht
  obtain ⟨p, hp, rfl⟩ := List.mem_map.mp ht
  have hc : p.toToken.fault? = some (Token.causeOf p.text.toList) := if_pos h
  exact ⟨.ofCode _ p.span, List.mem_filterMap.mpr ⟨p, hp, by rw [hc]; rfl⟩, rfl⟩

/-- A text without errors has no bad tokens, and the grammar has reported no error. -/
theorem clean_of_ok {p : Production} {limit : Nat} {text : String}
    (h : (ofProduction p limit text).ok = true) :
    (∀ t ∈ tokenize text, t.kind ≠ .error) ∧
      (p.read limit (Token.significant (tokenize text))).Clean := by
  have hall : ∀ d ∈ lexicalFaults (tokenize text) ++
      (p.read limit (Token.significant (tokenize text))).faults.reverse.map
        (Diagnostic.map (Landmarks.ofTokens (tokenize text)).span), d.isError = false := by
    intro d hd
    have := List.all_eq_true.mp h d (List.mem_mergeSort.mpr hd)
    simpa using this
  refine ⟨fun t ht he => ?_, fun d hd => ?_⟩
  · obtain ⟨d, hd, hde⟩ := exists_mem_lexicalFaults ht he
    rw [hall d (List.mem_append_left _ hd)] at hde
    cases hde
  · exact hall (d.map _)
      (List.mem_append_right _ (List.mem_map_of_mem (List.mem_reverse.mpr hd)))

end Parse

/-- A text that parses without errors has a tree in which every node keeps to the schema. -/
theorem parse_conforms {text : String} (h : (parse text).ok = true) :
    ∀ n ∈ (Located.root (parse text).tree).nodes, n.Conforms := by
  obtain ⟨htokens, hclean⟩ := Parse.clean_of_ok h
  have hrun := Production.runs_of_clean (.call .storedDefinition) trivial hclean
  obtain ⟨m, -, hm⟩ := runs_node.mp (runs_call.mp hrun)
  have hholds := hrun.holds (c := []) (d := [one [.storedDefinition]]) ?_ holds_nil
    ⟨trivial, Le.refl _⟩
  · have hshaped : (Tree.node .storedDefinition m.built.reverse).Shaped :=
      hholds.2 _ (by rw [hm]; exact List.mem_cons_self)
    have htree : (parse text).tree.Conforms := by
      simp only [parse, Parse.ofProduction, hm, List.head?_cons, Option.getD_some]
      exact Tree.conforms_weave htokens hshaped
    intro n hn
    obtain ⟨hn, hnode⟩ := List.mem_filter.mp hn
    exact Located.conforms_of_tree (Located.conforms_preorder 0 _ htree n hn) hnode
  · intro t ht
    exact Token.kind_mem_significant ht

/-- A class with a range of two parts and one with a step. -/
theorem parse_conforms_ranges :
    (parse "model A Real x[2] = f(1:n, 1:2:n) \"x\"; end A;").ok = true ∧
      ∀ n ∈ (Located.root (parse "model A Real x[2] = f(1:n, 1:2:n) \"x\"; end A;").tree).nodes,
        n.Conforms :=
  ⟨by decide +kernel, parse_conforms (by decide +kernel)⟩

end Modelica
