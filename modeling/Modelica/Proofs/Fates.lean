import Modelica.Proofs.Recovered

/-!
# What becomes of each child

`Located.fates` lists the children of a node, each with the slot it goes to. A watch follows the
cursor along the children and lets a machine see what becomes of each; where `Slot.watches` accepts
the shapes of a kind, the machine reads the fates of every node of that kind.

* `Slot.assign_eq_of_settled`: most kinds have nothing to take over, so a child stays where it went;
* `Located.watched`: what a watch says of the nodes of a parse;
* `Located.childrenIn_eq`: a slot has the children that go to it;
* `Located.childrenIn_of_gathers`: a slot that takes every child it accepts.
-/

namespace Modelica

namespace Slot

variable {slots : List Slot}

/-- The slot that the next child goes to. -/
def take? (slots : List Slot) (cursor : Nat) (k : Kind) : Option Nat :=
  if isOffered k then next? slots cursor k else none

/-- The cursor after the next child. -/
def move (slots : List Slot) (cursor : Nat) (k : Kind) : Nat :=
  match take? slots cursor k with
  | some i => cursorAfter slots i
  | none => cursor

/-- Each child from a cursor on, with the slot it goes to. -/
def fates (slots : List Slot) : Nat → List Kind → List (Kind × Option Nat)
  | _, [] => []
  | cursor, k :: ks => (k, take? slots cursor k) :: fates slots (move slots cursor k) ks

theorem map_fst_fates (cursor : Nat) (ks : List Kind) :
    (fates slots cursor ks).map (·.1) = ks := by
  induction ks generalizing cursor with
  | nil => rfl
  | cons k ks ih => simp [fates, ih]

theorem length_fates (cursor : Nat) (ks : List Kind) :
    (fates slots cursor ks).length = ks.length := by
  rw [← List.length_map (f := (·.1)), map_fst_fates]

/-- A child is placed where its fate says. -/
theorem mem_placements {p : Placement} {cursor child : Nat} {ks : List Kind} :
    p ∈ placements slots cursor child ks ↔
      ∃ j, p.child = child + j ∧ (fates slots cursor ks)[j]? = some (p.kind, some p.slot) := by
  induction ks generalizing cursor child with
  | nil => simp [placements, fates]
  | cons k ks ih =>
    have hrest : ∀ c, p ∈ placements slots c (child + 1) ks ↔ ∃ j, p.child = child + (j + 1) ∧
        (fates slots c ks)[j]? = some (p.kind, some p.slot) := fun c => by
      rw [ih]
      simp only [Nat.add_assoc, Nat.add_comm 1]
    obtain ⟨slot, i, l⟩ := p
    have ht : take? slots cursor k = if isOffered k then next? slots cursor k else none := rfl
    unfold placements
    rw [← ht, fates, move]
    cases take? slots cursor k with
    | none =>
      rw [hrest]
      constructor
      · rintro ⟨j, hj⟩
        exact ⟨j + 1, hj⟩
      · rintro ⟨j, hc, hj⟩
        cases j with
        | zero => simp at hj
        | succ j => exact ⟨j, hc, hj⟩
    | some m =>
      rw [List.mem_cons, hrest]
      constructor
      · rintro (he | ⟨j, hj⟩)
        · cases he
          exact ⟨0, rfl, rfl⟩
        · exact ⟨j + 1, hj⟩
      · rintro ⟨j, hc, hj⟩
        cases j with
        | zero =>
          obtain ⟨rfl, rfl⟩ : k = l ∧ m = slot := by simpa using hj
          exact .inl (by simp_all)
        | succ j => exact .inr ⟨j, hc, hj⟩

theorem accepts_of_fate {k : Kind} {i cursor : Nat} {ks : List Kind}
    (h : (k, some i) ∈ fates slots cursor ks) :
    ∃ slot, slots[i]? = some slot ∧ slot.matcher.accepts k = true := by
  induction ks generalizing cursor with
  | nil => cases h
  | cons l ks ih =>
    obtain he | h := List.mem_cons.mp h
    · obtain ⟨rfl, ht⟩ := Prod.mk.inj he
      unfold take? at ht
      split at ht
      · exact accepts_of_next? ht.symm
      · cases ht
    · exact ih h

/-- The children of placements go where their fates say. -/
theorem filterMap_placements (cs done : List Located) (cursor : Nat) :
    ((placements slots cursor done.length (cs.map Located.kind)).filterMap fun p =>
      (done ++ cs)[p.child]?.map (p.slot, ·)) =
    (cs.zip ((fates slots cursor (cs.map Located.kind)).map (·.2))).filterMap fun e =>
      e.2.map (·, e.1) := by
  induction cs generalizing done cursor with
  | nil => rfl
  | cons c cs ih =>
    have hrest := fun cursor => ih (done ++ [c]) cursor
    simp only [List.length_append, List.length_singleton, List.append_assoc,
      List.singleton_append] at hrest
    have ht : take? slots cursor c.kind =
        if isOffered c.kind then next? slots cursor c.kind else none := rfl
    rw [List.map_cons, placements, fates, move, ← ht]
    cases take? slots cursor c.kind with
    | none => simpa using hrest cursor
    | some i => simpa using hrest (cursorAfter slots i)

end Slot

theorem Kind.mem_members {k : Kind} {s : Supertype} (h : k.isA s = true) : k ∈ s.members := by
  have hk : k.supertypes ≠ [] := by
    intro he
    simp [isA, he] at h
  refine List.mem_filter.mpr ⟨?_, h⟩
  revert hk
  cases k <;> first | exact fun _ => by decide | exact fun hk => absurd rfl hk

/-- The kinds that a slot accepts. -/
def Matcher.kinds : Matcher → List Kind
  | kind k => [k]
  | oneOf ks => ks
  | alternative s => s.members

theorem Matcher.mem_kinds {m : Matcher} {k : Kind} (h : m.accepts k = true) : k ∈ m.kinds := by
  cases m with
  | kind l => exact List.mem_singleton.mpr (beq_iff_eq.mp h)
  | oneOf ks => exact List.contains_iff_mem.mp h
  | alternative s => exact Kind.mem_members h

namespace Slot

variable {slots : List Slot}

/-- No required slot accepts what an optional one before it accepts. -/
def settled (slots : List Slot) : Bool :=
  slots.zipIdx.all fun (slot, i) => slot.cardinality != .required ||
    (slots.take i).all fun s =>
      s.cardinality != .optional || s.matcher.kinds.all (!slot.matcher.accepts ·)

theorem assign_eq_of_settled (h : settled slots = true) (ks : List Kind) :
    assign slots ks = placements slots 0 0 ks := by
  refine assign_eq_placements fun i slot hs => ?_
  have hi := List.all_eq_true.mp h (slot, i) (List.mem_zipIdx_iff_getElem?.mpr hs)
  simp only [takeOver]
  refine ite_eq_right_iff.mpr ?_
  rintro ⟨hr, -⟩
  cases hd : donor? slots (placements slots 0 0 ks) i slot.matcher with
  | none => rfl
  | some d =>
    -- The donor would be in an optional slot that accepts what the required one accepts.
    have hdm := List.mem_reverse.mp (List.mem_of_find?_eq_some hd)
    have hda := List.find?_some hd
    simp only [Bool.and_eq_true, decide_eq_true_eq] at hda
    obtain ⟨s, hsl, ha⟩ := (sound_placements [] d hdm).accepts
    have hopt : s.cardinality = .optional := by simpa [isOptional, hsl] using hda.1.2
    have hmem : s ∈ slots.take i := by
      refine List.mem_of_getElem? (i := d.slot) ?_
      rw [List.getElem?_take_of_lt hda.1.1, hsl]
    simp only [hr, bne_self_eq_false, Bool.false_or] at hi
    have hno := List.all_eq_true.mp hi s hmem
    simp only [hopt, bne_self_eq_false, Bool.false_or] at hno
    have := List.all_eq_true.mp hno d.kind (Matcher.mem_kinds ha)
    simp [hda.2] at this

theorem settled_standard : ∀ k ∈ Kind.productions, k ≠ .rangeExpression →
    settled (Schema.standard.slots k) = true := by
  decide +kernel

/-- A machine that sees each child with the slot it goes to. -/
abbrev Machine := Bool → Kind × Option Nat → Option Bool

/-- Follows the cursor and lets a machine see where each child goes. -/
def watch (slots : List Slot) (u : Machine) : Nat × Bool → Kind → Option (Nat × Bool)
  | (cursor, seen), k => (u seen (k, take? slots cursor k)).map (move slots cursor k, ·)

/-- The machine reads every child list of the shapes to its end. -/
def watches (slots : List Slot) (u : Machine) (seen : Bool) (vs : Variants) : Bool :=
  vs.all fun s => (s.track? (watch slots u) (2 * slots.length + 3) [(0, seen)]).isSome

variable {u : Machine} {seen : Bool}

theorem walks_fates {ks : List Kind} {cursor : Nat} {last : Nat × Bool}
    (h : Walks (watch slots u) (cursor, seen) ks last) :
    Walks u seen (fates slots cursor ks) last.2 := by
  induction ks generalizing cursor seen with
  | nil => cases h; exact .nil
  | cons k ks ih =>
    cases h with
    | cons hs hw =>
      obtain ⟨b, hb, rfl⟩ := Option.map_eq_some_iff.mp hs
      exact .cons hb (ih hw)

/-- No slot accepts what does not count. -/
def inert (slots : List Slot) : Bool :=
  [Kind.whitespace, .lineComment, .blockComment, .error].all fun k =>
    slots.all (!·.matcher.accepts k)

theorem inert_standard : ∀ k ∈ Kind.productions, inert (Schema.standard.slots k) = true := by
  decide +kernel

theorem not_accepts_of_inert (h : inert slots = true) {k : Kind} (hk : k.isCounted = false)
    {slot : Slot} (hs : slot ∈ slots) : slot.matcher.accepts k = false := by
  have hmem : k ∈ [Kind.whitespace, .lineComment, .blockComment, .error] := by
    revert hk
    cases k <;> decide
  simpa using List.all_eq_true.mp (List.all_eq_true.mp h k hmem) slot hs

theorem take?_of_inert (h : inert slots = true) {k : Kind} (hk : k.isCounted = false)
    (cursor : Nat) : take? slots cursor k = none := by
  have hnext : next? slots cursor k = none := by
    refine Option.map_eq_none_iff.mpr (List.find?_eq_none.mpr fun ⟨slot, i⟩ hm => ?_)
    simp [not_accepts_of_inert h hk (List.mem_of_getElem? (of_mem_drop_zipIdx hm).2)]
  simp [take?, hnext]

/-- What a watch says of children of the shapes, with those put back that do not count. -/
theorem watched_of_matches {vs : Variants} {ks : List Kind} (hi : inert slots = true)
    (hu : ∀ (b : Bool) (k : Kind), k.isCounted = false → u b (k, none) = some b)
    (hw : watches slots u seen vs = true) (hm : vs.Matches (ks.filter Kind.isCounted)) :
    ∃ last, Walks u seen (fates slots 0 ks) last := by
  obtain ⟨s, hs, hm⟩ := hm
  obtain ⟨last, ht⟩ := Option.isSome_iff_exists.mp (List.all_eq_true.mp hw s hs)
  obtain ⟨d, -, hwalk⟩ := Shape.exists_walks hm ht (List.mem_singleton.mpr rfl)
  refine ⟨d.2, walks_fates (hwalk.of_filter fun ⟨cursor, b⟩ k hk => ?_)⟩
  simp [watch, move, take?_of_inert hi hk, hu b k hk]

end Slot

namespace Located

variable {n : Located} {u : Slot.Machine} {seen : Bool}

/-- Every child of a node with the slot it goes to. -/
def fates (n : Located) : List (Located × Option Nat) :=
  n.children.zip ((Slot.fates (Schema.standard.slots n.kind) 0 (n.children.map kind)).map (·.2))

theorem map_fst_fates (n : Located) : n.fates.map (·.1) = n.children := by
  refine List.map_fst_zip (Nat.le_of_eq ?_)
  rw [List.length_map, Slot.length_fates, List.length_map]

theorem map_fates (n : Located) : n.fates.map (fun e => (e.1.kind, e.2)) =
    Slot.fates (Schema.standard.slots n.kind) 0 (n.children.map kind) := by
  refine (List.zip_map_left ..).symm.trans (List.zip_of_prod ?_ rfl).symm
  exact Slot.map_fst_fates 0 _

/-- A child goes to a slot that accepts it. -/
theorem accepts_of_fate {e : Located × Option Nat} (he : e ∈ n.fates) {i : Nat}
    (hi : e.2 = some i) : ∃ slot, (Schema.standard.slots n.kind)[i]? = some slot ∧
      slot.matcher.accepts e.1.kind = true := by
  have hmem : (e.1.kind, e.2) ∈ n.fates.map fun e => (e.1.kind, e.2) := List.mem_map_of_mem he
  rw [map_fates, hi] at hmem
  exact Slot.accepts_of_fate hmem

/-- What a watch tells of a node. -/
theorem watched (h : n.Remains)
    (hu : ∀ (b : Bool) (k : Kind), k.isCounted = false → u b (k, none) = some b)
    (hw : Slot.watches (Schema.standard.slots n.kind) u seen n.kind.parts = true) :
    ∃ last, Walks (fun b (e : Located × Option Nat) => u b (e.1.kind, e.2)) seen n.fates last := by
  obtain ⟨last, hwalk⟩ := Slot.watched_of_matches (Slot.inert_standard _ h.kind) hu hw h.row
  rw [← map_fates] at hwalk
  exact ⟨last, hwalk.of_map⟩

/-- Where nothing is taken over, a node is resolved as the fates of its children say. -/
theorem resolve_eq_fates (h : n.Remains) (hr : n.kind ≠ .rangeExpression) :
    Schema.standard.resolve n = n.fates.filterMap fun e => e.2.map (·, e.1) := by
  rw [resolve_eq, Slot.assign_eq_of_settled (Slot.settled_standard _ h.kind hr)]
  exact Slot.filterMap_placements n.children [] 0

theorem childrenIn_eq (h : n.Remains) (hr : n.kind ≠ .rangeExpression) (i : Nat) :
    Schema.standard.childrenIn n i = (n.fates.filter (·.2 == some i)).map (·.1) := by
  rw [Schema.childrenIn, resolve_eq_fates h hr]
  induction n.fates with
  | nil => rfl
  | cons e es ih =>
    obtain ⟨child, slot⟩ := e
    cases slot with
    | none => simpa using ih
    | some j => by_cases hj : j = i <;> simpa [hj] using ih

/-- Slot `i` of a kind takes every child that it accepts. -/
def gathers (k : Kind) (i : Nat) (m : Matcher) : Bool :=
  Slot.watches (Schema.standard.slots k)
    (once (fun _ => false) fun e => !m.accepts e.1 || e.2 == some i) true k.parts

theorem childrenIn_of_gathers (h : n.Remains) (hr : n.kind ≠ .rangeExpression) {i : Nat}
    {slot : Slot} (hs : (Schema.standard.slots n.kind)[i]? = some slot)
    (hg : gathers n.kind i slot.matcher = true) :
    Schema.standard.childrenIn n i = n.children.filter (slot.matcher.accepts ·.kind) := by
  have hinert := Slot.inert_standard _ h.kind
  obtain ⟨last, hwalk⟩ := watched h (fun b k hk => by
    simp [once, Slot.not_accepts_of_inert hinert hk (List.mem_of_getElem? hs)]) hg
  have hfate : ∀ e ∈ n.fates, (e.2 == some i) = slot.matcher.accepts e.1.kind := by
    intro e he
    rw [Bool.eq_iff_iff, beq_iff_eq]
    refine ⟨fun hi => ?_, fun ha => ?_⟩
    · obtain ⟨slot', hs', ha⟩ := accepts_of_fate he hi
      obtain rfl : slot = slot' := Option.some.inj (hs.symm.trans hs')
      exact ha
    · have hq := Walks.once_spec hwalk |>.1 rfl e he
      simpa [ha] using hq
  rw [childrenIn_eq h hr, List.filter_congr hfate, ← map_fst_fates n, List.filter_map]
  rfl

end Located

end Modelica
