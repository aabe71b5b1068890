import Modelica.Proofs.Agreement

/-!
# Slots and the tokens between them

Children are assigned to slots by their kinds and their order, whatever tokens stand between them.
Where a part is missing, a later one may fill its slot: the branch of an `if` without a condition is
taken for the condition. `Located.Delimited` says how far slots keep to the tokens around them.

* `Located.Opens`, `Located.Closes`: a slot that is filled before a token, or after it, as long as
  there is anything to fill it with on that side;
* `Located.Follows`, `Located.Needs`: a slot that is filled after a token only, which has to be
  there;
* `opens_of_takesFirst`, `follows_of_takesAfter` and the lemmas beside them: what a check of the
  slots of a kind tells of its nodes;
* `parse_delimited`: the statement for the nodes of a parse;
* `branch_as_condition`: a condition after `then`.
-/

namespace Modelica

namespace Located

/-- The child at an index fills the slot called `name`. -/
def FilledAt (n : Located) (name : String) (i : Nat) : Prop := n.slotNames[i]? = some (some name)

/-- The child at an index is one that a matcher accepts. -/
def HasAt (n : Located) (m : Matcher) (i : Nat) : Prop :=
  ∃ c, n.children[i]? = some c ∧ m.accepts c.kind = true

/-- The slot is filled before the token exactly where something before it could fill the slot, and
there is nothing else in it then. -/
def Opens (n : Located) (name : String) (m : Matcher) (token : Kind) : Prop :=
  ∀ j, n.HasAt (.kind token) j →
    ((∃ l < j, n.HasAt m l) → ∃ i < j, n.FilledAt name i) ∧
    ∀ i, n.FilledAt name i → (i < j ↔ ∃ l < j, n.HasAt m l)

/-- What is in the slot comes after the token exactly where something after it could fill the
slot. -/
def Closes (n : Located) (name : String) (m : Matcher) (token : Kind) : Prop :=
  ∀ i j, n.FilledAt name i → n.HasAt (.kind token) j → (j < i ↔ ∃ l > j, n.HasAt m l)

/-- The slot is filled after the token. -/
def Follows (n : Located) (name : String) (token : Kind) : Prop :=
  ∀ i j, n.FilledAt name i → n.HasAt (.kind token) j → j < i

/-- Where the slot is filled, the token is there before. -/
def Needs (n : Located) (name : String) (token : Kind) : Prop :=
  ∀ i, n.FilledAt name i → ∃ j < i, n.HasAt (.kind token) j

end Located

namespace Kind

/-- No child moves from the slot to another or the other way. Of the slots of a range this is said
of the first one only. -/
def keeps (k : Kind) (slot : Nat) : Bool := k != .rangeExpression || slot == 0

/-- A child that the slot accepts is in it, or comes after every such token. -/
def takesBefore (k : Kind) (name : String) (m : Matcher) (token : Kind) : Bool :=
  token.isCounted && (k.slot? name).any fun (slot, i) => k.keeps i && slot.matcher == m &&
    Slot.watches (Schema.standard.slots k)
      (once (fun e => m.accepts e.1 && e.2 != some i) (·.1 != token)) false k.parts

/-- The slot takes no child but the first that it accepts. -/
def takesFirst (k : Kind) (name : String) (m : Matcher) : Bool :=
  (k.slot? name).any fun (slot, i) => k.keeps i && slot.matcher == m &&
    Slot.watches (Schema.standard.slots k) (once (m.accepts ·.1) (·.2 != some i)) false k.parts

/-- The token is not for the slot and does not come after what is in it. -/
def takesAfter (k : Kind) (name : String) (token : Kind) : Bool :=
  token.isCounted && (k.slot? name).any fun (slot, i) =>
    k.keeps i && !slot.matcher.accepts token &&
    Slot.watches (Schema.standard.slots k) (once (·.2 == some i) (·.1 != token)) false k.parts

/-- What is in the slot comes after the token. -/
def takesOnlyAfter (k : Kind) (name : String) (token : Kind) : Bool :=
  token.isCounted && (k.slot? name).any fun (_, i) => k.keeps i &&
    Slot.watches (Schema.standard.slots k) (needing (·.1 == token) (·.2 == some i)) false k.parts

theorem ne_of_isCounted {token k : Kind} (ht : token.isCounted = true)
    (hk : k.isCounted = false) : k ≠ token := fun he => by
  rw [he, ht] at hk
  cases hk

end Kind

namespace Slot

/-- In a range a child goes where it is fated to, but for the second of two parts. -/
theorem mem_assign_rangeSlots {ks : List Kind} {p : Placement} (hp : p ∈ assign rangeSlots ks) :
    p ∈ placements rangeSlots 0 0 ks ∨
      p.slot = 2 ∧ { p with slot := 1 } ∈ placements rangeSlots 0 0 ks ∧
        ∀ q ∈ placements rangeSlots 0 0 ks, q.slot ≠ 2 := by
  rw [assign_rangeSlots, takeOver] at hp
  split at hp
  · rename_i hempty
    cases hd : donor? rangeSlots (placements rangeSlots 0 0 ks) 2
        (.alternative .simpleExpression) with
    | none =>
      simp only [Schema.required, hd] at hp
      exact .inl hp
    | some d =>
      simp only [Schema.required, hd] at hp
      obtain ⟨q, hq, rfl⟩ := List.mem_map.mp hp
      split
      · rename_i hc
        have hdm : d ∈ placements rangeSlots 0 0 ks :=
          List.mem_reverse.mp (List.mem_of_find?_eq_some hd)
        obtain rfl : q = d := child_injective (pairwise_placements 0 0 ks) hq hdm hc
        -- Before the last slot only the middle one is optional.
        have hslot : q.slot = 1 := by
          have hq := List.find?_some hd
          simp only [Bool.and_eq_true, decide_eq_true_eq] at hq
          obtain ⟨⟨hlt, hopt⟩, -⟩ := hq
          obtain hs | hs : q.slot = 0 ∨ q.slot = 1 := by omega
          · simp [hs, isOptional, rangeSlots, Schema.required] at hopt
          · exact hs
        refine .inr ⟨rfl, ?_, ?_⟩
        · rw [← hslot]
          exact hq
        · simpa [isFilled] using hempty.2
      · exact .inl hq
  · exact .inl hp

end Slot

namespace Located

variable {n : Located} {name : String} {token : Kind} {m : Matcher} {i j : Nat}

/-! ## Where a slot is filled -/

theorem fates_getElem? {c : Located} {s : Option Nat} : n.fates[i]? = some (c, s) ↔
    n.children[i]? = some c ∧
      (Slot.fates (Schema.standard.slots n.kind) 0 (n.children.map kind))[i]? =
        some (c.kind, s) := by
  rw [fates, List.getElem?_zip_eq_some, List.getElem?_map]
  refine and_congr_right fun hc => ⟨fun hs => ?_, fun he => by rw [he]; rfl⟩
  obtain ⟨e, he, rfl⟩ := Option.map_eq_some_iff.mp hs
  have hkind : ((Slot.fates (Schema.standard.slots n.kind) 0 (n.children.map kind)).map
      (·.1))[i]? = (n.children.map kind)[i]? := by
    rw [Slot.map_fst_fates]
  simp only [List.getElem?_map, he, hc, Option.map_some, Option.some.injEq] at hkind
  rw [he, ← hkind]

/-- A child goes to a slot first where it is fated to go. -/
theorem exists_placement : (∃ p ∈ Slot.placements (Schema.standard.slots n.kind) 0 0
      (n.children.map kind), p.child = i ∧ p.slot = j) ↔
    ∃ c, n.fates[i]? = some (c, some j) := by
  constructor
  · rintro ⟨p, hp, rfl, rfl⟩
    have hk := (Slot.sound_placements [] p hp).kind
    rw [List.nil_append, List.getElem?_map] at hk
    obtain ⟨c, hc, hk⟩ := Option.map_eq_some_iff.mp hk
    obtain ⟨l, hl, hf⟩ := Slot.mem_placements.mp hp
    rw [Nat.zero_add] at hl
    exact ⟨c, fates_getElem?.mpr ⟨hc, by rw [hl, hf, hk]⟩⟩
  · rintro ⟨c, hc⟩
    exact ⟨⟨j, i, c.kind⟩, Slot.mem_placements.mpr
      ⟨i, (Nat.zero_add i).symm, (fates_getElem?.mp hc).2⟩, rfl, rfl⟩

/-- What fills a slot was fated to, unless a range has it moved. -/
theorem slotAt?_cases (h : n.Remains) (hs : n.slotAt? i = some j) :
    (∃ c, n.fates[i]? = some (c, some j)) ∨
      n.kind = .rangeExpression ∧ j = 2 ∧ (∃ c, n.fates[i]? = some (c, some 1)) ∧
        ∀ e ∈ n.fates, e.2 ≠ some 2 := by
  obtain ⟨p, hp, rfl, rfl⟩ := slotAt?_eq_some.mp hs
  by_cases hr : n.kind = .rangeExpression
  · have hslots : Schema.standard.slots n.kind = Slot.rangeSlots := hr ▸ Slot.slots_rangeExpression
    rw [hslots] at hp
    obtain hp | ⟨h2, h1, hno⟩ := Slot.mem_assign_rangeSlots hp
    · exact .inl (exists_placement.mp ⟨p, hslots ▸ hp, rfl, rfl⟩)
    · refine .inr ⟨hr, h2, exists_placement.mp
        ⟨{ p with slot := 1 }, hslots ▸ h1, rfl, rfl⟩, fun e he h2 => ?_⟩
      obtain ⟨l, hl⟩ := List.mem_iff_getElem?.mp he
      obtain ⟨q, hq, -, hq2⟩ := exists_placement.mpr ⟨e.1, hl.trans (by rw [← h2])⟩
      exact hno q (hslots ▸ hq) hq2
  · rw [Slot.assign_eq_of_settled (Slot.settled_standard _ h.kind hr)] at hp
    exact .inl (exists_placement.mp ⟨p, hp, rfl, rfl⟩)

theorem slotAt?_of_filledAt {slot : Slot} (hs : n.kind.slot? name = some (slot, j))
    (hi : n.FilledAt name i) : n.slotAt? i = some j := by
  have hslot := Kind.getElem?_of_slot? hs
  have hname := Kind.name_of_slot? hs
  rw [FilledAt, slotNames_eq, List.getElem?_map, Option.map_eq_some_iff] at hi
  obtain ⟨l, hl, hi⟩ := hi
  obtain ⟨hlt, rfl⟩ := List.getElem?_eq_some_iff.mp hl
  rw [List.getElem_range] at hi
  obtain ⟨l, hl, hi⟩ := Option.bind_eq_some_iff.mp hi
  subst hname
  obtain rfl : l = j := (slotName?_eq_some hslot).mp hi
  exact hl

/-! ## What follows from the checks -/

/-- What fills a slot is accepted by it. -/
theorem hasAt_of_filledAt {slot : Slot} (hs : n.kind.slot? name = some (slot, j))
    (hi : n.FilledAt name i) : n.HasAt slot.matcher i := by
  have hslot := Kind.getElem?_of_slot? hs
  obtain ⟨p, hp, rfl, rfl⟩ := slotAt?_eq_some.mp (slotAt?_of_filledAt hs hi)
  obtain ⟨c, hc, hk⟩ := exists_child hp
  obtain ⟨slot', hs', ha⟩ := (Slot.sound_assign _ _ p hp).accepts
  obtain rfl : slot = slot' := Option.some.inj (hslot.symm.trans hs')
  exact ⟨c, hc, hk ▸ ha⟩

theorem exists_fate {c : Located} (hc : n.children[i]? = some c) :
    ∃ s, n.fates[i]? = some (c, s) := by
  rw [← map_fst_fates n, List.getElem?_map] at hc
  obtain ⟨e, he, rfl⟩ := Option.map_eq_some_iff.mp hc
  exact ⟨e.2, he⟩

theorem fate_of_filledAt {slot : Slot} (h : n.Remains) (hs : n.kind.slot? name = some (slot, j))
    (hk : n.kind.keeps j = true) (hi : n.FilledAt name i) :
    ∃ c, n.fates[i]? = some (c, some j) := by
  refine (slotAt?_cases h (slotAt?_of_filledAt hs hi)).resolve_right fun ⟨hr, h2, _⟩ => ?_
  simp [Kind.keeps, hr, h2] at hk

theorem filledAt_of_fate {slot : Slot} {c : Located} (h : n.Remains)
    (hs : n.kind.slot? name = some (slot, j)) (hk : n.kind.keeps j = true)
    (hc : n.fates[i]? = some (c, some j)) : n.FilledAt name i := by
  obtain ⟨p, hp, rfl, rfl⟩ := exists_placement.mpr ⟨c, hc⟩
  have hassign : p ∈ Slot.assign (Schema.standard.slots n.kind) (n.children.map kind) := by
    by_cases hr : n.kind = .rangeExpression
    · have hzero : p.slot = 0 := by simpa [Kind.keeps, hr] using hk
      rw [hr, Slot.slots_rangeExpression] at hp ⊢
      rw [Slot.assign_rangeSlots]
      exact Slot.mem_takeOver (Slot.pairwise_placements 0 0 _) hp (by rw [hzero]; rfl) _
    · rwa [Slot.assign_eq_of_settled (Slot.settled_standard _ h.kind hr)]
  have hlt : p.child < n.children.length :=
    (List.getElem?_eq_some_iff.mp (fates_getElem?.mp hc).1).1
  have hslot := Kind.getElem?_of_slot? hs
  rw [FilledAt, slotNames_eq, List.getElem?_map, List.getElem?_range hlt, Option.map_some,
    slotAt?_eq_some.mpr ⟨p, hassign, rfl, rfl⟩, ← Kind.name_of_slot? hs]
  exact congrArg some ((slotName?_eq_some hslot).mpr rfl)

/-- Where the slot takes the first child it accepts, it is enough that it is filled in time. -/
theorem opens_of_takesFirst (h : n.Remains) (hc : n.kind.takesFirst name m = true)
    (hfilled : ∀ l j, n.HasAt m l → n.HasAt (.kind token) j → l < j →
      ∃ i ≤ l, n.FilledAt name i) : n.Opens name m token := by
  obtain ⟨⟨slot, s⟩, hs, hc⟩ := (Option.any_eq_true ..).mp hc
  simp only [Bool.and_eq_true, beq_iff_eq] at hc
  obtain ⟨⟨hk, rfl⟩, hw⟩ := hc
  obtain ⟨last, hw⟩ := watched h (fun b k hk => by simp [once, not_accepts_of_slot? h hs hk]) hw
  intro j hj
  constructor
  · rintro ⟨l, hlj, hl⟩
    obtain ⟨i, hil, hi⟩ := hfilled l j hl hj hlj
    exact ⟨i, Nat.lt_of_le_of_lt hil hlj, hi⟩
  · intro i hi
    obtain ⟨d, hd⟩ := fate_of_filledAt h hs hk hi
    refine ⟨fun hij => ⟨i, hij, hasAt_of_filledAt hs hi⟩, ?_⟩
    rintro ⟨l, hlj, c, hc, ha⟩
    obtain ⟨t, hl⟩ := exists_fate hc
    have hil : i ≤ l := hw.le_of_once hl hd ha (by simp)
    omega

theorem filled_of_takesBefore (h : n.Remains) (hc : n.kind.takesBefore name m token = true) :
    ∀ l j, n.HasAt m l → n.HasAt (.kind token) j → l < j → ∃ i ≤ l, n.FilledAt name i := by
  obtain ⟨ht, hc⟩ := Bool.and_eq_true_iff.mp hc
  obtain ⟨⟨slot, s⟩, hs, hc⟩ := (Option.any_eq_true ..).mp hc
  simp only [Bool.and_eq_true, beq_iff_eq] at hc
  obtain ⟨⟨hk, rfl⟩, hw⟩ := hc
  obtain ⟨last, hw⟩ := watched h (fun b k hk => by
    simp [once, Kind.ne_of_isCounted ht hk, not_accepts_of_slot? h hs hk]) hw
  rintro l j ⟨c, hc, ha⟩ ⟨d, hd, hdt⟩ hlj
  obtain ⟨t, hl⟩ := exists_fate hc
  obtain ⟨u, hj⟩ := exists_fate hd
  refine ⟨l, Nat.le_refl l, filledAt_of_fate (c := c) h hs hk ?_⟩
  -- Otherwise the token would not come after the child.
  by_contra hne
  have hjl : j ≤ l := by
    refine hw.le_of_once hl hj ?_ (by simpa [Matcher.accepts] using hdt)
    simp only [ha, Bool.true_and, bne_iff_ne]
    rintro rfl
    exact hne hl
  omega

theorem follows_of_takesAfter (h : n.Remains) (hc : n.kind.takesAfter name token = true) :
    n.Follows name token := by
  obtain ⟨ht, hc⟩ := Bool.and_eq_true_iff.mp hc
  obtain ⟨⟨slot, s⟩, hs, hc⟩ := (Option.any_eq_true ..).mp hc
  simp only [Bool.and_eq_true, Bool.not_eq_true'] at hc
  obtain ⟨⟨hk, htoken⟩, hw⟩ := hc
  obtain ⟨last, hw⟩ := watched h (fun b k hk => by simp [once, Kind.ne_of_isCounted ht hk]) hw
  rintro i j hi ⟨c, hc, ha⟩
  obtain ⟨d, hd⟩ := fate_of_filledAt h hs hk hi
  obtain ⟨t, hj⟩ := exists_fate hc
  have hji : j ≤ i := hw.le_of_once hd hj (by simp) (by simpa [Matcher.accepts] using ha)
  -- The token itself does not fill the slot.
  refine Nat.lt_of_le_of_ne hji fun he => ?_
  obtain ⟨c', hc', ha'⟩ := hasAt_of_filledAt hs hi
  obtain rfl : c = c' := Option.some.inj (hc.symm.trans (he ▸ hc'))
  rw [beq_iff_eq.mp ha, htoken] at ha'
  cases ha'

theorem needs_of_takesOnlyAfter (h : n.Remains) (hc : n.kind.takesOnlyAfter name token = true) :
    n.Needs name token := by
  obtain ⟨ht, hc⟩ := Bool.and_eq_true_iff.mp hc
  obtain ⟨⟨slot, s⟩, hs, hc⟩ := (Option.any_eq_true ..).mp hc
  obtain ⟨hk, hw⟩ := Bool.and_eq_true_iff.mp hc
  obtain ⟨last, hw⟩ := watched h (fun b k hk => by simp [needing, Kind.ne_of_isCounted ht hk]) hw
  intro i hi
  obtain ⟨d, hd⟩ := fate_of_filledAt h hs hk hi
  obtain hf | ⟨j, e, hji, he, ha⟩ := hw.needing_spec hd (by simp)
  · cases hf
  · exact ⟨j, hji, e.1, (fates_getElem?.mp he).1, ha⟩

/-- The first part of a range is in the first slot, whatever comes before it. -/
theorem filled_range (h : n.Remains) (hr : n.kind = .rangeExpression) {l : Nat}
    (hl : n.HasAt (.alternative .simpleExpression) l) :
    ∃ i ≤ l, n.FilledAt "startExpression" i := by
  have hs : n.kind.slot? "startExpression" =
      some (Schema.required "startExpression" (.alternative .simpleExpression), 0) := by
    rw [hr]
    decide +kernel
  have hcheck : Slot.watches (Schema.standard.slots n.kind)
      (needing (·.2 == some 0) fun e =>
        Matcher.accepts (.alternative .simpleExpression) e.1 && e.2 != some 0)
      false n.kind.parts = true := by
    rw [hr]
    decide +kernel
  have hkeeps : n.kind.keeps 0 = true := by simp [Kind.keeps]
  have hinert : ∀ k : Kind, k.isCounted = false →
      Matcher.accepts (.alternative .simpleExpression) k = false :=
    fun _ => not_accepts_of_slot? h hs
  obtain ⟨last, hw⟩ := watched h (fun b k hk => by simp [needing, hinert k hk]) hcheck
  obtain ⟨c, hc, ha⟩ := hl
  obtain ⟨t, hl⟩ := exists_fate hc
  by_cases ht : t = some 0
  · subst ht
    exact ⟨l, Nat.le_refl l, filledAt_of_fate h hs hkeeps hl⟩
  · obtain hf | ⟨i, ⟨d, u⟩, hil, hd, hu⟩ := hw.needing_spec hl (by simpa [ha] using ht)
    · cases hf
    · obtain rfl : u = some 0 := by simpa using hu
      exact ⟨i, Nat.le_of_lt hil, filledAt_of_fate h hs hkeeps hd⟩

/-- Of the parts of a range the last one is in the last slot, if there is anything in it. -/
theorem closes_range (h : n.Remains) (hr : n.kind = .rangeExpression) :
    n.Closes "stopExpression" (.alternative .simpleExpression) .colon := by
  have hs : n.kind.slot? "stopExpression" =
      some (Schema.required "stopExpression" (.alternative .simpleExpression), 2) := by
    rw [hr]
    decide +kernel
  have hinert : ∀ k : Kind, k.isCounted = false →
      Matcher.accepts (.alternative .simpleExpression) k = false :=
    fun _ => not_accepts_of_slot? h hs
  intro i j hi hj
  have hlast : ∀ l, n.HasAt (.alternative .simpleExpression) l → l ≤ i := by
    rintro l ⟨c, hc, ha⟩
    obtain ⟨t, hl⟩ := exists_fate hc
    obtain ⟨d, hd⟩ | ⟨-, -, ⟨d, hd⟩, hno⟩ := slotAt?_cases h (slotAt?_of_filledAt hs hi)
    · -- Nothing is left for the slots once the last one is filled.
      have hcheck : Slot.watches (Schema.standard.slots n.kind)
          (once (·.2 == some 2) fun e => !Matcher.accepts (.alternative .simpleExpression) e.1)
          false n.kind.parts = true := by
        rw [hr]
        decide +kernel
      obtain ⟨last, hw⟩ := watched h (fun b k hk => by simp [once, hinert k hk]) hcheck
      exact hw.le_of_once hd hl (by simp) (by simp [ha])
    · -- What follows the second part goes to the last slot, which nothing goes to.
      have hcheck : Slot.watches (Schema.standard.slots n.kind)
          (once (·.2 == some 1) fun e =>
            !Matcher.accepts (.alternative .simpleExpression) e.1 || e.2 == some 2)
          false n.kind.parts = true := by
        rw [hr]
        decide +kernel
      obtain ⟨last, hw⟩ := watched h (fun b k hk => by simp [once, hinert k hk]) hcheck
      have ht := hno _ (List.mem_of_getElem? hl)
      exact hw.le_of_once hd hl (by simp) (by simp [ha, ht])
  refine ⟨fun hji => ⟨i, hji, hasAt_of_filledAt hs hi⟩, fun ⟨l, hjl, hl⟩ => ?_⟩
  have := hlast l hl
  omega

end Located

/-- How far the slots of a node keep to the tokens around them. A condition, the start of a range
and the name of a class come before a token, and the stop of a range after one, exactly where
something that could be in their place does. -/
structure Located.Delimited (n : Located) : Prop where
  condition : n.kind = .ifExpression ∨ n.kind = .elseIfExpressionClause →
    n.Opens "condition" (.alternative .expression) .thenKw
  thenExpression : n.kind = .ifExpression ∨ n.kind = .elseIfExpressionClause →
    n.Follows "thenExpression" .thenKw
  elseExpression : n.kind = .ifExpression →
    n.Follows "elseExpression" .elseKw ∧ n.Needs "elseExpression" .elseKw
  startExpression : n.kind = .rangeExpression →
    n.Opens "startExpression" (.alternative .simpleExpression) .colon
  stopExpression : n.kind = .rangeExpression →
    n.Closes "stopExpression" (.alternative .simpleExpression) .colon
  identifier : n.kind = .longClassSpecifier → n.Opens "identifier" (.kind .ident) .endKw
  endIdentifier : n.kind = .longClassSpecifier →
    n.Follows "endIdentifier" .endKw ∧ n.Needs "endIdentifier" .endKw

theorem Located.delimited {n : Located} (h : n.kind = .error ∨ n.Remains) : n.Delimited := by
  obtain he | h := h
  · constructor <;> intro hk <;> simp [he] at hk
  · exact {
      condition := by
        rintro (hk | hk) <;> exact opens_of_takesFirst h (by rw [hk]; decide +kernel)
          (filled_of_takesBefore h (by rw [hk]; decide +kernel))
      thenExpression := by
        rintro (hk | hk) <;> exact follows_of_takesAfter h (by rw [hk]; decide +kernel)
      elseExpression := fun hk => ⟨follows_of_takesAfter h (by rw [hk]; decide +kernel),
        needs_of_takesOnlyAfter h (by rw [hk]; decide +kernel)⟩
      startExpression := fun hk => opens_of_takesFirst h (by rw [hk]; decide +kernel)
        fun _ _ hl _ _ => filled_range h hk hl
      stopExpression := closes_range h
      identifier := fun hk => opens_of_takesFirst h (by rw [hk]; decide +kernel)
        (filled_of_takesBefore h (by rw [hk]; decide +kernel))
      endIdentifier := fun hk => ⟨follows_of_takesAfter h (by rw [hk]; decide +kernel),
        needs_of_takesOnlyAfter h (by rw [hk]; decide +kernel)⟩ }

/-- In the tree of any text slots keep to the tokens around them as far as the parts are there. -/
theorem parse_delimited (text : String) :
    ∀ n ∈ (Located.root (parse text).tree).nodes, n.Delimited :=
  fun n hn => Located.delimited (parse_remains text n hn)

/-- A condition that is there. -/
theorem parse_delimited_if : ∃ n ∈ (Located.root (parse
      "model M Real a = if b then x else y; end M;").tree).nodes,
    n.kind = .ifExpression ∧ n.Delimited := by
  have hif : ∃ n ∈ (Located.root (parse
      "model M Real a = if b then x else y; end M;").tree).nodes, n.kind = .ifExpression := by
    decide +kernel
  obtain ⟨n, hn, hk⟩ := hif
  exact ⟨n, hn, hk, parse_delimited _ n hn⟩

/-- A condition that is missing: its slot is filled after `then`. -/
theorem branch_as_condition : ∃ n ∈ (Located.root (parse
      "model M Real a = if then x else y; end M;").tree).nodes,
    n.kind = .ifExpression ∧
      ∃ i j, n.FilledAt "condition" i ∧ n.HasAt (.kind .thenKw) j ∧ j < i := by
  have hif : ∃ n ∈ (Located.root (parse
      "model M Real a = if then x else y; end M;").tree).nodes,
      n.kind = .ifExpression ∧ n.slotNames[5]? = some (some "condition") ∧
        n.children[3]?.any (·.kind == .thenKw) = true := by
    decide +kernel
  obtain ⟨n, hn, hk, hi, hj⟩ := hif
  obtain ⟨c, hc, ha⟩ := (Option.any_eq_true ..).mp hj
  exact ⟨n, hn, hk, 5, 3, hi, ⟨c, hc, ha⟩, by decide⟩

end Modelica
