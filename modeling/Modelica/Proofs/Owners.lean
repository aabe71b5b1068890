import Modelica.Construct

/-!
# The nearest owner of a clause

`findOwner` goes outwards over blocks of its own category, and a block of another category ends its
walk: beyond that one it only asks whether there is an owner at all. What it answers depends on the
blocks within the nearest owner and on nothing further out.
-/

namespace Modelica

/-- The innermost block that is `owner` comes right after `inner`. -/
def OpenConstruct.Nearest (owner : OpenConstruct) (stack inner : List OpenConstruct) : Prop :=
  owner ∉ inner ∧ inner ++ [owner] <+: stack

namespace OpenConstruct

variable {owner entry : OpenConstruct} {stack outer inner : List OpenConstruct}

theorem Nearest.mem (h : owner.Nearest stack inner) : owner ∈ stack :=
  h.2.subset (by simp)

theorem nearest_self : owner.Nearest (owner :: outer) [] :=
  ⟨List.not_mem_nil, by simp⟩

theorem nearest_cons_of_ne (h : entry ≠ owner) :
    owner.Nearest (entry :: outer) inner ↔
      ∃ inner', inner = entry :: inner' ∧ owner.Nearest outer inner' := by
  constructor
  · rintro ⟨hm, hp⟩
    cases inner with
    | nil => exact absurd (List.cons_prefix_cons.mp hp).1.symm h
    | cons first inner' =>
      obtain ⟨rfl, hp'⟩ := List.cons_prefix_cons.mp hp
      exact ⟨inner', rfl, fun hi => hm (List.mem_cons_of_mem _ hi), hp'⟩
  · rintro ⟨inner', rfl, hm, hp⟩
    exact ⟨by simp [hm, h.symm], List.cons_prefix_cons.mpr ⟨rfl, hp⟩⟩

theorem exists_nearest (h : owner ∈ stack) : ∃ inner, owner.Nearest stack inner := by
  obtain ⟨inner, outer, rfl, hm⟩ := List.eq_append_cons_of_mem h
  exact ⟨inner, hm, by simp⟩

theorem Nearest.unique {inner' : List OpenConstruct} (h : owner.Nearest stack inner)
    (h' : owner.Nearest stack inner') : inner = inner' := by
  induction stack generalizing inner inner' with
  | nil => exact absurd h.mem List.not_mem_nil
  | cons entry outer ih =>
    by_cases he : entry = owner
    · subst he
      -- A block before the owner would be the owner.
      have hnil : ∀ {l}, entry.Nearest (entry :: outer) l → l = [] := by
        rintro (_ | ⟨first, l⟩) ⟨hm, hp⟩
        · rfl
        · exact absurd (List.cons_prefix_cons.mp hp).1 (by simp_all [Ne.symm])
      rw [hnil h, hnil h']
    · obtain ⟨l, rfl, hl⟩ := (nearest_cons_of_ne he).mp h
      obtain ⟨l', rfl, hl'⟩ := (nearest_cons_of_ne he).mp h'
      rw [ih hl hl']

end OpenConstruct

open OpenConstruct

section

variable {owner : OpenConstruct} {stack inner : List OpenConstruct}

/-- Without an owner the walk finds none, wherever it stops. -/
theorem findOwner_of_not_mem (h : owner ∉ stack) (passed : Nat) :
    findOwner owner passed stack = .orphan := by
  induction stack generalizing passed with
  | nil => rfl
  | cons entry outer ih =>
    obtain ⟨he, ho⟩ := not_or.mp (mt List.mem_cons.mpr h)
    unfold findOwner
    split
    · simp [ho]
    · rename_i hc
      split
      · rename_i hk
        -- The same construct in the same category would be the owner.
        cases owner
        cases entry
        simp_all
      · exact ih ho (passed + 1)

/-- With blocks of the owner's category in between, the walk reaches the owner and counts them; one
of another category hides it. -/
theorem findOwner_of_nearest (h : owner.Nearest stack inner) (passed : Nat) :
    findOwner owner passed stack =
      if ∀ block ∈ inner, block.category = owner.category then
        if passed + inner.length = 0 then .attach else .unwind (passed + inner.length)
      else .ambiguous := by
  induction stack generalizing inner passed with
  | nil => exact absurd h.mem List.not_mem_nil
  | cons entry outer ih =>
    by_cases he : entry = owner
    · subst he
      obtain rfl := h.unique nearest_self
      simp [findOwner]
    · obtain ⟨inner', rfl, h'⟩ := (nearest_cons_of_ne he).mp h
      by_cases hc : entry.category = owner.category
      · have hk : entry.construct ≠ owner.construct := by
          intro hk
          cases owner
          cases entry
          simp_all
        simp only [findOwner, hc, hk, ne_eq, not_true_eq_false, ↓reduceIte, ih h',
          List.forall_mem_cons, true_and, List.length_cons]
        congr 3 <;> omega
      · simp [findOwner, hc, h'.mem]

end

/-- **A clause goes to the nearest owner.** On every stack of open blocks, for every token and every
category: with no block within the nearest owner the clause attaches; with only blocks of the
category within it, as many are unwound; a block of another category within it makes the clause
ambiguous; and without an owner, as for any token that starts no clause, it is an orphan. -/
theorem resolveClause_nearest (stack : List OpenConstruct) (clause : Kind) (category : Category) :
    (resolveClause stack clause category = .attach ↔
      ∃ owner, clauseOwner? clause = some owner ∧ Nearest ⟨owner, category⟩ stack []) ∧
    (∀ k, resolveClause stack clause category = .unwind k ↔
      ∃ owner inner, clauseOwner? clause = some owner ∧ Nearest ⟨owner, category⟩ stack inner ∧
        inner.length = k ∧ 0 < k ∧ ∀ block ∈ inner, block.category = category) ∧
    (resolveClause stack clause category = .ambiguous ↔
      ∃ owner inner, clauseOwner? clause = some owner ∧ Nearest ⟨owner, category⟩ stack inner ∧
        ∃ block ∈ inner, block.category ≠ category) ∧
    (resolveClause stack clause category = .orphan ↔
      ∀ owner, clauseOwner? clause = some owner → ⟨owner, category⟩ ∉ stack) := by
  cases hc : clauseOwner? clause with
  | none => simp [resolveClause, hc]
  | some owner =>
    by_cases hm : ⟨owner, category⟩ ∈ stack
    · obtain ⟨inner, hn⟩ := exists_nearest hm
      have hu : ∀ l, Nearest ⟨owner, category⟩ stack l ↔ l = inner :=
        fun l => ⟨fun hl => hl.unique hn, fun hl => hl ▸ hn⟩
      have hr := findOwner_of_nearest hn 0
      simp only [Nat.zero_add] at hr
      simp only [resolveClause, hc, hr, Option.some.injEq, exists_and_left, exists_eq_left',
        exists_eq_left, forall_eq', hu, hm, not_true_eq_false, iff_false]
      by_cases hs : ∀ block ∈ inner, block.category = category
      · cases inner with
        | nil => simp [eq_comm]
        | cons first inner' => simp_all
      · have hd : ∃ block ∈ inner, block.category ≠ category := by simpa using hs
        have hne : inner ≠ [] := by
          rintro rfl
          simp at hd
        simp [hs, hd, hne]
    · have hn : ∀ l, ¬ Nearest ⟨owner, category⟩ stack l := fun l hl => hm hl.mem
      simp [resolveClause, hc, findOwner_of_not_mem hm, hn, hm]

end Modelica
