import Modelica.Kind
import Modelica.Schema.Slot

/-!
# Shapes of child lists

A shape says which kinds the children of a node have: a row of parts, each with the kinds it takes
and how many children. `Shape.Matches` is its meaning. Inclusion of shapes is decided by
`Shape.covers`; `Shape.woven` allows trivia anywhere.

* `Shape.le_of_covers`: what the test accepts is an inclusion;
* `Shape.matches_woven`: a child list with trivia put in matches the woven shape.
-/

namespace Modelica

/-- Some children in a row. -/
structure Part where
  kinds : List Kind
  cardinality : Cardinality
  deriving DecidableEq, Inhabited

abbrev Shape := List Part

/-- The kinds of the children that a part takes. -/
inductive Part.Takes : Part → List Kind → Prop
  | one {ks k} : k ∈ ks → Takes ⟨ks, .required⟩ [k]
  | none {ks} : Takes ⟨ks, .optional⟩ []
  | some {ks k} : k ∈ ks → Takes ⟨ks, .optional⟩ [k]
  | many {ks l} : (∀ k ∈ l, k ∈ ks) → Takes ⟨ks, .many⟩ l

namespace Shape

def one (ks : List Kind) : Part := ⟨ks, .required⟩

def opt (ks : List Kind) : Part := ⟨ks, .optional⟩

def many (ks : List Kind) : Part := ⟨ks, .many⟩

/-- The children fall into the parts, in order. -/
inductive Matches : Shape → List Kind → Prop
  | nil : Matches [] []
  | cons {p s a b} : Part.Takes p a → Matches s b → Matches (p :: s) (a ++ b)

/-- Every child list of the first shape is one of the second. -/
def Le (s d : Shape) : Prop := ∀ ks, Matches s ks → Matches d ks

theorem Le.refl (s : Shape) : Le s s := fun _ h => h

theorem Le.trans {s d e : Shape} (h : Le s d) (h' : Le d e) : Le s e := fun ks hk => h' ks (h ks hk)

theorem matches_append {s d : Shape} {a b : List Kind} (h : Matches s a) (h' : Matches d b) :
    Matches (s ++ d) (a ++ b) := by
  induction h with
  | nil => exact h'
  | cons hp _ ih =>
    rw [List.append_assoc]
    exact .cons hp ih

/-- A child list of two shapes falls into one of each. -/
theorem exists_of_matches_append {s d : Shape} {ks : List Kind} (h : Matches (s ++ d) ks) :
    ∃ a b, ks = a ++ b ∧ Matches s a ∧ Matches d b := by
  induction s generalizing ks with
  | nil => exact ⟨[], ks, rfl, .nil, h⟩
  | cons p s ih =>
    cases h with
    | cons hp hr =>
      obtain ⟨a, b, rfl, ha, hb⟩ := ih hr
      exact ⟨_, b, (List.append_assoc ..).symm, .cons hp ha, hb⟩

theorem Le.append {s s' d d' : Shape} (h : Le s s') (h' : Le d d') : Le (s ++ d) (s' ++ d') := by
  intro ks hk
  obtain ⟨a, b, rfl, ha, hb⟩ := exists_of_matches_append hk
  exact matches_append (h a ha) (h' b hb)

theorem Le.append_left (c : Shape) {s d : Shape} (h : Le s d) : Le (c ++ s) (c ++ d) :=
  (Le.refl c).append h

theorem matches_nil {ks : List Kind} (h : Matches [] ks) : ks = [] := by
  cases h; rfl

/-- A part that takes no child may stand in front. -/
theorem matches_cons_nil {p : Part} {s : Shape} {ks : List Kind} (h : p.Takes [])
    (h' : Matches s ks) : Matches (p :: s) ks :=
  .cons h h'

theorem matches_one {k : Kind} {ks : List Kind} (h : k ∈ ks) : Matches [one ks] [k] :=
  .cons (.one h) .nil

theorem exists_of_matches_one {ks l : List Kind} (h : Matches [one ks] l) :
    ∃ k ∈ ks, l = [k] := by
  cases h with
  | cons hp hrest =>
    cases hp with
    | one hk => exact ⟨_, hk, by rw [matches_nil hrest]; rfl⟩

theorem matches_many {ks l : List Kind} (h : ∀ k ∈ l, k ∈ ks) : Matches [many ks] l := by
  rw [← List.append_nil l]
  exact .cons (.many h) .nil

/-! ## Inclusion -/

theorem mem_of_takes {p : Part} {a : List Kind} (h : p.Takes a) : ∀ k ∈ a, k ∈ p.kinds := by
  cases h with
  | one hk | some hk => exact List.forall_mem_singleton.mpr hk
  | none => exact fun _ hm => nomatch hm
  | many hk => exact hk

/-- A part that may take no child takes none. -/
theorem takes_nil {p : Part} (h : p.cardinality ≠ .required) : p.Takes [] := by
  obtain ⟨ks, c⟩ := p
  cases c with
  | optional => exact .none
  | required => exact absurd rfl h
  | many => exact .many fun _ hk => nomatch hk

/-- What one part takes a wider one takes, if it may take as few and as many. -/
theorem takes_mono {p q : Part} {a : List Kind} (hk : p.kinds ⊆ q.kinds)
    (hc : p.cardinality = .required ∧ q.cardinality ≠ .many ∨
      p.cardinality ≠ .many ∧ q.cardinality = .optional) (h : p.Takes a) : q.Takes a := by
  obtain ⟨ks, c⟩ := q
  cases h with
  | one hm =>
    cases c with
    | required => exact .one (hk hm)
    | optional => exact .some (hk hm)
    | many => simp at hc
  | none =>
    cases c with
    | optional => exact .none
    | required | many => simp at hc
  | some hm =>
    cases c with
    | optional => exact .some (hk hm)
    | required | many => simp at hc
  | many => simp at hc

/-- A test for inclusion. Parts are compared from the front; a part for many takes all parts that
fit, and an optional part is passed over where the next one does not fit. -/
def covers (s : Shape) : Shape → Bool
  | [] => s.isEmpty
  | ⟨ks, .many⟩ :: d => covers (s.dropWhile (·.kinds ⊆ ks)) d
  | ⟨ks, .optional⟩ :: d =>
    match s with
    | [] => covers [] d
    | p :: s' =>
      if p.kinds ⊆ ks ∧ p.cardinality ≠ .many then covers s' d else covers (p :: s') d
  | ⟨ks, .required⟩ :: d =>
    match s with
    | [] => false
    | p :: s' => decide (p.kinds ⊆ ks ∧ p.cardinality = .required) && covers s' d

/-- The parts that fit into a part for many give it all their children. -/
theorem exists_of_matches_dropWhile {ks : List Kind} {s : Shape} {l : List Kind}
    (h : Matches s l) :
    ∃ a b, l = a ++ b ∧ (∀ k ∈ a, k ∈ ks) ∧ Matches (s.dropWhile (·.kinds ⊆ ks)) b := by
  induction h with
  | nil => exact ⟨[], [], rfl, by simp, .nil⟩
  | @cons p s a b hp hs ih =>
    by_cases hk : p.kinds ⊆ ks
    · obtain ⟨x, y, rfl, hx, hy⟩ := ih
      refine ⟨a ++ x, y, (List.append_assoc ..).symm, fun k hm => ?_, ?_⟩
      · exact (List.mem_append.mp hm).elim (fun ha => hk (mem_of_takes hp k ha)) (hx k)
      · rw [List.dropWhile_cons_of_pos (by simpa using hk)]
        exact hy
    · refine ⟨[], a ++ b, rfl, by simp, ?_⟩
      rw [List.dropWhile_cons_of_neg (by simpa using hk)]
      exact .cons hp hs

theorem le_of_covers {s d : Shape} (h : covers s d = true) : Le s d := by
  intro l hl
  induction d generalizing s l with
  | nil =>
    cases s with
    | nil => exact hl
    | cons => cases h
  | cons q d ih =>
    obtain ⟨ks, c⟩ := q
    cases c with
    | many =>
      obtain ⟨a, b, rfl, ha, hb⟩ : ∃ a b, l = a ++ b ∧ (∀ k ∈ a, k ∈ ks) ∧
          Matches (s.dropWhile (·.kinds ⊆ ks)) b := exists_of_matches_dropWhile hl
      exact .cons (.many ha) (ih h b hb)
    | optional =>
      cases hl with
      | nil => exact matches_cons_nil .none (ih h [] .nil)
      | @cons p s a b hp hs =>
        by_cases hc : p.kinds ⊆ ks ∧ p.cardinality ≠ .many
        · rw [covers, if_pos hc] at h
          exact .cons (takes_mono hc.1 (.inr ⟨hc.2, rfl⟩) hp) (ih h b hs)
        · rw [covers, if_neg hc] at h
          exact matches_cons_nil .none (ih h _ (.cons hp hs))
    | required =>
      cases hl with
      | nil => cases h
      | cons hp hs =>
        simp only [covers, Bool.and_eq_true, decide_eq_true_eq] at h
        exact .cons (takes_mono h.1.1 (.inl ⟨h.1.2, by simp⟩) hp) (ih h.2 _ hs)

theorem le_nil_opt {ks : List Kind} : Le [] [opt ks] := le_of_covers rfl

theorem le_one_opt {ks : List Kind} : Le [one ks] [opt ks] :=
  le_of_covers (by simp [covers, one, opt])

theorem Le.append_nil (c : Shape) {s : Shape} (h : Le [] s) : Le c (c ++ s) := by
  simpa only [List.append_nil] using Le.append_left c h

/-- The same parts, but none of them has to be there. -/
def maybe (s : Shape) : Shape :=
  s.map fun p => if p.cardinality = .required then { p with cardinality := .optional } else p

theorem le_maybe (s : Shape) : Le s s.maybe := by
  induction s with
  | nil => exact Le.refl _
  | cons p s ih =>
    obtain ⟨ks, c⟩ := p
    cases c with
    | required => exact Le.append le_one_opt ih
    | optional | many => exact Le.append_left [_] ih

theorem le_nil_maybe (s : Shape) : Le [] s.maybe := by
  induction s with
  | nil => exact Le.refl _
  | cons p s ih =>
    obtain ⟨ks, c⟩ := p
    intro l hl
    rw [matches_nil hl]
    refine matches_cons_nil ?_ (ih [] .nil)
    cases c with
    | required | optional => exact .none
    | many => exact .many fun _ hk => nomatch hk

/-- The kinds that a shape mentions. -/
def kinds (s : Shape) : List Kind := s.flatMap Part.kinds

theorem mem_kinds {s : Shape} {l : List Kind} (h : Matches s l) : ∀ k ∈ l, k ∈ s.kinds := by
  induction h with
  | nil => exact fun _ hm => nomatch hm
  | cons hp _ ih =>
    intro k hm
    simp only [kinds, List.flatMap_cons, List.mem_append] at hm ⊢
    exact hm.imp (mem_of_takes hp k) (ih k)

/-- A part for many takes whole groups too. -/
theorem le_many_kinds (s : Shape) : Le ([many s.kinds] ++ s) [many s.kinds] := by
  intro l hl
  obtain ⟨a, b, rfl, ha, hb⟩ := exists_of_matches_append hl
  refine matches_many fun k hm => ?_
  obtain hk | hk := List.mem_append.mp hm
  · simpa [kinds, many] using mem_kinds ha k hk
  · exact mem_kinds hb k hk

/-! ## Trivia among the children -/

/-- The same shape with trivia anywhere. -/
def woven : Shape → Shape
  | [] => [many Kind.blanks]
  | ⟨ks, .many⟩ :: s => many (Kind.blanks ++ ks) :: woven s
  | p :: s => many Kind.blanks :: p :: woven s

end Shape

/-- The second list is the first one with trivia put in. -/
inductive Weaves : List Kind → List Kind → Prop
  | nil : Weaves [] []
  | trivia {k ks us} : k ∈ Kind.blanks → Weaves ks us → Weaves ks (k :: us)
  | keep {k ks us} : Weaves ks us → Weaves (k :: ks) (k :: us)

namespace Weaves

theorem append {ks ls us vs : List Kind} (h : Weaves ks us) (h' : Weaves ls vs) :
    Weaves (ks ++ ls) (us ++ vs) := by
  induction h with
  | nil => exact h'
  | trivia hk _ ih => exact .trivia hk ih
  | keep _ ih => exact .keep ih

/-- What is woven is trivia or was there before. -/
theorem mem {ks us : List Kind} (h : Weaves ks us) : ∀ k ∈ us, k ∈ Kind.blanks ++ ks := by
  induction h with
  | nil => simp
  | trivia ht _ ih => exact List.forall_mem_cons.mpr ⟨List.mem_append_left _ ht, ih⟩
  | keep _ ih =>
    refine List.forall_mem_cons.mpr ⟨by simp, fun k hk => ?_⟩
    have hm := ih k hk
    simp only [List.mem_append, List.mem_cons] at hm ⊢
    exact hm.imp_right .inr

theorem of_blanks {us : List Kind} (h : ∀ k ∈ us, k ∈ Kind.blanks) : Weaves [] us := by
  induction us with
  | nil => exact .nil
  | cons k us ih => exact .trivia (h k (by simp)) (ih fun l hl => h l (by simp [hl]))

/-- Before what is kept first there is trivia only. -/
theorem exists_of_cons {k : Kind} {ks us : List Kind} (h : Weaves (k :: ks) us) :
    ∃ ts vs, us = ts ++ k :: vs ∧ (∀ t ∈ ts, t ∈ Kind.blanks) ∧ Weaves ks vs := by
  generalize hl : k :: ks = ls at h
  induction h with
  | nil => cases hl
  | @trivia t ls us ht _ ih =>
    obtain ⟨ts, vs, rfl, hts, hv⟩ := ih hl
    exact ⟨t :: ts, vs, rfl, List.forall_mem_cons.mpr ⟨ht, hts⟩, hv⟩
  | keep hw => cases hl; exact ⟨[], _, rfl, by simp, hw⟩

theorem exists_of_append {ks ls us : List Kind} (h : Weaves (ks ++ ls) us) :
    ∃ vs ws, us = vs ++ ws ∧ Weaves ks vs ∧ Weaves ls ws := by
  induction ks generalizing us with
  | nil => exact ⟨[], us, rfl, .nil, h⟩
  | cons k ks ih =>
    obtain ⟨ts, vs, rfl, hts, hv⟩ := exists_of_cons h
    obtain ⟨x, y, rfl, hx, hy⟩ := ih hv
    refine ⟨ts ++ k :: x, y, by simp, ?_, hy⟩
    exact (of_blanks hts).append (.keep hx)

end Weaves

namespace Shape

theorem matches_woven {s : Shape} {ks us : List Kind} (h : Matches s ks) (hw : Weaves ks us) :
    Matches s.woven us := by
  induction h generalizing us with
  | nil => exact matches_many fun k hk => by simpa using hw.mem k hk
  | cons hp _ ih =>
    cases hp with
    | one hk =>
      obtain ⟨ts, vs, rfl, hts, hv⟩ := hw.exists_of_cons
      exact .cons (.many hts) (.cons (.one hk) (ih hv))
    | none => exact matches_cons_nil (takes_nil (by simp [many])) (matches_cons_nil .none (ih hw))
    | some hk =>
      obtain ⟨ts, vs, rfl, hts, hv⟩ := hw.exists_of_cons
      exact .cons (.many hts) (.cons (.some hk) (ih hv))
    | many hk =>
      obtain ⟨vs, ws, rfl, hv, hb⟩ := hw.exists_of_append
      refine .cons (.many fun k hm => ?_) (ih hb)
      have hb' := hv.mem k hm
      simp only [List.mem_append] at hb' ⊢
      exact hb'.imp_right (hk k)

end Shape

end Modelica
