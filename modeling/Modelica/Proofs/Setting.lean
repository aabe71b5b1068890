import Modelica.Lookahead

/-!
# Reading within a larger text

A text may be read on its own or as a part of a larger one. A `Setting` is what stands around it
there: how many tokens come before and which ones come after. What the grammar sees of the text is
nearly the same in both. As long as a token of the text is left, the next kind is the same, and what
lies further ahead differs only past the last token: there the text on its own has its end, and the
setting has its tokens.

No look ahead goes past a `;` on its way to a choice, nor past the end. So it is enough that the
text ends with a `;`, or that the tokens after it start with one (`Setting.Bounds`); a choice is
then the same on both sides (`Setting.Place.outer_*`).
-/

namespace Modelica

/-- What stands around a text that is part of a larger one. -/
structure Setting where
  /-- How many tokens come before. -/
  before : Nat
  /-- The tokens that come after. -/
  after : List Token

namespace Token

/-- The last token is a `;`. -/
def EndsItem (ts : List Token) : Prop := ∃ t, ts.getLast? = some t ∧ t.kind = .semicolon

theorem EndsItem.ne_nil {ts : List Token} (h : EndsItem ts) : ts ≠ [] := by
  rintro rfl
  obtain ⟨t, ht, -⟩ := h
  cases ht

theorem EndsItem.of_suffix {ts us : List Token} (h : EndsItem ts) (hs : us <:+ ts) (hu : us ≠ []) :
    EndsItem us := by
  obtain ⟨t, ht, hk⟩ := h
  refine ⟨t, ?_, hk⟩
  obtain ⟨vs, rfl⟩ := hs
  rw [List.getLast?_append] at ht
  cases hl : us.getLast? with
  | none => exact absurd (List.getLast?_eq_none_iff.mp hl) hu
  | some u =>
    rw [hl] at ht
    exact ht

/-- The last kind of tokens that end with a `;`. -/
theorem EndsItem.kindAt {ts : List Token} (h : EndsItem ts) :
    kindAt ts (ts.length - 1) = .semicolon := by
  obtain ⟨t, ht, hk⟩ := h
  obtain ⟨us, rfl⟩ := List.getLast?_eq_some_iff.mp ht
  simp [Token.kindAt, headKind, hk]

theorem kindAt_append_left {ts us : List Token} {n : Nat} (h : n < ts.length) :
    kindAt (ts ++ us) n = kindAt ts n := by
  rw [kindAt, kindAt, List.drop_append_of_le_length (Nat.le_of_lt h)]
  cases hd : ts.drop n with
  | nil => exact absurd (List.drop_eq_nil_iff.mp hd) (by omega)
  | cons t rest => rfl

theorem kindAt_length {ts us : List Token} : kindAt (ts ++ us) ts.length = headKind us := by
  simp [kindAt]

theorem kindAt_of_length_le {ts : List Token} {n : Nat} (h : ts.length ≤ n) :
    kindAt ts n = .endOfInput := by
  rw [kindAt, List.drop_eq_nil_of_le h, headKind]

end Token

namespace Setting

open Token

variable {s : Setting} {ts : List Token}

/-- No choice looks past the end of the text: the text ends with a `;` or is followed by one. -/
def Bounds (s : Setting) (ts : List Token) : Prop := EndsItem ts ∨ headKind s.after = .semicolon

theorem Bounds.of_suffix (h : s.Bounds ts) {us : List Token} (hs : us <:+ ts) (hu : us ≠ []) :
    s.Bounds us :=
  h.imp_left fun he => he.of_suffix hs hu

/-- What follows a token that is no `;`, be it nothing. -/
theorem Bounds.tail {t : Token} (h : s.Bounds (t :: ts)) (ht : t.kind ≠ .semicolon) :
    s.Bounds ts := by
  rcases h with ⟨u, hu, hk⟩ | h
  · cases ts with
    | nil => cases hu; exact absurd hk ht
    | cons t' ts => exact .inl ⟨u, by simpa using hu, hk⟩
  · exact .inr h

/-- A kind that is reached without passing a `;` or the end is the same for whoever does not tell
a `;` from the end. -/
theorem Bounds.kindAt_congr (h : s.Bounds ts) {n : Nat} {α : Sort _} {f : Kind → α}
    (hf : f .semicolon = f .endOfInput)
    (hn : ∀ i < n, kindAt ts i ≠ .semicolon ∧ kindAt ts i ≠ .endOfInput) :
    f (kindAt (ts ++ s.after) n) = f (kindAt ts n) := by
  rcases Nat.lt_trichotomy n ts.length with hl | rfl | hl
  · rw [kindAt_append_left hl]
  · rw [kindAt_length, kindAt_of_length_le (Nat.le_refl _)]
    rcases h with h | h
    · have hpos := List.length_pos_iff.mpr h.ne_nil
      exact absurd h.kindAt (hn _ (by omega)).1
    · rw [h, hf]
  · exact absurd (kindAt_of_length_le (Nat.le_refl _)) (hn _ hl).2

/-- The next kind, or what the end looks like. -/
theorem Bounds.headKind_congr (h : s.Bounds ts) {α : Sort _} {f : Kind → α}
    (hf : f .semicolon = f .endOfInput) : f (headKind (ts ++ s.after)) = f (headKind ts) :=
  h.kindAt_congr (n := 0) hf fun _ hi => absurd hi (Nat.not_lt_zero _)

theorem Bounds.headKind_beq (h : s.Bounds ts) {k : Kind} (hk : k ≠ .semicolon ∧ k ≠ .endOfInput) :
    (headKind (ts ++ s.after) == k) = (headKind ts == k) :=
  h.headKind_congr (f := (· == k)) <| by
    rw [beq_eq_false_iff_ne.mpr hk.1.symm, beq_eq_false_iff_ne.mpr hk.2.symm]

/-- What comes after the end of the text, where it is reached. -/
theorem Bounds.after_nil (h : s.Bounds []) : ∃ t us, s.after = t :: us ∧ t.kind = .semicolon := by
  have hk := h.resolve_left fun he => he.ne_nil rfl
  cases ha : s.after with
  | nil => rw [ha] at hk; cases hk
  | cons t us => exact ⟨t, us, rfl, by rwa [ha] at hk⟩

/-- The last token may be the `;`, and otherwise the next one is. -/
theorem Bounds.singleton {t : Token} (h : s.Bounds [t]) :
    t.kind = .semicolon ∨ ∃ u us, s.after = u :: us ∧ u.kind = .semicolon := by
  by_cases ht : t.kind = .semicolon
  · exact .inl ht
  · exact .inr (h.tail ht).after_nil

/-- A dotted chain ends in the text. -/
theorem Bounds.chainHasSubscripts (h : s.Bounds ts) :
    chainHasSubscripts (ts ++ s.after) = chainHasSubscripts ts := by
  fun_induction Token.chainHasSubscripts ts with
  | case1 t u ts ih =>
    by_cases hc : t.kind = .dot ∧ u.kind = .ident
    · have hts := (h.tail (by simp [hc])).tail (by simp [hc])
      simp [Token.chainHasSubscripts, ih hts]
    · rw [not_and] at hc
      by_cases hd : t.kind = .dot
      · simp [Token.chainHasSubscripts, beq_eq_false_iff_ne.mpr (hc hd)]
      · simp [Token.chainHasSubscripts, beq_eq_false_iff_ne.mpr hd]
  | case2 t =>
    rcases h.singleton with ht | ⟨u, us, ha, hu⟩
    · cases s.after <;> simp [Token.chainHasSubscripts, ht]
    · simp [ha, Token.chainHasSubscripts, hu]
  | case3 =>
    obtain ⟨t, us, ha, ht⟩ := h.after_nil
    cases us <;> simp [ha, Token.chainHasSubscripts, ht]

theorem Bounds.afterChain (h : s.Bounds ts) :
    afterChain (ts ++ s.after) = afterChain ts ++ s.after ∧ s.Bounds (afterChain ts) := by
  fun_induction Token.afterChain ts with
  | case1 t u ts hk ih =>
    simpa [Token.afterChain, hk] using ih ((h.tail (by simp [hk])).tail (by simp [hk]))
  | case2 t u ts hk => exact ⟨by simp [Token.afterChain, hk], h⟩
  | case3 ts hn =>
    refine ⟨?_, h⟩
    match ts with
    | [] =>
      obtain ⟨t, us, ha, ht⟩ := h.after_nil
      cases us <;> simp [ha, Token.afterChain, ht]
    | [t] =>
      rcases h.singleton with ht | ⟨u, us, ha, hu⟩
      · cases s.after <;> simp [Token.afterChain, ht]
      · simp [ha, Token.afterChain, hu]
    | t :: u :: ts => exact absurd rfl (hn t u ts)

theorem Bounds.dropWhile (h : s.Bounds ts) {p : Token → Bool}
    (hp : ∀ t, t.kind = .semicolon → p t = false) :
    (ts ++ s.after).dropWhile p = ts.dropWhile p ++ s.after ∧ s.Bounds (ts.dropWhile p) := by
  induction ts with
  | nil =>
    obtain ⟨t, us, ha, ht⟩ := h.after_nil
    exact ⟨by simp [ha, hp t ht], h⟩
  | cons t ts ih =>
    by_cases ht : p t = true
    · have hts := h.tail fun hk => by rw [hp t hk] at ht; cases ht
      simpa [ht] using ih hts
    · exact ⟨by simp [ht], by rwa [List.dropWhile_cons_of_neg ht]⟩

/-- A place in the text with a token ahead. -/
structure Place (s : Setting) extends Lookahead where
  ahead_ne_nil : ahead ≠ []
  bounds : s.Bounds ahead

/-- What the grammar sees at the end of the text when it sees the tokens after it. -/
def edge (s : Setting) (index : Spot) (context : Context) (constructs : List OpenConstruct) :
    Lookahead :=
  ⟨s.after, index + s.before, context, constructs⟩

section

variable {index : Spot} {context : Context} {constructs : List OpenConstruct}

@[simp] theorem edge_kind : (s.edge index context constructs).kind = headKind s.after := rfl

@[simp] theorem edge_sees {k : Kind} :
    (s.edge index context constructs).sees k = (headKind s.after == k) := rfl

@[simp] theorem edge_seesAny {ks : List Kind} :
    (s.edge index context constructs).seesAny ks = ks.contains (headKind s.after) := rfl

theorem edge_continuesChain (h : headKind s.after = .semicolon) :
    (s.edge index context constructs).continuesChain = false := by
  simp [Lookahead.continuesChain, Token.continuesChain, edge, Token.kindAt, h]

theorem edge_chainHasSubscripts (h : headKind s.after = .semicolon) :
    (s.edge index context constructs).chainHasSubscripts = false := by
  simp [Lookahead.chainHasSubscripts, edge, Lookahead.sees, Lookahead.kind, h]

theorem edge_classSpecifierKind (h : headKind s.after = .semicolon) :
    (s.edge index context constructs).classSpecifierKind = .longClassSpecifier := by
  simp [Lookahead.classSpecifierKind, h]

end

namespace Place

theorem one_le_length {s : Setting} (v : s.Place) : 1 ≤ v.ahead.length :=
  List.length_pos_iff.mpr v.ahead_ne_nil

theorem two_le_length {s : Setting} (v : s.Place) (h : v.continuesChain = true) :
    2 ≤ v.ahead.length := by
  refine Nat.lt_of_not_le fun hl => ?_
  have hk := kindAt_of_length_le hl
  simp [Lookahead.continuesChain, Token.continuesChain, hk] at h

/-- What the grammar sees at the same place in the larger text. -/
def outer (v : s.Place) (context : Context) : Lookahead :=
  ⟨v.ahead ++ s.after, v.index + s.before, context, v.constructs⟩

variable (v : s.Place) (context : Context)

@[simp] theorem outer_index : (v.outer context).index = v.index + s.before := rfl

@[simp] theorem outer_constructs : (v.outer context).constructs = v.constructs := rfl

@[simp] theorem outer_kind : (v.outer context).kind = v.kind := by
  simp only [Lookahead.kind, outer]
  cases h : v.ahead with
  | nil => exact absurd h v.ahead_ne_nil
  | cons t ts => rfl

@[simp] theorem outer_text : (v.outer context).text = v.text := by
  simp only [Lookahead.text, outer]
  cases h : v.ahead with
  | nil => exact absurd h v.ahead_ne_nil
  | cons t ts => rfl

@[simp] theorem outer_sees (k : Kind) : (v.outer context).sees k = v.sees k := by
  simp [Lookahead.sees]

@[simp] theorem outer_seesAny (ks : List Kind) : (v.outer context).seesAny ks = v.seesAny ks := by
  simp [Lookahead.seesAny]

@[simp] theorem outer_atEnd : (v.outer context).atEnd = v.atEnd := outer_sees ..

@[simp] theorem outer_found : (v.outer context).found = v.found := by simp [Lookahead.found]

@[simp] theorem outer_atClassDefinition :
    (v.outer context).atClassDefinition = v.atClassDefinition := by
  simp [Lookahead.atClassDefinition]

@[simp] theorem outer_clauseResolution (category : Category) :
    (v.outer context).clauseResolution category = v.clauseResolution category := by
  simp [Lookahead.clauseResolution]

@[simp] theorem outer_clauseAttaches (category : Category) :
    (v.outer context).clauseAttaches category = v.clauseAttaches category := by
  simp [Lookahead.clauseAttaches]

/-- The second kind, where the first one neither is a `;` nor the end. -/
theorem outer_nth_one {α : Sort _} {f : Kind → α} (hf : f .semicolon = f .endOfInput)
    (hk : v.kind ≠ .semicolon ∧ v.kind ≠ .endOfInput) : f ((v.outer context).nth 1) = f (v.nth 1) :=
  v.bounds.kindAt_congr hf fun i hi => by
    obtain rfl : i = 0 := by omega
    exact hk

/-- The same, for any property of the second kind. -/
@[elab_as_elim]
theorem nth_one_outer {motive : Kind → Prop} (hk : v.kind ≠ .semicolon ∧ v.kind ≠ .endOfInput)
    (hends : motive .semicolon ↔ motive .endOfInput) (h : motive (v.nth 1)) :
    motive ((v.outer context).nth 1) :=
  (v.outer_nth_one context (propext hends) hk).mpr h

/-- A test of two kinds in a row. -/
theorem outer_sees_nth {k : Kind} {f : Kind → Bool} (hf : f .semicolon = f .endOfInput)
    (hk : k ≠ .semicolon ∧ k ≠ .endOfInput) :
    (v.sees k && f ((v.outer context).nth 1)) = (v.sees k && f (v.nth 1)) := by
  cases h : v.sees k with
  | false => rfl
  | true => rw [v.outer_nth_one context hf (eq_of_beq h ▸ hk)]

@[simp] theorem outer_initialOpensSection :
    (v.outer context).initialOpensSection = v.initialOpensSection := by
  simp only [Lookahead.initialOpensSection, outer_sees]
  exact v.outer_sees_nth context (f := fun k => k == .equationKw || k == .algorithmKw) rfl
    (by decide)

@[simp] theorem outer_atSectionBoundary :
    (v.outer context).atSectionBoundary = v.atSectionBoundary := by
  simp [Lookahead.atSectionBoundary]

@[simp] theorem outer_endIsExpression :
    (v.outer context).endIsExpression = v.endIsExpression := by
  simp only [Lookahead.endIsExpression, outer_sees]
  cases h : v.sees .endKw with
  | false => rfl
  | true => exact v.nth_one_outer context (eq_of_beq h ▸ by decide) Iff.rfl rfl

@[simp] theorem outer_atBlockEnd : (v.outer context).atBlockEnd = v.atBlockEnd := by
  simp only [Lookahead.atBlockEnd, outer_sees]
  cases h : v.sees .endKw with
  | false => rfl
  | true => exact v.nth_one_outer context (eq_of_beq h ▸ by decide) Iff.rfl rfl

@[simp] theorem outer_bodyEnds (category : Category) :
    (v.outer context).bodyEnds category = v.bodyEnds category := by
  simp [Lookahead.bodyEnds]

@[simp] theorem outer_atPrimaryStart :
    (v.outer context).atPrimaryStart = v.atPrimaryStart := by
  simp [Lookahead.atPrimaryStart]

@[simp] theorem outer_continuesChain :
    (v.outer context).continuesChain = v.continuesChain :=
  (congrArg (· && _) (v.outer_sees context .dot)).trans <| v.outer_sees_nth context
    (f := (· == .ident)) rfl (by decide)

@[simp] theorem outer_atNamedArgument :
    (v.outer context).atNamedArgument = v.atNamedArgument :=
  (congrArg (· && _) (v.outer_sees context .ident)).trans <| v.outer_sees_nth context
    (f := (· == .equals)) rfl (by decide)

@[simp] theorem outer_chainHasSubscripts :
    (v.outer context).chainHasSubscripts = v.chainHasSubscripts := by
  simp only [Lookahead.chainHasSubscripts, outer_sees]
  have hcons : ∀ ts : List Token, s.Bounds ts →
      (headKind (ts ++ s.after) == .ident && Token.chainHasSubscripts ((ts ++ s.after).drop 1)) =
        (headKind ts == .ident && Token.chainHasSubscripts (ts.drop 1)) := by
    intro ts h
    rw [h.headKind_beq (by decide)]
    cases ts with
    | nil => rfl
    | cons t ts =>
      by_cases ht : t.kind = .ident
      · simp [(h.tail (by simp [ht])).chainHasSubscripts]
      · simp [headKind, beq_eq_false_iff_ne.mpr ht]
  by_cases hd : v.sees .dot = true
  · simp only [hd, ↓reduceIte, outer]
    obtain ⟨t, ts, ha⟩ := List.exists_cons_of_ne_nil v.ahead_ne_nil
    have hb := v.bounds
    have ht : t.kind = .dot := by simpa [Lookahead.sees, Lookahead.kind, ha, headKind] using hd
    rw [ha] at hb
    rw [ha]
    exact hcons ts (hb.tail (by simp [ht]))
  · simp only [hd, outer]
    exact hcons v.ahead v.bounds

/-- A colon alone is a whole dimension. -/
theorem outer_wholeDimension : v.sees .colon = true ∧
    ((v.outer context).nth 1 = .comma ∨ (v.outer context).nth 1 = .rBracket) ↔
      v.sees .colon = true ∧ (v.nth 1 = .comma ∨ v.nth 1 = .rBracket) := by
  have h := v.outer_sees_nth context (k := .colon) (f := fun k => k == .comma || k == .rBracket) rfl
    (by decide)
  simpa using congrArg (· = true) h

/-- The second kind after one that is no `;`. -/
theorem outer_sees_and_nth {k k' : Kind} (hk : k ≠ .semicolon ∧ k ≠ .endOfInput)
    (hk' : k' ≠ .semicolon ∧ k' ≠ .endOfInput) :
    v.sees k = true ∧ (v.outer context).nth 1 = k' ↔ v.sees k = true ∧ v.nth 1 = k' := by
  have hf : (Kind.semicolon == k') = (Kind.endOfInput == k') := by
    rw [beq_eq_false_iff_ne.mpr hk'.1.symm, beq_eq_false_iff_ne.mpr hk'.2.symm]
  simpa using congrArg (· = true) (v.outer_sees_nth context (f := (· == k')) hf hk)

/-- A kind that is reached without passing a `;` or the end. -/
theorem outer_nth {n : Nat} {α : Sort _} {f : Kind → α} (hf : f .semicolon = f .endOfInput)
    (hn : ∀ i < n, v.nth i ≠ .semicolon ∧ v.nth i ≠ .endOfInput) :
    f ((v.outer context).nth n) = f (v.nth n) :=
  v.bounds.kindAt_congr hf hn

/-- Positional arguments go on up to a named one. -/
theorem outer_positional : (v.sees .comma &&
    (!(v.outer context).nth 1 == .ident || !(v.outer context).nth 2 == .equals)) =
      (v.sees .comma && (!v.nth 1 == .ident || !v.nth 2 == .equals)) := by
  by_cases h : v.sees .comma = true
  · have h0 : v.nth 0 = .comma := eq_of_beq h
    rw [v.outer_nth_one context (f := (· == .ident)) rfl (eq_of_beq h ▸ by decide)]
    by_cases h1 : v.nth 1 = .ident
    · rw [v.outer_nth context (f := (· == .equals)) rfl fun i hi => ?_]
      obtain rfl | rfl : i = 0 ∨ i = 1 := by omega
      · rw [h0]; decide
      · rw [h1]; decide
    · simp [beq_eq_false_iff_ne.mpr h1]
  · rw [Bool.not_eq_true] at h
    rw [h, Bool.false_and, Bool.false_and]

@[simp] theorem outer_classSpecifierKind :
    (v.outer context).classSpecifierKind = v.classSpecifierKind := by
  have hsecond : (v.sees .ident && (v.outer context).nth 1 == .equals) =
      (v.sees .ident && v.nth 1 == .equals) :=
    v.outer_sees_nth context (f := (· == .equals)) rfl (by decide)
  have hlast : v.sees .ident = true → v.nth 1 = .equals →
      ((v.outer context).nth 2 == .derKw && (v.outer context).nth 3 == .lParen) =
        (v.nth 2 == .derKw && v.nth 3 == .lParen) := by
    intro h0 h1
    have h0' : v.nth 0 = .ident := eq_of_beq h0
    have hn : ∀ i < 2, v.nth i ≠ .semicolon ∧ v.nth i ≠ .endOfInput := fun i hi => by
      obtain rfl | rfl : i = 0 ∨ i = 1 := by omega
      · rw [h0']; decide
      · rw [h1]; decide
    rw [v.outer_nth context (f := (· == .derKw)) rfl hn]
    by_cases h2 : v.nth 2 = .derKw
    · rw [v.outer_nth context (f := (· == .lParen)) rfl fun i hi => ?_]
      obtain hi | rfl : i < 2 ∨ i = 2 := by omega
      · exact hn i hi
      · rw [h2]; decide
    · rw [beq_eq_false_iff_ne.mpr h2, Bool.false_and, Bool.false_and]
  simp only [Lookahead.classSpecifierKind, outer_sees, hsecond]
  by_cases h : (v.sees .ident && v.nth 1 == .equals) = true
  · rw [if_pos h, if_pos h]
    rw [Bool.and_eq_true, beq_iff_eq] at h
    rw [hlast h.1 h.2]
  · rw [if_neg h, if_neg h]

/-- The kind after any `each` and `final`. -/
theorem outer_argumentHead {α : Sort _} {f : Kind → α} (hf : f .semicolon = f .endOfInput) :
    f (v.outer context).argumentHead = f v.argumentHead := by
  have h := v.bounds.dropWhile (p := fun t => t.kind == .eachKw || t.kind == .finalKw)
    fun t ht => by simp [ht]
  simp only [Lookahead.argumentHead, outer, h.1]
  exact h.2.headKind_congr hf

/-- The form of an import clause, which has a token after `import`. -/
theorem outer_importKind (h : 2 ≤ v.ahead.length) :
    (v.outer context).importKind = v.importKind := by
  obtain ⟨t, u, ts, ha⟩ : ∃ t u ts, v.ahead = t :: u :: ts := by
    match v.ahead, h with
    | t :: u :: ts, _ => exact ⟨t, u, ts, rfl⟩
  have hb := v.bounds
  rw [ha] at hb
  replace hb := hb.of_suffix (List.suffix_cons t (u :: ts)) (List.cons_ne_nil u ts)
  have hu : v.nth 1 = u.kind := by simp [Lookahead.nth, ha, kindAt, headKind]
  have hu' : (v.outer context).nth 1 = u.kind := by
    simp [Lookahead.nth, outer, ha, kindAt, headKind]
  by_cases hident : u.kind = .ident
  · replace hb := hb.tail (by simp [hident])
    have hthird : ((v.outer context).nth 2 == .equals) = (v.nth 2 == .equals) := by
      simpa [Lookahead.nth, outer, ha, kindAt] using hb.headKind_beq (k := .equals) (by decide)
    obtain ⟨hchain, hb⟩ := hb.afterChain
    have hdrop : v.ahead.drop 2 = ts := by simp [ha]
    have hdrop' : (v.outer context).ahead.drop 2 = ts ++ s.after := by simp [outer, ha]
    simp only [Lookahead.importKind, hu, hu', hthird, hdrop, hdrop', hchain]
    congr 1
    match Token.afterChain ts, hb with
    | [], hb =>
      obtain ⟨t, us, ha, ht⟩ := hb.after_nil
      simp [ha, kindAt, headKind, ht]
    | [t], hb =>
      rcases hb.singleton with ht | ⟨u, us, ha, hu⟩
      · simp [kindAt, headKind, ht]
      · simp only [ha, kindAt, List.cons_append, List.nil_append, List.drop_succ_cons,
          List.drop_zero, List.drop_nil, headKind, hu]
        generalize t.kind = k
        cases k <;> rfl
    | t :: u :: us, _ => rfl
  · simp [Lookahead.importKind, hu, hu', hident]

end Place

end Setting

end Modelica
