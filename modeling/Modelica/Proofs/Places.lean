import Modelica.Parse
import Modelica.Proofs.Tokens

/-!
# Where tokens stand

The spans of the tokens of a text follow one another, so diagnostics at token indices come in the
same order as their spans.

* `Landmarks.start_span_le_iff`: spans start in the order of their tokens;
* `Landmarks.start_span_eq_iff`, `Reading.report_eq_of_starts`: two reports are at one spot exactly
  when they start at one byte;
* `filter_mergeSort`: a stable sort keeps its order among some of the elements;
* `inOrder_append_later`: what starts after some offset comes after what does not;
* `inOrder_map_span`: diagnostics in the order of the text are in the order of their tokens.
-/

namespace Modelica

namespace Token

theorem width_pos_of_text {t : Token} (h : t.text.toList ≠ []) : 0 < t.width := by
  cases hc : t.text.toList with
  | nil => exact absurd hc h
  | cons c cs =>
    rw [width, hc, width_cons]
    exact Nat.add_pos_left c.utf8Size_pos _

theorem cut_width_pos {t : Token} {opensFile : Bool} {skip : Nat} {cs : List Char}
    (h : t ∈ cut opensFile skip cs) : 0 < t.width := by
  induction cs generalizing opensFile skip with
  | nil => cases h
  | cons c rest ih =>
    cases skip with
    | succ skip => exact ih h
    | zero =>
      obtain ⟨n, hn⟩ := Nat.exists_eq_succ_of_ne_zero (Nat.ne_of_gt (measure_pos (c :: rest)))
      simp only [cut, List.mem_cons] at h
      rcases h with rfl | h
      · exact width_pos_of_text (by simp [hn])
      · exact ih h

theorem placeFrom_start_le {offset : Nat} {position : Position} {ts : List Token}
    {p : PlacedToken} (h : p ∈ placeFrom offset position ts) : offset ≤ p.span.start := by
  induction ts generalizing offset position with
  | nil => cases h
  | cons t ts ih =>
    cases h with
    | head => exact Nat.le_refl _
    | tail _ h => exact Nat.le_trans (Nat.le_add_right _ _) (ih h)

theorem placeFrom_pairwise (offset : Nat) (position : Position) (ts : List Token) :
    (placeFrom offset position ts).Pairwise fun p q => p.span.stop ≤ q.span.start := by
  induction ts generalizing offset position with
  | nil => exact .nil
  | cons t ts ih => exact .cons (fun q hq => placeFrom_start_le hq) (ih _ _)

theorem map_placeFrom (offset : Nat) (position : Position) (ts : List Token) :
    (placeFrom offset position ts).map PlacedToken.toToken = ts := by
  induction ts generalizing offset position with
  | nil => rfl
  | cons t ts ih => simp [placeFrom, ih]

theorem placeFrom_start_lt_stop {offset : Nat} {position : Position} {ts : List Token}
    (hw : ∀ t ∈ ts, 0 < t.width) {p : PlacedToken} (h : p ∈ placeFrom offset position ts) :
    p.span.start < p.span.stop := by
  induction ts generalizing offset position with
  | nil => cases h
  | cons t ts ih =>
    cases h with
    | head => exact Nat.lt_add_of_pos_right (hw t (by simp))
    | tail _ h => exact ih (fun u hu => hw u (by simp [hu])) h

end Token

namespace Landmarks

/-- Spans in the order of the text, all before its end. -/
structure Ordered (marks : Landmarks) : Prop where
  starts : marks.spans.Pairwise fun a b => a.start < b.start
  inside : ∀ s ∈ marks.spans, s.start < marks.stop

theorem stop_le_last {ps : List PlacedToken}
    (h : ps.Pairwise fun p q => p.span.stop ≤ q.span.start)
    (hw : ∀ p ∈ ps, p.span.start < p.span.stop) {p : PlacedToken} (hp : p ∈ ps) :
    p.span.stop ≤ (ps.getLast?.map (·.span.stop)).getD 0 := by
  induction ps generalizing p with
  | nil => cases hp
  | cons q qs ih =>
    cases qs with
    | nil =>
      cases List.mem_singleton.mp hp
      exact Nat.le_refl _
    | cons r rs =>
      rw [List.getLast?_cons_cons]
      have hr : ∀ {x}, x ∈ r :: rs → _ := ih h.tail fun x hx => hw x (List.mem_cons_of_mem _ hx)
      cases hp with
      | head =>
        have h₁ := List.rel_of_pairwise_cons h (List.mem_cons_self (a := r))
        exact Nat.le_trans h₁ (Nat.le_trans (Nat.le_of_lt (hw r (by simp))) (hr (by simp)))
      | tail _ hp => exact hr hp

theorem ordered_ofTokens (text : String) : (ofTokens (tokenize text)).Ordered := by
  have hw : ∀ p ∈ Token.place (tokenize text), p.span.start < p.span.stop :=
    fun p => Token.placeFrom_start_lt_stop fun t ht => Token.cut_width_pos ht
  have hp := Token.placeFrom_pairwise 0 .origin (tokenize text)
  constructor
  · refine List.pairwise_map.mpr ((hp.filter _).imp_of_mem fun {p q} h₁ _ h => ?_)
    exact Nat.lt_of_lt_of_le (hw p (List.mem_filter.mp h₁).1) h
  · intro s hs
    obtain ⟨p, hm, rfl⟩ := List.mem_map.mp hs
    have hm' := (List.mem_filter.mp hm).1
    exact Nat.lt_of_lt_of_le (hw p hm') (stop_le_last hp hw hm')

theorem length_spans_ofTokens (ts : List Token) :
    (ofTokens ts).spans.length = (Token.significant ts).length := by
  have h := Token.map_placeFrom 0 .origin ts
  simp only [ofTokens, List.length_map, Token.significant]
  rw [← congrArg (fun us => (us.filter Token.isSignificant).length) h, List.filter_map,
    List.length_map]
  rfl

variable {marks : Landmarks}

theorem start_span_lt (h : marks.Ordered) {i j : Nat} (hi : i < marks.spans.length) (hij : i < j) :
    (marks.span i).start < (marks.span j).start := by
  unfold span
  rw [List.getElem?_eq_getElem hi, Option.getD_some]
  by_cases hj : j < marks.spans.length
  · rw [List.getElem?_eq_getElem hj]
    exact List.pairwise_iff_getElem.mp h.starts i j hi hj hij
  · rw [List.getElem?_eq_none (Nat.le_of_not_lt hj)]
    exact h.inside _ (List.getElem_mem hi)

/-- Past the last token every index stands for the end of the text. -/
theorem start_span_le_iff (h : marks.Ordered) (i j : Nat) :
    (marks.span i).start ≤ (marks.span j).start ↔
      min i marks.spans.length ≤ min j marks.spans.length := by
  have hpast : ∀ k, marks.spans.length ≤ k → marks.span k = marks.span marks.spans.length := by
    intro k hk
    simp [span, List.getElem?_eq_none hk]
  rcases Nat.lt_trichotomy (min i marks.spans.length) (min j marks.spans.length) with hl | he | hg
  · have hi : i < marks.spans.length := by omega
    exact iff_of_true (Nat.le_of_lt (start_span_lt h hi (by omega))) (by omega)
  · refine iff_of_true ?_ (by omega)
    by_cases hi : i < marks.spans.length
    · exact Nat.le_of_eq (by rw [show i = j by omega])
    · exact Nat.le_of_eq (by rw [hpast i (by omega), hpast j (by omega)])
  · have hj : j < marks.spans.length := by omega
    exact iff_of_false (Nat.not_le_of_lt (start_span_lt h hj (by omega))) (by omega)

/-- Two spots of a text start at the same byte exactly when they are the same. -/
theorem start_span_eq_iff (text : String) {i j : Spot}
    (hi : i ≤ (Token.significant (tokenize text)).length)
    (hj : j ≤ (Token.significant (tokenize text)).length) :
    ((ofTokens (tokenize text)).span i).start = ((ofTokens (tokenize text)).span j).start ↔
      i = j := by
  rw [Nat.eq_iff_le_and_ge, Nat.eq_iff_le_and_ge, start_span_le_iff (ordered_ofTokens text),
    start_span_le_iff (ordered_ofTokens text), length_spans_ofTokens, Nat.min_eq_left hi,
    Nat.min_eq_left hj]

end Landmarks

/-- Reports are compared by the offsets they start at. -/
theorem Reading.report_eq_of_starts (text : String) {r : Reading} {d : Diagnostic Spot}
    (hd : d.place ≤ (Token.significant (tokenize text)).length)
    (hr : ∀ e ∈ r.faults, e.place ≤ (Token.significant (tokenize text)).length) :
    let start (e : Diagnostic Spot) := ((Landmarks.ofTokens (tokenize text)).span e.place).start
    r.report d = match r.faults with
      | [] => { r with faults := [d] }
      | last :: _ =>
        if start last = start d ∧ last.severity = d.severity then r
        else { r with faults := d :: r.faults } := by
  cases hf : r.faults with
  | nil => simp [report, hf]
  | cons last rest =>
    simp only [report, hf, Landmarks.start_span_eq_iff text (hr last (by simp [hf])) hd]

section

variable {α : Type} {le : α → α → Bool}

/-- Where a list falls into smaller elements and others, it falls so in one way. -/
theorem append_inj_of_le {a : α} {l₁ l₂ m₁ m₂ : List α} (h : l₁ ++ l₂ = m₁ ++ m₂)
    (hl₁ : ∀ b ∈ l₁, le a b = false) (hl₂ : ∀ b ∈ l₂, le a b = true)
    (hm₁ : ∀ b ∈ m₁, le a b = false) (hm₂ : ∀ b ∈ m₂, le a b = true) : l₁ = m₁ ∧ l₂ = m₂ := by
  have hf : ∀ {x y : List α}, (∀ b ∈ x, le a b = false) → (∀ b ∈ y, le a b = true) →
      (x ++ y).filter (le a) = y ∧ (x ++ y).filter (!le a ·) = x := by
    intro x y hx hy
    rw [List.filter_append, List.filter_append, List.filter_eq_nil_iff.mpr, List.filter_eq_self.mpr,
      List.filter_eq_self.mpr, List.filter_eq_nil_iff.mpr]
    · exact ⟨rfl, List.append_nil _⟩
    all_goals simp_all
  have h₁ := hf hl₁ hl₂
  rw [h] at h₁
  have h₂ := hf hm₁ hm₂
  exact ⟨h₁.2.symm.trans h₂.2, h₁.1.symm.trans h₂.1⟩

/-- A stable sort keeps its order among some of the elements. -/
theorem filter_mergeSort (trans : ∀ a b c, le a b → le b c → le a c)
    (total : ∀ a b, le a b || le b a) (p : α → Bool) (l : List α) :
    (l.mergeSort le).filter p = (l.filter p).mergeSort le := by
  induction l with
  | nil => simp
  | cons a l ih =>
    obtain ⟨l₁, l₂, h, h', hl₁⟩ := List.mergeSort_cons trans total a l
    rw [h'] at ih
    by_cases hp : p a
    · obtain ⟨m₁, m₂, hm, hm', hm₁⟩ := List.mergeSort_cons trans total a (l.filter p)
      have hs := List.pairwise_mergeSort trans total (a :: l)
      have hs' := List.pairwise_mergeSort trans total (a :: l.filter p)
      rw [h, List.pairwise_append] at hs
      rw [hm, List.pairwise_append] at hs'
      rw [hm', List.filter_append] at ih
      obtain ⟨h₁, h₂⟩ := append_inj_of_le ih
        (fun b hb => by simpa using hl₁ b (List.mem_filter.mp hb).1)
        (fun b hb => List.rel_of_pairwise_cons hs.2.1 (List.mem_filter.mp hb).1)
        (fun b hb => by simpa using hm₁ b hb)
        (fun b hb => List.rel_of_pairwise_cons hs'.2.1 hb)
      rw [h, List.filter_cons_of_pos hp, hm, List.filter_append, List.filter_cons_of_pos hp, h₁, h₂]
    · rw [h, List.filter_cons_of_neg hp, ← ih, List.filter_append, List.filter_append,
        List.filter_cons_of_neg hp]

end

/-- The diagnostics of the grammar in the order of the tokens they are at. -/
def inTokenOrder (tokens : Nat) (faults : List (Diagnostic Spot)) : List (Diagnostic Spot) :=
  faults.mergeSort fun a b => min a.place tokens ≤ min b.place tokens

theorem filter_inOrder (p : Diagnostic Span → Bool) (faults : List (Diagnostic Span)) :
    (inOrder faults).filter p = inOrder (faults.filter p) :=
  filter_mergeSort (fun _ _ _ => by simpa using Nat.le_trans)
    (fun _ _ => by simpa using Nat.le_total _ _) p faults

theorem pairwise_inOrder (faults : List (Diagnostic Span)) :
    (inOrder faults).Pairwise fun d e => d.place.start ≤ e.place.start :=
  (List.pairwise_mergeSort (fun _ _ _ => by simpa using Nat.le_trans)
    (fun _ _ => by simpa using Nat.le_total _ _) faults).imp fun h => by simpa using h

/-- Diagnostics in order start up to some offset first, and then after it. -/
theorem split_of_pairwise {faults : List (Diagnostic Span)} (offset : Nat)
    (h : faults.Pairwise fun d e => d.place.start ≤ e.place.start) :
    faults = faults.filter (·.place.start ≤ offset) ++ faults.filter (offset < ·.place.start) := by
  induction faults with
  | nil => rfl
  | cons d rest ih =>
    obtain ⟨hfirst, hrest⟩ := List.pairwise_cons.mp h
    by_cases hd : d.place.start ≤ offset
    · simpa [List.filter_cons, hd, Nat.not_lt.mpr hd] using ih hrest
    · have hlater : ∀ e ∈ d :: rest, offset < e.place.start :=
        List.forall_mem_cons.mpr ⟨Nat.lt_of_not_le hd, fun e he =>
          Nat.lt_of_lt_of_le (Nat.lt_of_not_le hd) (hfirst e he)⟩
      rw [List.filter_eq_nil_iff.mpr fun e he => by simpa using hlater e he,
        List.filter_eq_self.mpr fun e he => by simpa using hlater e he, List.nil_append]

/-- What starts after some offset comes after what does not. -/
theorem inOrder_append_later {offset : Nat} {lexical old later : List (Diagnostic Span)}
    (hlexical : ∀ d ∈ lexical, offset < d.place.start)
    (hold : ∀ d ∈ old, d.place.start ≤ offset) (hlater : ∀ d ∈ later, offset < d.place.start) :
    inOrder (lexical ++ (old ++ later)) = inOrder old ++ inOrder (lexical ++ later) := by
  have hup : (lexical ++ (old ++ later)).filter (·.place.start ≤ offset) = old := by
    rw [List.filter_append, List.filter_append, List.filter_eq_nil_iff.mpr,
      List.filter_eq_self.mpr, List.filter_eq_nil_iff.mpr, List.nil_append, List.append_nil]
    · exact fun d hd => by simpa using hlater d hd
    · exact fun d hd => by simpa using hold d hd
    · exact fun d hd => by simpa using hlexical d hd
  have hpast : (lexical ++ (old ++ later)).filter (offset < ·.place.start) = lexical ++ later := by
    rw [List.filter_append, List.filter_append, List.filter_eq_self.mpr,
      List.filter_eq_nil_iff.mpr, List.filter_eq_self.mpr, List.nil_append]
    · exact fun d hd => by simpa using hlater d hd
    · exact fun d hd => by simpa using hold d hd
    · exact fun d hd => by simpa using hlexical d hd
  rw [split_of_pairwise offset (pairwise_inOrder _), filter_inOrder, filter_inOrder, hup, hpast]

theorem inOrder_map_span {marks : Landmarks} (h : marks.Ordered)
    (faults : List (Diagnostic Spot)) :
    inOrder (faults.map (Diagnostic.map marks.span)) =
      (inTokenOrder marks.spans.length faults).map (Diagnostic.map marks.span) := by
  refine (List.map_mergeSort fun a _ b _ => ?_).symm
  exact decide_eq_decide.mpr (Landmarks.start_span_le_iff h a.place b.place).symm

end Modelica
