import Mathlib.Data.List.Induction
import Mathlib.Data.List.TakeWhile
import Modelica.Proofs.Tokens

/-!
# Lines and columns

`Position.advance` counts lines and columns while a text is read, `LineIndex` looks them up in a
table of line starts. Wherever a text is cut, both give the same position.

* `Position.advance_append`: a text may be read in pieces;
* `LineIndex.position_width`: what the table says of the offset after some text is what counting
  over that text gives;
* `LineIndex.position_mono`: positions come in the order of offsets;
* `LineIndex.offset?_position`: the offset of a position is the one it was made from.
-/

namespace Modelica

theorem word_of_lt {n : Nat} (h : n < UInt32.size) : word n = n := Nat.mod_eq_of_lt h

namespace Position

/-- Positions in the order of the text. -/
instance : LE Position := ⟨fun p q => p.line < q.line ∨ p.line = q.line ∧ p.column ≤ q.column⟩

/-- No line or column on the way over a text from here is more than a word holds. -/
def Fits (p : Position) (text : String) : Prop :=
  p.line + text.toList.count '\n' < UInt32.size ∧ p.column + width text.toList < UInt32.size

theorem lastLine_append_of_mem {ys : List Char} (h : '\n' ∈ ys) (xs : List Char) :
    lastLine (xs ++ ys) = lastLine ys := by
  have hlen : (ys.reverse.takeWhile (· != '\n')).length ≠ ys.reverse.length := by
    intro he
    have hall := List.takeWhile_eq_self_iff.mp
      ((List.takeWhile_prefix (· != '\n')).eq_of_length he)
    simpa using hall '\n' (List.mem_reverse.mpr h)
  simp only [lastLine, List.reverse_append]
  rw [List.takeWhile_append, if_neg hlen]

theorem lastLine_append_of_not_mem {ys : List Char} (h : '\n' ∉ ys) (xs : List Char) :
    lastLine (xs ++ ys) = lastLine xs ++ ys := by
  have hall : ∀ c ∈ ys.reverse, (c != '\n') = true := fun c hc => by
    simpa using fun he : c = '\n' => h (he ▸ List.mem_reverse.mp hc)
  simp only [lastLine, List.reverse_append]
  rw [List.takeWhile_append_of_pos hall, List.reverse_append, List.reverse_reverse]

theorem lastLine_of_not_mem {cs : List Char} (h : '\n' ∉ cs) : lastLine cs = cs :=
  lastLine_append_of_not_mem h []

theorem width_lastLine_le (cs : List Char) : width (lastLine cs) ≤ width cs := by
  obtain ⟨before, hbefore⟩ : lastLine cs <:+ cs := by
    rw [← List.reverse_prefix, lastLine, List.reverse_reverse]
    exact List.takeWhile_prefix _
  calc width (lastLine cs) ≤ width before + width (lastLine cs) := Nat.le_add_left _ _
    _ = width (before ++ lastLine cs) := (width_append _ _).symm
    _ = width cs := congrArg width hbefore

theorem advance_of_not_mem {p : Position} {text : String} (h : '\n' ∉ text.toList) :
    p.advance text = ⟨p.line, word (p.column + width text.toList)⟩ :=
  if_pos (List.count_eq_zero.mpr h)

theorem advance_of_mem {p : Position} {text : String} (h : '\n' ∈ text.toList) :
    p.advance text =
      ⟨word (p.line + text.toList.count '\n'), word (width (lastLine text.toList))⟩ :=
  if_neg (Nat.ne_of_gt (List.count_pos_iff.mpr h))

/-- Reading one text after another is reading both at once. -/
theorem advance_append (p : Position) (a b : String) :
    p.advance (a ++ b) = (p.advance a).advance b := by
  by_cases hb : '\n' ∈ b.toList
  · -- The last line lies in the second text, whatever the first one is.
    have hab : '\n' ∈ (a ++ b).toList := by simp [hb]
    rw [advance_of_mem hab, advance_of_mem hb, String.toList_append, lastLine_append_of_mem hb,
      List.count_append]
    by_cases ha : '\n' ∈ a.toList
    · simp [advance_of_mem ha, word, Nat.add_assoc]
    · simp [advance_of_not_mem ha, List.count_eq_zero.mpr ha]
  · by_cases ha : '\n' ∈ a.toList
    · have hab : '\n' ∈ (a ++ b).toList := by simp [ha]
      rw [advance_of_mem hab, advance_of_not_mem hb, advance_of_mem ha, String.toList_append,
        lastLine_append_of_not_mem hb, List.count_append, List.count_eq_zero.mpr hb]
      simp [word]
    · have hab : '\n' ∉ (a ++ b).toList := by simp [ha, hb]
      rw [advance_of_not_mem hab, advance_of_not_mem hb, advance_of_not_mem ha,
        String.toList_append, width_append]
      simp [word, Nat.add_assoc]

theorem count_le_width (cs : List Char) : cs.count '\n' ≤ width cs := by
  induction cs with
  | nil => exact Nat.le_refl _
  | cons c cs ih =>
    have hc := c.utf8Size_pos
    rw [List.count_cons, width_cons]
    split <;> omega

/-- From the start of a text that is short enough, counting is exact. -/
theorem origin_advance {text : String} (h : width text.toList < UInt32.size) :
    origin.advance text = ⟨text.toList.count '\n', width (lastLine text.toList)⟩ := by
  by_cases hn : '\n' ∈ text.toList
  · have hcount := count_le_width text.toList
    have hlast := width_lastLine_le text.toList
    rw [advance_of_mem hn, origin, Nat.zero_add, word_of_lt (Nat.lt_of_le_of_lt hcount h),
      word_of_lt (Nat.lt_of_le_of_lt hlast h)]
  · rw [advance_of_not_mem hn, origin, Nat.zero_add, word_of_lt h, lastLine_of_not_mem hn,
      List.count_eq_zero.mpr hn]

/-- In a text that is short enough, nothing wraps around on the way over what comes next. -/
theorem fits_of_append {before text : String} (h : width (before ++ text).toList < UInt32.size) :
    (origin.advance before).Fits text := by
  rw [String.toList_append, width_append] at h
  have hcount := count_le_width before.toList
  have hcount' := count_le_width text.toList
  have hlast := width_lastLine_le before.toList
  rw [origin_advance (Nat.lt_of_le_of_lt (Nat.le_add_right _ _) h)]
  constructor <;> simp only <;> omega

end Position

/-! ## The table of line starts -/

namespace LineIndex

open Position (lastLine)

theorem breaksFrom_append (offset : Nat) (xs ys : List Char) :
    breaksFrom offset (xs ++ ys) = breaksFrom offset xs ++ breaksFrom (offset + width xs) ys := by
  induction xs generalizing offset with
  | nil => rfl
  | cons c xs ih =>
    simp only [List.cons_append, breaksFrom, ih, width_cons, Nat.add_assoc]
    split <;> rfl

theorem length_breaksFrom (offset : Nat) (cs : List Char) :
    (breaksFrom offset cs).length = cs.count '\n' := by
  induction cs generalizing offset with
  | nil => rfl
  | cons c cs ih =>
    simp only [breaksFrom, List.count_cons, beq_iff_eq]
    split <;> simp [ih]

theorem mem_breaksFrom {offset : Nat} {cs : List Char} :
    ∀ b ∈ breaksFrom offset cs, offset < b ∧ b ≤ offset + width cs := by
  induction cs generalizing offset with
  | nil => exact fun _ h => nomatch h
  | cons c cs ih =>
    have hc := c.utf8Size_pos
    have hrest : ∀ b ∈ breaksFrom (offset + c.utf8Size) cs,
        offset < b ∧ b ≤ offset + width (c :: cs) := fun b hb => by
      obtain ⟨hlt, hle⟩ := ih b hb
      rw [width_cons]
      omega
    intro b hb
    simp only [breaksFrom] at hb
    split at hb
    · rcases List.mem_cons.mp hb with rfl | hb
      · rw [width_cons]
        omega
      · exact hrest b hb
    · exact hrest b hb

theorem pairwise_breaksFrom (offset : Nat) (cs : List Char) :
    (breaksFrom offset cs).Pairwise (· < ·) := by
  induction cs generalizing offset with
  | nil => exact .nil
  | cons c cs ih =>
    simp only [breaksFrom]
    split
    · exact .cons (fun b hb => (mem_breaksFrom b hb).1) (ih _)
    · exact ih _

/-- In order, the numbers up to a bound come first. -/
theorem lt_countP_iff {breaks : List Nat} (h : breaks.Pairwise (· < ·)) {bound i b : Nat}
    (hb : breaks[i]? = some b) : i < breaks.countP (· ≤ bound) ↔ b ≤ bound := by
  induction breaks generalizing i with
  | nil => cases hb
  | cons c cs ih =>
    obtain ⟨hc, hcs⟩ := List.pairwise_cons.mp h
    cases i with
    | zero =>
      cases hb
      by_cases hle : b ≤ bound
      · simp [hle]
      · have hnone : cs.countP (· ≤ bound) = 0 := List.countP_eq_zero.mpr fun d hd => by
          have := hc d hd
          simp only [decide_eq_true_eq]
          omega
        simp [hle, hnone]
    | succ i =>
      rw [List.getElem?_cons_succ] at hb
      rw [← ih hcs hb]
      by_cases hle : c ≤ bound
      · simp [hle]
      · -- A number past the bound has none up to the bound after it.
        have hnone : cs.countP (· ≤ bound) = 0 := List.countP_eq_zero.mpr fun d hd => by
          have := hc d hd
          simp only [decide_eq_true_eq]
          omega
        simp [hle, hnone]

section

variable {index : LineIndex} {o : Nat}

/-- The line of an offset has started by then, -/
theorem exists_lineStart (h : index.breaks.Pairwise (· < ·)) (o : Nat) :
    ∃ start, index.lineStart? (index.breaks.countP (· ≤ o)) = some start ∧ start ≤ o := by
  cases hn : index.breaks.countP (· ≤ o) with
  | zero => exact ⟨0, rfl, Nat.zero_le o⟩
  | succ n =>
    have hlt : n < index.breaks.length :=
      Nat.lt_of_lt_of_le (by omega) (List.countP_le_length (p := (· ≤ o)))
    have hget := List.getElem?_eq_getElem hlt
    exact ⟨index.breaks[n], hget, (lt_countP_iff h hget).mp (by omega)⟩

/-- and the next one has not. -/
theorem lt_lineStart (h : index.breaks.Pairwise (· < ·)) {next : Nat}
    (hnext : index.lineStart? (index.breaks.countP (· ≤ o) + 1) = some next) : o < next :=
  Nat.lt_of_not_le fun hle => Nat.lt_irrefl _ ((lt_countP_iff h hnext).mpr hle)

theorem position_mono {o o' : Nat} (hle : o ≤ o') :
    index.position o ≤ index.position o' := by
  have hmin : min o index.size ≤ min o' index.size := by omega
  have hline : index.breaks.countP (· ≤ min o index.size) ≤
      index.breaks.countP (· ≤ min o' index.size) :=
    List.countP_mono_left fun b _ hb => by
      simp only [decide_eq_true_eq] at hb ⊢
      omega
  rcases Nat.lt_or_eq_of_le hline with hlt | heq
  · exact .inl hlt
  · refine .inr ⟨heq, ?_⟩
    simp only [position, heq]
    exact Nat.sub_le_sub_right hmin _

/-- The way to a position and back. -/
theorem offset?_position (h : index.breaks.Pairwise (· < ·)) (hsize : index.size < UInt32.size)
    (ho : o ≤ index.size) : index.offset? (index.position o) = some o := by
  obtain ⟨start, hstart, hle⟩ := exists_lineStart h o
  have hstop : o ≤ (index.lineStart? (index.breaks.countP (· ≤ o) + 1)).getD index.size := by
    cases hnext : index.lineStart? (index.breaks.countP (· ≤ o) + 1) with
    | none => exact ho
    | some next => exact Nat.le_of_lt (lt_lineStart h hnext)
  simp only [offset?, position, Nat.min_eq_left ho, hstart, Option.getD_some, Option.bind_eq_bind,
    Option.bind_some, Nat.add_sub_cancel' hle, word_of_lt (Nat.lt_of_le_of_lt ho hsize)]
  exact if_pos hstop

end

theorem pairwise_ofText (text : String) : (ofText text).breaks.Pairwise (· < ·) :=
  pairwise_breaksFrom 0 _

/-- The line that is being read starts after the last newline so far. -/
theorem lineStart?_breaksFrom (cs : List Char) (later : List Nat) (size : Nat) :
    (LineIndex.mk (breaksFrom 0 cs ++ later) size).lineStart? (cs.count '\n') =
      some (width cs - width (lastLine cs)) := by
  induction cs using List.reverseRecOn generalizing later with
  | nil => rfl
  | append_singleton cs c ih =>
    rw [breaksFrom_append, List.append_assoc, List.count_append]
    by_cases hc : c = '\n'
    · subst hc
      have hlast : lastLine (cs ++ ['\n']) = [] := Position.lastLine_append_of_mem (by simp) cs
      rw [hlast, ← length_breaksFrom 0 cs]
      simp [lineStart?, breaksFrom]
    · have hnot : '\n' ∉ [c] := by simp [Ne.symm hc]
      rw [Position.lastLine_append_of_not_mem hnot, List.count_eq_zero.mpr hnot, Nat.add_zero, ih,
        width_append, width_append, Nat.add_sub_add_right]

/-- What the table says of the offset after some text is what counting over that text gives. -/
theorem position_width {before after : String}
    (h : width (before ++ after).toList < UInt32.size) :
    (ofText (before ++ after)).position (width before.toList) = Position.origin.advance before := by
  have hsplit : ofText (before ++ after) =
      ⟨breaksFrom 0 before.toList ++ breaksFrom (width before.toList) after.toList,
        width before.toList + width after.toList⟩ := by
    simp [ofText, breaksFrom_append]
  have hbefore : (breaksFrom 0 before.toList).countP (· ≤ width before.toList) =
      before.toList.count '\n' := by
    rw [← length_breaksFrom 0, List.countP_eq_length]
    exact fun b hb => by simpa using (mem_breaksFrom b hb).2
  have hafter : (breaksFrom (width before.toList) after.toList).countP
      (· ≤ width before.toList) = 0 :=
    List.countP_eq_zero.mpr fun b hb => by simpa using (mem_breaksFrom b hb).1
  rw [String.toList_append, width_append] at h
  rw [Position.origin_advance (Nat.lt_of_le_of_lt (Nat.le_add_right _ _) h), hsplit]
  simp only [position, Nat.min_eq_left (Nat.le_add_right _ _), List.countP_append, hbefore, hafter,
    Nat.add_zero, lineStart?_breaksFrom, Option.getD_some]
  rw [Nat.sub_sub_self (Position.width_lastLine_le _)]

end LineIndex

/-! ## Tokens -/

/-- A token stands where the texts of the tokens before it end. -/
theorem Token.exists_of_mem_placeFrom {before : String} {ts : List Token} {t : PlacedToken}
    (h : t ∈ placeFrom (Modelica.width before.toList) (Position.origin.advance before) ts) :
    ∃ start rest, before ++ concat ts = start ++ t.text ++ rest ∧
      t.span = ⟨Modelica.width start.toList, Modelica.width (start ++ t.text).toList⟩ ∧
      t.first = Position.origin.advance start ∧
      t.last = Position.origin.advance (start ++ t.text) := by
  induction ts generalizing before with
  | nil => cases h
  | cons u us ih =>
    rw [concat_cons, ← String.append_assoc]
    have hwidth : Modelica.width before.toList + u.width =
        Modelica.width (before ++ u.text).toList := by
      rw [String.toList_append, width_append]
      rfl
    rw [placeFrom, hwidth, ← Position.advance_append] at h
    rcases List.mem_cons.mp h with rfl | h
    · exact ⟨before, concat us, rfl, rfl, rfl, rfl⟩
    · exact ih h

/-- **Positions counted on the way and positions looked up agree.** A text may be read in pieces. In
a text that is short enough for 32-bit offsets nothing wraps around, every token starts and ends
where the table of line starts says, positions come in the order of offsets, and every offset is
found again from its position. -/
theorem positions_agree {text : String} (h : width text.toList < UInt32.size) :
    (∀ (p : Position) (a b : String), p.advance (a ++ b) = (p.advance a).advance b) ∧
      (∀ t ∈ Token.place (tokenize text), t.first.Fits t.text ∧
        t.first = (LineIndex.ofText text).position t.span.start ∧
        t.last = (LineIndex.ofText text).position t.span.stop) ∧
      (∀ o o', o ≤ o' → (LineIndex.ofText text).position o ≤ (LineIndex.ofText text).position o') ∧
      ∀ o ≤ width text.toList,
        (LineIndex.ofText text).offset? ((LineIndex.ofText text).position o) = some o := by
  have hsorted := LineIndex.pairwise_ofText text
  refine ⟨Position.advance_append, fun t ht => ?_, fun o o' => LineIndex.position_mono,
    fun o => LineIndex.offset?_position hsorted h⟩
  obtain ⟨start, rest, htext, hspan, hfirst, hlast⟩ :=
    @Token.exists_of_mem_placeFrom "" _ _ ht
  rw [concat_tokenize, String.empty_append] at htext
  rw [htext] at h
  refine ⟨?_, ?_, ?_⟩
  · rw [hfirst]
    rw [String.toList_append, width_append] at h
    exact Position.fits_of_append (Nat.lt_of_le_of_lt (Nat.le_add_right _ _) h)
  · rw [hfirst, hspan, htext]
    rw [String.append_assoc] at h ⊢
    exact (LineIndex.position_width h).symm
  · rw [hlast, hspan, htext]
    exact (LineIndex.position_width h).symm

/-- A text whose tokens span lines and hold characters of several bytes. -/
theorem positions_agree_comment :
    width "/* ä\n */ \"b\nc\"\n".toList < UInt32.size ∧
      (∀ (p : Position) (a b : String), p.advance (a ++ b) = (p.advance a).advance b) ∧
      (∀ t ∈ Token.place (tokenize "/* ä\n */ \"b\nc\"\n"), t.first.Fits t.text ∧
        t.first = (LineIndex.ofText "/* ä\n */ \"b\nc\"\n").position t.span.start ∧
        t.last = (LineIndex.ofText "/* ä\n */ \"b\nc\"\n").position t.span.stop) ∧
      (∀ o o', o ≤ o' → (LineIndex.ofText "/* ä\n */ \"b\nc\"\n").position o ≤
        (LineIndex.ofText "/* ä\n */ \"b\nc\"\n").position o') ∧
      ∀ o ≤ width "/* ä\n */ \"b\nc\"\n".toList,
        (LineIndex.ofText "/* ä\n */ \"b\nc\"\n").offset?
          ((LineIndex.ofText "/* ä\n */ \"b\nc\"\n").position o) = some o :=
  have h : width "/* ä\n */ \"b\nc\"\n".toList < UInt32.size := by decide +kernel
  ⟨h, positions_agree h⟩

end Modelica
