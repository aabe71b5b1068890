import Modelica.Proofs.Lines

/-!
# Which columns a line takes

`LineIndex.offset?` adds a column to the start of its line in 32 bits and takes the sum up to the
start of the next line. A position is taken for its own offset, but there are two more: a column
just past the newline is taken for the start of the next line, and a column so large that the sum
wraps around is taken for an offset before its line.
-/

namespace Modelica

theorem word_of_wraps {n : Nat} (h : UInt32.size ≤ n) (hn : n < 2 * UInt32.size) :
    word n = n - UInt32.size := by
  rw [word, Nat.mod_eq_sub_mod h, Nat.mod_eq_of_lt (by omega)]

namespace LineIndex

/-- The number that a position counts to, where nothing wraps around. -/
def reach? (index : LineIndex) (p : Position) : Option Nat :=
  (index.lineStart? p.line).map (· + p.column)

/-- The table of a text that is short enough for 32-bit offsets. -/
structure Sound (index : LineIndex) : Prop where
  sorted : index.breaks.Pairwise (· < ·)
  inside : ∀ b ∈ index.breaks, 0 < b ∧ b ≤ index.size
  fits : index.size < UInt32.size

theorem sound_ofText {text : String} (h : width text.toList < UInt32.size) :
    (ofText text).Sound where
  sorted := pairwise_ofText text
  inside b hb := by
    have hb' := mem_breaksFrom b hb
    rwa [Nat.zero_add] at hb'
  fits := h

namespace Sound

variable {index : LineIndex} {p : Position} {line start next o r : Nat}

theorem lineStart_le (h : index.Sound) (hs : index.lineStart? line = some start) :
    start ≤ index.size := by
  cases line with
  | zero =>
    cases hs
    exact Nat.zero_le _
  | succ line => exact (h.inside start (List.mem_of_getElem? hs)).2

theorem lineStart_lt (h : index.Sound) (hs : index.lineStart? line = some start)
    (hn : index.lineStart? (line + 1) = some next) : start < next := by
  cases line with
  | zero =>
    cases hs
    exact (h.inside next (List.mem_of_getElem? hn)).1
  | succ line =>
    obtain ⟨hi, rfl⟩ := List.getElem?_eq_some_iff.mp hs
    obtain ⟨hj, rfl⟩ := List.getElem?_eq_some_iff.mp hn
    exact List.pairwise_iff_getElem.mp h.sorted line (line + 1) hi hj (by omega)

/-- An offset from the start of a line to before the next one is in that line. -/
theorem countP_eq (h : index.Sound) (hs : index.lineStart? line = some start) (hle : start ≤ o)
    (hlt : ∀ next, index.lineStart? (line + 1) = some next → o < next) :
    index.breaks.countP (· ≤ o) = line := by
  apply Nat.le_antisymm
  · apply Nat.le_of_not_lt
    intro hgt
    have hget := List.getElem?_eq_getElem
      (Nat.lt_of_lt_of_le hgt (List.countP_le_length (p := (· ≤ o))))
    have hbreak := (lt_countP_iff h.sorted hget).mp hgt
    have := hlt _ hget
    omega
  · cases line with
    | zero => exact Nat.zero_le _
    | succ line => exact (lt_countP_iff h.sorted hs).mpr hle

theorem position_eq (h : index.Sound) (hs : index.lineStart? line = some start) (hle : start ≤ o)
    (hlt : ∀ next, index.lineStart? (line + 1) = some next → o < next) (ho : o ≤ index.size) :
    index.position o = ⟨line, o - start⟩ := by
  simp only [position, Nat.min_eq_left ho, h.countP_eq hs hle hlt, hs, Option.getD_some]

/-- The start of a line is in its first column. -/
theorem position_lineStart (h : index.Sound) (hs : index.lineStart? line = some start) :
    index.position start = ⟨line, 0⟩ := by
  have hp := h.position_eq hs (Nat.le_refl start) (fun _ => h.lineStart_lt hs) (h.lineStart_le hs)
  rwa [Nat.sub_self] at hp

theorem le_stop (h : index.Sound) (hs : index.lineStart? line = some start) :
    start ≤ (index.lineStart? (line + 1)).getD index.size := by
  cases hn : index.lineStart? (line + 1) with
  | none => exact h.lineStart_le hs
  | some next => exact Nat.le_of_lt (h.lineStart_lt hs hn)

/-- What comes before a line is in an earlier one. -/
theorem line_lt (h : index.Sound) (hs : index.lineStart? line = some start) (ho : o < start) :
    (index.position o).line < line := by
  have hsize := h.lineStart_le hs
  cases line with
  | zero =>
    cases hs
    omega
  | succ line =>
    have hcount : line < index.breaks.countP (· ≤ o) ↔ start ≤ o := lt_countP_iff h.sorted hs
    simp only [position, Nat.min_eq_left (Nat.le_of_lt (Nat.lt_of_lt_of_le ho hsize))]
    omega

theorem reach?_eq_some_iff : index.reach? p = some r ↔
    ∃ start, index.lineStart? p.line = some start ∧ start + p.column = r :=
  Option.map_eq_some_iff

/-- The position of an offset counts to it. -/
theorem reach?_position (h : index.Sound) (ho : o ≤ index.size) :
    index.reach? (index.position o) = some o := by
  obtain ⟨start, hs, hle⟩ := exists_lineStart h.sorted o
  refine reach?_eq_some_iff.mpr ⟨start, ?_, ?_⟩
  · simpa only [position, Nat.min_eq_left ho] using hs
  · simp only [position, Nat.min_eq_left ho, hs, Option.getD_some]
    omega

/-- The number counted to is cut down to 32 bits and taken up to where the next line starts. -/
theorem offset?_eq_some_iff : index.offset? p = some o ↔ ∃ r, index.reach? p = some r ∧
    word r = o ∧ o ≤ (index.lineStart? (p.line + 1)).getD index.size := by
  unfold offset? reach?
  cases index.lineStart? p.line with
  | none => simp
  | some start =>
    simp only [Option.bind_eq_bind, Option.bind_some, Option.map_some, Option.some.injEq,
      exists_eq_left', Option.ite_none_right_eq_some]
    constructor
    · rintro ⟨hle, rfl⟩
      exact ⟨rfl, hle⟩
    · rintro ⟨rfl, hle⟩
      exact ⟨hle, rfl⟩

/-- An offset found without wrapping around is in the line, or the next line starts there. -/
theorem position_of_le_stop (h : index.Sound) (hs : index.lineStart? p.line = some start)
    (ho : start + p.column = o) (hle : o ≤ (index.lineStart? (p.line + 1)).getD index.size) :
    o ≤ index.size ∧ (index.position o = p ∨ index.position o = ⟨p.line + 1, 0⟩) := by
  obtain ⟨line, column⟩ := p
  simp only at hs ho hle
  have hcolumn : column = o - start := by omega
  cases hn : index.lineStart? (line + 1) with
  | none =>
    rw [hn, Option.getD_none] at hle
    refine ⟨hle, .inl ?_⟩
    rw [h.position_eq hs (by omega) (fun _ hnext => by rw [hn] at hnext; cases hnext) hle, hcolumn]
  | some next =>
    rw [hn, Option.getD_some] at hle
    have hsize := h.lineStart_le hn
    refine ⟨by omega, ?_⟩
    rcases Nat.lt_or_eq_of_le hle with hlt | rfl
    · left
      rw [h.position_eq hs (by omega) (fun _ hnext => by rw [hn] at hnext; cases hnext; exact hlt)
        (by omega), hcolumn]
    · exact .inr (h.position_lineStart hn)

/-- What position an offset has that is found. -/
theorem position_of_offset? (h : index.Sound) (hp : p.column < UInt32.size)
    (hf : index.offset? p = some o) : o ≤ index.size ∧
      (index.position o = p ∨
        index.reach? p = some o ∧ index.position o = ⟨p.line + 1, 0⟩ ∨
        index.reach? p = some (o + UInt32.size) ∧ (index.position o).line < p.line) := by
  obtain ⟨r, hr, hword, hle⟩ := offset?_eq_some_iff.mp hf
  obtain ⟨start, hs, hsum⟩ := reach?_eq_some_iff.mp hr
  have hstart := h.lineStart_le hs
  have hfits := h.fits
  by_cases hlt : r < UInt32.size
  · -- Nothing wraps around, so the offset is the number counted to.
    obtain rfl : r = o := by rw [← hword, word_of_lt hlt]
    obtain ⟨hsize, hpos⟩ := h.position_of_le_stop hs hsum hle
    exact ⟨hsize, hpos.imp_right fun hpos => .inl ⟨hr, hpos⟩⟩
  · obtain rfl : r = o + UInt32.size := by
      rw [word_of_wraps (by omega) (by omega)] at hword
      omega
    exact ⟨by omega, .inr (.inr ⟨hr, h.line_lt hs (by omega)⟩)⟩

/-- The offset that a position counts to is found in its line and where the next line starts. -/
theorem offset?_of_next (h : index.Sound) (ho : o ≤ index.size) (hr : index.reach? p = some o)
    (hpos : index.position o = ⟨p.line + 1, 0⟩) : index.offset? p = some o := by
  have hfits := h.fits
  have hreach := h.reach?_position ho
  rw [hpos] at hreach
  obtain ⟨next, hn, hnext⟩ := reach?_eq_some_iff.mp hreach
  simp only at hn hnext
  refine offset?_eq_some_iff.mpr ⟨o, hr, word_of_lt (by omega), ?_⟩
  rw [hn, Option.getD_some]
  omega

/-- Where the number counted to is too large for 32 bits, what is left of it is found. -/
theorem offset?_of_wraps (h : index.Sound) (hp : p.column < UInt32.size)
    (hr : index.reach? p = some (o + UInt32.size)) : index.offset? p = some o := by
  have hfits := h.fits
  obtain ⟨start, hs, hsum⟩ := reach?_eq_some_iff.mp hr
  have hstart := h.lineStart_le hs
  have hstop := h.le_stop hs
  refine offset?_eq_some_iff.mpr ⟨_, hr, ?_, by omega⟩
  rw [word_of_wraps (by omega) (by omega)]
  omega

end Sound

end LineIndex

/-- **What a line and a column are taken for.** In a text that is short enough for 32-bit offsets,
an offset within the text is found for its own position. Apart from that one is found in two cases
only: the start of a line, for the column just past the newline of the line before, and an offset
before the line, for a column so large that the sum wraps around. -/
theorem offset?_exact {text : String} (h : width text.toList < UInt32.size) {p : Position}
    (hp : p.column < UInt32.size) (o : Nat) :
    (LineIndex.ofText text).offset? p = some o ↔ o ≤ width text.toList ∧
      ((LineIndex.ofText text).position o = p ∨
        (LineIndex.ofText text).reach? p = some o ∧
          (LineIndex.ofText text).position o = ⟨p.line + 1, 0⟩ ∨
        (LineIndex.ofText text).reach? p = some (o + UInt32.size) ∧
          ((LineIndex.ofText text).position o).line < p.line) := by
  have hsound := LineIndex.sound_ofText h
  constructor
  · exact hsound.position_of_offset? hp
  · rintro ⟨ho, rfl | ⟨hr, hnext⟩ | ⟨hr, -⟩⟩
    · exact LineIndex.offset?_position hsound.sorted hsound.fits ho
    · exact hsound.offset?_of_next ho hr hnext
    · exact hsound.offset?_of_wraps hp hr

/-- The end of the second line of a text. -/
theorem offset?_exact_end :
    width "a\nbc".toList < UInt32.size ∧ (Position.mk 1 2).column < UInt32.size ∧
      ((LineIndex.ofText "a\nbc").offset? ⟨1, 2⟩ = some 4 ↔ 4 ≤ width "a\nbc".toList ∧
        ((LineIndex.ofText "a\nbc").position 4 = ⟨1, 2⟩ ∨
          (LineIndex.ofText "a\nbc").reach? ⟨1, 2⟩ = some 4 ∧
            (LineIndex.ofText "a\nbc").position 4 = ⟨2, 0⟩ ∨
          (LineIndex.ofText "a\nbc").reach? ⟨1, 2⟩ = some (4 + UInt32.size) ∧
            ((LineIndex.ofText "a\nbc").position 4).line < 1)) ∧
      (LineIndex.ofText "a\nbc").position 4 = ⟨1, 2⟩ :=
  have h : width "a\nbc".toList < UInt32.size := by decide
  ⟨h, by decide, offset?_exact h (by decide) 4, by decide⟩

/-- The column after the newline of the first line is taken for the start of the second, and from
the second line the largest column wraps around to the newline of the first. -/
theorem offset?_finds_other_lines :
    ((LineIndex.ofText "a\nbc").offset? ⟨0, 2⟩ = some 2 ∧
      (LineIndex.ofText "a\nbc").position 2 = ⟨1, 0⟩) ∧
    (LineIndex.ofText "a\nbc").offset? ⟨1, 4294967295⟩ = some 1 ∧
      (LineIndex.ofText "a\nbc").position 1 = ⟨0, 1⟩ := by
  decide

end Modelica
