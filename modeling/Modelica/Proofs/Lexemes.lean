import Mathlib.Data.List.TakeWhile
import Modelica.Token.Scan

/-!
# Lexemes

What the texts of tokens look like, said without any scanning: a `Lexeme` is a pattern of the
lexical grammar and `Lexeme.Spells` says which texts it matches. No text is matched by two patterns
(`Lexeme.spells_unique`). What the scanner works out for a pattern is the longest start of a text
that it matches (`Lexeme.Reaches`), and a quoted text or a block comment that is closed has only one
such start (`Lexeme.Quoted.closingQuote_eq`, `Lexeme.commentEnd_eq`).
-/

namespace Modelica

/-- The patterns of the lexical grammar. -/
inductive Lexeme where
  | whitespace | lineComment | blockComment | byteOrderMark | word | quotedName | integer | real
  | string
  /-- A punctuation mark. -/
  | fixed (kind : Kind)
  deriving DecidableEq

namespace Lexeme

open Pattern

/-- One digit or more. -/
def Digits (cs : List Char) : Prop := cs ≠ [] ∧ ∀ c ∈ cs, isDigit c = true

inductive Exponent : List Char → Prop
  | unsigned {e : Char} {ds : List Char} : e = 'e' ∨ e = 'E' → Digits ds → Exponent (e :: ds)
  | signed {e s : Char} {ds : List Char} :
      e = 'e' ∨ e = 'E' → s = '+' ∨ s = '-' → Digits ds → Exponent (e :: s :: ds)

/-- A number with a point or an exponent. -/
inductive RealNumber : List Char → Prop
  | point {w f e : List Char} :
      Digits w → (∀ c ∈ f, isDigit c = true) → e = [] ∨ Exponent e →
        RealNumber (w ++ '.' :: (f ++ e))
  | scaled {w e : List Char} : Digits w → Exponent e → RealNumber (w ++ e)
  | fraction {f e : List Char} : Digits f → e = [] ∨ Exponent e → RealNumber ('.' :: (f ++ e))

/-- What follows an opening quote up to and with the first quote that no backslash hides. Where the
text may not span lines neither a line end nor a hidden one comes before. -/
inductive Quoted (quote : Char) (spansLines : Bool) : List Char → Prop
  | close : Quoted quote spansLines [quote]
  | hidden {c : Char} {cs : List Char} : spansLines = true ∨ isLineEnd c = false →
      Quoted quote spansLines cs → Quoted quote spansLines ('\\' :: c :: cs)
  | plain {c : Char} {cs : List Char} : c ≠ '\\' → c ≠ quote →
      spansLines = true ∨ isLineEnd c = false →
      Quoted quote spansLines cs → Quoted quote spansLines (c :: cs)

/-- The texts that a pattern matches. -/
inductive Spells : Lexeme → List Char → Prop
  | whitespace {cs : List Char} : cs ≠ [] → (∀ c ∈ cs, isBlank c = true) → Spells .whitespace cs
  | lineComment {cs : List Char} : (∀ c ∈ cs, isLineEnd c = false) →
      Spells .lineComment ('/' :: '/' :: cs)
  /-- Nowhere before its end has a comment a `*/`. -/
  | blockComment {cs : List Char} : ¬ ['*', '/'] <:+: cs ++ ['*'] →
      Spells .blockComment ('/' :: '*' :: (cs ++ ['*', '/']))
  | byteOrderMark : Spells .byteOrderMark [Pattern.byteOrderMark]
  | word {c : Char} {cs : List Char} : isLetter c = true →
      (∀ d ∈ cs, (isLetter d || isDigit d) = true) → Spells .word (c :: cs)
  | quotedName {cs : List Char} : Quoted '\'' false cs → Spells .quotedName ('\'' :: cs)
  | integer {cs : List Char} : Digits cs → Spells .integer cs
  | real {cs : List Char} : RealNumber cs → Spells .real cs
  | string {cs : List Char} : Quoted '"' true cs → Spells .string ('"' :: cs)
  | fixed {k : Kind} {cs : List Char} : k ∈ Kind.punctuation →
      k.spelling? = some (String.ofList cs) → Spells (.fixed k) cs

/-- The kind of the tokens that a pattern matches. A word is a keyword when it is in the list of
keywords, and a byte-order mark is good at the start of a file only. -/
def kind (opensFile : Bool) (text : String) : Lexeme → Kind
  | whitespace => .whitespace
  | lineComment => .lineComment
  | blockComment => .blockComment
  | byteOrderMark => if opensFile then .byteOrderMark else .error
  | word => (Kind.keyword? text).getD .ident
  | quotedName => .ident
  | integer => .unsignedInteger
  | real => .unsignedReal
  | string => .string
  | fixed k => k

/-! ## Characters -/

theorem isBlank_iff {c : Char} :
    isBlank c = true ↔ c = ' ' ∨ c = '\t' ∨ c = '\r' ∨ c = '\n' ∨ c = '\x0c' := by
  simp [isBlank, or_assoc]

theorem isDigit_iff {c : Char} : isDigit c = true ↔ 48 ≤ c.toNat ∧ c.toNat ≤ 57 := by
  simp only [isDigit, Bool.and_eq_true, decide_eq_true_eq]
  exact Iff.rfl

theorem isLetter_iff {c : Char} : isLetter c = true ↔
    97 ≤ c.toNat ∧ c.toNat ≤ 122 ∨ 65 ≤ c.toNat ∧ c.toNat ≤ 90 ∨ c = '_' := by
  simp only [isLetter, Bool.or_eq_true, Bool.and_eq_true, decide_eq_true_eq, beq_iff_eq, or_assoc]
  exact Iff.rfl

theorem isLetter_of_isDigit {c : Char} (h : isDigit c = true) : isLetter c = false := by
  rw [isDigit_iff] at h
  refine Bool.eq_false_iff.mpr fun hl => ?_
  rcases isLetter_iff.mp hl with hl | hl | rfl
  · omega
  · omega
  · exact absurd h (by decide)

theorem isBlank_of_isDigit {c : Char} (h : isDigit c = true) : isBlank c = false := by
  refine Bool.eq_false_iff.mpr fun hb => ?_
  rcases isBlank_iff.mp hb with rfl | rfl | rfl | rfl | rfl <;> cases h

theorem isBlank_of_isLetter {c : Char} (h : isLetter c = true) : isBlank c = false := by
  refine Bool.eq_false_iff.mpr fun hb => ?_
  rcases isBlank_iff.mp hb with rfl | rfl | rfl | rfl | rfl <;> cases h

theorem Exponent.exists_head {cs : List Char} (h : Exponent cs) :
    ∃ e rest, cs = e :: rest ∧ (e = 'e' ∨ e = 'E') := by
  cases h with
  | unsigned he => exact ⟨_, _, rfl, he⟩
  | signed he => exact ⟨_, _, rfl, he⟩

/-! ## One pattern for a text -/

/-- The pattern that matches a text if any does. -/
def ofText : List Char → Lexeme
  | [] => whitespace
  | c :: cs =>
    if isBlank c then whitespace
    else if c = '/' ∧ cs.head? = some '/' then lineComment
    else if c = '/' ∧ cs.head? = some '*' then blockComment
    else if c = Pattern.byteOrderMark then byteOrderMark
    else if isLetter c then word
    else if c = '\'' then quotedName
    else if c = '"' then string
    else if isDigit c || (c == '.' && cs.any isDigit) then
      if (c :: cs).all isDigit then integer else real
    else
      fixed ((Kind.punctuation.find? (·.spelling? == some (String.ofList (c :: cs)))).getD .error)

theorem ofText_fixed : ∀ k ∈ Kind.punctuation, ∀ s ∈ k.spelling?, ofText s.toList = .fixed k := by
  decide

theorem ofText_number {c : Char} {cs : List Char}
    (h : isDigit c = true ∨ c = '.' ∧ cs.any isDigit = true) :
    ofText (c :: cs) = if (c :: cs).all isDigit then integer else real := by
  rcases h with h | ⟨rfl, h⟩
  · have hne : ∀ d, isDigit d = false → c ≠ d := fun d hd he => by rw [he, hd] at h; cases h
    simp [ofText, h, isBlank_of_isDigit h, isLetter_of_isDigit h, hne '/' rfl, hne '\'' rfl,
      hne '"' rfl, hne Pattern.byteOrderMark rfl]
  · simp [ofText, h, isBlank, isLetter, Pattern.byteOrderMark]

/-- A number with a point or an exponent starts as a number does and has more than digits. -/
theorem RealNumber.exists_head {cs : List Char} (h : RealNumber cs) :
    ∃ c rest, cs = c :: rest ∧ (isDigit c = true ∨ c = '.' ∧ rest.any isDigit = true) ∧
      cs.all isDigit = false := by
  have hpoint : isDigit '.' = false := rfl
  cases h with
  | @point w f e hw =>
    obtain ⟨hne, hd⟩ := hw
    obtain ⟨c, w, rfl⟩ := List.exists_cons_of_ne_nil hne
    exact ⟨c, _, rfl, .inl (hd c List.mem_cons_self), by simp [hpoint]⟩
  | @scaled w e hw he =>
    obtain ⟨hne, hd⟩ := hw
    obtain ⟨c, w, rfl⟩ := List.exists_cons_of_ne_nil hne
    obtain ⟨d, e, rfl, hd' | hd'⟩ := he.exists_head <;>
      exact ⟨c, _, rfl, .inl (hd c List.mem_cons_self), by simp [hd', isDigit]⟩
  | @fraction f e hf =>
    obtain ⟨hne, hd⟩ := hf
    obtain ⟨c, f, rfl⟩ := List.exists_cons_of_ne_nil hne
    exact ⟨'.', _, rfl, .inr ⟨rfl, by simp [hd c List.mem_cons_self]⟩, by simp [hpoint]⟩

theorem ofText_eq {s : Lexeme} {cs : List Char} (h : s.Spells cs) : ofText cs = s := by
  cases h with
  | whitespace hne hb =>
    obtain ⟨c, cs, rfl⟩ := List.exists_cons_of_ne_nil hne
    simp [ofText, hb c List.mem_cons_self]
  | lineComment => simp [ofText, isBlank]
  | blockComment => simp [ofText, isBlank]
  | byteOrderMark => rfl
  | @word c cs hc =>
    have hne : ∀ d, isLetter d = false → c ≠ d := fun d hd he => by rw [he, hd] at hc; cases hc
    simp [ofText, hc, isBlank_of_isLetter hc, hne '/' rfl, hne Pattern.byteOrderMark rfl]
  | quotedName => simp [ofText, isBlank, isLetter, Pattern.byteOrderMark]
  | integer hd =>
    obtain ⟨c, cs, rfl⟩ := List.exists_cons_of_ne_nil hd.1
    rw [ofText_number (.inl (hd.2 c List.mem_cons_self)), if_pos (List.all_eq_true.mpr hd.2)]
  | real hr =>
    obtain ⟨c, cs, rfl, hc, hall⟩ := hr.exists_head
    rw [ofText_number hc, hall, if_neg Bool.false_ne_true]
  | string => simp [ofText, isBlank, isLetter, Pattern.byteOrderMark]
  | @fixed k cs hk hs => simpa using ofText_fixed k hk _ hs

/-- No text is matched by two patterns. -/
theorem spells_unique {s s' : Lexeme} {cs : List Char} (h : s.Spells cs) (h' : s'.Spells cs) :
    s = s' :=
  (ofText_eq h).symm.trans (ofText_eq h')

theorem Spells.ne_nil {s : Lexeme} {cs : List Char} (h : s.Spells cs) : cs ≠ [] := by
  cases h with
  | whitespace hne _ => exact hne
  | integer hd => exact hd.1
  | real hr =>
    obtain ⟨c, rest, rfl, -⟩ := hr.exists_head
    exact List.cons_ne_nil c rest
  | @fixed k _ hk hs =>
    rintro rfl
    revert k
    decide
  | _ => exact List.cons_ne_nil _ _

/-! ## What the scanner works out -/

/-- `reach` finds the longest start of any text that has a property. -/
structure Reaches (reach : List Char → Nat) (P : List Char → Prop) : Prop where
  found : ∀ cs, 0 < reach cs → ∃ l, l <+: cs ∧ l.length = reach cs ∧ P l
  most : ∀ l rest, P l → l.length ≤ reach (l ++ rest)

theorem length_le_run {p : Char → Bool} {l : List Char} (h : ∀ c ∈ l, p c = true)
    (rest : List Char) : l.length ≤ run p (l ++ rest) := by
  simp [run, List.takeWhile_append_of_pos h]

/-- A run ends where the class of characters ends. -/
theorem run_append_cons {p : Char → Bool} {l : List Char} (h : ∀ c ∈ l, p c = true) {c : Char}
    (hc : p c = false) (rest : List Char) : run p (l ++ c :: rest) = l.length := by
  simp [run, List.takeWhile_append_of_pos h, hc]

theorem drop_run (p : Char → Bool) (cs : List Char) : cs.drop (run p cs) = cs.dropWhile p :=
  (congrArg (List.drop _) List.takeWhile_append_dropWhile.symm).trans List.drop_left

theorem forall_takeWhile (p : Char → Bool) (cs : List Char) :
    ∀ c ∈ cs.takeWhile p, p c = true := fun _ => List.mem_takeWhile_imp

theorem reaches_run (p : Char → Bool) :
    Reaches (run p) fun cs => cs ≠ [] ∧ ∀ c ∈ cs, p c = true where
  found cs h := ⟨cs.takeWhile p, List.takeWhile_prefix p, rfl,
    fun he => by simp [run, he] at h, forall_takeWhile p cs⟩
  most l rest h := length_le_run h.2 rest

theorem reaches_lineComment : Reaches Pattern.lineComment (Spells .lineComment) where
  found cs h := by
    unfold Pattern.lineComment at h ⊢
    split
    · rename_i rest
      refine ⟨'/' :: '/' :: rest.takeWhile (!isLineEnd ·), by simp [List.takeWhile_prefix], ?_, ?_⟩
      · simp only [List.length_cons, run]
        omega
      · exact .lineComment fun c hc => by simpa using List.mem_takeWhile_imp hc
    · rename_i hn
      split at h
      · exact absurd rfl (hn _)
      · cases h
  most l rest h := by
    cases h with
    | @lineComment cs hcs =>
      have hle := length_le_run (p := (!isLineEnd ·)) (l := cs) (by simpa using hcs) rest
      simp only [List.cons_append, Pattern.lineComment, List.length_cons]
      omega

theorem reaches_exactly (spelling : List Char) (P : List Char → Prop)
    (h : ∀ l, P l ↔ l = spelling) : Reaches (exactly spelling) P where
  found cs hpos := by
    unfold exactly at hpos ⊢
    split at hpos
    · rename_i hs
      exact ⟨spelling, List.isPrefixOf_iff_prefix.mp hs, by rw [if_pos hs], (h _).mpr rfl⟩
    · cases hpos
  most l rest hl := by
    rw [(h l).mp hl, exactly, if_pos (List.isPrefixOf_iff_prefix.mpr (List.prefix_append _ _))]

theorem reaches_word : Reaches Pattern.word (Spells .word) where
  found cs h := by
    cases cs with
    | nil => cases h
    | cons c cs =>
      simp only [Pattern.word] at h ⊢
      split at h
      · rename_i hc
        refine ⟨c :: cs.takeWhile _, List.cons_prefix_cons.mpr ⟨rfl, List.takeWhile_prefix _⟩, ?_,
          .word hc (forall_takeWhile _ cs)⟩
        rw [if_pos hc, List.length_cons, run, Nat.add_comm]
      · cases h
  most l rest h := by
    cases h with
    | @word c cs hc hcs =>
      have hle := length_le_run hcs rest
      simp only [List.cons_append, Pattern.word, hc, ↓reduceIte, List.length_cons]
      omega

theorem isDigit_of_exponent {e : Char} (h : e = 'e' ∨ e = 'E') : isDigit e = false := by
  rcases h with rfl | rfl <;> rfl

theorem digits_takeWhile {cs : List Char} (h : run isDigit cs ≠ 0) :
    Digits (cs.takeWhile isDigit) :=
  ⟨fun he => h (by simp [run, he]), forall_takeWhile _ cs⟩

theorem isSign_iff {s : Char} : (s == '+' || s == '-') = true ↔ s = '+' ∨ s = '-' := by simp

theorem isExponent_iff {e : Char} : (e == 'e' || e == 'E') = true ↔ e = 'e' ∨ e = 'E' := by simp

theorem exists_exponent_of_pos {cs : List Char} (h : 0 < Pattern.exponent cs) :
    ∃ e, e <+: cs ∧ e.length = Pattern.exponent cs ∧ Exponent e := by
  rcases cs with _ | ⟨e, _ | ⟨s, cs⟩⟩
  · cases h
  · simp [Pattern.exponent] at h
  · simp only [Pattern.exponent] at h ⊢
    split_ifs at h ⊢ with he hs hn hn
    · cases h
    · refine ⟨e :: s :: cs.takeWhile isDigit, by simp [List.takeWhile_prefix], ?_,
        .signed (isExponent_iff.mp he) (isSign_iff.mp hs) (digits_takeWhile hn)⟩
      simp only [List.length_cons, run]
      omega
    · cases h
    · refine ⟨e :: (s :: cs).takeWhile isDigit,
        List.cons_prefix_cons.mpr ⟨rfl, List.takeWhile_prefix _⟩, ?_,
        .unsigned (isExponent_iff.mp he) (digits_takeWhile hn)⟩
      rw [List.length_cons, run, Nat.add_comm]
    · cases h

/-- No exponent at the start of a text is longer than what is found there. -/
theorem length_le_exponent {l : List Char} (h : Exponent l) (rest : List Char) :
    l.length ≤ Pattern.exponent (l ++ rest) := by
  cases h with
  | @unsigned e ds he hd =>
    have hle := length_le_run hd.2 rest
    obtain ⟨d, ds, rfl⟩ := List.exists_cons_of_ne_nil hd.1
    have hs : ¬ (d == '+' || d == '-') = true := fun hs => by
      have := hd.2 d List.mem_cons_self
      rcases isSign_iff.mp hs with rfl | rfl <;> cases this
    simp only [List.cons_append, List.length_cons] at hle ⊢
    simp only [Pattern.exponent, if_pos (isExponent_iff.mpr he), if_neg hs]
    rw [if_neg (by omega)]
    omega
  | @signed e s ds he hs hd =>
    have hle := length_le_run hd.2 rest
    have hpos := List.length_pos_iff.mpr hd.1
    simp only [List.cons_append, List.length_cons, Pattern.exponent,
      if_pos (isExponent_iff.mpr he), if_pos (isSign_iff.mpr hs)]
    rw [if_neg (by omega)]
    omega

/-- An exponent that may be missing. -/
theorem exists_exponent (cs : List Char) :
    ∃ e, e <+: cs ∧ e.length = Pattern.exponent cs ∧ (e = [] ∨ Exponent e) := by
  rcases Nat.eq_zero_or_pos (Pattern.exponent cs) with h | h
  · exact ⟨[], List.nil_prefix, h.symm, .inl rfl⟩
  · obtain ⟨e, hp, hl, he⟩ := exists_exponent_of_pos h
    exact ⟨e, hp, hl, .inr he⟩

theorem real_point {w : List Char} (hw : ∀ c ∈ w, isDigit c = true) (rest : List Char) :
    Pattern.real (w ++ '.' :: rest) =
      if w = [] ∧ run isDigit rest = 0 then 0
      else w.length + 1 + run isDigit rest + Pattern.exponent (rest.drop (run isDigit rest)) := by
  simp [Pattern.real, run_append_cons hw (c := '.') rfl]

theorem real_scaled {w : List Char} (hw : ∀ c ∈ w, isDigit c = true) {c : Char}
    (hc : isDigit c = false) (hp : c ≠ '.') (rest : List Char) :
    Pattern.real (w ++ c :: rest) =
      if w = [] ∨ Pattern.exponent (c :: rest) = 0 then 0
      else w.length + Pattern.exponent (c :: rest) := by
  simp only [Pattern.real, run_append_cons hw hc, List.drop_left]
  split
  · rename_i he
    exact absurd (List.cons.inj he).1 hp
  · simp

/-- Digits and an exponent after them, as far as both go. -/
theorem length_le_fraction {f e : List Char} (hf : ∀ c ∈ f, isDigit c = true)
    (he : e = [] ∨ Exponent e) (rest : List Char) :
    f.length + e.length ≤ run isDigit (f ++ (e ++ rest)) +
      Pattern.exponent ((f ++ (e ++ rest)).drop (run isDigit (f ++ (e ++ rest)))) := by
  rcases he with rfl | he
  · have := length_le_run hf rest
    simp only [List.nil_append, List.length_nil]
    omega
  · have hle := length_le_exponent he rest
    obtain ⟨c, e, rfl, hc⟩ := he.exists_head
    rw [List.cons_append] at hle ⊢
    rw [run_append_cons hf (isDigit_of_exponent hc), List.drop_left]
    omega

/-- What is found where a point follows the digits. -/
theorem exists_real_of_point {w rest : List Char} (hw : ∀ c ∈ w, isDigit c = true)
    (h : 0 < Pattern.real (w ++ '.' :: rest)) :
    ∃ l, l <+: w ++ '.' :: rest ∧ l.length = Pattern.real (w ++ '.' :: rest) ∧ RealNumber l := by
  rw [real_point hw] at h ⊢
  split_ifs at h ⊢ with hn
  · cases h
  have hf := forall_takeWhile isDigit rest
  obtain ⟨e, hpe, hl, he⟩ := exists_exponent (rest.dropWhile isDigit)
  refine ⟨w ++ '.' :: (rest.takeWhile isDigit ++ e), ?_, ?_, ?_⟩
  · rw [List.prefix_append_right_inj, List.cons_prefix_cons]
    refine ⟨rfl, ?_⟩
    conv => rhs; rw [← List.takeWhile_append_dropWhile (p := isDigit) (l := rest)]
    exact (List.prefix_append_right_inj _).mpr hpe
  · rw [drop_run, ← hl]
    simp only [List.length_append, List.length_cons, run]
    omega
  · by_cases hne : w = []
    · subst hne
      exact .fraction (digits_takeWhile fun h0 => hn ⟨rfl, h0⟩) he
    · exact .point ⟨hne, hw⟩ hf he

/-- What is found where no point follows the digits. -/
theorem exists_real_of_scaled {w rest : List Char} {c : Char} (hw : ∀ c ∈ w, isDigit c = true)
    (hc : isDigit c = false) (hp : c ≠ '.') (h : 0 < Pattern.real (w ++ c :: rest)) :
    ∃ l, l <+: w ++ c :: rest ∧ l.length = Pattern.real (w ++ c :: rest) ∧ RealNumber l := by
  rw [real_scaled hw hc hp] at h ⊢
  split_ifs at h ⊢ with hn
  · cases h
  rw [not_or] at hn
  obtain ⟨e, hpe, hl, he⟩ := exists_exponent_of_pos (Nat.pos_of_ne_zero hn.2)
  exact ⟨w ++ e, (List.prefix_append_right_inj _).mpr hpe, by rw [List.length_append, hl],
    .scaled ⟨hn.1, hw⟩ he⟩

/-- No real number at the start of a text is longer than what is found there. -/
theorem length_le_real {l : List Char} (h : RealNumber l) (rest : List Char) :
    l.length ≤ Pattern.real (l ++ rest) := by
  cases h with
  | @point w f e hw hf he =>
    have hle := length_le_fraction hf he rest
    rw [List.append_assoc, List.cons_append, List.append_assoc, real_point hw.2,
      if_neg fun hn => hw.1 hn.1]
    simp only [List.length_append, List.length_cons]
    omega
  | @scaled w e hw he =>
    have hle := length_le_exponent he rest
    obtain ⟨c, e, rfl, hc⟩ := he.exists_head
    rw [List.cons_append, List.length_cons] at hle
    rw [List.append_assoc, List.cons_append, real_scaled hw.2 (isDigit_of_exponent hc),
      if_neg (not_or.mpr ⟨hw.1, by omega⟩)]
    · simp only [List.length_append, List.length_cons]
      omega
    · rcases hc with rfl | rfl <;> decide
  | @fraction f e hf he =>
    have hle := length_le_fraction hf.2 he rest
    have hrun := length_le_run hf.2 (e ++ rest)
    have hpos := List.length_pos_iff.mpr hf.1
    have hreal := real_point (w := []) nofun (f ++ (e ++ rest))
    rw [if_neg fun hn => by omega, List.nil_append, List.length_nil] at hreal
    rw [List.cons_append, List.append_assoc, hreal]
    simp only [List.length_append, List.length_cons]
    omega

theorem reaches_real : Reaches Pattern.real RealNumber where
  found cs h := by
    have hcs := List.takeWhile_append_dropWhile (p := isDigit) (l := cs)
    have hw := forall_takeWhile isDigit cs
    cases hr : cs.dropWhile isDigit with
    | nil => simp [Pattern.real, drop_run, hr, Pattern.exponent] at h
    | cons c rest =>
      have hc : isDigit c = false := by
        have := List.head_dropWhile_not isDigit (l := cs) (by simp [hr])
        simpa [hr] using this
      rw [hr] at hcs
      rw [← hcs] at h ⊢
      by_cases hp : c = '.'
      · subst hp
        exact exists_real_of_point hw h
      · exact exists_real_of_scaled hw hc hp h
  most l rest h := length_le_real h rest

theorem Quoted.ne_nil {quote : Char} {spansLines : Bool} {cs : List Char}
    (h : Quoted quote spansLines cs) : cs ≠ [] := by
  cases h <;> exact List.cons_ne_nil _ _

/-- A quoted text that is closed ends where the scanner finds its end. -/
theorem Quoted.closingQuote_eq {quote : Char} {spansLines : Bool} {l : List Char}
    (h : Quoted quote spansLines l) (hquote : quote ≠ '\\' ∧ isLineEnd quote = false)
    (rest : List Char) : closingQuote quote spansLines (l ++ rest) = some l.length := by
  induction h with
  | close => cases rest <;> simp [closingQuote, hquote]
  | @hidden c cs hc _ ih =>
    have hb : isLineEnd '\\' = false := rfl
    simp [closingQuote, hb, hc, ih]
  | @plain c cs hb hq hc hcs ih =>
    obtain ⟨d, ds, rfl⟩ := List.exists_cons_of_ne_nil hcs.ne_nil
    have hc' : (isLineEnd c && !spansLines) = false := by
      rcases hc with hc | hc <;> simp [hc]
    simp only [List.cons_append] at ih ⊢
    simp [closingQuote, hc', hb, hq, ih]

theorem closingQuote_lineEnd {quote : Char} (hquote : isLineEnd quote = false) {c : Char}
    (hc : isLineEnd c = true) (cs : List Char) : closingQuote quote false (c :: cs) = none := by
  have hne : c ≠ quote := fun he => by rw [he, hquote] at hc; cases hc
  cases cs <;> simp [closingQuote, hc, hne]

theorem exists_quoted {quote : Char} {spansLines : Bool} (hquote : isLineEnd quote = false)
    {cs : List Char} {n : Nat} (h : closingQuote quote spansLines cs = some n) :
    ∃ l, l <+: cs ∧ l.length = n ∧ Quoted quote spansLines l := by
  fun_induction closingQuote quote spansLines cs generalizing n with
  | case1 | case3 | case4 => cases h
  | case2 => cases h; exact ⟨[quote], List.prefix_rfl, rfl, .close⟩
  | case5 c d rest _ hd ih =>
    obtain ⟨m, hm, rfl⟩ := Option.map_eq_some_iff.mp h
    obtain ⟨l, hp, rfl, hl⟩ := ih hm
    obtain ⟨rfl, hd'⟩ : c = '\\' ∧ (spansLines = true ∨ isLineEnd d = false) := by simpa using hd
    exact ⟨'\\' :: d :: l, by simpa using hp, rfl, .hidden hd' hl⟩
  | case6 => cases h; exact ⟨[quote], by simp, rfl, .close⟩
  | case7 c d rest hc hd hne ih =>
    obtain ⟨m, hm, rfl⟩ := Option.map_eq_some_iff.mp h
    obtain ⟨l, hp, rfl, hl⟩ := ih hm
    refine ⟨c :: l, List.cons_prefix_cons.mpr ⟨rfl, hp⟩, rfl, .plain ?_ hne ?_ hl⟩
    · -- a backslash that hides nothing stands before a line end, which ends the search
      rintro rfl
      simp only [decide_true, Bool.true_and, Bool.or_eq_true, Bool.not_eq_true', not_or,
        Bool.not_eq_true, Bool.not_eq_false] at hd
      rw [hd.1, closingQuote_lineEnd hquote hd.2] at hm
      cases hm
    · cases spansLines with
      | false => exact .inr (by simpa using hc)
      | true => exact .inl rfl

/-- A block comment that is closed ends where the scanner finds its end. -/
theorem commentEnd_eq {l : List Char} (h : ¬ ['*', '/'] <:+: l ++ ['*']) (rest : List Char) :
    commentEnd (l ++ '*' :: '/' :: rest) = some (l.length + 2) := by
  induction l with
  | nil => rfl
  | cons c l ih =>
    rw [List.cons_append, List.infix_cons_iff, not_or] at h
    have hne : ∀ ds, ¬ (c = '*' ∧ l ++ '*' :: '/' :: rest = '/' :: ds) := by
      rintro ds ⟨rfl, hl⟩
      cases l with
      | nil => simp at hl
      | cons d l => exact h.1 (by simp [(List.cons.inj hl).1])
    rw [List.cons_append, commentEnd.eq_2, ih h.2]
    · rfl
    · intro ds hc hl
      exact hne ds ⟨hc, hl⟩

theorem exists_comment {cs : List Char} {n : Nat} (h : commentEnd cs = some n) :
    ∃ l, l ++ ['*', '/'] <+: cs ∧ n = l.length + 2 ∧ ¬ ['*', '/'] <:+: l ++ ['*'] := by
  fun_induction commentEnd cs generalizing n with
  | case1 rest =>
    cases h
    exact ⟨[], by simp, rfl, by decide⟩
  | case2 c rest hne ih =>
    obtain ⟨m, hm, rfl⟩ := Option.map_eq_some_iff.mp h
    obtain ⟨l, hp, rfl, hl⟩ := ih hm
    refine ⟨c :: l, List.cons_prefix_cons.mpr ⟨rfl, hp⟩, rfl, ?_⟩
    rw [List.cons_append, List.infix_cons_iff, not_or]
    refine ⟨fun hs => ?_, hl⟩
    obtain ⟨rfl, hs'⟩ := List.cons_prefix_cons.mp hs
    cases l with
    | nil => simp at hs'
    | cons d l =>
      obtain ⟨rfl, -⟩ := List.cons_prefix_cons.mp hs'
      obtain ⟨ds, rfl⟩ := hp
      exact hne _ rfl rfl
  | case3 => cases h

theorem not_infix_of_commentEnd {cs : List Char} (h : commentEnd cs = none) :
    ¬ ['*', '/'] <:+: cs := by
  fun_induction commentEnd cs with
  | case1 => cases h
  | case2 c rest hne ih =>
    rw [List.infix_cons_iff, not_or]
    refine ⟨fun hp => ?_, ih (Option.map_eq_none_iff.mp h)⟩
    obtain ⟨ds, hds⟩ := hp
    simp only [List.cons_append, List.nil_append, List.cons.injEq] at hds
    exact hne ds hds.1.symm hds.2.symm
  | case3 => simp

end Lexeme

end Modelica
