import Mathlib.Data.List.Forall2
import Modelica.Proofs.Lexemes
import Modelica.Proofs.Tokens

/-!
# Maximal munch

Every token of a text is the longest start of what is left of the text that any pattern matches,
with the kind of that pattern. Where a quoted text or a comment is opened and never closed, or no
pattern matches, the token is bad, and its cause is the actual one.

* `Lexeme.Longest`, `Unclosed`: what a text may start with;
* `Token.Next`: what the next token of a text has to be, which leaves no choice
  (`Token.Next.unique`);
* `Token.next_taken`: what the scanner takes is that token;
* `tokenize_maximal_munch`: the statement for a whole text.
-/

namespace Modelica

/-- `l` is the longest start of a text that any pattern matches, and only this one does. -/
structure Lexeme.Longest (s : Lexeme) (l cs : List Char) : Prop where
  starts : l <+: cs
  spells : s.Spells l
  only : ∀ s' : Lexeme, s'.Spells l → s' = s
  longest : ∀ (s' : Lexeme) (l' : List Char), l' <+: cs → s'.Spells l' → l'.length ≤ l.length

/-- A text starts with something that is opened and never closed: what the bad token takes of the
text, and its cause. -/
inductive Unclosed : List Char → List Char → Code → Prop
  | string {cs : List Char} : (∀ l, l <+: cs → ¬ Lexeme.Quoted '"' true l) →
      Unclosed ('"' :: cs) ('"' :: cs.takeWhile (!Pattern.isLineEnd ·)) .unterminatedString
  | name {cs : List Char} : (∀ l, l <+: cs → ¬ Lexeme.Quoted '\'' false l) →
      Unclosed ('\'' :: cs) ('\'' :: cs.takeWhile (!Pattern.isLineEnd ·)) .unterminatedName
  | comment {cs : List Char} : ¬ ['*', '/'] <:+: cs →
      Unclosed ('/' :: '*' :: cs) ('/' :: '*' :: cs) .unterminatedComment

theorem Unclosed.unique {cs l l' : List Char} {code code' : Code} (h : Unclosed cs l code)
    (h' : Unclosed cs l' code') : l = l' ∧ code = code' := by
  cases h <;> cases h' <;> exact ⟨rfl, rfl⟩

namespace Token

/-- What the next token of a text may be. -/
inductive Next (t : Token) (opensFile : Bool) (cs : List Char) : Prop
  | lexeme (s : Lexeme) : (∀ l code, ¬ Unclosed cs l code) → s.Longest t.text.toList cs →
      t.kind = s.kind opensFile t.text →
      t.fault? = (if s = .byteOrderMark ∧ opensFile = false then some .misplacedMark else none) →
      Next t opensFile cs
  | unclosed (code : Code) : Unclosed cs t.text.toList code → t.kind = .error →
      t.fault? = some code → Next t opensFile cs
  /-- A character that starts nothing is a bad token of its own. -/
  | stray (c : Char) (rest : List Char) : cs = c :: rest → (∀ l code, ¬ Unclosed cs l code) →
      (∀ (s : Lexeme) (l : List Char), l <+: cs → ¬ s.Spells l) → t.text.toList = [c] →
      t.kind = .error → t.fault? = some .invalidCharacter → Next t opensFile cs

end Token

/-! ## The longest match of the simple patterns -/

namespace Lexeme

open Pattern

/-- What the scanner finds by trying every pattern. -/
def simple : List Lexeme :=
  [.whitespace, .lineComment, .byteOrderMark, .word, .integer, .real] ++
    Kind.punctuation.map .fixed

/-- The kind that the scanner starts from. -/
def scannedKind : Lexeme → Kind
  | byteOrderMark => .byteOrderMark
  | word => .ident
  | s => s.kind true ""

/-- A pattern of the scanner finds the texts of a lexeme. -/
structure Finds (p : Pattern) (s : Lexeme) : Prop where
  kind : p.kind = s.scannedKind
  reaches : Reaches p.reach s.Spells

theorem finds_fixed {k : Kind} (hk : k ∈ Kind.punctuation) :
    Finds ⟨k, exactly (k.spelling?.getD "").toList⟩ (.fixed k) where
  kind := rfl
  reaches := by
    have hs : ∀ k ∈ Kind.punctuation, k.spelling?.isSome = true := by decide
    obtain ⟨s, hs⟩ := Option.isSome_iff_exists.mp (hs k hk)
    refine reaches_exactly _ _ fun l => ⟨fun h => ?_, ?_⟩
    · cases h with
      | fixed _ hl => simp [hl]
    · rintro rfl
      exact .fixed hk (by simp [hs])

theorem Reaches.of_iff {reach : List Char → Nat} {P Q : List Char → Prop}
    (h : Reaches reach P) (hiff : ∀ l, P l ↔ Q l) : Reaches reach Q where
  found cs hpos := by
    obtain ⟨l, hp, hl, h⟩ := h.found cs hpos
    exact ⟨l, hp, hl, (hiff l).mp h⟩
  most l rest hl := h.most l rest ((hiff l).mpr hl)

/-- The patterns of the scanner in their order. -/
theorem finds_all : List.Forall₂ Finds all simple := by
  refine List.rel_append ?_ (List.forall₂_map_left_iff.mpr (List.forall₂_map_right_iff.mpr ?_))
  · have hwhitespace : ∀ l, (l ≠ [] ∧ ∀ c ∈ l, isBlank c = true) ↔ Spells .whitespace l :=
      fun l => ⟨fun h => .whitespace h.1 h.2, fun h => by cases h; exact ⟨‹_›, ‹_›⟩⟩
    have hmark : ∀ l, Spells .byteOrderMark l ↔ l = [Pattern.byteOrderMark] :=
      fun l => ⟨fun h => by cases h; rfl, fun h => h ▸ .byteOrderMark⟩
    have hinteger : ∀ l, Digits l ↔ Spells .integer l :=
      fun l => ⟨.integer, fun h => by cases h; assumption⟩
    have hreal : ∀ l, RealNumber l ↔ Spells .real l :=
      fun l => ⟨.real, fun h => by cases h; assumption⟩
    exact .cons ⟨rfl, (reaches_run isBlank).of_iff hwhitespace⟩ <|
      .cons ⟨rfl, reaches_lineComment⟩ <| .cons ⟨rfl, reaches_exactly _ _ hmark⟩ <|
      .cons ⟨rfl, reaches_word⟩ <| .cons ⟨rfl, (reaches_run isDigit).of_iff hinteger⟩ <|
      .cons ⟨rfl, reaches_real.of_iff hreal⟩ .nil
  · exact List.forall₂_same.mpr fun k hk => finds_fixed hk

/-- Of several patterns the one that reaches furthest is taken. -/
theorem foldl_longest (cs : List Char) {ps : List Pattern} {ss : List Lexeme}
    (h : List.Forall₂ Finds ps ss) (best : Kind × Nat) :
    let r := ps.foldl
      (fun best p => if best.2 < p.reach cs then (p.kind, p.reach cs) else best) best
    best.2 ≤ r.2 ∧
      (r = best ∨ ∃ s ∈ ss, r.1 = s.scannedKind ∧ ∃ l, l <+: cs ∧ l.length = r.2 ∧ s.Spells l) ∧
      ∀ s ∈ ss, ∀ l, l <+: cs → s.Spells l → l.length ≤ r.2 := by
  induction h generalizing best with
  | nil => exact ⟨Nat.le_refl _, .inl rfl, fun s hs => absurd hs List.not_mem_nil⟩
  | @cons p s ps ss hp _ ih =>
    have hnext : ∃ next, next = (if best.2 < p.reach cs then (p.kind, p.reach cs) else best) ∧
        best.2 ≤ next.2 ∧ p.reach cs ≤ next.2 ∧
        (next = best ∨ 0 < p.reach cs ∧ next = (p.kind, p.reach cs)) := by
      split
      · exact ⟨_, rfl, by omega, Nat.le_refl _, .inr ⟨by omega, rfl⟩⟩
      · exact ⟨_, rfl, Nat.le_refl _, by omega, .inl rfl⟩
    obtain ⟨next, he, hbest, hreach, hnext⟩ := hnext
    obtain ⟨hle, hfound, hmost⟩ := ih next
    rw [List.foldl_cons, ← he]
    refine ⟨hbest.trans hle, ?_, List.forall_mem_cons.mpr ⟨?_, hmost⟩⟩
    · rcases hfound with hr | ⟨s', hs', hk, hl⟩
      · rcases hnext with rfl | ⟨hpos, rfl⟩
        · exact .inl hr
        · obtain ⟨l, hl⟩ := hp.reaches.found cs hpos
          exact .inr ⟨s, List.mem_cons_self, by rw [hr, hp.kind], l, by rw [hr]; exact hl⟩
      · exact .inr ⟨s', List.mem_cons_of_mem s hs', hk, hl⟩
    · rintro l ⟨rest, rfl⟩ hl
      exact (hp.reaches.most l rest hl).trans (hreach.trans hle)

theorem longestMatch_found {cs : List Char} (h : 0 < (longestMatch cs).2) :
    ∃ s ∈ simple, (longestMatch cs).1 = s.scannedKind ∧
      ∃ l, l <+: cs ∧ l.length = (longestMatch cs).2 ∧ s.Spells l := by
  rcases (foldl_longest cs finds_all (.error, 0)).2.1 with hr | hr
  · rw [longestMatch, hr] at h
    cases h
  · exact hr

theorem longestMatch_most {s : Lexeme} (hs : s ∈ simple) {l cs : List Char} (hp : l <+: cs)
    (h : s.Spells l) : l.length ≤ (longestMatch cs).2 :=
  (foldl_longest cs finds_all (.error, 0)).2.2 s hs l hp h

end Lexeme

/-! ## What the scanner takes -/

namespace Lexeme

open Pattern

/-- What starts with a quote can only be the text that the quote opens. -/
theorem Spells.of_quote {s s₀ : Lexeme} {quote : Char} {l cs : List Char}
    (ho : ∀ l, ofText (quote :: l) = s₀) (h : s.Spells l) (hp : l <+: quote :: cs) :
    ∃ l', l = quote :: l' ∧ l' <+: cs ∧ s₀.Spells (quote :: l') := by
  obtain ⟨c, l, rfl⟩ := List.exists_cons_of_ne_nil h.ne_nil
  obtain ⟨rfl, hl⟩ := List.cons_prefix_cons.mp hp
  exact ⟨l, rfl, hl, (ofText_eq h).symm.trans (ho l) ▸ h⟩

/-- What starts as a comment does is the slash or a comment. -/
theorem Spells.comment_of_slash {s : Lexeme} {l cs : List Char} (h : s.Spells l)
    (hp : l <+: '/' :: '*' :: cs) : l = ['/'] ∨ ∃ body, l = '/' :: '*' :: (body ++ ['*', '/']) ∧
      body ++ ['*', '/'] <+: cs ∧ s = .blockComment ∧ ¬ ['*', '/'] <:+: body ++ ['*'] := by
  obtain ⟨c, l, rfl⟩ := List.exists_cons_of_ne_nil h.ne_nil
  obtain ⟨rfl, htail⟩ := List.cons_prefix_cons.mp hp
  cases l with
  | nil => exact .inl rfl
  | cons d l =>
    obtain ⟨rfl, hl⟩ := List.cons_prefix_cons.mp htail
    have hs := ofText_eq h
    have hs' : ofText ('/' :: '*' :: l) = .blockComment := by simp [ofText, isBlank]
    rw [hs'] at hs
    subst hs
    cases h with
    | @blockComment body hb => exact .inr ⟨body, rfl, hl, rfl, hb⟩

theorem mem_simple {s : Lexeme} {l : List Char} (h : s.Spells l)
    (hs : s ≠ .blockComment ∧ s ≠ .quotedName ∧ s ≠ .string) : s ∈ simple := by
  cases h with
  | fixed hk _ => exact List.mem_append_right _ (List.mem_map_of_mem hk)
  | _ =>
    first
    | exact absurd rfl hs.1
    | exact absurd rfl hs.2.1
    | exact absurd rfl hs.2.2
    | simp [simple]

theorem Longest.of_spells {s : Lexeme} {l cs : List Char} (hp : l <+: cs) (h : s.Spells l)
    (hmost : ∀ (s' : Lexeme) (l' : List Char), l' <+: cs → s'.Spells l' → l'.length ≤ l.length) :
    s.Longest l cs :=
  ⟨hp, h, fun _ h' => spells_unique h' h, hmost⟩

end Lexeme

namespace Token

open Pattern Lexeme

/-- The token that the scanner cuts off a text. -/
def taken (opensFile : Bool) (cs : List Char) : Token :=
  let text := String.ofList (cs.take (measure cs).2)
  ⟨refine opensFile (measure cs).1 text, text⟩

theorem cut_cons (opensFile : Bool) (c : Char) (cs : List Char) :
    cut opensFile 0 (c :: cs) =
      taken opensFile (c :: cs) :: cut false ((measure (c :: cs)).2 - 1) cs := rfl

theorem taken_eq {opensFile : Bool} {cs l : List Char} {k : Kind} (hp : l <+: cs)
    (hm : measure cs = (k, l.length)) :
    taken opensFile cs = ⟨refine opensFile k (String.ofList l), String.ofList l⟩ := by
  simp only [taken, hm, ← List.prefix_iff_eq_take.mp hp]

theorem keyword?_ne_error {text : String} {k : Kind} (h : Kind.keyword? text = some k) :
    k ≠ .error := by
  have hk : k ∈ Kind.keywords := List.mem_of_find?_eq_some h
  rintro rfl
  exact absurd hk (by decide)

/-- A lexeme is a bad token only where it is a byte-order mark that does not open the file. -/
theorem fault?_lexeme {s : Lexeme} {l : List Char} (h : s.Spells l) (opensFile : Bool) :
    fault? ⟨s.kind opensFile (String.ofList l), String.ofList l⟩ =
      if s = .byteOrderMark ∧ opensFile = false then some .misplacedMark else none := by
  cases h with
  | byteOrderMark => cases opensFile <;> simp [fault?, Lexeme.kind, causeOf, Pattern.byteOrderMark]
  | @word c cs =>
    have hne : (Kind.keyword? (String.ofList (c :: cs))).getD .ident ≠ .error := by
      cases hk : Kind.keyword? (String.ofList (c :: cs)) with
      | none => decide
      | some k => exact keyword?_ne_error hk
    exact (if_neg hne).trans (by simp)
  | @fixed k _ hk _ =>
    have hne : k ≠ .error := by rintro rfl; exact absurd hk (by decide)
    simp [fault?, Lexeme.kind, hne]
  | _ => simp [fault?, Lexeme.kind]

theorem next_lexeme {opensFile : Bool} {cs l : List Char} {s : Lexeme} {k : Kind}
    (hu : ∀ l code, ¬ Unclosed cs l code) (hl : s.Longest l cs) (hm : measure cs = (k, l.length))
    (hk : refine opensFile k (String.ofList l) = s.kind opensFile (String.ofList l)) :
    (taken opensFile cs).Next opensFile cs := by
  rw [taken_eq hl.starts hm, hk]
  exact .lexeme s hu (by rwa [String.toList_ofList]) rfl (fault?_lexeme hl.spells opensFile)

theorem next_unclosed {opensFile : Bool} {cs l : List Char} {code : Code} (hp : l <+: cs)
    (hu : Unclosed cs l code) (hm : measure cs = (.error, l.length)) :
    (taken opensFile cs).Next opensFile cs := by
  rw [taken_eq hp hm]
  refine .unclosed code (by rwa [String.toList_ofList]) rfl ?_
  cases hu <;> simp [fault?, refine, causeOf]

/-- One of the two kinds of quoted text. -/
theorem next_quoted {opensFile : Bool} {quote : Char} {spansLines : Bool} {s : Lexeme} {k : Kind}
    (code : Code) {cs : List Char} (hquote : quote ≠ '\\' ∧ isLineEnd quote = false)
    (hm : measure (quote :: cs) = quoted k quote spansLines cs)
    (hs : ∀ l, s.Spells (quote :: l) ↔ Quoted quote spansLines l)
    (ho : ∀ l, ofText (quote :: l) = s)
    (hu : ∀ l code', Unclosed (quote :: cs) l code' ↔
      (∀ l, l <+: cs → ¬ Quoted quote spansLines l) ∧
      l = quote :: cs.takeWhile (!isLineEnd ·) ∧ code' = code)
    (hk : ∀ l, refine opensFile k (String.ofList (quote :: l)) =
      s.kind opensFile (String.ofList (quote :: l))) :
    (taken opensFile (quote :: cs)).Next opensFile (quote :: cs) := by
  unfold quoted at hm
  cases hq : closingQuote quote spansLines cs with
  | some n =>
    obtain ⟨l, hp, rfl, hl⟩ := exists_quoted hquote.2 hq
    simp only [hq] at hm
    refine next_lexeme (fun l' code' h => ((hu _ _).mp h).1 l hp hl) (.of_spells
      (List.cons_prefix_cons.mpr ⟨rfl, hp⟩) ((hs l).mpr hl) fun s' l' hp' h' => ?_) ?_ (hk l)
    · obtain ⟨l', rfl, ⟨rest, rfl⟩, hl'⟩ := h'.of_quote ho hp'
      rw [((hs l').mp hl').closingQuote_eq hquote] at hq
      simp [Option.some.inj hq]
    · rw [hm, List.length_cons, Nat.add_comm]
  | none =>
    simp only [hq] at hm
    refine next_unclosed (List.cons_prefix_cons.mpr ⟨rfl, List.takeWhile_prefix _⟩)
      ((hu _ _).mpr ⟨fun l ⟨rest, hl⟩ h => ?_, rfl, rfl⟩) ?_
    · rw [← hl, h.closingQuote_eq hquote] at hq
      cases hq
    · rw [hm, List.length_cons, run, Nat.add_comm]

theorem next_string (opensFile : Bool) (cs : List Char) :
    (taken opensFile ('"' :: cs)).Next opensFile ('"' :: cs) := by
  refine next_quoted (s := .string) .unterminatedString (by decide) rfl
    (fun l => ⟨fun h => ?_, .string⟩) (fun l => ?_) (fun l code => ⟨fun h => ?_, ?_⟩) fun l => rfl
  · cases h; assumption
  · simp [ofText, isBlank, isLetter, Pattern.byteOrderMark]
  · cases h; exact ⟨‹_›, rfl, rfl⟩
  · rintro ⟨h, rfl, rfl⟩; exact .string h

/-- No keyword starts with a quote. -/
theorem keyword?_quote (l : List Char) : Kind.keyword? (String.ofList ('\'' :: l)) = none := by
  have hk : ∀ k ∈ Kind.keywords, ∀ s ∈ k.spelling?, s.toList.head? ≠ some '\'' := by decide
  refine List.find?_eq_none.mpr fun k hmem he => hk k hmem _ (eq_of_beq he) ?_
  rw [String.toList_ofList, List.head?_cons]

theorem next_name (opensFile : Bool) (cs : List Char) :
    (taken opensFile ('\'' :: cs)).Next opensFile ('\'' :: cs) := by
  refine next_quoted (s := .quotedName) .unterminatedName (by decide) rfl
    (fun l => ⟨fun h => ?_, .quotedName⟩) (fun l => ?_)
    (fun l code => ⟨fun h => ?_, ?_⟩) fun l => ?_
  · cases h; assumption
  · simp [ofText, isBlank, isLetter, Pattern.byteOrderMark]
  · cases h; exact ⟨‹_›, rfl, rfl⟩
  · rintro ⟨h, rfl, rfl⟩; exact .name h
  · simp only [refine, keyword?_quote, Lexeme.kind, Option.getD_none]

theorem next_comment (opensFile : Bool) (cs : List Char) :
    (taken opensFile ('/' :: '*' :: cs)).Next opensFile ('/' :: '*' :: cs) := by
  have hm : measure ('/' :: '*' :: cs) =
      (commentEnd cs).elim (.error, 2 + cs.length) fun n => (.blockComment, 2 + n) := by
    rw [measure]
    cases commentEnd cs <;> rfl
  cases hq : commentEnd cs with
  | some n =>
    obtain ⟨l, hp, rfl, hl⟩ := exists_comment hq
    rw [hq, Option.elim] at hm
    refine next_lexeme (k := .blockComment) (fun l' code h => ?_) (.of_spells (by simpa using hp)
      (.blockComment hl) fun s' l' hp' h' => ?_) ?_ rfl
    · cases h with
      | comment hn => exact hn ((List.infix_append' ..).trans hp.isInfix)
    · rcases h'.comment_of_slash hp' with rfl | ⟨body, rfl, ⟨rest, rfl⟩, -, hb⟩
      · simp
      · have he := commentEnd_eq hb rest
        simp only [List.append_assoc, List.cons_append, List.nil_append] at hq
        have hle := Option.some.inj (he.symm.trans hq)
        simp only [List.length_cons, List.length_append, List.length_nil]
        omega
    · rw [hm]
      simp only [List.length_cons, List.length_append, List.length_nil, Prod.mk.injEq, true_and]
      omega
  | none =>
    rw [hq, Option.elim] at hm
    refine next_unclosed List.prefix_rfl (.comment fun h => ?_) ?_
    · exact not_infix_of_commentEnd hq h
    · rw [hm, List.length_cons, List.length_cons, Nat.add_comm]

theorem refine_scannedKind {s : Lexeme} (h : s ∈ simple) (opensFile : Bool) (text : String) :
    refine opensFile s.scannedKind text = s.kind opensFile text := by
  rcases List.mem_append.mp h with h | h
  · simp only [List.mem_cons, List.not_mem_nil, or_false] at h
    rcases h with rfl | rfl | rfl | rfl | rfl | rfl <;> rfl
  · obtain ⟨k, hk, rfl⟩ := List.mem_map.mp h
    have hne : ∀ k ∈ Kind.punctuation, k ≠ .ident ∧ k ≠ .byteOrderMark := by decide
    simp only [scannedKind, Lexeme.kind]
    unfold refine
    split
    · exact absurd rfl (hne _ hk).1
    · exact absurd rfl (hne _ hk).2
    · rfl

/-- Where nothing is opened, the patterns decide. -/
theorem next_simple {opensFile : Bool} {c : Char} {cs : List Char}
    (hquote : c ≠ '"' ∧ c ≠ '\'') (hslash : ∀ rest, c :: cs ≠ '/' :: '*' :: rest) :
    (taken opensFile (c :: cs)).Next opensFile (c :: cs) := by
  have hu : ∀ l code, ¬ Unclosed (c :: cs) l code := by
    intro l code h
    cases h with
    | string => exact hquote.1 rfl
    | name => exact hquote.2 rfl
    | comment => exact hslash _ rfl
  have hsimple : ∀ (s : Lexeme) l, l <+: c :: cs → s.Spells l → s ∈ simple := by
    intro s l hp h
    refine mem_simple h ⟨?_, ?_, ?_⟩ <;> rintro rfl <;> cases h
    · obtain ⟨rest, hr⟩ := hp
      exact hslash _ hr.symm
    · exact hquote.2 (List.cons_prefix_cons.mp hp).1.symm
    · exact hquote.1 (List.cons_prefix_cons.mp hp).1.symm
  cases hn : longestMatch (c :: cs) with
  | mk k n =>
    have hm : measure (c :: cs) = if n = 0 then (.error, 1) else (k, n) := by
      unfold measure
      split
      · rename_i he; exact absurd (List.cons.inj he).1 hquote.1
      · rename_i he; exact absurd (List.cons.inj he).1 hquote.2
      · rename_i he; exact absurd he (hslash _)
      · rw [hn]
        cases n <;> rfl
    cases n with
    | zero =>
      have hnone : ∀ (s : Lexeme) l, l <+: c :: cs → ¬ s.Spells l := fun s l hp h => by
        have hle := longestMatch_most (hsimple s l hp h) hp h
        rw [hn] at hle
        exact h.ne_nil (List.length_eq_zero_iff.mp (Nat.le_zero.mp hle))
      have hmark : c ≠ Pattern.byteOrderMark := by
        rintro rfl
        exact hnone .byteOrderMark [Pattern.byteOrderMark] (by simp) .byteOrderMark
      rw [taken_eq (l := [c]) (by simp) hm]
      refine .stray c cs rfl hu hnone (String.toList_ofList) rfl ?_
      simp [fault?, refine, causeOf, hquote, hmark]
    | succ n =>
      have hpos : 0 < (longestMatch (c :: cs)).2 := by simp [hn]
      obtain ⟨s, hs, hk, l, hp, hl, hspells⟩ := longestMatch_found hpos
      refine next_lexeme hu (.of_spells hp hspells fun s' l' hp' h' => ?_) (k := k) ?_ ?_
      · rw [hl]
        exact longestMatch_most (hsimple s' l' hp' h') hp' h'
      · rw [hm, hl, hn]
        rfl
      · simp only [hn] at hk
        rw [hk, refine_scannedKind hs]

/-- What the scanner takes is the next token. -/
theorem next_taken (opensFile : Bool) {cs : List Char} (h : cs ≠ []) :
    (taken opensFile cs).Next opensFile cs := by
  obtain ⟨c, cs, rfl⟩ := List.exists_cons_of_ne_nil h
  by_cases hstring : c = '"'
  · exact hstring ▸ next_string opensFile cs
  · by_cases hname : c = '\''
    · exact hname ▸ next_name opensFile cs
    · by_cases hslash : ∃ rest, c :: cs = '/' :: '*' :: rest
      · obtain ⟨rest, hr⟩ := hslash
        exact hr ▸ next_comment opensFile rest
      · exact next_simple ⟨hstring, hname⟩ fun rest hr => hslash ⟨rest, hr⟩

end Token

namespace Token

theorem cut_skip (opensFile : Bool) (skip : Nat) (cs : List Char) :
    cut opensFile skip cs = cut opensFile 0 (cs.drop skip) := by
  induction cs generalizing skip with
  | nil => simp [cut]
  | cons c cs ih =>
    cases skip with
    | zero => rfl
    | succ skip => simpa [cut] using ih skip

/-- The tokens of a text are the next token and the tokens of what it leaves. -/
theorem cut_eq (opensFile : Bool) {cs : List Char} (h : cs ≠ []) :
    cut opensFile 0 cs = taken opensFile cs :: cut false 0 (cs.drop (measure cs).2) := by
  obtain ⟨c, cs, rfl⟩ := List.exists_cons_of_ne_nil h
  obtain ⟨n, hn⟩ := Nat.exists_eq_succ_of_ne_zero (Nat.ne_of_gt (measure_pos (c :: cs)))
  rw [cut_cons, cut_skip, hn, List.drop_succ_cons, Nat.succ_sub_one]

/-- A token is a start of the text, and not an empty one. -/
theorem Next.text {opensFile : Bool} {cs : List Char} {t : Token} (h : Next t opensFile cs) :
    t.text.toList <+: cs ∧ t.text.toList ≠ [] := by
  cases h with
  | lexeme s _ hl => exact ⟨hl.starts, hl.spells.ne_nil⟩
  | unclosed code hu =>
    generalize t.text.toList = l at hu
    cases hu with
    | comment => exact ⟨List.prefix_rfl, List.cons_ne_nil _ _⟩
    | _ => exact ⟨List.cons_prefix_cons.mpr ⟨rfl, List.takeWhile_prefix _⟩, List.cons_ne_nil _ _⟩
  | stray c rest hc _ _ ht =>
    rw [hc, ht]
    exact ⟨by simp, List.cons_ne_nil _ _⟩

/-- A text leaves no choice for its next token. -/
theorem Next.unique {opensFile : Bool} {cs : List Char} {t t' : Token} (h : t.Next opensFile cs)
    (h' : t'.Next opensFile cs) : t = t' := by
  have hext : t.kind = t'.kind → t.text.toList = t'.text.toList → t = t' := fun hk ht => by
    obtain ⟨k, text⟩ := t
    obtain ⟨k', text'⟩ := t'
    cases hk
    cases String.toList_inj.mp ht
    rfl
  cases h with
  | lexeme s hu hl hk =>
    cases h' with
    | lexeme s' _ hl' hk' =>
      have hlength := Nat.le_antisymm (hl'.longest s _ hl.starts hl.spells)
        (hl.longest s' _ hl'.starts hl'.spells)
      have ht := (List.prefix_of_prefix_length_le hl.starts hl'.starts hlength.le).eq_of_length
        hlength
      have hs := hl.only s' (ht ▸ hl'.spells)
      exact hext (by rw [hk, hk', hs, String.toList_inj.mp ht]) ht
    | unclosed code hu' => exact absurd hu' (hu _ _)
    | stray c rest _ _ hn => exact absurd hl.spells (hn s _ hl.starts)
  | unclosed code hu hk =>
    cases h' with
    | lexeme s hu' => exact absurd hu (hu' _ _)
    | unclosed code' hu' hk' => exact hext (hk.trans hk'.symm) (hu.unique hu').1
    | stray c rest _ hu' => exact absurd hu (hu' _ _)
  | stray c rest hc hu hn ht hk =>
    cases h' with
    | lexeme s _ hl => exact absurd hl.spells (hn s _ hl.starts)
    | unclosed code hu' => exact absurd hu' (hu _ _)
    | stray c' rest' hc' _ _ ht' hk' =>
      rw [hc] at hc'
      cases hc'
      exact hext (hk.trans hk'.symm) (ht.trans ht'.symm)

theorem next_of_cut {opensFile : Bool} {cs : List Char} {before after : List Token} {t : Token}
    (h : cut opensFile 0 cs = before ++ t :: after) :
    t.Next (opensFile && before.isEmpty) (concat (t :: after)).toList := by
  induction before generalizing opensFile cs with
  | nil =>
    have hcs : cs ≠ [] := by rintro rfl; cases h
    have hconcat := concat_cut opensFile 0 cs
    rw [h] at hconcat
    rw [cut_eq opensFile hcs] at h
    rw [List.nil_append] at hconcat h
    rw [hconcat, ← (List.cons.inj h).1, List.drop_zero, String.toList_ofList, List.isEmpty_nil,
      Bool.and_true]
    exact next_taken opensFile hcs
  | cons u before ih =>
    have hcs : cs ≠ [] := by rintro rfl; cases h
    rw [cut_eq opensFile hcs, List.cons_append] at h
    simpa using ih (List.cons.inj h).2

end Token

/-- **Tokenization is maximal munch.** The tokens of a text cover it without gaps, none is empty,
and each is what the rest of the text has to start with, of which only the first opens the file. -/
theorem tokenize_maximal_munch (text : String) :
    Token.concat (tokenize text) = text ∧
      ∀ before t after, tokenize text = before ++ t :: after →
        t.text ≠ "" ∧ t.Next before.isEmpty (Token.concat (t :: after)).toList := by
  refine ⟨concat_tokenize text, fun before t after h => ?_⟩
  have hnext := Token.next_of_cut h
  refine ⟨fun he => hnext.text.2 (by simp [he]), ?_⟩
  simpa using hnext

end Modelica
