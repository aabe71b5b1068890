import Modelica.Proofs.MaximalMunch

/-!
# Texts joined at a blank

Where a text without bad tokens is followed by a blank, its tokens stay as they are: nothing in it
is left open, so no token of it reaches over the blank, but for a line comment when the blank does
not end the line. Only white space at the end of the text goes on.

* `Lexeme.Spells.of_over_blank`: what may reach over a blank;
* `Token.Next.append_blank`: the next token of a text stays the next one;
* `Token.cut_append_blank`: the tokens of a text that a blank and anything else follow.
-/

namespace Modelica

open Pattern

namespace Lexeme

variable {s : Lexeme} {l cs x : List Char} {c : Char}

theorem Digits.not_blank (h : Digits l) (hc : c ∈ l) : isBlank c = false :=
  isBlank_of_isDigit (h.2 c hc)

theorem not_blank_of_exponent {e : Char} (h : e = 'e' ∨ e = 'E') : isBlank e = false := by
  rcases h with rfl | rfl <;> rfl

theorem Exponent.not_blank (h : Exponent l) (hc : c ∈ l) : isBlank c = false := by
  cases h with
  | unsigned he hd =>
    rcases List.mem_cons.mp hc with rfl | hc
    · exact not_blank_of_exponent he
    · exact hd.not_blank hc
  | signed he hs hd =>
    rcases List.mem_cons.mp hc with rfl | hc
    · exact not_blank_of_exponent he
    · rcases List.mem_cons.mp hc with rfl | hc
      · rcases hs with rfl | rfl <;> rfl
      · exact hd.not_blank hc

theorem RealNumber.not_blank (h : RealNumber l) (hc : c ∈ l) : isBlank c = false := by
  have hexponent : ∀ {e : List Char}, e = [] ∨ Exponent e → c ∈ e → isBlank c = false := by
    rintro e (rfl | he) hc
    · cases hc
    · exact he.not_blank hc
  cases h with
  | point hw hf he =>
    simp only [List.mem_append, List.mem_cons] at hc
    rcases hc with hc | rfl | hc | hc
    · exact hw.not_blank hc
    · rfl
    · exact isBlank_of_isDigit (hf c hc)
    · exact hexponent he hc
  | scaled hw he =>
    rcases List.mem_append.mp hc with hc | hc
    · exact hw.not_blank hc
    · exact he.not_blank hc
  | fraction hf he =>
    simp only [List.mem_append, List.mem_cons] at hc
    rcases hc with rfl | hc | hc
    · rfl
    · exact hf.not_blank hc
    · exact hexponent he hc

/-- The patterns whose texts may have blanks in them. -/
def holdsBlank : Lexeme → Bool
  | whitespace | lineComment | blockComment | quotedName | string => true
  | _ => false

theorem Spells.holdsBlank (h : s.Spells l) (hc : c ∈ l) (hb : isBlank c = true) :
    s.holdsBlank = true := by
  have hfixed : ∀ k ∈ Kind.punctuation, ∀ text ∈ k.spelling?,
      (text.toList.all fun d => !isBlank d) = true := by decide
  cases h with
  | byteOrderMark =>
    rw [List.mem_singleton.mp hc] at hb
    cases hb
  | word hl hw =>
    refine absurd hb (Bool.eq_false_iff.mp ?_)
    rcases List.mem_cons.mp hc with rfl | hc
    · exact isBlank_of_isLetter hl
    · rcases Bool.or_eq_true_iff.mp (hw c hc) with h | h
      · exact isBlank_of_isLetter h
      · exact isBlank_of_isDigit h
  | integer hd => exact absurd hb (Bool.eq_false_iff.mp (hd.not_blank hc))
  | real hr => exact absurd hb (Bool.eq_false_iff.mp (hr.not_blank hc))
  | fixed hk ht =>
    have hall := List.all_eq_true.mp (hfixed _ hk _ ht) c (by rwa [String.toList_ofList])
    rw [hb] at hall
    cases hall
  | _ => rfl

/-- Two closed quoted texts at one place end at one place. -/
theorem Quoted.length_eq {quote : Char} {spansLines : Bool} {l l' : List Char}
    (hquote : quote ≠ '\\' ∧ isLineEnd quote = false) (h : Quoted quote spansLines l)
    (h' : Quoted quote spansLines l') (hl : l <+: cs) (hl' : l' <+: cs) : l.length = l'.length := by
  obtain ⟨rest, rfl⟩ := hl
  obtain ⟨rest', hr⟩ := hl'
  have he := h.closingQuote_eq hquote rest
  rw [← hr, h'.closingQuote_eq hquote rest'] at he
  exact (Option.some.inj he).symm

/-- A quoted text that is closed in a text does not reach over its end. -/
theorem not_quoted_over {quote : Char} {spansLines : Bool}
    (hquote : quote ≠ '\\' ∧ isLineEnd quote = false)
    (hclosed : ∃ l, l <+: cs ∧ Quoted quote spansLines l) :
    ¬ Quoted quote spansLines (cs ++ c :: x) := by
  obtain ⟨l, hl, hq⟩ := hclosed
  intro h
  have he := hq.length_eq hquote h (hl.trans (List.prefix_append cs (c :: x))) List.prefix_rfl
  have hle := hl.length_le
  rw [List.length_append, List.length_cons] at he
  omega

/-- Only white space reaches over a blank from a text in which nothing is left open, and a line
comment, if the blank does not end the line. -/
theorem Spells.of_over_blank (h : s.Spells (cs ++ c :: x)) (hne : cs ≠ []) (hb : isBlank c = true)
    (hu : ∀ l code, ¬ Unclosed cs l code) :
    s = .whitespace ∧ (∀ d ∈ cs, isBlank d = true) ∨
      s = .lineComment ∧ isLineEnd c = false ∧ Spells .lineComment cs := by
  have hs := h.holdsBlank (c := c) (by simp) hb
  obtain ⟨d, cs, rfl⟩ := List.exists_cons_of_ne_nil hne
  -- A slash alone is not the start of a comment, for no blank is the second character of its mark.
  have hsecond : ∀ {e : Char} {ds : List Char}, isBlank e = false → cs ++ c :: x = e :: ds →
      ∃ cs', cs = e :: cs' ∧ ds = cs' ++ c :: x := by
    intro e ds he h
    cases cs with
    | nil =>
      cases h
      rw [he] at hb
      cases hb
    | cons d' cs' =>
      cases h
      exact ⟨cs', rfl, rfl⟩
  generalize hl : d :: cs ++ c :: x = l at h
  cases h with
  | whitespace _ hblank =>
    exact .inl ⟨rfl, fun e he => hblank e (hl ▸ List.mem_append_left _ he)⟩
  | lineComment hline =>
    obtain ⟨rfl, htail⟩ := List.cons.inj hl
    obtain ⟨cs, rfl, rfl⟩ := hsecond rfl htail
    exact .inr ⟨rfl, hline c (by simp), .lineComment fun e he =>
      hline e (List.mem_append_left _ he)⟩
  | @blockComment body hbody =>
    obtain ⟨rfl, htail⟩ := List.cons.inj hl
    obtain ⟨cs, rfl, hover⟩ := hsecond rfl htail
    have hend : ['*', '/'] <:+: cs := by
      by_contra hn
      exact hu _ _ (.comment hn)
    -- The comment that is closed before the blank would be a shorter one.
    refine absurd ?_ hbody
    have hprefix : cs <+: body ++ ['*'] := by
      have hcs : cs <+: (body ++ ['*']) ++ ['/'] := ⟨c :: x, by simp [← hover]⟩
      rcases List.prefix_concat_iff.mp hcs with he | hp
      · have hlen := congrArg List.length hover
        rw [he] at hlen
        simp only [List.length_append, List.length_cons, List.length_nil] at hlen
        omega
      · exact hp
    exact hend.trans hprefix.isInfix
  | quotedName hq =>
    obtain ⟨rfl, rfl⟩ := List.cons.inj hl
    refine absurd hq (not_quoted_over (by decide) ?_)
    by_contra hn
    exact hu _ _ (.name fun l hp hl => hn ⟨l, hp, hl⟩)
  | string hq =>
    obtain ⟨rfl, rfl⟩ := List.cons.inj hl
    refine absurd hq (not_quoted_over (by decide) ?_)
    by_contra hn
    exact hu _ _ (.string fun l hp hl => hn ⟨l, hp, hl⟩)
  | _ => cases hs

end Lexeme

/-- What is closed in a text is closed when the text goes on after a blank. -/
theorem Unclosed.of_append_blank {cs x l : List Char} {c : Char} {code : Code}
    (h : Unclosed (cs ++ c :: x) l code) (hne : cs ≠ []) (hb : isBlank c = true) :
    ∃ l, Unclosed cs l code := by
  obtain ⟨d, cs, rfl⟩ := List.exists_cons_of_ne_nil hne
  generalize hl : d :: cs ++ c :: x = text at h
  have hprefix : cs <+: cs ++ c :: x := List.prefix_append _ _
  cases h with
  | string hn =>
    obtain ⟨rfl, rfl⟩ := List.cons.inj hl
    exact ⟨_, .string fun l hp => hn l (hp.trans hprefix)⟩
  | name hn =>
    obtain ⟨rfl, rfl⟩ := List.cons.inj hl
    exact ⟨_, .name fun l hp => hn l (hp.trans hprefix)⟩
  | comment hn =>
    obtain ⟨rfl, hl⟩ := List.cons.inj hl
    cases cs with
    | nil =>
      cases hl
      cases hb
    | cons e cs =>
      cases hl
      exact ⟨_, .comment fun hi => hn (hi.trans (List.prefix_append _ _).isInfix)⟩

namespace Token

open Lexeme

variable {opensFile : Bool} {cs x : List Char} {c : Char} {t : Token}

/-! ## The next token -/

/-- The next token of a text is the next one when the text goes on after a blank, unless it is white
space or a line comment up to the end. -/
theorem Next.append_blank (h : t.Next opensFile cs) (hk : t.kind ≠ .error) (hb : isBlank c = true)
    (hspace : ¬ ∀ d ∈ cs, isBlank d = true) (hline : isLineEnd c = true ∨ t.kind ≠ .lineComment)
    (x : List Char) : t.Next opensFile (cs ++ c :: x) := by
  have hne : cs ≠ [] := by
    rintro rfl
    exact hspace nofun
  cases h with
  | unclosed code _ he => exact absurd he hk
  | stray d rest _ _ _ _ he => exact absurd he hk
  | lexeme s hu hl hkind hfault =>
    refine .lexeme s (fun l code hn => ?_) ⟨hl.starts.trans (List.prefix_append _ _), hl.spells,
      hl.only, fun s' l' hp hs' => ?_⟩ hkind hfault
    · obtain ⟨l, hn⟩ := hn.of_append_blank hne hb
      exact hu l code hn
    · by_cases hle : l'.length ≤ cs.length
      · exact hl.longest s' l' (List.prefix_of_prefix_length_le hp (List.prefix_append _ _) hle) hs'
      · -- what reaches further goes over the blank
        obtain ⟨y, rfl⟩ := List.prefix_of_prefix_length_le (List.prefix_append cs (c :: x)) hp
          (by omega)
        obtain ⟨d, y, rfl⟩ : ∃ d z, y = d :: z := List.exists_cons_of_ne_nil fun he => by
          simp [he] at hle
        obtain ⟨rfl, -⟩ := List.cons_prefix_cons.mp ((List.prefix_append_right_inj cs).mp hp)
        rcases hs'.of_over_blank hne hb hu with ⟨-, hspace'⟩ | ⟨-, hend, hcomment⟩
        · exact absurd hspace' hspace
        · have hlen := hl.longest _ _ List.prefix_rfl hcomment
          have hall := hl.starts.eq_of_length (Nat.le_antisymm hl.starts.length_le hlen)
          have hs := hl.only _ (hall ▸ hcomment)
          rw [hend] at hline
          refine absurd ?_ (hline.resolve_left Bool.false_ne_true)
          rw [hkind, ← hs, Lexeme.kind]

/-- Where blanks come next, all of them are one token. -/
theorem taken_blank (hb : isBlank c = true) :
    taken opensFile (c :: x) = ⟨.whitespace, String.ofList (c :: x.takeWhile isBlank)⟩ := by
  have hfirst : (c :: x).takeWhile isBlank = c :: x.takeWhile isBlank := by simp [hb]
  have hne : ∀ d, isBlank d = false → c ≠ d := fun d hd he => by rw [he, hd] at hb; cases hb
  refine (next_taken opensFile (List.cons_ne_nil c x)).unique ?_
  refine .lexeme .whitespace (fun l code hu => ?_) (.of_spells ?_ ?_ fun s l hp hs => ?_) rfl ?_
  · cases hu with
    | string => exact hne '"' rfl rfl
    | name => exact hne '\'' rfl rfl
    | comment => exact hne '/' rfl rfl
  · rw [String.toList_ofList, ← hfirst]
    exact List.takeWhile_prefix _
  · rw [String.toList_ofList, ← hfirst]
    exact .whitespace (by simp [hfirst]) (forall_takeWhile _ _)
  · obtain ⟨d, l, rfl⟩ := List.exists_cons_of_ne_nil hs.ne_nil
    obtain ⟨rfl, -⟩ := List.cons_prefix_cons.mp hp
    have hspace : s = .whitespace := (ofText_eq hs).symm.trans (by simp [ofText, hb])
    subst hspace
    cases hs with
    | whitespace _ hall =>
      obtain ⟨rest, hrest⟩ := hp
      rw [String.toList_ofList, ← hfirst, ← hrest, List.takeWhile_append_of_pos hall,
        List.length_append]
      exact Nat.le_add_right _ _
  · simp [fault?]

/-! ## All tokens -/

/-- What a text leaves after its next token. -/
theorem cut_eq_of_append {l rest : List Char} (hcs : cs = l ++ rest)
    (ht : t.Next opensFile cs) (hl : t.text.toList = l) :
    cut opensFile 0 cs = t :: cut false 0 rest := by
  have hne : cs ≠ [] := by
    rintro rfl
    obtain ⟨hp, hn⟩ := ht.text
    exact hn (List.prefix_nil.mp hp)
  have he : taken opensFile cs = t := (next_taken opensFile hne).unique ht
  rw [cut_eq opensFile hne, he]
  congr 2
  have htake : cs.take (measure cs).2 = l := by
    rw [← hl, ← he]
    exact (String.toList_ofList).symm
  have happend := List.take_append_drop (measure cs).2 cs
  rw [htake, hcs] at happend
  rw [hcs]
  exact List.append_cancel_left happend

/-- Blanks are one token. -/
theorem cut_blanks {w : List Char} (hw : ∀ d ∈ w, isBlank d = true) (hb : isBlank c = true) :
    cut opensFile 0 (w ++ c :: x) =
      ⟨.whitespace, String.ofList (w ++ c :: x.takeWhile isBlank)⟩ ::
        cut false 0 (x.dropWhile isBlank) := by
  have hall : ∀ d ∈ w ++ [c], isBlank d = true := by simpa [or_imp, forall_and, hb] using hw
  have hsplit : w ++ c :: x = (w ++ c :: x.takeWhile isBlank) ++ x.dropWhile isBlank := by simp
  refine cut_eq_of_append hsplit ?_ (String.toList_ofList)
  obtain ⟨d, rest, hd⟩ : ∃ d rest, w ++ [c] = d :: rest := List.exists_cons_of_ne_nil (by simp)
  have hdrop : w ++ c :: x = d :: (rest ++ x) := by
    rw [← List.cons_append, ← hd, List.append_assoc, List.singleton_append]
  have hrest : ∀ e ∈ rest, isBlank e = true := fun e he => hall e (by simp [hd, he])
  have htaken := @taken_blank opensFile (rest ++ x) _ (hall d (by simp [hd]))
  have htext : d :: (rest ++ x).takeWhile isBlank = w ++ c :: x.takeWhile isBlank := by
    rw [List.takeWhile_append_of_pos hrest, ← List.cons_append, ← hd, List.append_assoc,
      List.singleton_append]
  rw [hdrop, ← htext, ← htaken]
  exact next_taken opensFile (List.cons_ne_nil _ _)

/-- Blanks at the end of a text, as tokens. -/
def blanks (w : List Char) : List Token :=
  if w = [] then [] else [⟨.whitespace, String.ofList w⟩]

theorem cut_of_blanks {w : List Char} (hw : ∀ d ∈ w, isBlank d = true) :
    cut opensFile 0 w = blanks w := by
  cases w with
  | nil => rfl
  | cons d w =>
    have hrest : w.takeWhile isBlank = w :=
      List.takeWhile_eq_self_iff.mpr fun e he => hw e (List.mem_cons_of_mem d he)
    have hnext := next_taken opensFile (List.cons_ne_nil d w)
    rw [taken_blank (hw d List.mem_cons_self), hrest] at hnext
    rw [blanks, if_neg (List.cons_ne_nil d w)]
    exact cut_eq_of_append (List.append_nil _).symm hnext (String.toList_ofList)

theorem significant_blanks (w : List Char) : significant (blanks w) = [] := by
  unfold blanks
  split
  · rfl
  · rfl

theorem concat_blanks (w : List Char) : (concat (blanks w)).toList = w := by
  unfold blanks
  split
  · rename_i h
    rw [h]
    rfl
  · simp [concat]

/-- **A blank joins two texts without a change to the first.** Its tokens are followed by one token
for the blank and all blanks around it, and then by the tokens of what is left. -/
theorem cut_append_blank (hb : isBlank c = true)
    (hgood : ∀ t ∈ cut opensFile 0 cs, t.kind ≠ .error)
    (hline : isLineEnd c = true ∨ ∀ t ∈ cut opensFile 0 cs, t.kind ≠ .lineComment) :
    ∃ ts w, (∀ d ∈ w, isBlank d = true) ∧ cut opensFile 0 cs = ts ++ blanks w ∧
      ∀ x, cut opensFile 0 (cs ++ c :: x) =
        ts ++ ⟨.whitespace, String.ofList (w ++ c :: x.takeWhile isBlank)⟩ ::
          cut false 0 (x.dropWhile isBlank) := by
  -- The induction is on the length of what is left to cut.
  induction hn : cs.length using Nat.strongRecOn generalizing opensFile cs with
  | ind n ih =>
    by_cases hspace : ∀ d ∈ cs, isBlank d = true
    · exact ⟨[], cs, hspace, cut_of_blanks hspace, fun x => cut_blanks hspace hb⟩
    · have hne : cs ≠ [] := by
        rintro rfl
        exact hspace nofun
      have hnext := next_taken opensFile hne
      obtain ⟨⟨rest, hrest⟩, htext⟩ := hnext.text
      generalize taken opensFile cs = t at hnext hrest htext
      have hcut := cut_eq_of_append hrest.symm hnext rfl
      have hmem : t ∈ cut opensFile 0 cs := hcut ▸ List.mem_cons_self
      have hlength : rest.length < n := by
        rw [← hn, ← hrest, List.length_append]
        have := List.length_pos_iff.mpr htext
        omega
      obtain ⟨ts, w, hw, hts, hjoin⟩ := ih rest.length hlength
        (fun u hu => hgood u (hcut ▸ List.mem_cons_of_mem t hu))
        (hline.imp_right fun h u hu => h u (hcut ▸ List.mem_cons_of_mem t hu)) rfl
      refine ⟨t :: ts, w, hw, by rw [hcut, hts, List.cons_append], fun x => ?_⟩
      have hnext' := hnext.append_blank (hgood t hmem) hb hspace
        (hline.imp_right fun h => h t hmem) x
      have hsplit : cs ++ c :: x = t.text.toList ++ (rest ++ c :: x) := by
        rw [← hrest, List.append_assoc]
      rw [cut_eq_of_append hsplit hnext' rfl, hjoin x, List.cons_append]

/-! ## Where a text starts -/

/-- Only a byte-order mark tells the start of a file from any other place. -/
theorem cut_of_no_mark (h : cs.head? ≠ some Pattern.byteOrderMark) :
    cut true 0 cs = cut false 0 cs := by
  by_cases hne : cs = []
  · rw [hne]
    rfl
  have hnext := next_taken true hne
  have hnext' : (taken true cs).Next false cs := by
    cases hnext with
    | unclosed code hu hk hf => exact .unclosed code hu hk hf
    | stray d rest hc hu hn ht hk hf => exact .stray d rest hc hu hn ht hk hf
    | lexeme s hu hl hk hf =>
      have hs : s ≠ .byteOrderMark := by
        rintro rfl
        obtain ⟨rest, hrest⟩ := hl.starts
        have hspells := hl.spells
        generalize (taken true cs).text.toList = l at hrest hspells
        cases hspells
        exact h (by rw [← hrest]; rfl)
      refine .lexeme s hu hl (hk.trans ?_) (hf.trans ?_)
      · cases s <;> first | rfl | exact absurd rfl hs
      · rw [if_neg fun hm => hs hm.1, if_neg fun hm => hs hm.1]
  obtain ⟨⟨rest, hrest⟩, -⟩ := hnext.text
  rw [cut_eq_of_append hrest.symm hnext rfl, cut_eq_of_append hrest.symm hnext' rfl]

end Token

end Modelica
