import Modelica.Token.Scan
import Modelica.Tree.Weave

/-!
# What the tokens of a text are

* `concat_tokenize`: the tokens of a text spell it;
* `kind_mem_tokens`: no token has the kind of a node or of the end of the input.
-/

namespace Modelica

/-- The kinds that a token can have. -/
def Kind.tokens : List Kind := blanks ++ words ++ punctuation ++ keywords ++ [.error]

namespace Token

theorem quoted_pos (kind : Kind) (quote : Char) (spansLines : Bool) (rest : List Char) :
    0 < (quoted kind quote spansLines rest).2 := by
  unfold quoted
  split <;> exact Nat.lt_of_lt_of_le Nat.zero_lt_one (Nat.le_add_right 1 _)

/-- Every token has a character. -/
theorem measure_pos (cs : List Char) : 0 < (measure cs).2 := by
  unfold measure
  split
  · exact quoted_pos ..
  · exact quoted_pos ..
  · split <;> exact Nat.lt_of_lt_of_le Nat.zero_lt_two (Nat.le_add_right 2 _)
  · split
    · exact Nat.zero_lt_one
    · rename_i hn _
      exact Nat.pos_of_ne_zero hn

theorem concat_cons (t : Token) (ts : List Token) : concat (t :: ts) = t.text ++ concat ts := by
  simp [concat, String.join_cons]

theorem concat_cut (opensFile : Bool) (skip : Nat) (cs : List Char) :
    concat (cut opensFile skip cs) = String.ofList (cs.drop skip) := by
  induction cs generalizing opensFile skip with
  | nil => simp [cut, concat]
  | cons c rest ih =>
    cases skip with
    | succ skip => simpa [cut] using ih opensFile skip
    | zero =>
      -- What the token leaves over is cut from the next character on.
      obtain ⟨n, hn⟩ := Nat.exists_eq_succ_of_ne_zero (Nat.ne_of_gt (measure_pos (c :: rest)))
      simp only [cut, concat_cons, ih, hn, Nat.succ_eq_add_one, Nat.add_sub_cancel,
        List.drop_zero, ← String.ofList_append]
      rw [← List.drop_succ_cons, List.take_append_drop]

end Token

theorem concat_tokenize (text : String) : Token.concat (tokenize text) = text := by
  simp [tokenize, Token.concat_cut]

namespace Token

theorem pattern_kind {p : Pattern} (hp : p ∈ Pattern.all) : p.kind ∈ Kind.tokens := by
  have hs : Pattern.all.map (·.kind) ⊆ Kind.tokens := by decide
  exact hs (List.mem_map_of_mem hp)

theorem longestMatch_kind (cs : List Char) : (Pattern.longestMatch cs).1 ∈ Kind.tokens := by
  unfold Pattern.longestMatch
  refine List.foldlRecOn (motive := fun best : Kind × Nat => best.1 ∈ Kind.tokens) _ _ (by decide)
    fun best hb p hp => ?_
  split
  · exact pattern_kind hp
  · exact hb

theorem quoted_kind {kind : Kind} (hk : kind ∈ Kind.tokens) (quote : Char) (spansLines : Bool)
    (rest : List Char) : (quoted kind quote spansLines rest).1 ∈ Kind.tokens := by
  unfold quoted
  split
  · exact hk
  · exact (by decide : Kind.error ∈ Kind.tokens)

theorem measure_kind (cs : List Char) : (measure cs).1 ∈ Kind.tokens := by
  unfold measure
  split
  · exact quoted_kind (by decide) ..
  · exact quoted_kind (by decide) ..
  · split
    · exact (by decide : Kind.blockComment ∈ Kind.tokens)
    · exact (by decide : Kind.error ∈ Kind.tokens)
  · have h := longestMatch_kind cs
    split
    · exact (by decide : Kind.error ∈ Kind.tokens)
    · rename_i he
      rw [he] at h
      exact h

theorem refine_kind {opensFile : Bool} {kind : Kind} (hk : kind ∈ Kind.tokens) (text : String) :
    refine opensFile kind text ∈ Kind.tokens := by
  unfold refine
  split
  · cases h : Kind.keyword? text with
    | none => decide
    | some k =>
      have hm : k ∈ Kind.keywords := List.mem_of_find?_eq_some h
      simp [Kind.tokens, hm]
  · split <;> decide
  · exact hk

theorem cut_kind {t : Token} {opensFile : Bool} {skip : Nat} {cs : List Char}
    (h : t ∈ cut opensFile skip cs) : t.kind ∈ Kind.tokens := by
  induction cs generalizing opensFile skip with
  | nil => cases h
  | cons c rest ih =>
    cases skip with
    | succ skip => exact ih h
    | zero =>
      cases h with
      | head => exact refine_kind (measure_kind _) _
      | tail _ h => exact ih h

end Token

theorem kind_mem_tokens {t : Token} {text : String} (h : t ∈ tokenize text) :
    t.kind ∈ Kind.tokens :=
  Token.cut_kind h

end Modelica
