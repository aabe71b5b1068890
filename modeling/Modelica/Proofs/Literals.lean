import Mathlib.Data.Nat.Digits.Defs
import Modelica.Proofs.MaximalMunch
import Modelica.Proofs.Snug
import Modelica.View.Literal

/-!
# The values of integer literals

A literal is one token, so its text is that of the token, and its value the number that the digits
spell. Only where a literal is all there is in a fragment it becomes the root and takes the trivia
around it in, and then its text is more than a number.

* `Runs.spelled`: a run puts literals over single tokens;
* `Tree.spelled_weave`: trivia put back leaves it so;
* `Number.natural?_eq`, `Number.natural?_eq_none`: which texts have a value;
* `UnsignedIntegerLiteral.reads_of_children`: the value of a literal, by what it holds;
* `integer_literals_read`: the statement for a parse, a bounded parse and a fragment.
-/

namespace Modelica

open Production

/-- What there is to do puts a literal over one token. -/
def Task.Lone : Task → Bool → Kind → Prop
  | of p, fresh, ahead => p.Lone fresh ahead
  | rest continues item _, fresh, ahead => (Production.many continues item).Lone fresh ahead

namespace Tree

/-- Every literal is a node over one token that it may be. -/
inductive Spelled : Tree → Prop
  | leaf {t} : Spelled (leaf t)
  | literal {k t} : t.kind ∈ k.literalTokens → Spelled (node k [leaf t])
  | node {k cs} : k.literalTokens = [] → (∀ c ∈ cs, Spelled c) → Spelled (node k cs)

theorem Spelled.children {t : Tree} (h : t.Spelled) : ∀ c ∈ t.children, c.Spelled := by
  cases h with
  | leaf => exact fun _ hc => nomatch hc
  | literal _ => exact List.forall_mem_singleton.mpr .leaf
  | node _ hcs => exact hcs

end Tree

theorem Kind.endOfInput_not_mem_literalTokens (k : Kind) : .endOfInput ∉ k.literalTokens := by
  cases k <;> decide

/-- In a group that holds nothing yet, the token ahead goes into a literal of its own. -/
theorem Reading.spelled_literal {r : Reading} {k : Kind} (hr : r.built = [])
    (hk : Token.headKind r.ahead ∈ k.literalTokens) :
    ∀ t ∈ (r.shift.wrap k).built, t.Spelled := by
  cases ha : r.ahead with
  | nil =>
    rw [ha] at hk
    exact absurd hk k.endOfInput_not_mem_literalTokens
  | cons t ts =>
    rw [ha] at hk
    rw [Reading.shift_cons ha, hr]
    exact List.forall_mem_singleton.mpr (.literal hk)

/-- Whatever a run builds, its literals are single tokens. -/
theorem Runs.spelled {allowed : Diagnostic Spot → Prop} {task : Task} {env : Surroundings}
    {r r' : Reading} (h : Runs allowed task env r r') {fresh : Bool}
    (ht : task.Lone fresh (Token.headKind r.ahead)) (hf : fresh = true → r.built = [])
    (hb : ∀ t ∈ r.built, t.Spelled) : ∀ t ∈ r'.built, t.Spelled := by
  induction h generalizing fresh with
  | done | stop _ => exact hb
  | andThen _ _ ihp ihq => exact ihq (ht.2 _) nofun (ihp ht.1 hf hb)
  | @shift env r =>
    cases ha : r.ahead with
    | nil => rwa [Reading.shift_nil ha]
    | cons t ts =>
      rw [Reading.shift_cons ha]
      exact List.forall_mem_cons.mpr ⟨.leaf, hb⟩
  | group _ ih =>
    have hm := ih ht (fun _ => rfl) fun _ h => nomatch h
    exact fun t h => (List.mem_append.mp h).elim (hm t) (hb t)
  | @wrap k p env r m hp ih =>
    simp only [Task.Lone, Lone] at ht
    split at ht
    · rename_i hk
      refine List.forall_mem_singleton.mpr (.node hk fun t h => ?_)
      exact ih ht hf hb t (List.mem_reverse.mp h)
    · obtain ⟨hfresh, rfl, hk⟩ := ht
      rw [runs_shift.mp hp]
      exact Reading.spelled_literal (hf hfresh) hk
  | look _ ih => exact ih (ht _) hf hb
  | many _ ih => exact ih ht hf hb
  | turn _ _ _ ihi ihr => exact @ihr false ht nofun (ihi (ht _ _) nofun hb)
  | call _ ih => exact @ih false (Nonterminal.lone_production ht false _) nofun hb
  | report _ => rwa [Reading.report_built]
  | inContext _ ih | opening _ ih => exact ih ht hf hb
  | within _ _ ih => exact ih ht.1 hf hb
  | beyond _ _ ih => exact ih ht.2 hf hb

namespace Tree

theorem spelled_gap (ts : List Token) : ∀ c ∈ gap ts, c.Spelled := by
  intro c hc
  obtain ⟨t, -, rfl⟩ := List.mem_map.mp hc
  unfold ofGapToken
  split
  · exact .node rfl (List.forall_mem_singleton.mpr .leaf)
  · exact .leaf

/-- A node that is woven comes after its gap, and is woven from the same significant tokens. -/
theorem mem_weaveChild {ts : List Token} {k : Kind} {cs : List Tree} {d : Tree}
    (hd : d ∈ (weaveChild ts (node k cs)).1) : d ∈ gap ts ∨
      ∃ us, Token.significant us = Token.significant ts ∧ d = node k (weaveAll us cs).1 := by
  unfold weaveChild at hd
  by_cases he : (afterGap ts).isEmpty
  · simp only [he, ↓reduceIte, List.mem_singleton] at hd
    exact .inr ⟨ts, rfl, hd⟩
  · simp only [he, Bool.false_eq_true, ↓reduceIte, List.mem_append, List.mem_singleton] at hd
    exact hd.imp_right fun hd => ⟨afterGap ts, significant_afterGap ts, hd⟩

/-- No gap is put into a literal. -/
theorem weaveChild_literal {ts s : List Token} {k : Kind} {t : Token}
    (h : Token.significant ts = t :: s) :
    (weaveChild ts (node k [leaf t])).1 = gap ts ++ [node k [leaf t]] := by
  obtain ⟨rest, hrest, -⟩ := afterGap_eq_cons h
  have ht : t.isSignificant = true := by
    have hm : t ∈ Token.significant ts := h ▸ List.mem_cons_self
    exact (List.mem_filter.mp hm).2
  have hgap : gap (t :: rest) = [] := by simp [gap, ht]
  simp [weaveChild, weaveAll, hrest, hgap]

mutual

/-- Weaving leaves a literal one token. -/
theorem spelled_weaveChild (ts s : List Token) :
    (c : Tree) → c.Spelled → Token.significant ts = c.leaves ++ s →
      ∀ d ∈ (weaveChild ts c).1, d.Spelled
  | leaf t, _, _ => fun d hd => by
    rcases List.mem_append.mp hd with hd | hd
    · exact spelled_gap ts d hd
    · cases List.mem_singleton.mp hd
      exact .leaf
  | node k cs, hc, h => fun d hd => by
    cases hc with
    | literal hk =>
      rw [weaveChild_literal h] at hd
      rcases List.mem_append.mp hd with hd | hd
      · exact spelled_gap ts d hd
      · cases List.mem_singleton.mp hd
        exact .literal hk
    | node hk hcs =>
      rcases mem_weaveChild hd with hd | ⟨us, hus, rfl⟩
      · exact spelled_gap ts d hd
      · exact .node hk (spelled_weaveAll us s cs hcs (hus.trans h))

theorem spelled_weaveAll (ts s : List Token) :
    (cs : List Tree) → (∀ c ∈ cs, c.Spelled) → Token.significant ts = leavesOf cs ++ s →
      ∀ d ∈ (weaveAll ts cs).1, d.Spelled
  | [], _, _ => nofun
  | c :: cs, hcs, h => fun d hd => by
    obtain ⟨hc, hcs⟩ := List.forall_mem_cons.mp hcs
    have h' : Token.significant ts = c.leaves ++ (leavesOf cs ++ s) := by simpa using h
    have hrest := (leavesOf_weaveChild ts (leavesOf cs ++ s) c h').2
    rcases List.mem_append.mp hd with hd | hd
    · exact spelled_weaveChild ts _ c hc h' d hd
    · exact spelled_weaveAll _ s cs hcs hrest d hd

end

theorem spelled_weave {ts : List Token} {k : Kind} {cs : List Tree} (hk : k.literalTokens = [])
    (h : leavesOf cs = Token.significant ts) (hcs : ∀ c ∈ cs, c.Spelled) :
    (weave ts (node k cs)).Spelled := by
  have hs : Token.significant ts = leavesOf cs ++ [] := by rw [List.append_nil, h]
  refine .node hk fun d hd => ?_
  rcases List.mem_append.mp hd with hd | hd
  · exact spelled_weaveAll ts [] cs hcs hs d hd
  · exact spelled_gap _ d hd

end Tree

/-! ## Trees of parses -/

namespace Tree

/-- A literal that is the root may have trivia around its token. -/
inductive SpelledRoot : Tree → Prop
  | spelled {t} : t.Spelled → SpelledRoot t
  | around {k lead u trail} : u.kind ∈ k.literalTokens →
      (∀ c ∈ lead ++ trail, c.isTriviaLeaf = true) → SpelledRoot (node k (lead ++ leaf u :: trail))

theorem spelled_of_isTriviaLeaf {c : Tree} (h : c.isTriviaLeaf = true) : c.Spelled := by
  cases c with
  | leaf t => exact .leaf
  | node k cs => cases h

theorem SpelledRoot.children {t : Tree} (h : t.SpelledRoot) : ∀ c ∈ t.children, c.Spelled := by
  cases h with
  | spelled h => exact h.children
  | @around k lead u trail _ htrivia =>
    intro c hc
    simp only [Tree.children, List.mem_append, List.mem_cons] at hc
    rcases hc with hc | rfl | hc
    · exact spelled_of_isTriviaLeaf (htrivia c (List.mem_append_left _ hc))
    · exact .leaf
    · exact spelled_of_isTriviaLeaf (htrivia c (List.mem_append_right _ hc))

/-- The only node of a fragment takes trivia in when it becomes the root. -/
theorem Spelled.soleNode {t root : Tree} (h : t.Spelled) (hr : t.soleNode? = some root) :
    root.SpelledRoot := by
  unfold soleNode? at hr
  split at hr
  · rename_i k ds trailing hd
    split at hr
    · rename_i hk
      cases hr
      have hlead : ∀ c ∈ t.children.takeWhile isTriviaLeaf, c.isTriviaLeaf = true :=
        fun c hc => List.mem_takeWhile_imp hc
      have htrail : ∀ c ∈ trailing, c.isTriviaLeaf = true := List.all_eq_true.mp hk.2
      have hm : Tree.node k ds ∈ t.children :=
        (List.dropWhile_suffix _).subset (hd ▸ List.mem_cons_self)
      cases h.children _ hm with
      | literal hu =>
        rw [List.append_assoc, List.singleton_append]
        exact .around hu (List.forall_mem_append.mpr ⟨hlead, htrail⟩)
      | node hl hds =>
        exact .spelled (.node hl (forall_between_trivia (fun _ => .leaf) hlead htrail hds))
    · cases hr
  · cases hr

/-- An integer literal is a single token. -/
theorem Spelled.integer {t : Tree} (h : t.Spelled) (hnode : t.isLeaf = false)
    (hk : t.kind = .unsignedIntegerLiteral) :
    ∃ u, t.children = [.leaf u] ∧ u.kind = .unsignedInteger := by
  cases h with
  | leaf => cases hnode
  | @literal k u hu =>
    obtain rfl : k = .unsignedIntegerLiteral := hk
    exact ⟨u, rfl, List.mem_singleton.mp hu⟩
  | @node k cs hl _ =>
    obtain rfl : k = .unsignedIntegerLiteral := hk
    cases hl

theorem SpelledRoot.integer {t : Tree} (h : t.SpelledRoot) (hnode : t.isLeaf = false)
    (hk : t.kind = .unsignedIntegerLiteral) : ∃ lead u trail,
      t.children = lead ++ .leaf u :: trail ∧ u.kind = .unsignedInteger ∧
        ∀ c ∈ lead ++ trail, c.isTriviaLeaf = true := by
  cases h with
  | spelled h =>
    obtain ⟨u, hc, hu⟩ := h.integer hnode hk
    exact ⟨[], u, [], hc, hu, fun _ hc => nomatch hc⟩
  | @around k lead u trail hu htrivia =>
    obtain rfl : k = .unsignedIntegerLiteral := hk
    exact ⟨lead, u, trail, rfl, List.mem_singleton.mp hu, htrivia⟩

end Tree

namespace Located

/-- Below a root that may have trivia around a literal, every literal is a single token. -/
theorem spelled_of_mem_nodes {t : Tree} (h : t.SpelledRoot) {n : Located}
    (hn : n ∈ (root t).nodes) (hne : n ≠ root t) : n.tree.Spelled := by
  rcases exists_parent (List.mem_filter.mp hn).1 with he | ⟨m, hm, hc⟩
  · exact absurd he hne
  · exact forall_children (fun _ _ h => h.children) h.children m hm n hc

theorem isLeaf_of_mem_nodes {t : Tree} {n : Located} (hn : n ∈ (root t).nodes) :
    n.tree.isLeaf = false := by
  simpa [isNode] using (List.mem_filter.mp hn).2

/-- The tokens of a node are tokens of the whole tree. -/
theorem leaves_subset {t : Tree} {n : Located} (hn : n ∈ (root t).nodes) :
    n.tree.leaves ⊆ t.leaves :=
  forall_preorder (fun _ _ h _ hc => List.Subset.trans (Tree.leaves_subset hc) h) 0 t
    (List.Subset.refl _) n (List.mem_filter.mp hn).1

end Located

namespace Parse

/-- A reading of all there is, with the literals over tokens of their own. -/
theorem spelled_ofProduction {p : Production} (hp : p.ReadsAll)
    (hl : ∀ ahead, p.Lone true ahead) (limit : Nat) (text : String) :
    (ofProduction p limit text).tree.Spelled := by
  have hs := (p.runs_read hp.tame limit (Token.significant (tokenize text))).spelled (hl _)
    (fun _ => rfl) nofun
  obtain ⟨k, cs, hk, hb, hleaves⟩ := hp.exists_root limit text
  have hliteral : ∀ k ∈ [Kind.storedDefinition, .error], k.literalTokens = [] := by decide
  rw [hb] at hs
  simp only [ofProduction, hb, List.head?_cons, Option.getD_some]
  exact Tree.spelled_weave (hliteral k hk) hleaves (hs _ List.mem_cons_self).children

theorem spelled_storedDefinition (limit : Nat) (text : String) :
    (ofProduction (.call .storedDefinition) limit text).tree.Spelled :=
  spelled_ofProduction Production.readsAll_storedDefinition (fun _ => True.intro) limit text

theorem spelled_scratch (rule : FragmentRule) (limit : Nat) (text : String) :
    (ofProduction rule.scratch limit text).tree.Spelled :=
  spelled_ofProduction rule.readsAll_scratch rule.lone_scratch limit text

end Parse

theorem parseFragment_spelled (rule : FragmentRule) (text : String) :
    (parseFragment rule text).parse.tree.SpelledRoot := by
  have h := Parse.spelled_scratch rule ParseOptions.standard.limit text
  unfold parseFragment
  simp only
  split
  · rename_i root hs
    exact h.soleNode hs
  · exact .spelled h

/-- The decimal number that the digits of a token spell. -/
def Token.decimal (t : Token) : Nat :=
  Nat.ofDigits 10 (t.text.toList.reverse.map fun c => c.toNat - '0'.toNat)

namespace Number

open Pattern (isDigit)

theorem ofDigits_eq (cs : List Char) :
    ofDigits cs = Nat.ofDigits 10 (cs.reverse.map fun c => c.toNat - '0'.toNat) := by
  rw [Nat.ofDigits_eq_foldr, List.foldr_map, List.foldr_reverse, ofDigits]
  simp only [Nat.cast_id, Nat.add_comm]

theorem natural?_eq {t : Token} (h : Lexeme.Digits t.text.toList) :
    natural? t.text = if t.decimal < UInt64.size then some t.decimal else none := by
  have hempty : t.text.toList.isEmpty = false := by simpa using h.1
  have hall : t.text.toList.all isDigit = true := List.all_eq_true.mpr h.2
  simp [natural?, hempty, hall, ofDigits_eq, Token.decimal]

example : natural? "18446744073709551615" = some 18446744073709551615 ∧
    natural? "18446744073709551616" = none := by
  decide +kernel

theorem natural?_eq_none {text : String} {c : Char} (hc : c ∈ text.toList)
    (h : isDigit c = false) : natural? text = none := by
  have hall : text.toList.all isDigit = false := by
    refine Bool.eq_false_iff.mpr fun hall => ?_
    rw [List.all_eq_true.mp hall c hc] at h
    cases h
  simp [natural?, hall]

end Number

namespace Lexeme

open Pattern (isDigit)

variable {s : Lexeme} {l : List Char} {opensFile : Bool} {text : String}

/-- A word is a name or a keyword, and neither a number nor trivia. -/
theorem kind_word : (Lexeme.word.kind opensFile text) ≠ .unsignedInteger ∧
    (Lexeme.word.kind opensFile text).isTrivia = false := by
  have hall : ∀ k ∈ Kind.ident :: Kind.keywords, k ≠ .unsignedInteger ∧ k.isTrivia = false := by
    decide
  refine hall _ ?_
  rw [Lexeme.kind]
  cases hk : Kind.keyword? text with
  | none => exact List.mem_cons_self
  | some k => exact List.mem_cons_of_mem _ (List.mem_of_find?_eq_some hk)

theorem kind_fixed {k : Kind} (hk : k ∈ Kind.punctuation) :
    k ≠ .unsignedInteger ∧ k.isTrivia = false := by
  have hall : ∀ k ∈ Kind.punctuation, k ≠ .unsignedInteger ∧ k.isTrivia = false := by decide
  exact hall k hk

/-- A token that is an integer is made of digits. -/
theorem Spells.digits (h : s.Spells l) (hk : s.kind opensFile text = .unsignedInteger) :
    Digits l := by
  cases h with
  | integer hl => exact hl
  | word => exact absurd hk kind_word.1
  | fixed hmem => exact absurd hk (kind_fixed hmem).1
  | byteOrderMark => cases opensFile <;> cases hk
  | _ => cases hk

/-- A token that is trivia has a character that is no digit. -/
theorem Spells.exists_not_digit (h : s.Spells l) (hk : (s.kind opensFile text).isTrivia = true) :
    ∃ c ∈ l, isDigit c = false := by
  cases h with
  | whitespace hne hblank =>
    obtain ⟨c, hc⟩ := List.exists_mem_of_ne_nil _ hne
    refine ⟨c, hc, Bool.eq_false_iff.mpr fun hd => ?_⟩
    exact absurd (hblank c hc) (by rw [isBlank_of_isDigit hd]; exact Bool.false_ne_true)
  | lineComment => exact ⟨'/', List.mem_cons_self, rfl⟩
  | blockComment => exact ⟨'/', List.mem_cons_self, rfl⟩
  | byteOrderMark => exact ⟨_, List.mem_cons_self, rfl⟩
  | word => rw [kind_word.2] at hk; cases hk
  | fixed hmem => rw [Lexeme.kind, (kind_fixed hmem).2] at hk; cases hk
  | _ => cases hk

end Lexeme

namespace Token

variable {text : String} {t : Token}

/-- A good token of a text is spelled by a pattern. -/
theorem exists_lexeme (h : t ∈ tokenize text) (hk : t.kind ≠ .error) :
    ∃ (s : Lexeme) (opensFile : Bool),
      s.Spells t.text.toList ∧ t.kind = s.kind opensFile t.text := by
  obtain ⟨before, after, hsplit⟩ := List.append_of_mem h
  cases next_of_cut hsplit with
  | lexeme s _ hl hs _ => exact ⟨s, _, hl.spells, hs⟩
  | unclosed _ _ he _ => exact absurd he hk
  | stray _ _ _ _ _ _ he _ => exact absurd he hk

theorem digits_of_mem (h : t ∈ tokenize text) (hk : t.kind = .unsignedInteger) :
    Lexeme.Digits t.text.toList := by
  obtain ⟨s, opensFile, hs, hkind⟩ := exists_lexeme h (by rw [hk]; decide)
  exact hs.digits (hkind.symm.trans hk)

theorem exists_not_digit (h : t ∈ tokenize text) (hk : t.isTrivia = true) :
    ∃ c ∈ t.text.toList, Pattern.isDigit c = false := by
  have hne : t.kind ≠ .error := fun he => by
    rw [isTrivia, he] at hk
    cases hk
  obtain ⟨s, opensFile, hs, hkind⟩ := exists_lexeme h hne
  rw [isTrivia, hkind] at hk
  exact hs.exists_not_digit hk

theorem mem_concat {ts : List Token} {c : Char} (ht : t ∈ ts) (hc : c ∈ t.text.toList) :
    c ∈ (concat ts).toList := by
  induction ts with
  | nil => cases ht
  | cons u us ih =>
    rw [concat_cons, String.toList_append, List.mem_append]
    rcases List.mem_cons.mp ht with rfl | ht
    · exact .inl hc
    · exact .inr (ih ht)

end Token

namespace UnsignedIntegerLiteral

/-- An integer literal holds one integer and trivia around it. It has the value of the integer
where that fits into 64 bits and there is no trivia, and otherwise no value. -/
structure Reads (v : UnsignedIntegerLiteral) (lead : List Tree) (u : Token) (trail : List Tree) :
    Prop where
  children : v.node.tree.children = lead ++ .leaf u :: trail
  kind : u.kind = .unsignedInteger
  trivia : ∀ c ∈ lead ++ trail, c.isTriviaLeaf = true
  alone : lead ++ trail = [] →
    v.value? = if u.decimal < UInt64.size then some u.decimal else none
  surrounded : lead ++ trail ≠ [] → v.value? = none

variable {v : UnsignedIntegerLiteral} {lead trail : List Tree} {u : Token} {text : String}

/-- Trivia anywhere in a literal takes its value away. -/
theorem value?_of_trivia {w : Token} (hw : w ∈ v.node.tree.leaves) (htext : w ∈ tokenize text)
    (htrivia : w.isTrivia = true) : v.value? = none := by
  obtain ⟨c, hc, hdigit⟩ := Token.exists_not_digit htext htrivia
  exact Number.natural?_eq_none (Token.mem_concat hw hc) hdigit

theorem reads_of_children (hc : v.node.tree.children = lead ++ .leaf u :: trail)
    (hk : u.kind = .unsignedInteger) (ht : ∀ c ∈ lead ++ trail, c.isTriviaLeaf = true)
    (htext : v.node.tree.leaves ⊆ tokenize text) : v.Reads lead u trail := by
  have hleaves : v.node.tree.leaves = Tree.leavesOf lead ++ u :: Tree.leavesOf trail := by
    obtain ⟨⟨start, tree⟩, hkind⟩ := v
    cases tree with
    | leaf w => simp [Tree.children] at hc
    | node k cs =>
      simp only [Tree.children] at hc
      simp [hc]
  refine ⟨hc, hk, ht, fun hnil => ?_, fun hne => ?_⟩
  · obtain ⟨rfl, rfl⟩ := List.append_eq_nil_iff.mp hnil
    have hu : u ∈ tokenize text := htext (by simp [hleaves])
    rw [← Number.natural?_eq (Token.digits_of_mem hu hk), value?, View.text, Located.text,
      Tree.text, hleaves]
    simp [Token.concat]
  · obtain ⟨c, hmem⟩ := List.exists_mem_of_ne_nil _ hne
    have htrivia := ht c hmem
    cases c with
    | node k cs => cases htrivia
    | leaf w =>
      have hw : w ∈ v.node.tree.leaves := by
        rw [hleaves, List.mem_append, List.mem_cons]
        rcases List.mem_append.mp hmem with hmem | hmem
        · exact .inl (Tree.leaves_subset hmem List.mem_cons_self)
        · exact .inr (.inr (Tree.leaves_subset hmem List.mem_cons_self))
      exact value?_of_trivia hw (htext hw) htrivia

/-- A literal in whose tree every literal is a single token has the value of its own. -/
theorem exists_reads_alone (v : UnsignedIntegerLiteral) (h : v.node.tree.Spelled)
    (hnode : v.node.tree.isLeaf = false) (htext : v.node.tree.leaves ⊆ tokenize text) :
    ∃ u, v.Reads [] u [] := by
  obtain ⟨u, hc, hk⟩ := h.integer hnode v.kind_eq
  exact ⟨u, reads_of_children hc hk (fun _ hc => nomatch hc) htext⟩

theorem exists_reads (v : UnsignedIntegerLiteral) (h : v.node.tree.SpelledRoot)
    (hnode : v.node.tree.isLeaf = false) (htext : v.node.tree.leaves ⊆ tokenize text) :
    ∃ lead u trail, v.Reads lead u trail := by
  obtain ⟨lead, u, trail, hc, hk, ht⟩ := h.integer hnode v.kind_eq
  exact ⟨lead, u, trail, reads_of_children hc hk ht htext⟩

end UnsignedIntegerLiteral

open Located (root)

/-- Every integer literal of a parse is a single token and has the value of that token. -/
def Parse.ReadsIntegers (p : Parse) : Prop :=
  ∀ v : UnsignedIntegerLiteral, v.node ∈ (root p.tree).nodes → ∃ u, v.Reads [] u []

/-- Every integer literal of a fragment is a single token and has the value of that token, but one
that is the root may hold trivia, and then it has no value. -/
def Fragment.ReadsIntegers (f : Fragment) : Prop :=
  ∀ v : UnsignedIntegerLiteral, v.node ∈ (root f.parse.tree).nodes →
    ∃ lead u trail, v.Reads lead u trail ∧ (lead ++ trail ≠ [] → v.node = root f.parse.tree)

theorem Parse.readsIntegers {p : Parse} {text : String} (h : p.tree.Spelled)
    (hp : p.Covers text) : p.ReadsIntegers := by
  intro v hv
  have hspelled := Located.forall_preorder (fun _ _ h => h.children) 0 p.tree h
  have hleaves := hp.leaves ▸ Located.leaves_subset hv
  exact v.exists_reads_alone (hspelled v.node (List.mem_filter.mp hv).1)
    (Located.isLeaf_of_mem_nodes hv) hleaves

theorem parseFragment_readsIntegers (rule : FragmentRule) (text : String) :
    (parseFragment rule text).ReadsIntegers := by
  intro v hv
  have h := parseFragment_spelled rule text
  have hnode := Located.isLeaf_of_mem_nodes hv
  have hleaves := (parseFragment_covers rule text).leaves ▸ Located.leaves_subset hv
  by_cases hroot : v.node = root (parseFragment rule text).parse.tree
  · have hspelled : v.node.tree.SpelledRoot := by rwa [hroot]
    obtain ⟨lead, u, trail, hreads⟩ := v.exists_reads hspelled hnode hleaves
    exact ⟨lead, u, trail, hreads, fun _ => hroot⟩
  · have hspelled := Located.spelled_of_mem_nodes h hv hroot
    obtain ⟨u, hreads⟩ := v.exists_reads_alone hspelled hnode hleaves
    exact ⟨[], u, [], hreads, fun hne => absurd rfl hne⟩

/-- **An integer literal has the value of its token.** In a parse of a whole text, within any bound
on nesting, and in a parse of any fragment, every integer literal is the token itself, and its value
is the decimal number that the token spells, or none from `2 ^ 64` on. Only where a fragment is
nothing but a literal and trivia, the literal takes the trivia in and has no value. -/
theorem integer_literals_read (text : String) :
    (parse text).ReadsIntegers ∧
      (∀ limit, ∃ p, parseWith ⟨limit, false⟩ text = .ok p ∧ p.ReadsIntegers) ∧
      ∀ rule, (parseFragment rule text).ReadsIntegers := by
  have hplain : ∀ limit,
      (Parse.ofProduction (.call .storedDefinition) limit text).ReadsIntegers := fun limit =>
    Parse.readsIntegers (Parse.spelled_storedDefinition limit text)
      (Parse.covers_storedDefinition limit text)
  refine ⟨hplain _, fun limit => ⟨_, rfl, hplain limit⟩, fun rule => ?_⟩
  exact parseFragment_readsIntegers rule text

/-- A blank in front of a literal that is a whole fragment takes its value away. -/
theorem blank_takes_value : ∃ v : UnsignedIntegerLiteral,
    v.node = root (parseFragment .expression " 42").parse.tree ∧
      (v.node.tokenChildren.filter (·.kind == .unsignedInteger)).map Located.text = ["42"] ∧
      v.value? = none := by
  refine ⟨⟨root (parseFragment .expression " 42").parse.tree, ?_⟩, rfl, ?_, ?_⟩
  · decide +kernel
  · decide +kernel
  · decide +kernel

end Modelica
