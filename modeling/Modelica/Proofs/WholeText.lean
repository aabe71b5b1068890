import Mathlib.Data.List.DropRight
import Modelica.Proofs.Weaving
import Modelica.Proofs.Operators

/-!
# The whole text as a fragment

A text may be read by `parse` or as a fragment by the rule of a whole text. The two readings are
the same one, but the trees are put together differently: the root of `parse` takes in the gaps at
both ends of the text itself, while in a fragment the scratch node catches them and hands them to
the root only when they are trivia.
-/

namespace Modelica

/-- No bad token stands before the first significant token or after the last one. Where there is no
significant token there is no bad token at all. -/
def Token.EdgesGood (ts : List Token) : Prop :=
  ∀ t ∈ ts.takeWhile (!·.isSignificant) ++ ts.rtakeWhile (!·.isSignificant), t.kind ≠ .error

instance (ts : List Token) : Decidable (Token.EdgesGood ts) :=
  inferInstanceAs (Decidable (∀ t ∈ _, _))

theorem Token.edgesGood_of_forall {ts : List Token} (h : ∀ t ∈ ts, t.kind ≠ .error) :
    EdgesGood ts := fun t ht => h t <|
  (List.mem_append.mp ht).elim (fun h => (List.takeWhile_prefix _).subset h)
    fun h => (List.rtakeWhile_suffix ..).subset h

namespace Token

variable {ts us : List Token}

theorem rtakeWhile_of_significant_eq_nil (h : significant ts = []) :
    ts.rtakeWhile (!·.isSignificant) = ts := by
  refine List.rtakeWhile_eq_self_iff.mpr fun t ht => ?_
  simpa using List.filter_eq_nil_iff.mp h t ht

/-- The gap at the end starts after the last significant token. -/
theorem rtakeWhile_append_cons {t : Token} (ht : t.isSignificant = true) (h : significant us = []) :
    (ts ++ t :: us).rtakeWhile (!·.isSignificant) = us := by
  have hall : ∀ u ∈ us.reverse, (!u.isSignificant) = true := fun u hu => by
    simpa using List.filter_eq_nil_iff.mp h u (List.mem_reverse.mp hu)
  simp [List.rtakeWhile, List.takeWhile_append_of_pos hall, ht]

/-- What stands before a significant token does not matter to the gap at the end. -/
theorem rtakeWhile_append_of_significant (h : significant us ≠ []) (ts : List Token) :
    (ts ++ us).rtakeWhile (!·.isSignificant) = us.rtakeWhile (!·.isSignificant) := by
  have hne : ¬ us.rtakeWhile (!·.isSignificant) = us := by
    intro he
    refine h (List.filter_eq_nil_iff.mpr fun t ht => ?_)
    simpa using List.rtakeWhile_eq_self_iff.mp he t ht
  unfold List.rtakeWhile at hne ⊢
  rw [List.reverse_append, List.takeWhile_append, if_neg]
  intro hl
  refine hne ?_
  rw [((List.takeWhile_prefix _).eq_of_length hl), List.reverse_reverse]

end Token

namespace Tree

mutual

/-- Weaving trees over all significant tokens leaves the gap at the end. -/
theorem weaveChild_left (ts : List Token) : (c : Tree) → Token.significant ts = c.leaves →
    (weaveChild ts c).2 = ts.rtakeWhile (!·.isSignificant)
  | leaf t, h => by
    obtain ⟨rest, hr, hs⟩ := afterGap_eq_cons h
    have ht : t.isSignificant = true := by
      have hm : t ∈ Token.significant ts := by rw [h]; exact List.mem_cons_self
      exact (List.mem_filter.mp hm).2
    have hg := gap_append_afterGap ts
    rw [hr] at hg
    rw [weaveChild, hr, List.tail_cons, ← hg, Token.rtakeWhile_append_cons ht hs]
  | node k cs, h => by
    unfold weaveChild
    by_cases he : afterGap ts = []
    · simpa [he] using weaveAll_left ts cs h
    · have hl := weaveAll_left (afterGap ts) cs ((significant_afterGap ts).trans h)
      have hs : Token.significant (afterGap ts) ≠ [] := by
        rwa [significant_afterGap, Ne, ← afterGap_eq_nil_iff]
      have hr := Token.rtakeWhile_append_of_significant hs (leavesOf (gap ts))
      rw [gap_append_afterGap] at hr
      simpa [he, hr] using hl

theorem weaveAll_left (ts : List Token) : (cs : List Tree) → Token.significant ts = leavesOf cs →
    (weaveAll ts cs).2 = ts.rtakeWhile (!·.isSignificant)
  | [], h => (Token.rtakeWhile_of_significant_eq_nil h).symm
  | c :: cs, h => by
    obtain ⟨hw, hs⟩ := leavesOf_weaveChild ts (leavesOf cs) c h
    have hl := weaveAll_left (weaveChild ts c).2 cs hs
    simp only [weaveAll]
    by_cases hn : leavesOf cs = []
    · -- nothing significant is left, so the gap at the end is what `c` leaves
      rw [hl, Token.rtakeWhile_of_significant_eq_nil (hs.trans hn)]
      exact weaveChild_left ts c (by simpa [hn] using h)
    · have hr := Token.rtakeWhile_append_of_significant (hs ▸ hn) (leavesOf (weaveChild ts c).1)
      rw [hl, ← hr, hw]

end

theorem isTriviaLeaf_ofGapToken {t : Token} (ht : t.isSignificant = false) :
    (ofGapToken t).isTriviaLeaf = true ↔ t.kind ≠ .error := by
  unfold ofGapToken
  split
  · simp [isTriviaLeaf, *]
  · rename_i hk
    simpa [isTriviaLeaf, Token.isTrivia, Token.isSignificant, Kind.isSignificant, hk] using ht

theorem isTriviaLeaf_gap {ts : List Token} :
    (∀ c ∈ gap ts, c.isTriviaLeaf = true) ↔
      ∀ t ∈ ts.takeWhile (!·.isSignificant), t.kind ≠ .error := by
  rw [gap, List.forall_mem_map]
  exact forall₂_congr fun t ht =>
    isTriviaLeaf_ofGapToken (by simpa using List.mem_takeWhile_imp ht)

theorem edgesGood_iff {ts : List Token} : Token.EdgesGood ts ↔
    (∀ c ∈ gap ts, c.isTriviaLeaf = true) ∧
      ∀ c ∈ gap (ts.rtakeWhile (!·.isSignificant)), c.isTriviaLeaf = true := by
  have hlast : (ts.rtakeWhile (!·.isSignificant)).takeWhile (!·.isSignificant) =
      ts.rtakeWhile (!·.isSignificant) :=
    List.takeWhile_eq_self_iff.mpr fun _ => List.mem_rtakeWhile_imp
  rw [isTriviaLeaf_gap, isTriviaLeaf_gap, hlast]
  exact List.forall_mem_append

/-- A node between two gaps is the only one when the gaps are trivia. -/
theorem soleNode_gaps {k : Kind} (hk : k ≠ .error) (a b : List Token) (cs : List Tree) :
    (node .error (gap a ++ node k cs :: gap b)).soleNode? =
      if (∀ c ∈ gap a, c.isTriviaLeaf = true) ∧ ∀ c ∈ gap b, c.isTriviaLeaf = true then
        some (node k (gap a ++ cs ++ gap b))
      else none := by
  have hnode : ¬ (node k cs).isTriviaLeaf = true := Bool.false_ne_true
  unfold soleNode?
  by_cases ha : ∀ c ∈ gap a, c.isTriviaLeaf = true
  · simp only [children, List.dropWhile_append_of_pos ha, List.takeWhile_append_of_pos ha,
      List.dropWhile_cons_of_neg hnode, List.takeWhile_cons_of_neg hnode, List.append_nil,
      List.all_eq_true, ne_eq, hk, not_false_eq_true, true_and, and_iff_right ha]
  · -- the first tree that is no trivia is the node of a bad token
    rw [if_neg fun h => ha h.1]
    cases hd : (gap a).dropWhile isTriviaLeaf with
    | nil => exact absurd (List.dropWhile_eq_nil_iff.mp hd) ha
    | cons c rest =>
      have hc : ¬ c.isTriviaLeaf = true := by
        have := List.head_dropWhile_not isTriviaLeaf (l := gap a) (by simp [hd])
        simpa [hd] using this
      have hm : c ∈ gap a := (List.dropWhile_suffix _).subset (hd ▸ List.mem_cons_self)
      obtain ⟨t, ht, rfl⟩ := List.mem_map.mp hm
      have ht' : t.isSignificant = false := by simpa using List.mem_takeWhile_imp ht
      rw [isTriviaLeaf_ofGapToken ht', not_not] at hc
      simp [children, List.dropWhile_append, hd, ofGapToken, hc]

/-- What the scratch node of a fragment gives for a node over all significant tokens: the node with
the gaps at both ends, if they are trivia. -/
theorem soleNode_weave {ts : List Token} {k : Kind} {cs : List Tree} (hk : k ≠ .error)
    (h : leavesOf cs = Token.significant ts) :
    (weave ts (node .error [node k cs])).soleNode? =
      if Token.EdgesGood ts then some (weave ts (node k cs)) else none := by
  have hleft := weaveAll_left ts cs h.symm
  by_cases he : afterGap ts = []
  · -- no significant token: the node comes before the gap
    have hs := Token.rtakeWhile_of_significant_eq_nil (afterGap_eq_nil_iff.mp he)
    have hg := soleNode_gaps hk [] ts (weaveAll ts cs).1
    have hgood := @edgesGood_iff ts
    rw [hs] at hleft hgood
    rw [if_congr hgood rfl rfl]
    simpa [weave, weaveAll, weaveChild, he, hleft, gap] using hg
  · have hcs : cs ≠ [] := by
      rintro rfl
      exact he (afterGap_eq_nil_iff.mpr h.symm)
    have hw := weaveAll_afterGap hcs he
    rw [hw] at hleft
    have hg := soleNode_gaps hk ts (ts.rtakeWhile (!·.isSignificant)) (weaveAll (afterGap ts) cs).1
    rw [if_congr edgesGood_iff rfl rfl]
    simpa [weave, weaveAll, weaveChild, hw, hleft, he] using hg

end Tree

/-- The scratch node of a whole text holds the root of its parse, and nothing else is reported. -/
theorem Parse.storedDefinition_scratch (limit : Nat) (text : String) :
    let p := ofProduction (.call .storedDefinition) limit text
    let q := ofProduction FragmentRule.storedDefinition.scratch limit text
    ∃ cs, Tree.leavesOf cs = Token.significant (tokenize text) ∧
      p.tree = Tree.weave (tokenize text) (.node .storedDefinition cs) ∧
      q.tree = Tree.weave (tokenize text) (.node .error [.node .storedDefinition cs]) ∧
      q.faults = p.faults := by
  have hr := Production.runs_read (.call .storedDefinition) trivial limit
    (Token.significant (tokenize text))
  have hend := hr.atEnd_of_storedDefinition
  have hleaves := hr.leavesOf_built hend
  have hscratch := (FragmentRule.storedDefinition.scratch.runs_read (FragmentRule.tame_scratch _)
    limit (Token.significant (tokenize text))).determined (Runs.scratch hr hend)
  obtain ⟨m, -, hm⟩ := runs_node.mp (runs_call.mp hr)
  simp only [hm, Reading.start] at hleaves hscratch
  refine ⟨m.built.reverse, by simpa using hleaves, ?_, ?_, ?_⟩
  · simp [ofProduction, hm]
  · simp [ofProduction, hscratch]
  · simp [ofProduction, hm, hscratch]

/-- **Read as a fragment, a whole text parses as it does on its own.** The diagnostics are the
same. The tree is the same, and the rule has matched the whole text, exactly when no bad token
stands at either end of the text; otherwise the root is an `error` node that has all tokens. -/
theorem parseFragment_storedDefinition (text : String) :
    let fragment := parseFragment .storedDefinition text
    fragment.parse.faults = (parse text).faults ∧
      (fragment.parse.tree = (parse text).tree ↔ Token.EdgesGood (tokenize text)) ∧
      (fragment.fullyConsumed = true ↔ Token.EdgesGood (tokenize text)) ∧
      (¬ Token.EdgesGood (tokenize text) →
        ∃ cs, fragment.parse.tree = .node .error cs ∧ Tree.leavesOf cs = tokenize text) := by
  obtain ⟨cs, hleaves, hp, hq, hfaults⟩ :=
    Parse.storedDefinition_scratch ParseOptions.standard.limit text
  have hsole := Tree.soleNode_weave (k := .storedDefinition) (by decide) hleaves
  rw [← hq, ← hp] at hsole
  have hcovers := (parseFragment_covers .storedDefinition text).leaves
  refine ⟨(parseFragment_faults _ text).trans hfaults, ?_⟩
  by_cases hgood : Token.EdgesGood (tokenize text)
  · rw [if_pos hgood] at hsole
    obtain ⟨htree, hconsumed⟩ := parseFragment_of_eq_some hsole
    exact ⟨iff_of_true htree hgood, iff_of_true hconsumed hgood, fun h => absurd hgood h⟩
  · rw [if_neg hgood] at hsole
    rw [parseFragment_of_eq_none hsole, hq] at hcovers ⊢
    refine ⟨iff_of_false ?_ hgood, iff_of_false Bool.false_ne_true hgood,
      fun _ => ⟨_, rfl, hcovers⟩⟩
    rw [parse, hp, Tree.weave, Tree.weave]
    intro he
    cases (Tree.node.inj he).1

end Modelica
