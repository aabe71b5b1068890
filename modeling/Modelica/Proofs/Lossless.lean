import Mathlib.Data.List.TakeWhile
import Modelica.Fragment
import Modelica.Proofs.Termination
import Modelica.Proofs.Tokens

/-!
# No token is lost

The leaves of every parse, from left to right, are the tokens of its text, whatever the text is and
whatever the bound on nesting.

* `Runs.leaves`: what is built and what lies ahead are the significant tokens, in order;
* `Production.ReadsAll`: a production that reads all of them into one node, as the grammar of a
  whole text does and each scratch node;
* `Tree.leaves_weave`: weaving puts each of the others where it was;
* `Tree.leaves_soleNode`: a fragment keeps its leaves when its node becomes the root;
* `parses_cover`: the statement for a parse, a bounded parse and a fragment.
-/

namespace Modelica

namespace Tree

@[simp] theorem leavesOf_nil : leavesOf [] = [] := rfl

@[simp] theorem leavesOf_cons (t : Tree) (ts : List Tree) :
    leavesOf (t :: ts) = t.leaves ++ leavesOf ts := rfl

@[simp] theorem leaves_leaf (t : Token) : (leaf t).leaves = [t] := rfl

@[simp] theorem leaves_node (k : Kind) (cs : List Tree) : (node k cs).leaves = leavesOf cs := rfl

@[simp] theorem leavesOf_append (ts us : List Tree) :
    leavesOf (ts ++ us) = leavesOf ts ++ leavesOf us := by
  induction ts with
  | nil => rfl
  | cons t ts ih => simp [ih]

theorem leaves_subset {c : Tree} {cs : List Tree} (h : c ∈ cs) : c.leaves ⊆ leavesOf cs := by
  obtain ⟨before, after, rfl⟩ := List.append_of_mem h
  simp

end Tree

/-- The tokens that a reading has built trees over and those ahead of it. -/
def Reading.tokens (r : Reading) : List Token := Tree.leavesOf r.built.reverse ++ r.ahead

theorem Reading.tokens_shift (r : Reading) : r.shift.tokens = r.tokens := by
  cases h : r.ahead with
  | nil => rw [shift_nil h]
  | cons t ts => simp [shift_cons h, tokens, h]

/-- Nothing is lost, doubled or moved while the grammar reads. -/
theorem Runs.leaves {allowed : Diagnostic Spot → Prop} {task : Task} {env : Surroundings}
    {r r' : Reading} (h : Runs allowed task env r r') : r'.tokens = r.tokens := by
  induction h with
  | done | stop _ => rfl
  | andThen _ _ ihp ihq => exact ihq.trans ihp
  | shift => exact Reading.tokens_shift _
  | @group p env r m _ ih =>
    simp only [Reading.tokens, List.reverse_nil, Tree.leavesOf_nil, List.nil_append] at ih
    simp [Reading.tokens, ih]
  | @wrap k p env r m _ ih => simpa [Reading.tokens, Reading.wrap] using ih
  | look _ ih | many _ ih | call _ ih | inContext _ ih | opening _ ih | within _ _ ih
  | beyond _ _ ih => exact ih
  | turn _ _ _ ihi ihr => exact ihr.trans ihi
  | report _ => simp [Reading.tokens]

theorem Token.kind_mem_tokens_of_significant {text : String} {t : Token}
    (h : t ∈ significant (tokenize text)) : t.kind ∈ Kind.tokens :=
  kind_mem_tokens (List.mem_filter.mp h).1

namespace Reading

/-- Where the end of the input comes next there is no token. -/
theorem ahead_eq_nil_of_atEnd {env : Surroundings} {r : Reading}
    (hk : ∀ t ∈ r.ahead, t.kind ∈ Kind.tokens) (h : (r.look env).atEnd = true) :
    r.ahead = [] := by
  cases ha : r.ahead with
  | nil => rfl
  | cons t ts =>
    have he : t.kind = .endOfInput := by
      simpa [look, Lookahead.atEnd, Lookahead.sees, Lookahead.kind, ha, Token.headKind] using h
    have ht := hk t (by simp [ha])
    rw [he] at ht
    exact absurd ht (by decide)

end Reading

namespace Runs

variable {allowed : Diagnostic Spot → Prop} {env : Surroundings} {r r' : Reading}

theorem atEnd_of_many {item : Option Lookahead → Production}
    (h : Runs allowed (.of (.many (!·.atEnd) item)) env r r') : (r'.look env).atEnd = true := by
  simpa using (runs_many.mp h).test_eq_false

/-- Nothing is read after the trees of a group are put together. -/
theorem atEnd_of_node {k : Kind} {p : Production} {item : Option Lookahead → Production}
    (h : Runs allowed (.of (.node k [p, .many (!·.atEnd) item])) env r r') :
    (r'.look env).atEnd = true := by
  obtain ⟨m, hm, rfl⟩ := runs_node.mp h
  obtain ⟨w, -, hw⟩ := runs_seq_cons.mp hm
  exact (atEnd_of_many hw : (m.look env).atEnd = true)

theorem atEnd_of_storedDefinition (h : Runs allowed (.of (.call .storedDefinition)) env r r') :
    (r'.look env).atEnd = true :=
  atEnd_of_node (runs_call.mp h)

theorem atEnd_of_scratch {rule : FragmentRule} (h : Runs allowed (.of rule.scratch) env r r') :
    (r'.look env).atEnd = true := by
  obtain ⟨m, hm, rfl⟩ := runs_node.mp h
  obtain ⟨w, -, hw⟩ := runs_seq_cons.mp hm
  replace hw := runs_look.mp hw
  split at hw
  · rename_i he
    rw [runs_done.mp hw]
    exact he
  · obtain ⟨x, -, hx⟩ := runs_seq_cons.mp hw
    exact (atEnd_of_many hx : (m.look env).atEnd = true)

/-- A reading of a whole text ends with no token left and all of them under the node. -/
theorem leavesOf_built {text : String} {p : Production}
    (h : Runs allowed (.of p) env (.start (Token.significant (tokenize text))) r)
    (he : (r.look env).atEnd = true) :
    Tree.leavesOf r.built.reverse = Token.significant (tokenize text) := by
  have hl : Tree.leavesOf r.built.reverse ++ r.ahead = Token.significant (tokenize text) :=
    h.leaves
  have ha : r.ahead = [] := by
    refine Reading.ahead_eq_nil_of_atEnd (fun t ht => ?_) he
    exact Token.kind_mem_tokens_of_significant (hl ▸ List.mem_append_right _ ht)
  rw [ha, List.append_nil] at hl
  exact hl

end Runs

/-! ## Weaving -/

namespace Tree

theorem leavesOf_gap (ts : List Token) :
    leavesOf (gap ts) = ts.takeWhile (!·.isSignificant) := by
  unfold gap
  induction ts.takeWhile (!·.isSignificant) with
  | nil => rfl
  | cons t ts ih =>
    rw [List.map_cons, leavesOf_cons, ih]
    unfold ofGapToken
    split <;> rfl

theorem gap_append_afterGap (ts : List Token) : leavesOf (gap ts) ++ afterGap ts = ts := by
  rw [leavesOf_gap]
  exact List.takeWhile_append_dropWhile

theorem significant_afterGap (ts : List Token) :
    Token.significant (afterGap ts) = Token.significant ts := by
  unfold afterGap Token.significant
  induction ts with
  | nil => rfl
  | cons t ts ih =>
    by_cases ht : t.isSignificant
    · simp [ht]
    · simpa [ht] using ih

/-- A gap ends at a significant token. -/
theorem afterGap_eq_cons {ts : List Token} {t : Token} {s : List Token}
    (h : Token.significant ts = t :: s) :
    ∃ rest, afterGap ts = t :: rest ∧ Token.significant rest = s := by
  induction ts with
  | nil => cases h
  | cons u us ih =>
    by_cases hu : u.isSignificant
    · simp only [Token.significant, List.filter_cons, hu, ↓reduceIte, List.cons.injEq] at h
      exact ⟨us, by simp [afterGap, hu, ← h.1], h.2⟩
    · simp only [Token.significant, List.filter_cons, hu] at h
      obtain ⟨rest, hr, hs⟩ := ih h
      exact ⟨rest, by simpa [afterGap, hu] using hr, hs⟩

mutual

/-- Weaving a tree over the next significant tokens uses up the tokens up to the last of them. -/
theorem leavesOf_weaveChild (ts s : List Token) :
    (c : Tree) → Token.significant ts = c.leaves ++ s →
      leavesOf (weaveChild ts c).1 ++ (weaveChild ts c).2 = ts ∧
        Token.significant (weaveChild ts c).2 = s
  | leaf t, h => by
    obtain ⟨rest, hr, hs⟩ := afterGap_eq_cons h
    simp only [weaveChild, leavesOf_append, hr, List.tail_cons]
    refine ⟨?_, hs⟩
    have hg := gap_append_afterGap ts
    rw [hr] at hg
    simpa using hg
  | node k cs, h => by
    unfold weaveChild
    by_cases he : (afterGap ts).isEmpty
    · simpa [he] using leavesOf_weaveAll ts s cs h
    · obtain ⟨hw, hs⟩ := leavesOf_weaveAll (afterGap ts) s cs ((significant_afterGap ts).trans h)
      simp only [he, Bool.false_eq_true, ↓reduceIte, leavesOf_append, leavesOf_cons, leaves_node,
        leavesOf_nil, List.append_nil, List.append_assoc]
      exact ⟨by rw [hw, gap_append_afterGap], hs⟩

theorem leavesOf_weaveAll (ts s : List Token) :
    (cs : List Tree) → Token.significant ts = leavesOf cs ++ s →
      leavesOf (weaveAll ts cs).1 ++ (weaveAll ts cs).2 = ts ∧
        Token.significant (weaveAll ts cs).2 = s
  | [], h => ⟨rfl, h⟩
  | c :: cs, h => by
    obtain ⟨hw, hs⟩ := leavesOf_weaveChild ts (leavesOf cs ++ s) c (by simpa using h)
    obtain ⟨hw', hs'⟩ := leavesOf_weaveAll (weaveChild ts c).2 s cs hs
    simp only [weaveAll, leavesOf_append, List.append_assoc]
    exact ⟨by rw [hw', hw], hs'⟩

end

/-- A tree over the significant tokens of a text gets all tokens of the text. -/
theorem leaves_weave {ts : List Token} {k : Kind} {cs : List Tree}
    (h : leavesOf cs = Token.significant ts) : (weave ts (node k cs)).leaves = ts := by
  obtain ⟨hw, hs⟩ := leavesOf_weaveAll ts [] cs (by simp [h])
  have hg : leavesOf (gap (weaveAll ts cs).2) = (weaveAll ts cs).2 := by
    rw [leavesOf_gap]
    refine List.takeWhile_eq_self_iff.mpr fun t ht => ?_
    simpa using List.filter_eq_nil_iff.mp hs t ht
  simp only [weave, leaves_node, leavesOf_append, hg]
  exact hw

/-- Trivia that moves into the only node stays where it is among the leaves. -/
theorem leaves_soleNode {t root : Tree} (h : t.soleNode? = some root) : root.leaves = t.leaves := by
  cases t with
  | leaf t => cases h
  | node k cs =>
    have hcs := List.takeWhile_append_dropWhile (p := isTriviaLeaf) (l := cs)
    unfold soleNode? at h
    simp only [children] at h
    split at h
    · rename_i l ds trailing hd
      split at h
      · cases h
        rw [hd] at hcs
        have hl := congrArg leavesOf hcs
        rw [leavesOf_append, leavesOf_cons, leaves_node] at hl
        rw [leaves_node, leaves_node, ← hl, leavesOf_append, leavesOf_append, List.append_assoc]
      · cases h
    · cases h

end Tree

namespace FragmentRule

theorem tame_production (rule : FragmentRule) : rule.production.Tame := by
  cases rule <;> simp [production, startingWith]

theorem tame_scratch (rule : FragmentRule) : rule.scratch.Tame := by
  simp only [scratch, Production.tame_node, Production.tame_seq_cons, Production.Tame,
    Production.tame_ite, Production.tame_fault, Production.tame_seq_nil, and_true, true_and]
  refine ⟨rule.tame_production, fun _ => ⟨fun _ => True.intro, fun _ _ v hv => ?_⟩⟩
  exact Lookahead.ahead_ne_nil_of_not_atEnd (by simpa using hv)

end FragmentRule

/-! ## Readings of all there is -/

/-- A production that comes to the end of the tokens and has all it builds under one node. -/
structure Production.ReadsAll (p : Production) : Prop where
  tame : p.Tame
  rooted : ∀ {allowed env r r'}, Runs allowed (.of p) env r r' →
    ∃ k cs, k ∈ [Kind.storedDefinition, .error] ∧ r'.built = .node k cs :: r.built
  atEnd : ∀ {allowed env r r'}, Runs allowed (.of p) env r r' → (r'.look env).atEnd = true

theorem Production.readsAll_storedDefinition :
    (Production.call .storedDefinition).ReadsAll where
  tame := True.intro
  rooted h := by
    obtain ⟨m, -, rfl⟩ := runs_node.mp (runs_call.mp h)
    exact ⟨_, _, by decide, rfl⟩
  atEnd := Runs.atEnd_of_storedDefinition

theorem FragmentRule.readsAll_scratch (rule : FragmentRule) : rule.scratch.ReadsAll where
  tame := rule.tame_scratch
  rooted h := by
    obtain ⟨m, -, rfl⟩ := runs_node.mp h
    exact ⟨_, _, by decide, rfl⟩
  atEnd := Runs.atEnd_of_scratch

/-- Of a text one node is built, over all its significant tokens. -/
theorem Production.ReadsAll.exists_root {p : Production} (h : p.ReadsAll) (limit : Nat)
    (text : String) : ∃ k cs, k ∈ [Kind.storedDefinition, .error] ∧
      (p.read limit (Token.significant (tokenize text))).built = [.node k cs] ∧
      Tree.leavesOf cs = Token.significant (tokenize text) := by
  have hr := p.runs_read h.tame limit (Token.significant (tokenize text))
  obtain ⟨k, cs, hk, hb⟩ := h.rooted hr
  have hl := hr.leavesOf_built (h.atEnd hr)
  rw [hb] at hl
  exact ⟨k, cs, hk, hb, by simpa [Reading.start] using hl⟩

/-- A parse has all tokens of a text and no others. -/
structure Parse.Covers (p : Parse) (text : String) : Prop where
  leaves : p.tree.leaves = tokenize text
  text : p.text = text

namespace Parse

theorem Covers.of_leaves {p : Parse} {text : String} (h : p.tree.leaves = tokenize text) :
    p.Covers text :=
  ⟨h, by rw [Parse.text, Tree.text, h, concat_tokenize]⟩

/-- A reading of all there is covers the text. -/
theorem covers_ofProduction {p : Production} (hp : p.ReadsAll) (limit : Nat) (text : String) :
    (ofProduction p limit text).Covers text := by
  obtain ⟨k, cs, -, hb, hl⟩ := hp.exists_root limit text
  refine .of_leaves ?_
  simp only [ofProduction, hb, List.head?_cons, Option.getD_some]
  exact Tree.leaves_weave hl

theorem covers_storedDefinition (limit : Nat) (text : String) :
    (ofProduction (.call .storedDefinition) limit text).Covers text :=
  covers_ofProduction Production.readsAll_storedDefinition limit text

theorem covers_scratch (rule : FragmentRule) (limit : Nat) (text : String) :
    (ofProduction rule.scratch limit text).Covers text :=
  covers_ofProduction rule.readsAll_scratch limit text

end Parse

theorem parseFragment_faults (rule : FragmentRule) (text : String) :
    (parseFragment rule text).parse.faults =
      (Parse.ofProduction rule.scratch ParseOptions.standard.limit text).faults := by
  simp only [parseFragment]
  split <;> rfl

theorem parseFragment_covers (rule : FragmentRule) (text : String) :
    (parseFragment rule text).parse.Covers text := by
  have h := Parse.covers_scratch rule ParseOptions.standard.limit text
  unfold parseFragment
  simp only
  split
  · rename_i root hs
    exact .of_leaves ((Tree.leaves_soleNode hs).trans h.leaves)
  · exact h

/-- Every parse has the tokens of its text as its leaves, in order: a parse of a whole text, one
within any bound that is not stopped, and one of any fragment. -/
theorem parses_cover (text : String) :
    (parse text).Covers text ∧
      (∀ limit, ∃ p, parseWith ⟨limit, false⟩ text = .ok p ∧ p.Covers text) ∧
      (∀ options, match parseWith options text with
        | .ok p => p.Covers text
        | .error fault => fault = .cancelled ∧ options.cancelled = true) ∧
      ∀ rule, (parseFragment rule text).parse.Covers text := by
  refine ⟨Parse.covers_storedDefinition _ text, fun limit => ?_, fun options => ?_,
    fun rule => parseFragment_covers rule text⟩
  · exact ⟨_, rfl, Parse.covers_storedDefinition limit text⟩
  · unfold parseWith
    split
    · rename_i p h
      split at h
      · cases h
      · cases h
        exact Parse.covers_storedDefinition options.limit text
    · rename_i fault h
      split at h
      · rename_i hc
        cases h
        exact ⟨rfl, (Bool.and_eq_true _ _ ▸ hc).1⟩
      · cases h

end Modelica
