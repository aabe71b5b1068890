import Modelica.Proofs.Recovered
import Modelica.Proofs.WholeText

/-!
# The root of a fragment

The root of a fragment is a node that its rule promises, or else the scratch node that the rule has
run in. Which of the two it is depends on what the rule has read (`FragmentRule.reading`): the rule
may come to the end of the text with one good node, or leave tokens, or leave nothing but an
`error` node.

* `FragmentRule.adds_production`, `FragmentRule.gives_production`: a rule builds one node of a kind
  that it promises where it reports no error, and besides `error` nodes no other one in any case;
* `FragmentRule.built_scratch`: the scratch node holds what the rule has built and the tokens it has
  left;
* `Tree.soleNode_weave_eq_some`, `fullyConsumed_iff`: which node becomes the root, and when;
* `parseFragment_root`: the statement for a text.
-/

namespace Modelica

open Shape
open Supertype (members)

namespace FragmentRule

open Production

/-- The kinds that a rule promises for the root: its own, or the members of the choice it makes. -/
def roots : FragmentRule → List Kind
  | storedDefinition => [.storedDefinition]
  | classDefinition => [.classDefinition]
  | element => members .element
  | equation => members .equation
  | statement => members .statement
  | expression => members .expression
  | simpleExpression => members .simpleExpression
  | modification => [.modification]
  | classModification => [.classModification]
  | annotationClause => [.annotationClause]
  | componentReference => [.componentReference]
  | name => [.name]
  | typeSpecifier => [.typeSpecifier]
  | arraySubscripts => [.arraySubscripts]

theorem roots_subset (rule : FragmentRule) : rule.roots ⊆ Kind.productions := by
  cases rule <;> decide

variable {start : List Kind} {rule : Nonterminal} {v : Lookahead}

theorem adds_startingWith (h : v.kind ∈ start → rule.Ready v) :
    (startingWith start rule).Adds rule.adds v :=
  adds_look <| adds_ite (fun hs => adds_call (h (mem_of_seesAny hs)))
    fun _ => adds_of_fails (fails_seq_cons fails_missing)

theorem gives_startingWith (h : v.kind ∈ start → rule.Ready v) :
    (startingWith start rule).Gives [rule.adds.maybe] v :=
  gives_look <| gives_ite (fun hs => gives_call (h (mem_of_seesAny hs)))
    fun _ => gives_nothing <| gives_after gives_missing fun _ _ => gives_error gives_done

theorem ready_modification (h : v.kind ∈ [.equals, .assign, .lParen]) :
    Nonterminal.modification.Ready v :=
  (by decide : [Kind.equals, .assign, .lParen] ⊆ [.lParen, .equals, .assign]) h

/-- Without errors a rule builds one node, of a kind that it promises. -/
theorem adds_production (rule : FragmentRule) (v : Lookahead) :
    rule.production.Adds [one rule.roots] v := by
  cases rule with
  | equation | statement => exact adds_inContext (adds_call trivial)
  | modification => exact adds_startingWith ready_modification
  | classModification | arraySubscripts => exact adds_startingWith List.mem_singleton.mp
  | _ => exact adds_call trivial

/-- In any case a rule builds no more than one such node, `error` nodes not counted. -/
theorem gives_production (rule : FragmentRule) (v : Lookahead) :
    rule.production.Gives [[opt rule.roots]] v := by
  cases rule with
  | equation | statement => exact gives_inContext (gives_call trivial)
  | modification => exact gives_startingWith ready_modification
  | classModification | arraySubscripts => exact gives_startingWith List.mem_singleton.mp
  | _ => exact gives_call trivial

end FragmentRule

/-! ## The scratch node -/

namespace Runs

variable {allowed : Diagnostic Spot → Prop} {env : Surroundings} {r r' : Reading}

/-- A repetition that only reads makes leaves of what it reads. -/
theorem exists_of_rest_shift {continues : Lookahead → Bool} {before : Option Lookahead}
    (h : Runs allowed (.rest continues (fun _ => .shift) before) env r r') :
    ∃ ts, r.ahead = ts ++ r'.ahead ∧ r'.built.reverse = r.built.reverse ++ ts.map .leaf := by
  generalize ht : Task.rest continues (fun _ => .shift) before = task at h
  induction h generalizing before with
  | stop _ =>
    cases ht
    exact ⟨[], rfl, (List.append_nil _).symm⟩
  | @turn _ _ _ _ r _ _ _ hi _ _ ihr =>
    cases ht
    obtain rfl := runs_shift.mp hi
    obtain ⟨ts, ha, hb⟩ := ihr rfl
    cases hr : r.ahead with
    | nil =>
      rw [Reading.shift_nil hr] at ha hb
      exact ⟨ts, hr ▸ ha, hb⟩
    | cons t us =>
      rw [Reading.shift_cons hr] at ha hb
      exact ⟨t :: ts, congrArg (t :: ·) ha, by simpa using hb⟩
  | _ => cases ht

/-- The scratch node holds what the rule has built, and then the tokens it has left. -/
theorem exists_of_scratch {rule : FragmentRule} (h : Runs allowed (.of rule.scratch) env r r')
    (hend : r'.ahead = []) : ∃ m, Runs allowed (.of rule.production) env { r with built := [] } m ∧
      r'.built = .node .error (m.built.reverse ++ m.ahead.map .leaf) :: r.built := by
  obtain ⟨w, hw, rfl⟩ := runs_node.mp h
  obtain ⟨m, hrule, hrest⟩ := runs_seq_cons.mp hw
  refine ⟨m, hrule, ?_⟩
  replace hend : w.ahead = [] := hend
  replace hrest := runs_look.mp hrest
  split at hrest
  · obtain rfl := runs_done.mp hrest
    simp [hend]
  · obtain ⟨x, hfault, hmany⟩ := runs_seq_cons.mp hrest
    obtain ⟨-, rfl⟩ := runs_report.mp (runs_look.mp hfault)
    obtain ⟨ts, ha, hb⟩ := (runs_many.mp hmany).exists_of_rest_shift
    simp only [Reading.report_ahead, Reading.report_built, hend, List.append_nil] at ha hb
    simp only [ha, hb]

end Runs

/-- The reading has come to the end of the text with one node, which is no `error`. -/
structure Reading.Whole (r : Reading) (k : Kind) (cs : List Tree) : Prop where
  ahead : r.ahead = []
  built : r.built = [.node k cs]
  good : k ≠ .error

namespace FragmentRule

/-- What a rule reads of a text, before anything is done about the tokens that it leaves. -/
def reading (rule : FragmentRule) (text : String) : Reading :=
  rule.production.read ParseOptions.standard.limit (Token.significant (tokenize text))

variable (rule : FragmentRule) (text : String)

theorem runs_reading : Runs anyReport (.of rule.production)
    ⟨.topLevel, [], 0, ParseOptions.standard.limit⟩
    (.start (Token.significant (tokenize text))) (rule.reading text) :=
  rule.production.runs_read rule.tame_production _ _

/-- The children of the scratch node over a text. -/
def scratchChildren : List Tree :=
  (rule.reading text).built.reverse ++ (rule.reading text).ahead.map .leaf

theorem built_scratch :
    (rule.scratch.read ParseOptions.standard.limit (Token.significant (tokenize text))).built =
      [.node .error (rule.scratchChildren text)] := by
  have hr := rule.scratch.runs_read rule.tame_scratch ParseOptions.standard.limit
    (Token.significant (tokenize text))
  have hend := Reading.ahead_eq_nil_of_atEnd
    (fun t ht => Token.kind_mem_tokens_of_significant (hr.leads.1.subset ht)) hr.atEnd_of_scratch
  obtain ⟨m, hm, hb⟩ := hr.exists_of_scratch hend
  rw [hb, scratchChildren, (rule.runs_reading text).determined hm]
  rfl

theorem tree_scratch :
    (Parse.ofProduction rule.scratch ParseOptions.standard.limit text).tree =
      Tree.weave (tokenize text) (.node .error (rule.scratchChildren text)) := by
  simp [Parse.ofProduction, built_scratch]

theorem leavesOf_scratchChildren :
    Tree.leavesOf (rule.scratchChildren text) = Token.significant (tokenize text) := by
  have hr := rule.scratch.runs_read rule.tame_scratch ParseOptions.standard.limit
    (Token.significant (tokenize text))
  simpa [built_scratch] using hr.leavesOf_built hr.atEnd_of_scratch

variable {rule text}

theorem scratchChildren_eq_node {k : Kind} {cs : List Tree} (hk : k ≠ .error) :
    rule.scratchChildren text = [.node k cs] ↔ (rule.reading text).Whole k cs := by
  constructor
  · intro h
    obtain ⟨-, hleaf⟩ | ⟨hb, ha⟩ := List.append_eq_singleton_iff.mp h
    · -- a token is no node
      obtain ⟨t, -, ht⟩ := List.map_eq_singleton_iff.mp hleaf
      cases ht
    · exact ⟨List.map_eq_nil_iff.mp ha, by simpa using congrArg List.reverse hb, hk⟩
  · intro h
    simp [scratchChildren, h.ahead, h.built]

end FragmentRule

/-! ## The root -/

namespace Tree

/-- The node that becomes the root is all that is left without trivia. -/
theorem strip_of_soleNode {t root : Tree} (h : t.soleNode? = some root) :
    ∃ k cs, k ≠ .error ∧ t.strip = node t.kind [node k cs] := by
  cases t with
  | leaf t => cases h
  | node l ds =>
    have hds := List.takeWhile_append_dropWhile (p := isTriviaLeaf) (l := ds)
    unfold soleNode? at h
    simp only [children] at h
    split at h
    · rename_i k cs trailing hd
      split at h
      · rename_i hk
        refine ⟨k, stripAll cs, hk.1, ?_⟩
        have hlead : ∀ c ∈ ds.takeWhile isTriviaLeaf, c.isTriviaLeaf = true := fun c hc =>
          List.mem_takeWhile_imp hc
        rw [strip, kind, ← hds, hd, stripAll_append_cons (isBadToken_of_ne hk.1 cs),
          stripAll_of_trivia hlead, stripAll_of_trivia (List.all_eq_true.mp hk.2), List.nil_append]
      · cases h
    · cases h

/-- A scratch node gives a root exactly when it holds one node that is no `error`, and no bad token
stands at either end of the text. -/
theorem soleNode_weave_eq_some {ts : List Token} {cs : List Tree} {root : Tree}
    (h : leavesOf cs = Token.significant ts) :
    (weave ts (node .error cs)).soleNode? = some root ↔ ∃ k ds, k ≠ .error ∧ cs = [node k ds] ∧
      Token.EdgesGood ts ∧ weave ts (node k ds) = root := by
  constructor
  · intro hroot
    obtain ⟨k, ds, hk, hstrip⟩ := strip_of_soleNode hroot
    have hsignificant : ∀ t ∈ (node .error cs).leaves, t.isSignificant = true := fun t ht => by
      rw [leaves_node, h] at ht
      exact (List.mem_filter.mp ht).2
    rw [strip_weave ts hsignificant] at hstrip
    obtain rfl : cs = [node k ds] := (node.inj hstrip).2
    rw [soleNode_weave hk (by simpa using h)] at hroot
    obtain ⟨hedges, hroot⟩ := Option.ite_none_right_eq_some.mp hroot
    exact ⟨k, ds, hk, rfl, hedges, Option.some_inj.mp hroot⟩
  · rintro ⟨k, ds, hk, rfl, hedges, rfl⟩
    rw [soleNode_weave hk (by simpa using h), if_pos hedges]

end Tree

/-- A fragment gets its root from a rule that reads the whole text, unless a bad token stands at
either end of it. -/
theorem FragmentRule.soleNode_scratch {rule : FragmentRule} {text : String} {root : Tree} :
    (Parse.ofProduction rule.scratch ParseOptions.standard.limit text).tree.soleNode? = some root ↔
      ∃ k cs, (rule.reading text).Whole k cs ∧ Token.EdgesGood (tokenize text) ∧
        Tree.weave (tokenize text) (.node k cs) = root := by
  rw [tree_scratch, Tree.soleNode_weave_eq_some (rule.leavesOf_scratchChildren text)]
  refine exists_congr fun k => exists_congr fun cs => ⟨?_, ?_⟩
  · rintro ⟨hk, hcs, hroot⟩
    exact ⟨(scratchChildren_eq_node hk).mp hcs, hroot⟩
  · rintro ⟨hwhole, hroot⟩
    exact ⟨hwhole.good, (scratchChildren_eq_node hwhole.good).mpr hwhole, hroot⟩

section

variable {rule : FragmentRule} {text : String} {k : Kind} {cs : List Tree}

theorem parseFragment_of_whole (h : (rule.reading text).Whole k cs)
    (hedges : Token.EdgesGood (tokenize text)) :
    (parseFragment rule text).parse.tree = Tree.weave (tokenize text) (.node k cs) ∧
      (parseFragment rule text).fullyConsumed = true :=
  parseFragment_of_eq_some (FragmentRule.soleNode_scratch.mpr ⟨k, cs, h, hedges, rfl⟩)

/-- When the rule has not matched the whole text, the scratch node is the root. -/
theorem parseFragment_of_not_consumed (h : (parseFragment rule text).fullyConsumed = false) :
    (parseFragment rule text).parse.tree =
      Tree.weave (tokenize text) (.node .error (rule.scratchChildren text)) := by
  cases hsole :
      (Parse.ofProduction rule.scratch ParseOptions.standard.limit text).tree.soleNode? with
  | none => rw [parseFragment_of_eq_none hsole, FragmentRule.tree_scratch]
  | some root => rw [(parseFragment_of_eq_some hsole).2] at h; cases h

/-- When the rule has matched the whole text, its node is the root. -/
theorem exists_whole_of_consumed (h : (parseFragment rule text).fullyConsumed = true) :
    ∃ k cs, (rule.reading text).Whole k cs ∧ Token.EdgesGood (tokenize text) ∧
      (parseFragment rule text).parse.tree = Tree.weave (tokenize text) (.node k cs) := by
  cases hsole :
      (Parse.ofProduction rule.scratch ParseOptions.standard.limit text).tree.soleNode? with
  | none => rw [parseFragment_of_eq_none hsole] at h; cases h
  | some root =>
    obtain ⟨k, cs, hwhole, hedges, htree⟩ := FragmentRule.soleNode_scratch.mp hsole
    exact ⟨k, cs, hwhole, hedges, (parseFragment_of_eq_some hsole).1.trans htree.symm⟩

/-- The rule has matched the whole text when it reads all of it into one good node and the gaps at
both ends of the text can go into that node. -/
theorem fullyConsumed_iff : (parseFragment rule text).fullyConsumed = true ↔
    (∃ k cs, (rule.reading text).Whole k cs) ∧ Token.EdgesGood (tokenize text) := by
  constructor
  · intro h
    obtain ⟨k, cs, hwhole, hedges, -⟩ := exists_whole_of_consumed h
    exact ⟨⟨k, cs, hwhole⟩, hedges⟩
  · rintro ⟨⟨k, cs, hwhole⟩, hedges⟩
    exact (parseFragment_of_whole hwhole hedges).2

/-- The node that a rule builds over the whole text is one that it promises. -/
theorem Reading.Whole.mem_roots (h : (rule.reading text).Whole k cs) : k ∈ rule.roots := by
  have hholds := (rule.runs_reading text).yields (fun t ht => Token.kind_mem_significant ht)
    Variants.holds_nil (Production.yields_of_gives (rule.gives_production _))
  rw [h.built] at hholds
  obtain ⟨hmatches, hrecovered⟩ := hholds
  -- Only `error` nodes are not counted, and this is none.
  have hcounted : Tree.counted [.node k cs] = [k] := by
    cases hrecovered _ List.mem_cons_self with
    | error => exact absurd rfl h.good
    | node hk => simp [Tree.counted, Tree.kind, Kind.isSignificant_production k hk]
  rw [List.reverse_singleton, hcounted] at hmatches
  simpa [Shape.kinds, opt] using mem_kinds (Variants.matches_singleton.mp hmatches) k
    List.mem_cons_self

theorem Reading.Whole.leavesOf_eq (h : (rule.reading text).Whole k cs) :
    Tree.leavesOf cs = Token.significant (tokenize text) := by
  simpa [(FragmentRule.scratchChildren_eq_node h.good).mpr h] using
    rule.leavesOf_scratchChildren text

end

/-! ## Fragments without errors -/

/-- A fragment without errors has no bad token, and its rule reads all tokens. -/
theorem runs_of_parseFragment {rule : FragmentRule} {text : String}
    (hok : (parseFragment rule text).parse.ok = true) :
    (∀ t ∈ tokenize text, t.kind ≠ .error) ∧
      Runs noError (.of rule.production) ⟨.topLevel, [], 0, ParseOptions.standard.limit⟩
        (.start (Token.significant (tokenize text))) (rule.reading text) ∧
      (rule.reading text).ahead = [] := by
  rw [ok_parseFragment] at hok
  obtain ⟨hgood, hclean⟩ := Parse.clean_of_ok hok
  -- A token that is left would have left an error behind, its own or the one before it.
  obtain ⟨m, hm, hend, -⟩ := (rule.scratch.runs_of_clean rule.tame_scratch hclean).of_scratch
  obtain rfl : rule.reading text = m := (hm.read_eq rule.tame_production).1
  refine ⟨hgood, hm, Reading.ahead_eq_nil_of_atEnd (fun t ht => ?_) hend⟩
  exact Token.kind_mem_tokens_of_significant (hm.leads.1.subset ht)

/-- A rule that reads the whole text without errors reads it into one node. -/
theorem Runs.exists_whole {rule : FragmentRule} {text : String}
    (h : Runs noError (.of rule.production) ⟨.topLevel, [], 0, ParseOptions.standard.limit⟩
      (.start (Token.significant (tokenize text))) (rule.reading text))
    (hend : (rule.reading text).ahead = []) : ∃ k cs, (rule.reading text).Whole k cs := by
  have hholds : Shape.Holds [one rule.roots] (rule.reading text).built :=
    h.holds (fun t ht => Token.kind_mem_significant ht) Shape.holds_nil
      (Production.turns_of_adds (rule.adds_production _))
  obtain ⟨hmatches, hshaped⟩ := hholds
  obtain ⟨k, hk, hkinds⟩ := exists_of_matches_one hmatches
  obtain ⟨u, hu, rfl⟩ := List.map_eq_singleton_iff.mp hkinds
  rw [List.reverse_eq_iff, List.reverse_singleton] at hu
  cases hshaped u (hu ▸ List.mem_cons_self) with
  | leaf ht => exact absurd (rule.roots_subset hk) (Kind.plain_significant _ ht).2.1
  | @node k cs hp _ _ => exact ⟨k, cs, hend, hu, fun he => absurd (he ▸ hp) (by decide)⟩

/-- **A fragment has the promised root.** The rule has matched the whole text exactly when the root
is no `error` node, and then the root has a kind that the rule promises. That is so exactly when the
rule reads all tokens into one good node and no bad token stands at either end of the text. Without
errors the rule has matched the whole text. Where it leaves a token, there is an error and the rule
has not matched. -/
theorem parseFragment_root (rule : FragmentRule) (text : String) :
    let fragment := parseFragment rule text
    (fragment.fullyConsumed = true ↔ fragment.parse.tree.kind ≠ .error) ∧
      (fragment.fullyConsumed = true → fragment.parse.tree.kind ∈ rule.roots) ∧
      (fragment.fullyConsumed = true ↔
        (∃ k cs, (rule.reading text).Whole k cs) ∧ Token.EdgesGood (tokenize text)) ∧
      (fragment.parse.ok = true → fragment.fullyConsumed = true) ∧
      ((rule.reading text).ahead ≠ [] →
        fragment.parse.ok = false ∧ fragment.fullyConsumed = false) := by
  intro fragment
  refine ⟨?_, ?_, fullyConsumed_iff, ?_, ?_⟩
  · constructor
    · intro h
      obtain ⟨k, cs, hwhole, -, htree⟩ := exists_whole_of_consumed h
      exact htree ▸ hwhole.good
    · intro h
      by_contra hconsumed
      refine h ?_
      rw [parseFragment_of_not_consumed (Bool.eq_false_iff.mpr hconsumed)]
      rfl
  · intro h
    obtain ⟨k, cs, hwhole, -, htree⟩ := exists_whole_of_consumed h
    exact htree ▸ hwhole.mem_roots
  · intro h
    obtain ⟨hgood, hruns, hend⟩ := runs_of_parseFragment h
    exact fullyConsumed_iff.mpr ⟨hruns.exists_whole hend, Token.edgesGood_of_forall hgood⟩
  · intro h
    constructor
    · refine Bool.eq_false_iff.mpr fun hok => h ?_
      exact (runs_of_parseFragment hok).2.2
    · refine Bool.eq_false_iff.mpr fun hconsumed => h ?_
      obtain ⟨⟨k, cs, hwhole⟩, -⟩ := fullyConsumed_iff.mp hconsumed
      exact hwhole.ahead

/-- The bracket that is left over stands where the expression is already missing, so it is not
reported once more. -/
example : (FragmentRule.expression.reading ")").ahead.length = 1 ∧
    (parseFragment .expression ")").parse.faults.map (·.code) = [.missingExpression] ∧
    (parseFragment .expression ")").parse.ok = false ∧
    (parseFragment .expression ")").fullyConsumed = false := by
  decide +kernel

end Modelica
