import Modelica.Proofs.Acceptance

/-!
# Operators group as the ladder has it

The ladder of operators with a production for every rung, and with the tree over each, beside the
loop that reads all of them (`Grammar.band`). A simple expression that is read on its own parses
without errors just when it stands on the ladder, and its tree is the one from there.

* `Ladder`: the rungs, from `or` down to the powers;
* `ladder_iff`: a rung and the right-hand side of its band stand for the same;
* `simpleExpression_ladder`: the statement for texts.
-/

namespace Modelica

/-- The rungs of the ladder, the loosest first. -/
inductive Rung where
  | or | and | not | rel | add | uadd | mul | pow
  deriving DecidableEq

namespace Rung

/-- The level of a rung among the bands. -/
def level : Rung → Nat
  | or => 0
  | and => 1
  | not => 2
  | rel => 3
  | add => 4
  | uadd => 5
  | mul => 6
  | pow => 7

end Rung

namespace Tree

/-- An operator between two operands. -/
def binary (u : Tree) (t : Token) (w : Tree) : Tree := node .binaryExpression [u, leaf t, w]

/-- An operator before its operand. -/
def unary (t : Token) (w : Tree) : Tree := node .unaryExpression [leaf t, w]

end Tree

/-- `Ladder n rung ts u k`: before a token of kind `k`, the tokens `ts` stand on the rung, with the
tree `u` over them, and the levels in them nest `n` deep at most. -/
inductive Ladder : Nat → Rung → List Token → Tree → Kind → Prop
  /-- `Or := And ('or' And)*` -/
  | or {n ts u k} : Ladder n .and ts u k → Ladder n .or ts u k
  | orStep {n ts u vs w k t} : Ladder n .or ts u t.kind → t.kind = .orKw →
      Ladder n .and vs w k → Ladder n .or (ts ++ t :: vs) (.binary u t w) k
  /-- `And := Not ('and' Not)*` -/
  | and {n ts u k} : Ladder n .not ts u k → Ladder n .and ts u k
  | andStep {n ts u vs w k t} : Ladder n .and ts u t.kind → t.kind = .andKw →
      Ladder n .not vs w k → Ladder n .and (ts ++ t :: vs) (.binary u t w) k
  /-- `Not := 'not' Not | Rel` -/
  | notStep {n vs w k t} : t.kind = .notKw → Ladder n .not vs w k →
      Ladder (n + 1) .not (t :: vs) (.unary t w) k
  | not {n ts u k} : Ladder n .rel ts u k → Ladder n .not ts u k
  /-- `Rel := Add (relop Add)?` -/
  | rel {n ts u k} : Ladder n .add ts u k → Ladder n .rel ts u k
  | relStep {n ts u vs w k t} : Ladder n .add ts u t.kind → t.kind ∈ Band.relational →
      Ladder n .add vs w k → Ladder n .rel (ts ++ t :: vs) (.binary u t w) k
  /-- `Add := UAdd (addop UAdd)*` -/
  | add {n ts u k} : Ladder n .uadd ts u k → Ladder n .add ts u k
  | addStep {n ts u vs w k t} : Ladder n .add ts u t.kind → t.kind ∈ Band.additive →
      Ladder n .uadd vs w k → Ladder n .add (ts ++ t :: vs) (.binary u t w) k
  /-- `UAdd := addop UAdd | Mul` -/
  | uaddStep {n vs w k t} : t.kind ∈ Band.additive → Ladder n .uadd vs w k →
      Ladder (n + 1) .uadd (t :: vs) (.unary t w) k
  | uadd {n ts u k} : Ladder n .mul ts u k → Ladder n .uadd ts u k
  /-- `Mul := Pow (mulop Pow)*` -/
  | mul {n ts u k} : Ladder n .pow ts u k → Ladder n .mul ts u k
  | mulStep {n ts u vs w k t} : Ladder n .mul ts u t.kind → t.kind ∈ Band.multiplicative →
      Ladder n .pow vs w k → Ladder n .mul (ts ++ t :: vs) (.binary u t w) k
  /-- `Pow := primary (powop Pow)?` -/
  | pow {n ts u k} : Derives endGuarded (.rule .primary) n ts [u] k → Ladder n .pow ts u k
  | powStep {n ts u vs w k t} : Derives endGuarded (.rule .primary) (n + 1) ts [u] t.kind →
      t.kind ∈ Band.power → Ladder n .pow vs w k →
      Ladder (n + 1) .pow (ts ++ t :: vs) (.binary u t w) k

/-! ## Rungs and bands -/

section

variable {n : Nat} {ts vs : List Token} {us : List Tree} {u w : Tree} {t : Token} {k : Kind}

/-- A primary expression has one tree over it. -/
theorem node_of_primary (h : Derives endGuarded (.rule .primary) n ts us k) :
    ∃ l cs, us = [.node l cs] ∧ l ≠ .error := by
  have hnode : ∀ {l f us}, l ≠ .error → Derives endGuarded (.node l f) n ts us k →
      ∃ l cs, us = [.node l cs] ∧ l ≠ .error := by
    intro l f us hl h
    cases h with
    | node _ => exact ⟨l, _, rfl, hl⟩
  obtain ⟨f, hf, hd⟩ := Production.derives_of_alts (derives_rule.mp h)
  simp only [List.mem_cons, List.not_mem_nil, or_false] at hf
  rcases hf with rfl | rfl | rfl | rfl | rfl | rfl | rfl | rfl | rfl | rfl
  case inr.inr.inr.inr.inr.inl =>
    cases hd with
    | left hd => exact hnode (by decide) hd
    | right hd => exact hnode (by decide) (derives_rule.mp hd)
  case inr.inr.inr.inr.inr.inr.inl | inr.inr.inr.inr.inr.inr.inr.inl
      | inr.inr.inr.inr.inr.inr.inr.inr.inl =>
    exact hnode (by decide) (derives_rule.mp hd)
  all_goals exact hnode (by decide) hd

/-- One more operator in a chain that groups to the left. -/
theorem derives_chain {level : Nat} {operators : List Kind} {operand : Form}
    (hrung : Nonterminal.rung level = .leftChain operators operand)
    (h : Derives endGuarded (.rule (.band level)) n ts [u] t.kind) (ht : t.kind ∈ operators)
    (h' : Derives endGuarded operand n vs [w] k) :
    Derives endGuarded (.rule (.band level)) n (ts ++ t :: vs) [.binary u t w] k := by
  have hchain := derives_rule.mp h
  rw [show Nonterminal.form (.band level) = _ from hrung] at hchain
  refine .rule ?_
  rw [show Nonterminal.form (.band level) = _ from hrung]
  exact .step hchain (.seq (.token ht) h')

theorem derives_binary {left right : Form} {operators : List Kind}
    (h : Derives endGuarded left n ts [u] t.kind) (ht : t.kind ∈ operators)
    (h' : Derives endGuarded right n vs [w] k) :
    Derives endGuarded (.binary left operators right) n (ts ++ t :: vs) [.binary u t w] k := by
  have hseq : Derives endGuarded (.sequence [left, .token operators, right]) n
      (ts ++ ([t] ++ vs)) ([u] ++ ([.leaf t] ++ [w])) k :=
    .seq h (.seq (.token ht) h')
  exact .node hseq

/-- What stands on a rung, its band stands for. -/
theorem Ladder.derives {rung : Rung} (h : Ladder n rung ts u k) :
    Derives endGuarded (.rule (.band rung.level)) n ts [u] k := by
  induction h with
  | or _ ih | and _ ih | add _ ih | mul _ ih => exact .rule (.operand ih)
  | orStep _ ht _ ih ih' | andStep _ ht _ ih ih' =>
    exact derives_chain rfl ih (List.mem_singleton.mpr ht) ih'
  | addStep _ ht _ ih ih' | mulStep _ ht _ ih ih' => exact derives_chain rfl ih ht ih'
  | notStep ht _ ih =>
    exact .rule (.left (.rule (.node (.seq (.token (List.mem_singleton.mpr ht))
      (.rule (.level ih))))))
  | uaddStep ht _ ih => exact .rule (.left (.rule (.node (.seq (.token ht) (.rule (.level ih))))))
  | not _ ih | rel _ ih | uadd _ ih => exact .rule (.right ih)
  | relStep _ ht _ ih ih' => exact .rule (.left (derives_binary ih ht ih'))
  | pow hd => exact .rule (.right hd)
  | powStep hd ht _ ih =>
    exact .rule (.left (derives_binary hd ht (.rule (.level ih))))

/-- What is said of the rules that the ladder is made of. -/
def OnLadder : RuleClaim := fun rule n ts us k =>
  Derives endGuarded (.rule rule) n ts us k ∧
    (∀ rung : Rung, rule = .band rung.level → ∃ u, us = [u] ∧ Ladder n rung ts u k) ∧
    (∀ rung : Rung, rule = .operand rung.level →
      ∃ m u, n = m + 1 ∧ us = [u] ∧ Ladder m rung ts u k) ∧
    ∀ rung : Rung, rule = .unary rung.level → ∃ m t vs w, n = m + 1 ∧ ts = t :: vs ∧
      us = [.unary t w] ∧ t.kind ∈ Nonterminal.prefixOperators rung.level ∧ Ladder m rung vs w k

/-- A chain of operators that groups to the left climbs the ladder. -/
theorem ladder_of_chained {rung next : Rung} {operators : List Kind}
    (hnext : ∀ {ts u k}, Ladder n next ts u k → Ladder n rung ts u k)
    (hstep : ∀ {ts u vs w k t}, Ladder n rung ts u t.kind → t.kind ∈ operators →
      Ladder n next vs w k → Ladder n rung (ts ++ t :: vs) (.binary u t w) k)
    (h : (Form.leftChain operators (.rule (.band next.level))).Holds endGuarded OnLadder
      n ts us k) :
    ∃ u, us = [u] ∧ Ladder n rung ts u k := by
  induction h with
  | operand h =>
    obtain ⟨u, rfl, hl⟩ := h.2.1 next rfl
    exact ⟨u, rfl, hnext hl⟩
  | step _ hoperation ih =>
    obtain ⟨u, rfl, hl⟩ := ih
    obtain ⟨_, _, vs, ws, rfl, rfl, ⟨t, ht, rfl, rfl⟩, hoperand⟩ := hoperation
    obtain ⟨w, rfl, hr⟩ := hoperand.2.1 next rfl
    exact ⟨_, rfl, hstep hl ht hr⟩

theorem onLadder_of_holds {rule : Nonterminal}
    (h : rule.form.Holds endGuarded OnLadder n ts us k) : OnLadder rule n ts us k := by
  refine ⟨.rule (h.derives fun hr => hr.1), ?_, ?_, ?_⟩
  · rintro rung rfl
    cases rung with
    | or => exact ladder_of_chained .or (fun hl ht => .orStep hl (List.mem_singleton.mp ht)) h
    | and => exact ladder_of_chained .and (fun hl ht => .andStep hl (List.mem_singleton.mp ht)) h
    | not =>
      rcases h with h | h
      · obtain ⟨m, t, vs, w, rfl, rfl, rfl, ht, hl⟩ := h.2.2.2 .not rfl
        exact ⟨_, rfl, .notStep (List.mem_singleton.mp ht) hl⟩
      · obtain ⟨u, rfl, hl⟩ := h.2.1 .rel rfl
        exact ⟨u, rfl, .not hl⟩
    | rel =>
      rcases h with ⟨_, rfl, _, _, _, _, rfl, rfl, hleft, hrest⟩ | h
      · obtain ⟨_, _, vs, ws, rfl, rfl, ⟨t, ht, rfl, rfl⟩, hright⟩ := hrest
        obtain ⟨u, rfl, hl⟩ := hleft.2.1 .add rfl
        obtain ⟨w, rfl, hr⟩ := hright.2.1 .add rfl
        exact ⟨_, rfl, .relStep hl ht hr⟩
      · obtain ⟨u, rfl, hl⟩ := h.2.1 .add rfl
        exact ⟨u, rfl, .rel hl⟩
    | add => exact ladder_of_chained .add .addStep h
    | uadd =>
      rcases h with h | h
      · obtain ⟨m, t, vs, w, rfl, rfl, rfl, ht, hl⟩ := h.2.2.2 .uadd rfl
        exact ⟨_, rfl, .uaddStep ht hl⟩
      · obtain ⟨u, rfl, hl⟩ := h.2.1 .mul rfl
        exact ⟨u, rfl, .uadd hl⟩
    | mul => exact ladder_of_chained .mul .mulStep h
    | pow =>
      rcases h with ⟨_, rfl, _, _, _, _, rfl, rfl, hleft, hrest⟩ | h
      · obtain ⟨_, _, vs, ws, rfl, rfl, ⟨t, ht, rfl, rfl⟩, hright⟩ := hrest
        obtain ⟨l, cs, rfl, -⟩ := node_of_primary hleft.1
        obtain ⟨m, w, rfl, rfl, hr⟩ := hright.2.2.1 .pow rfl
        exact ⟨_, rfl, .powStep hleft.1 ht hr⟩
      · obtain ⟨l, cs, rfl, -⟩ := node_of_primary h.1
        exact ⟨_, rfl, .pow h.1⟩
  · rintro rung rfl
    obtain ⟨m, rfl, h⟩ := h
    obtain ⟨u, rfl, hl⟩ := h.2.1 rung rfl
    exact ⟨m, u, rfl, rfl, hl⟩
  · rintro rung rfl
    obtain ⟨_, rfl, _, _, vs, ws, rfl, rfl, ⟨t, ht, rfl, rfl⟩, h⟩ := h
    obtain ⟨m, w, rfl, rfl, hl⟩ := h.2.2.1 rung rfl
    exact ⟨m, t, vs, w, rfl, rfl, rfl, ht, hl⟩

/-- A rung of the ladder and the right-hand side of its band stand for the same. -/
theorem ladder_iff {rung : Rung} :
    (∃ u, us = [u] ∧ Ladder n rung ts u k) ↔
      Derives endGuarded (.rule (.band rung.level)) n ts us k := by
  constructor
  · rintro ⟨u, rfl, h⟩
    exact h.derives
  · intro h
    have hon : OnLadder (.band rung.level) n ts us k := h.holds onLadder_of_holds
    exact hon.2.1 rung rfl

theorem Ladder.node {rung : Rung} (h : Ladder n rung ts u k) :
    ∃ l cs, u = .node l cs ∧ l ≠ .error := by
  induction h with
  | or _ ih | and _ ih | not _ ih | rel _ ih | add _ ih | uadd _ ih | mul _ ih => exact ih
  | pow h =>
    obtain ⟨l, cs, h, hl⟩ := node_of_primary h
    exact ⟨l, cs, List.singleton_inj.mp h, hl⟩
  | _ => exact ⟨_, _, rfl, by decide⟩

end

/-! ## Fragments that are read whole -/

namespace Tree

/-- A node that is all that is left of the children without trivia stands alone among them. -/
theorem exists_of_stripAll {cs ds : List Tree} {l : Kind}
    (h : stripAll cs = [node l ds]) (hb : ∀ c ∈ cs, c.isBadToken = false) :
    ∃ before es after, cs = before ++ node l es :: after ∧ (∀ c ∈ before, c.isTriviaLeaf = true) ∧
      (∀ c ∈ after, c.isTriviaLeaf = true) ∧ stripAll es = ds := by
  have htrivia : ∀ {cs}, (∀ c ∈ cs, c.isBadToken = false) → stripAll cs = [] →
      ∀ c ∈ cs, c.isTriviaLeaf = true := by
    intro cs hb h
    induction cs with
    | nil => exact fun _ hc => absurd hc List.not_mem_nil
    | cons c cs ih =>
      have hc := hb c List.mem_cons_self
      unfold stripAll at h
      split at h
      · rename_i ht
        refine List.forall_mem_cons.mpr ⟨by simpa [hc] using ht, ?_⟩
        exact ih (fun d hd => hb d (List.mem_cons_of_mem c hd)) h
      · cases h
  induction cs with
  | nil => cases h
  | cons c cs ih =>
    have hb' : ∀ d ∈ cs, d.isBadToken = false := fun d hd => hb d (List.mem_cons_of_mem c hd)
    unfold stripAll at h
    split at h
    · rename_i ht
      have hc : c.isTriviaLeaf = true := by simpa [hb c List.mem_cons_self] using ht
      obtain ⟨before, es, after, rfl, hbefore, hafter, hes⟩ := ih h hb'
      exact ⟨c :: before, es, after, rfl, List.forall_mem_cons.mpr ⟨hc, hbefore⟩, hafter, hes⟩
    · obtain ⟨hc, hcs⟩ := List.cons_eq_cons.mp h
      cases c with
      | leaf t => cases hc
      | node l' es =>
        cases hc
        exact ⟨[], es, cs, rfl, fun _ hd => absurd hd List.not_mem_nil, htrivia hb' hcs, rfl⟩

theorem stripAll_of_trivia {cs : List Tree} (h : ∀ c ∈ cs, c.isTriviaLeaf = true) :
    stripAll cs = [] := by
  induction cs with
  | nil => rfl
  | cons c cs ih =>
    obtain ⟨hc, hcs⟩ := List.forall_mem_cons.mp h
    rw [stripAll, hc, Bool.true_or, if_pos rfl]
    exact ih hcs

/-- The node that stands alone becomes the root. -/
theorem soleNode_of_stripAll {cs ds : List Tree} {k l : Kind} (hl : l ≠ .error)
    (h : stripAll cs = [node l ds]) (hb : ∀ c ∈ cs, c.isBadToken = false) :
    ∃ root, (node k cs).soleNode? = some root ∧ root.strip = node l ds := by
  obtain ⟨before, es, after, rfl, hbefore, hafter, rfl⟩ := exists_of_stripAll h hb
  have hnode : ¬ (node l es).isTriviaLeaf = true := Bool.false_ne_true
  refine ⟨node l (before ++ es ++ after), ?_, ?_⟩
  · simp only [soleNode?, children, List.dropWhile_append_of_pos hbefore,
      List.takeWhile_append_of_pos hbefore, List.dropWhile_cons_of_neg hnode,
      List.takeWhile_cons_of_neg hnode, List.append_nil]
    rw [if_pos ⟨hl, List.all_eq_true.mpr hafter⟩]
  · simp [strip, stripAll_append, stripAll_of_trivia hbefore, stripAll_of_trivia hafter]

end Tree

/-- What a fragment has to do: its rule, and then nothing is left. -/
theorem Runs.of_scratch {rule : FragmentRule} {env : Surroundings} {r r' : Reading}
    (h : Runs noError (.of rule.scratch) env r r') :
    ∃ m, Runs noError (.of rule.production) env { r with built := [] } m ∧
      (m.look env).atEnd = true ∧
        r' = { m with built := .node .error m.built.reverse :: r.built } := by
  obtain ⟨w, hw, rfl⟩ := runs_node.mp h
  obtain ⟨m, hrule, hrest⟩ := runs_seq_cons.mp hw
  replace hrest := runs_look.mp hrest
  split at hrest
  · rename_i hend
    rw [runs_done.mp hrest]
    exact ⟨m, hrule, hend, rfl⟩
  · obtain ⟨x, hfault, -⟩ := runs_seq_cons.mp hrest
    cases (runs_report.mp (runs_look.mp hfault)).1

theorem Runs.scratch {allowed : Diagnostic Spot → Prop} {rule : FragmentRule} {env : Surroundings}
    {r m : Reading} (h : Runs allowed (.of rule.production) env { r with built := [] } m)
    (he : (m.look env).atEnd = true) :
    Runs allowed (.of rule.scratch) env r
      { m with built := .node .error m.built.reverse :: r.built } := by
  refine runs_node.mpr ⟨m, runs_seq_cons.mpr ⟨m, h, .look ?_⟩, rfl⟩
  rw [if_pos he]
  exact .done

namespace Parse

/-- Where no token is bad, no child of a tree over the text is a bad token. -/
theorem Covers.isBadToken_eq_false {p : Parse} {text : String} (h : p.Covers text)
    (ht : ∀ t ∈ tokenize text, t.kind ≠ .error) : ∀ c ∈ p.tree.children, c.isBadToken = false := by
  intro c hc
  unfold Tree.isBadToken
  split
  · rename_i t
    have hmem : t ∈ p.tree.leaves := by
      cases htree : p.tree with
      | leaf u => simp [htree, Tree.children] at hc
      | node k cs =>
        rw [htree] at hc
        exact Tree.leaves_subset hc List.mem_cons_self
    simpa using ht t (h.leaves ▸ hmem)
  · rfl

end Parse

/-- A fragment has the diagnostics of the run of its rule. -/
theorem ok_parseFragment (rule : FragmentRule) (text : String) :
    (parseFragment rule text).parse.ok =
      (Parse.ofProduction rule.scratch ParseOptions.standard.limit text).ok := by
  rw [Parse.ok, Parse.ok, parseFragment_faults]

/-- A node that stands alone under the scratch root is the tree of the fragment. -/
theorem parseFragment_of_eq_some {rule : FragmentRule} {text : String} {root : Tree}
    (h : (Parse.ofProduction rule.scratch ParseOptions.standard.limit text).tree.soleNode? =
      some root) : (parseFragment rule text).parse.tree = root ∧
      (parseFragment rule text).fullyConsumed = true := by
  simp [parseFragment, h]

theorem parseFragment_of_eq_none {rule : FragmentRule} {text : String}
    (h : (Parse.ofProduction rule.scratch ParseOptions.standard.limit text).tree.soleNode? =
      none) : parseFragment rule text =
      ⟨Parse.ofProduction rule.scratch ParseOptions.standard.limit text, false⟩ := by
  simp [parseFragment, h]

/-- Where a rule has built one node over all tokens, and none of them is bad, that node is the tree
of the fragment. -/
theorem parseFragment_of_built {rule : FragmentRule} {text : String} {l : Kind} {cs : List Tree}
    (ht : ∀ t ∈ tokenize text, t.kind ≠ .error) (hl : l ≠ .error)
    (h : (rule.scratch.read ParseOptions.standard.limit (Token.significant (tokenize text))).built =
      [.node .error [.node l cs]]) :
    (parseFragment rule text).fullyConsumed = true ∧
      (parseFragment rule text).parse.tree.strip = .node l cs := by
  have hstrip :=
    Parse.strip_tree_ofProduction rule.readsAll_scratch ParseOptions.standard.limit text
  rw [h] at hstrip
  have hbad := (Parse.covers_scratch rule ParseOptions.standard.limit text).isBadToken_eq_false ht
  cases htree : (Parse.ofProduction rule.scratch ParseOptions.standard.limit text).tree with
  | leaf t =>
    rw [htree] at hstrip
    cases hstrip
  | node k es =>
    rw [htree] at hstrip hbad
    obtain ⟨rfl, hes⟩ := Tree.node.inj hstrip
    obtain ⟨root, hroot, hs⟩ : ∃ root, (Tree.node .error es).soleNode? = some root ∧
        root.strip = .node l cs := Tree.soleNode_of_stripAll hl hes hbad
    obtain ⟨htop, hwhole⟩ := parseFragment_of_eq_some (htree ▸ hroot)
    exact ⟨hwhole, htop ▸ hs⟩

section

variable {n : Nat} {text : String} {u : Tree}

/-- A text on the ladder is read without errors, and its tree is the one from there. -/
theorem Ladder.reads (ht : ∀ t ∈ tokenize text, t.kind ≠ .error)
    (hn : n ≤ ParseOptions.standard.limit)
    (h : Ladder n .or (Token.significant (tokenize text)) u .endOfInput) :
    (parseFragment .simpleExpression text).parse.ok = true ∧
      (parseFragment .simpleExpression text).fullyConsumed = true ∧
      (parseFragment .simpleExpression text).parse.tree.strip = u := by
  have hd : Derives endGuarded (.rule .simpleExpression) n (Token.significant (tokenize text)) [u]
      .endOfInput :=
    .rule h.derives
  obtain ⟨l, cs, rfl, hl⟩ := h.node
  obtain ⟨m, hrun, ha, hb⟩ := hd.takes ⟨fun _ => id, .inl rfl⟩
    ⟨.topLevel, [], 0, ParseOptions.standard.limit⟩ (.start (Token.significant (tokenize text))) []
    rfl (List.append_nil _).symm (by simpa using hn) rfl
  have hend : (m.look ⟨.topLevel, [], 0, ParseOptions.standard.limit⟩).atEnd = true := by
    simp [Reading.look, Lookahead.atEnd, Lookahead.sees, Lookahead.kind, ha, Token.headKind]
  have hbuilt : m.built = [.node l cs] := hb rfl
  have hscratch : Runs noError (.of (FragmentRule.scratch .simpleExpression))
      ⟨.topLevel, [], 0, ParseOptions.standard.limit⟩ (.start (Token.significant (tokenize text)))
      { m with built := [.node .error m.built.reverse] } :=
    Runs.scratch hrun hend
  obtain ⟨hread, hclean⟩ := Runs.read_eq (FragmentRule.tame_scratch .simpleExpression) hscratch
  have hok := Parse.ok_of_clean ht (hread ▸ hclean)
  have hroot : (Production.read (FragmentRule.scratch .simpleExpression)
      ParseOptions.standard.limit (Token.significant (tokenize text))).built =
        [.node .error [.node l cs]] := by
    rw [hread, hbuilt]
    rfl
  exact ⟨(ok_parseFragment _ text).trans hok, parseFragment_of_built ht hl hroot⟩

/-- What is read without errors as a simple expression stands on the ladder. -/
theorem ladder_of_ok (h : (parseFragment .simpleExpression text).parse.ok = true) :
    ∃ u, Ladder ParseOptions.standard.limit .or (Token.significant (tokenize text)) u
      .endOfInput := by
  have hok : (Parse.ofProduction (FragmentRule.scratch .simpleExpression)
      ParseOptions.standard.limit text).ok = true :=
    (ok_parseFragment _ text).symm.trans h
  have hrun := Production.runs_of_clean _ (FragmentRule.tame_scratch .simpleExpression)
    (Parse.clean_of_ok hok).2
  obtain ⟨m, hrule, hend, -⟩ := hrun.of_scratch
  have hcall : Runs noError (.of (.call .simpleExpression)) _ _ m := hrule
  obtain ⟨ts, us, ha, -, hd⟩ := hcall.spells trivial
  have hahead : m.ahead = [] := by
    refine Reading.ahead_eq_nil_of_atEnd (fun t ht => ?_) hend
    exact Token.kind_mem_tokens_of_significant (hrule.leads.1.subset ht)
  have hts : Token.significant (tokenize text) = ts := by
    simpa [Reading.start, hahead] using ha
  rw [hahead, ← hts] at hd
  have hband : Derives endGuarded (.rule (.band Rung.or.level)) ParseOptions.standard.limit
      (Token.significant (tokenize text)) us .endOfInput :=
    derives_rule.mp hd
  obtain ⟨u, -, hl⟩ := ladder_iff.mpr hband
  exact ⟨u, hl⟩

/-- A text without bad tokens, read as a simple expression, has no errors just when its tokens stand
on the ladder within the bound on nesting; and then the tree over them is the one from there. -/
theorem simpleExpression_ladder (ht : ∀ t ∈ tokenize text, t.kind ≠ .error) :
    ((parseFragment .simpleExpression text).parse.ok = true ↔
      ∃ n u, n ≤ ParseOptions.standard.limit ∧
        Ladder n .or (Token.significant (tokenize text)) u .endOfInput) ∧
    ∀ n u, n ≤ ParseOptions.standard.limit →
      Ladder n .or (Token.significant (tokenize text)) u .endOfInput →
      (parseFragment .simpleExpression text).fullyConsumed = true ∧
        (parseFragment .simpleExpression text).parse.tree.strip = u := by
  refine ⟨⟨fun h => ?_, ?_⟩, fun n u hn h => (h.reads ht hn).2⟩
  · obtain ⟨u, hl⟩ := ladder_of_ok h
    exact ⟨_, u, Nat.le_refl _, hl⟩
  · rintro ⟨n, u, hn, h⟩
    exact (h.reads ht hn).1

end

/-- A sign before a sum and a power at its end. -/
theorem simpleExpression_ladder_sum :
    (∀ t ∈ tokenize "-a + b ^ 2", t.kind ≠ .error) ∧
      ∃ n u, n ≤ ParseOptions.standard.limit ∧
        Ladder n .or (Token.significant (tokenize "-a + b ^ 2")) u .endOfInput ∧
        (parseFragment .simpleExpression "-a + b ^ 2").parse.tree.strip = u := by
  have ht : ∀ t ∈ tokenize "-a + b ^ 2", t.kind ≠ .error := by decide +kernel
  obtain ⟨n, u, hn, h⟩ := (simpleExpression_ladder ht).1.mp (by decide +kernel)
  exact ⟨ht, n, u, hn, h, ((simpleExpression_ladder ht).2 n u hn h).2⟩

end Modelica
