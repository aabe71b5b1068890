import Modelica.Proofs.Checks
import Modelica.Proofs.WholeText

/-!
# Nodes hug their tokens

No node but the root starts with trivia, since a gap goes in front of the node that starts after it.
Where no error is reported no node is empty either, and then no node but the root ends with trivia.

* `Runs.gains`, `Runs.full`: without errors, nodes are put over tokens only;
* `Tree.snug_weaveAll`: weaving puts no gap at the start of a node;
* `Tree.trim_weaveAll`: it puts none at the end of a node if no node is empty;
* `Parse.hugs_ofProduction`: what follows for the nodes of a parse;
* `parses_hug`: the statement for a parse, a bounded parse and a fragment.
-/

namespace Modelica

open Production

/-- What there is to do reads a token or reports an error. -/
def Task.Gains : Task → Lookahead → Prop
  | of p, v => p.Gains v
  | rest continues item before, v => continues v = true ∧ (item before).Gains v

/-- What there is to do puts nodes over tokens only, unless it reports an error. -/
def Task.Bears : Task → Lookahead → Prop → Prop
  | of p, v, filled => p.Bears v filled
  | rest continues item _, v, filled => (Production.many continues item).Bears v filled

namespace Tree

/-- Every node has a token below it. -/
inductive Full : Tree → Prop
  | leaf {t} : Full (leaf t)
  | node {k cs} : leavesOf cs ≠ [] → (∀ c ∈ cs, Full c) → Full (node k cs)

end Tree

namespace Runs

variable {task : Task} {env : Surroundings} {r r' : Reading}

/-- What is certain to be read without errors is read. -/
theorem gains (h : Runs noError task env r r') (ht : task.Gains (r.look env)) :
    r'.ahead.length < r.ahead.length := by
  induction h with
  | done => exact ht.elim
  | andThen hp hq ihp ihq =>
    rcases ht with ht | ht
    · exact Nat.lt_of_le_of_lt hq.leads.length_le (ihp ht)
    · exact Nat.lt_of_lt_of_le (ihq (ht _ _)) hp.leads.length_le
  | @shift env r =>
    cases ha : r.ahead with
    | nil => simp [Task.Gains, Reading.look, Lookahead.kind, ha, Token.headKind] at ht
    | cons t ts => simp [Reading.shift_cons ha]
  | group _ ih | wrap _ ih | look _ ih | many _ ih | inContext _ ih | opening _ ih => exact ih ht
  | stop hc => simp [Task.Gains, hc] at ht
  | turn _ _ hr ihi _ => exact Nat.lt_of_le_of_lt hr.leads.length_le (ihi ht.2)
  | call _ ih => exact ih (Nonterminal.gains_production ht)
  | report hf => exact absurd ht (Bool.eq_false_iff.mp hf)
  | within _ _ ih => exact ih ht.1
  | beyond _ _ ih => exact ih ht.2

/-- What a run reads is below the trees that it builds. -/
theorem leavesOf_ne_nil {allowed : Diagnostic Spot → Prop} (h : Runs allowed task env r r')
    (hr : Tree.leavesOf r.built.reverse ≠ [] ∨ r'.ahead.length < r.ahead.length) :
    Tree.leavesOf r'.built.reverse ≠ [] := by
  have hleaves : (Tree.leavesOf r'.built.reverse).length + r'.ahead.length =
      (Tree.leavesOf r.built.reverse).length + r.ahead.length := by
    simpa [Reading.tokens] using congrArg List.length h.leaves
  have hle := h.leads.length_le
  rw [← List.length_pos_iff] at hr ⊢
  omega

/-- Without errors every node that is built has a token below it. -/
theorem full (h : Runs noError task env r r') {filled : Prop} (ht : task.Bears (r.look env) filled)
    (hf : filled → Tree.leavesOf r.built.reverse ≠ []) (hb : ∀ t ∈ r.built, t.Full) :
    ∀ t ∈ r'.built, t.Full := by
  induction h generalizing filled with
  | done | stop _ => exact hb
  | andThen hp _ ihp ihq =>
    obtain ⟨hfp, hfail | hfq⟩ := ht
    · exact absurd hfail hp.not_fails
    · refine ihq (hfq _ _) (fun hg => hp.leavesOf_ne_nil ?_) (ihp hfp hf hb)
      exact hg.imp hf hp.gains
  | @shift env r =>
    cases ha : r.ahead with
    | nil => rwa [Reading.shift_nil ha]
    | cons t ts =>
      rw [Reading.shift_cons ha]
      exact List.forall_mem_cons.mpr ⟨.leaf, hb⟩
  | group _ ih =>
    have hm := ih ht False.elim fun _ h => nomatch h
    exact fun t h => (List.mem_append.mp h).elim (hm t) (hb t)
  | wrap hp ih =>
    refine List.forall_mem_singleton.mpr (.node (hp.leavesOf_ne_nil (ht.2.imp hf hp.gains)) ?_)
    exact fun t h => ih ht.1 hf hb t (List.mem_reverse.mp h)
  | look _ ih | many _ ih | inContext _ ih | opening _ ih => exact ih ht hf hb
  | turn hc hi _ ihi ihr =>
    refine ihr ht (fun h => hi.leavesOf_ne_nil (.inl (hf h))) ?_
    exact ihi (ht _ _ hc _) hf hb
  | call _ ih => exact ih (Nonterminal.bears_production ht) False.elim hb
  | report _ => rwa [Reading.report_built]
  | within _ _ ih => exact ih ht.1 hf hb
  | beyond _ _ ih => exact ih ht.2 hf hb

end Runs

namespace Tree

theorem isSignificant_of_afterGap {ts : List Token} {t : Token} (h : t ∈ (afterGap ts).head?) :
    t.isSignificant = true := by
  have hn := List.head?_dropWhile_not (!·.isSignificant) ts
  rw [← afterGap, Option.mem_def.mp h] at hn
  simpa using hn

theorem afterGap_ne_nil {ts s : List Token} {cs : List Tree} (hne : leavesOf cs ≠ [])
    (h : Token.significant ts = leavesOf cs ++ s) : afterGap ts ≠ [] := fun he =>
  hne (List.append_eq_nil_iff.mp (h.symm.trans (afterGap_eq_nil_iff.mp he))).1

mutual

/-- Where nothing is left to read, a tree without tokens stays as it is. -/
theorem weaveChild_empty {ts : List Token} (ht : afterGap ts = []) :
    (c : Tree) → c.leaves = [] → weaveChild ts c = ([c], ts)
  | node k cs, h => by simp [weaveChild, ht, weaveAll_empty ht cs h]

theorem weaveAll_empty {ts : List Token} (ht : afterGap ts = []) :
    (cs : List Tree) → leavesOf cs = [] → weaveAll ts cs = (cs, ts)
  | [], _ => rfl
  | c :: cs, h => by
    obtain ⟨hc, hcs⟩ := List.append_eq_nil_iff.mp h
    simp [weaveAll, weaveChild_empty ht c hc, weaveAll_empty ht cs hcs]

end

/-- A node starts with a significant token, if it has any tokens, and so does every node below it.
Only a bad token has a node of its own. -/
inductive Snug : Tree → Prop
  | leaf {t} : Snug (leaf t)
  | bad {t} : t.kind = .error → Snug (node .error [leaf t])
  | node {k cs} : (∀ t ∈ (leavesOf cs).head?, t.isSignificant = true) → Wrapped cs →
      (∀ c ∈ cs, Snug c) → Snug (node k cs)

theorem snug_gap (ts : List Token) : ∀ c ∈ gap ts, c.Snug := by
  intro c hc
  obtain ⟨t, -, rfl⟩ := List.mem_map.mp hc
  unfold ofGapToken
  split
  · exact .bad ‹_›
  · exact .leaf

mutual

/-- The gap before a node is woven in front of it. -/
theorem snug_weaveChild (ts s : List Token) :
    (c : Tree) → Token.significant ts = c.leaves ++ s → ∀ d ∈ (weaveChild ts c).1, d.Snug
  | leaf t, _ => by
    intro d hd
    rcases List.mem_append.mp hd with hd | hd
    · exact snug_gap ts d hd
    · cases List.mem_singleton.mp hd
      exact .leaf
  | node k cs, h => by
    have hs : ∀ t ∈ leavesOf cs, t.isSignificant = true := fun t ht =>
      (List.mem_filter.mp (h ▸ List.mem_append_left s ht)).2
    by_cases he : afterGap ts = []
    · -- nothing is left to read, so the node has no token
      have hcs : leavesOf cs = [] :=
        (List.append_eq_nil_iff.mp (h.symm.trans (afterGap_eq_nil_iff.mp he))).1
      have hall := snug_weaveAll ts s cs h
      rw [weaveAll_empty he cs hcs] at hall
      rw [weaveChild_empty he (node k cs) hcs]
      have hw : Wrapped cs := by simpa [weaveAll_empty he cs hcs] using wrapped_weaveAll ts hs
      exact List.forall_mem_singleton.mpr (.node (by simp [hcs]) hw hall)
    · have h' : Token.significant (afterGap ts) = leavesOf cs ++ s :=
        (significant_afterGap ts).trans h
      obtain ⟨hleaves, -⟩ := leavesOf_weaveAll (afterGap ts) s cs h'
      intro d hd
      simp only [weaveChild, List.isEmpty_iff, he, ↓reduceIte, List.mem_append,
        List.mem_singleton] at hd
      rcases hd with hd | rfl
      · exact snug_gap ts d hd
      · refine .node (fun t ht => ?_) (wrapped_weaveAll _ hs) (snug_weaveAll (afterGap ts) s cs h')
        have hfirst : t ∈ (afterGap ts).head? := by
          rw [← hleaves, List.head?_append, Option.mem_def.mp ht]
          rfl
        exact isSignificant_of_afterGap hfirst

theorem snug_weaveAll (ts s : List Token) :
    (cs : List Tree) → Token.significant ts = leavesOf cs ++ s → ∀ d ∈ (weaveAll ts cs).1, d.Snug
  | [], _ => fun _ hd => nomatch hd
  | c :: cs, h => by
    have h' : Token.significant ts = c.leaves ++ (leavesOf cs ++ s) := by simpa using h
    have hrest := snug_weaveAll _ s cs (leavesOf_weaveChild ts (leavesOf cs ++ s) c h').2
    intro d hd
    exact (List.mem_append.mp hd).elim (snug_weaveChild ts _ c h' d) (hrest d)

end

/-- A node ends with a significant token, and so does every node below it. -/
inductive Trim : Tree → Prop
  | leaf {t} : Trim (leaf t)
  | node {k cs} : (∃ t ∈ (leavesOf cs).getLast?, t.isSignificant = true) → (∀ c ∈ cs, Trim c) →
      Trim (node k cs)

theorem trim_gap {ts : List Token} (hg : ∀ t ∈ ts, t.kind ≠ .error) : ∀ c ∈ gap ts, c.Trim := by
  intro c hc
  obtain ⟨t, ht, rfl⟩ := List.mem_map.mp hc
  rw [ofGapToken, if_neg (hg t ((List.takeWhile_prefix _).subset ht))]
  exact .leaf

mutual

/-- A tree without empty nodes ends, with the gaps put back, where it ended before. -/
theorem getLast?_weaveChild (ts s : List Token) :
    (c : Tree) → c.Full → Token.significant ts = c.leaves ++ s →
      (leavesOf (weaveChild ts c).1).getLast? = c.leaves.getLast?
  | leaf t, _, _ => by simp [weaveChild, List.getLast?_append]
  | node k cs, .node hne hfull, h => by
    have he := afterGap_ne_nil hne h
    have hlast := getLast?_weaveAll (afterGap ts) s cs hfull ((significant_afterGap ts).trans h)
    have hsome : (leavesOf cs).getLast?.isSome = true := by simpa using hne
    simp only [weaveChild, List.isEmpty_iff, he, ↓reduceIte, leavesOf_append, leavesOf_cons,
      leaves_node, leavesOf_nil, List.append_nil, List.getLast?_append, hlast]
    exact Option.or_of_isSome hsome

theorem getLast?_weaveAll (ts s : List Token) :
    (cs : List Tree) → (∀ c ∈ cs, c.Full) → Token.significant ts = leavesOf cs ++ s →
      (leavesOf (weaveAll ts cs).1).getLast? = (leavesOf cs).getLast?
  | [], _, _ => rfl
  | c :: cs, hfull, h => by
    have h' : Token.significant ts = c.leaves ++ (leavesOf cs ++ s) := by simpa using h
    have hc := getLast?_weaveChild ts _ c (hfull c (by simp)) h'
    have hcs := getLast?_weaveAll _ s cs (fun d hd => hfull d (by simp [hd]))
      (leavesOf_weaveChild ts _ c h').2
    simp only [weaveAll, leavesOf_append, leavesOf_cons, List.getLast?_append, hc, hcs]

end

mutual

/-- Without empty nodes and bad tokens, no gap is woven to the end of a node. -/
theorem trim_weaveChild {ts s : List Token} (hg : ∀ t ∈ ts, t.kind ≠ .error) :
    (c : Tree) → c.Full → Token.significant ts = c.leaves ++ s →
      ∀ d ∈ (weaveChild ts c).1, d.Trim
  | leaf t, _, _ => by
    intro d hd
    rcases List.mem_append.mp hd with hd | hd
    · exact trim_gap hg d hd
    · cases List.mem_singleton.mp hd
      exact .leaf
  | node k cs, .node hne hfull, h => by
    have he := afterGap_ne_nil hne h
    have h' := (significant_afterGap ts).trans h
    have hg' : ∀ t ∈ afterGap ts, t.kind ≠ .error := fun t ht =>
      hg t ((List.dropWhile_suffix _).subset ht)
    intro d hd
    simp only [weaveChild, List.isEmpty_iff, he, ↓reduceIte, List.mem_append,
      List.mem_singleton] at hd
    rcases hd with hd | rfl
    · exact trim_gap hg d hd
    · refine .node ?_ (trim_weaveAll hg' cs hfull h')
      rw [getLast?_weaveAll (afterGap ts) s cs hfull h']
      refine ⟨_, List.getLast?_eq_getLast_of_ne_nil hne, ?_⟩
      have hm : (leavesOf cs).getLast hne ∈ Token.significant ts :=
        h ▸ List.mem_append_left s (List.getLast_mem hne)
      exact (List.mem_filter.mp hm).2

theorem trim_weaveAll {ts s : List Token} (hg : ∀ t ∈ ts, t.kind ≠ .error) :
    (cs : List Tree) → (∀ c ∈ cs, c.Full) → Token.significant ts = leavesOf cs ++ s →
      ∀ d ∈ (weaveAll ts cs).1, d.Trim
  | [], _, _ => fun _ hd => nomatch hd
  | c :: cs, hfull, h => by
    have h' : Token.significant ts = c.leaves ++ (leavesOf cs ++ s) := by simpa using h
    obtain ⟨hleaves, hs⟩ := leavesOf_weaveChild ts (leavesOf cs ++ s) c h'
    have hg' : ∀ t ∈ (weaveChild ts c).2, t.kind ≠ .error := fun t ht =>
      hg t (hleaves ▸ List.mem_append_right _ ht)
    intro d hd
    exact (List.mem_append.mp hd).elim (trim_weaveChild hg c (hfull c (by simp)) h' d)
      (trim_weaveAll hg' cs (fun d hd => hfull d (by simp [hd])) hs d)

end

/-- The children of a root hug their tokens: always in front, and behind if nothing is wrong. -/
structure Hugs (t : Tree) (clean : Prop) : Prop where
  isNode : t.isLeaf = false
  wrapped : Wrapped t.children
  snug : ∀ c ∈ t.children, c.Snug
  trim : clean → ∀ c ∈ t.children, c.Trim

theorem Hugs.mono {t : Tree} {clean clean' : Prop} (h : t.Hugs clean) (hc : clean' → clean) :
    t.Hugs clean' :=
  ⟨h.isNode, h.wrapped, h.snug, fun h' => h.trim (hc h')⟩

theorem hugs_weave {ts : List Token} {k : Kind} {cs : List Tree} {clean : Prop}
    (h : leavesOf cs = Token.significant ts) (hg : clean → ∀ t ∈ ts, t.kind ≠ .error)
    (hf : clean → ∀ c ∈ cs, c.Full) : (weave ts (node k cs)).Hugs clean := by
  have hs : Token.significant ts = leavesOf cs ++ [] := by rw [List.append_nil, h]
  have hleaves := (leavesOf_weaveAll ts [] cs hs).1
  refine ⟨rfl, wrapped_append (wrapped_weaveAll ts fun t ht => ?_) (wrapped_gap _), ?_,
    fun hc => ?_⟩
  · exact (List.mem_filter.mp (h ▸ ht)).2
  · exact List.forall_mem_append.mpr ⟨snug_weaveAll ts [] cs hs, snug_gap _⟩
  · refine List.forall_mem_append.mpr ⟨trim_weaveAll (hg hc) cs (hf hc) hs, trim_gap fun t ht => ?_⟩
    exact hg hc t (hleaves ▸ List.mem_append_right _ ht)

/-- What every leaf has, trees still have all together with trivia around them. -/
theorem forall_between_trivia {P : Tree → Prop} (hleaf : ∀ t, P (leaf t))
    {lead cs trailing : List Tree} (hlead : ∀ c ∈ lead, c.isTriviaLeaf = true)
    (htrail : ∀ c ∈ trailing, c.isTriviaLeaf = true) (hcs : ∀ c ∈ cs, P c) :
    ∀ c ∈ lead ++ cs ++ trailing, P c := by
  have htrivia : ∀ c : Tree, c.isTriviaLeaf = true → P c := by
    intro c hc
    cases c with
    | leaf t => exact hleaf t
    | node k cs => cases hc
  intro c hc
  simp only [List.mem_append] at hc
  rcases hc with (hc | hc) | hc
  · exact htrivia c (hlead c hc)
  · exact hcs c hc
  · exact htrivia c (htrail c hc)

theorem wrapped_of_isTriviaLeaf {cs : List Tree} (h : ∀ c ∈ cs, c.isTriviaLeaf = true) :
    Wrapped cs := by
  intro t ht he
  have htrivia : t.isTrivia = true := h _ ht
  rw [Token.isTrivia, he] at htrivia
  cases htrivia

/-- The only node keeps what it has when it becomes the root and takes trivia in. -/
theorem Hugs.soleNode {t root : Tree} {clean : Prop} (h : t.Hugs clean)
    (hr : t.soleNode? = some root) : root.Hugs clean := by
  unfold soleNode? at hr
  split at hr
  · rename_i k ds trailing hd
    split at hr
    · rename_i hk
      cases hr
      obtain ⟨hk, htrailing⟩ := hk
      have hlead : ∀ c ∈ t.children.takeWhile isTriviaLeaf, c.isTriviaLeaf = true :=
        fun c hc => List.mem_takeWhile_imp hc
      have htrail : ∀ c ∈ trailing, c.isTriviaLeaf = true := List.all_eq_true.mp htrailing
      have hm : node k ds ∈ t.children :=
        (List.dropWhile_suffix _).subset (hd ▸ List.mem_cons_self)
      obtain ⟨hw, hsnug⟩ : Wrapped ds ∧ ∀ d ∈ ds, d.Snug := by
        cases h.snug _ hm with
        | bad _ => exact absurd rfl hk
        | node _ hw hs => exact ⟨hw, hs⟩
      refine ⟨rfl, ?_, ?_, fun hc => ?_⟩
      · exact wrapped_append (wrapped_append (wrapped_of_isTriviaLeaf hlead) hw)
          (wrapped_of_isTriviaLeaf htrail)
      · exact forall_between_trivia (fun _ => .leaf) hlead htrail hsnug
      · have htrim : ∀ d ∈ ds, d.Trim := by
          cases h.trim hc _ hm with
          | node _ hs => exact hs
        exact forall_between_trivia (fun _ => .leaf) hlead htrail htrim
    · cases hr
  · cases hr

end Tree

namespace Located

/-- What the children of a tree hand down to theirs, all children below it have. -/
theorem forall_children {P : Tree → Prop} (hP : ∀ k cs, P (.node k cs) → ∀ c ∈ cs, P c) {t : Tree}
    (h : ∀ c ∈ t.children, P c) : ∀ n ∈ (root t).nodes, ∀ c ∈ n.children, P c.tree := by
  have hdown : ∀ n ∈ preorder 0 t, ∀ c ∈ n.tree.children, P c := by
    refine forall_preorder (P := fun t => ∀ c ∈ t.children, P c) (fun k cs hcs c hc d hd => ?_)
      0 t h
    cases c with
    | leaf t => cases hd
    | node l ds => exact hP l ds (hcs _ hc) d hd
  intro n hn c hc
  exact hdown n (List.mem_filter.mp hn).1 c.tree (mem_tree_of_mem_children hc)

mutual

/-- Whatever is below a tree is a child of some node. -/
theorem exists_of_mem_preorder (start : Nat) : (t : Tree) → ∀ n ∈ preorder start t,
    n = ⟨start, t⟩ ∨ ∃ m ∈ preorder start t, m.isNode = true ∧ n ∈ m.children
  | .leaf t => fun _ hn => .inl (List.mem_singleton.mp hn)
  | .node k cs => fun n hn => by
    rcases List.mem_cons.mp hn with hn | hn
    · exact .inl hn
    · rcases exists_of_mem_preorderRow start cs n hn with hr | ⟨m, hm, hnode⟩
      · exact .inr ⟨_, List.mem_cons_self, rfl, hr⟩
      · exact .inr ⟨m, List.mem_cons_of_mem _ hm, hnode⟩

theorem exists_of_mem_preorderRow (start : Nat) : (ts : List Tree) → ∀ n ∈ preorderRow start ts,
    n ∈ row start ts ∨ ∃ m ∈ preorderRow start ts, m.isNode = true ∧ n ∈ m.children
  | [] => fun _ hn => nomatch hn
  | t :: ts => fun n hn => by
    rcases List.mem_append.mp hn with hn | hn
    · rcases exists_of_mem_preorder start t n hn with rfl | ⟨m, hm, hnode⟩
      · exact .inl List.mem_cons_self
      · exact .inr ⟨m, List.mem_append_left _ hm, hnode⟩
    · rcases exists_of_mem_preorderRow _ ts n hn with hr | ⟨m, hm, hnode⟩
      · exact .inl (List.mem_cons_of_mem _ hr)
      · exact .inr ⟨m, List.mem_append_right _ hm, hnode⟩

end

/-- Whatever is below a root is a child of a node. -/
theorem exists_parent {t : Tree} {n : Located} (h : n ∈ preorder 0 t) :
    n = root t ∨ ∃ m ∈ (root t).nodes, n ∈ m.children := by
  obtain he | ⟨m, hm, hnode, hn⟩ := exists_of_mem_preorder 0 t n h
  · exact .inl he
  · exact .inr ⟨m, List.mem_filter.mpr ⟨hm, hnode⟩, hn⟩

end Located

/-- Where the nodes below the root of a parse start and end. -/
structure Parse.Hugs (p : Parse) : Prop where
  /-- A node is empty or starts with a significant token, if it is not the node of a bad token. -/
  starts : ∀ n ∈ (Located.root p.tree).nodes, ∀ c ∈ n.nodeChildren, c.tree.isBadToken = true ∨
    c.tree.leaves = [] ∨ ∃ t, c.tree.leaves.head? = some t ∧ t.isSignificant = true
  /-- A bad token has a node of its own, which holds nothing else. -/
  alone : ∀ t ∈ (Located.root p.tree).tokens, t.kind = .error →
    ∃ n ∈ (Located.root p.tree).nodes, ∃ c ∈ n.nodeChildren, c.kind = .error ∧ c.children = [t]
  /-- Without errors no node is empty, and each ends with a significant token. -/
  ends : p.ok = true → ∀ n ∈ (Located.root p.tree).nodes, ∀ c ∈ n.nodeChildren,
    ∃ t, c.tree.leaves.getLast? = some t ∧ t.isSignificant = true

namespace Parse

open Located (root)

theorem snug_children : ∀ k cs, (Tree.node k cs).Snug → ∀ c ∈ cs, c.Snug
  | _, _, .bad _ => List.forall_mem_singleton.mpr .leaf
  | _, _, .node _ _ hcs => hcs

theorem trim_children : ∀ k cs, (Tree.node k cs).Trim → ∀ c ∈ cs, c.Trim
  | _, _, .node _ hcs => hcs

/-- A bad token is the child of a node that has no other. -/
theorem exists_bad {t : Tree} {x : Located} {clean : Prop} (h : t.Hugs clean)
    (hx : x ∈ (root t).tokens) (hk : x.kind = .error) :
    ∃ n ∈ (root t).nodes, ∃ c ∈ n.nodeChildren, c.kind = .error ∧ c.children = [x] := by
  obtain ⟨hx, hleaf⟩ := List.mem_filter.mp hx
  obtain ⟨u, hu⟩ : ∃ u, x.tree = .leaf u := by
    cases hxt : x.tree with
    | leaf u => exact ⟨u, rfl⟩
    | node k cs => simp [Located.isNode, hxt, Tree.isLeaf] at hleaf
  have hu' : u.kind = .error := by simpa [Located.kind, hu, Tree.kind] using hk
  have hbare : ∀ m : Located, x ∈ m.children → ¬ Tree.Wrapped m.tree.children := fun m hm hw =>
    hw u (hu ▸ Located.mem_tree_of_mem_children hm) hu'
  obtain rfl | ⟨m, hm, hxm⟩ := Located.exists_parent hx
  · simp [Located.isNode, root, h.isNode] at hleaf
  obtain ⟨hm, hnode⟩ := List.mem_filter.mp hm
  obtain rfl | ⟨n, hn, hmn⟩ := Located.exists_parent hm
  · exact absurd h.wrapped (hbare _ hxm)
  refine ⟨n, hn, m, List.mem_filter.mpr ⟨hmn, hnode⟩, ?_⟩
  have hsnug := Located.forall_children snug_children h.snug n hn m hmn
  have hwrapped := hbare m hxm
  obtain ⟨start, tree⟩ := m
  cases hsnug with
  | leaf => cases hnode
  | bad _ =>
    cases List.mem_singleton.mp hxm
    exact ⟨rfl, rfl⟩
  | node _ hw _ => exact absurd hw hwrapped

theorem hugs_of_tree {p : Parse} (h : p.tree.Hugs (p.ok = true)) : p.Hugs where
  starts n hn c hc := by
    obtain ⟨hc, hnode⟩ := List.mem_filter.mp hc
    have hsnug : c.tree.Snug := Located.forall_children snug_children h.snug n hn c hc
    obtain ⟨start, tree⟩ := c
    cases hsnug with
    | leaf => cases hnode
    | bad hk => exact .inl (by simpa [Tree.isBadToken] using hk)
    | @node k cs hhead _ _ =>
      cases hl : Tree.leavesOf cs with
      | nil => exact .inr (.inl hl)
      | cons t ts => exact .inr (.inr ⟨t, by simp [hl], hhead t (by simp [hl])⟩)
  alone x hx hk := exists_bad h hx hk
  ends hok n hn c hc := by
    obtain ⟨hc, hnode⟩ := List.mem_filter.mp hc
    have htrim : c.tree.Trim := Located.forall_children trim_children (h.trim hok) n hn c hc
    obtain ⟨start, tree⟩ := c
    cases htrim with
    | leaf => cases hnode
    | node hlast _ =>
      obtain ⟨t, ht, hs⟩ := hlast
      exact ⟨t, ht, hs⟩

/-- A reading of all there is into a node with these parts. -/
theorem hugs_ofProduction {p : Production} (hp : p.ReadsAll) {k : Kind} {ps : List Production}
    {limit : Nat} {text : String} {bears : Prop}
    (hnode : ∀ {allowed env r r'}, Runs allowed (.of p) env r r' →
      Runs allowed (.of (.node k ps)) env r r')
    (hbears : bears → ∀ v, (seq ps).Bears v False) :
    (ofProduction p limit text).tree.Hugs ((ofProduction p limit text).ok = true ∧ bears) := by
  have hr := p.runs_read hp.tame limit (Token.significant (tokenize text))
  have hleaves := hr.leavesOf_built (hp.atEnd hr)
  obtain ⟨m, -, hm⟩ := runs_node.mp (hnode hr)
  have htree : (ofProduction p limit text).tree =
      Tree.weave (tokenize text) (.node k m.built.reverse) := by simp [ofProduction, hm]
  rw [htree]
  refine Tree.hugs_weave (by simpa [hm, Reading.start] using hleaves)
    (fun h => (clean_of_ok h.1).1) fun h => ?_
  -- without errors the same reading puts nodes over tokens only
  obtain ⟨m', hm', he⟩ := runs_node.mp (hnode (hr.restrict (clean_of_ok h.1).2))
  have hbuilt : m'.built = m.built := by
    simpa using (congrArg Reading.built (hm.symm.trans he)).symm
  rw [← hbuilt]
  exact fun c hc =>
    hm'.full (hbears h.2 _) False.elim (fun _ h => absurd h List.not_mem_nil) c
      (List.mem_reverse.mp hc)

/-- The root of a whole text may be empty, but no node below it. -/
theorem hugs_storedDefinition (limit : Nat) (text : String) :
    let p := ofProduction (.call .storedDefinition) limit text
    p.tree.Hugs (p.ok = true) := by
  intro p
  have h : p.tree.Hugs (p.ok = true ∧ True) :=
    hugs_ofProduction Production.readsAll_storedDefinition runs_call.mp
      fun _ v => by simp [Nonterminal.bears]
  exact h.mono fun hok => ⟨hok, trivial⟩

/-- Below a scratch node only that of a whole text may be empty. -/
theorem hugs_scratch (rule : FragmentRule) (limit : Nat) (text : String) :
    let p := ofProduction rule.scratch limit text
    p.tree.Hugs (p.ok = true ∧ rule ≠ .storedDefinition) :=
  hugs_ofProduction rule.readsAll_scratch id
    fun hrule v => (bears_node.mp (FragmentRule.bears_scratch hrule v)).1

/-- The root of a fragment is its scratch node, or the only node in there with trivia around it. A
whole text without errors has the root that it has on its own. -/
theorem hugs_fragment (rule : FragmentRule) (text : String) :
    let p := (parseFragment rule text).parse
    p.tree.Hugs (p.ok = true) := by
  intro p
  have hok : p.ok = (ofProduction rule.scratch ParseOptions.standard.limit text).ok :=
    ok_parseFragment rule text
  by_cases hwhole : p.ok = true → rule ≠ .storedDefinition
  · have h := (hugs_scratch rule ParseOptions.standard.limit text).mono
      fun h : p.ok = true => ⟨hok ▸ h, hwhole h⟩
    cases hsole : (ofProduction rule.scratch ParseOptions.standard.limit text).tree.soleNode? with
    | none =>
      have htree := congrArg (·.parse.tree) (parseFragment_of_eq_none hsole)
      exact htree ▸ h
    | some root => exact (parseFragment_of_eq_some hsole).1 ▸ h.soleNode hsole
  · obtain ⟨hp, hrule⟩ := Classical.not_imp.mp hwhole
    obtain rfl := not_not.mp hrule
    obtain ⟨hfaults, htree, -⟩ := parseFragment_storedDefinition text
    have hgood := Token.edgesGood_of_forall (clean_of_ok (hok ▸ hp)).1
    rw [show p.tree = (parse text).tree from htree.mpr hgood]
    have hsame : (parse text).ok = p.ok := by rw [ok, ok, hfaults]
    exact (hugs_storedDefinition ParseOptions.standard.limit text).mono hsame.trans

end Parse

/-- **Nodes hug their tokens.** In every parse, of a whole text within any bound on nesting and of
any fragment, a node below the root is empty or starts with a significant token, and a bad token
stands alone in a node of its own. In a parse without errors no such node is empty, and each ends
with a significant token. -/
theorem parses_hug (text : String) :
    (parse text).Hugs ∧ (∀ limit, ∃ p, parseWith ⟨limit, false⟩ text = .ok p ∧ p.Hugs) ∧
      ∀ rule, (parseFragment rule text).parse.Hugs :=
  ⟨Parse.hugs_of_tree (Parse.hugs_storedDefinition _ text),
    fun limit => ⟨_, rfl, Parse.hugs_of_tree (Parse.hugs_storedDefinition limit text)⟩,
    fun rule => Parse.hugs_of_tree (Parse.hugs_fragment rule text)⟩

end Modelica
