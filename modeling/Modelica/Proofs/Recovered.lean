import Modelica.Proofs.Conformity
import Modelica.Proofs.MaximalMunch
import Modelica.Proofs.YieldRules

/-!
# Every text leaves a recovered tree

Errors or not, the nodes of a parse have what `Kind.remains` says is left of them.

* `Runs.yields`: a run turns its trees into what `Production.Yields` says, and every node it makes
  has what is left of its kind;
* `Tree.recovered_weaveAll`, `Tree.weave_mark`: trivia and bad tokens put back leave it so, but for
  a byte-order mark, which may open the root;
* `parse_remains`: the statement for the nodes of a parse.
-/

namespace Modelica

open Shape

/-- Recovered trees that fall into some of the shapes, the last one first. -/
def Variants.Holds (c : Variants) (built : List Tree) : Prop :=
  c.Matches (Tree.counted built.reverse) ∧ ∀ t ∈ built, t.Recovered

theorem Kind.plain_significant : ∀ k ∈ Kind.significant,
    k.isSignificant = true ∧ k ∉ Kind.productions ∧ k ≠ .byteOrderMark := by
  decide +kernel

theorem Kind.isSignificant_production : ∀ k ∈ Kind.productions, k.isSignificant = true := by
  decide

namespace Variants

variable {c d vs : Variants} {built more : List Tree}

theorem Holds.mono (h : c.Holds built) (hl : c.Le d) : d.Holds built := ⟨hl _ h.1, h.2⟩

theorem holds_nil : Holds [[]] [] := ⟨matches_nil, fun _ h => nomatch h⟩

theorem Holds.append (h : c.Holds built) (h' : vs.Holds more) :
    (c.join vs).Holds (more ++ built) := by
  refine ⟨?_, fun t ht => (List.mem_append.mp ht).elim (h'.2 t) (h.2 t)⟩
  rw [List.reverse_append, Tree.counted_append]
  exact matches_join.mpr ⟨_, _, rfl, h.1, h'.1⟩

theorem holds_leaf {t : Token} {ks : List Kind} (h : t.kind ∈ ks)
    (ht : t.kind ∈ Kind.significant) : Holds [[one ks]] [.leaf t] := by
  obtain ⟨hs, hp, hm⟩ := Kind.plain_significant t.kind ht
  refine ⟨matches_singleton.mpr ?_, fun u hu => ?_⟩
  · simpa [Tree.counted, Tree.kind, hs] using matches_one h
  · cases List.mem_singleton.mp hu
    exact .leaf hp hm

theorem holds_node {k : Kind} (hk : k ∈ Kind.productions) (h : k.remains.Holds built) :
    Holds [[one [k]]] [.node k built.reverse] := by
  refine ⟨matches_singleton.mpr ?_, fun u hu => ?_⟩
  · simpa [Tree.counted, Tree.kind, Kind.isSignificant_production k hk] using
      matches_one (List.mem_singleton.mpr (rfl : k = k))
  · cases List.mem_singleton.mp hu
    exact .node hk h.1 fun t ht => h.2 t (List.mem_reverse.mp ht)

/-- An `error` node does not count, and takes what it holds out of the count. -/
theorem holds_error (h : c.Holds built) : Holds [[]] [.node .error built.reverse] := by
  refine ⟨matches_nil, fun u hu => ?_⟩
  cases List.mem_singleton.mp hu
  exact .error fun t ht => h.2 t (List.mem_reverse.mp ht)

end Variants

/-- What a production turns its trees into in any case, it does turn them into. For what is left of
a repetition, the shapes in question are those its items keep. -/
theorem Runs.yields {allowed : Diagnostic Spot → Prop} {task : Task} {env : Surroundings}
    {r r' : Reading} (h : Runs allowed task env r r')
    (ht : ∀ t ∈ r.ahead, t.kind ∈ Kind.significant) {c d : Variants} (hc : c.Holds r.built)
    (hp : match task with
      | .of p => p.Yields c d (r.look env)
      | .rest continues item _ => c = d ∧
        ∀ before w, continues w = true → (item before).Yields c c w) :
    d.Holds r'.built := by
  induction h generalizing c d with
  | done => exact hc.mono hp
  | @andThen p q env r m r' hrp _ ihp ihq =>
    obtain ⟨s, hs, hq⟩ := hp
    exact ihq (fun t hm => ht t (hrp.leads.1.subset hm)) (ihp ht hc hs) (hq _ hrp.after)
  | @shift env r =>
    obtain ⟨ks, hk, hn, hl⟩ := hp
    cases ha : r.ahead with
    | nil => rw [Reading.shift_nil ha]; exact hc.mono (hn ha)
    | cons t ts =>
      have htk : t.kind ∈ Kind.significant := ht t (by simp [ha])
      have hks : t.kind ∈ ks := by
        refine hk.elim (fun h => ?_) fun h => h htk
        simpa [Reading.look, Lookahead.kind, ha, Token.headKind] using h
      rw [Reading.shift_cons ha]
      exact (hc.append (Variants.holds_leaf hks htk)).mono hl
  | group _ ih =>
    obtain ⟨vs, hs, hl⟩ := hp
    exact (hc.append (ih ht Variants.holds_nil hs)).mono hl
  | wrap _ ih =>
    obtain ⟨vs, hs, ⟨rfl, hl⟩ | ⟨hk, hle, hl⟩⟩ := hp
    · exact (Variants.holds_error (ih ht hc hs)).mono hl
    · exact (Variants.holds_node hk ((ih ht hc hs).mono hle)).mono hl
  | look _ ih => exact ih ht hc hp
  | many _ ih =>
    obtain ⟨m, hcm, hmd, hi⟩ := hp
    exact (ih ht (hc.mono hcm) ⟨rfl, hi⟩).mono hmd
  | stop _ => exact hp.1 ▸ hc
  | turn hcont hri _ ihi ihr =>
    obtain ⟨rfl, hi⟩ := hp
    exact ihr (fun t hm => ht t (hri.leads.1.subset hm)) (ihi ht hc (hi _ _ hcont)) ⟨rfl, hi⟩
  | @call rule env r r' _ ih =>
    exact (ih ht hc (rule.gives_production _ hp.1 c)).mono hp.2
  | @report fault env r hf =>
    rw [Reading.report_built]
    exact hc.mono hp
  | inContext _ ih | opening _ ih => exact ih ht hc hp
  | within _ _ ih => exact ih ht hc hp.1
  | beyond _ _ ih => exact ih ht hc hp.2

/-- Where no token is ahead the root has no parts. -/
theorem Runs.built_storedDefinition {allowed : Diagnostic Spot → Prop} {env : Surroundings}
    {r r' : Reading} (h : Runs allowed (.of (.call .storedDefinition)) env r r')
    (ha : r.ahead = []) : r'.built = .node .storedDefinition [] :: r.built := by
  obtain ⟨ahead, index, built, faults⟩ := r
  obtain rfl : ahead = [] := ha
  obtain ⟨m, hm, rfl⟩ := runs_node.mp (runs_call.mp h)
  obtain ⟨w, hw, hrest⟩ := runs_seq_cons.mp hm
  obtain rfl := runs_done.mp (runs_look.mp hw)
  cases runs_many.mp hrest with
  | stop _ => rfl
  | turn hc _ _ => cases hc

/-! ## Trivia and bad tokens put back -/

namespace Tree

variable {ts : List Token}

theorem map_kind_gap (ts : List Token) :
    (gap ts).map kind = (ts.takeWhile (!·.isSignificant)).map Token.kind := by
  rw [gap, List.map_map]
  refine List.map_congr_left fun t _ => ?_
  simp only [Function.comp_apply, ofGapToken]
  split
  · exact (‹t.kind = .error›).symm
  · rfl

/-- A gap does not count. -/
theorem counted_gap (ts : List Token) : counted (gap ts) = [] := by
  rw [counted, map_kind_gap, List.filter_eq_nil_iff]
  intro k hk
  obtain ⟨t, ht, rfl⟩ := List.mem_map.mp hk
  simpa [Token.isSignificant] using List.mem_takeWhile_imp ht

theorem recovered_gap (h : ∀ t ∈ ts, t.kind ∉ Kind.productions ∧ t.kind ≠ .byteOrderMark) :
    ∀ c ∈ gap ts, c.Recovered := by
  intro c hc
  obtain ⟨t, ht, rfl⟩ := List.mem_map.mp hc
  have hleaf : (leaf t).Recovered :=
    have ⟨hp, hm⟩ := h t ((List.takeWhile_prefix _).subset ht)
    .leaf hp hm
  unfold ofGapToken
  split
  · exact .error fun d hd => List.mem_singleton.mp hd ▸ hleaf
  · exact hleaf

theorem counted_gap_append (ts : List Token) (cs : List Tree) :
    counted (gap ts ++ cs) = counted cs := by
  rw [counted_append, counted_gap, List.nil_append]

/-- A node is recovered when its children have the kinds of recovered ones. -/
theorem Recovered.congr {k : Kind} {cs ds : List Tree} (h : (Tree.node k cs).Recovered)
    (hc : counted ds = counted cs) (hd : ∀ d ∈ ds, d.Recovered) :
    (Tree.node k ds).Recovered := by
  cases h with
  | error _ => exact .error hd
  | node hk hm _ => exact .node hk (hc ▸ hm) hd

theorem Recovered.children {k : Kind} {cs : List Tree} (h : (Tree.node k cs).Recovered) :
    ∀ c ∈ cs, c.Recovered := by
  cases h with
  | error hc | node _ _ hc => exact hc

mutual

/-- Weaving one child puts what does not count before it and into it. -/
theorem recovered_weaveChild (ts : List Token)
    (h : ∀ t ∈ ts, t.kind ∉ Kind.productions ∧ t.kind ≠ .byteOrderMark) :
    (c : Tree) → c.Recovered →
      (∀ d ∈ (weaveChild ts c).1, d.Recovered) ∧ counted (weaveChild ts c).1 = counted [c]
  | leaf t, hc => by
    simp only [weaveChild, counted_gap_append, and_true]
    refine fun d hd => (List.mem_append.mp hd).elim (recovered_gap h d) fun hl => ?_
    exact List.mem_singleton.mp hl ▸ hc
  | node k cs, hc => by
    have hnode : ∀ us, us <:+ ts → (node k (weaveAll us cs).1).Recovered := fun us hus =>
      have ⟨hd, he⟩ := recovered_weaveAll us (fun t ht => h t (hus.subset ht)) cs hc.children
      hc.congr he hd
    unfold weaveChild
    by_cases he : (afterGap ts).isEmpty
    · simp only [he, if_true]
      exact ⟨fun d hd => List.mem_singleton.mp hd ▸ hnode ts List.suffix_rfl, rfl⟩
    · simp only [he, Bool.false_eq_true, if_false, counted_gap_append]
      refine ⟨fun d hd => (List.mem_append.mp hd).elim (recovered_gap h d) fun hl => ?_, rfl⟩
      exact List.mem_singleton.mp hl ▸ hnode _ (List.dropWhile_suffix _)

theorem recovered_weaveAll (ts : List Token)
    (h : ∀ t ∈ ts, t.kind ∉ Kind.productions ∧ t.kind ≠ .byteOrderMark) :
    (cs : List Tree) → (∀ c ∈ cs, c.Recovered) →
      (∀ d ∈ (weaveAll ts cs).1, d.Recovered) ∧ counted (weaveAll ts cs).1 = counted cs
  | [], _ => ⟨fun _ hd => (nomatch hd), rfl⟩
  | c :: cs, hc => by
    obtain ⟨hd, he⟩ := recovered_weaveChild ts h c (hc c (by simp))
    obtain ⟨hds, hes⟩ := recovered_weaveAll _
      (fun t ht => h t ((weaveChild_suffix ts c).subset ht)) cs fun c' hc' => hc c' (by simp [hc'])
    refine ⟨fun d hm => (List.mem_append.mp hm).elim (hd d) (hds d), ?_⟩
    rw [weaveAll, counted_append, he, hes, ← counted_append, List.singleton_append]

end

theorem exists_weave {k : Kind} {cs : List Tree} (h : (node k cs).Recovered)
    (ht : ∀ t ∈ ts, t.kind ∉ Kind.productions ∧ t.kind ≠ .byteOrderMark) :
    ∃ ds, weave ts (node k cs) = node k ds ∧ (node k ds).Recovered := by
  obtain ⟨hd, he⟩ := recovered_weaveAll ts ht cs h.children
  refine ⟨_, rfl, h.congr ?_ fun c hc => (List.mem_append.mp hc).elim (hd c) (recovered_gap
    (fun t hm => ht t ((weaveAll_suffix ts cs).subset hm)) c)⟩
  rw [counted_append, counted_gap, List.append_nil, he]

/-- A mark that opens the text opens the root, unless the root has parts but there are no tokens to
read. -/
theorem weave_mark {t : Token} (hm : t.kind = .byteOrderMark) {k : Kind} {cs : List Tree}
    (hc : Token.significant ts = [] → cs = []) :
    ∃ ds, weave ts (node k cs) = node k ds ∧
      weave (t :: ts) (node k cs) = node k (leaf t :: ds) := by
  have hsig : t.isSignificant = false := by simp [Token.isSignificant, hm, Kind.isSignificant,
    Kind.isTrivia]
  have hgap : gap (t :: ts) = leaf t :: gap ts := by
    simp [gap, hsig, ofGapToken, hm]
  have hafter : afterGap (t :: ts) = afterGap ts := by simp [afterGap, hsig]
  refine ⟨_, rfl, ?_⟩
  cases cs with
  | nil => simp [weave, weaveAll, hgap]
  | cons c cs =>
    have hne : (afterGap ts).isEmpty = false := by
      refine Bool.eq_false_iff.mpr fun he => ?_
      have hs := significant_afterGap ts
      rw [List.isEmpty_iff.mp he] at hs
      exact List.cons_ne_nil c cs (hc hs.symm)
    cases c with
    | leaf u => simp [weave, weaveAll, weaveChild, hgap, hafter]
    | node l ds => simp [weave, weaveAll, weaveChild, hgap, hafter, hne]

end Tree

/-! ## The tokens of a text -/

namespace Token

/-- Only the first token of a text can be a byte-order mark. -/
theorem kind_cut_false {t : Token} {skip : Nat} {cs : List Char} (h : t ∈ cut false skip cs) :
    t.kind ≠ .byteOrderMark := by
  have hrefine : ∀ k text, refine false k text ≠ .byteOrderMark := by
    intro k text he
    unfold refine at he
    split at he
    · cases hk : Kind.keyword? text with
      | none => rw [hk] at he; cases he
      | some l =>
        have hl : l ∈ Kind.keywords := List.mem_of_find?_eq_some hk
        rw [hk, Option.getD_some] at he
        rw [he] at hl
        exact absurd hl (by decide)
    · cases he
    · exact absurd he ‹_›
  induction cs generalizing skip with
  | nil => cases h
  | cons c rest ih =>
    cases skip with
    | succ skip => exact ih h
    | zero =>
      cases h with
      | head => exact hrefine _ _
      | tail _ h => exact ih h

theorem tail_tokenize {text : String} {t : Token} {ts : List Token}
    (h : tokenize text = t :: ts) : ∀ u ∈ ts, u.kind ≠ .byteOrderMark := by
  unfold tokenize at h
  cases hc : text.toList with
  | nil => rw [hc] at h; cases h
  | cons c cs =>
    rw [hc, cut_cons] at h
    obtain ⟨-, rfl⟩ := List.cons.inj h
    exact fun u hu => kind_cut_false hu

/-- No token has the kind of a node. -/
theorem not_production {text : String} {t : Token} (h : t ∈ tokenize text) :
    t.kind ∉ Kind.productions := by
  have hall : ∀ k ∈ Kind.tokens, k ∉ Kind.productions := by decide +kernel
  exact hall t.kind (kind_mem_tokens h)

end Token

/-- The children of these kinds count once the trivia is back; so does a byte-order mark. -/
def Kind.isCounted (k : Kind) : Bool := k.isSignificant || k == .byteOrderMark

/-- What is left of the children of a node of a parse. A byte-order mark may open the root. -/
def Kind.parts (k : Kind) : Variants :=
  if k = .storedDefinition then k.remains.map (opt [.byteOrderMark] :: ·) else k.remains

/-- A node has what is left of its kind among its children that count, and its children have the
kinds of nodes where they are nodes. -/
structure Located.Remains (n : Located) : Prop where
  kind : n.kind ∈ Kind.productions
  row : n.kind.parts.Matches ((n.children.map Located.kind).filter Kind.isCounted)
  leaf : ∀ c ∈ n.children, c.isNode = false → c.kind ∉ Kind.productions
  node : ∀ c ∈ n.children, c.isNode = true → c.kind ∈ Kind.productions ∨ c.kind = .error

theorem matches_parts {k : Kind} {lead ks : List Kind} (h : k.remains.Matches ks)
    (hlead : lead = [] ∨ k = .storedDefinition ∧ lead = [.byteOrderMark]) :
    k.parts.Matches (lead ++ ks) := by
  obtain ⟨s, hs, hm⟩ := h
  unfold Kind.parts
  split
  · refine ⟨_, List.mem_map_of_mem hs, ?_⟩
    obtain rfl | ⟨-, rfl⟩ := hlead
    · exact .cons .none hm
    · exact .cons (.some (List.mem_singleton.mpr rfl)) hm
  · obtain rfl | ⟨hk, -⟩ := hlead
    · exact ⟨s, hs, hm⟩
    · exact absurd hk ‹_›

/-- The root of a tree that is recovered but for a mark before its parts. -/
def Tree.Opened (t : Tree) : Prop := ∃ k lead cs, t = .node k (lead ++ cs) ∧
  (lead = [] ∨ k = .storedDefinition ∧ ∃ mark, mark.kind = .byteOrderMark ∧ lead = [.leaf mark]) ∧
  (Tree.node k cs).Recovered

/-- A recovered tree has the kind of a node where it is one, and only there. -/
theorem Tree.Recovered.kind_cases {t : Tree} (h : t.Recovered) : t.kind ≠ .byteOrderMark ∧
    (t.isLeaf = true → t.kind ∉ Kind.productions) ∧
    (t.isLeaf = false → t.kind ∈ Kind.productions ∨ t.kind = .error) := by
  cases h with
  | leaf hp hm => exact ⟨hm, fun _ => hp, nofun⟩
  | error => exact ⟨nofun, nofun, fun _ => .inr rfl⟩
  | node hk =>
    refine ⟨fun he => ?_, nofun, fun _ => .inl hk⟩
    have hmark : Kind.byteOrderMark ∉ Kind.productions := by decide
    exact hmark (he ▸ hk)

theorem Tree.Recovered.opened {t : Tree} (h : t.Recovered) (hn : ¬ t.isLeaf = true) :
    t.Opened := by
  cases t with
  | leaf t => exact absurd rfl hn
  | node k cs => exact ⟨k, [], cs, rfl, .inl rfl, h⟩

theorem Located.remains_of_opened {n : Located} (h : n.tree.Opened) :
    n.kind = .error ∨ n.Remains := by
  obtain ⟨start, t⟩ := n
  obtain ⟨k, lead, cs, rfl, hlead, hr⟩ := h
  have hchild : ∀ c ∈ Located.children ⟨start, .node k (lead ++ cs)⟩,
      c.tree ∈ lead ∨ c.tree.Recovered := fun c hc =>
    (List.mem_append.mp (Located.mem_tree_of_mem_children hc)).imp_right (hr.children c.tree)
  cases hr with
  | error _ => exact .inl rfl
  | node hk hm hcs =>
    have hcounted : (cs.map Tree.kind).filter Kind.isCounted = Tree.counted cs := by
      refine List.filter_congr fun l hl => ?_
      obtain ⟨c, hc, rfl⟩ := List.mem_map.mp hl
      simp [Kind.isCounted, (hcs c hc).kind_cases.1]
    refine .inr ⟨hk, ?_, ?_, ?_⟩
    · rw [Located.children, Located.map_kind_row]
      show k.parts.Matches (((lead ++ cs).map Tree.kind).filter Kind.isCounted)
      rw [List.map_append, List.filter_append, hcounted]
      exact matches_parts hm <| hlead.imp (fun he => by rw [he]; rfl)
        fun ⟨hk, mark, hmark, he⟩ => ⟨hk, by simp [he, Tree.kind, hmark, Kind.isCounted]⟩
    · intro c hc hn
      obtain hl | hr := hchild c hc
      · obtain rfl | ⟨-, mark, hmark, rfl⟩ := hlead
        · cases hl
        · rw [Located.kind, List.mem_singleton.mp hl, Tree.kind, hmark]
          decide
      · exact hr.kind_cases.2.1 (by simpa [Located.isNode] using hn)
    · intro c hc hn
      obtain hl | hr := hchild c hc
      · obtain rfl | ⟨-, mark, -, rfl⟩ := hlead
        · cases hl
        · simp [Located.isNode, List.mem_singleton.mp hl, Tree.isLeaf] at hn
      · exact hr.kind_cases.2.2 (by simpa [Located.isNode] using hn)

theorem Parse.opened (text : String) : (parse text).tree.Opened := by
  have hrun := Production.runs_read (.call .storedDefinition) trivial
    ParseOptions.standard.limit (Token.significant (tokenize text))
  obtain ⟨m, -, hm⟩ := runs_node.mp (runs_call.mp hrun)
  have hholds := hrun.yields (fun t ht => Token.kind_mem_significant ht) Variants.holds_nil
    ⟨trivial, .refl _⟩
  have hr : (Tree.node .storedDefinition m.built.reverse).Recovered :=
    hholds.2 _ (by rw [hm]; exact List.mem_cons_self)
  have htree : (parse text).tree =
      Tree.weave (tokenize text) (.node .storedDefinition m.built.reverse) := by
    simp only [parse, Parse.ofProduction, hm, List.head?_cons, Option.getD_some]
  have hplain : ∀ t ∈ tokenize text, t.kind ≠ .byteOrderMark →
      t.kind ∉ Kind.productions ∧ t.kind ≠ .byteOrderMark :=
    fun t ht hne => ⟨Token.not_production ht, hne⟩
  cases htokens : tokenize text with
  | nil =>
    obtain ⟨ds, hd, hrd⟩ := Tree.exists_weave hr
      (show ∀ t ∈ ([] : List Token), _ from fun _ ht => absurd ht List.not_mem_nil)
    exact ⟨_, [], ds, by rw [htree, htokens, hd]; rfl, .inl rfl, hrd⟩
  | cons t ts =>
    have htail := Token.tail_tokenize htokens
    rw [htokens] at hplain
    by_cases hmark : t.kind = .byteOrderMark
    · -- Without tokens to read the mark would come after the parts of the root, had it any.
      have hempty : Token.significant ts = [] → m.built.reverse = [] := fun hs => by
        have hnil := hrun.built_storedDefinition <|
          show Token.significant (tokenize text) = [] by
            rw [htokens, ← hs]
            exact List.filter_cons_of_neg (by
              simp [Token.isSignificant, hmark, Kind.isSignificant, Kind.isTrivia])
        rw [hm] at hnil
        exact (Tree.node.inj (List.cons.inj hnil).1).2
      obtain ⟨ds, hd, hw⟩ := Tree.weave_mark hmark hempty
      obtain ⟨ds', hd', hrd⟩ := Tree.exists_weave hr
        fun u hu => hplain u (List.mem_cons_of_mem t hu) (htail u hu)
      obtain rfl : ds' = ds := (Tree.node.inj (hd'.symm.trans hd)).2
      exact ⟨_, [.leaf t], ds', by rw [htree, htokens, hw]; rfl, .inr ⟨rfl, t, hmark, rfl⟩, hrd⟩
    · obtain ⟨ds, hd, hrd⟩ := Tree.exists_weave hr fun u hu => hplain u hu <| by
        obtain rfl | hu := List.mem_cons.mp hu
        · exact hmark
        · exact htail u hu
      exact ⟨_, [], ds, by rw [htree, htokens, hd]; rfl, .inl rfl, hrd⟩

/-- Every node of a parse is an `error` or has what is left of its kind. -/
theorem parse_remains (text : String) :
    ∀ n ∈ (Located.root (parse text).tree).nodes, n.kind = .error ∨ n.Remains := by
  intro n hn
  obtain ⟨hn, hnode⟩ := List.mem_filter.mp hn
  refine Located.remains_of_opened ?_
  obtain ⟨k, lead, cs, ht, hlead, hr⟩ := Parse.opened text
  rw [Located.root, ht] at hn
  obtain rfl | hn := List.mem_cons.mp hn
  · exact ⟨k, lead, cs, rfl, hlead, hr⟩
  · have hbelow := Located.forall_preorderRow (P := fun t => t.isLeaf = true ∨ t.Recovered)
      (fun k cs h c hc => .inr ((h.resolve_left nofun).children c hc)) 0 (lead ++ cs)
      (fun t hm => (List.mem_append.mp hm).imp (fun hl => ?_) (hr.children t)) n hn
    · refine (hbelow.resolve_left ?_).opened ?_ <;> simpa [Located.isNode] using hnode
    · obtain rfl | ⟨-, mark, -, rfl⟩ := hlead
      · cases hl
      · rw [List.mem_singleton.mp hl]
        rfl

end Modelica
