import Modelica.Lookup
import Modelica.Proofs.Fields
import Modelica.Proofs.Snug

/-!
# The smallest node around a range

A lookup goes down the tree from child to child. The children of a node lie side by side, so at most
one of them has a range in it that is not empty, and the way down leads there. It stops at a token
or where no child has the range, and the last node on it is the smallest.

* `Located.mem_preorder_iff`: what is below a tree, child by child;
* `Located.path_of_some`: a way down, step by step;
* `Located.towardsRange_eq`: a range that is not empty leads to the child that has it;
* `Located.exists_innermost`: the last node on the way down is the smallest;
* `parse_finds_smallest`: the statement for a parse.
-/

namespace Modelica

namespace Located

variable {n m c d : Located} {s : Span}

theorem row_inside {start : Nat} {ts : List Tree} (h : c ∈ row start ts) :
    start ≤ c.start ∧ c.stop ≤ start + Tree.widthOf ts := by
  induction ts generalizing start with
  | nil => cases h
  | cons t ts ih =>
    rw [Tree.widthOf]
    rcases List.mem_cons.mp h with rfl | h
    · exact ⟨Nat.le_refl _, by simp only [stop]; omega⟩
    · obtain ⟨hstart, hstop⟩ := ih h
      constructor <;> omega

theorem children_inside (h : c ∈ n.children) : n.start ≤ c.start ∧ c.stop ≤ n.stop := by
  obtain ⟨start, t⟩ := n
  cases t with
  | leaf t => cases h
  | node k cs => exact row_inside h

theorem isNode_of_mem_children (h : c ∈ n.children) : n.isNode = true := by
  obtain ⟨start, t⟩ := n
  cases t with
  | leaf t => cases h
  | node k cs => rfl

theorem contains_iff : n.contains s = true ↔ n.start ≤ s.start ∧ s.stop ≤ n.stop := by
  simp [contains]

theorem contains_of_inside (h : m.contains s = true) (hstart : n.start ≤ m.start)
    (hstop : m.stop ≤ n.stop) : n.contains s = true := by
  rw [contains_iff] at h ⊢
  omega

/-- Of trees side by side the first one that overlaps a range is the one that has it. -/
theorem find?_overlap {cs : List Located} (hcs : cs.Pairwise fun c d => c.stop ≤ d.start)
    (hs : s.start < s.stop) (hc : c ∈ cs) (h : c.contains s = true) :
    cs.find? (fun c => s.start < c.stop && c.start < s.stop) = some c := by
  rw [contains_iff] at h
  induction cs with
  | nil => cases hc
  | cons d ds ih =>
    obtain ⟨hd, hds⟩ := List.pairwise_cons.mp hcs
    rcases List.mem_cons.mp hc with rfl | hc
    · apply List.find?_cons_of_pos
      simp only [Bool.and_eq_true, decide_eq_true_eq]
      omega
    · have hle := hd c hc
      rw [List.find?_cons_of_neg]
      · exact ih hds hc
      · simp only [Bool.and_eq_true, decide_eq_true_eq]
        omega

theorem preorderRow_eq (start : Nat) (ts : List Tree) :
    preorderRow start ts = (row start ts).flatMap fun c => preorder c.start c.tree := by
  induction ts generalizing start with
  | nil => rfl
  | cons t ts ih => rw [preorderRow, row, List.flatMap_cons, ih]

/-- A tree comes first, and then what is below its children. -/
theorem preorder_eq (n : Located) : preorder n.start n.tree =
    n :: n.children.flatMap fun c => preorder c.start c.tree := by
  obtain ⟨start, t⟩ := n
  cases t with
  | leaf t => rfl
  | node k cs => rw [preorder, preorderRow_eq, children, Tree.children]

theorem mem_preorder_iff : m ∈ preorder n.start n.tree ↔
    m = n ∨ ∃ c ∈ n.children, m ∈ preorder c.start c.tree := by
  rw [preorder_eq, List.mem_cons, List.mem_flatMap]

theorem self_mem_preorder (n : Located) : n ∈ preorder n.start n.tree :=
  mem_preorder_iff.mpr (.inl rfl)

theorem mem_nodes_of_child (hc : c ∈ n.children) (hm : m ∈ c.nodes) : m ∈ n.nodes := by
  obtain ⟨hm, hnode⟩ := List.mem_filter.mp hm
  exact List.mem_filter.mpr ⟨mem_preorder_iff.mpr (.inr ⟨c, hc, hm⟩), hnode⟩

theorem heightOf_le {t : Tree} {ts : List Tree} (h : t ∈ ts) : t.height ≤ Tree.heightOf ts := by
  induction ts with
  | nil => cases h
  | cons u us ih =>
    rw [Tree.heightOf]
    rcases List.mem_cons.mp h with rfl | h
    · exact Nat.le_max_left _ _
    · exact Nat.le_trans (ih h) (Nat.le_max_right _ _)

theorem height_lt (h : c ∈ n.children) : c.tree.height < n.tree.height := by
  have hc := mem_tree_of_mem_children h
  obtain ⟨start, t⟩ := n
  cases t with
  | leaf t => cases hc
  | node k cs => exact Nat.lt_succ_of_le (heightOf_le hc)

/-- What a tree has when its children have it, every tree has. -/
theorem induction_children {P : Located → Prop} (step : ∀ n, (∀ c ∈ n.children, P c) → P n)
    (n : Located) : P n :=
  step n fun c _ => induction_children step c
termination_by n.tree.height
decreasing_by exact height_lt ‹_›

theorem preorder_inside (n : Located) :
    ∀ m ∈ preorder n.start n.tree, n.start ≤ m.start ∧ m.stop ≤ n.stop := by
  induction n using induction_children with
  | step n ih =>
    intro m hm
    rcases mem_preorder_iff.mp hm with rfl | ⟨c, hc, hm⟩
    · exact ⟨Nat.le_refl _, Nat.le_refl _⟩
    · obtain ⟨hstart, hstop⟩ := ih c hc m hm
      obtain ⟨hcstart, hcstop⟩ := children_inside hc
      constructor <;> omega

/-- A tree that has something below it with a range has the range. -/
theorem contains_of_mem_preorder (hm : m ∈ preorder n.start n.tree) (h : m.contains s = true) :
    n.contains s = true :=
  have ⟨hstart, hstop⟩ := preorder_inside n m hm
  contains_of_inside h hstart hstop

/-- From each tree the way goes on to one of its children. -/
def Downward (choose : Located → Option Located) : Prop :=
  ∀ n c, choose n = some c → c ∈ n.children

/-- The last node on a way down. -/
def innermost? (choose : Located → Option Located) (n : Located) : Option Located :=
  ((n.path choose).filter isNode).getLast?

section

variable {choose : Located → Option Located}

/-- A way down is never longer than its tree is high. -/
theorem descend_eq (h : Downward choose) (n : Located) :
    ∀ steps, n.tree.height ≤ steps → descend choose steps n = n.path choose := by
  induction n using induction_children with
  | step n ih =>
    intro steps hs
    cases hc : choose n with
    | none => cases steps <;> cases hn : n.tree.height <;> simp [path, descend, hc, hn]
    | some c =>
      have hchild := h n c hc
      have hlt := height_lt hchild
      obtain ⟨k, hk⟩ := Nat.exists_eq_add_one_of_ne_zero (Nat.ne_zero_of_lt hlt)
      obtain ⟨j, rfl⟩ := Nat.exists_eq_add_one_of_ne_zero (Nat.ne_zero_of_lt (hk ▸ hs))
      simp only [path, hk, descend, hc]
      rw [ih c hchild j (by omega), ih c hchild k (by omega)]

/-- The way down from a tree, step by step. -/
theorem path_of_some (h : Downward choose) (hc : choose n = some c) :
    n.path choose = n :: c.path choose := by
  have hlt := height_lt (h n c hc)
  obtain ⟨k, hk⟩ := Nat.exists_eq_add_one_of_ne_zero (Nat.ne_zero_of_lt hlt)
  rw [path, hk, descend, hc]
  exact congrArg (n :: ·) (descend_eq h c k (by omega))

theorem path_of_none (hc : choose n = none) : n.path choose = [n] := by
  cases hn : n.tree.height <;> simp [path, descend, hc, hn]

theorem choose_leaf (h : Downward choose) (hn : n.isNode = false) : choose n = none := by
  cases hc : choose n with
  | none => rfl
  | some c =>
    have hnode := isNode_of_mem_children (h n c hc)
    rw [hn] at hnode
    cases hnode

theorem innermost?_of_none (hc : choose n = none) (hn : n.isNode = true) :
    innermost? choose n = some n := by
  rw [innermost?, path_of_none hc, List.filter_cons_of_pos hn]
  rfl

theorem innermost?_of_leaf (h : Downward choose) (hc : choose n = some c)
    (hleaf : c.isNode = false) : innermost? choose n = some n := by
  have hnode := isNode_of_mem_children (h n c hc)
  rw [innermost?, path_of_some h hc, path_of_none (choose_leaf h hleaf),
    List.filter_cons_of_pos hnode, List.filter_cons_of_neg (by simp [hleaf])]
  rfl

theorem self_mem_path (h : Downward choose) (n : Located) : n ∈ n.path choose := by
  cases hc : choose n with
  | none => simp [path_of_none hc]
  | some c => simp [path_of_some h hc]

theorem innermost?_of_node (h : Downward choose) (hc : choose n = some c)
    (hnode : c.isNode = true) : innermost? choose n = innermost? choose c := by
  have hne : (c.path choose).filter isNode ≠ [] :=
    List.ne_nil_of_mem (List.mem_filter.mpr ⟨self_mem_path h c, hnode⟩)
  rw [innermost?, path_of_some h hc, List.filter_cons_of_pos (isNode_of_mem_children (h n c hc)),
    List.getLast?_cons_of_ne_nil hne, innermost?]

end

/-- The smallest node of a tree around a range: it has the range in it, no node among its children
does, and it lies in every node that does. -/
structure Smallest (n : Located) (s : Span) (m : Located) : Prop where
  mem : m ∈ n.nodes
  contains : m.contains s = true
  least : ∀ c ∈ m.nodeChildren, c.contains s = false
  deepest : ∀ other ∈ n.nodes, other.contains s = true → m ∈ other.nodes

theorem of_towardsRange (h : towardsRange s n = some c) : c ∈ n.children ∧ c.contains s = true := by
  obtain ⟨hc, hs⟩ := Option.filter_eq_some_iff.mp h
  refine ⟨?_, hs⟩
  unfold candidate? at hc
  simp only [Option.orElse_eq_orElse, Option.orElse_eq_or, Option.or_eq_some_iff] at hc
  rcases hc with hc | ⟨-, hc | ⟨-, hc⟩⟩
  · exact List.mem_of_find?_eq_some hc
  · exact (List.mem_filter.mp (List.mem_of_getLast? hc)).1
  · exact List.mem_of_head? hc

theorem downward_towardsRange (s : Span) : Downward (towardsRange s) :=
  fun _ _ h => (of_towardsRange h).1

/-- A range that is not empty leads to the child that has it. -/
theorem towardsRange_eq (hs : s.start < s.stop) (hc : c ∈ n.children) (h : c.contains s = true) :
    towardsRange s n = some c := by
  have hfind := find?_overlap (pairwise_row n.start n.tree.children).2 hs hc h
  refine Option.filter_eq_some_iff.mpr ⟨?_, h⟩
  rw [candidate?, children, hfind]
  rfl

/-- A range that is not empty has at most one child around it. -/
theorem eq_of_contains (hs : s.start < s.stop) (hc : c ∈ n.children) (hcs : c.contains s = true)
    (hd : d ∈ n.children) (hds : d.contains s = true) : d = c := by
  have h := towardsRange_eq hs hd hds
  rw [towardsRange_eq hs hc hcs] at h
  exact (Option.some.inj h).symm

/-- Where no child has the range, a node that has it is the smallest. -/
theorem smallest_self (hn : n.isNode = true) (h : n.contains s = true)
    (hleast : ∀ c ∈ n.children, c.contains s = true → c.isNode = false) : n.Smallest s n where
  mem := List.mem_filter.mpr ⟨self_mem_preorder n, hn⟩
  contains := h
  least c hc := by
    obtain ⟨hc, hnode⟩ := List.mem_filter.mp hc
    refine Bool.eq_false_iff.mpr fun hs => ?_
    rw [hleast c hc hs] at hnode
    cases hnode
  deepest other ho hs := by
    obtain ⟨ho, hnode⟩ := List.mem_filter.mp ho
    rcases mem_preorder_iff.mp ho with rfl | ⟨c, hc, ho⟩
    · exact List.mem_filter.mpr ⟨self_mem_preorder other, hnode⟩
    · -- The child with the other node in it is a token, and has nothing below it.
      have hleaf := hleast c hc (contains_of_mem_preorder ho hs)
      rcases mem_preorder_iff.mp ho with rfl | ⟨d, hd, -⟩
      · rw [hleaf] at hnode
        cases hnode
      · have hcnode := isNode_of_mem_children hd
        rw [hleaf] at hcnode
        cases hcnode

/-- What is smallest in the one child that has the range is smallest. -/
theorem Smallest.of_child (hc : c ∈ n.children)
    (honly : ∀ d ∈ n.children, d.contains s = true → d = c) (h : c.Smallest s m) :
    n.Smallest s m where
  mem := mem_nodes_of_child hc h.mem
  contains := h.contains
  least := h.least
  deepest other ho hs := by
    obtain ⟨ho, hnode⟩ := List.mem_filter.mp ho
    rcases mem_preorder_iff.mp ho with rfl | ⟨d, hd, ho⟩
    · exact mem_nodes_of_child hc h.mem
    · obtain rfl := honly d hd (contains_of_mem_preorder ho hs)
      exact h.deepest other (List.mem_filter.mpr ⟨ho, hnode⟩) hs

/-- The way down to a range stays around it, and the last node on it is the smallest one unless the
range is empty. -/
theorem exists_innermost (s : Span) (n : Located) : n.isNode = true → n.contains s = true →
    ∃ m, innermost? (towardsRange s) n = some m ∧ m ∈ n.nodes ∧ m.contains s = true ∧
      (s.start < s.stop → n.Smallest s m) := by
  have hway := downward_towardsRange s
  induction n using induction_children with
  | step n ih =>
    intro hn h
    have hself : n ∈ n.nodes := List.mem_filter.mpr ⟨self_mem_preorder n, hn⟩
    cases hc : towardsRange s n with
    | none =>
      refine ⟨n, innermost?_of_none hc hn, hself, h, fun hs => ?_⟩
      refine smallest_self hn h fun c hchild hcs => ?_
      rw [towardsRange_eq hs hchild hcs] at hc
      cases hc
    | some c =>
      obtain ⟨hchild, hcs⟩ := of_towardsRange hc
      have honly : s.start < s.stop → ∀ d ∈ n.children, d.contains s = true → d = c :=
        fun hs d hd hds => eq_of_contains hs hchild hcs hd hds
      cases hnode : c.isNode with
      | false =>
        refine ⟨n, innermost?_of_leaf hway hc hnode, hself, h, fun hs => ?_⟩
        refine smallest_self hn h fun d hd hds => ?_
        rw [honly hs d hd hds, hnode]
      | true =>
        obtain ⟨m, hm, hmem, hms, hsmall⟩ := ih c hchild hnode hcs
        rw [innermost?_of_node hway hc hnode]
        exact ⟨m, hm, mem_nodes_of_child hchild hmem, hms,
          fun hs => (hsmall hs).of_child hchild (honly hs)⟩

theorem nodeAtRange?_eq (h : n.contains s = true) :
    n.nodeAtRange? s = innermost? (towardsRange s) n := if_pos h

theorem nodeAtRange?_eq_none (h : n.contains s = false) : n.nodeAtRange? s = none :=
  if_neg (Bool.eq_false_iff.mp h)

/-- A lookup by range finds nodes around the range, the smallest one unless the range is empty, and
nothing only where the range is not inside the tree. -/
structure FindsRanges (n : Located) (s : Span) : Prop where
  smallest : s.start < s.stop → n.contains s = true →
    ∃ m, n.nodeAtRange? s = some m ∧ n.Smallest s m
  around : ∀ m, n.nodeAtRange? s = some m → m ∈ n.nodes ∧ m.contains s = true
  none_iff : n.nodeAtRange? s = none ↔ n.contains s = false

theorem findsRanges (hn : n.isNode = true) (s : Span) : n.FindsRanges s where
  smallest hs h := by
    obtain ⟨m, hm, -, -, hsmall⟩ := exists_innermost s n hn h
    exact ⟨m, by rw [nodeAtRange?_eq h, hm], hsmall hs⟩
  around m hm := by
    cases h : n.contains s with
    | false =>
      rw [nodeAtRange?_eq_none h] at hm
      cases hm
    | true =>
      obtain ⟨m', hm', hmem, hs, -⟩ := exists_innermost s n hn h
      rw [nodeAtRange?_eq h, hm'] at hm
      cases hm
      exact ⟨hmem, hs⟩
  none_iff := by
    constructor
    · intro hnone
      refine Bool.eq_false_iff.mpr fun h => ?_
      obtain ⟨m, hm, -⟩ := exists_innermost s n hn h
      rw [nodeAtRange?_eq h, hm] at hnone
      cases hnone
    · exact nodeAtRange?_eq_none

end Located

theorem Parse.isNode_root (text : String) : (Located.root (parse text).tree).isNode = true := by
  have h := (hugs_storedDefinition ParseOptions.standard.limit text).isNode
  simp only [Located.isNode, Located.root]
  exact congrArg (!·) h

/-- **A lookup by range finds the smallest node.** In the tree of a parse, for a range that is not
empty and lies inside the tree, it finds a node that has the range in it and lies in every other
node that does. For any range, a node that is found has the range in it, and none is found exactly
where the root does not have it. -/
theorem parse_finds_smallest (text : String) (s : Span) :
    (Located.root (parse text).tree).FindsRanges s :=
  Located.findsRanges (Parse.isNode_root text) s

/-- An empty range may lead to the empty node of a missing expression. -/
example : ((Located.root (parse "model M Real x = ; end M;").tree).nodeAtRange? ⟨17, 17⟩).map
    Located.kind = some .error := by
  decide +kernel

end Modelica
