import Modelica.Proofs.Fates
import Modelica.Proofs.Fields
import Modelica.View.Basic

/-!
# Parts and slots

A view reads the parts of a node by their kinds or from its slots. `Located.Shows` says that what
is read is what the slot of the part holds. There is one lemma for each way in which views read a
part; its premise is checked on the slots of the kind and on what is left of its children.

* `View.shows_nodeIn?`, `View.shows_tokenIn?`: parts read from a slot, which needs the slot to
  be for nodes or for tokens of the right kinds;
* `View.shows_first?`, `View.shows_has` and others: parts read by their kinds, where the slot
  has to take every child of these kinds.
-/

namespace Modelica

/-- What a view may read for a part, and what it says of the children that are the part. -/
class Readout (β : Type) where
  shows : β → List Located → Prop

instance {α : Type} [NodeView α] : Readout (Option α) :=
  ⟨fun part children => part.map NodeView.toNode = children.head?⟩

instance {α : Type} [NodeView α] : Readout (List α) :=
  ⟨fun parts children => parts.map NodeView.toNode = children⟩

/-- A keyword that is there or not. -/
instance : Readout Bool := ⟨fun there children => there = !children.isEmpty⟩

instance : Readout (Option Located) := ⟨fun token children => token = children.head?⟩

instance : Readout (Option String) :=
  ⟨fun text children => text = children.head?.map Located.text⟩

instance : Readout (List String) := ⟨fun texts children => texts = children.map Located.text⟩

/-- The part that was read is what the slot holds. -/
def Located.Shows {β : Type} [Readout β] (n : Located) (slot : String) (part : β) : Prop :=
  Readout.shows part (n.field slot).toList

/-- What was read is what can be seen as `α` among the children in the slot. -/
def Located.ShowsSome {α : Type} [NodeView α] (n : Located) (slot : String) (parts : List α) :
    Prop :=
  parts = (n.field slot).toList.filterMap NodeView.ofNode?

/-- What was read comes before the first child of kind `clause` or after it. The slot holds what
comes before. -/
def Located.ShowsBefore {α : Type} [NodeView α] (n : Located) (clause : Kind) (slot : String)
    (parts : List α) : Prop :=
  ∃ early late : List α, parts = early ++ late ∧ n.Shows slot early ∧
    early = (n.children.takeWhile (·.kind != clause)).filterMap NodeView.ofNode? ∧
    late = (n.children.dropWhile (·.kind != clause)).filterMap NodeView.ofNode?

/-- Views of the nodes whose kinds a matcher accepts. -/
class LawfulNodeView (α : Type) [NodeView α] where
  matcher : Matcher
  map_ofNode? : ∀ n : Located, (NodeView.ofNode? n : Option α).map NodeView.toNode =
    if matcher.accepts n.kind then some n else none

instance {k : Kind} : LawfulNodeView (View k) where
  matcher := .kind k
  map_ofNode? n := by
    by_cases h : n.kind = k <;> simp [NodeView.ofNode?, NodeView.toNode, View.of?,
      Matcher.accepts, h]

instance {s : Supertype} : LawfulNodeView (Choice s) where
  matcher := .alternative s
  map_ofNode? n := by
    by_cases h : n.kind.isA s = true <;> simp [NodeView.ofNode?, NodeView.toNode, Choice.of?,
      Matcher.accepts, h]

/-! ## What is checked -/

namespace Kind

/-- The slot of a kind called `name`, with its index. -/
def slot? (k : Kind) (name : String) : Option (Slot × Nat) :=
  (Schema.standard.slots k).zipIdx.find? (·.1.name == name)

theorem getElem?_of_slot? {k : Kind} {name : String} {slot : Slot} {i : Nat}
    (h : k.slot? name = some (slot, i)) : (Schema.standard.slots k)[i]? = some slot :=
  List.mem_zipIdx_iff_getElem?.mp (List.mem_of_find?_eq_some h)

theorem name_of_slot? {k : Kind} {name : String} {slot : Slot} {i : Nat}
    (h : k.slot? name = some (slot, i)) : slot.name = name := by
  simpa using List.find?_some h

/-- The slot called `name` is for what the matcher accepts. -/
def holds (k : Kind) (name : String) (m : Matcher) : Bool :=
  (k.slot? name).any (·.1.matcher == m)

/-- The slot called `name` takes every child that the matcher accepts. -/
def gathers (k : Kind) (name : String) (m : Matcher) : Bool :=
  k != .rangeExpression &&
    (k.slot? name).any fun (slot, i) => slot.matcher == m && Located.gathers k i m

/-- The slot called `name` takes every child that the matcher accepts up to the first child of kind
`clause`, and none after it. -/
def gathersUntil (k : Kind) (clause : Kind) (name : String) (m : Matcher) : Bool :=
  k != .rangeExpression && clause.isCounted && !m.accepts clause &&
    (k.slot? name).any fun (slot, i) => slot.matcher == m &&
      (Slot.watches (Schema.standard.slots k)
        (needing (·.1 == clause) fun e => m.accepts e.1 && e.2 != some i) false k.parts &&
      Slot.watches (Schema.standard.slots k)
        (once (·.1 == clause) fun e => e.2 != some i) false k.parts)

end Kind

namespace Matcher

/-- Only nodes are accepted. -/
def ofNodes (m : Matcher) : Bool := m.kinds.all (Kind.productions.contains ·)

/-- Only tokens are accepted. -/
def ofTokens (m : Matcher) : Bool :=
  m.kinds.all fun k => !Kind.productions.contains k && k != .error

end Matcher

namespace Located

variable {n : Located} {name : String} {m : Matcher}

theorem not_accepts_of_slot? (h : n.Remains) {slot : Slot} {i : Nat}
    (hs : n.kind.slot? name = some (slot, i)) {k : Kind} (hk : k.isCounted = false) :
    slot.matcher.accepts k = false :=
  Slot.not_accepts_of_inert (Slot.inert_standard _ h.kind) hk
    (List.mem_of_getElem? (Kind.getElem?_of_slot? hs))

theorem toList_field {slot : Slot} {i : Nat} (hs : n.kind.slot? name = some (slot, i)) :
    (n.field name).toList = Schema.standard.childrenIn n i := by
  have hslot := Kind.getElem?_of_slot? hs
  rw [← Kind.name_of_slot? hs, toList_field_eq (List.mem_of_getElem? hslot), filling_eq hslot]

theorem isAbsent_field (n : Located) (name : String) :
    (n.field name).isAbsent = (n.field name).toList.isEmpty := by
  have hof : ∀ (c : Cardinality) (cs : List Located),
      (Field.ofChildren c cs).isAbsent = (Field.ofChildren c cs).toList.isEmpty := by
    intro c cs
    cases cs with
    | nil => rfl
    | cons d ds => cases c <;> rfl
  simp only [field, Schema.field]
  split
  · exact hof _ _
  · rfl

/-- What is in a slot is a child that the slot is for. -/
theorem mem_field (hm : n.kind.holds name m = true) {c : Located}
    (hc : c ∈ (n.field name).toList) : c ∈ n.children ∧ m.accepts c.kind = true := by
  obtain ⟨⟨slot, i⟩, hs, he⟩ := (Option.any_eq_true ..).mp hm
  rw [toList_field hs] at hc
  obtain ⟨⟨j, c'⟩, hmem, rfl⟩ := List.mem_map.mp hc
  obtain ⟨hmem, hj⟩ := List.mem_filter.mp hmem
  obtain ⟨p, -, -, hchild⟩ := mem_resolve.mp hmem
  obtain ⟨slot', hs', ha⟩ := accepts_of_mem_resolve hmem
  have hslot := Kind.getElem?_of_slot? hs
  obtain rfl : j = i := by simpa using hj
  obtain rfl : slot = slot' := Option.some.inj (hslot.symm.trans hs')
  obtain rfl : slot.matcher = m := by simpa using he
  exact ⟨List.mem_of_getElem? hchild, ha⟩

theorem field_of_gathers (h : n.Remains) (hg : n.kind.gathers name m = true) :
    (n.field name).toList = n.children.filter (m.accepts ·.kind) := by
  simp only [Kind.gathers, Bool.and_eq_true, bne_iff_ne] at hg
  obtain ⟨⟨slot, i⟩, hs, he⟩ := (Option.any_eq_true ..).mp hg.2
  simp only [Bool.and_eq_true, beq_iff_eq] at he
  obtain ⟨rfl, hg'⟩ := he
  have hslot := Kind.getElem?_of_slot? hs
  rw [toList_field hs, childrenIn_of_gathers h hg.1 hslot hg']

/-- Up to the first clause fates and kinds agree, after it nothing goes to the slot. -/
theorem filter_fates {es : List (Located × Option Nat)} {i : Nat} {clause : Kind}
    (hclause : m.accepts clause = false)
    (haccepts : ∀ e ∈ es, e.2 = some i → m.accepts e.1.kind = true)
    {last last' : Bool}
    (hn : Walks (needing (·.1.kind == clause) fun e => m.accepts e.1.kind && e.2 != some i) false es
      last)
    (ho : Walks (once (·.1.kind == clause) fun e => e.2 != some i) false es last') :
    es.filter (·.2 == some i) =
      (es.takeWhile (·.1.kind != clause)).filter (m.accepts ·.1.kind) := by
  induction es with
  | nil => rfl
  | cons e es ih =>
    cases hn with
    | cons hsn hwn =>
      cases ho with
      | cons hso hwo =>
        simp only [needing, once, Option.ite_none_left_eq_some, Option.some.injEq] at hsn hso
        obtain ⟨hneed, rfl⟩ := hsn
        obtain ⟨-, rfl⟩ := hso
        have hhead := haccepts e (by simp)
        by_cases hc : e.1.kind = clause
        · have hrest := (Walks.once_spec hwo).1 (by simp [hc])
          have hne : e.2 ≠ some i := fun hi => by simp [hc, hclause] at hhead; exact hhead hi
          rw [List.takeWhile_cons_of_neg (by simp [hc]), List.filter_nil, List.filter_eq_nil_iff]
          intro e' he'
          obtain rfl | he' := List.mem_cons.mp he'
          · simpa using hne
          · simpa using hrest e' he'
        · have hiff : (e.2 == some i) = m.accepts e.1.kind := by
            rw [Bool.eq_iff_iff, beq_iff_eq]
            exact ⟨hhead, fun ha => by simpa [ha] using hneed⟩
          simp only [hc, beq_false_of_ne, Bool.or_false, ne_eq, not_false_eq_true] at hwn hwo
          rw [List.takeWhile_cons_of_pos (by simpa using hc), List.filter_cons, List.filter_cons,
            hiff, ih (fun e he => haccepts e (by simp [he])) hwn hwo]

theorem field_of_gathersUntil (h : n.Remains) {clause : Kind}
    (hg : n.kind.gathersUntil clause name m = true) : (n.field name).toList =
      (n.children.takeWhile (·.kind != clause)).filter (m.accepts ·.kind) := by
  simp only [Kind.gathersUntil, Bool.and_eq_true, bne_iff_ne, Bool.not_eq_true'] at hg
  obtain ⟨⟨⟨hr, hcounted⟩, hclause⟩, hg⟩ := hg
  obtain ⟨⟨slot, i⟩, hs, hg⟩ := (Option.any_eq_true ..).mp hg
  simp only [Bool.and_eq_true, beq_iff_eq] at hg
  obtain ⟨rfl, hneeding, honce⟩ := hg
  have hslot := Kind.getElem?_of_slot? hs
  have hne : ∀ k : Kind, k.isCounted = false → (k == clause) = false := fun k hk =>
    beq_false_of_ne fun he => by simp [← he, hk] at hcounted
  obtain ⟨l, hn⟩ := watched h (fun b k hk => by
    simp [needing, hne k hk, not_accepts_of_slot? h hs hk]) hneeding
  obtain ⟨l', ho⟩ := watched h (fun b k hk => by simp [once, hne k hk]) honce
  have haccepts : ∀ e ∈ n.fates, e.2 = some i → slot.matcher.accepts e.1.kind = true := by
    intro e he hi
    obtain ⟨slot', hs', ha⟩ := accepts_of_fate he hi
    obtain rfl : slot = slot' := Option.some.inj (hslot.symm.trans hs')
    exact ha
  rw [toList_field hs, childrenIn_eq h hr, filter_fates hclause haccepts hn ho,
    ← map_fst_fates n, List.takeWhile_map, List.filter_map]
  rfl

/-! ## Nodes and tokens among the children -/

/-- A child that a matcher of nodes accepts is a node. -/
theorem isNode_of_accepts (h : n.Remains) (hm : m.ofNodes = true) {c : Located}
    (hc : c ∈ n.children) (ha : m.accepts c.kind = true) : c.isNode = true := by
  by_contra hn
  have hk := List.all_eq_true.mp hm c.kind (Matcher.mem_kinds ha)
  exact h.leaf c hc (by simpa using hn) (List.contains_iff_mem.mp hk)

/-- A child that a matcher of tokens accepts is a token. -/
theorem isNode_eq_false_of_accepts (h : n.Remains) (hm : m.ofTokens = true) {c : Located}
    (hc : c ∈ n.children) (ha : m.accepts c.kind = true) : c.isNode = false := by
  by_contra hn
  have hk := List.all_eq_true.mp hm c.kind (Matcher.mem_kinds ha)
  simp only [Bool.and_eq_true, Bool.not_eq_true', bne_iff_ne] at hk
  obtain hp | he := h.node c hc (by simpa using hn)
  · rw [List.contains_iff_mem.mpr hp] at hk
    cases hk.1
  · exact hk.2 he

theorem childByField_eq (h : n.Remains) (hm : m.ofNodes = true)
    (hs : n.kind.holds name m = true) :
    n.childByField name = (n.field name).toList.head? := by
  show (n.field name).toList.head?.filter isNode = (n.field name).toList.head?
  cases hc : (n.field name).toList.head? with
  | none => rfl
  | some c =>
    obtain ⟨hmem, ha⟩ := mem_field hs (List.mem_of_head? hc)
    simp [isNode_of_accepts h hm hmem ha]

/-- All that is in a slot for tokens is tokens. -/
theorem filter_field (h : n.Remains) (hs : (n.kind.slot? name).any (·.1.matcher.ofTokens) = true) :
    (n.field name).toList.filter (!·.isNode) = (n.field name).toList := by
  obtain ⟨⟨slot, i⟩, hslot, hm⟩ := (Option.any_eq_true ..).mp hs
  have hs : n.kind.holds name slot.matcher = true := by simp [Kind.holds, hslot]
  refine List.filter_eq_self.mpr fun c hc => ?_
  obtain ⟨hmem, ha⟩ := mem_field hs hc
  simp [isNode_eq_false_of_accepts h hm hmem ha]

/-- The nodes that can be seen as `α` are those whose kinds the matcher of `α` accepts. -/
theorem map_filterMap_ofNode? {α : Type} [NodeView α] [LawfulNodeView α] (cs : List Located) :
    (cs.filterMap (NodeView.ofNode? : Located → Option α)).map NodeView.toNode =
      cs.filter ((LawfulNodeView.matcher α).accepts ·.kind) := by
  rw [List.map_filterMap, ← List.filterMap_eq_filter]
  refine List.filterMap_congr fun c _ => ?_
  rw [LawfulNodeView.map_ofNode?]
  rfl

theorem ofNode?_eq_none {α : Type} [NodeView α] [LawfulNodeView α] {c : Located}
    (h : (LawfulNodeView.matcher α).accepts c.kind = false) :
    (NodeView.ofNode? c : Option α) = none := by
  have hmap := LawfulNodeView.map_ofNode? (α := α) c
  rw [if_neg (by simp [h])] at hmap
  exact Option.map_eq_none_iff.mp hmap

/-- Only nodes can be seen as `α`. -/
theorem every_eq {α : Type} [NodeView α] [LawfulNodeView α] (h : n.Remains)
    (hm : (LawfulNodeView.matcher α).ofNodes = true) :
    (n.every : List α) = n.children.filterMap NodeView.ofNode? := by
  rw [every, nodeChildren, List.filterMap_filter]
  refine List.filterMap_congr fun c hc => ?_
  cases hn : c.isNode with
  | true => rfl
  | false =>
    refine (ofNode?_eq_none (Bool.eq_false_iff.mpr fun ha => ?_)).symm
    rw [isNode_of_accepts h hm hc ha] at hn
    cases hn

theorem filter_nodeChildren (h : n.Remains) (hm : m.ofNodes = true) :
    n.nodeChildren.filter (m.accepts ·.kind) = n.children.filter (m.accepts ·.kind) := by
  rw [nodeChildren, List.filter_filter]
  refine List.filter_congr fun c hc => ?_
  cases ha : m.accepts c.kind with
  | false => rfl
  | true => rw [isNode_of_accepts h hm hc ha]; rfl

theorem filter_tokenChildren (h : n.Remains) (hm : m.ofTokens = true) :
    n.tokenChildren.filter (m.accepts ·.kind) = n.children.filter (m.accepts ·.kind) := by
  rw [tokenChildren, List.filter_filter]
  refine List.filter_congr fun c hc => ?_
  cases ha : m.accepts c.kind with
  | false => rfl
  | true => rw [isNode_eq_false_of_accepts h hm hc ha]; rfl

end Located

/-! ## Ways to read a part -/

namespace View

variable {k : Kind} (v : View k) (h : v.node.Remains) {name : String}
include h

section

variable {α : Type} [NodeView α] [LawfulNodeView α]

theorem shows_every (hs : ((LawfulNodeView.matcher α).ofNodes &&
      k.gathers name (LawfulNodeView.matcher α)) = true) :
    v.node.Shows name (v.node.every : List α) := by
  obtain ⟨hm, hg⟩ := Bool.and_eq_true_iff.mp hs
  show (v.node.every : List α).map NodeView.toNode = _
  rw [Located.field_of_gathers h (v.kind_eq ▸ hg), ← Located.filter_nodeChildren h hm]
  exact Located.map_filterMap_ofNode? _

theorem shows_first? (hs : ((LawfulNodeView.matcher α).ofNodes &&
      k.gathers name (LawfulNodeView.matcher α)) = true) :
    v.node.Shows name (v.node.first? : Option α) := by
  have hevery : (v.node.every : List α).map NodeView.toNode = (v.node.field name).toList :=
    v.shows_every h hs
  show (v.node.first? : Option α).map NodeView.toNode = _
  rw [← hevery, List.head?_map, Located.every, List.head?_filterMap]
  rfl

/-- Where the slot takes more than what can be seen as `α`. -/
theorem shows_some (hs : ((LawfulNodeView.matcher α).ofNodes && (k.slot? name).any fun s =>
      k.gathers name s.1.matcher && (LawfulNodeView.matcher α).kinds.all s.1.matcher.accepts) =
        true) :
    v.node.ShowsSome name (v.node.every : List α) := by
  obtain ⟨hm, hs⟩ := Bool.and_eq_true_iff.mp hs
  obtain ⟨⟨slot, i⟩, -, hs⟩ := (Option.any_eq_true ..).mp hs
  obtain ⟨hg, hall⟩ := Bool.and_eq_true_iff.mp hs
  rw [Located.ShowsSome, Located.every_eq h hm, Located.field_of_gathers h (v.kind_eq ▸ hg),
    List.filterMap_filter]
  refine List.filterMap_congr fun c _ => ?_
  cases ha : slot.matcher.accepts c.kind with
  | true => rfl
  | false =>
    refine Located.ofNode?_eq_none (Bool.eq_false_iff.mpr fun hc => ?_)
    rw [List.all_eq_true.mp hall c.kind (Matcher.mem_kinds hc)] at ha
    cases ha

theorem shows_before {clause : Kind} (hs : ((LawfulNodeView.matcher α).ofNodes &&
      k.gathersUntil clause name (LawfulNodeView.matcher α)) = true) :
    v.node.ShowsBefore clause name (v.node.every : List α) := by
  obtain ⟨hm, hg⟩ := Bool.and_eq_true_iff.mp hs
  refine ⟨_, _, ?_, ?_, rfl, rfl⟩
  · rw [Located.every_eq h hm, ← List.filterMap_append, List.takeWhile_append_dropWhile]
  · show List.map NodeView.toNode (List.filterMap NodeView.ofNode? _) = _
    rw [Located.map_filterMap_ofNode?, Located.field_of_gathersUntil h (v.kind_eq ▸ hg)]

theorem shows_nodeIn? (hs : ((LawfulNodeView.matcher α).ofNodes &&
      k.holds name (LawfulNodeView.matcher α)) = true) :
    v.node.Shows name (v.node.nodeIn? name : Option α) := by
  obtain ⟨hm, hs⟩ := Bool.and_eq_true_iff.mp hs
  rw [← v.kind_eq] at hs
  show (v.node.nodeIn? name : Option α).map NodeView.toNode = _
  rw [Located.nodeIn?, Located.childByField_eq h hm hs]
  cases hc : (v.node.field name).toList.head? with
  | none => rfl
  | some c =>
    have ha := (Located.mem_field hs (List.mem_of_head? hc)).2
    rw [Option.bind_some, LawfulNodeView.map_ofNode?, if_pos ha]

theorem shows_nodesIn (hs : ((LawfulNodeView.matcher α).ofNodes &&
      k.holds name (LawfulNodeView.matcher α)) = true) :
    v.node.Shows name (v.node.nodesIn name : List α) := by
  obtain ⟨hm, hs⟩ := Bool.and_eq_true_iff.mp hs
  have hfield := fun c hc => Located.mem_field (n := v.node) (c := c) (v.kind_eq ▸ hs) hc
  show (((v.node.field name).toList.filter Located.isNode).filterMap
    (NodeView.ofNode? : Located → Option α)).map NodeView.toNode = (v.node.field name).toList
  rw [List.filter_eq_self.mpr fun c hc =>
    Located.isNode_of_accepts h hm (hfield c hc).1 (hfield c hc).2, Located.map_filterMap_ofNode?]
  exact List.filter_eq_self.mpr fun c hc => (hfield c hc).2

end

theorem shows_has {l : Kind} (hs : ((Matcher.kind l).ofTokens && k.gathers name (.kind l)) = true) :
    v.node.Shows name (v.node.has l) := by
  obtain ⟨hm, hg⟩ := Bool.and_eq_true_iff.mp hs
  show v.node.tokenChildren.any (·.kind == l) = !(v.node.field name).toList.isEmpty
  rw [Located.field_of_gathers h (v.kind_eq ▸ hg), ← Located.filter_tokenChildren h hm,
    Bool.eq_iff_iff]
  simp [Matcher.accepts]

theorem shows_identifiers (hg : k.gathers name (.kind .ident) = true) :
    v.node.Shows name v.node.identifiers := by
  show v.node.identifiers = (v.node.field name).toList.map Located.text
  rw [Located.field_of_gathers h (v.kind_eq ▸ hg), ← Located.filter_tokenChildren h (by decide)]
  rfl

theorem shows_identifier? (hg : k.gathers name (.kind .ident) = true) :
    v.node.Shows name v.node.identifier? := by
  have hall : v.node.identifiers = (v.node.field name).toList.map Located.text :=
    v.shows_identifiers h hg
  show v.node.identifiers.head? = (v.node.field name).toList.head?.map Located.text
  rw [hall, List.head?_map]

theorem shows_tokenIn? (hs : (k.slot? name).any (·.1.matcher.ofTokens) = true) :
    v.node.Shows name (v.node.tokenIn? name) := by
  show (v.node.field name).toList.head?.filter (!·.isNode) = (v.node.field name).toList.head?
  have hall := Located.filter_field h (v.kind_eq ▸ hs)
  cases hc : (v.node.field name).toList.head? with
  | none => rfl
  | some c =>
    have hn := List.filter_eq_self.mp hall c (List.mem_of_head? hc)
    simpa using hn

theorem shows_textIn? (hs : (k.slot? name).any (·.1.matcher.ofTokens) = true) :
    v.node.Shows name ((v.node.tokenIn? name).map Located.text) :=
  congrArg (Option.map Located.text) (v.shows_tokenIn? h hs)

theorem shows_textsIn (hs : (k.slot? name).any (·.1.matcher.ofTokens) = true) :
    v.node.Shows name (((v.node.field name).toList.filter (!·.isNode)).map Located.text) :=
  congrArg (List.map Located.text) (Located.filter_field h (by rwa [v.kind_eq]))

theorem shows_nodeText? (hs : (k.slot? name).any (·.1.matcher.ofNodes) = true) :
    v.node.Shows name ((v.node.childByField name).map Located.text) := by
  obtain ⟨⟨slot, i⟩, hslot, hm⟩ := (Option.any_eq_true ..).mp hs
  have hs : v.node.kind.holds name slot.matcher = true := by simp [Kind.holds, v.kind_eq, hslot]
  exact congrArg (Option.map Located.text) (Located.childByField_eq h hm hs)

omit h in
theorem shows_fills : v.node.Shows name (v.node.fills name) :=
  congrArg (!·) (Located.isAbsent_field v.node name)

end View

end Modelica
