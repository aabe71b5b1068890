import Modelica.Proofs.MissingEnds
import Modelica.Proofs.Ranges

/-!
# The token at an offset

A lookup by offset goes down the tree, at each level into the last child that touches the offset.
The children of a node leave no byte of it out, so the way down ends at a token, and the tokens of
the tree are those of the text.

* `Located.of_towardsOffset`: where one step down leads;
* `Located.exists_reaches`: the way down reaches a token, and the smallest node around it;
* `Located.exists_placed`: a token of a tree stands in its text;
* `Token.At.unique`: a text has no two tokens at one offset;
* `parse_finds_tokens`: the statement for a parse.
-/

namespace Modelica

/-- A token of a text as a tree without any below it. -/
def PlacedToken.located (t : PlacedToken) : Located := ⟨t.span.start, .leaf t.toToken⟩

/-- A token of a text stands over an offset, or it is the last one and stops there with the text. -/
structure Token.At (text : String) (offset : Nat) (t : PlacedToken) : Prop where
  mem : t ∈ place (tokenize text)
  here : t.span.start ≤ offset ∧ offset < t.span.stop ∨
    offset = Modelica.width text.toList ∧ (place (tokenize text)).getLast? = some t

namespace Located

variable {n m c d x : Located} {offset : Nat}

/-- A tree that is not empty and has an offset in it or at one of its ends. -/
def touches (offset : Nat) (n : Located) : Bool :=
  n.start < n.stop && n.start ≤ offset && offset ≤ n.stop

theorem touches_iff : n.touches offset = true ↔
    n.start < n.stop ∧ n.start ≤ offset ∧ offset ≤ n.stop := by
  simp [touches, and_assoc]

theorem towardsOffset_eq (offset : Nat) (n : Located) :
    towardsOffset offset n = (n.children.filter (touches offset)).getLast? := rfl

/-- Trees side by side leave no byte out. -/
theorem exists_in_row {start : Nat} {ts : List Tree} (hstart : start ≤ offset)
    (hstop : offset < start + Tree.widthOf ts) :
    ∃ c ∈ row start ts, c.start ≤ offset ∧ offset < c.stop := by
  induction ts generalizing start with
  | nil => exact absurd hstop (Nat.not_lt.mpr hstart)
  | cons t ts ih =>
    by_cases h : offset < start + t.width
    · exact ⟨⟨start, t⟩, List.mem_cons_self, hstart, h⟩
    · rw [Tree.widthOf, ← Nat.add_assoc] at hstop
      obtain ⟨c, hc, hover⟩ := ih (Nat.le_of_not_lt h) hstop
      exact ⟨c, List.mem_cons_of_mem _ hc, hover⟩

theorem exists_child_over (hn : n.isNode = true) (hstart : n.start ≤ offset)
    (hstop : offset < n.stop) : ∃ c ∈ n.children, c.start ≤ offset ∧ offset < c.stop := by
  obtain ⟨start, t⟩ := n
  cases t with
  | leaf t => cases hn
  | node k cs => exact exists_in_row hstart hstop

/-- The last of some trees side by side starts where each other one stops, or after it. -/
theorem eq_or_stop_le {cs : List Located} (hcs : cs.Pairwise fun c d => c.stop ≤ d.start)
    (hlast : cs.getLast? = some c) (hd : d ∈ cs) : d = c ∨ d.stop ≤ c.start := by
  obtain ⟨before, rfl⟩ := List.getLast?_eq_some_iff.mp hlast
  rcases List.mem_append.mp hd with hd | hd
  · exact .inr ((List.pairwise_append.mp hcs).2.2 d hd c (List.mem_singleton.mpr rfl))
  · exact .inl (List.mem_singleton.mp hd)

/-- A step leads to a child that touches the offset, and over it unless the offset is the end. -/
theorem of_towardsOffset (h : towardsOffset offset n = some c) :
    c ∈ n.children ∧ c.touches offset = true ∧ (offset < n.stop → offset < c.stop) := by
  rw [towardsOffset_eq] at h
  obtain ⟨hc, htouch⟩ := List.mem_filter.mp (List.mem_of_getLast? h)
  refine ⟨hc, htouch, fun hstop => ?_⟩
  obtain ⟨-, hle, -⟩ := touches_iff.mp htouch
  have hstart := Nat.le_trans (children_inside hc).1 hle
  obtain ⟨d, hd, hdstart, hdstop⟩ := exists_child_over (isNode_of_mem_children hc) hstart hstop
  have hdtouch : d.touches offset = true := touches_iff.mpr (by omega)
  -- The child over the offset is not before the last one that touches it.
  have hside := (pairwise_row n.start n.tree.children).2.filter (touches offset)
  rcases eq_or_stop_le hside h (List.mem_filter.mpr ⟨hd, hdtouch⟩) with rfl | hbefore
  · exact hdstop
  · omega

theorem downward_towardsOffset (offset : Nat) : Downward (towardsOffset offset) :=
  fun _ _ h => (of_towardsOffset h).1

/-- A node that touches an offset has a child that does: the one with the byte at the offset, or
with the byte before it. -/
theorem exists_towardsOffset (hn : n.isNode = true) (h : n.touches offset = true) :
    ∃ c, towardsOffset offset n = some c := by
  rw [touches_iff] at h
  obtain ⟨byte, hstart, hstop, hnear⟩ :
      ∃ byte, n.start ≤ byte ∧ byte < n.stop ∧ (byte = offset ∨ byte + 1 = offset) := by
    by_cases hend : offset < n.stop
    · exact ⟨offset, h.2.1, hend, .inl rfl⟩
    · exact ⟨offset - 1, by omega, by omega, by omega⟩
  obtain ⟨c, hc, hcstart, hcstop⟩ := exists_child_over hn hstart hstop
  have htouch : c.touches offset = true := touches_iff.mpr (by omega)
  have hne : n.children.filter (touches offset) ≠ [] :=
    List.ne_nil_of_mem (List.mem_filter.mpr ⟨hc, htouch⟩)
  exact ⟨_, List.getLast?_eq_getLast_of_ne_nil hne⟩

theorem towardsOffset_eq_none (h : n.touches offset = false) : towardsOffset offset n = none := by
  cases hc : towardsOffset offset n with
  | none => rfl
  | some c =>
    obtain ⟨hchild, htouch, -⟩ := of_towardsOffset hc
    have hinside := children_inside hchild
    rw [touches_iff] at htouch
    refine absurd (touches_iff.mpr ?_) (Bool.eq_false_iff.mp h)
    omega

theorem tokenAt?_of_some (hc : towardsOffset offset n = some c) :
    n.tokenAt? offset = c.tokenAt? offset := by
  have hway := downward_towardsOffset offset
  rw [tokenAt?, path_of_some hway hc,
    List.getLast?_cons_of_ne_nil (List.ne_nil_of_mem (self_mem_path hway c)), tokenAt?]

theorem tokenAt?_of_none (hc : towardsOffset offset n = none) :
    n.tokenAt? offset = if n.isNode then none else some n := by
  rw [tokenAt?, path_of_none hc]
  cases hn : n.isNode <;> simp [Option.filter, hn]

/-- A lookup for the node of a token goes the way of the lookup for the token. -/
theorem nodeAt?_eq (h : n.tokenAt? offset = some x) :
    n.nodeAt? offset = innermost? (towardsOffset offset) n := by
  rw [nodeAt?, h]
  rfl

theorem nodeAt?_eq_none (h : n.tokenAt? offset = none) : n.nodeAt? offset = none := by
  rw [nodeAt?, h]
  rfl

/-- Both lookups by offset succeed: the one comes to a token that touches the offset and does not
stop there before the whole tree does, the other to the smallest node around that token. -/
structure Reaches (n : Located) (offset : Nat) (x m : Located) : Prop where
  token : n.tokenAt? offset = some x
  node : n.nodeAt? offset = some m
  mem : x ∈ n.tokens
  touched : x.touches offset = true
  inside : offset < n.stop → offset < x.stop
  child : x ∈ m.children
  smallest : n.Smallest x.span m

theorem contains_self (x : Located) : x.contains x.span = true :=
  contains_iff.mpr ⟨Nat.le_refl _, Nat.le_refl _⟩

/-- The way down ends where it comes to a token. -/
theorem reaches_leaf (hc : towardsOffset offset n = some c) (hleaf : c.isNode = false) :
    n.Reaches offset c n := by
  have hway := downward_towardsOffset offset
  obtain ⟨hchild, htouch, hover⟩ := of_towardsOffset hc
  obtain ⟨hstart, hstop⟩ := children_inside hchild
  have htoken : n.tokenAt? offset = some c := by
    rw [tokenAt?_of_some hc, tokenAt?_of_none (choose_leaf hway hleaf), hleaf]
    rfl
  refine ⟨htoken, ?_, ?_, htouch, hover, hchild, ?_⟩
  · rw [nodeAt?_eq htoken, innermost?_of_leaf hway hc hleaf]
  · have hbelow := mem_preorder_iff.mpr (.inr ⟨c, hchild, self_mem_preorder c⟩)
    exact List.mem_filter.mpr ⟨hbelow, by simp [hleaf]⟩
  · refine smallest_self (isNode_of_mem_children hchild)
      (contains_of_inside (contains_self c) hstart hstop) fun d hd hds => ?_
    rw [eq_of_contains (touches_iff.mp htouch).1 hchild (contains_self c) hd hds, hleaf]

/-- What a child reaches, its parent reaches. -/
theorem reaches_of_child (hc : towardsOffset offset n = some c) (hnode : c.isNode = true)
    (h : c.Reaches offset x m) : n.Reaches offset x m := by
  have hway := downward_towardsOffset offset
  obtain ⟨hchild, -, hover⟩ := of_towardsOffset hc
  obtain ⟨hx, hleaf⟩ := List.mem_filter.mp h.mem
  have hinside := preorder_inside c x hx
  have htoken : n.tokenAt? offset = some x := by rw [tokenAt?_of_some hc, h.token]
  refine ⟨htoken, ?_, ?_, h.touched, fun hstop => h.inside (hover hstop), h.child, ?_⟩
  · rw [nodeAt?_eq htoken, innermost?_of_node hway hc hnode, ← nodeAt?_eq h.token, h.node]
  · exact List.mem_filter.mpr ⟨mem_preorder_iff.mpr (.inr ⟨c, hchild, hx⟩), hleaf⟩
  · have hcontains := contains_of_inside (contains_self x) hinside.1 hinside.2
    exact h.smallest.of_child hchild fun d hd hds =>
      eq_of_contains (touches_iff.mp h.touched).1 hchild hcontains hd hds

/-- A node that touches an offset has a token that the way down reaches. -/
theorem exists_reaches (offset : Nat) (n : Located) : n.isNode = true → n.touches offset = true →
    ∃ x m, n.Reaches offset x m := by
  induction n using induction_children with
  | step n ih =>
    intro hn h
    obtain ⟨c, hc⟩ := exists_towardsOffset hn h
    cases hnode : c.isNode with
    | false => exact ⟨c, n, reaches_leaf hc hnode⟩
    | true =>
      obtain ⟨hchild, htouch, -⟩ := of_towardsOffset hc
      obtain ⟨x, m, hreach⟩ := ih c hchild hnode htouch
      exact ⟨x, m, reaches_of_child hc hnode hreach⟩

/-- A token of a tree is one of its leaves, and stands where the leaves before it stop. -/
theorem exists_placed {t : Tree} (hx : x ∈ (root t).tokens) :
    ∃ p ∈ Token.place t.leaves, x = p.located ∧ x.span = p.span := by
  obtain ⟨hx, hleaf⟩ := List.mem_filter.mp hx
  obtain ⟨before, after, hleaves, hstart, -⟩ := exists_slice 0 t x hx
  obtain ⟨start, tree⟩ := x
  cases tree with
  | node k cs => cases hleaf
  | leaf u =>
    obtain ⟨position, hplace⟩ := Token.placeFrom_append 0 .origin before (u :: after)
    cases hstart
    refine ⟨⟨u, ⟨_, _⟩, position, position.advance u.text⟩, ?_, rfl, rfl⟩
    rw [Token.place, hleaves, Tree.leaves_leaf, List.append_assoc, List.singleton_append, hplace]
    exact List.mem_append_right _ List.mem_cons_self

theorem stop_root {t : Tree} {text : String} (h : t.leaves = tokenize text) :
    (root t).stop = Modelica.width text.toList := by
  rw [stop, root, Nat.zero_add, Tree.width_eq_leaves, h, concat_tokenize]

end Located

/-! ## Tokens at offsets -/

namespace Token

variable {text : String} {offset : Nat} {t u : PlacedToken}

theorem stop_le_width (h : t ∈ place (tokenize text)) :
    t.span.stop ≤ Modelica.width text.toList := by
  have hle := placeFrom_stop_le h
  rwa [concat_tokenize, Nat.zero_add] at hle

/-- A token that stops at the end of its text is the last one. -/
theorem getLast?_of_stop (h : t ∈ place (tokenize text))
    (hstop : t.span.stop = Modelica.width text.toList) :
    (place (tokenize text)).getLast? = some t := by
  have hne := List.ne_nil_of_mem h
  rw [List.getLast?_eq_getLast_of_ne_nil hne]
  have hlast := List.getLast_mem hne
  obtain ⟨before, hsplit⟩ := List.getLast?_eq_some_iff.mp (List.getLast?_eq_getLast_of_ne_nil hne)
  have hside := placeFrom_pairwise 0 .origin (tokenize text)
  rw [← place, hsplit] at hside
  rw [hsplit] at h
  rcases List.mem_append.mp h with hbefore | hself
  · -- Another one would start where this one stops, and no token starts at the end.
    have hle := (List.pairwise_append.mp hside).2.2 t hbefore _ (List.mem_singleton.mpr rfl)
    have hlt := Landmarks.start_lt_width hlast
    omega
  · rw [List.mem_singleton.mp hself]

theorem eq_of_over (ht : t ∈ place (tokenize text)) (hu : u ∈ place (tokenize text))
    (htover : t.span.start ≤ offset ∧ offset < t.span.stop)
    (huover : u.span.start ≤ offset ∧ offset < u.span.stop) : t = u := by
  have hside := List.pairwise_iff_getElem.mp (placeFrom_pairwise 0 .origin (tokenize text))
  obtain ⟨i, hi, rfl⟩ := List.getElem_of_mem ht
  obtain ⟨j, hj, rfl⟩ := List.getElem_of_mem hu
  unfold place at hi hj htover huover ⊢
  rcases Nat.lt_trichotomy i j with hij | rfl | hij
  · have hle := hside i j hi hj hij
    omega
  · rfl
  · have hle := hside j i hj hi hij
    omega

/-- A text has no two tokens at one offset. -/
theorem At.unique (ht : At text offset t) (hu : At text offset u) : t = u := by
  have htle := stop_le_width ht.mem
  have hule := stop_le_width hu.mem
  rcases ht.here with htover | ⟨htend, htlast⟩
  · rcases hu.here with huover | ⟨huend, -⟩
    · exact eq_of_over ht.mem hu.mem htover huover
    · omega
  · rcases hu.here with huover | ⟨-, hulast⟩
    · omega
    · rw [htlast] at hulast
      exact Option.some.inj hulast

theorem At.le_width (h : At text offset t) : offset ≤ Modelica.width text.toList := by
  have hle := stop_le_width h.mem
  rcases h.here with hover | ⟨hend, -⟩ <;> omega

theorem At.ne_empty (h : At text offset t) : text ≠ "" := by
  rintro rfl
  exact absurd h.mem List.not_mem_nil

end Token

namespace Located

/-- A lookup by offset finds the token of the text at the offset, and nothing only beyond the end of
the text or when the text is empty. The node it finds is the smallest one around that token, and has
it as a child. -/
structure FindsTokens (n : Located) (text : String) (offset : Nat) : Prop where
  token_iff : ∀ x, n.tokenAt? offset = some x ↔ ∃ t, Token.At text offset t ∧ x = t.located
  none_iff : n.tokenAt? offset = none ↔ width text.toList < offset ∨ text = ""
  node : ∀ x, n.tokenAt? offset = some x →
    ∃ m, n.nodeAt? offset = some m ∧ x ∈ m.children ∧ n.Smallest x.span m
  node_none : n.nodeAt? offset = none ↔ n.tokenAt? offset = none

variable {t : Tree} {n x m : Located} {text : String} {offset : Nat}

theorem touches_root (h : t.leaves = tokenize text) :
    (root t).touches offset = true ↔ offset ≤ width text.toList ∧ text ≠ "" := by
  have hpos : 0 < width text.toList ↔ text ≠ "" := by
    rw [ne_eq, ← String.toList_eq_nil_iff]
    cases text.toList with
    | nil => simp
    | cons c cs => simpa using Nat.add_pos_left c.utf8Size_pos _
  rw [touches_iff, stop_root h, ← hpos, root]
  simp only [Nat.zero_le, true_and]
  exact and_comm

theorem Reaches.at (h : t.leaves = tokenize text) (hr : (root t).Reaches offset x m) :
    ∃ p, Token.At text offset p ∧ x = p.located := by
  obtain ⟨p, hp, hx, hspan⟩ := exists_placed hr.mem
  rw [h] at hp
  have hstart : x.start = p.span.start := congrArg Span.start hspan
  have hstop : x.stop = p.span.stop := congrArg Span.stop hspan
  obtain ⟨-, hle, hge⟩ := touches_iff.mp hr.touched
  have hinside := hr.inside
  rw [stop_root h] at hinside
  refine ⟨p, ⟨hp, ?_⟩, hx⟩
  by_cases hend : offset < width text.toList
  · exact .inl ⟨hstart ▸ hle, hstop ▸ hinside hend⟩
  · have hwidth := Token.stop_le_width hp
    exact .inr ⟨by omega, Token.getLast?_of_stop hp (by omega)⟩

theorem tokenAt?_eq_none (hn : n.isNode = true) (h : n.touches offset = false) :
    n.tokenAt? offset = none := by
  rw [tokenAt?_of_none (towardsOffset_eq_none h), hn]
  rfl

/-- Where a token is reached, the lookups find this token and the node around it. -/
theorem FindsTokens.of_reaches (h : t.leaves = tokenize text)
    (hr : (root t).Reaches offset x m) (hle : offset ≤ width text.toList) (hne : text ≠ "") :
    (root t).FindsTokens text offset := by
  obtain ⟨p, hp, hx⟩ := hr.at h
  constructor
  · intro y
    rw [hr.token]
    constructor
    · rintro ⟨⟩
      exact ⟨p, hp, hx⟩
    · rintro ⟨q, hq, rfl⟩
      rw [hq.unique hp, hx]
  · rw [hr.token]
    refine iff_of_false (by simp) ?_
    rintro (hlt | hempty)
    · omega
    · exact hne hempty
  · intro y hy
    rw [hr.token] at hy
    cases hy
    exact ⟨m, hr.node, hr.child, hr.smallest⟩
  · rw [hr.node, hr.token]
    simp

/-- Beyond the text there is no token, and none is found. -/
theorem FindsTokens.of_beyond (hnone : n.tokenAt? offset = none)
    (hout : width text.toList < offset ∨ text = "") : n.FindsTokens text offset := by
  constructor
  · intro x
    rw [hnone]
    refine iff_of_false (by simp) ?_
    rintro ⟨p, hp, -⟩
    rcases hout with hlt | hempty
    · have hle := hp.le_width
      omega
    · exact hp.ne_empty hempty
  · exact iff_of_true hnone hout
  · intro x hx
    rw [hnone] at hx
    cases hx
  · exact iff_of_true (nodeAt?_eq_none hnone) hnone

theorem findsTokens (hn : (root t).isNode = true) (h : t.leaves = tokenize text) (offset : Nat) :
    (root t).FindsTokens text offset := by
  cases htouch : (root t).touches offset with
  | true =>
    obtain ⟨x, m, hr⟩ := exists_reaches offset (root t) hn htouch
    obtain ⟨hle, hne⟩ := (touches_root h).mp htouch
    exact .of_reaches h hr hle hne
  | false =>
    refine .of_beyond (tokenAt?_eq_none hn htouch) ?_
    rwa [Bool.eq_false_iff, ne_eq, touches_root h, not_and_or, Nat.not_le, not_not] at htouch

end Located

/-- **A lookup by offset agrees with the tokens of the text.** In the tree of a parse it finds the
token with `start ≤ offset < stop`, at the end of the text the last token, and nothing beyond it or
in an empty text. The node it finds is the innermost one that holds this token. -/
theorem parse_finds_tokens (text : String) (offset : Nat) :
    (Located.root (parse text).tree).FindsTokens text offset :=
  Located.findsTokens (Parse.isNode_root text) (Parse.covers_storedDefinition _ text).leaves offset

/-- Where two tokens meet, the second one is found. -/
example : ((Located.root (parse "x;").tree).tokenAt? 1).map Located.text = some ";" := by
  decide +kernel

end Modelica
