import Modelica.Proofs.Weaving
import Modelica.Proofs.Ends
import Modelica.Proofs.Exactness
import Modelica.Proofs.WholeText

/-!
# Parts of a woven tree

Weaving is local. What is put into a tree does not depend on the tokens after its last one
(`Tree.weaveAll_more`), and a part of a tree is woven over the tokens from its first one on
(`Located.follow_weaveAll`), so a part looks the same in whatever tree and text it stands.
-/

namespace Modelica

/-- The part of a tree to which a path leads. Each step of the path goes to a child that is a node,
by its number among those. -/
def Located.follow : List Nat → Located → Option Located
  | [], n => some n
  | i :: path, n => n.nodeChildren[i]?.bind (follow path)

theorem Token.concat_append (ts us : List Token) : concat (ts ++ us) = concat ts ++ concat us := by
  induction ts with
  | nil => simp [concat]
  | cons t ts ih => rw [List.cons_append, concat_cons, concat_cons, ih, String.append_assoc]

theorem Token.significant_append (ts us : List Token) :
    significant (ts ++ us) = significant ts ++ significant us :=
  List.filter_append ..

namespace Tree

section

variable {m : List Token}

theorem gap_more (h : afterGap m ≠ []) (post : List Token) : gap (m ++ post) = gap m := by
  have hlength : (m.takeWhile (!·.isSignificant)).length ≠ m.length := fun he =>
    h (List.dropWhile_eq_nil_iff.mpr fun t ht =>
      List.mem_takeWhile_imp (p := fun t : Token => !t.isSignificant)
        (((List.takeWhile_prefix _).eq_of_length he).symm ▸ ht))
  rw [gap, gap, List.takeWhile_append, if_neg hlength]

theorem afterGap_more (h : afterGap m ≠ []) (post : List Token) :
    afterGap (m ++ post) = afterGap m ++ post := by
  unfold afterGap at h ⊢
  rw [List.dropWhile_append, if_neg (by simpa using h)]

end

mutual

theorem leaves_ne_nil (c : Tree) (h : c.endsInLeaf = true) : c.leaves ≠ [] :=
  match c with
  | leaf t => List.cons_ne_nil t []
  | node _ cs => leavesOf_ne_nil cs h

theorem leavesOf_ne_nil (cs : List Tree) (h : lastEndsInLeaf cs = true) : leavesOf cs ≠ [] :=
  match cs with
  | [] => nomatch h
  | [c] => by simpa using leaves_ne_nil c h
  | c :: d :: cs => fun he => leavesOf_ne_nil (d :: cs) h (List.append_eq_nil_iff.mp he).2

end

mutual

/-- A tree that ends in a leaf, or is followed by a token that the grammar reads, takes in nothing
of what comes after. -/
theorem weaveChild_more (m post s : List Token) (c : Tree)
    (h : Token.significant m = c.leaves ++ s) (hend : s ≠ [] ∨ c.endsInLeaf = true) :
    weaveChild (m ++ post) c = ((weaveChild m c).1, (weaveChild m c).2 ++ post) := by
  have hm : afterGap m ≠ [] := fun he => by
    rw [afterGap_eq_nil_iff.mp he] at h
    obtain ⟨hc, hs⟩ := List.append_eq_nil_iff.mp h.symm
    exact hend.elim (fun hn => hn hs) fun hl => leaves_ne_nil c hl hc
  match c with
  | leaf t => simp only [weaveChild, gap_more hm, afterGap_more hm, List.tail_append_of_ne_nil hm]
  | node k cs =>
    have hw := weaveAll_more (afterGap m) post s cs ((significant_afterGap m).trans h)
      (hend.imp_right .inr)
    simp only [weaveChild, gap_more hm, afterGap_more hm, hw, List.isEmpty_iff,
      List.append_eq_nil_iff, hm, false_and, if_false]

theorem weaveAll_more (m post s : List Token) (cs : List Tree)
    (h : Token.significant m = leavesOf cs ++ s)
    (hend : s ≠ [] ∨ cs = [] ∨ lastEndsInLeaf cs = true) :
    weaveAll (m ++ post) cs = ((weaveAll m cs).1, (weaveAll m cs).2 ++ post) := by
  match cs with
  | [] => rfl
  | c :: cs =>
    rw [leavesOf_cons, List.append_assoc] at h
    have hs := (leavesOf_weaveChild m (leavesOf cs ++ s) c h).2
    have hc : leavesOf cs ++ s ≠ [] ∨ c.endsInLeaf = true := by
      rcases hend with hn | hn | hl
      · exact .inl fun he => hn (List.append_eq_nil_iff.mp he).2
      · cases hn
      · cases cs with
        | nil => exact .inr hl
        | cons d cs =>
          exact .inl fun he => leavesOf_ne_nil (d :: cs) hl (List.append_eq_nil_iff.mp he).1
    have hcs : s ≠ [] ∨ cs = [] ∨ lastEndsInLeaf cs = true := by
      rcases hend with hn | hn | hl
      · exact .inl hn
      · cases hn
      · cases cs with
        | nil => exact .inr (.inl rfl)
        | cons d cs => exact .inr (.inr hl)
    simp only [weaveAll, weaveChild_more m post _ c h hc, weaveAll_more _ post s cs hs hcs]

end

/-- Tokens that end before a certain token that the grammar reads. -/
theorem append_inj_of_significant {a b pre post : List Token} (h : a ++ b = pre ++ post)
    (hs : Token.significant a = Token.significant pre) (hb : afterGap b = b)
    (hpost : afterGap post = post) : a = pre ∧ b = post := by
  have key : ∀ {x y z : List Token}, Token.significant (x ++ z) = Token.significant x →
      afterGap (z ++ y) = z ++ y → z = [] := by
    intro x y z hz hstart
    cases z with
    | nil => rfl
    | cons t z =>
      have ht : t.isSignificant = true := by
        simpa using List.dropWhile_eq_self_iff.mp hstart (Nat.zero_lt_succ _)
      simp [Token.significant, ht] at hz
  rcases List.append_eq_append_iff.mp h with ⟨z, rfl, rfl⟩ | ⟨z, rfl, rfl⟩
  · have hz := key hs.symm hb
    simp [hz]
  · have hz := key hs hpost
    simp [hz]

mutual

theorem width_eq_leaves (c : Tree) : c.width = Modelica.width (Token.concat c.leaves).toList :=
  match c with
  | leaf t => by simp [width, Token.concat, Token.width]
  | node _ cs => widthOf_eq_leaves cs

theorem widthOf_eq_leaves (cs : List Tree) :
    widthOf cs = Modelica.width (Token.concat (leavesOf cs)).toList :=
  match cs with
  | [] => rfl
  | c :: cs => by
    rw [widthOf, leavesOf_cons, Token.concat_append, String.toList_append, width_append,
      width_eq_leaves c, widthOf_eq_leaves cs]

end

end Tree

namespace Located

theorem row_append (start : Nat) (cs ds : List Tree) :
    row start (cs ++ ds) = row start cs ++ row (start + Tree.widthOf cs) ds := by
  induction cs generalizing start with
  | nil => rfl
  | cons c cs ih => simp [row, Tree.widthOf, ih, Nat.add_assoc]

/-- The nodes among some trees in a row. -/
theorem filter_row_eq_nil {start : Nat} {cs : List Tree} (h : ∀ c ∈ cs, c.isLeaf = true) :
    (row start cs).filter isNode = [] := by
  refine List.filter_eq_nil_iff.mpr fun n hn => ?_
  have hm : n.tree ∈ cs := by
    rw [← map_tree_row start cs]
    exact List.mem_map_of_mem hn
  simp [isNode, h _ hm]

theorem length_filter_row (start : Nat) (cs : List Tree) :
    ((row start cs).filter isNode).length = cs.countP (!·.isLeaf) := by
  have h : cs.countP (!·.isLeaf) = ((row start cs).map tree).countP (!·.isLeaf) := by
    rw [map_tree_row]
  rw [← List.countP_eq_length_filter, h, List.countP_map]
  rfl

/-- A node among other trees is found by how many nodes come before it. -/
theorem getElem?_nodeChildren {start : Nat} {k : Kind} {cs ds : List Tree} {c : Tree}
    (hc : c.isLeaf = false) : (Located.mk start (.node k (cs ++ c :: ds))).nodeChildren[
      cs.countP (!·.isLeaf)]? = some ⟨start + Tree.widthOf cs, c⟩ := by
  rw [nodeChildren, children, Tree.children, row_append, row, List.filter_append,
    ← length_filter_row start cs, List.getElem?_append_right (Nat.le_refl _), Nat.sub_self,
    List.filter_cons_of_pos (by simp [isNode, hc])]
  rfl

end Located

namespace Tree

/-- Bad tokens apart, a gap has no nodes. -/
theorem isLeaf_of_mem_gap {ts : List Token} (h : ∀ t ∈ ts, t.kind ≠ .error) :
    ∀ c ∈ gap ts, c.isLeaf = true := fun c hc => by
  obtain ⟨t, rfl, -⟩ := gap_eq_leaves h c hc
  rfl

theorem countP_gap {ts : List Token} (h : ∀ t ∈ ts, t.kind ≠ .error) :
    (gap ts).countP (!·.isLeaf) = 0 :=
  List.countP_eq_zero.mpr fun c hc => by simp [isLeaf_of_mem_gap h c hc]

theorem countP_weaveChild {ts : List Token} (h : ∀ t ∈ ts, t.kind ≠ .error) (c : Tree) :
    (weaveChild ts c).1.countP (!·.isLeaf) = [c].countP (!·.isLeaf) := by
  cases c with
  | leaf t => rw [weaveChild, List.countP_append, countP_gap h, Nat.zero_add]
  | node k cs =>
    unfold weaveChild
    by_cases he : (afterGap ts).isEmpty = true
    · rw [if_pos he]
      rfl
    · rw [if_neg he, List.countP_append, countP_gap h, Nat.zero_add]
      rfl

theorem countP_weaveAll {ts : List Token} (h : ∀ t ∈ ts, t.kind ≠ .error) (cs : List Tree) :
    (weaveAll ts cs).1.countP (!·.isLeaf) = cs.countP (!·.isLeaf) := by
  induction cs generalizing ts with
  | nil => rfl
  | cons c cs ih =>
    rw [weaveAll, List.countP_append, countP_weaveChild h,
      ih (error_free_of_suffix h (weaveChild_suffix ts c)), ← List.countP_append]
    rfl

/-- `part` stands in a tree where `path` leads, and `before` are the tokens before it. -/
inductive Part (part : Tree) : List Nat → List Token → Tree → Prop
  | here {k : Kind} {a b : List Tree} :
      Part part [a.countP (!·.isLeaf)] (leavesOf a) (node k (a ++ part :: b))
  | inside {k : Kind} {a b : List Tree} {c : Tree} {path : List Nat} {before : List Token} :
      c.isLeaf = false → Part part path before c →
        Part part (a.countP (!·.isLeaf) :: path) (leavesOf a ++ before) (node k (a ++ c :: b))

theorem Part.leaves_ne_nil {part whole : Tree} {path : List Nat} {before : List Token}
    (h : Part part path before whole) (hp : part.leaves ≠ []) : whole.leaves ≠ [] := by
  induction h with
  | here => simp [hp]
  | inside _ _ ih => simp [ih]

end Tree

namespace Located

open Modelica.Tree

/-- A node among other trees is woven over the tokens from its first one on. -/
theorem nodeChildren_weaveAll {ts s : List Token} (h : ∀ t ∈ ts, t.kind ≠ .error) (a b : List Tree)
    {l : Kind} {cs : List Tree} (hcs : leavesOf cs ≠ [])
    (hs : Token.significant ts = leavesOf (a ++ node l cs :: b) ++ s) :
    ∃ pre post, ts = pre ++ post ∧ Token.significant pre = leavesOf a ∧ afterGap post = post ∧
      Token.significant post = leavesOf cs ++ (leavesOf b ++ s) ∧
      ∀ start k more, (Located.mk start
          (node k ((weaveAll ts (a ++ node l cs :: b)).1 ++ more))).nodeChildren[
            a.countP (!·.isLeaf)]? =
        some ⟨start + Modelica.width (Token.concat pre).toList, node l (weaveAll post cs).1⟩ := by
  have hs' : Token.significant ts = leavesOf a ++ (leavesOf cs ++ (leavesOf b ++ s)) := by
    simp [hs]
  obtain ⟨hleaves, hleft⟩ := leavesOf_weaveAll ts _ a hs'
  have herror := error_free_of_suffix h (weaveAll_suffix ts a)
  have hcount := countP_weaveAll h a
  rw [weaveAll_append]
  generalize weaveAll ts a = w at hleaves hleft herror hcount
  obtain ⟨woven, left⟩ := w
  simp only at hleaves hleft herror hcount ⊢
  have hne : afterGap left ≠ [] := fun he => by
    rw [afterGap_eq_nil_iff.mp he] at hleft
    exact hcs (List.append_eq_nil_iff.mp hleft.symm).1
  have hsplit : leavesOf (woven ++ gap left) ++ afterGap left = ts := by
    rw [leavesOf_append, List.append_assoc, gap_append_afterGap, hleaves]
  have hpost : Token.significant (afterGap left) = leavesOf cs ++ (leavesOf b ++ s) := by
    rw [significant_afterGap, hleft]
  refine ⟨leavesOf (woven ++ gap left), afterGap left, hsplit.symm, ?_,
    afterGap_afterGap left, hpost,
    fun start k more => ?_⟩
  · rw [← hsplit, Token.significant, List.filter_append] at hs'
    refine List.append_cancel_right (hs'.trans ?_)
    rw [← hpost, Token.significant]
  · have hlist : woven ++ (weaveAll left (node l cs :: b)).1 ++ more =
        (woven ++ gap left) ++ node l (weaveAll (afterGap left) cs).1 ::
          ((weaveAll (weaveAll (afterGap left) cs).2 b).1 ++ more) := by
      simp [weaveAll, weaveChild, hne]
    have hnodes : (woven ++ gap left).countP (!·.isLeaf) = a.countP (!·.isLeaf) := by
      rw [List.countP_append, hcount, countP_gap herror, Nat.add_zero]
    rw [hlist, ← hnodes, getElem?_nodeChildren rfl, widthOf_eq_leaves]

/-- A part of a tree is woven over the tokens from its first one on. -/
theorem follow_weaveAll {part whole : Tree} {path : List Nat} {before : List Token}
    (h : Tree.Part part path before whole) {l k : Kind} {ps cs : List Tree}
    (hpart : part = node l ps)
    (hps : leavesOf ps ≠ []) (hwhole : whole = node k cs) {ts s : List Token}
    (herror : ∀ t ∈ ts, t.kind ≠ .error) (hs : Token.significant ts = leavesOf cs ++ s) :
    ∃ pre post, ts = pre ++ post ∧ Token.significant pre = before ∧ afterGap post = post ∧
      ∀ start more, follow path ⟨start, node k ((weaveAll ts cs).1 ++ more)⟩ =
        some ⟨start + Modelica.width (Token.concat pre).toList, node l (weaveAll post ps).1⟩ := by
  induction h generalizing k cs ts s with
  | @here k' a b =>
    cases hwhole
    subst hpart
    obtain ⟨pre, post, hts, hpre, hpost, -, hfound⟩ := nodeChildren_weaveAll herror a b hps hs
    exact ⟨pre, post, hts, hpre, hpost, fun start more => by simp [follow, hfound start]⟩
  | @inside k' a b c path before hc hinner ih =>
    cases hwhole
    cases c with
    | leaf t => cases hc
    | node m ds =>
      have hds : leavesOf ds ≠ [] := hinner.leaves_ne_nil (by rw [hpart]; exact hps)
      obtain ⟨pre, post, rfl, hpre, -, hleft, hfound⟩ := nodeChildren_weaveAll herror a b hds hs
      obtain ⟨pre', post', rfl, hpre', hpost', hinside⟩ := ih rfl
        (fun t ht => herror t (List.mem_append_right pre ht)) hleft
      refine ⟨pre ++ pre', post', (List.append_assoc ..).symm, ?_, hpost', fun start more => ?_⟩
      · rw [Token.significant, List.filter_append, ← Token.significant, ← Token.significant, hpre,
          hpre']
      · have hnone := hinside (start + Modelica.width (Token.concat pre).toList) []
        rw [List.append_nil] at hnone
        rw [follow, hfound start, Option.bind_some, hnone, Token.concat_append,
          String.toList_append, width_append, Nat.add_assoc]

/-- What the tree of a text without bad tokens has where a part of it stands. -/
theorem follow_weave {l k : Kind} {ps cs : List Tree} {path : List Nat} {pre post : List Token}
    (h : Tree.Part (node l ps) path (Token.significant pre) (node k cs)) (hps : leavesOf ps ≠ [])
    (herror : ∀ t ∈ pre ++ post, t.kind ≠ .error) (hpost : afterGap post = post)
    (hs : leavesOf cs = Token.significant (pre ++ post)) :
    follow path (root (weave (pre ++ post) (node k cs))) =
      some ⟨Modelica.width (Token.concat pre).toList, node l (weaveAll post ps).1⟩ := by
  obtain ⟨pre', post', hts, hpre', hpost', hfound⟩ :=
    follow_weaveAll h rfl hps rfl (s := []) herror (by rw [hs, List.append_nil])
  obtain ⟨rfl, rfl⟩ := append_inj_of_significant hts hpre'.symm hpost hpost'
  have hroot := hfound 0 (gap (weaveAll (pre ++ post) cs).2)
  rwa [Nat.zero_add] at hroot

end Located

end Modelica
