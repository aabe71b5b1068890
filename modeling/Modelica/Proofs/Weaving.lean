import Modelica.Proofs.Lossless

/-!
# Weaving in parts

Trees are woven one after another, each with the tokens that the one before has left. The gap before
them may be placed first.
-/

namespace Modelica.Tree

theorem weaveAll_append (ts : List Token) (us vs : List Tree) :
    weaveAll ts (us ++ vs) =
      ((weaveAll ts us).1 ++ (weaveAll (weaveAll ts us).2 vs).1,
        (weaveAll (weaveAll ts us).2 vs).2) := by
  induction us generalizing ts with
  | nil => rfl
  | cons u us ih => simp [weaveAll, ih]

@[simp] theorem afterGap_afterGap (ts : List Token) : afterGap (afterGap ts) = afterGap ts :=
  List.dropWhile_eq_self_iff.mpr (List.dropWhile_get_zero_not _ ts)

@[simp] theorem gap_afterGap (ts : List Token) : gap (afterGap ts) = [] := by
  have h : leavesOf (gap (afterGap ts)) ++ afterGap ts = [] ++ afterGap ts := by
    simpa using gap_append_afterGap (afterGap ts)
  have hn := List.append_cancel_right h
  rw [leavesOf_gap] at hn
  rw [gap, hn, List.map_nil]

/-- The gap before the first tree may as well be placed ahead. -/
theorem weaveAll_afterGap {ts : List Token} {us : List Tree} (hu : us ≠ [])
    (ht : afterGap ts ≠ []) :
    weaveAll ts us = (gap ts ++ (weaveAll (afterGap ts) us).1, (weaveAll (afterGap ts) us).2) := by
  cases us with
  | nil => exact absurd rfl hu
  | cons u us =>
    have hc : weaveChild ts u =
        (gap ts ++ (weaveChild (afterGap ts) u).1, (weaveChild (afterGap ts) u).2) := by
      cases u <;> simp [weaveChild, ht]
    simp [weaveAll, hc]

theorem afterGap_eq_nil_iff {ts : List Token} :
    afterGap ts = [] ↔ Token.significant ts = [] := by
  simp [afterGap, Token.significant]

/-- No gap is left before the first tree, unless it is the gap at the end. -/
def Settled (ts : List Token) : Prop := gap ts = [] ∨ afterGap ts = []

theorem settled_afterGap (ts : List Token) : Settled (afterGap ts) := .inl (gap_afterGap ts)

/-- A node over all trees of a group has what they have. -/
theorem weaveAll_node {ts : List Token} (h : Settled ts) (k : Kind) (us : List Tree) :
    weaveAll ts [node k us] = ([node k (weaveAll ts us).1], (weaveAll ts us).2) := by
  by_cases he : afterGap ts = []
  · simp [weaveAll, weaveChild, he]
  · have hg : gap ts = [] := h.resolve_right he
    have ha : afterGap ts = ts := by
      have := gap_append_afterGap ts
      rwa [hg] at this
    rw [ha] at he
    simp [weaveAll, weaveChild, hg, ha, he]

end Modelica.Tree
