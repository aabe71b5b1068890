import Modelica.Proofs.Trivia

/-!
# Tokens and the nodes they are in

* `Tree.perches`: the tokens of a tree from left to right, each with the nodes it is in;
* `Tree.perches_strip`: trivia and bad tokens change nothing for the other tokens.
-/

namespace Modelica

/-- A token and the kinds of the nodes it is in, innermost first. -/
structure Perch where
  token : Token
  above : List Kind
  deriving DecidableEq

namespace Perch

/-- The same token with more nodes around it. -/
def inside (outer : List Kind) (p : Perch) : Perch := { p with above := p.above ++ outer }

def isSignificant (p : Perch) : Bool := p.token.isSignificant

end Perch

namespace Tree

mutual

/-- The tokens of a tree from left to right, with what they are in. The nodes `above` are around the
tree. -/
def perches (above : List Kind) : Tree → List Perch
  | leaf t => [⟨t, above⟩]
  | node k cs => perchesOf (k :: above) cs

def perchesOf (above : List Kind) : List Tree → List Perch
  | [] => []
  | c :: cs => perches above c ++ perchesOf above cs

end

variable (above : List Kind)

@[simp] theorem perchesOf_append (cs ds : List Tree) :
    perchesOf above (cs ++ ds) = perchesOf above cs ++ perchesOf above ds := by
  induction cs with
  | nil => rfl
  | cons c cs ih => simp [perchesOf, ih]

mutual

theorem map_token_perches : ∀ (above : List Kind) (t : Tree),
    (perches above t).map (·.token) = t.leaves
  | _, leaf _ => rfl
  | above, node k cs => map_token_perchesOf (k :: above) cs

theorem map_token_perchesOf : ∀ (above : List Kind) (cs : List Tree),
    (perchesOf above cs).map (·.token) = leavesOf cs
  | _, [] => rfl
  | above, c :: cs => by
    simp [perchesOf, map_token_perches above c, map_token_perchesOf above cs]

end

mutual

theorem perches_inside : ∀ (above outer : List Kind) (t : Tree),
    perches (above ++ outer) t = (perches above t).map (·.inside outer)
  | _, _, leaf _ => rfl
  | above, outer, node k cs => perchesOf_inside (k :: above) outer cs

theorem perchesOf_inside : ∀ (above outer : List Kind) (cs : List Tree),
    perchesOf (above ++ outer) cs = (perchesOf above cs).map (·.inside outer)
  | _, _, [] => rfl
  | above, outer, c :: cs => by
    simp [perchesOf, perches_inside above outer c, perchesOf_inside above outer cs]

end

/-- What is stripped has no significant token. -/
theorem perches_of_stripped {c : Tree} (h : (c.isTriviaLeaf || c.isBadToken) = true) :
    (perches above c).filter Perch.isSignificant = [] := by
  rw [Bool.or_eq_true] at h
  rcases h with h | h
  · cases c with
    | node k cs => cases h
    | leaf t =>
      have ht : t.kind.isTrivia = true := h
      simp [perches, Perch.isSignificant, Token.isSignificant, Kind.isSignificant, ht]
  · unfold isBadToken at h
    split at h
    · rename_i t
      have ht : t.kind = .error := beq_iff_eq.mp h
      simp [perches, perchesOf, Perch.isSignificant, Token.isSignificant, Kind.isSignificant, ht]
    · cases h

mutual

theorem perches_strip : ∀ (above : List Kind) (t : Tree),
    (perches above t.strip).filter Perch.isSignificant =
      (perches above t).filter Perch.isSignificant
  | _, leaf _ => rfl
  | above, node k cs => perchesOf_stripAll (k :: above) cs

theorem perchesOf_stripAll : ∀ (above : List Kind) (cs : List Tree),
    (perchesOf above (stripAll cs)).filter Perch.isSignificant =
      (perchesOf above cs).filter Perch.isSignificant
  | _, [] => rfl
  | above, c :: cs => by
    have hcs := perchesOf_stripAll above cs
    rw [stripAll, perchesOf, List.filter_append]
    split
    · rename_i h
      rw [perches_of_stripped above h, List.nil_append, hcs]
    · rw [perchesOf, List.filter_append, perches_strip above c, hcs]

end

theorem significant_leavesOf_stripAll (cs : List Tree) :
    Token.significant (leavesOf (stripAll cs)) = Token.significant (leavesOf cs) := by
  have h : ∀ ds, Token.significant (leavesOf ds) =
      ((perchesOf [] ds).filter Perch.isSignificant).map (·.token) := fun ds => by
    rw [← map_token_perchesOf [] ds, Token.significant, List.filter_map]
    rfl
  rw [h, h, perchesOf_stripAll]

end Tree

end Modelica
