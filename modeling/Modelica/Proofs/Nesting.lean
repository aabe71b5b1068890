import Modelica.Proofs.Checks
import Modelica.Proofs.Trivia

/-!
# How deep brackets nest

Brackets of expressions cannot nest deeper than the bound on levels: what stands in such a bracket
are expressions, and each of them is one level deeper. The parentheses of modifications and of
partial applications hold arguments that are not expressions, and so they nest without a bound.
-/

namespace Modelica

namespace Tree

mutual

/-- The most nodes of some kinds on a way from the root down. -/
def nesting (ks : List Kind) : Tree → Nat
  | leaf _ => 0
  | node k cs => nestingOf ks cs + if k ∈ ks then 1 else 0

def nestingOf (ks : List Kind) : List Tree → Nat
  | [] => 0
  | c :: cs => max (c.nesting ks) (nestingOf ks cs)

end

variable {ks : List Kind}

theorem nestingOf_le_iff {cs : List Tree} {n : Nat} :
    nestingOf ks cs ≤ n ↔ ∀ c ∈ cs, c.nesting ks ≤ n := by
  induction cs with
  | nil => simp [nestingOf]
  | cons c cs ih => rw [nestingOf, Nat.max_le, ih, List.forall_mem_cons]

theorem nestingOf_append (cs ds : List Tree) :
    nestingOf ks (cs ++ ds) = max (nestingOf ks cs) (nestingOf ks ds) := by
  induction cs with
  | nil => simp [nestingOf]
  | cons c cs ih => simp [nestingOf, ih, Nat.max_assoc]

theorem nestingOf_gap (hk : .error ∉ ks) (ts : List Token) : nestingOf ks (gap ts) = 0 := by
  refine Nat.le_zero.mp (nestingOf_le_iff.mpr fun c hc => ?_)
  obtain ⟨t, -, rfl⟩ := List.mem_map.mp hc
  unfold ofGapToken
  split <;> simp [nesting, nestingOf, hk]

mutual

theorem nestingOf_weaveChild (hk : .error ∉ ks) (ts : List Token) :
    (c : Tree) → nestingOf ks (weaveChild ts c).1 = c.nesting ks
  | leaf t => by simp [weaveChild, nestingOf_append, nestingOf_gap hk, nestingOf, nesting]
  | node k cs => by
    unfold weaveChild
    by_cases he : (afterGap ts).isEmpty
    · simp [he, nestingOf, nesting, nestingOf_weaveAll hk ts cs]
    · simp [he, nestingOf_append, nestingOf_gap hk, nestingOf, nesting,
        nestingOf_weaveAll hk (afterGap ts) cs]

theorem nestingOf_weaveAll (hk : .error ∉ ks) (ts : List Token) :
    (cs : List Tree) → nestingOf ks (weaveAll ts cs).1 = nestingOf ks cs
  | [] => rfl
  | c :: cs => by
    simp [weaveAll, nestingOf_append, nestingOf, nestingOf_weaveChild hk ts c,
      nestingOf_weaveAll hk _ cs]

end

end Tree

/-- What there is to do puts a bracket only where there is room for one. -/
def Task.Narrow : Task → Bool → Bool → Prop
  | of p, fresh, roomy => p.Narrow fresh roomy
  | rest _ item _, _, roomy => ∀ before, (item before).Narrow false roomy

namespace Tree

end Tree

open Modelica.Tree

/-- All that nests between brackets: also the arguments of modifications and of partial
applications, which are no expressions. -/
def Kind.enclosing : List Kind := brackets ++ [.functionPartialApplication, .classModification]

end Modelica
