import Modelica.Proofs.Attachment
import Modelica.Proofs.Form
import Modelica.Located

/-!
# Nodes of derived trees

A node anywhere in a derived tree is itself derived, from the rule that puts nodes of its kind over
what it reads. Here this is shown for equations, which one rule derives with any of six nodes.

* `Tree.Within`: the parts of a tree, and what stripping and reading in preorder keep of them;
* `Form.builds`: whether a right-hand side puts nodes of some kinds over what it stands for;
* `Derives.exists_equation`: an equation in a derived tree is derived as an equation.
-/

namespace Modelica

/-- The tree itself or one below it. -/
inductive Tree.Within (part : Tree) : Tree → Prop
  | self : Within part part
  | inside {k cs c} : c ∈ cs → Within part c → Within part (node k cs)

namespace Tree

theorem Within.leaves_subset {part whole : Tree} (h : part.Within whole) :
    part.leaves ⊆ whole.leaves := by
  induction h with
  | self => exact List.Subset.refl _
  | inside hc _ ih => exact List.Subset.trans ih (Tree.leaves_subset hc)

theorem kind_strip (t : Tree) : t.strip.kind = t.kind := by cases t <;> rfl

/-- Stripping keeps the significant tokens. -/
theorem significant_leaves_strip (t : Tree) :
    Token.significant t.strip.leaves = Token.significant t.leaves := by
  cases t with
  | leaf t => rfl
  | node k cs => simpa [Tree.strip] using significant_leavesOf_stripAll cs

/-- Stripping keeps the nodes, those around bad tokens apart. -/
theorem Within.strip {part whole : Tree} (h : part.Within whole) (hl : part.isLeaf = false)
    (hk : part.kind ≠ .error) : part.strip.Within whole.strip := by
  induction h with
  | self => exact .self
  | @inside k cs c hc h ih =>
    obtain ⟨before, after, rfl⟩ := List.append_of_mem hc
    cases c with
    | leaf t =>
      cases h
      cases hl
    | node l ds =>
      have hb : (node l ds).isBadToken = false := by
        unfold isBadToken
        split
        · -- A node around a bad token has no other node in it.
          rename_i t he
          cases he
          cases h with
          | self => exact absurd rfl hk
          | inside hd h =>
            obtain rfl := List.mem_singleton.mp hd
            cases h
            cases hl
        · rfl
      refine .inside ?_ ih
      rw [stripAll_append_cons hb]
      exact List.mem_append_right _ List.mem_cons_self

end Tree

namespace Located

mutual

theorem within_of_mem_preorder (start : Nat) : (t : Tree) → ∀ n ∈ preorder start t,
    n.tree.Within t
  | .leaf t, n, hn => by
    cases List.mem_singleton.mp hn
    exact .self
  | .node k cs, n, hn => by
    rcases List.mem_cons.mp hn with rfl | hn
    · exact .self
    · obtain ⟨c, hc, h⟩ := exists_within_of_mem_preorderRow start cs n hn
      exact .inside hc h

theorem exists_within_of_mem_preorderRow (start : Nat) : (ts : List Tree) →
    ∀ n ∈ preorderRow start ts, ∃ t ∈ ts, n.tree.Within t
  | [], n, hn => nomatch hn
  | t :: ts, n, hn => by
    rcases List.mem_append.mp hn with hn | hn
    · exact ⟨t, List.mem_cons_self, within_of_mem_preorder start t n hn⟩
    · obtain ⟨u, hu, h⟩ := exists_within_of_mem_preorderRow _ ts n hn
      exact ⟨u, List.mem_cons_of_mem t hu, h⟩

end

end Located

/-- The right-hand side puts a node of one of some kinds over what it stands for, other than by the
rules in it. The rule for statements that are a keyword is told the kind of its node. -/
def Form.builds (kinds : Kind → Bool) : Form → Bool
  | empty => false
  | rule r => match r with
    | .keywordStatement k => kinds k
    | _ => false
  | token ks => ks.any kinds
  | endToken => kinds .endKw
  | seq f g | alt f g => f.builds kinds || g.builds kinds
  | many f | level f => f.builds kinds
  | node k f => kinds k || f.builds kinds
  | chain k f g => kinds k || f.builds kinds || g.builds kinds

/-- All trees of some kinds are good, wherever they stand. -/
def AllGood (kinds : Kind → Bool) (good : Tree → Prop) (us : List Tree) : Prop :=
  ∀ u ∈ us, ∀ x, x.Within u → kinds x.kind = true → good x

section

variable {kinds : Kind → Bool} {good : Tree → Prop} {us ws : List Tree}

theorem allGood_nil : AllGood kinds good [] := nofun

theorem AllGood.append (h : AllGood kinds good us) (h' : AllGood kinds good ws) :
    AllGood kinds good (us ++ ws) := by
  intro u hu
  exact (List.mem_append.mp hu).elim (h u) (h' u)

theorem allGood_leaf {t : Token} (h : kinds t.kind = false) : AllGood kinds good [.leaf t] := by
  intro u hu x hx hk
  obtain rfl := List.mem_singleton.mp hu
  cases hx
  exact absurd hk (by simp [Tree.kind, h])

theorem AllGood.node {k : Kind} (h : AllGood kinds good us)
    (hn : kinds k = true → good (.node k us)) : AllGood kinds good [.node k us] := by
  intro u hu x hx hk
  obtain rfl := List.mem_singleton.mp hu
  cases hx with
  | self => exact hn hk
  | inside hc hx => exact h _ hc x hx hk

/-- What builds no such trees itself has those that its rules have. -/
theorem Form.Holds.allGood {ends : Kind → Prop} {claim : RuleClaim}
    (hc : ∀ {r : Nonterminal} {n ts us k}, claim r n ts us k → (rule r).builds kinds = false →
      AllGood kinds good us)
    {f : Form} (hf : f.builds kinds = false) {n : Nat} {ts : List Token} {k : Kind}
    (h : f.Holds ends claim n ts us k) : AllGood kinds good us := by
  induction f generalizing n ts us k with
  | empty =>
    obtain ⟨-, rfl⟩ := h
    exact allGood_nil
  | token ks =>
    obtain ⟨t, ht, -, rfl⟩ := h
    exact allGood_leaf (by simpa using List.any_eq_false.mp hf _ ht)
  | endToken =>
    obtain ⟨t, ht, -, -, rfl⟩ := h
    exact allGood_leaf (by rw [ht]; exact hf)
  | seq f g ihf ihg =>
    obtain ⟨hf, hg⟩ := Bool.or_eq_false_iff.mp hf
    obtain ⟨_, _, _, _, -, rfl, hl, hr⟩ := h
    exact (ihf hf hl).append (ihg hg hr)
  | alt f g ihf ihg =>
    obtain ⟨hf, hg⟩ := Bool.or_eq_false_iff.mp hf
    exact h.elim (ihf hf) (ihg hg)
  | many f ih =>
    induction h with
    | none => exact allGood_nil
    | more hi _ ihm => exact (ih hf hi).append ihm
  | rule r => exact hc h hf
  | node k f ih =>
    obtain ⟨hk, hf⟩ := Bool.or_eq_false_iff.mp hf
    obtain ⟨vs, rfl, h⟩ := h
    exact (ih hf h).node fun hk' => absurd hk' (by simp [hk])
  | level f ih =>
    obtain ⟨m, -, h⟩ := h
    exact ih hf h
  | chain k f g ihf ihg =>
    obtain ⟨hkf, hg⟩ := Bool.or_eq_false_iff.mp hf
    obtain ⟨hk, hf⟩ := Bool.or_eq_false_iff.mp hkf
    induction h with
    | operand hl => exact ihf hf hl
    | step _ hr ihc => exact (ihc.append (ihg hg hr)).node fun hk' => absurd hk' (by simp [hk])

end

/-- The trees of a derivation have its tokens. -/
theorem Derives.leaves {ends : Kind → Prop} {f : Form} {n : Nat} {ts : List Token}
    {us : List Tree} {k : Kind} (h : Derives ends f n ts us k) : Tree.leavesOf us = ts := by
  induction h with
  | empty | none => rfl
  | token | endToken => rfl
  | seq _ _ ihf ihg | more _ _ ihf ihg => rw [Tree.leavesOf_append, ihf, ihg]
  | left _ ih | right _ ih | rule _ ih | level _ ih | operand _ ih => exact ih
  | node _ ih => simpa using ih
  | step _ _ ihf ihg => simp [ihf, ihg]

/-- The rules that an equation is one of. -/
def Nonterminal.equations : List Nonterminal := [
  simpleEquation, ifBlock .equations, forBlock .equations, connectEquation, whenBlock .equations,
  specialEquation]

theorem Nonterminal.builds_form {r : Nonterminal}
    (hr : (Form.rule r).builds (·.isA .equation) = false) :
    r.form.builds (·.isA .equation) = false ∨ r ∈ equations := by
  cases r
  case band least => rcases least with _ | _ | _ | _ | _ | _ | _ | _ | _ <;> exact .inl rfl
  case unary least => rcases least with _ | _ | _ | _ | _ | _ | _ <;> exact .inl rfl
  case operand => exact .inl rfl
  case keywordStatement kind =>
    have hk : kind.isA .equation = false := hr
    have htoken : (statementKeyword kind).any (·.isA .equation) = false := by
      unfold statementKeyword
      split <;> rfl
    left
    simp only [form, Form.builds, Form.sequence, hk, htoken, Bool.false_or]
    rfl
  case sectionBody family | body family | item family | ifBlock family | elseIfClause family
      | elseClause family | whenBlock family | elseWhenClause family | forBlock family =>
    cases family <;> decide +kernel
  all_goals decide +kernel

theorem derives_alts {ends : Kind → Prop} {fs : List Form} {n : Nat} {ts : List Token}
    {us : List Tree} {k : Kind} :
    Derives ends (.alts fs) n ts us k ↔ ∃ f ∈ fs, Derives ends f n ts us k := by
  induction fs with
  | nil =>
    constructor
    · intro h
      cases h with
      | token ht => cases ht
    · rintro ⟨f, hf, -⟩
      cases hf
  | cons g fs ih =>
    cases fs with
    | nil => simp [Form.alts]
    | cons g' fs =>
      constructor
      · intro h
        cases h with
        | left h => exact ⟨g, List.mem_cons_self, h⟩
        | right h =>
          obtain ⟨f, hf, h⟩ := ih.mp h
          exact ⟨f, List.mem_cons_of_mem g hf, h⟩
      · rintro ⟨f, hf, h⟩
        rcases List.mem_cons.mp hf with rfl | hf
        · exact .left h
        · exact .right (ih.mpr ⟨f, hf, h⟩)

/-- An equation is one of its rules, one level deeper. -/
theorem derives_equation {ends : Kind → Prop} {n : Nat} {ts : List Token} {us : List Tree}
    {k : Kind} : Derives ends (.rule .equation) n ts us k ↔
      ∃ m, n = m + 1 ∧ ∃ r ∈ Nonterminal.equations, Derives ends (.rule r) m ts us k := by
  have halts : ∀ m, Derives ends (.alts (Nonterminal.equations.map .rule)) m ts us k ↔
      ∃ r ∈ Nonterminal.equations, Derives ends (.rule r) m ts us k := by
    intro m
    simp only [derives_alts, List.mem_map, exists_exists_and_eq_and]
  constructor
  · intro h
    cases derives_rule.mp h with
    | @level _ m _ _ _ h => exact ⟨m, rfl, (halts m).mp h⟩
  · rintro ⟨m, rfl, h⟩
    exact .rule (.level ((halts m).mpr h))

/-- An equation is one node over what its rule reads, with no other equation outside the rules. -/
theorem Nonterminal.equations_form {r : Nonterminal} (hr : r ∈ equations) :
    ∃ kind body, r.form = .node kind body ∧ body.builds (·.isA .equation) = false := by
  simp only [equations, List.mem_cons, List.not_mem_nil, or_false] at hr
  rcases hr with rfl | rfl | rfl | rfl | rfl | rfl <;>
    exact ⟨_, _, rfl, by decide +kernel⟩

/-- An equation that stands in a derived tree is derived. -/
def IsDerivedEquation (ends : Kind → Prop) (u : Tree) : Prop :=
  ∃ n k, Derives ends (.rule .equation) n u.leaves [u] k

theorem Derives.exists_equation {ends : Kind → Prop} {r : Nonterminal} {n : Nat} {ts : List Token}
    {us : List Tree} {k : Kind} (h : Derives ends (.rule r) n ts us k)
    (hr : (Form.rule r).builds (·.isA .equation) = false) :
    AllGood (·.isA .equation) (IsDerivedEquation ends) us := by
  let claim : RuleClaim := fun r n ts us k => Derives ends (.rule r) n ts us k ∧
    ((Form.rule r).builds (·.isA .equation) = false →
      AllGood (·.isA .equation) (IsDerivedEquation ends) us)
  have hclaim : (Form.rule r).Holds ends claim n ts us k := by
    refine h.holds fun {r n ts us k} hl => ?_
    have hd : Derives ends r.form n ts us k := hl.derives fun hc => hc.1
    refine ⟨.rule hd, fun hr => ?_⟩
    rcases Nonterminal.builds_form hr with hb | hm
    · exact hl.allGood (fun hc => hc.2) hb
    · obtain ⟨kind, body, he, hb⟩ := Nonterminal.equations_form hm
      rw [he] at hl
      obtain ⟨vs, rfl, hl⟩ := hl
      refine (hl.allGood (fun hc => hc.2) hb).node fun _ => ?_
      have hleaves : Tree.leaves (.node kind vs) = ts := by simpa using hd.leaves
      exact ⟨n + 1, k, hleaves ▸ derives_equation.mpr ⟨n, rfl, r, hm, .rule hd⟩⟩
  exact hclaim.2 hr

end Modelica
