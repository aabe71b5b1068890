import Modelica.Proofs.Setting
import Modelica.Proofs.Starts

/-!
# How right-hand sides end

Which right-hand sides stand for texts that end with a `;`, and over which of them the last tree
ends in a token. Otherwise a tree may end in a node without tokens, which does not show where it
ends. As with the kinds that come first, each rule has its entries, and `Nonterminal.endsAs` checks
them against the right-hand sides.
-/

namespace Modelica

open Token (EndsItem)

namespace Tree

mutual

/-- The last leaf is where the tree ends. -/
def endsInLeaf : Tree → Bool
  | leaf _ => true
  | node _ cs => lastEndsInLeaf cs

/-- There is a last tree, and it ends in a leaf. -/
def lastEndsInLeaf : List Tree → Bool
  | [] => false
  | [c] => c.endsInLeaf
  | _ :: c :: cs => lastEndsInLeaf (c :: cs)

end

theorem lastEndsInLeaf_append {cs ds : List Tree} (h : ds ≠ []) :
    lastEndsInLeaf (cs ++ ds) = lastEndsInLeaf ds := by
  induction cs with
  | nil => rfl
  | cons c cs ih =>
    obtain ⟨d, rest, hd⟩ : ∃ d rest, cs ++ ds = d :: rest :=
      List.exists_cons_of_ne_nil fun he => h (List.append_eq_nil_iff.mp he).2
    rw [List.cons_append, hd, lastEndsInLeaf, ← hd, ih]

end Tree

namespace Nonterminal

/-- What the rule stands for ends with a `;`, unless it is empty. -/
def endsItem : Nonterminal → Bool
  | storedDefinition | withinClause | classDefinitionClause | elements | element | importClause
  | extendsClause | namedElementClause | externalFunctionClause | sectionBody _ | body _ | item _
  | equation | simpleEquation | specialEquation | connectEquation | statement | keywordStatement _
  | referenceStatement | destructuringAssignment | ifBlock _ | whenBlock _ | forBlock _
  | whileBlock => true
  | _ => false

/-- The last tree of the rule, if there is one, ends in a leaf. -/
def endsInLeaf : Nonterminal → Bool
  | storedDefinition | classBody => false
  | _ => true

end Nonterminal

namespace Form

def endsItem : Form → Bool
  | empty => true
  | token ks => ks == [.semicolon]
  | endToken | chain .. => false
  | seq f g => g.endsItem && (!g.nullable || f.endsItem)
  | alt f g => f.endsItem && g.endsItem
  | many f | node _ f | level f => f.endsItem
  | rule r => r.endsItem

def endsInLeaf : Form → Bool
  | empty | token _ | endToken => true
  | seq f g => g.endsInLeaf && (!g.nullable || f.endsInLeaf)
  | alt f g => f.endsInLeaf && g.endsInLeaf
  | many f | level f => f.endsInLeaf
  | node _ f => f.endsInLeaf && !f.nullable
  | rule r => r.endsInLeaf
  | chain _ f g => f.endsInLeaf && g.endsInLeaf && !g.nullable

end Form

namespace Nonterminal

/-- The right-hand side of a rule ends as its entries say. -/
def endsAs (r : Nonterminal) : Bool :=
  (!r.endsItem || r.form.endsItem) && (!r.endsInLeaf || r.form.endsInLeaf)

theorem endsAs_form (r : Nonterminal) : r.endsAs = true := by
  cases r
  case band least => rcases least with _ | _ | _ | _ | _ | _ | _ | _ | _ <;> rfl
  case keywordStatement kind => cases kind <;> rfl
  case sectionBody family | body family | item family | ifBlock family | elseIfClause family
      | elseClause family | whenBlock family | elseWhenClause family | forBlock family =>
    cases family <;> rfl
  all_goals rfl

theorem endsItem_form {r : Nonterminal} (h : r.endsItem = true) : r.form.endsItem = true := by
  have he := r.endsAs_form
  simp only [endsAs, h, Bool.and_eq_true, Bool.not_true, Bool.false_or] at he
  exact he.1

theorem endsInLeaf_form {r : Nonterminal} (h : r.endsInLeaf = true) :
    r.form.endsInLeaf = true := by
  have he := r.endsAs_form
  simp only [endsAs, h, Bool.and_eq_true, Bool.not_true, Bool.false_or] at he
  exact he.2

end Nonterminal

theorem Token.EndsItem.append {ts : List Token} (h : EndsItem ts) (us : List Token) :
    EndsItem (us ++ ts) := by
  obtain ⟨t, ht, hk⟩ := h
  exact ⟨t, by simp [ht], hk⟩

namespace Derives

variable {ends : Kind → Prop} {f : Form} {n : Nat} {ts : List Token} {us : List Tree} {k : Kind}

theorem endsItem (h : Derives ends f n ts us k) (hf : f.endsItem = true) (hts : ts ≠ []) :
    EndsItem ts := by
  induction h with
  | empty | none => exact absurd rfl hts
  | @token ks t _ _ ht =>
    rw [Form.endsItem, beq_iff_eq] at hf
    subst hf
    exact ⟨t, rfl, List.mem_singleton.mp ht⟩
  | endToken | operand | step => cases hf
  | @seq f g n ts us vs ws k _ hg ihf ihg =>
    simp only [Form.endsItem, Bool.and_eq_true, Bool.or_eq_true, Bool.not_eq_true'] at hf
    by_cases hvs : vs = []
    · subst hvs
      rw [List.append_nil] at hts ⊢
      exact ihf (hf.2.resolve_left fun hn => hg.ne_nil hn rfl) hts
    · exact (ihg hf.1 hvs).append ts
  | left _ ih => exact ih ((Bool.and_eq_true _ _).mp hf).1 hts
  | right _ ih => exact ih ((Bool.and_eq_true _ _).mp hf).2 hts
  | @more f n ts us vs ws k _ _ ihf ihm =>
    by_cases hvs : vs = []
    · subst hvs
      rw [List.append_nil] at hts ⊢
      exact ihf hf hts
    · exact (ihm hf hvs).append ts
  | rule _ ih => exact ih (Nonterminal.endsItem_form hf) hts
  | node _ ih | level _ ih => exact ih hf hts

/-- Over tokens there are trees. -/
theorem trees_ne_nil (h : Derives ends f n ts us k) (hts : ts ≠ []) : us ≠ [] := by
  induction h with
  | empty | none => exact absurd rfl hts
  | token | endToken | node | step => exact List.cons_ne_nil _ _
  | @seq _ _ _ ts _ vs _ _ _ _ ihf ihg | @more _ _ ts _ vs _ _ _ _ ihf ihg =>
    intro he
    obtain ⟨hu, hw⟩ := List.append_eq_nil_iff.mp he
    by_cases ht : ts = []
    · exact ihg (fun hv => hts (by rw [ht, hv]; rfl)) hw
    · exact ihf ht hu
  | left _ ih | right _ ih | rule _ ih | level _ ih | operand _ ih => exact ih hts

theorem endsInLeaf (h : Derives ends f n ts us k) (hf : f.endsInLeaf = true) (hus : us ≠ []) :
    Tree.lastEndsInLeaf us = true := by
  induction h with
  | empty | none => exact absurd rfl hus
  | token | endToken => rfl
  | @seq f g n ts us vs ws k _ hg ihf ihg =>
    simp only [Form.endsInLeaf, Bool.and_eq_true, Bool.or_eq_true, Bool.not_eq_true'] at hf
    by_cases hws : ws = []
    · subst hws
      rw [List.append_nil] at hus ⊢
      exact ihf (hf.2.resolve_left fun hn => hg.trees_ne_nil (hg.ne_nil hn) rfl) hus
    · rw [Tree.lastEndsInLeaf_append hws]
      exact ihg hf.1 hws
  | left _ ih => exact ih ((Bool.and_eq_true _ _).mp hf).1 hus
  | right _ ih => exact ih ((Bool.and_eq_true _ _).mp hf).2 hus
  | @more f n ts us vs ws k _ _ ihf ihm =>
    by_cases hws : ws = []
    · subst hws
      rw [List.append_nil] at hus ⊢
      exact ihf hf hus
    · rw [Tree.lastEndsInLeaf_append hws]
      exact ihm hf hws
  | rule _ ih => exact ih (Nonterminal.endsInLeaf_form hf) hus
  | node hd ih =>
    simp only [Form.endsInLeaf, Bool.and_eq_true, Bool.not_eq_true'] at hf
    exact ih hf.1 (hd.trees_ne_nil (hd.ne_nil hf.2))
  | level _ ih => exact ih hf hus
  | operand _ ih =>
    simp only [Form.endsInLeaf, Bool.and_eq_true] at hf
    exact ih hf.1.1 hus
  | @step kind f g n ts us vs ws k _ hg _ ihg =>
    simp only [Form.endsInLeaf, Bool.and_eq_true, Bool.not_eq_true'] at hf
    have hws := hg.trees_ne_nil (hg.ne_nil hf.2)
    show Tree.lastEndsInLeaf (us ++ ws) = true
    rw [Tree.lastEndsInLeaf_append hws]
    exact ihg hf.1.2 hws

end Derives

end Modelica
