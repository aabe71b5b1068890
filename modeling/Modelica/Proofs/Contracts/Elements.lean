import Modelica.Proofs.Contracts.Expressions

/-!
# Modifications and elements build what the tables say

The rules for comments, modifications and the elements of a class.
-/

namespace Modelica

open Shape
open Supertype (members)

namespace Grammar

open Production

variable {v : Lookahead}

theorem adds_descriptionString : descriptionString.Adds [one [.descriptionString]] v :=
  adds_node
    (adds_separated rfl fun _ => adds_look <| adds_ite
      (fun h => adds_single (kind_of_sees h) rfl (by decide) (by decide))
      fun _ => adds_of_fails fails_missing)
    (by decide) (by decide)

theorem adds_annotationClause : annotationClause.Adds [one [.annotationClause]] v :=
  adds_node
    (adds_seq_cons (adds_expect rfl) fun _ _ => adds_look <|
      adds_ite (fun h => adds_call (kind_of_sees h)) fun _ => adds_of_fails fails_missing)
    (by decide) (by decide)

theorem adds_comment : comment.Adds Shape.comment v :=
  adds_of_covers
    (adds_seq_cons (adds_before fun _ => adds_call trivial) fun _ _ =>
      adds_before fun _ => adds_call trivial)
    (by decide)

theorem adds_modification (h : v.kind ∈ [.lParen, .equals, .assign]) :
    modification.Adds [one [.modification]] v := by
  refine adds_node (s := Kind.shape .modification)
    (adds_look (adds_ite (fun hp => ?_) fun hp => ?_)) (by decide) (by decide)
  · exact adds_of_covers (adds_seq_cons (adds_call (kind_of_sees hp)) fun _ _ =>
      adds_before fun he => adds_shift_call (kind_of_sees he) rfl fun _ => trivial) (by decide)
  · have hk : v.kind ∈ [Kind.equals, .assign] := by
      refine (List.mem_cons.mp h).resolve_left fun hl => hp ?_
      rw [Lookahead.sees, hl]
      rfl
    exact adds_of_covers (adds_seq_cons (adds_shift hk (by decide)) fun _ _ => adds_call trivial)
      (by decide)

theorem adds_modificationExpression :
    modificationExpression.Adds [one [.modificationExpression]] v := by
  refine adds_node (s := Kind.shape .modificationExpression)
    (adds_look (adds_ite (fun h => ?_) fun _ => ?_)) (by decide) (by decide)
  · exact adds_of_covers (adds_shift_of_kind (kind_of_sees h) rfl) (by decide)
  · exact adds_of_covers (adds_call trivial) (by decide)

theorem adds_argumentGroup {p : Production} {s : Shape} (h : v.kind = .lParen)
    (hp : ∀ w, p.Adds s w) :
    (argumentGroup p).Adds [one [.lParen], many (.comma :: s.kinds), one [.rParen]] v :=
  adds_weaken
    (adds_seq_cons (adds_shift_of_kind h rfl) fun _ _ => adds_inContext <|
      adds_seq_cons (adds_look <| adds_unless fun _ => adds_separated rfl hp) fun _ _ =>
      adds_expect rfl)
    (Le.refl _)

theorem adds_classModification (h : v.kind = .lParen) :
    classModification.Adds [one [.classModification]] v :=
  adds_node (adds_argumentGroup h fun _ => adds_call trivial) (by decide) (by decide)

theorem adds_classOrInheritanceModification (h : v.kind = .lParen) :
    classOrInheritanceModification.Adds [one [.classOrInheritanceModification]] v := by
  refine adds_node (adds_argumentGroup (s := [one (.inheritanceModification :: members .argument)])
    h fun w => adds_look (adds_ite (fun hb => ?_) fun _ => ?_)) (by decide) (by decide)
  · exact adds_of_covers (adds_call (kind_of_sees hb)) (by decide)
  · exact adds_of_covers (adds_call trivial) (by decide)

theorem adds_inheritanceModification (h : v.kind = .breakKw) :
    inheritanceModification.Adds [one [.inheritanceModification]] v := by
  refine adds_node (s := Kind.shape .inheritanceModification)
    (adds_seq_cons (t := [one [.connectClause, .ident]]) (adds_shift_of_kind h rfl) fun w _ =>
      adds_look (adds_ite (fun hc => ?_) fun _ => ?_)) (by decide) (by decide)
  · exact adds_of_covers (adds_call (kind_of_sees hc)) (by decide)
  · exact adds_of_covers (adds_expect rfl) (by decide)

theorem adds_connectClause (h : v.kind = .connectKw) :
    connectClause.Adds [one [.connectClause]] v :=
  adds_node
    (adds_seq_cons (adds_shift_of_kind h rfl) fun _ _ => adds_expectThen rfl fun _ =>
      adds_seq_cons (adds_call trivial) fun _ _ => adds_seq_cons (adds_expect rfl) fun _ _ =>
      adds_seq_cons (adds_call trivial) fun _ _ => adds_expect rfl)
    (by decide) (by decide)

theorem adds_argument : argument.Adds [one (members .argument)] v := by
  refine adds_look (adds_ite (fun h => ?_) fun _ => ?_)
  · exact adds_of_covers (adds_call (kind_of_sees h)) (by decide)
  · split
    · exact adds_of_covers (adds_call trivial) (by decide)
    · exact adds_of_covers (adds_call trivial) (by decide)
    · exact adds_ite (fun _ => adds_of_fails fails_fault) fun _ => adds_of_fails fails_fault

theorem adds_elementModification : elementModification.Adds [one [.elementModification]] v := by
  have hname : ∀ w : Lookahead, (look fun v =>
      if v.chainHasSubscripts then call .componentReference else call .name).Adds
        [one [.name, .componentReference]] w :=
    fun w => adds_look <| adds_ite (fun _ => adds_of_covers (adds_call trivial) (by decide))
      fun _ => adds_of_covers (adds_call trivial) (by decide)
  exact adds_node
    (adds_seq_cons adds_accept fun _ _ => adds_seq_cons adds_accept fun _ _ =>
      adds_seq_cons (hname _) fun _ _ =>
      adds_seq_cons (adds_look <| adds_when fun h => adds_call (mem_of_seesAny h)) fun _ _ =>
      adds_before fun _ => adds_call trivial)
    (by decide) (by decide)

theorem adds_elementRedeclaration (h : v.kind = .redeclareKw) :
    elementRedeclaration.Adds [one [.elementRedeclaration]] v :=
  adds_node
    (adds_seq_cons (adds_shift_of_kind h rfl) fun _ _ => adds_seq_cons adds_accept fun _ _ =>
      adds_seq_cons adds_accept fun _ _ => adds_seq_cons adds_accept fun _ _ =>
      adds_call trivial)
    (by decide) (by decide)

theorem adds_elementReplaceable : elementReplaceable.Adds [one [.elementReplaceable]] v :=
  adds_node
    (adds_seq_cons adds_accept fun _ _ => adds_seq_cons adds_accept fun _ _ =>
      adds_seq_cons (adds_expect rfl) fun _ _ => adds_call trivial)
    (by decide) (by decide)

theorem adds_redeclaredElement : redeclaredElement.Adds declared v := by
  refine adds_of_covers (adds_seq_cons (s := [one [.shortClassDefinition, .componentClause1]])
    (adds_look (adds_ite (fun _ => ?_) fun _ => ?_))
    fun _ _ => adds_before fun h => adds_call (kind_of_sees h)) (by decide)
  · exact adds_of_covers (adds_node
      (adds_seq_cons (adds_call trivial) fun _ _ => adds_call trivial) (by decide) (by decide))
      (by decide)
  · exact adds_of_covers (adds_call trivial) (by decide)

theorem adds_componentClause1 : componentClause1.Adds [one [.componentClause1]] v :=
  adds_node
    (adds_seq_cons (adds_call trivial) fun _ _ => adds_seq_cons (adds_call trivial) fun _ _ =>
      adds_node (adds_seq_cons (adds_call trivial) fun _ _ => adds_call trivial)
        (by decide) (by decide))
    (by decide) (by decide)

theorem adds_elements : elements.Adds [many (members .element)] v :=
  adds_of_covers (adds_repeatUntil fun _ _ _ => adds_call trivial) (by decide)

theorem adds_element : element.Adds [one (members .element)] v := by
  refine adds_look ?_
  split
  · exact adds_of_covers (adds_call ‹_›) (by decide)
  · exact adds_of_covers (adds_call ‹_›) (by decide)
  · exact adds_of_covers (adds_call trivial) (by decide)
  · exact adds_of_covers (adds_call trivial) (by decide)
  · exact adds_of_covers (adds_call trivial) (by decide)
  · exact adds_of_covers (adds_call trivial) (by decide)
  · exact adds_of_covers (adds_call trivial) (by decide)
  · exact adds_of_covers (adds_call trivial) (by decide)
  · exact adds_ite (fun _ => adds_of_covers (adds_call trivial) (by decide))
      fun _ => adds_of_fails fails_fault

theorem adds_importClause (h : v.kind = .importKw) :
    importClause.Adds [one (members .importClause)] v := by
  refine adds_look ?_
  obtain hi | hi | hi := v.importKind_cases <;> rw [hi]
  · have hshort : ∀ w : Lookahead, (look fun v =>
        if v.sees .ident && v.nth 1 == .equals then shifts 2 else done).Adds
          [opt [.ident], opt [.equals]] w := by
      refine fun w => adds_look (adds_when (s := [one [.ident], one [.equals]]) fun hs => ?_)
      simp only [Bool.and_eq_true, beq_iff_eq] at hs
      exact adds_shifts_succ (kind_of_sees hs.1) rfl fun u hu =>
        adds_shifts_succ ((nth_of_tail hu 0).trans hs.2) rfl fun _ _ => adds_done
    refine adds_of_covers (s := [one [.simpleImportClause]]) (adds_node
      (adds_seq_cons (adds_shift_of_kind h rfl) fun _ _ => adds_inContext <|
        adds_seq_cons (adds_seq_cons (hshort _) fun _ _ => adds_look <|
          adds_ite (fun _ => adds_call trivial) fun _ => adds_of_fails fails_missing) fun _ _ =>
        adds_seq_cons (adds_call trivial) fun _ _ => adds_expect rfl)
      (by decide) (by decide)) (by decide)
  · refine adds_of_covers (s := [one [.compoundImportClause]]) (adds_node
      (adds_seq_cons (adds_shift_of_kind h rfl) fun _ _ => adds_inContext <|
        adds_seq_cons (adds_seq_cons (adds_call trivial) fun _ _ =>
          adds_seq_cons adds_shifts_any fun _ _ =>
          adds_seq_cons (adds_separated rfl fun _ => adds_expect rfl) fun _ _ =>
          adds_expect rfl) fun _ _ =>
        adds_seq_cons (adds_call trivial) fun _ _ => adds_expect rfl)
      (by decide) (by decide)) (by decide)
  · refine adds_of_covers (s := [one [.unqualifiedImportClause]]) (adds_node
      (adds_seq_cons (adds_shift_of_kind h rfl) fun _ _ => adds_inContext <|
        adds_seq_cons (adds_seq_cons (adds_call trivial) fun _ _ => adds_look <| adds_ite
          (fun _ => adds_of_covers adds_shift_any (by decide)) fun _ => adds_shifts_any)
        fun _ _ => adds_seq_cons (adds_call trivial) fun _ _ => adds_expect rfl)
      (by decide) (by decide)) (by decide)

theorem adds_extendsClause (h : v.kind = .extendsKw) :
    extendsClause.Adds [one [.extendsClause]] v :=
  adds_node
    (adds_seq_cons (adds_shift_of_kind h rfl) fun _ _ => adds_seq_cons (adds_call trivial)
      fun _ _ => adds_seq_cons (adds_before fun hp => adds_call (kind_of_sees hp)) fun _ _ =>
      adds_seq_cons (adds_before fun _ => adds_call trivial) fun _ _ => adds_expect rfl)
    (by decide) (by decide)

theorem adds_constrainingClause (h : v.kind = .constrainedbyKw) :
    constrainingClause.Adds [one [.constrainingClause]] v :=
  adds_node
    (adds_seq_cons (adds_shift_of_kind h rfl) fun _ _ => adds_seq_cons (adds_call trivial)
      fun _ _ => adds_before fun hp => adds_call (kind_of_sees hp))
    (by decide) (by decide)

theorem adds_namedElementClause : namedElementClause.Adds [one [.namedElementClause]] v := by
  have hnamed : ∀ w : Lookahead, (look fun v =>
      if v.atClassDefinition then call .classDefinition else call .componentClause).Adds
        [one [.classDefinition, .componentClause]] w :=
    fun w => adds_look <| adds_ite (fun _ => adds_of_covers (adds_call trivial) (by decide))
      fun _ => adds_of_covers (adds_call trivial) (by decide)
  exact adds_node
    (adds_seq_cons adds_accept fun _ _ => adds_seq_cons adds_accept fun _ _ =>
      adds_seq_cons adds_accept fun _ _ => adds_seq_cons adds_accept fun _ _ =>
      adds_seq_cons adds_accept fun _ _ => adds_seq_cons (hnamed _) fun _ _ =>
      adds_seq_cons (adds_before fun h => adds_seq_cons (adds_call (kind_of_sees h)) fun _ _ =>
        adds_call trivial) fun _ _ => adds_expect rfl)
    (by decide) (by decide)

theorem adds_typePrefix : typePrefix.Adds Shape.typePrefix v :=
  adds_of_covers
    (adds_seq_cons adds_acceptAny fun _ _ => adds_seq_cons adds_acceptAny fun _ _ =>
      adds_acceptAny)
    (by decide)

theorem adds_componentClause : componentClause.Adds [one [.componentClause]] v :=
  adds_node
    (adds_seq_cons (adds_call trivial) fun _ _ => adds_seq_cons (adds_call trivial) fun _ _ =>
      adds_seq_cons (adds_before fun h => adds_call (kind_of_sees h)) fun _ _ =>
      adds_separated rfl fun _ => adds_call trivial)
    (by decide) (by decide)

theorem adds_componentDeclaration :
    componentDeclaration.Adds [one [.componentDeclaration]] v := by
  have hcondition : ∀ w : Lookahead, w.sees .ifKw = true →
      (node .conditionAttribute [shift, call .expression]).Adds [one [.conditionAttribute]] w :=
    fun w h => adds_node (adds_shift_call (kind_of_sees h) rfl fun _ => trivial)
      (by decide) (by decide)
  exact adds_node
    (adds_seq_cons (adds_call trivial) fun _ _ =>
      adds_seq_cons (adds_before fun h => hcondition _ h) fun _ _ => adds_call trivial)
    (by decide) (by decide)

theorem adds_declaration : declaration.Adds [one [.declaration]] v :=
  adds_node
    (adds_seq_cons (adds_expect rfl) fun _ _ =>
      adds_seq_cons (adds_before fun h => adds_call (kind_of_sees h)) fun _ _ =>
      adds_look <| adds_when fun h => adds_call (mem_of_seesAny h))
    (by decide) (by decide)

end Grammar

end Modelica
