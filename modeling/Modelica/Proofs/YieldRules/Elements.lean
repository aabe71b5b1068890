import Modelica.Proofs.YieldRules.Expressions

/-!
# Modifications and elements yield what the tables say

The rules for comments, modifications and the elements of a class.
-/

namespace Modelica

open Shape
open Supertype (members)

namespace Grammar

open Production

variable {v : Lookahead}

theorem gives_descriptionString : descriptionString.Gives [[one [.descriptionString]]] v :=
  gives_node
    (gives_separated (s := [opt [.stringLiteral]]) rfl fun _ => gives_look <| gives_ite
      (fun h => gives_of_covers (gives_single (kind_of_sees h) rfl (by decide) (by decide))
        (by decide))
      fun _ => gives_nothing (s := [one [.stringLiteral]]) gives_missing)
    (by decide) (by decide)

theorem gives_annotationClause : annotationClause.Gives [[one [.annotationClause]]] v :=
  gives_node
    (gives_seq_cons (gives_expect rfl) fun _ _ => gives_look <|
      gives_ite (fun h => gives_call (kind_of_sees h))
        fun _ => gives_nothing (s := [one [.classModification]]) gives_missing)
    (by decide) (by decide)

theorem gives_comment : comment.Gives [Shape.comment.maybe] v :=
  gives_of_covers
    (gives_seq_cons (gives_before fun _ => gives_call trivial) fun _ _ =>
      gives_before fun _ => gives_call trivial)
    (by decide)

theorem gives_modification (h : v.kind ∈ [.lParen, .equals, .assign]) :
    modification.Gives [[one [.modification]]] v := by
  refine gives_whole (gives_look (gives_ite (fun hp => ?_) fun hp => ?_)) (by decide)
  · exact gives_of_covers (gives_seq_cons (gives_call (kind_of_sees hp)) fun _ _ =>
      gives_before fun he => gives_shift_call (kind_of_sees he) rfl fun _ => trivial) (by decide)
  · have hk : v.kind ∈ [Kind.equals, .assign] := by
      refine (List.mem_cons.mp h).resolve_left fun hl => hp ?_
      rw [Lookahead.sees, hl]
      rfl
    exact gives_of_covers (gives_seq_cons (gives_shift hk (by decide)) fun _ _ =>
      gives_call trivial) (by decide)

theorem gives_modificationExpression :
    modificationExpression.Gives [[one [.modificationExpression]]] v := by
  refine gives_whole (gives_look (gives_ite (fun h => ?_) fun _ => ?_)) (by decide)
  · exact gives_of_covers (gives_shift_of_kind (kind_of_sees h) rfl) (by decide)
  · exact gives_of_covers (gives_call trivial) (by decide)

theorem gives_argumentGroup {p : Production} {s : Shape} (h : v.kind = .lParen)
    (hp : ∀ w, p.Gives [s] w) : (argumentGroup p).Gives
      [[one [.lParen], many (.comma :: s.kinds), opt [.rParen]]] v :=
  gives_weaken
    (gives_seq_cons (gives_shift_of_kind h rfl) fun _ _ => gives_inContext <|
      gives_seq_cons (gives_look <| gives_unless fun _ => gives_separated rfl hp) fun _ _ =>
      gives_expect rfl)
    (.refl _)

theorem gives_classModification (h : v.kind = .lParen) :
    classModification.Gives [[one [.classModification]]] v :=
  gives_node (gives_argumentGroup h fun _ => gives_call trivial) (by decide) (by decide)

theorem gives_classOrInheritanceModification (h : v.kind = .lParen) :
    classOrInheritanceModification.Gives [[one [.classOrInheritanceModification]]] v := by
  refine gives_node
    (gives_argumentGroup (s := [opt (.inheritanceModification :: members .argument)]) h fun w =>
      gives_look (gives_ite (fun hb => ?_) fun _ => ?_)) (by decide) (by decide)
  · exact gives_of_covers (gives_call (kind_of_sees hb)) (by decide)
  · exact gives_of_covers (gives_call trivial) (by decide)

theorem gives_inheritanceModification (h : v.kind = .breakKw) :
    inheritanceModification.Gives [[one [.inheritanceModification]]] v := by
  refine gives_whole
    (gives_of_covers (gives_seq_cons (t := [opt [.connectClause, .ident]])
      (gives_shift_of_kind h rfl) fun w _ => gives_look (gives_ite (fun hc => ?_) fun _ => ?_))
      (by decide)) (by decide)
  · exact gives_of_covers (gives_call (kind_of_sees hc)) (by decide)
  · exact gives_of_covers (gives_expect rfl) (by decide)

theorem gives_connectClause (h : v.kind = .connectKw) :
    connectClause.Gives [[one [.connectClause]]] v :=
  gives_node
    (gives_seq_cons (gives_shift_of_kind h rfl) fun _ _ => gives_expectThen rfl fun _ =>
      gives_seq_cons (gives_call trivial) fun _ _ => gives_seq_cons (gives_expect rfl) fun _ _ =>
      gives_seq_cons (gives_call trivial) fun _ _ => gives_expect rfl)
    (by decide) (by decide)

theorem gives_argument : argument.Gives [[opt (members .argument)]] v := by
  refine gives_look (gives_ite (fun h => ?_) fun _ => ?_)
  · exact gives_of_covers (gives_call (kind_of_sees h)) (by decide)
  · split
    · exact gives_of_covers (gives_call trivial) (by decide)
    · exact gives_of_covers (gives_call trivial) (by decide)
    · exact gives_of_covers (gives_ite (fun _ => gives_fault) fun _ => gives_skipUntil) (by decide)

theorem gives_elementModification :
    elementModification.Gives [[one [.elementModification]]] v := by
  have hname : ∀ w : Lookahead, (look fun v =>
      if v.chainHasSubscripts then call .componentReference else call .name).Gives
        [[opt [.name, .componentReference]]] w :=
    fun w => gives_look <| gives_ite (fun _ => gives_of_covers (gives_call trivial) (by decide))
      fun _ => gives_of_covers (gives_call trivial) (by decide)
  exact gives_node
    (gives_seq_cons (gives_accept rfl) fun _ _ => gives_seq_cons (gives_accept rfl) fun _ _ =>
      gives_seq_cons (hname _) fun _ _ =>
      gives_seq_cons (gives_look <| gives_when fun h => gives_call (mem_of_seesAny h)) fun _ _ =>
      gives_before fun _ => gives_call trivial)
    (by decide) (by decide)

theorem gives_elementRedeclaration (h : v.kind = .redeclareKw) :
    elementRedeclaration.Gives [[one [.elementRedeclaration]]] v :=
  gives_node
    (gives_seq_cons (gives_shift_of_kind h rfl) fun _ _ => gives_seq_cons (gives_accept rfl)
      fun _ _ => gives_seq_cons (gives_accept rfl) fun _ _ => gives_seq_cons (gives_accept rfl)
      fun _ _ => gives_call trivial)
    (by decide) (by decide)

theorem gives_elementReplaceable :
    elementReplaceable.Gives [[one [.elementReplaceable]]] v :=
  gives_node
    (gives_seq_cons (gives_accept rfl) fun _ _ => gives_seq_cons (gives_accept rfl) fun _ _ =>
      gives_seq_cons (gives_expect rfl) fun _ _ => gives_call trivial)
    (by decide) (by decide)

theorem gives_redeclaredElement : redeclaredElement.Gives [declared.maybe] v := by
  refine gives_of_covers
    (gives_seq_cons (s := [opt [.shortClassDefinition, .componentClause1]])
      (gives_look (gives_ite (fun _ => ?_) fun _ => ?_))
      fun _ _ => gives_before fun h => gives_call (kind_of_sees h)) (by decide)
  · exact gives_of_covers (gives_node
      (gives_seq_cons (gives_call trivial) fun _ _ => gives_call trivial) (by decide) (by decide))
      (by decide)
  · exact gives_of_covers (gives_call trivial) (by decide)

theorem gives_componentClause1 : componentClause1.Gives [[one [.componentClause1]]] v :=
  gives_node
    (gives_seq_cons (gives_call trivial) fun _ _ => gives_seq_cons (gives_call trivial) fun _ _ =>
      gives_node (gives_seq_cons (gives_call trivial) fun _ _ => gives_call trivial)
        (by decide) (by decide))
    (by decide) (by decide)

theorem gives_elements : elements.Gives [[many (members .element)]] v :=
  gives_of_covers (gives_repeatUntil fun _ _ => gives_call trivial) (by decide)

theorem gives_element : element.Gives [[opt (members .element)]] v := by
  have hnamed : (call .namedElementClause).Gives [[opt (members .element)]] v :=
    gives_of_covers (gives_call trivial) (by decide)
  refine gives_look ?_
  split
  · exact gives_of_covers (gives_call ‹_›) (by decide)
  · exact gives_of_covers (gives_call ‹_›) (by decide)
  · exact hnamed
  · exact hnamed
  · exact hnamed
  · exact hnamed
  · exact hnamed
  · exact hnamed
  · exact gives_ite (fun _ => hnamed)
      fun _ => gives_of_covers gives_skipThroughSemicolon (by decide)

theorem gives_importClause (h : v.kind = .importKw) :
    importClause.Gives [[one (members .importClause)]] v := by
  refine gives_look ?_
  obtain hi | hi | hi := v.importKind_cases <;> rw [hi]
  · have hshort : ∀ w : Lookahead, (look fun v =>
        if v.sees .ident && v.nth 1 == .equals then shifts 2 else done).Gives
          [[opt [.ident], opt [.equals]]] w := by
      refine fun w => gives_look (gives_when (s := [one [.ident], one [.equals]]) fun hs => ?_)
      simp only [Bool.and_eq_true, beq_iff_eq] at hs
      exact gives_shifts_succ (kind_of_sees hs.1) rfl fun u hu =>
        gives_shifts_succ ((nth_of_tail hu 0).trans hs.2) rfl fun _ _ => gives_done
    refine gives_of_covers (gives_node
      (gives_seq_cons (gives_shift_of_kind h rfl) fun _ _ => gives_inContext <|
        gives_seq_cons (gives_seq_cons (hshort _) fun _ _ => gives_look <|
          gives_ite (fun _ => gives_call trivial)
            fun _ => gives_nothing (s := [one [.name]]) gives_missing) fun _ _ =>
        gives_seq_cons (gives_call trivial) fun _ _ => gives_expect rfl)
      (by decide) (by decide)) (by decide)
  · refine gives_of_covers (gives_node
      (gives_seq_cons (gives_shift_of_kind h rfl) fun _ _ => gives_inContext <|
        gives_seq_cons (gives_seq_cons (gives_call trivial) fun _ _ =>
          gives_seq_cons gives_shifts_any fun _ _ =>
          gives_seq_cons (gives_separated rfl fun _ => gives_expect rfl) fun _ _ =>
          gives_expect rfl) fun _ _ =>
        gives_seq_cons (gives_call trivial) fun _ _ => gives_expect rfl)
      (by decide) (by decide +kernel)) (by decide)
  · refine gives_of_covers (gives_node
      (gives_seq_cons (gives_shift_of_kind h rfl) fun _ _ => gives_inContext <|
        gives_seq_cons (gives_seq_cons (gives_call trivial) fun _ _ => gives_look <| gives_ite
          (fun _ => gives_of_covers gives_shift_any (by decide +kernel)) fun _ => gives_shifts_any)
        fun _ _ => gives_seq_cons (gives_call trivial) fun _ _ => gives_expect rfl)
      (by decide) (by decide +kernel)) (by decide)

theorem gives_extendsClause (h : v.kind = .extendsKw) :
    extendsClause.Gives [[one [.extendsClause]]] v :=
  gives_node
    (gives_seq_cons (gives_shift_of_kind h rfl) fun _ _ => gives_seq_cons (gives_call trivial)
      fun _ _ => gives_seq_cons (gives_before fun hp => gives_call (kind_of_sees hp)) fun _ _ =>
      gives_seq_cons (gives_before fun _ => gives_call trivial) fun _ _ => gives_expect rfl)
    (by decide) (by decide)

theorem gives_constrainingClause (h : v.kind = .constrainedbyKw) :
    constrainingClause.Gives [[one [.constrainingClause]]] v :=
  gives_node
    (gives_seq_cons (gives_shift_of_kind h rfl) fun _ _ => gives_seq_cons (gives_call trivial)
      fun _ _ => gives_before fun hp => gives_call (kind_of_sees hp))
    (by decide) (by decide)

theorem gives_namedElementClause : namedElementClause.Gives [[one [.namedElementClause]]] v := by
  have hnamed : ∀ w : Lookahead, (look fun v =>
      if v.atClassDefinition then call .classDefinition else call .componentClause).Gives
        [[opt [.classDefinition, .componentClause]]] w :=
    fun w => gives_look <| gives_ite (fun _ => gives_of_covers (gives_call trivial) (by decide))
      fun _ => gives_of_covers (gives_call trivial) (by decide)
  exact gives_node
    (gives_seq_cons (gives_accept rfl) fun _ _ => gives_seq_cons (gives_accept rfl) fun _ _ =>
      gives_seq_cons (gives_accept rfl) fun _ _ => gives_seq_cons (gives_accept rfl) fun _ _ =>
      gives_seq_cons (gives_accept rfl) fun _ _ => gives_seq_cons (hnamed _) fun _ _ =>
      gives_seq_cons (gives_before fun h => gives_seq_cons (gives_call (kind_of_sees h))
        fun _ _ => gives_call trivial) fun _ _ => gives_expect rfl)
    (by decide) (by decide)

theorem gives_typePrefix : typePrefix.Gives [Shape.typePrefix.maybe] v :=
  gives_of_covers
    (gives_seq_cons (gives_acceptAny (by decide)) fun _ _ =>
      gives_seq_cons (gives_acceptAny (by decide)) fun _ _ => gives_acceptAny (by decide))
    (by decide)

theorem gives_componentClause : componentClause.Gives [[one [.componentClause]]] v :=
  gives_node
    (gives_seq_cons (gives_call trivial) fun _ _ => gives_seq_cons (gives_call trivial) fun _ _ =>
      gives_seq_cons (gives_before fun h => gives_call (kind_of_sees h)) fun _ _ =>
      gives_separated rfl fun _ => gives_call trivial)
    (by decide) (by decide)

theorem gives_componentDeclaration :
    componentDeclaration.Gives [[one [.componentDeclaration]]] v := by
  have hcondition : ∀ w : Lookahead, w.sees .ifKw = true →
      (node .conditionAttribute [shift, call .expression]).Gives [[one [.conditionAttribute]]] w :=
    fun w h => gives_node (gives_shift_call (kind_of_sees h) rfl fun _ => trivial)
      (by decide) (by decide)
  exact gives_node
    (gives_seq_cons (gives_call trivial) fun _ _ =>
      gives_seq_cons (gives_before fun h => hcondition _ h) fun _ _ => gives_call trivial)
    (by decide) (by decide)

theorem gives_declaration : declaration.Gives [[one [.declaration]]] v :=
  gives_node
    (gives_seq_cons (gives_expect rfl) fun _ _ =>
      gives_seq_cons (gives_before fun h => gives_call (kind_of_sees h)) fun _ _ =>
      gives_look <| gives_when fun h => gives_call (mem_of_seesAny h))
    (by decide) (by decide)

end Grammar

end Modelica
