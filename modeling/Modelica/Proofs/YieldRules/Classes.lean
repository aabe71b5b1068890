import Modelica.Proofs.YieldRules.Elements

/-!
# Classes yield what the tables say

The rules for class definitions, their specifiers and bodies.
-/

namespace Modelica

open Shape
open Supertype (members)

namespace Grammar

open Production

variable {v : Lookahead}

theorem gives_storedDefinition : storedDefinition.Gives [[one [.storedDefinition]]] v := by
  refine gives_node
    (gives_seq_cons (gives_before fun h => gives_call (kind_of_sees h)) fun _ _ =>
      gives_many (s := [opt [.classDefinitionClause]]) fun _ _ _ => gives_look <|
        gives_ite (fun _ => ?_) fun _ => ?_)
    (by decide) (by decide)
  · exact gives_of_covers (gives_call trivial) (by decide)
  · exact gives_of_covers gives_skipUntil (by decide)

theorem gives_withinClause (h : v.kind = .withinKw) :
    withinClause.Gives [[one [.withinClause]]] v :=
  gives_node
    (gives_seq_cons (gives_shift_of_kind h rfl) fun _ _ =>
      gives_seq_cons (gives_before fun _ => gives_call trivial) fun _ _ => gives_expect rfl)
    (by decide) (by decide)

theorem gives_classDefinitionClause :
    classDefinitionClause.Gives [[one [.classDefinitionClause]]] v :=
  gives_node
    (gives_seq_cons (gives_accept rfl) fun _ _ => gives_seq_cons (gives_call trivial) fun _ _ =>
      gives_expect rfl)
    (by decide) (by decide)

theorem gives_classSpecifier : (look fun v =>
      match v.classSpecifierKind with
      | .shortClassSpecifier => call .shortClassSpecifier
      | .derClassSpecifier => call .derClassSpecifier
      | _ => call .longClassSpecifier).Gives [[opt (members .classSpecifier)]] v := by
  refine gives_look ?_
  split
  · exact gives_of_covers (gives_call trivial) (by decide)
  · exact gives_of_covers (gives_call (ready_derClassSpecifier ‹_›)) (by decide)
  · exact gives_of_covers (gives_call trivial) (by decide)

theorem gives_classDefinition : classDefinition.Gives [[opt [.classDefinition]]] v :=
  gives_deeper (s := [one [.classDefinition]]) <| gives_node
    (gives_seq_cons (gives_accept rfl) fun _ _ =>
      gives_seq_cons (gives_inContext <| gives_call trivial)
      fun _ _ => gives_classSpecifier)
    (by decide) (by decide)

theorem gives_expectClassKind {ks : List Kind} (hk : .endOfInput ∉ ks) :
    (expectClassKind ks).Gives [[opt ks]] v :=
  gives_look <| gives_ite (fun h => gives_opt (mem_of_seesAny h) hk)
    fun _ => gives_nothing (s := [one ks]) gives_missing

theorem gives_classPrefixes : classPrefixes.Gives [[one [.classPrefixes]]] v := by
  refine gives_whole
    (gives_of_covers (gives_seq_cons (t := Shape.maybe (Kind.shape .classPrefixes).tail)
      (gives_accept rfl) fun w _ => gives_look ?_) (by decide)) (by decide)
  split
  · exact gives_of_covers (gives_shift_of_kind ‹_› rfl) (by decide)
  · exact gives_of_covers (gives_shift_of_kind ‹_› rfl) (by decide)
  · exact gives_of_covers (gives_shift_of_kind ‹_› rfl) (by decide)
  · exact gives_of_covers (gives_shift_of_kind ‹_› rfl) (by decide)
  · exact gives_of_covers (gives_shift_of_kind ‹_› rfl) (by decide)
  · exact gives_of_covers (gives_shift_of_kind ‹_› rfl) (by decide)
  · exact gives_of_covers (gives_shift_of_kind ‹_› rfl) (by decide)
  · exact gives_of_covers (gives_shift_of_kind ‹_› rfl) (by decide)
  · exact gives_of_covers (gives_seq_cons (gives_shift_of_kind ‹_› rfl) fun _ _ =>
      gives_expectClassKind (by decide)) (by decide)
  · exact gives_of_covers (gives_seq_cons (gives_shift_of_kind ‹_› rfl) fun _ _ =>
      gives_acceptAny (by decide)) (by decide)
  · exact gives_of_covers (gives_seq_cons (gives_shift_of_kind ‹_› rfl) fun _ _ =>
      gives_seq_cons (gives_accept rfl) fun _ _ => gives_expectClassKind (by decide)) (by decide)
  · exact gives_of_covers (gives_seq_cons (gives_shift_of_kind ‹_› rfl) fun _ _ =>
      gives_seq_cons (gives_accept rfl) fun _ _ => gives_expectClassKind (by decide)) (by decide)
  · exact gives_of_covers gives_missing (by decide)

/-- There is an `end`, or there is nothing. -/
theorem gives_classEnd (name : Option String) (opened : Spot) :
    (classEnd name opened).Gives [[], [one [.endKw], opt [.ident]]] v := by
  refine gives_look (gives_ite (fun h => ?_) fun _ => gives_of_covers gives_report (by decide))
  refine gives_of_covers (gives_seq_cons (t := [opt [.ident]])
    (gives_shift_of_kind (kind_of_sees h) rfl) fun w _ => gives_look (gives_ite (fun hi => ?_)
      fun _ => gives_nothing (s := [one [.ident]]) gives_missing)) (by decide)
  refine gives_after (l := []) ?_ fun u hu => gives_opt ?_ (by decide)
  · cases name with
    | none => exact gives_done
    | some n => exact gives_ite (fun _ => gives_done) fun _ => gives_report
  -- The identifier is still ahead after the warning.
  have ha : u.ahead = w.ahead := by
    cases name with
    | none => exact hu
    | some n =>
      simp only at hu
      split at hu <;> exact hu
  rw [Lookahead.kind, ha]
  exact mem_of_sees hi

theorem gives_longClassSpecifier : longClassSpecifier.Gives [[one [.longClassSpecifier]]] v :=
  gives_look <| gives_node
    (gives_seq_join (gives_accept rfl) fun _ _ => gives_look <|
      gives_seq_join (gives_expect rfl) fun _ _ =>
      gives_seq_join (gives_when fun _ => gives_before fun h => gives_call (kind_of_sees h))
        fun _ _ =>
      gives_seq_join (gives_before fun _ => gives_call trivial) fun _ _ =>
      gives_seq_join (gives_inContext <| gives_call trivial) fun _ _ =>
      gives_seq_join (gives_before fun h => gives_call (kind_of_sees h)) fun _ _ =>
      gives_seq_join (gives_before fun _ => gives_seq_cons (gives_call trivial) fun _ _ =>
        gives_expect rfl) fun _ _ => gives_classEnd _ _)
    (by decide) (by decide)

theorem gives_strayEnd : strayEnd.Gives [[]] v :=
  gives_look <| gives_after (l := []) gives_fault fun _ _ => gives_error <|
    gives_seq_cons gives_shifts_any fun _ _ => gives_accept rfl

theorem gives_classSection :
    classSection.Gives [[opt [.elementList, .equationSection, .algorithmSection]]] v := by
  have hlist : ∀ w k, w.kind = k → k ∈ [Kind.publicKw, .protectedKw] →
      (node .elementList [shift, call .elements]).Gives [[one [.elementList]]] w :=
    fun w k h hk => gives_node
      (gives_seq_cons (gives_shift (h ▸ hk) (by decide)) fun _ _ => gives_call trivial)
      (by decide) (by decide)
  refine gives_look ?_
  split
  · exact gives_of_covers (hlist _ _ ‹_› (by decide)) (by decide)
  · exact gives_of_covers (hlist _ _ ‹_› (by decide)) (by decide)
  · exact gives_of_covers (gives_call trivial) (by decide)
  · exact gives_of_covers (gives_call trivial) (by decide)
  · exact gives_ite (fun _ => gives_of_covers (gives_call trivial) (by decide))
      fun _ => gives_of_covers (gives_call trivial) (by decide)
  · exact gives_of_covers gives_strayEnd (by decide)

theorem gives_classBody : classBody.Gives
    [[opt [.initialElementList], many [.elementList, .equationSection, .algorithmSection]]] v :=
  gives_of_covers
    (gives_seq_cons (gives_look <| gives_unless fun _ =>
        gives_node (gives_call trivial) (by decide) (by decide))
      fun _ _ => gives_many fun _ _ _ => gives_classSection)
    (by decide)

theorem gives_enumerationLiteral : enumerationLiteral.Gives [[one [.enumerationLiteral]]] v :=
  gives_node (gives_seq_cons (gives_expect rfl) fun _ _ => gives_call trivial)
    (by decide) (by decide)

theorem gives_enumeration (h : v.kind = .enumerationKw) : enumeration.Gives [[
    one [.enumerationKw], opt [.lParen], many [.enumerationLiteral, .comma], opt [.colon],
    opt [.rParen]]] v := by
  have hitems : ∀ w : Lookahead, (look fun v =>
      if v.sees .colon then shift
      else if v.sees .ident then separated .comma (call .enumerationLiteral)
      else done).Gives [[many [.enumerationLiteral, .comma], opt [.colon]]] w := by
    refine fun w => gives_look (gives_ite (fun hc => ?_) fun _ => gives_ite (fun _ => ?_)
      fun _ => ?_)
    · exact gives_of_covers (gives_shift_of_kind (kind_of_sees hc) rfl) (by decide)
    · exact gives_of_covers (gives_separated rfl fun _ => gives_call trivial) (by decide)
    · exact gives_of_covers gives_done (by decide)
  exact gives_of_covers
    (gives_seq_cons (gives_shift_of_kind h rfl) fun _ _ => gives_expectThen rfl fun w =>
      gives_seq_cons (hitems w) fun _ _ => gives_expect rfl)
    (by decide)

theorem gives_derivedType : derivedType.Gives [[
    opt [.inputKw, .outputKw], opt [.typeSpecifier], opt [.arraySubscripts],
    opt [.classModification]]] v :=
  gives_of_covers
    (gives_seq_cons (gives_acceptAny (by decide)) fun _ _ => gives_seq_cons (gives_call trivial)
      fun _ _ => gives_seq_cons (gives_before fun h => gives_call (kind_of_sees h)) fun _ _ =>
      gives_before fun h => gives_call (kind_of_sees h))
    (by decide)

theorem gives_shortClassSpecifier :
    shortClassSpecifier.Gives [[one [.shortClassSpecifier]]] v := by
  have hform : ∀ w : Lookahead, (look fun v =>
      if v.sees .enumerationKw then enumeration else derivedType).Gives [[
        opt [.inputKw, .outputKw], opt [.typeSpecifier], opt [.arraySubscripts],
        opt [.classModification], opt [.enumerationKw], opt [.lParen],
        many [.enumerationLiteral, .comma], opt [.colon], opt [.rParen]]] w := by
    refine fun w => gives_look (gives_ite (fun h => ?_) fun _ => ?_)
    · exact gives_of_covers (gives_enumeration (kind_of_sees h)) (by decide)
    · exact gives_of_covers gives_derivedType (by decide)
  exact gives_node
    (gives_seq_cons (gives_expect rfl) fun _ _ => gives_seq_cons (gives_expect rfl) fun _ _ =>
      gives_seq_cons (hform _) fun _ _ => gives_call trivial)
    (by decide) (by decide)

theorem gives_derClassSpecifier (h : Nonterminal.derClassSpecifier.Ready v) :
    derClassSpecifier.Gives [[one [.derClassSpecifier]]] v := by
  obtain ⟨h0, h1, h2, h3⟩ := h
  have hhead : (shifts 4).Gives [[one [.ident], one [.equals], one [.derKw], one [.lParen]]] v := by
    refine gives_shifts_succ h0 rfl fun a ha => ?_
    refine gives_shifts_succ ((nth_of_tail ha 0).trans h1) rfl fun b hb => ?_
    have hb2 : b.kind = .derKw := (nth_of_tail hb 0).trans ((nth_of_tail ha 1).trans h2)
    refine gives_shifts_succ hb2 rfl fun c hc => ?_
    have hc3 : c.kind = .lParen :=
      (nth_of_tail hc 0).trans ((nth_of_tail hb 1).trans ((nth_of_tail ha 2).trans h3))
    exact gives_shifts_succ hc3 rfl fun _ _ => gives_done
  exact gives_node
    (gives_seq_cons hhead fun _ _ => gives_seq_cons (gives_call trivial) fun _ _ =>
      gives_seq_cons (gives_expect rfl) fun _ _ =>
      gives_seq_cons (gives_separated rfl fun _ => gives_expect rfl) fun _ _ =>
      gives_seq_cons (gives_expect rfl) fun _ _ => gives_call trivial)
    (by decide) (by decide)

theorem gives_externalFunctionClause (h : v.kind = .externalKw) :
    externalFunctionClause.Gives [[one [.externalFunctionClause]]] v := by
  have hlanguage : ∀ w : Lookahead, w.sees .string = true →
      (node .languageSpecification [single .stringLiteral]).Gives
        [[one [.languageSpecification]]] w :=
    fun w hs => gives_node (gives_single (kind_of_sees hs) rfl (by decide) (by decide))
      (by decide) (by decide)
  exact gives_node
    (gives_seq_cons (gives_shift_of_kind h rfl) fun _ _ => gives_inContext <|
      gives_seq_cons (gives_before fun hs => hlanguage _ hs) fun _ _ =>
      gives_seq_cons (gives_look <| gives_when fun _ => gives_call trivial) fun _ _ =>
      gives_seq_cons (gives_before fun _ => gives_call trivial) fun _ _ => gives_expect rfl)
    (by decide) (by decide)

theorem gives_externalFunctionCall :
    externalFunctionCall.Gives [[one [.externalFunctionCall]]] v :=
  gives_node
    (gives_seq_cons (gives_look <| gives_unless fun _ => gives_seq_cons (gives_call trivial)
        fun _ _ => gives_expect rfl) fun _ _ =>
      gives_seq_cons (gives_expect rfl) fun _ _ => gives_expectThen rfl fun _ =>
      gives_seq_cons (gives_look <| gives_unless fun _ => gives_call trivial) fun _ _ =>
      gives_expect rfl)
    (by decide) (by decide)

end Grammar

end Modelica
