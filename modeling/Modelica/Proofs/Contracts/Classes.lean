import Modelica.Proofs.Contracts.Elements

/-!
# Classes build what the tables say

The rules for class definitions, their specifiers and bodies.
-/

namespace Modelica

open Shape
open Supertype (members)

namespace Grammar

open Production

variable {v : Lookahead}

theorem adds_storedDefinition : storedDefinition.Adds [one [.storedDefinition]] v :=
  adds_node
    (adds_seq_cons (adds_before fun h => adds_call (kind_of_sees h)) fun _ _ =>
      adds_many fun _ _ _ => adds_look <|
        adds_ite (fun _ => adds_call trivial) fun _ => adds_of_fails fails_fault)
    (by decide) (by decide)

theorem adds_withinClause (h : v.kind = .withinKw) :
    withinClause.Adds [one [.withinClause]] v :=
  adds_node
    (adds_seq_cons (adds_shift_of_kind h rfl) fun _ _ =>
      adds_seq_cons (adds_before fun _ => adds_call trivial) fun _ _ => adds_expect rfl)
    (by decide) (by decide)

theorem adds_classDefinitionClause :
    classDefinitionClause.Adds [one [.classDefinitionClause]] v :=
  adds_node
    (adds_seq_cons adds_accept fun _ _ => adds_seq_cons (adds_call trivial) fun _ _ =>
      adds_expect rfl)
    (by decide) (by decide)

/-- The specifier that looks like one with a derivative starts like one. -/
theorem ready_derClassSpecifier (h : v.classSpecifierKind = .derClassSpecifier) :
    Nonterminal.derClassSpecifier.Ready v := by
  unfold Lookahead.classSpecifierKind at h
  split at h
  · rename_i hi
    split at h
    · rename_i hd
      simp only [Bool.and_eq_true, beq_iff_eq] at hi hd
      exact ⟨kind_of_sees hi.1, hi.2, hd.1, hd.2⟩
    · cases h
  · cases h

theorem adds_classSpecifier : (look fun v =>
      match v.classSpecifierKind with
      | .shortClassSpecifier => call .shortClassSpecifier
      | .derClassSpecifier => call .derClassSpecifier
      | _ => call .longClassSpecifier).Adds [one (members .classSpecifier)] v := by
  refine adds_look ?_
  split
  · exact adds_of_covers (adds_call trivial) (by decide)
  · exact adds_of_covers (adds_call (ready_derClassSpecifier ‹_›)) (by decide)
  · exact adds_of_covers (adds_call trivial) (by decide)

theorem adds_classDefinition : classDefinition.Adds [one [.classDefinition]] v :=
  adds_deeper <| adds_node
    (adds_seq_cons adds_accept fun _ _ => adds_seq_cons (adds_inContext <| adds_call trivial)
      fun _ _ => adds_classSpecifier)
    (by decide) (by decide)

theorem adds_expectClassKind {ks : List Kind} (hk : .endOfInput ∉ ks) :
    (expectClassKind ks).Adds [one ks] v :=
  adds_look <| adds_ite (fun h => adds_shift (mem_of_seesAny h) hk)
    fun _ => adds_of_fails fails_missing

theorem adds_classPrefixes : classPrefixes.Adds [one [.classPrefixes]] v := by
  refine adds_node (s := Kind.shape .classPrefixes)
    (adds_of_covers (adds_seq_cons (t := (Kind.shape .classPrefixes).tail) adds_accept
      fun w _ => adds_look ?_) (by decide)) (by decide) (by decide)
  split
  · exact adds_of_covers (adds_shift_of_kind ‹_› rfl) (by decide)
  · exact adds_of_covers (adds_shift_of_kind ‹_› rfl) (by decide)
  · exact adds_of_covers (adds_shift_of_kind ‹_› rfl) (by decide)
  · exact adds_of_covers (adds_shift_of_kind ‹_› rfl) (by decide)
  · exact adds_of_covers (adds_shift_of_kind ‹_› rfl) (by decide)
  · exact adds_of_covers (adds_shift_of_kind ‹_› rfl) (by decide)
  · exact adds_of_covers (adds_shift_of_kind ‹_› rfl) (by decide)
  · exact adds_of_covers (adds_shift_of_kind ‹_› rfl) (by decide)
  · exact adds_of_covers (adds_seq_cons (adds_shift_of_kind ‹_› rfl) fun _ _ =>
      adds_expectClassKind (by decide)) (by decide)
  · exact adds_of_covers (adds_seq_cons (adds_shift_of_kind ‹_› rfl) fun _ _ =>
      adds_acceptAny) (by decide)
  · exact adds_of_covers (adds_seq_cons (adds_shift_of_kind ‹_› rfl) fun _ _ =>
      adds_seq_cons adds_accept fun _ _ => adds_expectClassKind (by decide)) (by decide)
  · exact adds_of_covers (adds_seq_cons (adds_shift_of_kind ‹_› rfl) fun _ _ =>
      adds_seq_cons adds_accept fun _ _ => adds_expectClassKind (by decide)) (by decide)
  · exact adds_of_fails fails_missing

theorem adds_classEnd (name : Option String) (opened : Spot) :
    (classEnd name opened).Adds [one [.endKw], one [.ident]] v := by
  refine adds_look (adds_ite (fun h => ?_) fun _ => adds_of_fails rfl)
  refine adds_of_covers (adds_seq_cons (t := [one [.ident]])
    (adds_shift_of_kind (kind_of_sees h) rfl) fun w _ =>
      adds_look (adds_ite (fun hi c => turns_quiet_cons ?_ fun u hu => ?_)
        fun _ => adds_of_fails fails_missing)) (by decide)
  · cases name with
    | none => exact .inl rfl
    | some n =>
      simp only
      split
      · exact .inl rfl
      · exact .inr ⟨_, rfl⟩
  · have hk : u.kind = .ident := by
      rw [Lookahead.kind, hu]
      exact kind_of_sees hi
    exact adds_shift_of_kind hk rfl c

theorem adds_longClassSpecifier : longClassSpecifier.Adds [one [.longClassSpecifier]] v :=
  adds_look <| adds_node
    (adds_seq_cons adds_accept fun _ _ => adds_look <| adds_seq_cons (adds_expect rfl) fun _ _ =>
      adds_seq_cons (adds_when fun _ => adds_before fun h => adds_call (kind_of_sees h))
        fun _ _ =>
      adds_seq_cons (adds_before fun _ => adds_call trivial) fun _ _ =>
      adds_seq_cons (adds_inContext <| adds_call trivial) fun _ _ =>
      adds_seq_cons (adds_before fun h => adds_call (kind_of_sees h)) fun _ _ =>
      adds_seq_cons (adds_before fun _ => adds_seq_cons (adds_call trivial) fun _ _ =>
        adds_expect rfl) fun _ _ => adds_classEnd _ _)
    (by decide) (by decide)

theorem fails_strayEnd : strayEnd.Fails v := fails_fault

theorem adds_classSection :
    classSection.Adds [one [.elementList, .equationSection, .algorithmSection]] v := by
  have hlist : ∀ w k, w.kind = k → k ∈ [Kind.publicKw, .protectedKw] →
      (node .elementList [shift, call .elements]).Adds [one [.elementList]] w :=
    fun w k h hk => adds_node
      (adds_seq_cons (adds_shift (h ▸ hk) (by decide)) fun _ _ => adds_call trivial)
      (by decide) (by decide)
  refine adds_look ?_
  split
  · exact adds_of_covers (hlist _ _ ‹_› (by decide)) (by decide)
  · exact adds_of_covers (hlist _ _ ‹_› (by decide)) (by decide)
  · exact adds_of_covers (adds_call trivial) (by decide)
  · exact adds_of_covers (adds_call trivial) (by decide)
  · exact adds_ite (fun _ => adds_of_covers (adds_call trivial) (by decide))
      fun _ => adds_of_covers (adds_call trivial) (by decide)
  · exact adds_of_fails fails_strayEnd

theorem adds_classBody : classBody.Adds
    [opt [.initialElementList], many [.elementList, .equationSection, .algorithmSection]] v :=
  adds_of_covers
    (adds_seq_cons (adds_look <| adds_unless fun _ =>
        adds_node (adds_call trivial) (by decide) (by decide))
      fun _ _ => adds_many fun _ _ _ => adds_classSection)
    (by decide)

theorem adds_enumerationLiteral : enumerationLiteral.Adds [one [.enumerationLiteral]] v :=
  adds_node (adds_seq_cons (adds_expect rfl) fun _ _ => adds_call trivial)
    (by decide) (by decide)

theorem adds_enumeration (h : v.kind = .enumerationKw) : enumeration.Adds [
    one [.enumerationKw], one [.lParen], many [.enumerationLiteral, .comma], opt [.colon],
    one [.rParen]] v := by
  have hitems : ∀ w : Lookahead, (look fun v =>
      if v.sees .colon then shift
      else if v.sees .ident then separated .comma (call .enumerationLiteral)
      else done).Adds [many [.enumerationLiteral, .comma], opt [.colon]] w := by
    refine fun w => adds_look (adds_ite (fun hc => ?_) fun _ => adds_ite (fun _ => ?_) fun _ => ?_)
    · exact adds_of_covers (adds_shift_of_kind (kind_of_sees hc) rfl) (by decide)
    · exact adds_of_covers (adds_separated rfl fun _ => adds_call trivial) (by decide)
    · exact adds_of_covers adds_done (by decide)
  exact adds_of_covers
    (adds_seq_cons (adds_shift_of_kind h rfl) fun _ _ => adds_expectThen rfl fun w =>
      adds_seq_cons (hitems w) fun _ _ => adds_expect rfl)
    (by decide)

theorem adds_derivedType : derivedType.Adds [
    opt [.inputKw, .outputKw], one [.typeSpecifier], opt [.arraySubscripts],
    opt [.classModification]] v :=
  adds_of_covers
    (adds_seq_cons adds_acceptAny fun _ _ => adds_seq_cons (adds_call trivial) fun _ _ =>
      adds_seq_cons (adds_before fun h => adds_call (kind_of_sees h)) fun _ _ =>
      adds_before fun h => adds_call (kind_of_sees h))
    (by decide)

theorem adds_shortClassSpecifier : shortClassSpecifier.Adds [one [.shortClassSpecifier]] v := by
  have hform : ∀ w : Lookahead, (look fun v =>
      if v.sees .enumerationKw then enumeration else derivedType).Adds [
        opt [.inputKw, .outputKw], opt [.typeSpecifier], opt [.arraySubscripts],
        opt [.classModification], opt [.enumerationKw], opt [.lParen],
        many [.enumerationLiteral, .comma], opt [.colon], opt [.rParen]] w := by
    refine fun w => adds_look (adds_ite (fun h => ?_) fun _ => ?_)
    · exact adds_of_covers (adds_enumeration (kind_of_sees h)) (by decide)
    · exact adds_of_covers adds_derivedType (by decide)
  exact adds_node
    (adds_seq_cons (adds_expect rfl) fun _ _ => adds_seq_cons (adds_expect rfl) fun _ _ =>
      adds_seq_cons (hform _) fun _ _ => adds_call trivial)
    (by decide) (by decide)

theorem adds_derClassSpecifier (h : Nonterminal.derClassSpecifier.Ready v) :
    derClassSpecifier.Adds [one [.derClassSpecifier]] v := by
  obtain ⟨h0, h1, h2, h3⟩ := h
  have hhead : (shifts 4).Adds [one [.ident], one [.equals], one [.derKw], one [.lParen]] v := by
    refine adds_shifts_succ h0 rfl fun a ha => ?_
    refine adds_shifts_succ ((nth_of_tail ha 0).trans h1) rfl fun b hb => ?_
    have hb2 : b.kind = .derKw := (nth_of_tail hb 0).trans ((nth_of_tail ha 1).trans h2)
    refine adds_shifts_succ hb2 rfl fun c hc => ?_
    have hc3 : c.kind = .lParen :=
      (nth_of_tail hc 0).trans ((nth_of_tail hb 1).trans ((nth_of_tail ha 2).trans h3))
    exact adds_shifts_succ hc3 rfl fun _ _ => adds_done
  exact adds_node
    (adds_seq_cons hhead fun _ _ => adds_seq_cons (adds_call trivial) fun _ _ =>
      adds_seq_cons (adds_expect rfl) fun _ _ =>
      adds_seq_cons (adds_separated rfl fun _ => adds_expect rfl) fun _ _ =>
      adds_seq_cons (adds_expect rfl) fun _ _ => adds_call trivial)
    (by decide) (by decide)

theorem adds_externalFunctionClause (h : v.kind = .externalKw) :
    externalFunctionClause.Adds [one [.externalFunctionClause]] v := by
  have hlanguage : ∀ w : Lookahead, w.sees .string = true →
      (node .languageSpecification [single .stringLiteral]).Adds [one [.languageSpecification]] w :=
    fun w hs => adds_node (adds_single (kind_of_sees hs) rfl (by decide) (by decide))
      (by decide) (by decide)
  exact adds_node
    (adds_seq_cons (adds_shift_of_kind h rfl) fun _ _ => adds_inContext <|
      adds_seq_cons (adds_before fun hs => hlanguage _ hs) fun _ _ =>
      adds_seq_cons (adds_look <| adds_when fun _ => adds_call trivial) fun _ _ =>
      adds_seq_cons (adds_before fun _ => adds_call trivial) fun _ _ => adds_expect rfl)
    (by decide) (by decide)

theorem adds_externalFunctionCall : externalFunctionCall.Adds [one [.externalFunctionCall]] v :=
  adds_node
    (adds_seq_cons (adds_look <| adds_unless fun _ => adds_seq_cons (adds_call trivial)
        fun _ _ => adds_expect rfl) fun _ _ =>
      adds_seq_cons (adds_expect rfl) fun _ _ => adds_expectThen rfl fun _ =>
      adds_seq_cons (adds_look <| adds_unless fun _ => adds_call trivial) fun _ _ =>
      adds_expect rfl)
    (by decide) (by decide)

end Grammar

end Modelica
