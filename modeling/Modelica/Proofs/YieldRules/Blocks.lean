import Modelica.Proofs.YieldRules.Classes

/-!
# Equations and statements yield what the tables say

The rules for blocks with an `end`, their clauses, and the items in them.
-/

namespace Modelica

open Shape
open Supertype (members)

namespace Grammar

open Production

variable {v : Lookahead}

theorem mem_of_atBlockEnd (h : v.atBlockEnd = true) :
    v.nth 1 ∈ [Kind.ifKw, .whenKw, .forKw, .whileKw] := by
  obtain ⟨-, hk⟩ := Bool.and_eq_true_iff.mp h
  revert hk
  cases v.nth 1 <;> decide

/-- Unless the `end` of a block is left for something around it, it has the keyword of a block. -/
theorem gives_blockEnd {construct : Construct} {opened : Spot} {p : Production} {s : Shape}
    (hp : ∀ w, p.Gives [s] w) : (blockEnd construct opened p).Gives
      [opt [.endKw] :: opt [.ifKw, .whenKw, .forKw, .whileKw] :: s.maybe] v := by
  let closing : Shape := one [.endKw] :: one [.ifKw, .whenKw, .forKw, .whileKw] :: s
  have hmissing : (missingBlockEnd construct.endKeyword opened).Gives [closing.maybe] v :=
    gives_nothing (gives_look gives_report)
  have hclose : ∀ w : Lookahead, w.kind = .endKw →
      w.nth 1 ∈ [Kind.ifKw, .whenKw, .forKw, .whileKw] →
      (seq [shifts 2, p]).Gives [closing.maybe] w := fun w he hn => by
    have hkeyword : ∀ u : Lookahead, u.ahead = w.ahead.tail →
        shift.Gives [[one [.ifKw, .whenKw, .forKw, .whileKw]]] u := fun u hu =>
      gives_shift (by rw [← nth_of_tail hu 0] at hn; exact hn) (by decide)
    exact gives_weaken (gives_seq_cons (l := [])
      (gives_andThen (gives_shift_of_kind he rfl) fun u hu =>
        gives_andThen (hkeyword u hu) fun _ _ => gives_done)
      fun u _ => hp u) (Variants.le_maybe closing)
  refine gives_look (gives_ite (fun _ => hmissing) fun he => gives_ite (fun hn => ?_) fun _ =>
    gives_ite (fun _ => hmissing) fun hc => ?_)
  · refine hclose v (kind_of_sees (by simpa using he)) ?_
    rw [hn]
    cases construct <;> decide
  · refine gives_after gives_report fun w hw => ?_
    have hw : w.ahead = v.ahead := hw
    have hend : v.atBlockEnd = true := by
      simp only [endClaimedOutside, Bool.or_eq_true, not_or] at hc
      simpa using hc.1
    refine hclose w ?_ ?_
    · rw [Lookahead.kind, hw]
      exact kind_of_sees (by simpa using he)
    · rw [Lookahead.nth, hw]
      exact mem_of_atBlockEnd hend

theorem gives_finishBlock {construct : Construct} {opened : Spot} :
    (finishBlock construct opened).Gives [anyBlockEnd] v :=
  gives_of_covers (gives_blockEnd fun _ =>
    gives_seq_cons (gives_call trivial) fun _ _ => gives_expect rfl) (by decide)

theorem gives_body (family : Family) : (body family).Gives [[many (members family.items)]] v :=
  gives_weaken (gives_repeatUntil fun _ _ => gives_call trivial)
    (by cases family <;> exact .refl _)

theorem gives_sectionBody (family : Family) :
    (sectionBody family).Gives [[many (members family.items)]] v :=
  gives_weaken
    (gives_repeatUntil fun _ _ => gives_look <|
      gives_ite (fun _ => gives_nothing gives_strayEnd) fun _ => gives_call trivial)
    (by cases family <;> exact .refl _)

theorem gives_clauseHeadAsError : clauseHeadAsError.Gives [[]] v := by
  have hhead : ∀ w : Lookahead,
      (if v.sees .elseKw then done else seq [call .expression, accept .thenKw]).Gives
        [[opt (members .expression), opt [.thenKw]]] w :=
    fun w => gives_ite (fun _ => gives_of_covers gives_done (by decide)) fun _ =>
      gives_of_covers (gives_seq_cons (gives_call trivial) fun _ _ => gives_accept rfl) (by decide)
  exact gives_look <| gives_error <| gives_seq_cons gives_shift_any fun w _ => hhead w

theorem gives_strayClause {family : Family} : (strayClause family).Gives [[]] v := by
  refine gives_look (gives_after (l := []) ?_ fun _ _ => gives_clauseHeadAsError)
  split <;> exact gives_fault

theorem gives_clauseAfterElse {family : Family} :
    (clauseAfterElse family).Gives [[many (members family.items)]] v :=
  gives_look <| gives_after gives_fault fun _ _ => gives_after (l := []) gives_clauseHeadAsError
    fun _ _ => gives_weaken (gives_call trivial) (.refl _)

theorem gives_elseIfClause (family : Family) (h : v.kind = .elseifKw) :
    (elseIfClause family).Gives [[one [family.elseIfKind]]] v :=
  gives_node (gives_condition h rfl rfl fun _ => gives_call trivial)
    (by cases family <;> decide) (by cases family <;> decide)

theorem gives_elseClause (family : Family) (h : v.kind = .elseKw) :
    (elseClause family).Gives [[one [family.elseKind]]] v :=
  gives_node (gives_shift_call h rfl fun _ => trivial)
    (by cases family <;> decide) (by cases family <;> decide)

theorem gives_elseWhenClause (family : Family) (h : v.kind = .elsewhenKw) :
    (elseWhenClause family).Gives [[one [family.elseWhenKind]]] v :=
  gives_node (gives_condition h rfl rfl fun _ => gives_call trivial)
    (by cases family <;> decide) (by cases family <;> decide)

/-- After the `else` clause there may be items of clauses that come too late. -/
theorem gives_elseOfBlock (family : Family) : (look fun v =>
    if v.sees .elseKw && v.clauseAttaches family.category then seq [
      call (.elseClause family),
      Production.many (·.clauseAttaches family.category) fun _ => clauseAfterElse family]
    else done).Gives [[opt [family.elseKind], many (members family.items)]] v := by
  have hlate : ∀ w, (Production.many (·.clauseAttaches family.category) fun _ =>
      clauseAfterElse family).Gives [[many (members family.items)]] w := fun w =>
    gives_weaken (gives_many fun _ _ _ => gives_clauseAfterElse)
      (by cases family <;> exact .refl _)
  refine gives_look (gives_when (s := [opt [family.elseKind], many (members family.items)])
    fun h => gives_seq_cons (gives_call ?_) fun w _ => hlate w)
  simp only [Bool.and_eq_true] at h
  exact kind_of_sees h.1

theorem gives_ifBlock (family : Family) (h : v.kind = .ifKw) :
    (ifBlock family).Gives [[one [family.ifKind]]] v :=
  gives_look <| gives_node
    (gives_condition h rfl rfl fun _ => gives_seq_join
      (gives_opening <| gives_seq_join (gives_call trivial) fun _ _ =>
        gives_seq_join (gives_many fun _ _ hc => gives_call (kind_of_clause hc)) fun _ _ =>
        gives_elseOfBlock family)
      fun _ _ => gives_finishBlock)
    (by cases family <;> decide) (by cases family <;> decide)

theorem gives_whenBlock (family : Family) (h : v.kind = .whenKw) :
    (whenBlock family).Gives [[one [family.whenKind]]] v :=
  gives_look <| gives_node
    (gives_condition h rfl rfl fun _ => gives_seq_cons
      (gives_opening <| gives_seq_cons (gives_call trivial) fun _ _ =>
        gives_many fun _ _ hc => gives_call (kind_of_clause hc))
      fun _ _ => gives_finishBlock)
    (by cases family <;> decide) (by cases family <;> decide)

theorem gives_forBlock (family : Family) (h : v.kind = .forKw) :
    (forBlock family).Gives [[one [family.forKind]]] v :=
  gives_look <| gives_node
    (gives_seq_cons (gives_shift_of_kind h rfl) fun _ _ =>
      gives_seq_cons (gives_separated rfl fun _ => gives_call trivial) fun _ _ =>
      gives_seq_cons (gives_expect rfl) fun _ _ =>
      gives_seq_cons (gives_opening <| gives_call trivial) fun _ _ => gives_finishBlock)
    (by cases family <;> decide) (by cases family <;> decide)

theorem gives_whileBlock (h : v.kind = .whileKw) :
    whileBlock.Gives [[one [.whileStatement]]] v :=
  gives_look <| gives_node
    (gives_condition h rfl rfl fun _ => gives_seq_cons (gives_opening <| gives_call trivial)
      fun _ _ => gives_finishBlock)
    (by decide) (by decide)

theorem gives_itemEnd : itemEnd.Gives [Shape.itemEnd.maybe] v :=
  gives_of_covers (gives_seq_cons (gives_call trivial) fun _ _ => gives_expect rfl) (by decide)

theorem gives_item (family : Family) : (item family).Gives [[opt (members family.items)]] v := by
  cases family <;> exact gives_call trivial

/-- The keyword of a section, and its items. -/
theorem gives_section {keyword : Kind} {context : Context} (family : Family)
    (hk : (keyword == .endOfInput) = false) :
    (seq [accept .initialKw, expect keyword,
      inContext context (call (.sectionBody family))]).Gives
      [[opt [.initialKw], opt [keyword], many (members family.items)]] v :=
  gives_weaken
    (gives_seq_cons (gives_accept rfl) fun _ _ => gives_seq_cons (gives_expect hk) fun _ _ =>
      gives_inContext <| gives_call trivial)
    (by cases family <;> exact .refl _)

theorem gives_equationSection : equationSection.Gives [[one [.equationSection]]] v :=
  gives_node (gives_section .equations rfl) (by decide) (by decide)

theorem gives_algorithmSection : algorithmSection.Gives [[one [.algorithmSection]]] v :=
  gives_node (gives_section .statements rfl) (by decide) (by decide)

theorem gives_equation : equation.Gives [[opt (members .equation)]] v := by
  refine gives_of_covers (gives_deeper (s := [opt (members .equation)]) (gives_look ?_)) (by decide)
  have hstray : (strayClause .equations).Gives [[opt (members .equation)]] v :=
    gives_of_covers gives_strayClause (by decide)
  split
  · exact gives_of_covers (gives_call ‹_›) (by decide)
  · exact gives_of_covers (gives_call ‹_›) (by decide)
  · exact gives_of_covers (gives_call ‹_›) (by decide)
  · exact gives_of_covers (gives_call ‹_›) (by decide)
  · exact hstray
  · exact hstray
  · exact hstray
  · refine gives_ite (fun _ => ?_) fun _ => gives_ite (fun _ => ?_) fun _ => ?_
    · exact gives_of_covers (gives_call trivial) (by decide)
    · exact gives_of_covers (gives_call trivial) (by decide)
    · exact gives_of_covers gives_skipThroughSemicolon (by decide)

theorem gives_rightSide : (look fun v =>
      match v.kind with
      | .equals => seq [shift, call .expression]
      | .assign => seq [
          report { Diagnostic.ofCode .assignInEquation v.index with
            expected := [.equals], found := some .assign,
            hint := some "equations use `=`; `:=` belongs in algorithm sections" },
          shift,
          call .expression]
      | _ => missing .missingEquals [.equals]).Gives
    [[opt [.equals, .assign], opt (members .expression)]] v := by
  refine gives_look ?_
  split
  · exact gives_of_covers (gives_shift_call ‹_› rfl fun _ => trivial) (by decide)
  · rename_i h
    refine gives_after gives_report fun w hw => gives_of_covers (gives_shift_call (k := .assign)
      ?_ rfl fun _ => trivial) (by decide)
    have ha : w.ahead = v.ahead := hw
    rw [Lookahead.kind, ha]
    exact h
  · exact gives_of_covers gives_missing (by decide)

theorem gives_simpleEquation : simpleEquation.Gives [[one [.simpleEquation]]] v :=
  gives_node
    (gives_seq_cons (gives_call trivial) fun _ _ => gives_seq_cons gives_rightSide fun _ _ =>
      gives_itemEnd)
    (by decide) (by decide)

theorem gives_specialEquation : specialEquation.Gives [[one [.specialEquation]]] v :=
  gives_node
    (gives_seq_cons (gives_call trivial) fun _ _ => gives_seq_cons (gives_call trivial) fun _ _ =>
      gives_itemEnd)
    (by decide) (by decide)

theorem gives_connectEquation (h : v.kind = .connectKw) :
    connectEquation.Gives [[one [.connectEquation]]] v :=
  gives_node (gives_seq_cons (gives_call h) fun _ _ => gives_itemEnd) (by decide) (by decide)

theorem gives_statement : statement.Gives [[opt (members .statement)]] v := by
  refine gives_of_covers (gives_deeper (s := [opt (members .statement)]) (gives_look ?_))
    (by decide)
  have hstray : (strayClause .statements).Gives [[opt (members .statement)]] v :=
    gives_of_covers gives_strayClause (by decide)
  split
  · exact gives_of_covers (gives_call ‹_›) (by decide)
  · exact gives_of_covers (gives_call ‹_›) (by decide)
  · exact gives_of_covers (gives_call ‹_›) (by decide)
  · exact gives_of_covers (gives_call ‹_›) (by decide)
  · exact gives_of_covers (gives_call (.inl ⟨rfl, ‹_›⟩)) (by decide)
  · exact gives_of_covers (gives_call (.inr ⟨rfl, ‹_›⟩)) (by decide)
  · exact gives_of_covers (gives_call ‹_›) (by decide)
  · exact gives_of_covers (gives_call trivial) (by decide)
  · exact gives_of_covers (gives_call trivial) (by decide)
  · exact hstray
  · exact hstray
  · exact hstray
  · exact gives_of_covers gives_skipThroughSemicolon (by decide)

theorem gives_keywordStatement {k : Kind} (h : (Nonterminal.keywordStatement k).Ready v) :
    (keywordStatement k).Gives [[one [k]]] v := by
  obtain ⟨rfl, h⟩ | ⟨rfl, h⟩ := h
  · exact gives_node (gives_seq_cons (gives_shift_of_kind h rfl) fun _ _ => gives_itemEnd)
      (by decide) (by decide)
  · exact gives_node (gives_seq_cons (gives_shift_of_kind h rfl) fun _ _ => gives_itemEnd)
      (by decide) (by decide)

theorem gives_referenceStatement : referenceStatement.Gives
    [[one [.simpleAssignmentStatement, .functionCallStatement]]] v := by
  have hassign : ∀ w k, w.kind = k → k ∈ [Kind.assign, .equals] →
      (seq [shift, call .expression, itemEnd]).Gives
        [[one [.assign, .equals], opt (members .expression)] ++ Shape.itemEnd.maybe] w :=
    fun w k h hk => gives_of_covers (gives_seq_cons (gives_shift (h ▸ hk) (by decide)) fun _ _ =>
      gives_seq_cons (gives_call trivial) fun _ _ => gives_itemEnd) (by decide)
  refine gives_group (yields_seq_cons (yields_of_gives (gives_call trivial)) fun w _ =>
    yields_look ?_)
  split
  · exact Yields.weaken (yields_wrap (hassign _ _ ‹_› (by decide)) (by decide) (by decide))
      (Variants.le_of_covers (by decide))
  · exact Yields.weaken (yields_wrap (gives_seq_cons (gives_call trivial) fun _ _ => gives_itemEnd)
      (by decide) (by decide)) (Variants.le_of_covers (by decide))
  · rename_i h
    refine Yields.weaken (yields_wrap (gives_after gives_report fun u hu => hassign u .equals ?_
      (by decide)) (by decide) (by decide)) (Variants.le_of_covers (by decide))
    have ha : u.ahead = w.ahead := hu
    rw [Lookahead.kind, ha]
    exact h
  · exact Yields.weaken (yields_wrap (gives_after (l := []) gives_missing fun _ _ => gives_itemEnd)
      (by decide) (by decide)) (Variants.le_of_covers (by decide))

theorem gives_destructuringAssignment (h : v.kind = .lParen) :
    destructuringAssignment.Gives [[one [.destructuringAssignmentStatement]]] v := by
  have hcall : ∀ w : Lookahead, (look fun v =>
      if v.seesAny [.ident, .dot] then seq [call .componentReference, call .callArguments]
      else missing .notAStatement [.ident]).Gives
        [Shape.maybe (one [.componentReference] :: Shape.callArguments)] w :=
    fun w => gives_look <| gives_ite
      (fun _ => gives_of_covers (gives_seq_cons (gives_call trivial) fun _ _ => gives_call trivial)
        (by decide))
      fun _ => gives_nothing gives_missing
  exact gives_node
    (gives_seq_cons (gives_call h) fun _ _ => gives_seq_cons (gives_expect rfl) fun _ _ =>
      gives_seq_cons (hcall _) fun _ _ => gives_itemEnd)
    (by decide) (by decide)

end Grammar

end Modelica
