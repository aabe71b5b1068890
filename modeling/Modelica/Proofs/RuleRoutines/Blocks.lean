import Modelica.Proofs.RuleRoutines.Expressions

/-!
# Items, blocks and classes are read by their routines

The routine of an `if` has one loop for all its clauses and a variable for the `else` that has been
seen, and that of a class body goes round by the next keyword; their productions have a test before
each turn. A clause that has no place is reported before its head is read.
-/

namespace Modelica

open Production Routine

variable {mark : Nat} {family : Family}

section

attribute [local simp] before acceptAny shifts sees seesAny Routine.atEnd ate expected

theorem follows_element : Follows (Grammar.element.paired mark) Routine.element := by
  simp only [Grammar.element, Routine.element, paired]
  refine .after fun v => ?_
  split
  case h_9 =>
    simp only [*, paired_ite]
    split
    · exact .refl _
    · exact follows_skipThroughSemicolon
  all_goals exact .of_eq (by simp only [*, paired])

/-- What comes next is the same before a report and after it. -/
theorem follows_clauseHead (code : Code) (message : String) (b : Builder) : FollowsFrom b
    (error code message >>= fun _ => Grammar.clauseHeadAsError.paired mark)
    (error code message >>= fun _ => clauseHeadAsError b.look.kind) := by
  refine .trans (quiet_error _ _).followsFrom (.of_eq ?_)
  simp [clauseHeadAsError, Lookahead.sees]

theorem follows_strayClause :
    Follows ((Grammar.strayClause family).paired mark) (strayClause family) := by
  simp only [Grammar.strayClause, Routine.strayClause, paired, paired_seq_cons, paired_seq_nil,
    bind_pure_unit]
  refine fun b => .look_left (.look_right ?_)
  cases b.look.clauseResolution family.category <;> exact follows_clauseHead _ _ b

theorem follows_equation : Follows (Grammar.equation.paired mark) Routine.equation := by
  refine follows_guarded ?_
  simp only [paired, bind_assoc]
  refine .after fun v => ?_
  split
  case h_5 | h_6 | h_7 =>
    exact (follows_strayClause.bind fun _ => .refl _).trans (.of_eq (by simp only [*]))
  case h_8 =>
    simp only [*, paired_ite, Routine.ite_bind]
    split
    · exact .refl _
    split
    · exact .refl _
    · exact follows_skipThroughSemicolon.bind fun _ => .refl _
  all_goals exact .of_eq (by simp only [*, paired])

theorem follows_statement : Follows (Grammar.statement.paired mark) Routine.statement := by
  refine follows_guarded ?_
  simp only [paired, bind_assoc]
  refine .after fun v => ?_
  split
  case h_10 | h_11 | h_12 =>
    exact (follows_strayClause.bind fun _ => .refl _).trans (.of_eq (by simp only [*]))
  case h_13 =>
    exact (follows_skipThroughSemicolon.bind fun _ => .refl _).trans (.of_eq (by simp only [*]))
  all_goals exact .of_eq (by simp only [*, paired])

/-- Once an `else` has been seen, each clause is one after it. -/
theorem follows_clausesAfterElse :
    Follows (repeatWhile (·.clauseAttaches family.category) fun _ =>
      (Grammar.clauseAfterElse family).paired mark) (ifClauses family true) := by
  refine .trans (.of_eq bind_pure_unit.symm) ?_
  refine follows_loop (l := ifClauses family) (fun _ => rfl) (fun _ => true)
    (fun b _ hc => ?_) fun b _ hc => ?_
  · simp only [Grammar.clauseAfterElse, paired, paired_seq_cons, paired_seq_nil, paired_fault,
      bind_assoc, bind_pure_unit]
    refine .look_left (.look_right ?_)
    simp only [hc, Bool.not_true, Bool.false_eq_true, if_false, if_true, bind_assoc, pure_bind]
    have h := (@follows_clauseHead mark .unexpectedToken
      (b.look.kind.displayName ++ " after `else` in the same `if`") b).bind
      fun _ _ _ _ => .refl (rule (.body family) >>= fun _ => ifClauses family true)
    simpa only [bind_assoc] using h
  · simp only [bind_assoc]
    refine .look_right (.of_eq ?_)
    simp [hc]

theorem follows_ifClauses :
    Follows (do
      repeatWhile (fun v => v.sees .elseifKw && v.clauseAttaches family.category) fun _ =>
        rule (.elseIfClause family)
      let v ← Routine.look
      if v.sees .elseKw && v.clauseAttaches family.category then do
        rule (.elseClause family)
        repeatWhile (·.clauseAttaches family.category) fun _ =>
          (Grammar.clauseAfterElse family).paired mark
      else pure ()) (ifClauses family false) := by
  refine follows_loop (l := ifClauses family) (fun _ => rfl) (fun _ => false)
    (fun b _ hc => ?_) fun b _ hc => ?_
  · simp only [Bool.and_eq_true, Lookahead.sees, beq_iff_eq] at hc
    simp only [bind_assoc]
    refine .look_right (.of_eq ?_)
    simp [hc]
  · simp only [bind_assoc]
    refine .look_left (.look_right ?_)
    by_cases ha : b.look.clauseAttaches family.category = true
    · by_cases he : b.look.kind = .elseKw
      · simp only [ha, he, Lookahead.sees, beq_self_eq_true, Bool.true_and, if_true, Bool.not_true,
          Bool.false_eq_true, if_false, bind_assoc, pure_bind]
        exact Follows.after (fun _ => follows_clausesAfterElse) b
      · simp only [ha, Lookahead.sees, Bool.and_true, beq_eq_false_iff_ne] at hc
        refine .of_eq ?_
        simp [ha, he, Lookahead.sees]
    · exact .of_eq (by simp [ha])

theorem paired_finishBlock {construct : Construct} {opened : Spot} :
    (Grammar.finishBlock construct opened).paired mark = Routine.finishBlock construct opened := by
  simp [Grammar.finishBlock, Grammar.blockEnd, Grammar.missingBlockEnd, Routine.finishBlock,
    Routine.blockEnd, Routine.missingBlockEnd]

theorem follows_ifBlock :
    Follows ((Grammar.ifBlock family).paired mark) (Routine.ifBlock family) := by
  simp only [Grammar.ifBlock, Routine.ifBlock, paired, paired_seq_cons, paired_seq_nil,
    paired_node, bind_assoc, bind_pure_unit, paired_expect, paired_finishBlock, paired_ite]
  refine .after fun start => .after fun _ => .after fun _ => .after fun _ => .after fun _ =>
    .after fun _ => .after fun _ => ?_
  have h := (@follows_ifClauses mark family).bind fun _ => .refl <| closeConstruct >>= fun _ =>
    Routine.finishBlock .ifBlock start.index >>= fun _ => finishNode
  simpa only [bind_assoc] using h

theorem paired_whenBlock :
    (Grammar.whenBlock family).paired mark = Routine.whenBlock family := by
  simp [Grammar.whenBlock, Routine.whenBlock, paired_finishBlock]

theorem paired_forBlock : (Grammar.forBlock family).paired mark = Routine.forBlock family := by
  simp [Grammar.forBlock, Routine.forBlock, paired_finishBlock]

theorem paired_whileBlock : Grammar.whileBlock.paired mark = Routine.whileBlock := by
  simp [Grammar.whileBlock, Routine.whileBlock, paired_finishBlock]

theorem paired_strayEnd : Grammar.strayEnd.paired mark = Routine.strayEnd := by
  simp [Grammar.strayEnd, Routine.strayEnd]

theorem follows_classSections :
    Follows (repeatWhile Grammar.atClassSection fun _ => Grammar.classSection.paired mark)
      classSections := by
  refine .trans (.of_eq bind_pure_unit.symm) ?_
  refine follows_loop (l := fun _ => classSections) (fun _ => rfl) (fun _ => ())
    (fun b _ hc => ?_) fun b _ hc => ?_
  · simp only [Grammar.classSection, paired, bind_assoc]
    refine .look_left (.look_right (.of_eq ?_))
    unfold Grammar.atClassSection at hc
    split at hc <;> simp_all [paired_strayEnd]
  · simp only [bind_assoc]
    refine .look_right (.of_eq ?_)
    unfold Grammar.atClassSection at hc
    split at hc <;> simp_all

theorem follows_classBody : Follows (Grammar.classBody.paired mark) Routine.classBody := by
  simp only [Grammar.classBody, Routine.classBody, paired, paired_seq_cons, paired_seq_nil,
    bind_pure_unit, paired_ite, paired_node, bind_assoc]
  refine .after fun v => ?_
  by_cases hv : v.atSectionBoundary = true
  · simpa [hv] using follows_classSections
  · rw [if_neg hv, if_pos (by simp [hv])]
    simp only [bind_assoc]
    exact .after fun _ => .after fun _ => .after fun _ => follows_classSections

theorem follows_classDefinition :
    Follows (Grammar.classDefinition.paired mark) Routine.classDefinition := by
  refine follows_guarded (.of_eq ?_)
  simp only [paired_node, paired_seq_cons, paired_seq_nil, paired_accept, paired, bind_assoc,
    bind_pure_unit]
  congr 1; funext; congr 1; funext; congr 1; funext; congr 1; funext v
  split <;> simp [*]

theorem paired_classEnd {name : Option String} {opened : Spot} :
    (Grammar.classEnd name opened).paired mark = Routine.classEnd name opened := by
  cases name <;> simp [Grammar.classEnd, Routine.classEnd]

/-- Whether a token was read is what was seen before. -/
theorem eat_ate {α : Type} {b : Builder} {k : Kind} {f : Bool → Routine α} :
    FollowsFrom b (eat k >>= fun _ => f (b.look.sees k)) (ate k >>= f) := by
  simp only [ate, sees, bind_assoc, pure_bind]
  refine .look_right ?_
  by_cases h : b.look.sees k = true
  · rw [if_pos h, h]
    exact .trans (eat_seen h) (.of_eq (by simp))
  · rw [if_neg h, Bool.eq_false_iff.mpr h]
    exact eat_unseen (Bool.eq_false_iff.mpr h)

theorem follows_longClassSpecifier :
    Follows (Grammar.longClassSpecifier.paired mark) Routine.longClassSpecifier := by
  simp only [Grammar.longClassSpecifier, Routine.longClassSpecifier, paired, paired_node,
    paired_seq_cons, paired_seq_nil, bind_assoc, bind_pure_unit, paired_accept, paired_expect,
    paired_ite, before, paired_classEnd]
  refine .trans (quiet_startNode _).follows_look (.after fun _ => ?_)
  refine fun b => .look_left (.look_right (.trans (.of_eq ?_) eat_ate))
  congr 1
  funext _
  congr 1
  funext v
  congr 1
  funext _
  generalize classEnd _ _ >>= (fun _ => finishNode) = rest
  simp only [sees, Routine.ite_bind, bind_assoc, pure_bind]

end

end Modelica
