import Modelica.Proofs.Paired

/-!
# Expressions are read by their routines

The routines of expressions leave a group of nested ones by an early return, and a list by `break`.
Each does what its production has in pairs.
-/

namespace Modelica

open Production Routine

variable {mark : Nat}

/-- Beyond the bound a routine skips what is nested and returns early. -/
theorem follows_guarded {p : Production} {q : Routine Unit}
    (h : Follows (p.paired mark >>= fun _ => exitNesting) q) :
    Follows ((deeper p).paired mark) (do
      if !(← enterNesting) then
        Routine.skipNested
        exitNesting
        return
      q) := by
  simp only [deeper, paired]
  refine .after fun ok => ?_
  cases ok with
  | true => exact h
  | false => exact .trans (follows_skipNested.bind fun _ => .refl _) (.of_eq (by simp))

section

attribute [local simp] before acceptAny shifts sees seesAny Routine.atEnd ate expected

theorem follows_expression : Follows (Grammar.expression.paired mark) Routine.expression := by
  refine follows_guarded (.of_eq ?_)
  simp

theorem follows_ifExpression : Follows (Grammar.ifExpression.paired mark) Routine.ifExpression := by
  simp only [Grammar.ifExpression, Routine.ifExpression, paired, paired_node]
  refine .trans (quiet_startNode _).follows_look (.of_eq ?_)
  simp [Grammar.elseBranch]

theorem follows_operand {level : Nat} :
    Follows ((Grammar.operand level).paired mark) (Routine.operand level) := by
  simp only [Grammar.operand, deeper, paired, Routine.operand]
  refine .after fun ok => ?_
  cases ok with
  | true => exact .refl _
  | false => exact follows_skipNested.bind fun _ => .refl _

/-- The routine keeps the level of the last operator, the production what it looked at. -/
theorem follows_operations {least : Nat} :
    Follows (repeatWhile (fun v => (Band.binaryLevel? v.kind least).isSome) fun before =>
      (Grammar.operation least before).paired mark) (operations least mark none) := by
  refine .trans (.of_eq bind_pure_unit.symm) ?_
  refine follows_loop (l := operations least mark) (fun _ => rfl)
    (fun before => before.bind fun v => Band.binaryLevel? v.kind least)
    (fun b before hc => ?_) fun b before hc => ?_
  · obtain ⟨level, hlevel⟩ := Option.isSome_iff_exists.mp hc
    simp only [Grammar.operation, paired, bind_assoc]
    refine .look_left (.look_right (.of_eq ?_))
    simp [hlevel]
  · simp only [bind_assoc]
    refine .look_right (.of_eq ?_)
    simp [Option.not_isSome_iff_eq_none.mp (Bool.eq_false_iff.mp hc)]

theorem follows_band {least : Nat} :
    Follows ((Grammar.band least).paired mark) (Routine.band least) := by
  simp only [Grammar.band, Routine.band, paired_group_seq, paired_seq_cons, paired_seq_nil,
    bind_pure_unit]
  refine .after fun mark => ?_
  simp only [Grammar.leftmost, paired, bind_assoc]
  refine .after fun v => ?_
  cases Band.unaryLevel? v.kind with
  | none => exact .after fun _ => follows_operations
  | some level =>
    simp only [paired_ite, Routine.ite_bind, paired_seq_cons, paired_seq_nil, bind_pure_unit,
      paired_fault, bind_assoc]
    split
    · exact .after fun _ => follows_operations
    · exact .after fun _ => .after fun _ => follows_operations

theorem follows_componentReference :
    Follows (Grammar.componentReference.paired mark) Routine.componentReference := by
  simp only [Grammar.componentReference, Routine.componentReference, paired, paired_node,
    paired_seq_cons, paired_seq_nil, bind_pure_unit, paired_accept, bind_assoc]
  refine .after fun _ => .after fun _ => .trans follows_leftInTurn (.of_eq ?_)
  simp

theorem follows_parenthesized :
    Follows (Grammar.parenthesized.paired mark) Routine.parenthesized := by
  simp only [Grammar.parenthesized, Routine.parenthesized, paired, paired_node, paired_seq_cons,
    paired_seq_nil, bind_pure_unit, bind_assoc, withContext, paired_ite, paired_expect,
    paired_separated, sees, pure_bind]
  refine .after fun _ => .after fun _ => .after fun _ => .after fun v => ?_
  by_cases hv : v.sees .rParen = true
  · exact .of_eq (by simp [hv])
  · rw [if_neg hv, if_pos (by simp [hv])]
    refine .trans follows_separated (.of_eq ?_)
    simp

theorem follows_argumentsAfterNamed :
    Follows (Grammar.argumentsAfterNamed.paired mark) (moreArguments true) := by
  refine .trans (.of_eq bind_pure_unit.symm) ?_
  refine follows_loop (l := moreArguments) (fun _ => rfl) (fun _ => true)
    (fun b _ hc => ?_) fun b _ hc => ?_
  all_goals
    simp only [ate, sees, bind_assoc]
    refine .look_right (.of_eq ?_)
    simp [hc]

/-- What stands after a comma is seen before the comma is read and after it. -/
theorem atNamedArgument_of_bump {keeps : Builder → Builder → Prop} {b m : Builder}
    (h : Builds keeps bump b () m) :
    m.look.atNamedArgument = (b.look.nth 1 == .ident && b.look.nth 2 == .equals) := by
  simp [Lookahead.atNamedArgument, Lookahead.sees, Lookahead.kind, Lookahead.nth, Token.kindAt,
    Token.headKind, Builder.look, ahead_of_bump h]

/-- Before a named argument it makes no difference whether another has come already. -/
theorem moreArguments_follows {b : Builder}
    (h : (b.look.sees .comma && !(b.look.nth 1 == .ident && b.look.nth 2 == .equals)) = false) :
    FollowsFrom b (moreArguments true) (moreArguments false) := by
  refine .trans (follows_turn (l := moreArguments) (fun _ => rfl) true b) ?_
  refine .trans ?_ (turn_follows (l := moreArguments) (fun _ => rfl) false b)
  simp only [ate, sees, bind_assoc]
  refine .look_left (.look_right ?_)
  by_cases hc : b.look.sees .comma = true
  · have hn : (b.look.nth 1 == .ident && b.look.nth 2 == .equals) = true := by simpa [hc] using h
    simp only [hc, Routine.ite_bind, if_true, bind_assoc, pure_bind]
    refine .after fun _ _ m hm => .look_left (.look_right (.of_eq ?_))
    simp [(atNamedArgument_of_bump hm).trans hn]
  · exact .of_eq (by simp [hc])

/-- The production has one loop up to the first named argument and one from there on, the routine
one for both. -/
theorem follows_positionalArguments :
    Follows (repeatWhile (fun v => v.sees .comma && !(v.nth 1 == .ident && v.nth 2 == .equals))
        (fun _ => bump >>= fun _ => rule .functionArgument) >>= fun _ =>
          Grammar.argumentsAfterNamed.paired mark) (moreArguments false) := by
  have hloop := turn_follows (l := moreArguments) (fun _ => rfl) false
  refine follows_repeatWhile (q := fun _ => moreArguments false)
    (fun b _ hc => .trans ?_ (hloop b))
    fun b _ hc => .trans (follows_argumentsAfterNamed b) (moreArguments_follows hc)
  clear hloop
  simp only [Bool.and_eq_true, Bool.not_eq_true'] at hc
  simp only [ate, sees, bind_assoc]
  refine .look_right ?_
  simp only [hc, Routine.ite_bind, if_true, bind_assoc, pure_bind]
  refine .after fun _ _ m hm => .look_right (.of_eq ?_)
  simp [(atNamedArgument_of_bump hm).trans hc.2]

theorem follows_functionArguments :
    Follows (Grammar.functionArguments.paired mark) Routine.functionArguments := by
  simp only [Grammar.functionArguments, Routine.functionArguments, paired, paired_node,
    paired_seq_cons, paired_seq_nil, bind_assoc, bind_pure_unit, paired_ite]
  refine .after fun _ b => .look_left (.look_right ?_)
  by_cases hn : b.look.atNamedArgument = true
  · simp only [hn, if_true, bind_assoc]
    exact Follows.after (fun _ => follows_argumentsAfterNamed.bind fun _ => .refl _) b
  have hmore := (@follows_positionalArguments mark).bind fun _ => .refl finishNode
  simp only [bind_assoc] at hmore
  simp only [hn, Bool.false_eq_true, if_false, Grammar.firstArgument, paired, paired_ite,
    bind_assoc]
  refine .look_left ?_
  by_cases hf : b.look.sees .functionKw = true
  · simp only [hf, if_true]
    exact Follows.after (fun _ => hmore) b
  · simp only [hf, Bool.false_eq_true, if_false, paired_group_seq, paired_seq_cons, paired_seq_nil,
      bind_pure_unit, bind_assoc, paired, paired_ite, Grammar.forIndices, paired_separated, sees,
      pure_bind, Routine.forIndices]
    refine Follows.after (fun mark => .after fun _ => .after fun v => ?_) b
    split
    · simp only [bind_assoc]
      exact .after fun _ => .after fun _ => .after fun _ => .after fun _ => hmore
    · simp only [bind_assoc]
      exact .after fun _ => .after fun _ => hmore

end

end Modelica
