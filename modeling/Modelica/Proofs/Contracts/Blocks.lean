import Modelica.Proofs.Contracts.Classes

/-!
# Equations and statements build what the tables say

The rules for blocks with an `end`, their clauses, and the items in them.
-/

namespace Modelica

open Shape
open Supertype (members)

namespace Grammar

open Production

variable {v : Lookahead}

theorem adds_blockEnd {construct : Construct} {opened : Spot} {p : Production} {s : Shape}
    (hp : ∀ w, p.Adds s w) : (blockEnd construct opened p).Adds
      ([one [.endKw], one [construct.endKeyword]] ++ s) v := by
  have hk : (construct.endKeyword == .endOfInput) = false := by cases construct <;> rfl
  refine adds_look (adds_ite (fun _ => adds_of_fails rfl) fun he => adds_ite (fun hn => ?_)
    fun _ => adds_ite (fun _ => adds_of_fails rfl) fun _ => adds_of_fails rfl)
  have he' : v.kind = .endKw := kind_of_sees (by simpa using he)
  refine adds_seq_cons ?_ fun w _ => hp w
  exact adds_shifts_succ he' rfl fun w hw =>
    adds_shifts_succ ((nth_of_tail hw 0).trans hn) hk fun _ _ => adds_done

theorem adds_finishBlock {construct : Construct} {opened : Spot} :
    (finishBlock construct opened).Adds (Shape.blockEnd construct.endKeyword) v :=
  adds_blockEnd fun _ => adds_weaken
    (adds_seq_cons (adds_call trivial) fun _ _ => adds_expect rfl) (Le.refl _)

theorem adds_body (family : Family) : (body family).Adds [many (members family.items)] v :=
  adds_weaken (adds_repeatUntil fun _ _ _ => adds_call trivial)
    (by cases family <;> exact Le.refl _)

theorem adds_sectionBody (family : Family) :
    (sectionBody family).Adds [many (members family.items)] v :=
  adds_weaken
    (adds_repeatUntil fun _ _ _ => adds_look <|
      adds_ite (fun _ => adds_of_fails fails_strayEnd) fun _ => adds_call trivial)
    (by cases family <;> exact Le.refl _)

theorem fails_strayClause {family : Family} : (strayClause family).Fails v :=
  fails_seq_cons (by split <;> exact fails_fault)

theorem adds_elseIfClause (family : Family) (h : v.kind = .elseifKw) :
    (elseIfClause family).Adds [one [family.elseIfKind]] v :=
  adds_node (adds_condition h rfl rfl fun _ => adds_call trivial)
    (by cases family <;> decide) (by cases family <;> decide)

theorem adds_elseClause (family : Family) (h : v.kind = .elseKw) :
    (elseClause family).Adds [one [family.elseKind]] v :=
  adds_node (adds_shift_call h rfl fun _ => trivial)
    (by cases family <;> decide) (by cases family <;> decide)

theorem adds_elseWhenClause (family : Family) (h : v.kind = .elsewhenKw) :
    (elseWhenClause family).Adds [one [family.elseWhenKind]] v :=
  adds_node (adds_condition h rfl rfl fun _ => adds_call trivial)
    (by cases family <;> decide) (by cases family <;> decide)

/-- Without errors nothing follows the `else` clause of a block. -/
theorem adds_elseOfBlock (family : Family) : (look fun v =>
    if v.sees .elseKw && v.clauseAttaches family.category then seq [
      call (.elseClause family),
      Production.many (·.clauseAttaches family.category) fun _ => clauseAfterElse family]
    else done).Adds [opt [family.elseKind]] v := by
  refine adds_look (adds_when (s := [one [family.elseKind]]) fun h => ?_)
  simp only [Bool.and_eq_true] at h
  have hnone : ∀ w, (Production.many (·.clauseAttaches family.category) fun _ =>
      clauseAfterElse family).Adds [] w := fun w c => by
    refine ⟨c, Le.refl c, Le.append_nil c (Le.refl _), fun _ u _ => ?_⟩
    exact turns_of_fails (fails_seq_cons fails_fault)
  exact adds_weaken (adds_seq_cons (adds_call (kind_of_sees h.1)) fun w _ => hnone w) (Le.refl _)

theorem kind_of_clause {family : Family} {k : Kind}
    (h : (v.sees k && v.clauseAttaches family.category) = true) : v.kind = k := by
  simp only [Bool.and_eq_true] at h
  exact kind_of_sees h.1

theorem adds_ifBlock (family : Family) (h : v.kind = .ifKw) :
    (ifBlock family).Adds [one [family.ifKind]] v :=
  adds_look <| adds_node
    (adds_condition h rfl rfl fun _ => adds_seq_cons
      (adds_opening <| adds_seq_cons (adds_call trivial) fun _ _ =>
        adds_seq_cons (adds_many fun _ _ hc => adds_call (kind_of_clause hc)) fun _ _ =>
        adds_elseOfBlock family)
      fun _ _ => adds_finishBlock)
    (by cases family <;> decide) (by cases family <;> decide)

theorem adds_whenBlock (family : Family) (h : v.kind = .whenKw) :
    (whenBlock family).Adds [one [family.whenKind]] v :=
  adds_look <| adds_node
    (adds_condition h rfl rfl fun _ => adds_seq_cons
      (adds_opening <| adds_seq_cons (adds_call trivial) fun _ _ =>
        adds_many fun _ _ hc => adds_call (kind_of_clause hc))
      fun _ _ => adds_finishBlock)
    (by cases family <;> decide) (by cases family <;> decide)

theorem adds_forBlock (family : Family) (h : v.kind = .forKw) :
    (forBlock family).Adds [one [family.forKind]] v :=
  adds_look <| adds_node
    (adds_seq_cons (adds_shift_of_kind h rfl) fun _ _ =>
      adds_seq_cons (adds_separated rfl fun _ => adds_call trivial) fun _ _ =>
      adds_seq_cons (adds_expect rfl) fun _ _ =>
      adds_seq_cons (adds_opening <| adds_call trivial) fun _ _ => adds_finishBlock)
    (by cases family <;> decide) (by cases family <;> decide)

theorem adds_whileBlock (h : v.kind = .whileKw) : whileBlock.Adds [one [.whileStatement]] v :=
  adds_look <| adds_node
    (adds_condition h rfl rfl fun _ => adds_seq_cons (adds_opening <| adds_call trivial)
      fun _ _ => adds_finishBlock)
    (by decide) (by decide)

theorem adds_itemEnd : itemEnd.Adds Shape.itemEnd v :=
  adds_of_covers (adds_seq_cons (adds_call trivial) fun _ _ => adds_expect rfl) (by decide)

theorem adds_item (family : Family) : (item family).Adds [one (members family.items)] v := by
  cases family <;> exact adds_call trivial

/-- The keyword of a section, and its items. -/
theorem adds_section {keyword : Kind} {context : Context} (family : Family)
    (hk : (keyword == .endOfInput) = false) :
    (seq [accept .initialKw, expect keyword,
      inContext context (call (.sectionBody family))]).Adds
      [opt [.initialKw], one [keyword], many (members family.items)] v :=
  adds_weaken
    (adds_seq_cons adds_accept fun _ _ => adds_seq_cons (adds_expect hk) fun _ _ =>
      adds_inContext <| adds_call trivial)
    (by cases family <;> exact Le.refl _)

theorem adds_equationSection : equationSection.Adds [one [.equationSection]] v :=
  adds_node (adds_section .equations rfl) (by decide) (by decide)

theorem adds_algorithmSection : algorithmSection.Adds [one [.algorithmSection]] v :=
  adds_node (adds_section .statements rfl) (by decide) (by decide)

theorem adds_equation : equation.Adds [one (members .equation)] v := by
  refine adds_deeper (adds_look ?_)
  split
  · exact adds_of_covers (adds_call ‹_›) (by decide)
  · exact adds_of_covers (adds_call ‹_›) (by decide)
  · exact adds_of_covers (adds_call ‹_›) (by decide)
  · exact adds_of_covers (adds_call ‹_›) (by decide)
  · exact adds_of_fails fails_strayClause
  · exact adds_of_fails fails_strayClause
  · exact adds_of_fails fails_strayClause
  · refine adds_ite (fun _ => ?_) fun _ => adds_ite (fun _ => ?_) fun _ => ?_
    · exact adds_of_covers (adds_call trivial) (by decide)
    · exact adds_of_covers (adds_call trivial) (by decide)
    · exact adds_of_fails fails_fault

theorem adds_rightSide : (look fun v =>
      match v.kind with
      | .equals => seq [shift, call .expression]
      | .assign => seq [
          report { Diagnostic.ofCode .assignInEquation v.index with
            expected := [.equals], found := some .assign,
            hint := some "equations use `=`; `:=` belongs in algorithm sections" },
          shift,
          call .expression]
      | _ => missing .missingEquals [.equals]).Adds
    [one [.equals], one (members .expression)] v := by
  refine adds_look ?_
  split
  · exact adds_shift_call ‹_› rfl fun _ => trivial
  · exact adds_of_fails (fails_seq_cons rfl)
  · exact adds_of_fails fails_missing

theorem adds_simpleEquation : simpleEquation.Adds [one [.simpleEquation]] v :=
  adds_node
    (adds_seq_cons (adds_call trivial) fun _ _ => adds_seq_cons adds_rightSide fun _ _ =>
      adds_itemEnd)
    (by decide) (by decide)

theorem adds_specialEquation : specialEquation.Adds [one [.specialEquation]] v :=
  adds_node
    (adds_seq_cons (adds_call trivial) fun _ _ => adds_seq_cons (adds_call trivial) fun _ _ =>
      adds_itemEnd)
    (by decide) (by decide)

theorem adds_connectEquation (h : v.kind = .connectKw) :
    connectEquation.Adds [one [.connectEquation]] v :=
  adds_node (adds_seq_cons (adds_call h) fun _ _ => adds_itemEnd) (by decide) (by decide)

theorem adds_statement : statement.Adds [one (members .statement)] v := by
  refine adds_deeper (adds_look ?_)
  split
  · exact adds_of_covers (adds_call ‹_›) (by decide)
  · exact adds_of_covers (adds_call ‹_›) (by decide)
  · exact adds_of_covers (adds_call ‹_›) (by decide)
  · exact adds_of_covers (adds_call ‹_›) (by decide)
  · exact adds_of_covers (adds_call (.inl ⟨rfl, ‹_›⟩)) (by decide)
  · exact adds_of_covers (adds_call (.inr ⟨rfl, ‹_›⟩)) (by decide)
  · exact adds_of_covers (adds_call ‹_›) (by decide)
  · exact adds_of_covers (adds_call trivial) (by decide)
  · exact adds_of_covers (adds_call trivial) (by decide)
  · exact adds_of_fails fails_strayClause
  · exact adds_of_fails fails_strayClause
  · exact adds_of_fails fails_strayClause
  · exact adds_of_fails fails_fault

theorem adds_keywordStatement {k : Kind} (h : (Nonterminal.keywordStatement k).Ready v) :
    (keywordStatement k).Adds [one [k]] v := by
  obtain ⟨rfl, h⟩ | ⟨rfl, h⟩ := h
  · exact adds_node (adds_seq_cons (adds_shift_of_kind h rfl) fun _ _ => adds_itemEnd)
      (by decide) (by decide)
  · exact adds_node (adds_seq_cons (adds_shift_of_kind h rfl) fun _ _ => adds_itemEnd)
      (by decide) (by decide)

theorem adds_referenceStatement : referenceStatement.Adds
    [one [.simpleAssignmentStatement, .functionCallStatement]] v := by
  refine adds_group (turns_seq_cons (turns_of_adds (adds_call trivial)) fun w _ => turns_look ?_)
  split
  · exact Turns.weaken (turns_wrap (adds_seq_cons (adds_shift_of_kind ‹_› rfl) fun _ _ =>
      adds_seq_cons (adds_call trivial) fun _ _ => adds_itemEnd) (by decide)
      (le_of_covers (by decide))) (le_of_covers (by decide))
  · exact Turns.weaken (turns_wrap (adds_seq_cons (adds_call trivial) fun _ _ => adds_itemEnd)
      (by decide) (le_of_covers (by decide))) (le_of_covers (by decide))
  · exact Turns.weaken (turns_wrap (s := [one [.assign], one (members .expression)] ++
      Shape.itemEnd) (adds_of_fails (fails_seq_cons rfl)) (by decide) (le_of_covers (by decide)))
      (le_of_covers (by decide))
  · exact Turns.weaken (turns_wrap (s := [one [.assign], one (members .expression)] ++
      Shape.itemEnd) (adds_of_fails (fails_seq_cons fails_missing)) (by decide)
      (le_of_covers (by decide))) (le_of_covers (by decide))

theorem adds_destructuringAssignment (h : v.kind = .lParen) :
    destructuringAssignment.Adds [one [.destructuringAssignmentStatement]] v := by
  have hcall : ∀ w : Lookahead, (look fun v =>
      if v.seesAny [.ident, .dot] then seq [call .componentReference, call .callArguments]
      else missing .notAStatement [.ident]).Adds
        (one [.componentReference] :: Shape.callArguments) w :=
    fun w => adds_look <| adds_ite
      (fun _ => adds_of_covers (adds_seq_cons (adds_call trivial) fun _ _ => adds_call trivial)
        (by decide))
      fun _ => adds_of_fails fails_missing
  exact adds_node
    (adds_seq_cons (adds_call h) fun _ _ => adds_seq_cons (adds_expect rfl) fun _ _ =>
      adds_seq_cons (hcall _) fun _ _ => adds_itemEnd)
    (by decide) (by decide)

end Grammar

end Modelica
