import Modelica.Proofs.Paired
import Modelica.Proofs.Run

/-!
# Nodes that are opened late

A node that is opened late is opened at the mark of a group. Two things have to be seen from the
grammar.

* `Nonterminal.production_sheltered`: no such node is opened in the open;
* `Nonterminal.production_fills`, `Runs.built_ne_nil`: a group holds at least one tree in the end,
  for else the gap before it would be woven at another place than where the builder has put it.
-/

namespace Modelica

/-- The rule is certain to leave a tree. -/
def Nonterminal.fills : Nonterminal → Bool
  | simpleExpression | band _ | unary _ | primary | componentReference | parenthesized
  | arrayConcatenation | arrayConstructor => true
  | _ => false

namespace Production

/-- The production is certain to leave a tree, also at the end of the input. -/
@[simp] def Fills : Production → Prop
  | done | shift | report _ | many _ _ => False
  | andThen p q => Fills p ∨ Fills q
  | nested p q => Fills p ∧ Fills q
  | group p | inContext _ p | opening _ p => Fills p
  | wrap _ _ => True
  | look next => ∀ v, Fills (next v)
  | call rule => rule.fills = true

/-- Nodes are opened at the mark of a group, and each group fills. A node that starts where it is
opened has no mark for others. -/
@[simp] def Sheltered : Bool → Production → Prop
  | _, done | _, shift | _, report _ | _, call _ => True
  | inGroup, andThen p q | inGroup, nested p q => Sheltered inGroup p ∧ Sheltered inGroup q
  | _, group (wrap _ p) => Sheltered false p
  | _, group p => Sheltered true p ∧ Fills p
  | inGroup, wrap _ p => inGroup = true ∧ Sheltered inGroup p
  | inGroup, look next => ∀ v, Sheltered inGroup (next v)
  | inGroup, many _ item => ∀ before, Sheltered inGroup (item before)
  | inGroup, inContext _ p | inGroup, opening _ p => Sheltered inGroup p

variable {p q : Production} {ps : List Production} {inGroup : Bool} {k : Kind}

@[simp] theorem fills_ite {c : Prop} [Decidable c] :
    (if c then p else q).Fills ↔ (c → p.Fills) ∧ (¬ c → q.Fills) := by
  split <;> simp [*]

@[simp] theorem sheltered_ite {c : Prop} [Decidable c] :
    (if c then p else q).Sheltered inGroup ↔
      (c → p.Sheltered inGroup) ∧ (¬ c → q.Sheltered inGroup) := by
  split <;> simp [*]

@[simp] theorem fills_seq_cons : (seq (p :: ps)).Fills ↔ p.Fills ∨ (seq ps).Fills := by
  cases ps <;> simp [seq]

@[simp] theorem sheltered_seq_nil : (seq []).Sheltered inGroup := True.intro

@[simp] theorem sheltered_seq_cons :
    (seq (p :: ps)).Sheltered inGroup ↔ p.Sheltered inGroup ∧ (seq ps).Sheltered inGroup := by
  cases ps <;> simp [seq]

@[simp] theorem fills_node : (node k ps).Fills := True.intro

@[simp] theorem sheltered_node :
    (node k ps).Sheltered inGroup ↔ (seq ps).Sheltered false := .rfl

@[simp] theorem sheltered_group_seq : (group (seq (p :: q :: ps))).Sheltered inGroup ↔
    (seq (p :: q :: ps)).Sheltered true ∧ (seq (p :: q :: ps)).Fills := .rfl

@[simp] theorem sheltered_shifts (n : Nat) : (shifts n).Sheltered inGroup := by
  induction n with
  | zero => exact True.intro
  | succ n ih => exact ⟨True.intro, ih⟩

@[simp] theorem sheltered_skipUntil {code : Code} {message : String} {recovery : List Kind} :
    (skipUntil code message recovery).Sheltered inGroup := by
  simp [skipUntil, fault]

@[simp] theorem sheltered_skipThroughSemicolon {code : Code} {message : String} :
    (skipThroughSemicolon code message).Sheltered inGroup := by
  simp [skipThroughSemicolon, fault, accept]

@[simp] theorem sheltered_skipNested : skipNested.Sheltered inGroup := by
  simp [skipNested, fault]

@[simp] theorem fills_skipNested : skipNested.Fills := by
  simp [skipNested]

end Production

namespace Nonterminal

open Production

section

attribute [local simp]
  before accept acceptAny expect expectThen separated missing fault repeatUntil deeper
  Grammar.name Grammar.typeSpecifier Grammar.componentReference Grammar.componentReferencePart
  Grammar.arraySubscripts Grammar.subscript Grammar.expression Grammar.ifExpression
  Grammar.simpleExpression Grammar.band Grammar.unary Grammar.operand Grammar.primary
  Grammar.callArguments Grammar.functionArguments Grammar.functionArgument Grammar.namedArgument
  Grammar.partialApplication Grammar.forIndex Grammar.parenthesized Grammar.arrayConcatenation
  Grammar.arrayConstructor Grammar.expressionList Grammar.leftmost Grammar.operation
  Grammar.elseBranch Grammar.firstArgument Grammar.argumentsAfterNamed Grammar.forIndices
  Grammar.single Grammar.missingExpression

attribute [local simp]
  Grammar.descriptionString Grammar.annotationClause Grammar.comment Grammar.modification
  Grammar.modificationExpression Grammar.classModification Grammar.classOrInheritanceModification
  Grammar.inheritanceModification Grammar.connectClause Grammar.argument
  Grammar.elementModification Grammar.elementRedeclaration Grammar.elementReplaceable
  Grammar.redeclaredElement Grammar.componentClause1 Grammar.argumentGroup
  Grammar.elements Grammar.element Grammar.importClause Grammar.extendsClause
  Grammar.constrainingClause Grammar.namedElementClause Grammar.typePrefix Grammar.componentClause
  Grammar.componentDeclaration Grammar.declaration Grammar.importPath

attribute [local simp]
  Grammar.storedDefinition Grammar.withinClause Grammar.classDefinitionClause
  Grammar.classDefinition Grammar.classPrefixes Grammar.longClassSpecifier Grammar.classBody
  Grammar.shortClassSpecifier Grammar.enumerationLiteral Grammar.derClassSpecifier
  Grammar.externalFunctionClause Grammar.externalFunctionCall Grammar.expectClassKind
  Grammar.classEnd Grammar.classSection Grammar.enumeration Grammar.derivedType

attribute [local simp]
  Grammar.equationSection Grammar.algorithmSection Grammar.sectionBody Grammar.body Grammar.item
  Grammar.equation Grammar.simpleEquation Grammar.specialEquation Grammar.connectEquation
  Grammar.statement Grammar.keywordStatement Grammar.referenceStatement
  Grammar.destructuringAssignment Grammar.ifBlock Grammar.elseIfClause Grammar.elseClause
  Grammar.whenBlock Grammar.elseWhenClause Grammar.forBlock Grammar.whileBlock Grammar.itemEnd
  Grammar.finishBlock Grammar.blockEnd Grammar.missingBlockEnd Grammar.strayEnd
  Grammar.clauseHeadAsError Grammar.clauseAfterElse

@[simp] theorem sheltered_strayClause {family : Family} {inGroup : Bool} :
    (Grammar.strayClause family).Sheltered inGroup := by
  simp only [Grammar.strayClause, Sheltered, sheltered_seq_cons]
  intro v
  refine ⟨?_, by simp, True.intro⟩
  split <;> simp

theorem production_fills {rule : Nonterminal} (h : rule.fills = true) : rule.production.Fills := by
  cases rule <;> simp only [fills, Bool.false_eq_true] at h <;> simp only [production]
  case band least =>
    simp only [Grammar.band, Grammar.leftmost, Fills, fills_seq_cons]
    refine .inl fun v => ?_
    split <;> simp [fills]
  case primary =>
    simp only [Grammar.primary, Fills]
    intro v
    split <;> simp [fills]
  all_goals simp [fills]

theorem production_sheltered (rule : Nonterminal) : rule.production.Sheltered false := by
  cases rule <;> simp only [production]
  case item family => cases family <;> simp
  case band =>
    simp only [Grammar.band, Grammar.leftmost, Grammar.operation, sheltered_group_seq, Sheltered,
      sheltered_seq_cons, Fills, fills_seq_cons]
    refine ⟨⟨fun v => ?_, fun _ v => ?_, True.intro⟩, .inl fun v => ?_⟩ <;> split <;> simp [fills]
  case longClassSpecifier => simp; intros; (repeat' split) <;> simp
  case primary | argument | element | importClause | classDefinition | classPrefixes | equation
      | simpleEquation | statement | referenceStatement | classBody =>
    simp [fills]; intro v; split <;> simp [fills]
  all_goals simp [fills]

end

end Nonterminal

theorem FragmentRule.sheltered_production (rule : FragmentRule) :
    rule.production.Sheltered false := by
  cases rule <;>
    simp [FragmentRule.production, FragmentRule.startingWith, Production.missing]

/-- No node is opened in the open, neither now nor in what is left of a repetition. -/
def Task.Sheltered (inGroup : Bool) : Task → Prop
  | of p => p.Sheltered inGroup
  | rest _ item _ => ∀ before, (item before).Sheltered inGroup

/-- A production that fills leaves a tree, and no run loses all trees of its group. -/
theorem Runs.built_ne_nil {allowed : Diagnostic Spot → Prop} {task : Task} {env : Surroundings}
    {r r' : Reading} (h : Runs allowed task env r r') :
    (r.built ≠ [] → r'.built ≠ []) ∧ ∀ p, task = .of p → p.Fills → r'.built ≠ [] := by
  induction h with
  | done => exact ⟨id, fun p hp hf => by cases hp; exact hf.elim⟩
  | stop _ => exact ⟨id, fun p hp _ => by cases hp⟩
  | andThen _ _ ihp ihq =>
    refine ⟨fun hr => ihq.1 (ihp.1 hr), fun p hp hf => ?_⟩
    cases hp
    exact hf.elim (fun hf => ihq.1 (ihp.2 _ rfl hf)) (ihq.2 _ rfl)
  | @shift env r =>
    refine ⟨fun hr => ?_, fun p hp hf => by cases hp; exact hf.elim⟩
    cases ha : r.ahead with
    | nil => rwa [Reading.shift_nil ha]
    | cons t ts => rw [Reading.shift_cons ha]; exact List.cons_ne_nil _ _
  | group _ ih =>
    refine ⟨fun hr he => hr (List.append_eq_nil_iff.mp he).2, fun p hp hf he => ?_⟩
    cases hp
    exact ih.2 _ rfl hf (List.append_eq_nil_iff.mp he).1
  | wrap => exact ⟨fun _ => List.cons_ne_nil _ _, fun _ _ _ => List.cons_ne_nil _ _⟩
  | look _ ih => exact ⟨ih.1, fun p hp hf => by cases hp; exact ih.2 _ rfl (hf _)⟩
  | many _ ih => exact ⟨ih.1, fun p hp hf => by cases hp; exact hf.elim⟩
  | turn _ _ _ ihi ihr =>
    exact ⟨fun hr => ihr.1 (ihi.1 hr), fun p hp hf => by cases hp⟩
  | call _ ih =>
    refine ⟨ih.1, fun p hp hf => ?_⟩
    cases hp
    exact ih.2 _ rfl (Nonterminal.production_fills hf)
  | report _ =>
    rw [Reading.report_built]
    exact ⟨id, fun p hp hf => by cases hp; exact hf.elim⟩
  | inContext _ ih | opening _ ih =>
    exact ⟨ih.1, fun p hp hf => by cases hp; exact ih.2 _ rfl hf⟩
  | within _ _ ih => exact ⟨ih.1, fun p hp hf => by cases hp; exact ih.2 _ rfl hf.1⟩
  | beyond _ _ ih => exact ⟨ih.1, fun p hp hf => by cases hp; exact ih.2 _ rfl hf.2⟩

namespace Production

open Routine

variable {p : Production} {inGroup : Bool} {mark mark' : Nat}

theorem sheltered_of_open (h : p.Sheltered false) : p.Sheltered inGroup := by
  induction p with
  | andThen p q ihp ihq | nested p q ihp ihq => exact ⟨ihp h.1, ihq h.2⟩
  | look next ih | many continues item ih => exact fun v => ih v (h v)
  | inContext context p ih | opening block p ih => exact ih h
  | group p => cases p <;> exact h
  | wrap => cases h.1
  | _ => exact h

/-- A production that opens no node at the mark of its group does not depend on it. -/
theorem paired_eq (h : p.Sheltered false) : p.paired mark = p.paired mark' := by
  fun_induction p.paired mark with
  | case2 mark p q ihp ihq => simp only [paired, ihp h.1, ihq h.2]
  | case4 mark k p ih => simp only [paired, ih h]
  | case6 => cases h.1
  | case7 mark next ih => simp only [paired, fun v => ih v (h v)]
  | case8 mark continues item ih => simp only [paired, fun v => ih v (h v)]
  | case11 mark context p ih | case12 mark block p ih => simp only [paired, ih h]
  | case13 mark p q ihp ihq => simp only [paired, ihp h.1, ihq h.2]
  | case5 mark p hp => simp only [paired]
  | _ => rfl

theorem group_sheltered (h : (group p).Sheltered inGroup) : p.Sheltered true ∧ p.Fills := by
  cases p with
  | wrap k q => exact ⟨⟨rfl, sheltered_of_open h⟩, True.intro⟩
  | _ => exact h

/-- A group may as well mark the place where it starts, also where a node takes in all of it. -/
theorem group_follows (h : (group p).Sheltered inGroup) :
    Follows (checkpoint >>= fun start => p.paired start) ((group p).paired mark) := by
  cases p with
  | wrap k q =>
    intro b keeps x b' hb
    cases hb with | act ha hn =>
    obtain ⟨m, hm, he⟩ := Option.map_eq_some_iff.mp ha
    cases he
    cases hn with | act ho hn =>
    obtain ⟨w, hw, he⟩ := Option.map_eq_some_iff.mp ho
    cases he
    cases Builder.openAt_eq hw
    refine .act (congrArg (Option.map _) hm) ?_
    rw [q.paired_eq h]
    exact hn
  | _ => exact .refl _

end Production

end Modelica
