import Modelica.Proofs.Progress

/-!
# The rules keep to the tables

Every rule of the grammar is checked against `Nonterminal.reads` and `Nonterminal.rank`.

* `Nonterminal.orderly`: the turns of its repetitions read, its calls before the first token rank
  below it, and where it is said to read it does.
-/

namespace Modelica

namespace Band

theorem binaryLevel?_endOfInput (least : Nat) : binaryLevel? .endOfInput least = none := by
  have h : ∀ b ∈ table.zipIdx, ¬ b.1.holds .binary .endOfInput := by decide
  simp only [binaryLevel?, Option.map_eq_none_iff, List.find?_eq_none]
  exact fun b hb => h b (List.mem_of_mem_drop hb)

theorem unaryLevel?_endOfInput : unaryLevel? .endOfInput = none := by decide

end Band

namespace Lookahead

variable {v : Lookahead}

theorem ahead_ne_nil_of_continuesChain (h : v.continuesChain = true) : v.ahead ≠ [] := by
  intro hn
  simp [continuesChain, Token.continuesChain, hn, Token.kindAt, Token.headKind] at h

theorem ahead_ne_nil_of_operator {least : Nat} (h : (Band.binaryLevel? v.kind least).isSome) :
    v.ahead ≠ [] := by
  intro hn
  simp [kind, hn, Token.headKind, Band.binaryLevel?_endOfInput] at h

theorem ahead_ne_nil_of_clauseAttaches {category : Category}
    (h : v.clauseAttaches category = true) : v.ahead ≠ [] := by
  intro hn
  simp [clauseAttaches, kind, hn, Token.headKind, isClauseKeyword, clauseOwner?] at h

theorem ahead_ne_nil_of_seesAny {ks : List Kind} (h : v.seesAny ks = true)
    (hk : .endOfInput ∉ ks) : v.ahead ≠ [] := by
  intro hn
  simp only [seesAny, kind, hn, Token.headKind, List.contains_eq_mem, decide_eq_true_eq] at h
  exact hk h

theorem ahead_ne_nil_of_atClassDefinition (h : v.atClassDefinition = true) : v.ahead ≠ [] := by
  simp only [atClassDefinition, Bool.or_eq_true] at h
  cases h with
  | inl h => exact ahead_ne_nil_of_sees h (by decide)
  | inr h => exact ahead_ne_nil_of_seesAny h (by decide)

end Lookahead

/-- What nests too deep is no bracket and no semicolon at the start of a class, so it is skipped. -/
theorem Token.nestedExtent_ne_zero {t : Token} {ts : List Token}
    (ht : t.kind = .encapsulatedKw ∨ t.kind ∈ Kind.classPrefixStart) :
    nestedExtent 0 (t :: ts) ≠ 0 := by
  simp only [Kind.classPrefixStart, List.mem_cons, List.not_mem_nil, or_false] at ht
  rcases ht with h | h | h | h | h | h | h | h | h | h | h | h | h | h <;>
    simp [nestedExtent, opensGroup, closesGroup, h]

namespace Nonterminal

open Production Lookahead

/-- A rule that is certain to read has a token to read. -/
theorem ahead_ne_nil_of_reads {rule : Nonterminal} {v : Lookahead} (h : rule.reads v = true) :
    v.ahead ≠ [] := by
  cases rule <;> simp only [reads, Bool.or_eq_true, Bool.false_eq_true] at h
  case classPrefixes => exact ahead_ne_nil_of_seesAny h (by decide)
  case classDefinition => exact ahead_ne_nil_of_atClassDefinition h
  case classDefinitionClause =>
    exact h.elim (ahead_ne_nil_of_sees · (by decide)) ahead_ne_nil_of_atClassDefinition
  case equationSection | algorithmSection =>
    exact h.elim (ahead_ne_nil_of_sees · (by decide)) (ahead_ne_nil_of_sees · (by decide))
  case elseIfClause | elseWhenClause => simpa using h

/-! ## Ranks -/

section

variable {rule : Nonterminal} {index : Spot} {context : Context} {constructs : List OpenConstruct}

theorem rank_nil (rule : Nonterminal) :
    rule.rank ⟨[], index, context, constructs⟩ = rule.height := by
  unfold rank
  rw [if_neg (by simp), if_neg fun h => ahead_ne_nil_of_atClassDefinition h.2 rfl]

theorem rank_cons (rule : Nonterminal) {t : Token} {ts : List Token} :
    rule.rank ⟨t :: ts, index, context, constructs⟩ =
      if rule.shiftsFirst = true then 0
      else if rule = classDefinition ∧
        (Lookahead.mk (t :: ts) index context constructs).atClassDefinition then 2
      else rule.height := by
  simp [rank]

end

section

attribute [local simp]
  Grammar.name Grammar.typeSpecifier Grammar.componentReference Grammar.componentReferencePart
  Grammar.arraySubscripts Grammar.subscript Grammar.expression Grammar.ifExpression
  Grammar.simpleExpression Grammar.band Grammar.unary Grammar.operand Grammar.primary
  Grammar.callArguments Grammar.functionArguments Grammar.functionArgument Grammar.namedArgument
  Grammar.partialApplication Grammar.forIndex Grammar.parenthesized Grammar.arrayConcatenation
  Grammar.arrayConstructor Grammar.expressionList Grammar.leftmost Grammar.operation
  Grammar.elseBranch Grammar.firstArgument Grammar.argumentsAfterNamed Grammar.forIndices
  Grammar.single

attribute [local simp]
  Grammar.descriptionString Grammar.annotationClause Grammar.comment Grammar.modification
  Grammar.modificationExpression Grammar.classModification Grammar.classOrInheritanceModification
  Grammar.inheritanceModification Grammar.connectClause Grammar.argument
  Grammar.elementModification Grammar.elementRedeclaration Grammar.elementReplaceable
  Grammar.redeclaredElement Grammar.componentClause1 Grammar.argumentGroup
  Grammar.elements Grammar.element Grammar.importClause Grammar.extendsClause
  Grammar.constrainingClause Grammar.namedElementClause Grammar.typePrefix Grammar.componentClause
  Grammar.componentDeclaration Grammar.declaration Grammar.importPath

attribute [local simp]
  Grammar.storedDefinition Grammar.withinClause Grammar.classDefinitionClause
  Grammar.classDefinition Grammar.classPrefixes Grammar.longClassSpecifier Grammar.classBody
  Grammar.shortClassSpecifier Grammar.enumerationLiteral Grammar.derClassSpecifier
  Grammar.externalFunctionClause Grammar.externalFunctionCall Grammar.expectClassKind
  Grammar.classEnd Grammar.classSection Grammar.enumeration Grammar.derivedType

attribute [local simp]
  Grammar.equationSection Grammar.algorithmSection Grammar.sectionBody Grammar.body Grammar.item
  Grammar.equation Grammar.simpleEquation Grammar.specialEquation Grammar.connectEquation
  Grammar.statement Grammar.keywordStatement Grammar.referenceStatement
  Grammar.destructuringAssignment Grammar.ifBlock Grammar.elseIfClause Grammar.elseClause
  Grammar.whenBlock Grammar.elseWhenClause Grammar.forBlock Grammar.whileBlock Grammar.itemEnd
  Grammar.finishBlock Grammar.blockEnd Grammar.missingBlockEnd Grammar.strayEnd
  Grammar.clauseHeadAsError Grammar.clauseAfterElse

variable {limit : Nat} {v : Lookahead} {family : Family}

@[simp] theorem tame_missingExpression : Grammar.missingExpression.Tame := by
  simp [Grammar.missingExpression]

@[simp] theorem heads_missingExpression : Grammar.missingExpression.Heads limit v := by
  simp [Grammar.missingExpression]

@[simp] theorem reports_missingExpression :
    Grammar.missingExpression.Reports Code.Grammatical := by
  simp [Grammar.missingExpression]

@[simp] theorem tame_strayClause : (Grammar.strayClause family).Tame := by
  simp [Grammar.strayClause]
  intro v
  split <;> simp

/-- A stray clause is read from its keyword on. -/
@[simp] theorem heads_strayClause (h : v.ahead ≠ []) :
    (Grammar.strayClause family).Heads limit v := by
  simp [Grammar.strayClause, h]
  split <;> simp

@[simp] theorem reports_strayClause :
    (Grammar.strayClause family).Reports Code.Grammatical := by
  simp [Grammar.strayClause]
  intro v
  split <;> simp

/-- An operation starts with its operator. -/
theorem tame_band (least : Nat) : (Grammar.band least).Tame := by
  simp only [Grammar.band, Grammar.leftmost, Tame, tame_seq_cons, tame_seq_nil, and_true]
  refine ⟨fun v => by split <;> simp, fun before => ⟨?_, fun v hs hm => ?_⟩⟩
  · simp only [Grammar.operation, Tame]
    intro v
    split <;> simp
  simp only [Grammar.operation, MayStall] at hm
  split at hm
  · rename_i hl
    rw [hl] at hs
    cases hs
  · exact ahead_ne_nil_of_operator hs hm.2.1

theorem tame_storedDefinition : Grammar.storedDefinition.Tame := by
  simp only [Grammar.storedDefinition, tame_node, tame_seq_cons, tame_before, Tame, tame_ite,
    tame_skipUntil, MayStall, mayStall_ite]
  refine ⟨True.intro, fun _ => ⟨by simp, fun v he hm => ?_⟩, True.intro⟩
  cases hm with
  | inl h => simp [reads, h.1] at h
  | inr h => simp [mayStall_skipUntil h.2] at he

/-- A section of a class starts with its keyword. -/
theorem tame_classBody : Grammar.classBody.Tame := by
  simp only [Grammar.classBody, Grammar.classSection, tame_seq_cons, Tame]
  refine ⟨by simp, fun _ => ⟨fun v => by split <;> simp, ?_⟩, True.intro⟩
  rintro ⟨_ | ⟨t, ts⟩, _, _, _⟩ hs hm
  · simp [Grammar.atClassSection, kind, Token.headKind] at hs
  · simp only [MayStall, kind, Token.headKind] at hm
    split at hm <;> simp [reads, sees, kind, Token.headKind, *] at hm

theorem production_tame (rule : Nonterminal) : rule.production.Tame := by
  cases rule <;> simp only [production]
  case band least => exact tame_band least
  case storedDefinition => exact tame_storedDefinition
  case classBody => exact tame_classBody
  case name => simpa using fun _ => ahead_ne_nil_of_continuesChain
  case componentReference =>
    simpa using fun v hc hn => absurd hn (ahead_ne_nil_of_continuesChain hc)
  case ifExpression | functionArguments | arrayConstructor =>
    simp only [Grammar.ifExpression, Grammar.functionArguments, Grammar.arrayConstructor]
    simp; grind [ahead_ne_nil_of_sees]
  case ifBlock | whenBlock =>
    simp; grind [ahead_ne_nil_of_sees, ahead_ne_nil_of_clauseAttaches, reads]
  case item family => cases family <;> simp
  case longClassSpecifier => simp; intros; (repeat' split) <;> simp
  case primary | argument | element | importClause | classDefinition | classPrefixes | equation
      | simpleEquation | statement | referenceStatement =>
    simp; intro v; split <;> simp
  all_goals simp

/-! ## Calls rank below the caller -/

section

attribute [local simp] height shiftsFirst rank_nil rank_cons sees kind Token.headKind

variable {index : Spot} {context : Context} {constructs : List OpenConstruct}

theorem heads_at_end (rule : Nonterminal) :
    rule.production.Heads rule.height ⟨[], index, context, constructs⟩ := by
  cases rule <;> simp only [production]
  case band => simp [Band.unaryLevel?_endOfInput, Band.binaryLevel?_endOfInput]
  case elements | sectionBody | body => exact heads_repeatUntil (by simp [atEnd])
  case argument => simp [-kind]; split <;> simp [-kind]
  case importClause | classDefinition => simp; split <;> simp
  case item family => cases family <;> simp
  case namedElementClause => simp [atClassDefinition, seesAny, Kind.classPrefixStart]
  all_goals simp

theorem heads_before_token (rule : Nonterminal) (hs : rule.shiftsFirst = false) {t : Token}
    {ts : List Token} :
    rule.production.Heads rule.height ⟨t :: ts, index, context, constructs⟩ := by
  cases rule <;> simp only [production]
  case band =>
    simp only [Grammar.band, Grammar.leftmost, Grammar.operation, Heads, heads_seq_cons]
    refine ⟨by split <;> simp, fun _ => ⟨fun _ => ?_, fun _ => True.intro⟩⟩
    split <;> simp
  case elements | sectionBody | body => exact heads_repeatUntil (by simp)
  case argument => simp [-kind]; split <;> simp [-kind]
  case primary | element | classPrefixes | classBody | equation | simpleEquation | statement
      | referenceStatement =>
    simp; split <;> simp
  case classDefinition => simp; intros; split <;> simp
  case item family => cases family <;> simp
  case namedElementClause => simp; split <;> simp_all
  case classDefinitionClause => simp; intro _; split <;> simp
  all_goals first | cases hs; done | simp

theorem heads_of_shiftsFirst (rule : Nonterminal) (hs : rule.shiftsFirst = true) {v : Lookahead}
    (hv : v.ahead ≠ []) : rule.production.Heads 0 v := by
  cases rule <;> first | cases hs; done | simp only [production]
  all_goals simp [hv]

/-- At the start of a class its prefixes read, so the specifier comes after a token. -/
theorem heads_classDefinition {v : Lookahead} (h : v.atClassDefinition = true) :
    Grammar.classDefinition.Heads 2 v := by
  obtain ⟨_ | ⟨t, ts⟩, _, _, _⟩ := v
  · exact absurd rfl (ahead_ne_nil_of_atClassDefinition h)
  · rename_i index context constructs
    simp only [Grammar.classDefinition, heads_deeper, heads_node, heads_seq_cons, heads_accept,
      mayStall_accept, Heads, MayStall, true_and]
    intro hk
    have hp : seesAny ⟨t :: ts, index, .classDefinition, constructs⟩ Kind.classPrefixStart = true :=
      (Bool.or_eq_true _ _ ▸ h).resolve_left fun hs => by simpa using hk hs
    simp [reads, hp]

end

theorem production_heads (rule : Nonterminal) (v : Lookahead) :
    rule.production.Heads (rule.rank v) v := by
  obtain ⟨_ | ⟨t, ts⟩, _, _, _⟩ := v
  · rw [rank_nil]
    exact heads_at_end rule
  · rw [rank_cons]
    split
    · rename_i hs
      exact heads_of_shiftsFirst rule hs (by simp)
    · rename_i hs
      split
      · rename_i hc
        rw [hc.1]
        exact heads_classDefinition hc.2
      · exact heads_before_token rule (Bool.eq_false_iff.mpr hs)

theorem reads_classPrefixes {v : Lookahead} (h : v.seesAny Kind.classPrefixStart = true) :
    ¬ Grammar.classPrefixes.MayStall v := by
  have hv := ahead_ne_nil_of_seesAny h (by decide)
  simp only [seesAny, Kind.classPrefixStart, List.contains_eq_mem, List.mem_cons,
    List.not_mem_nil, or_false, decide_eq_true_eq] at h
  rcases h with h | h | h | h | h | h | h | h | h | h | h | h | h <;> simp [sees, h, hv]

theorem reads_classDefinition {v : Lookahead} (h : v.atClassDefinition = true) :
    ¬ Grammar.classDefinition.MayStall v := by
  obtain ⟨_ | ⟨t, ts⟩, index, context, constructs⟩ := v
  · exact absurd rfl (ahead_ne_nil_of_atClassDefinition h)
  simp only [atClassDefinition, Bool.or_eq_true, sees, seesAny, kind, Token.headKind, beq_iff_eq,
    List.contains_eq_mem, decide_eq_true_eq] at h
  have hn : Token.nestedExtent 0 (t :: ts) ≠ 0 := Token.nestedExtent_ne_zero h
  simp [reads, sees, seesAny, kind, Token.headKind, hn]
  grind

theorem production_reads (rule : Nonterminal) {v : Lookahead} (h : rule.reads v = true) :
    ¬ rule.production.MayStall v := by
  have hv := ahead_ne_nil_of_reads h
  cases rule <;> simp only [production, reads, Bool.false_eq_true] at h ⊢
  case classPrefixes => exact reads_classPrefixes h
  case classDefinition => exact reads_classDefinition h
  case classDefinitionClause => simp [reads]; grind
  case equationSection | algorithmSection => simp; grind
  all_goals simp [reads, hv]

section

attribute [local simp] missingCode Diagnostic.ofCode Grammar.endNameMismatch

theorem production_reports (rule : Nonterminal) : rule.production.Reports Code.Grammatical := by
  cases rule <;> simp only [production]
  case item family => cases family <;> simp
  case longClassSpecifier => simp; intros; (repeat' split) <;> simp
  case band => simp; exact ⟨fun v => by split <;> simp, fun _ v => by split <;> simp⟩
  case primary | argument | element | importClause | classDefinition | classPrefixes | classBody
      | equation | simpleEquation | statement | referenceStatement =>
    simp; intro v; split <;> simp
  all_goals simp

end

end

theorem orderly (rule : Nonterminal) : rule.Orderly where
  tame := production_tame rule
  heads := production_heads rule
  reads _ := production_reads rule
  reports := production_reports rule

end Nonterminal

end Modelica
