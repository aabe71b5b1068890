import Modelica.Fragment
import Modelica.Proofs.Brackets
import Modelica.Proofs.Bearing
import Modelica.Proofs.Endings
import Modelica.Proofs.Findings
import Modelica.Proofs.Onward
import Modelica.Proofs.Refusals
import Modelica.Proofs.Seats
import Modelica.Proofs.Singles

/-!
# The rules meet what is asked of them

Every rule of the grammar is checked against the predicates on productions and three demands.

* `Nonterminal.gains_production`: a rule is certain to read a token where the table says so;
* `Nonterminal.bears_production`: it puts nodes over tokens only, unless it reports an error;
* `Nonterminal.tells_production`: its errors tell what comes;
* `Nonterminal.narrow_production`: it puts one bracket at most around what it calls;
* `Nonterminal.lone_production`: it puts a literal over a token of its own;
* `Nonterminal.ending_production`: it looks for the `end` of the classes it reads;
* `Nonterminal.prompt_production`: its diagnostics are at the place ahead;
* `Nonterminal.severe_production`: it reports errors only, if it is a plain rule;
* `Nonterminal.onward_production`: it reports nothing at what it has read before;
* `Nonterminal.refuses_production`: where it may not go deeper it reports an error;
* `Nonterminal.layer_production`: it calls rules it may call, where they may be called;
* `Nonterminal.respects_production`: it sees of the open blocks what its layer may see;
* `Nonterminal.tidy_production`: it puts clauses into nodes of their blocks;
* `Nonterminal.quiet_production`: it reports orphans where it reads a stray clause;
* `FragmentRule.bears_scratch`, `FragmentRule.tells_scratch`, `FragmentRule.lone_scratch`,
  `FragmentRule.prompt_scratch`, `FragmentRule.layer_scratch`, `FragmentRule.respects_scratch`: the
  same for fragments.
-/

namespace Modelica

namespace Nonterminal

open Production Lookahead

section

attribute [local simp]
  Grammar.name Grammar.typeSpecifier Grammar.componentReference Grammar.componentReferencePart
  Grammar.arraySubscripts Grammar.subscript Grammar.expression Grammar.ifExpression
  Grammar.simpleExpression Grammar.band Grammar.unary Grammar.operand Grammar.primary
  Grammar.callArguments Grammar.functionArguments Grammar.functionArgument Grammar.namedArgument
  Grammar.partialApplication Grammar.forIndex Grammar.parenthesized Grammar.arrayConcatenation
  Grammar.arrayConstructor Grammar.expressionList Grammar.leftmost Grammar.operation
  Grammar.elseBranch Grammar.firstArgument Grammar.argumentsAfterNamed Grammar.forIndices
  Grammar.single Grammar.missingExpression

attribute [local simp]
  Grammar.descriptionString Grammar.annotationClause Grammar.comment Grammar.modification
  Grammar.modificationExpression Grammar.classModification Grammar.classOrInheritanceModification
  Grammar.inheritanceModification Grammar.connectClause Grammar.argument
  Grammar.elementModification Grammar.elementRedeclaration Grammar.elementReplaceable
  Grammar.redeclaredElement Grammar.componentClause1 Grammar.argumentGroup
  Grammar.elements Grammar.element Grammar.importClause Grammar.extendsClause
  Grammar.constrainingClause Grammar.namedElementClause Grammar.typePrefix Grammar.componentClause
  Grammar.componentDeclaration Grammar.declaration Grammar.importPath

attribute [local simp]
  Grammar.storedDefinition Grammar.withinClause Grammar.classDefinitionClause
  Grammar.classDefinition Grammar.classPrefixes Grammar.longClassSpecifier Grammar.classBody
  Grammar.shortClassSpecifier Grammar.enumerationLiteral Grammar.derClassSpecifier
  Grammar.externalFunctionClause Grammar.externalFunctionCall Grammar.expectClassKind
  Grammar.classSection Grammar.enumeration Grammar.derivedType

attribute [local simp]
  Grammar.equationSection Grammar.algorithmSection Grammar.sectionBody Grammar.body Grammar.item
  Grammar.equation Grammar.simpleEquation Grammar.specialEquation Grammar.connectEquation
  Grammar.statement Grammar.keywordStatement Grammar.referenceStatement
  Grammar.destructuringAssignment Grammar.ifBlock Grammar.elseIfClause Grammar.elseClause
  Grammar.whenBlock Grammar.elseWhenClause Grammar.forBlock Grammar.whileBlock Grammar.itemEnd
  Grammar.finishBlock Grammar.blockEnd Grammar.missingBlockEnd Grammar.strayEnd
  Grammar.clauseHeadAsError Grammar.clauseAfterElse

variable {family : Family}

/-! ## Tokens in nodes, and what errors say -/

section

attribute [local simp]
  Grammar.missingExpression Diagnostic.ofCode Diagnostic.isError gains bears Production.Fails
  fails_fault fails_missing

theorem gains_strayClause {v : Lookahead} : (Grammar.strayClause family).Gains v := by
  simp only [Grammar.strayClause, Gains, gains_seq_cons]
  exact .inl (by split <;> exact gains_fault)

theorem bears_strayClause {v : Lookahead} {filled : Prop} :
    (Grammar.strayClause family).Bears v filled := by
  simp only [Grammar.strayClause, Bears, bears_seq_cons]
  exact ⟨by split <;> simp, .inl (by split <;> exact fails_fault)⟩

theorem bears_classEnd {name : Option String} {opened : Spot} {v : Lookahead} {filled : Prop} :
    (Grammar.classEnd name opened).Bears v filled := by
  cases name <;> simp [Grammar.classEnd]

attribute [local simp] gains_strayClause bears_strayClause bears_classEnd

/-- A rule is certain to read a token where the table says so. -/
theorem gains_production {rule : Nonterminal} {v : Lookahead} (h : rule.gains v) :
    rule.production.Gains v := by
  cases rule <;> simp only [production]
  case comment | typePrefix | classBody | storedDefinition | sectionBody | body => exact h.elim
  case elements =>
    have he : v.atEnd = false := Bool.eq_false_iff.mpr fun he => by
      simp [gains, atSectionBoundary, kind_of_sees he] at h
    exact gains_repeatUntil he h True.intro
  case elseClause => exact .inl h
  case item family => cases family <;> simp
  case band => simp; exact .inl (by split <;> simp)
  case subscript | modificationExpression | descriptionString => simp +contextual [sees]
  case primary | argument | element | equation | statement => simp; intros; split <;> simp [*]
  case classPrefixes => simp; exact .inr fun _ _ => by split <;> simp [*]
  all_goals simp [sees]

/-- A rule puts nodes over tokens only, unless it reports an error. -/
theorem bears_production {rule : Nonterminal} {v : Lookahead} (h : rule.bears v) :
    rule.production.Bears v False := by
  cases rule <;> simp only [production]
  case storedDefinition => exact absurd rfl h.1
  case elseClause family => simpa using h.2 family rfl
  case item family => cases family <;> simp
  case subscript | modificationExpression | descriptionString | externalFunctionClause
      | ifBlock =>
    simp +contextual [sees]
  case band => simp; exact ⟨by split <;> simp, .inr fun _ _ _ _ => by split <;> simp⟩
  case classDefinition => simp; exact .inr fun _ _ => by split <;> simp
  case classPrefixes =>
    simp; exact ⟨.inr fun _ _ => by split <;> simp, .inr fun _ _ => by split <;> simp [*]⟩
  case classBody => simp; exact .inr fun _ _ _ _ _ => by split <;> simp [*]
  case primary | argument | element | importClause | equation | simpleEquation | statement
      | referenceStatement =>
    simp; intros; split <;> simp [*]
  all_goals simp

end

section

attribute [local simp]
  Grammar.missingExpression Diagnostic.ofCode Diagnostic.isError sees_eq_false seesAny_eq_false
  tells_found tells_missing

theorem tells_strayClause {v : Lookahead} : (Grammar.strayClause family).Tells v := by
  simp only [Grammar.strayClause, Tells, tells_seq_cons]
  exact ⟨by split <;> simp, fun _ _ _ => by simp⟩

theorem tells_classEnd {name : Option String} {opened : Spot} {v : Lookahead} :
    (Grammar.classEnd name opened).Tells v := by
  cases name <;> simp +contextual [Grammar.classEnd, Grammar.endNameMismatch]

/-- After the last `elseif` branch an `else` is missing, and no `elseif` comes. -/
theorem tells_elseBranch {opened : Spot} {v : Lookahead} (h : v.sees .elseifKw = false) :
    (Grammar.elseBranch opened).Tells v := by
  simp_all +contextual [Grammar.elseBranch]

theorem tells_finishBlock {construct : Construct} {opened : Spot} {v : Lookahead} :
    (Grammar.finishBlock construct opened).Tells v := by
  simp only [Grammar.finishBlock, Grammar.blockEnd, Grammar.missingBlockEnd, Tells, tells_ite,
    tells_seq_cons]
  refine ⟨fun h => ?_, fun h => ⟨fun _ => by simp, fun hk => ⟨fun _ => ?claimed, fun hc => ?_⟩⟩⟩
  · simp_all
  all_goals have he : v.kind = .endKw := by simpa [sees] using h
  case claimed =>
    exact fun _ => ⟨rfl, .claimed rfl rfl (by simp [found, atEnd, sees, he]) he⟩
  have hb : v.atBlockEnd = true := by simp_all [Grammar.endClaimedOutside]
  refine ⟨fun _ => ⟨rfl, ?_⟩, by simp⟩
  exact .mismatched rfl rfl rfl hk (mem_blockKeywords_of_atBlockEnd hb) he

/-- Only a kind that is an operator chains relations. -/
theorem tells_operation {least : Nat} {previous : Option Lookahead} {v : Lookahead} :
    (Grammar.operation least previous).Tells v := by
  simp only [Grammar.operation, Tells]
  split
  · simp
  next level h =>
    have hk : v.kind ≠ .endOfInput := fun he => by
      rw [he, Band.binaryLevel?_endOfInput] at h
      cases h
    simp [tells_kind rfl hk]

theorem tells_expectClassKind {kinds : List Kind} {v : Lookahead} :
    (Grammar.expectClassKind kinds).Tells v :=
  tells_ite.mpr ⟨fun _ => True.intro, fun h => tells_missing <|
    seesAny_eq_false.mp (Bool.eq_false_iff.mpr h)⟩

attribute [local simp] tells_strayClause tells_classEnd tells_elseBranch tells_finishBlock
  tells_operation tells_expectClassKind

/-- The errors of a rule tell what comes. -/
theorem tells_production {rule : Nonterminal} {v : Lookahead} : rule.production.Tells v := by
  cases rule <;> simp only [production]
  case item family => cases family <;> simp
  case band => simp [-Grammar.operation]; split <;> simp
  case importClause => simp; intros; split <;> simp +contextual
  case classPrefixes =>
    simp [-Grammar.expectClassKind]
    intro ahead index _
    split <;> try simp [-Grammar.expectClassKind]
    exact tells_missing (by simp_all [Grammar.classKinds])
  case simpleEquation | referenceStatement =>
    simp
    intro ahead index _
    split <;> simp_all [tells_kind]
  case primary | argument | element | classDefinition | classBody | equation | statement =>
    simp; intros; split <;> simp
  all_goals simp +contextual [-Grammar.elseBranch, -Grammar.finishBlock]

end

/-! ## Brackets, literals and the ends of classes -/

attribute [local simp]
  before accept acceptAny expect expectThen separated missing fault repeatUntil skipUntil
  skipThroughSemicolon skipNested deeper node

section

attribute [local simp]
  Grammar.classEnd Kind.brackets fits Family.ifKind Family.elseIfKind Family.elseKind
  Family.whenKind Family.elseWhenKind Family.forKind

theorem narrow_strayClause {fresh : Bool} : (Grammar.strayClause family).Narrow fresh true := by
  simp [Grammar.strayClause]
  intro v
  split <;> simp

attribute [local simp] narrow_strayClause

end

section

attribute [local simp]
  Grammar.classEnd SparesLiterals Kind.literalTokens Family.ifKind Family.elseIfKind
  Family.elseKind Family.whenKind Family.elseWhenKind Family.forKind

theorem literalTokens_importKind (v : Lookahead) : v.importKind.literalTokens = [] := by
  rcases v.importKind_cases with h | h | h <;> rw [h] <;> rfl

theorem lone_strayClause {fresh : Bool} {ahead : Kind} :
    (Grammar.strayClause family).Lone fresh ahead := by
  simp [Grammar.strayClause]
  intro v
  split <;> simp

attribute [local simp] lone_strayClause

/-- A rule puts a literal over a token of its own. -/
theorem lone_production {rule : Nonterminal} (h : rule.SparesLiterals) (fresh : Bool)
    (ahead : Kind) : rule.production.Lone fresh ahead := by
  cases rule <;> simp only [production]
  case item family | ifBlock family | elseIfClause family | elseClause family | whenBlock family
      | elseWhenClause family | forBlock family => cases family <;> simp
  case keywordStatement kind => simp_all
  case longClassSpecifier => simp; intros; (repeat' split) <;> simp
  case band => simp; exact ⟨fun v => by split <;> simp, fun _ v => by split <;> simp⟩
  case importClause =>
    simp only [Grammar.importClause, node, Lone, if_pos (literalTokens_importKind _)]
    simp; intro v _; split <;> simp
  case descriptionString | externalFunctionClause => simp +contextual [sees]
  case primary | argument | element | classDefinition | classPrefixes | classBody
      | equation | simpleEquation | statement | referenceStatement =>
    simp; intro v; split <;> simp [*]
  all_goals simp

end

section

attribute [local simp]
  Grammar.endNameMismatch Diagnostic.ofCode missingCode Family.ifKind Family.elseIfKind
  Family.elseKind Family.whenKind Family.elseWhenKind Family.forKind

theorem ending_classEnd {name : Option String} {opened : Spot} {v : Lookahead} :
    (Grammar.classEnd name opened).Meets .ending v := by
  cases name <;> simp [Grammar.classEnd]

theorem ending_strayClause {v : Lookahead} : (Grammar.strayClause family).Meets .ending v := by
  simp [Grammar.strayClause]
  split <;> simp

theorem importKind_ne_longClassSpecifier (v : Lookahead) :
    v.importKind ≠ .longClassSpecifier := by
  rcases v.importKind_cases with h | h | h <;> rw [h] <;> decide

attribute [local simp] ending_classEnd ending_strayClause importKind_ne_longClassSpecifier

/-- Every rule looks for the `end` of the classes it reads. -/
theorem ending_production {rule : Nonterminal} {v : Lookahead}
    (h : rule ≠ .keywordStatement .longClassSpecifier) : rule.production.Meets .ending v := by
  cases rule <;> simp only [production]
  case item family | ifBlock family | elseIfClause family | elseClause family | whenBlock family
      | elseWhenClause family | forBlock family => cases family <;> simp
  case band => simp; exact ⟨by split <;> simp, fun _ _ _ _ => by split <;> simp⟩
  case keywordStatement kind => simp_all
  case longClassSpecifier =>
    simp
    exact .inr fun v => .inl ⟨_, _, rfl⟩
  case importClause => simp; intros; split <;> simp
  case primary | argument | element | classDefinition | classPrefixes | classBody
      | equation | simpleEquation | statement | referenceStatement =>
    simp; intros; split <;> simp
  all_goals simp

end

/-! ## Diagnostics -/

section

attribute [local simp] Diagnostic.ofCode

theorem prompt_classEnd {name : Option String} {opened : Spot} {v : Lookahead} :
    (Grammar.classEnd name opened).Meets .prompt v :=
  ⟨True.intro, fun h => absurd ⟨_, _, rfl⟩ h⟩

theorem prompt_strayClause {v : Lookahead} :
    (Grammar.strayClause family).Meets .prompt v := by
  simp [Grammar.strayClause]
  intros; split <;> simp

attribute [local simp] prompt_classEnd prompt_strayClause

theorem prompt_production (rule : Nonterminal) (v : Lookahead) :
    rule.production.Meets .prompt v := by
  cases rule <;> simp only [production]
  case item family => cases family <;> simp
  case band => simp; exact ⟨fun _ => by split <;> simp, fun _ _ _ _ _ => by split <;> simp⟩
  case importClause => simp; intros; split <;> simp
  case primary | argument | element | classDefinition | classPrefixes | classBody
      | equation | simpleEquation | statement | referenceStatement =>
    simp; intros; split <;> simp
  all_goals simp

end

section

attribute [local simp] Diagnostic.ofCode Diagnostic.isError layer missingCode

/-- Plain rules report errors only. -/
theorem severe_production {rule : Nonterminal} (h : rule.layer = .plain) (v : Lookahead) :
    rule.production.Meets .severe v := by
  cases rule <;> cases h <;> simp only [production]
  case band => simp; exact ⟨by split <;> simp, fun _ _ _ _ => by split <;> simp⟩
  case importClause => simp; intros; split <;> simp
  case primary | argument | classPrefixes | simpleEquation | referenceStatement =>
    simp; intros; split <;> simp
  all_goals simp

end

section

attribute [local simp] Diagnostic.ofCode Diagnostic.isError

/-- The end of a class relates a warning to the place where the class was opened. -/
theorem onward_classEnd {name : Option String} {opened n : Spot} (h : opened ≤ n) :
    (Grammar.classEnd name opened).Onward n := by
  simp [Grammar.classEnd, Grammar.endNameMismatch]
  intro v hv _ w hw _
  cases name with
  | none => simp
  | some name => simpa using fun _ => Nat.le_trans h (Nat.le_trans hv hw)

theorem onward_strayClause {n : Spot} : (Grammar.strayClause family).Onward n := by
  simp [Grammar.strayClause]
  intros; split <;> simp

attribute [local simp] onward_strayClause

theorem onward_production (rule : Nonterminal) (n : Spot) : rule.production.Onward n := by
  cases rule <;> simp only [production]
  case item family => cases family <;> simp
  case band => simp; exact ⟨fun _ _ => by split <;> simp, fun _ _ _ => by split <;> simp⟩
  case longClassSpecifier =>
    simp
    exact fun start _ v hv => onward_classEnd hv
  case importClause => simp; intros; split <;> simp
  case primary | argument | element | classDefinition | classPrefixes | classBody
      | equation | simpleEquation | statement | referenceStatement =>
    simp; intros; split <;> simp
  all_goals simp

end

section

attribute [local simp]
  Grammar.classEnd Production.Fails Diagnostic.ofCode Diagnostic.isError

theorem refuses_strayClause : (Grammar.strayClause family).Refuses := by
  simp [Grammar.strayClause]
  intro v
  split <;> simp

attribute [local simp] refuses_strayClause

/-- A rule that may not go deeper reports it. -/
theorem refuses_production (rule : Nonterminal) : rule.production.Refuses := by
  cases rule <;> simp only [production]
  case item family => cases family <;> simp
  case band => simp; exact ⟨fun v => by split <;> simp, fun _ v => by split <;> simp⟩
  case longClassSpecifier => simp; intros; (repeat' split) <;> simp
  case importClause => simp; intro v; split <;> simp
  case primary | argument | element | classDefinition | classPrefixes | classBody
      | equation | simpleEquation | statement | referenceStatement =>
    simp; intro v; split <;> simp
  all_goals simp

end

/-! ## Layers and blocks -/

section

attribute [local simp]
  Grammar.classEnd Grammar.endNameMismatch Diagnostic.ofCode Diagnostic.IsOrphan Layer.admits_plain
  Layer.admits_classes Layer.admits_items_nil Layer.admits_items_cons Layer.Calls
  layer Seen entered_iff Kind.owner? Kind.clauseParent? missingCode Family.category Family.ifKind
  Family.elseIfKind Family.elseKind Family.whenKind Family.elseWhenKind Family.forKind

/-- Where blocks of one category are open, a stray clause is never an ambiguous one. -/
theorem layer_strayClause {v : Lookahead} (ha : (Layer.items family).Admits v.constructs)
    (hk : (clauseOwner? v.kind).isSome) (hu : Unclaimed v.constructs v.kind) :
    (Grammar.strayClause family).Meets (Layer.items family).demand v := by
  have hr : v.clauseResolution family.category ≠ .ambiguous := resolveClause_ne_ambiguous ha
  have he : v.atEnd = false := by
    refine Bool.eq_false_iff.mpr fun he => ?_
    rw [beq_iff_eq.mp he] at hk
    cases hk
  simp only [Grammar.strayClause, Meets, meets_seq_cons]
  refine ⟨ha, fun _ => ⟨?_, by simp [ha]⟩⟩
  simp [ha, hk, hu, found, he]

theorem layer_importKind {v : Lookahead} :
    Kind.owner? v.importKind = none ∧ Kind.clauseParent? v.importKind = none := by
  rcases v.importKind_cases with h | h | h <;> rw [h] <;> exact ⟨rfl, rfl⟩

theorem layer_expect {k : Kind} {v : Lookahead} : (expect k).Meets Layer.plain.demand v := by
  unfold expect missing missingCode
  split <;> simp

theorem layer_finishBlock {construct : Construct} {opened : Spot} {v : Lookahead} :
    (Grammar.finishBlock construct opened).Meets Layer.plain.demand v := by
  simp

theorem layer_clauseHeadAsError {v : Lookahead} :
    Grammar.clauseHeadAsError.Meets Layer.plain.demand v := by
  simp

theorem layer_production {rule : Nonterminal} {v : Lookahead} (h : rule.Entered v) :
    rule.production.Meets rule.layer.demand v := by
  obtain ⟨ha, hs⟩ := h
  cases rule <;> simp only [production]
  case band => simp; exact ⟨by split <;> simp, fun _ _ _ _ => by split <;> simp⟩
  case importClause =>
    simp [layer_importKind, -Kind.owner?, -Kind.clauseParent?]; intros; split <;> simp
  case keywordStatement kind => rcases hs with rfl | rfl <;> simp
  case primary | argument | classPrefixes | simpleEquation | referenceStatement =>
    simp; intros; split <;> simp
  case elements | namedElementClause | storedDefinition | classDefinitionClause | equationSection
      | algorithmSection =>
    have hn : v.constructs = [] := ha
    simp [hn]
  case element | classDefinition | classBody =>
    have hn : v.constructs = [] := ha
    simp [hn]; intros; split <;> simp [hn]
  case longClassSpecifier =>
    have hn : v.constructs = [] := ha
    simp [hn]; intros; (repeat' split) <;> simp
  case item family => cases family <;> simp_all
  case equation | statement =>
    simp; split <;> simp_all [layer_strayClause, clauseOwner?]
  case body family =>
    cases family <;> simp_all
    all_goals exact fun _ _ _ hb => unclaimed_of_not_bodyEnds ha hb
  case sectionBody family =>
    cases family <;> simp_all
    all_goals
      intro _ _ _ hb he
      exact unclaimed_of_not_bodyEnds ha (hb.resolve_right (Bool.eq_false_iff.mp he))
  case ifBlock family | whenBlock family =>
    cases family <;> simp_all
    all_goals exact ha
  case elseIfClause family | elseClause family | elseWhenClause family =>
    have hk := beq_iff_eq.mp hs
    cases family <;> simp_all [clauseOwner?]
    all_goals exact ⟨_, rfl⟩
  case forBlock family => cases family <;> simp_all
  case whileBlock => simp_all
  all_goals simp

end

section

attribute [local simp] Grammar.classEnd Grammar.endNameMismatch Grammar.atClassSection

theorem bodyEnds_of_alike {v : Lookahead} {constructs : List OpenConstruct}
    (h : (Layer.items family).Alike v.constructs constructs) :
    (v.withBlocks constructs).bodyEnds family.category = v.bodyEnds family.category := by
  simp [bodyEnds, clauseResolution, h.1]

theorem clauseAttaches_of_alike {v : Lookahead} {constructs : List OpenConstruct}
    (h : (Layer.items family).Alike v.constructs constructs) :
    (v.withBlocks constructs).clauseAttaches family.category =
      v.clauseAttaches family.category := by
  simp [clauseAttaches, clauseResolution, h.1]

theorem endClaimedOutside_of_alike {v : Lookahead} {constructs : List OpenConstruct}
    (h : (Layer.items family).Alike v.constructs constructs) :
    Grammar.endClaimedOutside (v.withBlocks constructs) = Grammar.endClaimedOutside v := by
  simp [Grammar.endClaimedOutside, h.2]

theorem respects_strayClause :
    (Grammar.strayClause family).Respects (Layer.items family).Alike := by
  simp only [Grammar.strayClause, Respects]
  refine ⟨fun v constructs h => ?_, fun v => ?_⟩
  · simp only [clauseResolution, h.1]
    rfl
  · simp only [respects_seq_cons]
    exact ⟨by split <;> simp, by simp, by simp⟩

theorem respects_finishBlock {construct : Construct} {opened : Spot} :
    (Grammar.finishBlock construct opened).Respects (Layer.items family).Alike := by
  simp only [Grammar.finishBlock, Grammar.blockEnd, Respects]
  refine ⟨fun v constructs h => ?_, fun v => by simp⟩
  simp [endClaimedOutside_of_alike h]

attribute [local simp] respects_strayClause respects_finishBlock

/-- A rule for items sees of the open blocks only who owns a clause of its own category and which
`end` they wait for; the other rules see nothing of them. -/
theorem respects_production (rule : Nonterminal) :
    rule.production.Respects rule.layer.Alike := by
  cases rule <;> simp only [production, layer]
  case band => simp; exact ⟨fun v => by split <;> simp, fun _ v => by split <;> simp⟩
  case primary | argument | element | importClause | classDefinition | classPrefixes
      | simpleEquation | referenceStatement | equation | statement =>
    simp; intro v; split <;> simp
  case classBody => simp; intro v; split <;> simp
  case longClassSpecifier => simp; intros; (repeat' split) <;> simp
  case item family => cases family <;> simp
  case sectionBody | body => simp +contextual [bodyEnds_of_alike]
  case ifBlock | whenBlock =>
    simp +contextual [clauseAttaches_of_alike, -Grammar.finishBlock]
  case forBlock | whileBlock => simp [-Grammar.finishBlock]
  all_goals simp

end

/-! ## Seats -/

section

attribute [local simp]
  Grammar.classEnd Grammar.endNameMismatch Diagnostic.ofCode Diagnostic.IsOrphan missingCode
  Kind.owner? Kind.clauseParent? Kind.host? Kind.seated_iff Nonterminal.clauseParent? Room.next
  Family.ifKind Family.elseIfKind Family.elseKind Family.whenKind Family.elseWhenKind
  Family.forKind

theorem tidy_strayClause {under : Option Kind} {room : Room} :
    (Grammar.strayClause family).Tidy under room := by
  simp [Grammar.strayClause]
  intro v
  split <;> simp

attribute [local simp] tidy_strayClause

/-- Every rule puts clauses into nodes of their blocks only. -/
theorem tidy_production {rule : Nonterminal} {v : Lookahead} (h : rule.Seen v) :
    rule.production.Tidy rule.clauseParent? .outside := by
  cases rule <;> simp only [production]
  case item family | elseIfClause family | elseClause family | elseWhenClause family
      | forBlock family => cases family <;> simp
  case band => simp; exact ⟨fun _ => by split <;> simp, fun _ _ => by split <;> simp⟩
  case importClause =>
    simp [layer_importKind, -Kind.owner?, -Kind.clauseParent?]; intros; split <;> simp
  case longClassSpecifier => simp; intros; (repeat' split) <;> simp
  case keywordStatement kind => rcases h with rfl | rfl <;> simp
  case primary | argument | element | classDefinition | classPrefixes | classBody | equation
      | simpleEquation | statement | referenceStatement =>
    simp; intros; split <;> simp
  case ifBlock family =>
    intro start
    refine ⟨by cases family <;> simp, fun _ => ⟨family, start, .inl rfl⟩, ?_⟩
    cases family <;> simp
  case whenBlock family =>
    intro start
    refine ⟨by cases family <;> simp, fun _ => ⟨family, start, .inr rfl⟩, ?_⟩
    cases family <;> simp
  all_goals simp

theorem quiet_strayClause {v : Lookahead} : (Grammar.strayClause family).Meets .quiet v :=
  ⟨True.intro, fun h => absurd ⟨family, rfl⟩ h⟩

attribute [local simp] quiet_strayClause

/-- Orphans are reported where stray clauses are read and nowhere else. -/
theorem quiet_production (rule : Nonterminal) (v : Lookahead) :
    rule.production.Meets .quiet v := by
  cases rule <;> simp only [production]
  case item family => cases family <;> simp
  case band => simp; exact ⟨fun _ => by split <;> simp, fun _ _ _ _ _ => by split <;> simp⟩
  case importClause => simp; intros; split <;> simp
  case primary | argument | element | classDefinition | classPrefixes | classBody | equation
      | simpleEquation | statement | referenceStatement =>
    simp; intros; split <;> simp
  case longClassSpecifier => simp; intros; (repeat' split) <;> simp
  all_goals simp

end

end

end Nonterminal

namespace FragmentRule

open Production

/-- A fragment has nodes over tokens only, unless it reports an error. A whole text may be empty. -/
theorem bears_scratch {rule : FragmentRule} (h : rule ≠ .storedDefinition) (v : Lookahead) :
    rule.scratch.Bears v False := by
  cases rule <;>
    simp_all [scratch, production, startingWith, Nonterminal.bears, Nonterminal.gains, Fails,
      fails_fault, fails_missing]

theorem tells_scratch (rule : FragmentRule) (v : Lookahead) : rule.scratch.Tells v := by
  cases rule <;>
    simp +contextual [scratch, production, startingWith, seesAny_eq_false, tells_missing]

attribute [local simp]
  scratch production startingWith missing fault node Diagnostic.ofCode Diagnostic.IsOrphan

theorem lone_scratch (rule : FragmentRule) (ahead : Kind) : rule.scratch.Lone true ahead := by
  cases rule <;> simp [Kind.literalTokens, Nonterminal.SparesLiterals]

theorem prompt_scratch (rule : FragmentRule) (v : Lookahead) : rule.scratch.Meets .prompt v := by
  cases rule <;> simp

/-- A fragment is read with no block open. -/
theorem layer_scratch (rule : FragmentRule) {v : Lookahead} (h : v.constructs = []) :
    rule.scratch.Meets Layer.classes.demand v := by
  have hu : ∀ k, Unclaimed [] k := fun _ _ _ _ hb => nomatch hb
  cases rule <;>
    simp [h, hu, Layer.admits_classes, Layer.admits_plain, Layer.admits_items_nil, Layer.Calls,
      Nonterminal.entered_iff, Nonterminal.layer, Nonterminal.Seen, Kind.owner?, Kind.clauseParent?]

theorem respects_scratch (rule : FragmentRule)
    (alike : List OpenConstruct → List OpenConstruct → Prop) : rule.scratch.Respects alike := by
  cases rule <;> simp

end FragmentRule

end Modelica
