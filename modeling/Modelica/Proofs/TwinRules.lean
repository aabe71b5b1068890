import Modelica.Proofs.Acceptance
import Modelica.Proofs.Twins

/-!
# Every rule is its own twin

Every rule of the grammar is checked against `Production.Starves` and `Production.Twin`.

* `Nonterminal.starves_production`: it needs a token where `Nonterminal.starves` says so;
* `Nonterminal.twin_inside`: while a token of the text is left, it makes the same choices in the
  text and in the setting;
* `Nonterminal.twin_edge`: so it does at the end of the text, where `Nonterminal.mayEnd` lets it
  come there;
* `Runs.in_setting`: what runs without errors on a text runs alike in the setting.
-/

namespace Modelica

namespace Band

theorem binaryLevel?_semicolon (least : Nat) : binaryLevel? .semicolon least = none := by
  have h : ∀ b ∈ table.zipIdx, ¬ b.1.holds .binary .semicolon := by decide
  simp only [binaryLevel?, Option.map_eq_none_iff, List.find?_eq_none]
  exact fun b hb => h b (List.mem_of_mem_drop hb)

theorem unaryLevel?_semicolon : unaryLevel? .semicolon = none := by decide

end Band

namespace Lookahead

variable {index : Spot} {context : Context} {constructs : List OpenConstruct}

@[simp] theorem kind_nil : (Lookahead.mk [] index context constructs).kind = .endOfInput := rfl

@[simp] theorem sees_nil {k : Kind} :
    (Lookahead.mk [] index context constructs).sees k = (.endOfInput == k) := rfl

@[simp] theorem seesAny_nil {ks : List Kind} :
    (Lookahead.mk [] index context constructs).seesAny ks = ks.contains .endOfInput := rfl

@[simp] theorem atEnd_nil : (Lookahead.mk [] index context constructs).atEnd = true := rfl

@[simp] theorem atNamedArgument_nil :
    (Lookahead.mk [] index context constructs).atNamedArgument = false := rfl

@[simp] theorem argumentHead_nil :
    (Lookahead.mk [] index context constructs).argumentHead = .endOfInput := rfl

@[simp] theorem chainHasSubscripts_nil :
    (Lookahead.mk [] index context constructs).chainHasSubscripts = false := rfl

@[simp] theorem classSpecifierKind_nil :
    (Lookahead.mk [] index context constructs).classSpecifierKind = .longClassSpecifier := rfl

@[simp] theorem continuesChain_nil :
    (Lookahead.mk [] index context constructs).continuesChain = false := rfl

end Lookahead

namespace Production

variable {p q : Production} {ps : List Production}

@[simp] theorem starves_ite {c : Prop} [Decidable c] :
    (if c then p else q).Starves ↔ (c → p.Starves) ∧ (¬ c → q.Starves) := by
  split <;> simp [*]

@[simp] theorem starves_seq_cons : (seq (p :: ps)).Starves ↔ p.Starves ∨ (seq ps).Starves := by
  cases ps with
  | nil => simp [seq]
  | cons q qs => rfl

@[simp] theorem starves_seq_nil : ¬ (seq []).Starves := id

@[simp] theorem starves_fault {code : Code} {message : String} : (fault code message).Starves :=
  fun _ _ _ => rfl

@[simp] theorem starves_missing {code : Code} {ks : List Kind} : (missing code ks).Starves :=
  fun _ _ _ => rfl

@[simp] theorem starves_expect {k : Kind} (hk : k ≠ .endOfInput) : (expect k).Starves := by
  simp [expect, hk.symm]

@[simp] theorem starves_skipUntil {code : Code} {message : String} {ks : List Kind} :
    (skipUntil code message ks).Starves := .inl starves_fault

@[simp] theorem starves_skipThroughSemicolon {code : Code} {message : String} :
    (skipThroughSemicolon code message).Starves := .inl starves_fault

theorem starves_skipNested : skipNested.Starves := .inl starves_fault

variable {v : Lookahead}

@[simp] theorem fails_ite {c : Prop} [Decidable c] :
    (if c then p else q).Fails v ↔ (c → p.Fails v) ∧ (¬ c → q.Fails v) := by
  split <;> simp [*]

@[simp] theorem fails_report_iff {fault : Diagnostic Spot} :
    (report fault).Fails v ↔ fault.isError = true := Iff.rfl

@[simp] theorem fails_seq_iff : (seq (p :: ps)).Fails v ↔ p.Fails v := by
  cases ps <;> rfl

theorem not_passes_of_fails (h : p.Fails v) : ¬ p.Passes v := by
  rintro ⟨env, r, r', rfl, hr⟩
  exact hr.not_fails h

@[simp] theorem hopeless_fault {code : Code} {message : String} :
    (fault code message).Hopeless := fun _ => fails_fault

@[simp] theorem hopeless_missing {code : Code} {ks : List Kind} : (missing code ks).Hopeless :=
  fun _ => fails_missing

theorem hopeless_skipUntil {code : Code} {message : String} {ks : List Kind} :
    (skipUntil code message ks).Hopeless := fun _ => fails_fault

theorem hopeless_skipThroughSemicolon {code : Code} {message : String} :
    (skipThroughSemicolon code message).Hopeless := fun _ => fails_fault

theorem hopeless_skipNested : skipNested.Hopeless := fun _ => fails_fault

variable {s : Setting} {edge : Bool} {n : Nat} {p' q' : Production} {ps' : List Production}

@[simp] theorem twin_ite {c : Prop} {d d' : Decidable c} :
    (@ite _ c d p q).Twin s edge n (@ite _ c d' p' q') ↔
      (c → p.Twin s edge n p') ∧ (¬ c → q.Twin s edge n q') := by
  by_cases h : c <;> simp [h]

@[simp] theorem twin_seq_one : (seq [p]).Twin s edge n (seq [p']) ↔ p.Twin s edge n p' := Iff.rfl

@[simp] theorem twin_seq_cons : (seq (p :: q :: ps)).Twin s edge n (seq (p' :: q' :: ps')) ↔
    p.Twin s false n p' ∧ (edge = true → (seq (q :: ps)).Starves ∨ p.Twin s true n p') ∧
      (¬ p.Hopeless → (seq (q :: ps)).Twin s edge (p.left n) (seq (q' :: ps'))) :=
  Iff.rfl

/-- What is certain to report an error needs no twin. -/
theorem twin_of_hopeless {f f' : Lookahead → Production} (h : (look f).Hopeless)
    (hs : (look f).Starves) : (look f).Twin s edge n (look f') :=
  ⟨fun v _ hp => absurd hp (not_passes_of_fails (h v.toLookahead)),
    fun _ _ index context _ constructs hf => absurd (hs index context constructs) hf⟩

@[simp] theorem twin_fault {code code' : Code} {message message' : String} :
    (fault code message).Twin s edge n (fault code' message') :=
  twin_of_hopeless hopeless_fault starves_fault

@[simp] theorem twin_missing {code code' : Code} {ks ks' : List Kind} :
    (missing code ks).Twin s edge n (missing code' ks') :=
  twin_of_hopeless hopeless_missing starves_missing

@[simp] theorem twin_skipUntil {code code' : Code} {message message' : String}
    {ks ks' : List Kind} :
    (skipUntil code message ks).Twin s edge n (skipUntil code' message' ks') :=
  ⟨twin_fault, fun _ => .inr twin_fault, fun h => absurd hopeless_fault h⟩

@[simp] theorem twin_skipThroughSemicolon {code code' : Code} {message message' : String} :
    (skipThroughSemicolon code message).Twin s edge n (skipThroughSemicolon code' message') :=
  ⟨twin_fault, fun _ => .inr twin_fault, fun h => absurd hopeless_fault h⟩

/-- A repetition that takes the end of the text for its own end. -/
theorem twin_repeatUntil {stop : Lookahead → Bool}
    (hs : ∀ (v : s.Place) context, stop (v.outer context) = stop v.toLookahead)
    (hp : ∀ n, p.Twin s false n p) : (repeatUntil stop p).Twin s false n (repeatUntil stop p) := by
  -- Twins may report different texts, so what a message says of the place ahead is left alone.
  simp [repeatUntil, hs, hp, -Setting.edge_kind, -Setting.Place.outer_kind]

@[simp] theorem twin_expect {k : Kind} (hk : k ≠ .endOfInput) :
    (expect k).Twin s edge n (expect k) := by
  simp [expect, Setting.Place.one_le_length, hk.symm]

@[simp] theorem not_starves_shifts {m : Nat} : ¬ (shifts m).Starves := by
  induction m with
  | zero => exact id
  | succ m ih => exact fun h => h.elim id ih

/-- With enough tokens left, so many are read in both. -/
@[simp] theorem twin_shifts {m : Nat} :
    (shifts m).Twin s edge n (shifts m) ↔ (edge = true → m ≤ n) := by
  induction m generalizing n with
  | zero => exact ⟨fun _ _ => Nat.zero_le n, fun _ => True.intro⟩
  | succ m ih =>
    have hs : ¬ shift.Hopeless := fun h => h default
    cases edge with
    | false => simp [shifts, hs, ih]
    | true =>
      simp only [shifts, Twin, Bool.false_eq_true, false_implies, true_and, not_starves_shifts,
        false_or, hs, not_false_eq_true, true_implies, left, ih]
      omega

end Production

namespace Nonterminal

open Production Lookahead

section

attribute [local simp]
  before accept acceptAny expectThen separated deeper node
  Grammar.name Grammar.typeSpecifier Grammar.componentReference Grammar.componentReferencePart
  Grammar.arraySubscripts Grammar.subscript Grammar.expression Grammar.ifExpression
  Grammar.simpleExpression Grammar.band Grammar.unary Grammar.operand Grammar.primary
  Grammar.callArguments Grammar.functionArguments Grammar.functionArgument Grammar.namedArgument
  Grammar.partialApplication Grammar.forIndex Grammar.parenthesized Grammar.arrayConcatenation
  Grammar.arrayConstructor Grammar.expressionList Grammar.leftmost Grammar.operation
  Grammar.elseBranch Grammar.firstArgument Grammar.argumentsAfterNamed Grammar.forIndices
  Grammar.single Grammar.missingExpression

attribute [local simp]
  Grammar.descriptionString Grammar.annotationClause Grammar.comment Grammar.modification
  Grammar.modificationExpression Grammar.classModification Grammar.classOrInheritanceModification
  Grammar.inheritanceModification Grammar.connectClause Grammar.argument
  Grammar.elementModification Grammar.elementRedeclaration Grammar.elementReplaceable
  Grammar.redeclaredElement Grammar.componentClause1 Grammar.argumentGroup
  Grammar.elements Grammar.element Grammar.importClause Grammar.extendsClause
  Grammar.constrainingClause Grammar.namedElementClause Grammar.typePrefix Grammar.componentClause
  Grammar.componentDeclaration Grammar.declaration Grammar.importPath

attribute [local simp]
  Grammar.storedDefinition Grammar.withinClause Grammar.classDefinitionClause
  Grammar.classDefinition Grammar.classPrefixes Grammar.longClassSpecifier Grammar.classBody
  Grammar.shortClassSpecifier Grammar.enumerationLiteral Grammar.derClassSpecifier
  Grammar.externalFunctionClause Grammar.externalFunctionCall Grammar.expectClassKind
  Grammar.classSection Grammar.enumeration Grammar.derivedType

attribute [local simp]
  Grammar.equationSection Grammar.algorithmSection Grammar.sectionBody Grammar.body Grammar.item
  Grammar.equation Grammar.simpleEquation Grammar.specialEquation Grammar.connectEquation
  Grammar.statement Grammar.keywordStatement Grammar.referenceStatement
  Grammar.destructuringAssignment Grammar.ifBlock Grammar.elseIfClause Grammar.elseClause
  Grammar.whenBlock Grammar.elseWhenClause Grammar.forBlock Grammar.whileBlock Grammar.itemEnd
  Grammar.missingBlockEnd Grammar.strayEnd
  Grammar.clauseHeadAsError Grammar.clauseAfterElse

attribute [local simp] Diagnostic.ofCode Diagnostic.isError

variable {family : Family}

theorem endOfInput_not_mem_modificationStart : .endOfInput ∉ Grammar.modificationStart := by decide

theorem semicolon_not_mem_modificationStart : .semicolon ∉ Grammar.modificationStart := by decide

theorem starves_classEnd {name : Option String} {opened : Spot} :
    (Grammar.classEnd name opened).Starves := by
  simp [Grammar.classEnd]

theorem starves_strayClause : (Grammar.strayClause family).Starves := by
  intro index context constructs
  simp only [starves_seq_cons]
  split <;> exact .inl starves_fault

theorem starves_finishBlock {construct : Construct} {opened : Spot} :
    (Grammar.finishBlock construct opened).Starves := by
  simp [Grammar.finishBlock, Grammar.blockEnd]

section

attribute [local simp] starves starves_skipNested starves_classEnd starves_finishBlock

theorem starves_production {rule : Nonterminal} (h : rule.starves = true) :
    rule.production.Starves := by
  cases rule <;> simp only [production]
  case band => simp [Band.unaryLevel?_endOfInput]
  case argument => simp
  case item family => cases family <;> simp
  case elements | comment | typePrefix | storedDefinition | classBody | sectionBody | body
      | elseClause => cases h
  all_goals simp

end

section

attribute [local simp]
  mayEnd starves endOfInput_not_mem_modificationStart semicolon_not_mem_modificationStart
  Setting.Place.one_le_length Setting.edge_continuesChain Setting.edge_chainHasSubscripts
  Setting.edge_classSpecifierKind hopeless_skipNested Band.unaryLevel?_endOfInput
  Band.unaryLevel?_semicolon Band.binaryLevel?_endOfInput Band.binaryLevel?_semicolon

variable {s : Setting} {edge : Bool} {n : Nat}

theorem hopeless_strayClause : (Grammar.strayClause family).Hopeless := by
  intro v
  simp only [Grammar.strayClause, Fails, fails_seq_iff]
  split <;> exact fails_fault

theorem twin_strayClause :
    (Grammar.strayClause family).Twin s edge n (Grammar.strayClause family) :=
  twin_of_hopeless hopeless_strayClause starves_strayClause

/-- The end of a class warns about the same names. -/
theorem twin_classEnd {name : Option String} {opened : Spot} :
    (Grammar.classEnd name opened).Twin s edge n (Grammar.classEnd name (opened + s.before)) := by
  cases name with
  | none => simp [Grammar.classEnd, left]
  | some name =>
    have hsame (w : s.Place) (context : Context) :
        Grammar.endNameMismatch (w.outer context) name (opened + s.before) =
          (Grammar.endNameMismatch w.toLookahead name opened).map (· + s.before) := by
      simp [Grammar.endNameMismatch, Diagnostic.map]
    have hleft (w : s.Place) {c : Prop} [Decidable c] {fault : Diagnostic Spot} :
        1 ≤ (if c then done else report fault).left w.ahead.length := by
      split <;> exact w.one_le_length
    simp [Grammar.classEnd, hsame, hleft]

theorem fails_missingBlockEnd {keyword : Kind} {opened : Spot} {v : Lookahead} :
    (Grammar.missingBlockEnd keyword opened).Fails v :=
  rfl

/-- A block ends with its own `end` in both. -/
theorem twin_finishBlock {construct : Construct} {opened opened' : Spot} :
    (Grammar.finishBlock construct opened).Twin s edge n
      (Grammar.finishBlock construct opened') := by
  refine ⟨fun v context hp => ?_, fun _ _ _ _ _ _ hf => absurd (by simp) hf⟩
  by_cases he : v.sees .endKw = true
  · by_cases hk : v.nth 1 = construct.endKeyword
    · have hk' : (v.outer context).nth 1 = construct.endKeyword :=
        ((v.outer_sees_and_nth context (k := .endKw) (by decide)
          (by cases construct <;> decide)).mpr ⟨he, hk⟩).2
      simp [he, hk, hk']
    · refine absurd hp (not_passes_of_fails ?_)
      simp [he, hk, fails_missingBlockEnd, -Grammar.missingBlockEnd]
  · refine absurd hp (not_passes_of_fails ?_)
    simp [he, fails_missingBlockEnd, -Grammar.missingBlockEnd]

attribute [local simp]
  twin_strayClause twin_finishBlock twin_classEnd starves_classEnd starves_finishBlock
  Setting.Place.outer_wholeDimension Setting.Place.outer_sees_and_nth
  Setting.Place.outer_positional

/-! ## Rules that choose by what is ahead -/

theorem twin_name (h : edge = true → Token.headKind s.after = .semicolon) :
    Grammar.name.Twin s edge n Grammar.name := by
  cases edge <;> simp [h]
  exact fun _ v hv => ⟨v.two_le_length hv, fun _ => v.two_le_length hv⟩

theorem twin_band (h : edge = true → Token.headKind s.after = .semicolon) {least : Nat} :
    (Grammar.band least).Twin s edge 1 (Grammar.band least) := by
  cases edge <;> simp [h]
  · exact ⟨fun v _ => by split <;> simp,
      fun _ v _ => ⟨fun w _ => by split <;> simp, fun _ w _ => by split <;> simp⟩⟩
  · exact ⟨fun v _ => by split <;> simp [h], fun v _ => by split <;> simp [h],
      fun _ v _ => ⟨fun w _ => by split <;> simp [h], fun _ w _ => by split <;> simp [h]⟩⟩

theorem twin_primary (h : edge = true → Token.headKind s.after = .semicolon) :
    Grammar.primary.Twin s edge 1 Grammar.primary := by
  cases edge <;> simp <;> intros <;> split <;> simp [*]

theorem twin_element : Grammar.element.Twin s edge 1 Grammar.element := by
  cases edge <;> simp <;> intros <;> split <;> simp [*]

theorem twin_classDefinition (h : edge = true → Token.headKind s.after = .semicolon) :
    Grammar.classDefinition.Twin s edge 1 Grammar.classDefinition := by
  cases edge <;> simp [h] <;> intros <;> split <;> simp [*]

theorem twin_classPrefixes (h : edge = true → Token.headKind s.after = .semicolon) :
    Grammar.classPrefixes.Twin s edge 1 Grammar.classPrefixes := by
  cases edge <;> simp [h] <;> intros <;> split <;> simp [*]

theorem twin_simpleEquation : Grammar.simpleEquation.Twin s edge 1 Grammar.simpleEquation := by
  cases edge <;> simp <;> intros <;> split <;> simp [*]

theorem twin_statement : Grammar.statement.Twin s edge 1 Grammar.statement := by
  cases edge <;> simp <;> intros <;> split <;> simp [*]

theorem twin_referenceStatement :
    Grammar.referenceStatement.Twin s edge 1 Grammar.referenceStatement := by
  cases edge <;> simp <;> intros <;> split <;> simp [*]

theorem twin_classSection : Grammar.classSection.Twin s false n Grammar.classSection := by
  simp
  intro v context _
  split
  case h_5 hk =>
    simp [v.outer_nth_one context (f := (· = Kind.equationKw)) (by simp) (by simp [hk])]
  all_goals simp [*]

theorem outer_atClassSection (v : s.Place) (context : Context) :
    Grammar.atClassSection (v.outer context) = Grammar.atClassSection v.toLookahead := by
  simp [Grammar.atClassSection]

theorem twin_classBody : Grammar.classBody.Twin s false n Grammar.classBody := by
  simp [outer_atClassSection, twin_classSection, -Grammar.classSection]

theorem twin_argument (h : edge = true → Token.headKind s.after = .semicolon) :
    Grammar.argument.Twin s edge 1 Grammar.argument := by
  simp [-Setting.edge_kind, -Setting.Place.outer_kind]
  intro v context hp
  refine ⟨fun _ => h, fun hr => ?_⟩
  simp only [hr, Bool.false_eq_true, ↓reduceIte] at hp
  have hreplaceable := v.outer_argumentHead context (f := (· = .replaceableKw)) (by simp)
  have hident := v.outer_argumentHead context (f := (· = .ident)) (by simp)
  by_cases h1 : v.argumentHead = .replaceableKw
  · simpa [h1, hreplaceable.mpr h1] using h
  · by_cases h2 : v.argumentHead = .ident
    · simpa [h2, hident.mpr h2] using h
    · refine absurd hp (not_passes_of_fails ?_)
      split
      · exact absurd ‹_› h1
      · exact absurd ‹_› h2
      · exact fails_ite.mpr ⟨fun _ => fails_fault, fun _ => fails_fault⟩

/-- What reads a token and then needs another one has two of them. -/
theorem two_le_of_passes {k : Kind} {p : Production} {v : Lookahead} (hp : p.Starves)
    (h : (node k [shift, p]).Passes v) : 2 ≤ v.ahead.length := by
  obtain ⟨env, r, r', rfl, hr⟩ := h
  obtain ⟨m, hm, -⟩ := runs_node.mp hr
  obtain ⟨w, hw, hm⟩ := runs_seq_cons.mp hm
  have hn : w.ahead ≠ [] := fun hn => hm.not_starves (fun _ => starves_production) hn hp
  rw [runs_shift.mp hw] at hn
  show 2 ≤ r.ahead.length
  match hr : r.ahead with
  | [] | [_] => simp [Reading.shift, hr] at hn
  | _ :: _ :: _ => simp

theorem twin_importPath (k : Kind) :
    (Grammar.importPath k).Twin s false n (Grammar.importPath k) := by
  unfold Grammar.importPath
  split <;> simp

theorem twin_importClause : Grammar.importClause.Twin s edge 1 Grammar.importClause := by
  refine ⟨fun v context hp => ?_, fun _ h => absurd h (by decide)⟩
  have hk : (v.outer context).importKind = v.importKind :=
    v.outer_importKind context (two_le_of_passes (by simp) hp)
  simp only [hk]
  simp [twin_importPath, -Grammar.importPath]

/-- An equation that is read without errors tells by its own tokens whether it is a call. -/
theorem outer_atCallEquation {v : s.Place} {context : Context} {b : Prop} [Decidable b]
    {p : Production} (hf : p.Fails v.toLookahead)
    (h : (if v.atCallEquation then call .specialEquation else
      if b then call .simpleEquation else p).Passes v.toLookahead) :
    (v.outer context).atCallEquation = v.atCallEquation := by
  obtain ⟨env, r, r', hv, hr⟩ := h
  have ha : v.ahead = r.ahead := by rw [← hv]; rfl
  split at hr
  · rename_i hc
    obtain ⟨ts, us, hts, -, hd⟩ := hr.spells trivial
    rw [hc]
    exact atCallEquation_of_special hd
      (show (v.outer context).ahead = ts ++ (r'.ahead ++ s.after) by
        simp [Setting.Place.outer, ha, hts])
  · rename_i hc
    split at hr
    · obtain ⟨ts, us, hts, -, hd⟩ := hr.spells trivial
      rw [Bool.not_eq_true] at hc
      rw [hc]
      exact atCallEquation_of_simple hd
        (show (v.outer context).ahead = ts ++ (r'.ahead ++ s.after) by
          simp [Setting.Place.outer, ha, hts])
    · exact absurd (hv ▸ hf) hr.not_fails

theorem twin_equation : Grammar.equation.Twin s edge 1 Grammar.equation := by
  simp [hopeless_skipNested]
  intro v context hp
  split
  case h_8 =>
    have hcall : (v.outer context).atCallEquation = v.atCallEquation :=
      outer_atCallEquation (hopeless_skipThroughSemicolon _) (by simpa [*] using hp)
    simp [hcall]
  all_goals simp [*]

theorem twin_elements : Grammar.elements.Twin s false n Grammar.elements :=
  twin_repeatUntil (by simp) (by simp)

theorem twin_body : (Grammar.body family).Twin s false n (Grammar.body family) :=
  twin_repeatUntil (by simp) (by simp)

theorem twin_sectionBody :
    (Grammar.sectionBody family).Twin s false n (Grammar.sectionBody family) :=
  twin_repeatUntil (by simp) (by simp)

/-- While a token of the text is left, a rule makes the same choices in the setting. -/
theorem twin_inside (rule : Nonterminal) :
    rule.production.Twin s false rule.starves.toNat rule.production := by
  cases rule <;> simp only [production]
  case name => exact twin_name (by simp)
  case band => exact twin_band (by simp)
  case primary => exact twin_primary (by simp)
  case argument => exact twin_argument (by simp)
  case elements => exact twin_elements
  case element => exact twin_element
  case importClause => exact twin_importClause
  case classDefinition => exact twin_classDefinition (by simp)
  case classPrefixes => exact twin_classPrefixes (by simp)
  case classBody => exact twin_classBody
  case body => exact twin_body
  case sectionBody => exact twin_sectionBody
  case equation => exact twin_equation
  case simpleEquation => exact twin_simpleEquation
  case statement => exact twin_statement
  case referenceStatement => exact twin_referenceStatement
  case item family => cases family <;> simp
  all_goals simp

/-- A rule that may come to the end of the text makes the same choices there. -/
theorem twin_edge {rule : Nonterminal}
    (h : rule.mayEnd (Token.headKind s.after == .semicolon) = true) :
    rule.production.Twin s true rule.starves.toNat rule.production := by
  cases rule <;> simp only [production] <;> simp only [mayEnd, beq_iff_eq, Bool.false_eq_true] at h
  case name => exact twin_name fun _ => h
  case band => exact twin_band fun _ => h
  case primary => exact twin_primary fun _ => h
  case argument => exact twin_argument fun _ => h
  case element => exact twin_element
  case importClause => exact twin_importClause
  case classDefinition => exact twin_classDefinition fun _ => h
  case classPrefixes => exact twin_classPrefixes fun _ => h
  case equation => exact twin_equation
  case simpleEquation => exact twin_simpleEquation
  case statement => exact twin_statement
  case referenceStatement => exact twin_referenceStatement
  case item family => cases family <;> simp
  all_goals simp [h]

theorem twin_production {rule : Nonterminal}
    (h : edge = true → rule.mayEnd (Token.headKind s.after == .semicolon) = true) :
    rule.production.Twin s edge rule.starves.toNat rule.production := by
  cases edge with
  | false => exact twin_inside rule
  | true => exact twin_edge (h rfl)

end

end

end Nonterminal

/-- What runs without errors on a text runs alike where the text is part of a larger one: it comes
to the same place, with the same trees and the same warnings. -/
theorem Runs.in_setting {s : Setting} {p p' : Production} {env env' : Surroundings}
    {r r' q : Reading} {edge : Bool} (h : Runs noError (.of p) env r r')
    (ht : p.Twin s edge 0 p') (hb : r.ahead ≠ [] → s.Bounds r.ahead)
    (hend : r'.ahead ≠ [] ∨ edge = true) (hq : s.Sets r q) (henv : env.Within env') :
    ∃ q', Runs noError (.of p') env' q q' ∧ s.Sets r' q' :=
  h.twin (fun _ => Nonterminal.starves_production) (fun _ _ => Nonterminal.twin_production) ht.task
    ⟨hb, hend, fun _ => Nat.zero_le _, hq, henv⟩

end Modelica
