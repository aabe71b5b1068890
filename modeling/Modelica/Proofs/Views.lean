import Modelica.Proofs.BodyParts
import Modelica.Proofs.ClassParts
import Modelica.Proofs.ExpressionParts

/-!
# Views and slots agree

Views read parts by their kinds or from slots; the schema gives every part a slot. In the tree of
any text both ways lead to the same children, but for the items that follow the `else` clause of an
`if`.

* `Located.ViewsAgree`: what each view of a node reads for a part is what the slot of the part
  holds;
* `parse_views_agree`: the statement for the nodes of a parse;
* `items_after_else`: an equation after the `else` clause is read with the first branch, but is not
  in its slot.
-/

namespace Modelica

/-- A node is read the same by its views and from its slots. -/
structure Located.ViewsAgree (n : Located) : Prop where
  storedDefinition (v : StoredDefinition) : v.node = n → v.Agrees
  withinClause (v : WithinClause) : v.node = n → v.Agrees
  classDefinitionClause (v : ClassDefinitionClause) : v.node = n → v.Agrees
  classDefinition (v : ClassDefinition) : v.node = n → v.Agrees
  classPrefixes (v : ClassPrefixes) : v.node = n → v.Agrees
  longClassSpecifier (v : LongClassSpecifier) : v.node = n → v.Agrees
  shortClassSpecifier (v : ShortClassSpecifier) : v.node = n → v.Agrees
  derClassSpecifier (v : DerClassSpecifier) : v.node = n → v.Agrees
  enumerationLiteral (v : EnumerationLiteral) : v.node = n → v.Agrees
  externalFunctionClause (v : ExternalFunctionClause) : v.node = n → v.Agrees
  languageSpecification (v : LanguageSpecification) : v.node = n → v.Agrees
  externalFunctionCall (v : ExternalFunctionCall) : v.node = n → v.Agrees
  initialElementList (v : InitialElementList) : v.node = n → v.Agrees
  elementList (v : ElementList) : v.node = n → v.Agrees
  namedElementClause (v : NamedElementClause) : v.node = n → v.Agrees
  simpleImportClause (v : SimpleImportClause) : v.node = n → v.Agrees
  compoundImportClause (v : CompoundImportClause) : v.node = n → v.Agrees
  unqualifiedImportClause (v : UnqualifiedImportClause) : v.node = n → v.Agrees
  extendsClause (v : ExtendsClause) : v.node = n → v.Agrees
  constrainingClause (v : ConstrainingClause) : v.node = n → v.Agrees
  componentClause (v : ComponentClause) : v.node = n → v.Agrees
  componentDeclaration (v : ComponentDeclaration) : v.node = n → v.Agrees
  conditionAttribute (v : ConditionAttribute) : v.node = n → v.Agrees
  declaration (v : Declaration) : v.node = n → v.Agrees
  modification (v : Modification) : v.node = n → v.Agrees
  modificationExpression (v : ModificationExpression) : v.node = n → v.Agrees
  classModification (v : ClassModification) : v.node = n → v.Agrees
  classOrInheritanceModification (v : ClassOrInheritanceModification) : v.node = n → v.Agrees
  inheritanceModification (v : InheritanceModification) : v.node = n → v.Agrees
  elementModification (v : ElementModification) : v.node = n → v.Agrees
  elementRedeclaration (v : ElementRedeclaration) : v.node = n → v.Agrees
  elementReplaceable (v : ElementReplaceable) : v.node = n → v.Agrees
  componentClause1 (v : ComponentClause1) : v.node = n → v.Agrees
  componentDeclaration1 (v : ComponentDeclaration1) : v.node = n → v.Agrees
  shortClassDefinition (v : ShortClassDefinition) : v.node = n → v.Agrees
  annotationClause (v : AnnotationClause) : v.node = n → v.Agrees
  equationSection (v : EquationSection) : v.node = n → v.Agrees
  simpleEquation (v : SimpleEquation) : v.node = n → v.Agrees
  specialEquation (v : SpecialEquation) : v.node = n → v.Agrees
  ifEquation (v : IfEquation) : v.node = n → v.Agrees
  elseIfEquationClause (v : ElseIfEquationClause) : v.node = n → v.Agrees
  elseEquationClause (v : ElseEquationClause) : v.node = n → v.Agrees
  forEquation (v : ForEquation) : v.node = n → v.Agrees
  connectEquation (v : ConnectEquation) : v.node = n → v.Agrees
  connectClause (v : ConnectClause) : v.node = n → v.Agrees
  whenEquation (v : WhenEquation) : v.node = n → v.Agrees
  elseWhenEquationClause (v : ElseWhenEquationClause) : v.node = n → v.Agrees
  algorithmSection (v : AlgorithmSection) : v.node = n → v.Agrees
  simpleAssignmentStatement (v : SimpleAssignmentStatement) : v.node = n → v.Agrees
  functionCallStatement (v : FunctionCallStatement) : v.node = n → v.Agrees
  destructuringAssignmentStatement (v : DestructuringAssignmentStatement) : v.node = n → v.Agrees
  ifStatement (v : IfStatement) : v.node = n → v.Agrees
  elseIfStatementClause (v : ElseIfStatementClause) : v.node = n → v.Agrees
  elseStatementClause (v : ElseStatementClause) : v.node = n → v.Agrees
  forStatement (v : ForStatement) : v.node = n → v.Agrees
  forIndex (v : ForIndex) : v.node = n → v.Agrees
  whileStatement (v : WhileStatement) : v.node = n → v.Agrees
  whenStatement (v : WhenStatement) : v.node = n → v.Agrees
  elseWhenStatementClause (v : ElseWhenStatementClause) : v.node = n → v.Agrees
  ifExpression (v : IfExpression) : v.node = n → v.Agrees
  elseIfExpressionClause (v : ElseIfExpressionClause) : v.node = n → v.Agrees
  rangeExpression (v : RangeExpression) : v.node = n → v.Agrees
  unaryExpression (v : UnaryExpression) : v.node = n → v.Agrees
  binaryExpression (v : BinaryExpression) : v.node = n → v.Agrees
  parenthesizedExpression (v : ParenthesizedExpression) : v.node = n → v.Agrees
  expressionList (v : ExpressionList) : v.node = n → v.Agrees
  functionCall (v : FunctionCall) : v.node = n → v.Agrees
  functionArguments (v : FunctionArguments) : v.node = n → v.Agrees
  functionArgument (v : FunctionArgument) : v.node = n → v.Agrees
  namedArgument (v : NamedArgument) : v.node = n → v.Agrees
  functionPartialApplication (v : FunctionPartialApplication) : v.node = n → v.Agrees
  arrayConcatenation (v : ArrayConcatenation) : v.node = n → v.Agrees
  arrayConstructor (v : ArrayConstructor) : v.node = n → v.Agrees
  comprehensionClause (v : ComprehensionClause) : v.node = n → v.Agrees
  arraySubscripts (v : ArraySubscripts) : v.node = n → v.Agrees
  subscript (v : Subscript) : v.node = n → v.Agrees
  typeSpecifier (v : TypeSpecifier) : v.node = n → v.Agrees
  name (v : Name) : v.node = n → v.Agrees
  componentReference (v : ComponentReference) : v.node = n → v.Agrees
  componentReferencePart (v : ComponentReferencePart) : v.node = n → v.Agrees
  descriptionString (v : DescriptionString) : v.node = n → v.Agrees
  classSpecifier (c : ClassSpecifier) : c.node = n → n.Shows "identifier" c.name?
  importClause (c : ImportClause) : c.node = n → n.Shows "packageName" c.packageName?

/-- A view that is not of an `error` is of a node that has what is left of its kind. -/
theorem View.remains {k : Kind} (v : View k) {n : Located} (hv : v.node = n)
    (h : n.kind = .error ∨ n.Remains) (hk : k ≠ .error) : v.node.Remains := by
  subst hv
  exact h.resolve_left fun he => hk (v.kind_eq.symm.trans he)

theorem Choice.remains {s : Supertype} (c : Choice s) {n : Located} (hc : c.node = n)
    (h : n.kind = .error ∨ n.Remains) : c.node.Remains := by
  subst hc
  refine h.resolve_left fun he => ?_
  have hm := Kind.mem_members c.isA
  rw [he] at hm
  cases s <;> exact absurd hm (by decide)

theorem Located.viewsAgree {n : Located} (h : n.kind = .error ∨ n.Remains) : n.ViewsAgree where
  storedDefinition v hv := v.agrees (v.remains hv h (by decide))
  withinClause v hv := v.agrees (v.remains hv h (by decide))
  classDefinitionClause v hv := v.agrees (v.remains hv h (by decide))
  classDefinition v hv := v.agrees (v.remains hv h (by decide))
  classPrefixes v hv := v.agrees (v.remains hv h (by decide))
  longClassSpecifier v hv := v.agrees (v.remains hv h (by decide))
  shortClassSpecifier v hv := v.agrees (v.remains hv h (by decide))
  derClassSpecifier v hv := v.agrees (v.remains hv h (by decide))
  enumerationLiteral v hv := v.agrees (v.remains hv h (by decide))
  externalFunctionClause v hv := v.agrees (v.remains hv h (by decide))
  languageSpecification v hv := v.agrees (v.remains hv h (by decide))
  externalFunctionCall v hv := v.agrees (v.remains hv h (by decide))
  initialElementList v hv := v.agrees (v.remains hv h (by decide))
  elementList v hv := v.agrees (v.remains hv h (by decide))
  namedElementClause v hv := v.agrees (v.remains hv h (by decide))
  simpleImportClause v hv := v.agrees (v.remains hv h (by decide))
  compoundImportClause v hv := v.agrees (v.remains hv h (by decide))
  unqualifiedImportClause v hv := v.agrees (v.remains hv h (by decide))
  extendsClause v hv := v.agrees (v.remains hv h (by decide))
  constrainingClause v hv := v.agrees (v.remains hv h (by decide))
  componentClause v hv := v.agrees (v.remains hv h (by decide))
  componentDeclaration v hv := v.agrees (v.remains hv h (by decide))
  conditionAttribute v hv := v.agrees (v.remains hv h (by decide))
  declaration v hv := v.agrees (v.remains hv h (by decide))
  modification v hv := v.agrees (v.remains hv h (by decide))
  modificationExpression v hv := v.agrees (v.remains hv h (by decide))
  classModification v hv := v.agrees (v.remains hv h (by decide))
  classOrInheritanceModification v hv := v.agrees (v.remains hv h (by decide))
  inheritanceModification v hv := v.agrees (v.remains hv h (by decide))
  elementModification v hv := v.agrees (v.remains hv h (by decide))
  elementRedeclaration v hv := v.agrees (v.remains hv h (by decide))
  elementReplaceable v hv := v.agrees (v.remains hv h (by decide))
  componentClause1 v hv := v.agrees (v.remains hv h (by decide))
  componentDeclaration1 v hv := v.agrees (v.remains hv h (by decide))
  shortClassDefinition v hv := v.agrees (v.remains hv h (by decide))
  annotationClause v hv := v.agrees (v.remains hv h (by decide))
  equationSection v hv := v.agrees (v.remains hv h (by decide))
  simpleEquation v hv := v.agrees (v.remains hv h (by decide))
  specialEquation v hv := v.agrees (v.remains hv h (by decide))
  ifEquation v hv := v.agrees (v.remains hv h (by decide))
  elseIfEquationClause v hv := v.agrees (v.remains hv h (by decide))
  elseEquationClause v hv := v.agrees (v.remains hv h (by decide))
  forEquation v hv := v.agrees (v.remains hv h (by decide))
  connectEquation v hv := v.agrees (v.remains hv h (by decide))
  connectClause v hv := v.agrees (v.remains hv h (by decide))
  whenEquation v hv := v.agrees (v.remains hv h (by decide))
  elseWhenEquationClause v hv := v.agrees (v.remains hv h (by decide))
  algorithmSection v hv := v.agrees (v.remains hv h (by decide))
  simpleAssignmentStatement v hv := v.agrees (v.remains hv h (by decide))
  functionCallStatement v hv := v.agrees (v.remains hv h (by decide))
  destructuringAssignmentStatement v hv := v.agrees (v.remains hv h (by decide))
  ifStatement v hv := v.agrees (v.remains hv h (by decide))
  elseIfStatementClause v hv := v.agrees (v.remains hv h (by decide))
  elseStatementClause v hv := v.agrees (v.remains hv h (by decide))
  forStatement v hv := v.agrees (v.remains hv h (by decide))
  forIndex v hv := v.agrees (v.remains hv h (by decide))
  whileStatement v hv := v.agrees (v.remains hv h (by decide))
  whenStatement v hv := v.agrees (v.remains hv h (by decide))
  elseWhenStatementClause v hv := v.agrees (v.remains hv h (by decide))
  ifExpression v hv := v.agrees (v.remains hv h (by decide))
  elseIfExpressionClause v hv := v.agrees (v.remains hv h (by decide))
  rangeExpression v hv := v.agrees (v.remains hv h (by decide))
  unaryExpression v hv := v.agrees (v.remains hv h (by decide))
  binaryExpression v hv := v.agrees (v.remains hv h (by decide))
  parenthesizedExpression v hv := v.agrees (v.remains hv h (by decide))
  expressionList v hv := v.agrees (v.remains hv h (by decide))
  functionCall v hv := v.agrees (v.remains hv h (by decide))
  functionArguments v hv := v.agrees (v.remains hv h (by decide))
  functionArgument v hv := v.agrees (v.remains hv h (by decide))
  namedArgument v hv := v.agrees (v.remains hv h (by decide))
  functionPartialApplication v hv := v.agrees (v.remains hv h (by decide))
  arrayConcatenation v hv := v.agrees (v.remains hv h (by decide))
  arrayConstructor v hv := v.agrees (v.remains hv h (by decide))
  comprehensionClause v hv := v.agrees (v.remains hv h (by decide))
  arraySubscripts v hv := v.agrees (v.remains hv h (by decide))
  subscript v hv := v.agrees (v.remains hv h (by decide))
  typeSpecifier v hv := v.agrees (v.remains hv h (by decide))
  name v hv := v.agrees (v.remains hv h (by decide))
  componentReference v hv := v.agrees (v.remains hv h (by decide))
  componentReferencePart v hv := v.agrees (v.remains hv h (by decide))
  descriptionString v hv := v.agrees (v.remains hv h (by decide))
  classSpecifier c hc := by
    have hslot : ∀ k ∈ Supertype.members .classSpecifier,
        (k.slot? "identifier").any (·.1.matcher.ofTokens) = true := by decide +kernel
    subst hc
    exact (⟨c.node, rfl⟩ : View c.node.kind).shows_textIn? (c.remains rfl h)
      (hslot _ (Kind.mem_members c.isA))
  importClause c hc := by
    have hslot : ∀ k ∈ Supertype.members .importClause,
        ((LawfulNodeView.matcher Name).ofNodes &&
          k.gathers "packageName" (LawfulNodeView.matcher Name)) = true := by decide +kernel
    subst hc
    exact (⟨c.node, rfl⟩ : View c.node.kind).shows_first? (c.remains rfl h)
      (hslot _ (Kind.mem_members c.isA))

/-- In the tree of any text, what views read for the parts of a node is what the slots hold. Only
the items after the `else` clause of an `if` are read with the first branch and are in no slot. -/
theorem parse_views_agree (text : String) :
    ∀ n ∈ (Located.root (parse text).tree).nodes, n.ViewsAgree :=
  fun n hn => Located.viewsAgree (parse_remains text n hn)

/-- An `if` whose second `else` is in error. -/
theorem parse_views_agree_if : ∃ n ∈ (Located.root (parse
      "model M equation if a then b = c; else d = e; else f = g; end if; end M;").tree).nodes,
    n.kind = .ifEquation ∧ n.ViewsAgree := by
  have hif : ∃ n ∈ (Located.root (parse
      "model M equation if a then b = c; else d = e; else f = g; end if; end M;").tree).nodes,
      n.kind = .ifEquation := by decide +kernel
  obtain ⟨n, hn, hk⟩ := hif
  exact ⟨n, hn, hk, parse_views_agree _ n hn⟩

theorem View.node_of_of? {k : Kind} {n : Located} {v : View k} (h : View.of? k n = some v) :
    v.node = n := by
  unfold View.of? at h
  split at h
  · cases h; rfl
  · cases h

/-- Of its items two are read with the first branch, while their slot holds one only. -/
theorem items_after_else : ∃ n ∈ (Located.root (parse
      "model M equation if a then b = c; else d = e; else f = g; end if; end M;").tree).nodes,
    ∃ v : IfEquation, v.node = n ∧ ¬ n.Shows "equation" v.thenEquations := by
  have hlengths : ∃ n ∈ (Located.root (parse
      "model M equation if a then b = c; else d = e; else f = g; end if; end M;").tree).nodes,
      ((View.of? .ifEquation n).any fun v => (IfEquation.thenEquations v).length !=
        (n.field "equation").toList.length) = true := by
    decide +kernel
  obtain ⟨n, hn, hv⟩ := hlengths
  obtain ⟨v, hv, hne⟩ := (Option.any_eq_true ..).mp hv
  refine ⟨n, hn, v, View.node_of_of? hv, fun hs => ?_⟩
  have hlength : (IfEquation.thenEquations v).length = (n.field "equation").toList.length := by
    rw [← List.length_map (NodeView.toNode)]
    exact congrArg List.length hs
  simp [hlength] at hne

end Modelica
