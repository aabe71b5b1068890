import Modelica.Grammar.Rules
import Modelica.Proofs.Building

/-!
# Expressions build what the tables say

Without errors, the right-hand side of a rule adds the trees that `Nonterminal.adds` lists, and the
nodes it makes have the children that `Kind.shape` lists.
-/

namespace Modelica

open Shape
open Supertype (members)

namespace Grammar

open Production

variable {v : Lookahead}

theorem adds_single {k l : Kind} (h : v.kind = l) (hl : (l == .endOfInput) = false)
    (hk : k ∈ Kind.productions) (hs : Shape.covers [one [l]] k.shape = true) :
    (single k).Adds [one [k]] v :=
  adds_node (adds_shift_of_kind h hl) hk hs

/-- A separator or keyword and what must follow it. -/
theorem adds_shift_call {k : Kind} {rule : Nonterminal} (h : v.kind = k)
    (hk : (k == .endOfInput) = false) (hr : ∀ w, rule.Ready w) :
    (seq [shift, call rule]).Adds (one [k] :: rule.adds) v :=
  adds_seq_cons (adds_shift_of_kind h hk) fun w _ => adds_call (hr w)

theorem kind_of_continuesChain (h : v.continuesChain = true) : v.kind = .dot := by
  simp only [Lookahead.continuesChain, Token.continuesChain, Bool.and_eq_true, beq_iff_eq] at h
  exact h.1

/-- A point and the identifier after it. -/
theorem adds_chain (h : v.continuesChain = true) :
    (shifts 2).Adds [one [.dot], one [.ident]] v := by
  simp only [Lookahead.continuesChain, Token.continuesChain, Bool.and_eq_true, beq_iff_eq] at h
  refine adds_shifts_succ h.1 rfl fun w hw => ?_
  exact adds_shifts_succ ((nth_of_tail hw 0).trans h.2) rfl fun _ _ => adds_done

theorem adds_name : name.Adds [one [.name]] v :=
  adds_node
    (adds_seq_cons (adds_expect rfl) fun _ _ => adds_many fun _ _ h => adds_chain h)
    (by decide) (by decide)

theorem adds_typeSpecifier : typeSpecifier.Adds [one [.typeSpecifier]] v :=
  adds_node
    (adds_seq_cons adds_accept fun _ _ => adds_look <|
      adds_ite (fun _ => adds_call trivial) fun _ => adds_of_fails fails_missing)
    (by decide) (by decide)

theorem adds_componentReference : componentReference.Adds [one [.componentReference]] v :=
  adds_node
    (adds_seq_cons adds_accept fun _ _ => adds_seq_cons (adds_call trivial) fun _ _ =>
      adds_many fun _ _ h => adds_shift_call (kind_of_continuesChain h) rfl fun _ => trivial)
    (by decide) (by decide)

theorem adds_componentReferencePart :
    componentReferencePart.Adds [one [.componentReferencePart]] v :=
  adds_node
    (adds_seq_cons (adds_expect rfl) fun _ _ => adds_before fun h => adds_call (kind_of_sees h))
    (by decide) (by decide)

/-- A list in square brackets. -/
theorem adds_inBrackets {k : Kind} {context : Context} {rule : Nonterminal}
    (h : v.kind = .lBracket) (hk : (k == .endOfInput) = false) (hr : ∀ w, rule.Ready w) :
    (seq [shift, inContext context <| seq [separated k (call rule), expect .rBracket]]).Adds
      [one [.lBracket], many (k :: rule.adds.kinds), one [.rBracket]] v :=
  adds_weaken
    (adds_seq_cons (adds_shift_of_kind h rfl) fun _ _ => adds_inContext <|
      adds_seq_cons (adds_separated hk fun w => adds_call (hr w)) fun _ _ => adds_expect rfl)
    (Le.refl _)

theorem adds_arraySubscripts (h : v.kind = .lBracket) :
    arraySubscripts.Adds [one [.arraySubscripts]] v :=
  adds_node (adds_inBrackets h rfl fun _ => trivial) (by decide) (by decide)

theorem adds_subscript : subscript.Adds [one [.subscript]] v := by
  refine adds_node (s := Kind.shape .subscript) (adds_look (adds_ite (fun h => ?_) fun _ => ?_))
    (by decide) (by decide)
  · simp only [Bool.and_eq_true] at h
    exact adds_of_covers (adds_shift_of_kind (kind_of_sees h.1) rfl) (by decide)
  · exact adds_of_covers (adds_call trivial) (by decide)

/-- What the table of bands lists is an operator of the schema. -/
theorem mem_operators {k : Kind} {arity : Arity} {b : Band} (hb : b ∈ Band.table)
    (h : b.holds arity k = true) :
    k ∈ match arity with
      | .unary => Schema.unaryOperators
      | .binary => Schema.binaryOperators := by
  have hall : ∀ b ∈ Band.table, b.operators ⊆ match b.arity with
      | .unary => Schema.unaryOperators
      | .binary => Schema.binaryOperators := by decide
  simp only [Band.holds, Bool.and_eq_true, beq_iff_eq, List.contains_iff_mem] at h
  have hk := hall b hb h.2
  rwa [h.1] at hk

theorem mem_unaryOperators {k : Kind} {level : Nat} (h : Band.unaryLevel? k = some level) :
    k ∈ Schema.unaryOperators := by
  obtain ⟨hl, hb, -⟩ := List.findIdx?_eq_some_iff_getElem.mp h
  exact mem_operators (List.getElem_mem hl) hb

theorem mem_binaryOperators {k : Kind} {least level : Nat}
    (h : Band.binaryLevel? k least = some level) : k ∈ Schema.binaryOperators := by
  obtain ⟨⟨b, i⟩, hb, -⟩ := Option.map_eq_some_iff.mp h
  have hm := List.mem_of_mem_drop (List.mem_of_find?_eq_some hb)
  have hh := List.find?_some hb
  exact mem_operators (List.fst_mem_of_mem_zipIdx hm) hh

theorem adds_leftmost (least : Nat) :
    (leftmost least).Adds [one (members .simpleExpression)] v := by
  refine adds_look ?_
  split
  · exact adds_of_covers (adds_call trivial) (by decide)
  · rename_i level h
    refine adds_ite (fun _ => ?_) fun _ => adds_of_fails fails_fault
    exact adds_of_covers (s := [one [.unaryExpression]]) (adds_call (mem_unaryOperators h))
      (by decide)

theorem turns_operation (least : Nat) (previous : Option Lookahead) :
    (operation least previous).Turns [one (members .simpleExpression)]
      [one (members .simpleExpression)] v := by
  refine turns_look ?_
  split
  · exact Le.refl _
  · rename_i level h
    refine turns_quiet_cons ?_ fun w hw => ?_
    · split
      · exact .inr ⟨_, rfl⟩
      · exact .inl rfl
    · have hk : w.kind ∈ Schema.binaryOperators := by
        rw [Lookahead.kind, hw]
        exact mem_binaryOperators h
      refine Turns.weaken (turns_wrap (adds_seq_cons (adds_shift hk (by decide)) fun _ _ => ?_)
        (by decide) (Le.refl _)) (le_of_covers (by decide))
      exact adds_ite (fun _ => adds_call trivial) fun _ => adds_call trivial

theorem adds_band (least : Nat) : (band least).Adds [one (members .simpleExpression)] v :=
  adds_group <| turns_seq_cons (turns_of_adds (adds_leftmost least)) fun _ _ =>
    ⟨_, Le.refl _, Le.refl _, fun before _ _ => turns_operation least before⟩

theorem adds_unary {level : Nat} (h : v.kind ∈ Schema.unaryOperators) :
    (unary level).Adds [one [.unaryExpression]] v :=
  adds_node (adds_seq_cons (adds_shift h (by decide)) fun _ _ => adds_call trivial)
    (by decide) rfl

theorem adds_operand (level : Nat) : (operand level).Adds [one (members .simpleExpression)] v :=
  adds_deeper (adds_call trivial)

/-! ## Expressions -/

theorem adds_expression : expression.Adds [one (members .expression)] v := by
  refine adds_deeper (adds_look (adds_ite (fun h => ?_) fun _ => adds_group ?_))
  · exact adds_of_covers (adds_call (kind_of_sees h)) (by decide)
  · refine turns_seq_cons (turns_of_adds (adds_call trivial)) fun w _ =>
      turns_before (fun h => ?_) (le_of_covers (by decide))
    refine Turns.weaken (turns_wrap (adds_seq_cons (adds_shift_of_kind (kind_of_sees h) rfl)
      fun _ _ => adds_seq_cons (adds_call trivial) fun _ _ => adds_before fun h' =>
        adds_shift_call (kind_of_sees h') rfl fun _ => trivial) (by decide) (Le.refl _))
      (le_of_covers (by decide))

theorem adds_elseBranch (opened : Spot) :
    (elseBranch opened).Adds [one [.elseKw], one (members .expression)] v :=
  adds_look <| adds_ite (fun h => adds_shift_call (kind_of_sees h) rfl fun _ => trivial)
    fun _ => adds_of_fails rfl

/-- A condition between its keyword and the word behind it, then what it is for. -/
theorem adds_condition {keyword mark : Kind} {p : Production} {ps : List Production} {s : Shape}
    (h : v.kind = keyword) (hk : (keyword == .endOfInput) = false)
    (hm : (mark == .endOfInput) = false) (hp : ∀ w, (seq (p :: ps)).Adds s w) :
    (seq (shift :: call .expression :: expect mark :: p :: ps)).Adds
      (one [keyword] :: one (members .expression) :: one [mark] :: s) v :=
  adds_weaken
    (adds_seq_cons (adds_shift_of_kind h hk) fun _ _ => adds_seq_cons (adds_call trivial)
      fun _ _ => adds_seq_cons (adds_expect hm) fun w _ => hp w)
    (Le.refl _)

theorem adds_ifExpression (h : v.kind = .ifKw) : ifExpression.Adds [one [.ifExpression]] v := by
  have hclause : ∀ w : Lookahead, w.sees .elseifKw = true →
      (node .elseIfExpressionClause
        [shift, call .expression, expect .thenKw, call .expression]).Adds
        [one [.elseIfExpressionClause]] w :=
    fun w hw => adds_node (adds_condition (kind_of_sees hw) rfl rfl fun _ => adds_call trivial)
      (by decide) (by decide)
  exact adds_look <| adds_node
    (adds_seq_cons (adds_shift_of_kind h rfl) fun _ _ => adds_opening <|
      adds_seq_cons (adds_call trivial) fun _ _ => adds_seq_cons (adds_expect rfl) fun _ _ =>
      adds_seq_cons (adds_call trivial) fun _ _ =>
      adds_seq_cons (adds_many fun _ w hw => hclause w hw) fun _ _ => adds_elseBranch _)
    (by decide) (by decide)

theorem fails_missingExpression : missingExpression.Fails v := fails_fault

theorem adds_primary : primary.Adds [one (members .primaryExpression)] v := by
  have hcall : ∀ w l, w.kind = l → l ∈ [Kind.derKw, .initialKw, .pureKw] →
      (node .functionCall [shift, call .callArguments]).Adds [one [.functionCall]] w :=
    fun w l hw hl => adds_node
      (adds_seq_cons (adds_shift (hw ▸ hl) (by decide)) fun _ _ => adds_call trivial)
      (by decide) (by decide)
  have hreference : ∀ w : Lookahead, (group <| seq [call .componentReference,
      before .lParen <| wrap .functionCall (call .callArguments)]).Adds
        [one (members .primaryExpression)] w :=
    fun w => adds_group <| turns_seq_cons (turns_of_adds (adds_call trivial)) fun _ _ =>
      turns_before (fun _ => Turns.weaken
        (turns_wrap (adds_call trivial) (by decide) (le_of_covers (by decide)))
        (le_of_covers (by decide))) (le_of_covers (by decide))
  refine adds_look ?_
  split
  · exact adds_of_covers (adds_single ‹_› rfl (by decide) (by decide)) (by decide)
  · exact adds_of_covers (adds_single ‹_› rfl (by decide) (by decide)) (by decide)
  · exact adds_of_covers (adds_single ‹_› rfl (by decide) (by decide)) (by decide)
  · exact adds_of_covers (adds_single ‹_› rfl (by decide) (by decide)) (by decide)
  · exact adds_of_covers (adds_single ‹_› rfl (by decide) (by decide)) (by decide)
  · exact adds_of_covers (hcall _ _ ‹_› (by decide)) (by decide)
  · exact adds_of_covers (hcall _ _ ‹_› (by decide)) (by decide)
  · exact adds_of_covers (hcall _ _ ‹_› (by decide)) (by decide)
  · exact hreference _
  · exact hreference _
  · exact adds_of_covers (adds_call ‹_›) (by decide)
  · exact adds_of_covers (adds_call ‹_›) (by decide)
  · exact adds_of_covers (adds_call ‹_›) (by decide)
  · refine adds_ite (fun _ => ?_) fun _ => adds_of_fails fails_missingExpression
    exact adds_of_covers (adds_single ‹_› rfl (by decide) (by decide)) (by decide)
  · exact adds_of_fails fails_missingExpression

theorem adds_parenthesized (h : v.kind = .lParen) :
    parenthesized.Adds [one [.parenthesizedExpression]] v :=
  adds_node
    (adds_seq_cons (adds_shift_of_kind h rfl) fun _ _ => adds_inContext <|
      adds_seq_cons (adds_look <| adds_unless fun _ => adds_separated rfl fun _ =>
        adds_look <| adds_unless fun _ => adds_call trivial) fun _ _ => adds_expect rfl)
    (by decide) (by decide)

theorem adds_arrayConcatenation (h : v.kind = .lBracket) :
    arrayConcatenation.Adds [one [.arrayConcatenation]] v :=
  adds_node (adds_inBrackets h rfl fun _ => trivial) (by decide) (by decide)

theorem adds_forIndices (h : v.kind = .forKw) :
    forIndices.Adds [one [.forKw], many [.comma, .forIndex]] v :=
  adds_of_covers
    (adds_seq_cons (adds_shift_of_kind h rfl) fun _ _ => adds_separated rfl fun _ =>
      adds_call trivial)
    (by decide)

theorem adds_forIndex : forIndex.Adds [one [.forIndex]] v :=
  adds_node
    (adds_seq_cons (adds_expect rfl) fun _ _ => adds_before fun h =>
      adds_shift_call (kind_of_sees h) rfl fun _ => trivial)
    (by decide) (by decide)

/-- An expression becomes a comprehension where `for` follows it. -/
theorem turns_comprehension (h : v.kind = .forKw) :
    (wrap .comprehensionClause forIndices).Turns [one (members .expression)]
      [one [.comprehensionClause]] v :=
  turns_wrap (adds_forIndices h) (by decide) (le_of_covers (by decide))

theorem adds_arrayConstructor (h : v.kind = .lBrace) :
    arrayConstructor.Adds [one [.arrayConstructor]] v := by
  have hlist : ∀ w, (group <| seq [call .expression, look fun w =>
      if w.sees .forKw then wrap .comprehensionClause forIndices
      else wrap .expressionList <| Production.many (·.sees .comma) fun _ =>
        seq [shift, call .expression]]).Adds [one [.comprehensionClause, .expressionList]] w := by
    refine fun w => adds_group <| turns_seq_cons (turns_of_adds (adds_call trivial)) fun w _ =>
      turns_look (turns_ite (fun hf => ?_) fun _ => ?_)
    · exact (turns_comprehension (kind_of_sees hf)).weaken (le_of_covers (by decide))
    · exact Turns.weaken (turns_wrap (adds_many fun _ _ hc => adds_shift_call (kind_of_sees hc) rfl
        fun _ => trivial) (by decide) (le_of_covers (by decide))) (le_of_covers (by decide))
  exact adds_node
    (adds_seq_cons (adds_shift_of_kind h rfl) fun _ _ => adds_inContext <|
      adds_seq_cons (adds_look <| adds_unless fun _ => hlist _) fun _ _ => adds_expect rfl)
    (by decide) (by decide)

theorem adds_expressionList : expressionList.Adds [one [.expressionList]] v :=
  adds_node (adds_separated rfl fun _ => adds_call trivial) (by decide) (by decide)

/-! ## Arguments -/

theorem adds_callArguments : callArguments.Adds Shape.callArguments v :=
  adds_of_covers
    (adds_expectThen rfl fun _ => adds_inContext <|
      adds_seq_cons (adds_look <| adds_unless fun _ => adds_call trivial) fun _ _ =>
      adds_expect rfl)
    (by decide)

theorem adds_argumentsAfterNamed :
    argumentsAfterNamed.Adds [many [.comma, .namedArgument]] v :=
  adds_of_covers
    (adds_many fun _ _ h => adds_seq_cons (adds_shift_of_kind (kind_of_sees h) rfl) fun _ _ =>
      adds_look <| adds_ite (fun _ => adds_call trivial) fun _ => adds_of_fails rfl)
    (by decide)

theorem adds_firstArgument :
    firstArgument.Adds [one [.comprehensionClause, .functionArgument]] v := by
  refine adds_look (adds_ite (fun _ => ?_) fun _ => adds_group ?_)
  · exact adds_of_covers (adds_call trivial) (by decide)
  · refine turns_seq_cons (turns_of_adds (adds_call trivial)) fun w _ =>
      turns_look (turns_ite (fun hf => ?_) fun _ => ?_)
    · exact (turns_comprehension (kind_of_sees hf)).weaken (le_of_covers (by decide))
    · exact (turns_wrap adds_done (by decide) (le_of_covers (by decide))).weaken
        (le_of_covers (by decide))

theorem adds_functionArguments : functionArguments.Adds [one [.functionArguments]] v := by
  refine adds_node (s := Kind.shape .functionArguments)
    (adds_look (adds_ite (fun _ => ?_) fun _ => ?_)) (by decide) (by decide)
  · exact adds_of_covers
      (adds_seq_cons (adds_call trivial) fun _ _ => adds_argumentsAfterNamed) (by decide)
  · have hkind : ∀ w : Lookahead,
        (w.sees .comma && !(w.nth 1 == .ident && w.nth 2 == .equals)) = true → w.kind = .comma := by
      intro w hw
      simp only [Bool.and_eq_true] at hw
      exact kind_of_sees hw.1
    exact adds_of_covers
      (adds_seq_cons adds_firstArgument fun _ _ =>
        adds_seq_cons (adds_many fun _ w hw => adds_shift_call (hkind w hw) rfl fun _ => trivial)
        fun _ _ => adds_argumentsAfterNamed)
      (by decide)

theorem adds_functionArgument : functionArgument.Adds [one [.functionArgument]] v := by
  refine adds_node (s := Kind.shape .functionArgument)
    (adds_look (adds_ite (fun h => ?_) fun _ => ?_)) (by decide) (by decide)
  · exact adds_of_covers (adds_call (kind_of_sees h)) (by decide)
  · exact adds_of_covers (adds_call trivial) (by decide)

theorem adds_namedArgument : namedArgument.Adds [one [.namedArgument]] v :=
  adds_node
    (adds_seq_cons (adds_expect rfl) fun _ _ => adds_seq_cons (adds_expect rfl) fun _ _ =>
      adds_call trivial)
    (by decide) (by decide)

theorem adds_partialApplication (h : v.kind = .functionKw) :
    partialApplication.Adds [one [.functionPartialApplication]] v :=
  adds_node
    (adds_seq_cons (adds_shift_of_kind h rfl) fun _ _ => adds_seq_cons (adds_call trivial)
      fun _ _ => adds_expectThen rfl fun _ => adds_seq_cons (adds_look <| adds_unless fun _ =>
        adds_separated rfl fun _ => adds_call trivial) fun _ _ => adds_expect rfl)
    (by decide) (by decide)

end Grammar

end Modelica
