import Modelica.Proofs.Contracts
import Modelica.Proofs.Yields

/-!
# Expressions yield what the tables say

In any case, the right-hand side of a rule adds what may be left of the trees that
`Nonterminal.adds` lists, and the nodes it makes have what is left of their kinds.
-/

namespace Modelica

open Shape
open Supertype (members)

namespace Grammar

open Production

variable {v : Lookahead}

/-- Whatever is built may be left out. -/
theorem gives_part {p : Production} {s : Shape} (h : p.Gives [s] v) : p.Gives [s.maybe] v :=
  gives_weaken h (Variants.le_maybe s)

theorem gives_single {k l : Kind} (h : v.kind = l) (hl : (l == .endOfInput) = false)
    (hk : k ∈ Kind.productions) (hs : Variants.covers [[one [l]]] k.remains = true) :
    (single k).Gives [[one [k]]] v :=
  gives_node (gives_shift_of_kind h hl) hk hs

/-- A separator or keyword and what should follow it. -/
theorem gives_shift_call {k : Kind} {rule : Nonterminal} (h : v.kind = k)
    (hk : (k == .endOfInput) = false) (hr : ∀ w, rule.Ready w) :
    (seq [shift, call rule]).Gives [one [k] :: rule.adds.maybe] v :=
  gives_seq_cons (l := []) (gives_shift_of_kind h hk) fun w _ => gives_call (hr w)

/-- A point and the identifier after it. -/
theorem gives_chain (h : v.continuesChain = true) :
    (shifts 2).Gives [[one [.dot], one [.ident]]] v := by
  simp only [Lookahead.continuesChain, Token.continuesChain, Bool.and_eq_true, beq_iff_eq] at h
  refine gives_shifts_succ h.1 rfl fun w hw => ?_
  exact gives_shifts_succ ((nth_of_tail hw 0).trans h.2) rfl fun _ _ => gives_done

theorem gives_name : name.Gives [[one [.name]]] v :=
  gives_node
    (gives_seq_cons (gives_expect rfl) fun _ _ => gives_many fun _ _ h => gives_chain h)
    (by decide) (by decide)

theorem gives_typeSpecifier : typeSpecifier.Gives [[one [.typeSpecifier]]] v :=
  gives_node
    (gives_seq_cons (gives_accept rfl) fun _ _ => gives_look <| gives_ite
      (fun _ => gives_call trivial) fun _ => gives_nothing (s := [one [.name]]) gives_missing)
    (by decide) (by decide)

theorem gives_componentReference :
    componentReference.Gives [[one [.componentReference]]] v :=
  gives_node
    (gives_seq_cons (gives_accept rfl) fun _ _ => gives_seq_cons (gives_call trivial) fun _ _ =>
      gives_many fun _ _ h => gives_shift_call (kind_of_continuesChain h) rfl fun _ => trivial)
    (by decide) (by decide)

theorem gives_componentReferencePart :
    componentReferencePart.Gives [[one [.componentReferencePart]]] v :=
  gives_node
    (gives_seq_cons (gives_expect rfl) fun _ _ => gives_before fun h => gives_call (kind_of_sees h))
    (by decide) (by decide)

/-- A list in square brackets. -/
theorem gives_inBrackets {k : Kind} {context : Context} {rule : Nonterminal}
    (h : v.kind = .lBracket) (hk : (k == .endOfInput) = false) (hr : ∀ w, rule.Ready w) :
    (seq [shift, inContext context <| seq [separated k (call rule), expect .rBracket]]).Gives
      [[one [.lBracket], many (k :: rule.adds.maybe.kinds), opt [.rBracket]]] v :=
  gives_seq_cons (gives_shift_of_kind h rfl) fun _ _ => gives_inContext <|
    gives_seq_cons (gives_separated hk fun w => gives_call (hr w)) fun _ _ => gives_expect rfl

theorem gives_arraySubscripts (h : v.kind = .lBracket) :
    arraySubscripts.Gives [[one [.arraySubscripts]]] v :=
  gives_node (gives_inBrackets h rfl fun _ => trivial) (by decide) (by decide)

theorem gives_subscript : subscript.Gives [[one [.subscript]]] v := by
  refine gives_whole (gives_look (gives_ite (fun h => ?_) fun _ => ?_)) (by decide)
  · simp only [Bool.and_eq_true] at h
    exact gives_of_covers (gives_shift_of_kind (kind_of_sees h.1) rfl) (by decide)
  · exact gives_of_covers (gives_call trivial) (by decide)

theorem gives_leftmost (least : Nat) :
    (leftmost least).Gives [[opt (members .simpleExpression)]] v := by
  have hunary : ∀ w level, w.kind ∈ Schema.unaryOperators →
      (call (.unary level)).Gives [[opt (members .simpleExpression)]] w :=
    fun w level hw => gives_of_covers (gives_call hw) rfl
  refine gives_look ?_
  split
  · exact gives_of_covers (gives_call trivial) (by decide)
  · rename_i level h
    refine gives_ite (fun _ => hunary _ _ (mem_unaryOperators h)) fun _ =>
      gives_after (l := []) gives_fault fun w hw => hunary _ _ ?_
    have ha : w.ahead = v.ahead := hw
    rw [Lookahead.kind, ha]
    exact mem_unaryOperators h

theorem yields_operation (least : Nat) (previous : Option Lookahead) :
    (operation least previous).Yields [[opt (members .simpleExpression)]]
      [[opt (members .simpleExpression)]] v := by
  refine yields_look ?_
  split
  · exact .refl _
  · rename_i level h
    have hreport : ∀ {b : Prop} [Decidable b] {fault : Diagnostic Spot} {c : Variants},
        (if b then report fault else done).Yields c c v :=
      yields_ite (fun _ => Variants.Le.refl _) fun _ => Variants.Le.refl _
    refine yields_seq_cons hreport fun w hw => ?_
    have ha : w.ahead = v.ahead := by split at hw <;> exact hw
    have hk : w.kind ∈ Schema.binaryOperators := by
      rw [Lookahead.kind, ha]
      exact mem_binaryOperators h
    exact Yields.weaken (yields_wrap (gives_seq_cons (gives_shift hk (by decide)) fun _ _ =>
      gives_ite (fun _ => gives_call trivial) fun _ => gives_call trivial) (by decide) rfl)
      (Variants.le_of_covers (by decide))

theorem gives_band (least : Nat) : (band least).Gives [[opt (members .simpleExpression)]] v :=
  gives_group <| yields_seq_cons (yields_of_gives (gives_leftmost least)) fun _ _ =>
    ⟨_, .refl _, .refl _, fun before _ _ => yields_operation least before⟩

theorem gives_unary {level : Nat} (h : v.kind ∈ Schema.unaryOperators) :
    (unary level).Gives [[one [.unaryExpression]]] v :=
  gives_node (gives_seq_cons (gives_shift h (by decide)) fun _ _ => gives_call trivial)
    (by decide) rfl

theorem gives_operand (level : Nat) :
    (operand level).Gives [[opt (members .simpleExpression)]] v :=
  gives_of_covers (gives_deeper (gives_call trivial)) rfl

/-! ## Expressions -/

theorem gives_expression : expression.Gives [[opt (members .expression)]] v := by
  refine gives_of_covers (gives_deeper (s := [opt (members .expression)])
    (gives_look (gives_ite (fun h => ?_) fun _ => gives_group ?_))) (by decide)
  · exact gives_of_covers (gives_call (kind_of_sees h)) (by decide)
  · refine yields_seq_cons (yields_of_gives (gives_call trivial)) fun w _ =>
      yields_before (fun h => ?_) (Variants.le_of_covers (by decide))
    exact Yields.weaken (yields_wrap (gives_seq_cons (gives_shift_of_kind (kind_of_sees h) rfl)
      fun _ _ => gives_seq_cons (gives_call trivial) fun _ _ => gives_before fun h' =>
        gives_shift_call (kind_of_sees h') rfl fun _ => trivial) (by decide) (by decide))
      (Variants.le_of_covers (by decide))

/-- There is an `else`, or there is nothing. -/
theorem gives_elseBranch (opened : Spot) :
    (elseBranch opened).Gives [[], [one [.elseKw], opt (members .expression)]] v :=
  gives_look <| gives_ite
    (fun h => gives_of_covers (gives_shift_call (kind_of_sees h) rfl fun _ => trivial) (by decide))
    fun _ => gives_of_covers gives_report (by decide)

/-- A condition between its keyword and the word behind it, then what it is for. -/
theorem gives_condition {keyword mark : Kind} {p : Production} {ps : List Production}
    {vs : Variants} (h : v.kind = keyword) (hk : (keyword == .endOfInput) = false)
    (hm : (mark == .endOfInput) = false) (hp : ∀ w, (seq (p :: ps)).Gives vs w) :
    (seq (shift :: call .expression :: expect mark :: p :: ps)).Gives
      (Variants.join [[one [keyword], opt (members .expression), opt [mark]]] vs) v := by
  have hall : (seq (shift :: call .expression :: expect mark :: p :: ps)).Gives
      (Variants.join [[one [keyword]]]
        (Variants.join [[opt (members .expression)]] (Variants.join [[opt [mark]]] vs))) v :=
    gives_seq_join (gives_shift_of_kind h hk) fun _ _ => gives_seq_join (gives_call trivial)
      fun _ _ => gives_seq_join (gives_expect hm) fun w _ => hp w
  rwa [← Variants.join_assoc, ← Variants.join_assoc] at hall

theorem gives_ifExpression (h : v.kind = .ifKw) :
    ifExpression.Gives [[one [.ifExpression]]] v := by
  have hclause : ∀ w : Lookahead, w.sees .elseifKw = true →
      (node .elseIfExpressionClause
        [shift, call .expression, expect .thenKw, call .expression]).Gives
        [[one [.elseIfExpressionClause]]] w :=
    fun w hw => gives_node (gives_condition (kind_of_sees hw) rfl rfl fun _ => gives_call trivial)
      (by decide) (by decide)
  exact gives_look <| gives_node
    (gives_seq_join (gives_shift_of_kind h rfl) fun _ _ => gives_opening <|
      gives_seq_join (gives_call trivial) fun _ _ => gives_seq_join (gives_expect rfl) fun _ _ =>
      gives_seq_join (gives_call trivial) fun _ _ =>
      gives_seq_join (gives_many fun _ w hw => hclause w hw) fun _ _ => gives_elseBranch _)
    (by decide) (by decide)

/-- The node in the place of an operand that is missing does not count. -/
theorem gives_missingExpression : missingExpression.Gives [[]] v :=
  gives_look <| gives_after (l := []) gives_fault fun _ _ => gives_error <|
    gives_ite (fun _ => gives_shift_any) fun _ =>
      gives_nothing (s := [opt Kind.significant]) gives_done

theorem gives_primary : primary.Gives [[opt (members .primaryExpression)]] v := by
  have hcall : ∀ w l, w.kind = l → l ∈ [Kind.derKw, .initialKw, .pureKw] →
      (node .functionCall [shift, call .callArguments]).Gives [[one [.functionCall]]] w :=
    fun w l hw hl => gives_node
      (gives_seq_cons (gives_shift (hw ▸ hl) (by decide)) fun _ _ => gives_call trivial)
      (by decide) (by decide)
  have hreference : ∀ w : Lookahead, (group <| seq [call .componentReference,
      before .lParen <| wrap .functionCall (call .callArguments)]).Gives
        [[opt (members .primaryExpression)]] w :=
    fun w => gives_group <| yields_seq_cons (yields_of_gives (gives_call trivial)) fun _ _ =>
      yields_before (fun _ => Yields.weaken
        (yields_wrap (gives_call trivial) (by decide) (by decide))
        (Variants.le_of_covers (by decide))) (Variants.le_of_covers (by decide))
  have hmissing : missingExpression.Gives [[opt (members .primaryExpression)]] v :=
    gives_of_covers gives_missingExpression (by decide)
  refine gives_look ?_
  split
  · exact gives_of_covers (gives_single ‹_› rfl (by decide) (by decide)) (by decide)
  · exact gives_of_covers (gives_single ‹_› rfl (by decide) (by decide)) (by decide)
  · exact gives_of_covers (gives_single ‹_› rfl (by decide) (by decide)) (by decide)
  · exact gives_of_covers (gives_single ‹_› rfl (by decide) (by decide)) (by decide)
  · exact gives_of_covers (gives_single ‹_› rfl (by decide) (by decide)) (by decide)
  · exact gives_of_covers (hcall _ _ ‹_› (by decide)) (by decide)
  · exact gives_of_covers (hcall _ _ ‹_› (by decide)) (by decide)
  · exact gives_of_covers (hcall _ _ ‹_› (by decide)) (by decide)
  · exact hreference _
  · exact hreference _
  · exact gives_of_covers (gives_call ‹_›) (by decide)
  · exact gives_of_covers (gives_call ‹_›) (by decide)
  · exact gives_of_covers (gives_call ‹_›) (by decide)
  · refine gives_ite (fun _ => ?_) fun _ => hmissing
    exact gives_of_covers (gives_single ‹_› rfl (by decide) (by decide)) (by decide)
  · exact hmissing

theorem gives_parenthesized (h : v.kind = .lParen) :
    parenthesized.Gives [[one [.parenthesizedExpression]]] v :=
  gives_node
    (gives_seq_cons (gives_shift_of_kind h rfl) fun _ _ => gives_inContext <|
      gives_seq_cons (gives_look <| gives_unless fun _ => gives_separated rfl fun _ =>
        gives_look <| gives_unless fun _ => gives_call trivial) fun _ _ => gives_expect rfl)
    (by decide) (by decide)

theorem gives_arrayConcatenation (h : v.kind = .lBracket) :
    arrayConcatenation.Gives [[one [.arrayConcatenation]]] v :=
  gives_node (gives_inBrackets h rfl fun _ => trivial) (by decide) (by decide)

theorem gives_forIndices (h : v.kind = .forKw) :
    forIndices.Gives [[one [.forKw], many [.comma, .forIndex]]] v :=
  gives_of_covers
    (gives_seq_cons (gives_shift_of_kind h rfl) fun _ _ =>
      gives_separated rfl fun _ => gives_call trivial)
    (by decide)

theorem gives_forIndex : forIndex.Gives [[one [.forIndex]]] v :=
  gives_node
    (gives_seq_cons (gives_expect rfl) fun _ _ => gives_before fun h =>
      gives_shift_call (kind_of_sees h) rfl fun _ => trivial)
    (by decide) (by decide)

/-- An expression becomes a comprehension where `for` follows it. -/
theorem yields_comprehension (h : v.kind = .forKw) :
    (wrap .comprehensionClause forIndices).Yields [[opt (members .expression)]]
      [[one [.comprehensionClause]]] v :=
  yields_wrap (gives_forIndices h) (by decide) (by decide)

theorem gives_arrayConstructor (h : v.kind = .lBrace) :
    arrayConstructor.Gives [[one [.arrayConstructor]]] v := by
  have hlist : ∀ w, (group <| seq [call .expression, look fun w =>
      if w.sees .forKw then wrap .comprehensionClause forIndices
      else wrap .expressionList <| Production.many (·.sees .comma) fun _ =>
        seq [shift, call .expression]]).Gives
          [[one [.comprehensionClause, .expressionList]]] w := by
    refine fun w => gives_group <| yields_seq_cons (yields_of_gives (gives_call trivial)) fun w _ =>
      yields_look (yields_ite (fun hf => ?_) fun _ => ?_)
    · exact (yields_comprehension (kind_of_sees hf)).weaken (Variants.le_of_covers (by decide))
    · exact Yields.weaken (yields_wrap (gives_many fun _ _ hc => gives_shift_call (kind_of_sees hc)
        rfl fun _ => trivial) (by decide) (by decide)) (Variants.le_of_covers (by decide))
  exact gives_node
    (gives_seq_cons (gives_shift_of_kind h rfl) fun _ _ => gives_inContext <|
      gives_seq_cons (gives_look <| gives_unless fun _ => hlist _) fun _ _ => gives_expect rfl)
    (by decide) (by decide)

theorem gives_expressionList : expressionList.Gives [[one [.expressionList]]] v :=
  gives_node (gives_separated rfl fun _ => gives_call trivial) (by decide) (by decide)

/-! ## Arguments -/

theorem gives_callArguments : callArguments.Gives [Shape.callArguments.maybe] v :=
  gives_of_covers
    (gives_expectThen rfl fun _ => gives_inContext <|
      gives_seq_cons (gives_look <| gives_unless fun _ => gives_call trivial) fun _ _ =>
      gives_expect rfl)
    (by decide)

theorem gives_argumentsAfterNamed :
    argumentsAfterNamed.Gives [[many [.comma, .namedArgument, .functionArgument]]] v := by
  have hitem : ∀ w : Lookahead, (look fun v =>
      if v.atNamedArgument then call .namedArgument
      else seq [
        report { Diagnostic.ofCode .positionalAfterNamed v.index with
          found := v.found, hint := some "move positional arguments before the named ones" },
        call .functionArgument]).Gives [[opt [.namedArgument, .functionArgument]]] w :=
    fun w => gives_look <| gives_ite (fun _ => gives_of_covers (gives_call trivial) (by decide))
      fun _ => gives_after (l := []) gives_report fun _ _ =>
        gives_of_covers (gives_call trivial) (by decide)
  exact gives_of_covers
    (gives_many fun _ _ h => gives_seq_cons (gives_shift_of_kind (kind_of_sees h) rfl)
      fun _ _ => hitem _)
    (by decide)

theorem gives_firstArgument :
    firstArgument.Gives [[opt [.comprehensionClause, .functionArgument]]] v := by
  refine gives_look (gives_ite (fun _ => ?_) fun _ => gives_group ?_)
  · exact gives_of_covers (gives_call trivial) (by decide)
  · refine yields_seq_cons (yields_of_gives (gives_call trivial)) fun w _ =>
      yields_look (yields_ite (fun hf => ?_) fun _ => ?_)
    · exact (yields_comprehension (kind_of_sees hf)).weaken (Variants.le_of_covers (by decide))
    · exact Yields.weaken (yields_wrap gives_done (by decide) (by decide))
        (Variants.le_of_covers (by decide))

theorem gives_functionArguments : functionArguments.Gives [[one [.functionArguments]]] v := by
  refine gives_whole (gives_look (gives_ite (fun _ => ?_) fun _ => ?_)) (by decide)
  · exact gives_of_covers
      (gives_seq_cons (gives_call trivial) fun _ _ => gives_argumentsAfterNamed) (by decide)
  · have hkind : ∀ w : Lookahead,
        (w.sees .comma && !(w.nth 1 == .ident && w.nth 2 == .equals)) = true → w.kind = .comma := by
      intro w hw
      simp only [Bool.and_eq_true] at hw
      exact kind_of_sees hw.1
    exact gives_of_covers
      (gives_seq_cons gives_firstArgument fun _ _ =>
        gives_seq_cons (gives_many fun _ w hw => gives_shift_call (hkind w hw) rfl fun _ => trivial)
        fun _ _ => gives_argumentsAfterNamed)
      (by decide)

theorem gives_functionArgument : functionArgument.Gives [[one [.functionArgument]]] v := by
  refine gives_whole (gives_look (gives_ite (fun h => ?_) fun _ => ?_)) (by decide)
  · exact gives_of_covers (gives_call (kind_of_sees h)) (by decide)
  · exact gives_of_covers (gives_call trivial) (by decide)

theorem gives_namedArgument : namedArgument.Gives [[one [.namedArgument]]] v :=
  gives_node
    (gives_seq_cons (gives_expect rfl) fun _ _ => gives_seq_cons (gives_expect rfl) fun _ _ =>
      gives_call trivial)
    (by decide) (by decide)

theorem gives_partialApplication (h : v.kind = .functionKw) :
    partialApplication.Gives [[one [.functionPartialApplication]]] v :=
  gives_node
    (gives_seq_cons (gives_shift_of_kind h rfl) fun _ _ => gives_seq_cons (gives_call trivial)
      fun _ _ => gives_expectThen rfl fun _ => gives_seq_cons (gives_look <| gives_unless fun _ =>
        gives_separated rfl fun _ => gives_call trivial) fun _ _ => gives_expect rfl)
    (by decide) (by decide)

end Grammar

end Modelica
