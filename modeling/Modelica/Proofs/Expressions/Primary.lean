import Modelica.Proofs.Contracts
import Modelica.Proofs.Reads.Dispatch

/-!
# Names and primary expressions are read as they are written down

One lemma for each rule that primary expressions are made of, all but those of the operators and of
the arguments: its right-hand side in `Modelica.Grammar` reads the one that `Nonterminal.form`
gives.
-/

namespace Modelica.Grammar

open Production Token

variable {ends : Kind → Prop} {inner : Bool}

/-! ## Names and references -/

theorem kinds_of_continuesChain {ts : List Token} (h : continuesChain ts = true) :
    kindAt ts 0 = .dot ∧ kindAt ts 1 = .ident := by
  simpa [continuesChain] using h

theorem continuesChain_eq_false {ts : List Token} (h : headKind ts ≠ .dot) :
    continuesChain ts = false := by
  have : (kindAt ts 0 == .dot) = false := by simpa [kindAt] using h
  simp [continuesChain, this]

/-- A point and what starts with an identifier go on with a chain. -/
theorem continuesChain_of_derives {f : Form} (hf : f.opens inner [.ident] = true)
    (he : Allows ends inner) {n : Nat} {ts : List Token} {us : List Tree} {k : Kind}
    (h : Derives ends (.seq (.leaf .dot) f) n ts us k) (rest : List Token) :
    continuesChain (ts ++ rest) = true := by
  obtain ⟨t, vs, _, rfl, -, ht, hg⟩ := h.of_leaf_seq
  have hv : headKind (vs ++ rest) = .ident :=
    List.mem_singleton.mp (headKind_of_opens he hf hg rest)
  simpa [continuesChain, kindAt, headKind, ht] using hv

theorem isRead_name : Nonterminal.name.IsRead ends :=
  reads_node <| reads_seq_cons (reads_expect (by decide))
    (reads_many
      (reads_shifts_two (by decide) (by decide) fun _ h => kinds_of_continuesChain h)
      (fun _ h => h)
      (fun he _ _ _ _ rest hd ha _ => by
        rw [Lookahead.continuesChain, ha]
        exact continuesChain_of_derives (by decide) he hd rest)
      (fun _ h => h) fits_any)
    fits_any

theorem isRead_typeSpecifier : Nonterminal.typeSpecifier.IsRead ends := by
  have hname : (look fun v => if v.sees .ident then call .name
      else missing .missingType [.ident]).Reads (.rule .name) ends true anywhere
        Nonterminal.name.Stops :=
    reads_guard (sees_eq_contains · .ident)
      (reads_call (fun _ _ => trivial) fun _ => rfl) (by decide) fun _ => fails_missing
  refine Reads.mono
    (reads_node <| reads_seq_cons (reads_accept (by decide)) hname (fits_of_first (by decide)))
    (fun _ _ => trivial) fun _ rest h => ?_
  exact continuesChain_eq_false (by simpa [Nonterminal.Stops, Stop.except, Stop.Holds] using h)

theorem isRead_componentReferencePart : Nonterminal.componentReferencePart.IsRead ends :=
  Reads.weaken
    (reads_node <| reads_seq_cons (reads_expect (by decide))
      (reads_before (reads_call (fun _ h => List.mem_singleton.mp h) fun _ => rfl) (by decide))
      fits_any)
    (by decide)

/-- Parts with points between them. -/
theorem reads_parts : (seq [call .componentReferencePart,
      many Lookahead.continuesChain fun _ => seq [shift, call .componentReferencePart]]).Reads
    (.separated .dot (.rule .componentReferencePart)) ends true anywhere
    (.except [.dot, .lBracket]) := by
  have hlink : (seq [shift, call .componentReferencePart]).Reads
      (.seq (.leaf .dot) (.rule .componentReferencePart)) ends true
      (fun ts => continuesChain ts = true) Nonterminal.componentReferencePart.Stops :=
    reads_andThen
      (reads_shift (fun _ h => by simpa [kindAt] using (kinds_of_continuesChain h).1) (by decide))
      (reads_call (fun _ _ => trivial) fun _ => rfl) fits_any
  have hstop : ∀ (v : Lookahead), (Stop.except [.dot, .lBracket]).Holds v.constructs v.ahead →
      v.continuesChain = false := by
    intro v h
    have hk : headKind v.ahead ≠ .dot ∧ headKind v.ahead ≠ .lBracket := by
      simpa [Stop.except, Stop.Holds] using h
    exact continuesChain_eq_false hk.1
  exact reads_andThen (reads_call (fun _ _ => trivial) fun _ => rfl)
    (reads_many hlink (fun _ h => h)
      (fun he v _ _ _ rest hd ha _ => by
        rw [Lookahead.continuesChain, ha]
        exact continuesChain_of_derives (by decide) he hd rest)
      hstop (fits_of_clears (by decide)))
    (fits_of_clears (by decide))

theorem isRead_componentReference : Nonterminal.componentReference.IsRead ends :=
  Reads.weaken
    (reads_node <| reads_seq_cons (reads_accept (by decide)) reads_parts
      (fits_of_clears (by decide)))
    (by decide)

theorem isRead_arraySubscripts : Nonterminal.arraySubscripts.IsRead ends :=
  reads_node <| reads_seq_cons (reads_shift (fun _ h => List.mem_singleton.mpr h) (by decide))
    (reads_inContext <| reads_seq_cons
      (reads_separated (by decide) (reads_call (fun _ _ => trivial) fun _ => rfl) (by decide))
      (reads_expect (by decide)) (fits_of_clears (by decide)))
    fits_any

theorem isRead_subscript : Nonterminal.subscript.IsRead ends := by
  have hcolon : shift.Reads (.leaf .colon) ends true (atOneOf [.colon])
      Nonterminal.subscript.Stops :=
    reads_shift (fun _ h => h) (by decide)
  have hcall : (call .expression).Reads (.rule .expression) ends true anywhere
      Nonterminal.subscript.Stops :=
    Reads.weaken (reads_call (fun _ _ => trivial) fun _ => rfl) (by decide)
  refine reads_node (reads_ite hcolon hcall (fun v ht _ => ?_) (fun _ _ _ => trivial) ?_ ?_)
  · simp only [Bool.and_eq_true] at ht
    exact mem_of_sees ht.1
  · intro he v n ts us rest hd ha hs
    cases hd with
    | @token _ t _ _ ht =>
      have h0 : t.kind = .colon := List.mem_singleton.mp ht
      have h1 : headKind rest = .comma ∨ headKind rest = .rBracket := by
        simpa [Nonterminal.Stops, Stop.only, Stop.Holds] using hs
      simpa [Lookahead.sees, Lookahead.kind, Lookahead.nth, kindAt, ha, headKind, h0] using h1
  · intro he v n ts us rest hd ha _
    have hk : headKind (ts ++ rest) ∈ Kind.expressionStart true :=
      headKind_of_opens he (by decide) hd rest
    have hne : v.sees .colon = false := by
      rw [sees_eq_contains, Lookahead.kind, ha]
      generalize headKind (ts ++ rest) = k at hk
      revert hk
      revert k
      decide
    simp [hne]

/-! ## Expressions -/

theorem isRead_expression : Nonterminal.expression.IsRead ends := by
  have hsecond : (seq [shift, call .simpleExpression]).Reads
      (.sequence [.leaf .colon, .rule .simpleExpression]) ends true (atOneOf [.colon])
      Nonterminal.simpleExpression.Stops :=
    reads_seq_cons (reads_shift (fun _ h => h) (by decide))
      (reads_call (fun _ _ => trivial) fun _ => rfl) fits_any
  have hrange : (seq [shift, call .simpleExpression,
        before .colon <| seq [shift, call .simpleExpression]]).Reads
      (.sequence [.leaf .colon, .rule .simpleExpression,
        .opt (.sequence [.leaf .colon, .rule .simpleExpression])]) ends true (atOneOf [.colon])
      Nonterminal.expression.Stops :=
    Reads.weaken
      (reads_seq_cons (reads_shift (fun _ h => h) (by decide))
        (reads_seq_cons (reads_call (fun _ _ => trivial) fun _ => rfl)
          (reads_before hsecond (by decide)) (fits_of_clears (by decide)))
        fits_any)
      (by decide)
  have hsimple : (call .simpleExpression).Reads (.rule .simpleExpression) ends true anywhere
      Nonterminal.simpleExpression.Stops :=
    reads_call (fun _ _ => trivial) fun _ => rfl
  have hif : (call .ifExpression).Reads (.rule .ifExpression) ends true (atOneOf [.ifKw])
      Nonterminal.expression.Stops :=
    reads_call (fun _ h => List.mem_singleton.mp h) fun _ => rfl
  exact reads_deeper (reads_ite_kind (sees_eq_contains · .ifKw) hif
    (reads_group_closes hsimple (closes_ite (sees_eq_contains · .colon)
      (closes_wrap hrange (fun _ h => List.contains_iff_mem.mp h) (fits_of_first (by decide))
        (fits_of_first (by decide)))
      (closes_done (Stop.holds_of_kinds (by decide)) (Stop.holds_of_kinds (by decide)))
      fun _ => rfl))
    (by decide) (fits_of_clears (by decide)))

theorem reads_call_expression : (call .expression).Reads (.rule .expression) ends inner anywhere
    Nonterminal.expression.Stops :=
  reads_call (fun _ _ => trivial) fun _ => rfl

/-- A condition between its keyword and the word behind it, then what it is for. -/
theorem reads_condition {keyword mark : Kind} {start : List Token → Prop} {p : Production}
    {ps : List Production} {f : Form} {fs : List Form} {stop : Stop}
    (hs : ∀ ts, start ts → headKind ts = keyword) (hk : keyword ≠ .endOfInput)
    (hm : mark ≠ .endOfInput) (ha : mark ∉ Kind.afterExpression)
    (hp : (seq (p :: ps)).Reads (.sequence (f :: fs)) ends inner anywhere stop) :
    (seq (shift :: call .expression :: expect mark :: p :: ps)).Reads
      (.sequence (.leaf keyword :: .rule .expression :: .leaf mark :: f :: fs)) ends inner start
      stop := by
  have hmark : Fits ends inner Nonterminal.expression.Stops
      (.sequence (.leaf mark :: f :: fs)) stop :=
    fits_of_first (by simp [Form.sequence, Form.leaf, Form.nullable, Form.first, ha])
  exact reads_seq_cons
    (reads_shift (fun ts h => List.mem_singleton.mpr (hs ts h)) (by simpa using hk.symm))
    (reads_seq_cons reads_call_expression (reads_seq_cons (reads_expect hm) hp fits_any) hmark)
    fits_any

theorem isRead_ifExpression : Nonterminal.ifExpression.IsRead ends := by
  have hexpr : (call .expression).Reads (.rule .expression) ends true anywhere
      Nonterminal.expression.Stops :=
    reads_call_expression
  have hclause : (node .elseIfExpressionClause [
        shift, call .expression, expect .thenKw, call .expression]).Reads
      (.node .elseIfExpressionClause (.sequence [
        .leaf .elseifKw, .rule .expression, .leaf .thenKw, .rule .expression])) ends true
      (atOneOf [.elseifKw]) Nonterminal.expression.Stops :=
    reads_node <| reads_condition (fun _ h => List.mem_singleton.mp h) (by decide) (by decide)
      (by decide) hexpr
  have helse : ∀ opened, (elseBranch opened).Reads
      (.sequence [.leaf .elseKw, .rule .expression]) ends true anywhere
      Nonterminal.expression.Stops := fun opened =>
    reads_guard (sees_eq_contains · .elseKw)
      (reads_seq_cons (reads_shift (fun _ h => h) (by decide)) hexpr fits_any)
      (by decide) fun _ => rfl
  exact reads_look fun start => reads_node <|
    reads_seq_cons (reads_shift (fun _ h => List.mem_singleton.mpr h) (by decide))
      (reads_opening
        (reads_seq_cons hexpr
          (reads_seq_cons (reads_expect (by decide))
            (reads_seq_cons hexpr
              (reads_seq_cons
                (reads_many_kind (sees_eq_contains · .elseifKw) hclause (by decide) (by decide))
                (helse start.index) (fits_of_clears (by decide)))
              (fits_of_clears (by decide)))
            fits_any)
          (fits_of_clears (by decide)))
        fun _ _ h => h)
      fits_any

theorem isRead_simpleExpression : Nonterminal.simpleExpression.IsRead ends :=
  reads_call (fun _ _ => trivial) fun _ => rfl

theorem isRead_operand (least : Nat) : (Nonterminal.operand least).IsRead ends :=
  reads_deeper (reads_call (fun _ _ => trivial) fun _ => rfl)

theorem mem_prefixOperators {k : Kind} {least : Nat} (h : Band.unaryLevel? k = some least) :
    k ∈ Nonterminal.prefixOperators least := by
  have hall : (Kind.all.all fun k => (Band.unaryLevel? k).all fun least =>
      (Nonterminal.prefixOperators least).contains k) = true := by decide
  have := List.all_eq_true.mp hall k (Kind.mem_all k)
  rw [h] at this
  exact List.contains_iff_mem.mp this

theorem isRead_unary (least : Nat) : (Nonterminal.unary least).IsRead ends := by
  refine reads_node <| reads_seq_cons (reads_shift (fun _ h => mem_prefixOperators h) ?_)
    (reads_call (fun _ _ => trivial) fun _ => rfl) fits_any
  rcases least with _ | _ | _ | _ | _ | _ | _ <;> simp [Nonterminal.prefixOperators, Band.additive]

/-! ## Primary expressions -/

theorem reads_single {k l : Kind} (hl : l ≠ .endOfInput) {start : List Token → Prop}
    (hs : ∀ ts, start ts → headKind ts ∈ [l]) :
    (single k).Reads (.node k (.leaf l)) ends inner start .any :=
  reads_node (reads_shift hs (by simpa using hl.symm))

theorem isRead_callArguments : Nonterminal.callArguments.IsRead ends :=
  reads_expectThen (by decide) <| reads_inContext <| reads_seq_cons
    (reads_unless (sees_eq_contains · .rParen)
      (reads_call (fun _ _ => trivial) fun _ => rfl) (by decide) rfl)
    (reads_expect (by decide)) (fits_of_clears (by decide))

theorem isRead_functionArgument : Nonterminal.functionArgument.IsRead ends := by
  have hpartial : (call .partialApplication).Reads (.rule .partialApplication) ends true
      (atOneOf [.functionKw]) (.except Kind.afterExpression) :=
    Reads.weaken (reads_call (fun _ h => List.mem_singleton.mp h) fun _ => rfl) (by decide)
  exact reads_node (reads_ite_kind (sees_eq_contains · .functionKw) hpartial
    (reads_call (fun _ _ => trivial) fun _ => rfl) (by decide) (fits_of_clears (by decide)))

theorem isRead_namedArgument : Nonterminal.namedArgument.IsRead ends :=
  reads_node <| reads_seq_cons (reads_expect (by decide))
    (reads_seq_cons (reads_expect (by decide))
      (reads_call (fun _ _ => trivial) fun _ => rfl) fits_any)
    fits_any

theorem isRead_partialApplication : Nonterminal.partialApplication.IsRead ends :=
  reads_node <| reads_seq_cons (reads_shift (fun _ h => List.mem_singleton.mpr h) (by decide))
    (reads_seq_cons (reads_call (fun _ _ => trivial) fun _ => rfl)
      (reads_expectThen (by decide) <| reads_seq_cons
        (reads_unless (sees_eq_contains · .rParen)
          (reads_separated (by decide) (reads_call (fun _ _ => trivial) fun _ => rfl) (by decide))
          (by decide) rfl)
        (reads_expect (by decide)) (fits_of_clears (by decide)))
      (fits_of_first (by decide)))
    fits_any

theorem isRead_forIndex : Nonterminal.forIndex.IsRead ends := by
  have hin : (seq [shift, call .expression]).Reads (.sequence [.leaf .inKw, .rule .expression])
      ends true (atOneOf [.inKw]) Nonterminal.expression.Stops :=
    reads_seq_cons (reads_shift (fun _ h => h) (by decide))
      (reads_call (fun _ _ => trivial) fun _ => rfl) fits_any
  exact Reads.weaken
    (reads_node <|
      reads_seq_cons (reads_expect (by decide)) (reads_before hin (by decide)) fits_any)
    (by decide)

theorem isRead_expressionList : Nonterminal.expressionList.IsRead ends :=
  Reads.weaken
    (reads_node <| reads_separated (by decide)
      (reads_call (fun _ _ => trivial) fun _ => rfl) (by decide))
    (by decide)

theorem isRead_parenthesized : Nonterminal.parenthesized.IsRead ends := by
  have hposition : (look fun v => if v.seesAny [.comma, .rParen] then done
        else call .expression).Reads (.opt (.rule .expression)) ends true anywhere
        (.only [.comma, .rParen]) :=
    reads_unless (fun _ => rfl) (reads_call (fun _ _ => trivial) fun _ => rfl) (by decide) rfl
  have hnil : ∀ {n us k}, Derives ends (.separated .comma (.opt (.rule .expression))) n [] us k →
      us = [] := by
    intro n us k h
    generalize hts : ([] : List Token) = ts at h
    cases h with
    | @seq _ _ _ ts₁ us₁ ts₂ us₂ _ hf hg =>
      obtain ⟨rfl, rfl⟩ := List.append_eq_nil_iff.mp hts.symm
      have hfirst : us₁ = [] := by
        cases hf with
        | left h => exact absurd h (derives_nil rfl)
        | right h => cases h; rfl
      have hmore : ∀ {n us k f}, f.nullable = false → Derives ends (.many f) n [] us k →
          us = [] := by
        intro n us k f hf h
        generalize hts : ([] : List Token) = ts at h
        cases h with
        | none => rfl
        | @more _ _ ts₁ us₁ _ _ _ h' _ =>
          obtain ⟨rfl, rfl⟩ := List.append_eq_nil_iff.mp hts.symm
          exact absurd h' (derives_nil hf)
      rw [hfirst, hmore rfl hg]
      rfl
  exact reads_node <| reads_seq_cons
    (reads_shift (fun _ h => List.mem_singleton.mpr h) (by decide))
    (reads_inContext <| reads_seq_cons
      (reads_unless_nil (sees_eq_contains · .rParen) (reads_separated (by decide) hposition
        (by decide)) (by decide) hnil)
      (reads_expect (by decide)) (fits_of_clears (by decide)))
    fits_any

theorem isRead_arrayConcatenation : Nonterminal.arrayConcatenation.IsRead ends :=
  reads_node <| reads_seq_cons (reads_shift (fun _ h => List.mem_singleton.mpr h) (by decide))
    (reads_inContext <| reads_seq_cons
      (reads_separated (by decide) (reads_call (fun _ _ => trivial) fun _ => rfl) (by decide))
      (reads_expect (by decide)) (fits_of_clears (by decide)))
    fits_any

theorem reads_forIndices : forIndices.Reads .forIndices ends true (atOneOf [.forKw])
    (.except (.comma :: .inKw :: Kind.afterExpression)) :=
  Reads.weaken
    (reads_seq_cons (reads_shift (fun _ h => h) (by decide))
      (reads_separated (by decide) (reads_call (fun _ _ => trivial) fun _ => rfl) (by decide))
      fits_any)
    (by decide)

theorem isRead_arrayConstructor : Nonterminal.arrayConstructor.IsRead ends := by
  have hitem : (seq [shift, call .expression]).Reads (.sequence [.leaf .comma, .rule .expression])
      ends true (atOneOf [.comma]) Nonterminal.expression.Stops :=
    reads_seq_cons (reads_shift (fun _ h => h) (by decide)) reads_call_expression fits_any
  have hmore : (many (·.sees .comma) fun _ => seq [shift, call .expression]).Reads
      (.many (.sequence [.leaf .comma, .rule .expression])) ends true anywhere
      (.only [.rBrace]) :=
    Reads.weaken (reads_many_kind (sees_eq_contains · .comma) hitem (by decide) (by decide))
      (by decide)
  have hfor : forIndices.Reads .forIndices ends true (atOneOf [.forKw]) (.only [.rBrace]) :=
    Reads.weaken reads_forIndices (by decide)
  have hbody := reads_group_closes reads_call_expression (closes_ite (sees_eq_contains · .forKw)
    (closes_wrap (k := .comprehensionClause) hfor (fun _ h => List.contains_iff_mem.mp h)
      (fits_of_first (by decide)) (fits_of_first (by decide)))
    (closes_wrap (k := .expressionList) hmore (fun _ _ => trivial) (fits_of_clears (by decide))
      (fits_of_clears (by decide)))
    fun _ => rfl)
  exact reads_node <| reads_seq_cons
    (reads_shift (fun _ h => List.mem_singleton.mpr h) (by decide))
    (reads_inContext <| reads_seq_cons
      (reads_unless (sees_eq_contains · .rBrace) hbody (by decide) rfl)
      (reads_expect (by decide)) (fits_of_clears (by decide)))
    fits_any

/-! ## Dispatch on primary expressions -/

/-- An `end` that does not start the end of a class or of a block. -/
theorem endIsExpression_iff {v : Lookahead} :
    v.endIsExpression = true ↔ v.kind = .endKw ∧ endGuarded (v.nth 1) := by
  rw [Lookahead.endIsExpression, Bool.and_eq_true]
  refine and_congr beq_iff_eq ?_
  generalize v.nth 1 = k
  cases k <;> simp [endGuarded]

theorem reads_endExpression : (single .endExpression).Reads (.node .endExpression .endToken) ends
    true (fun ts => ∃ v : Lookahead, v.ahead = ts ∧ v.endIsExpression = true)
    Nonterminal.primary.Stops := by
  refine reads_node ⟨?_, ?_⟩
  · rintro env r r' ⟨v, hv, h⟩ hd
    obtain ⟨hk, hg⟩ := endIsExpression_iff.mp h
    obtain rfl : r' = r.shift := hd
    cases ha : r.ahead with
    | nil =>
      rw [Lookahead.kind, hv, ha] at hk
      cases hk
    | cons t ts =>
      rw [Lookahead.kind, hv, ha] at hk
      rw [Lookahead.nth, hv, ha] at hg
      rw [Reading.shift_cons ha]
      exact ⟨[t], [.leaf t], ha, rfl, .endToken hk hg⟩
  · rintro - env r n ts us rest ⟨t, -, -, rfl, rfl⟩ ha - -
    exact takes_shift ha

/-- A component reference, and the arguments of a call if there are any. -/
theorem reads_reference : (group <| seq [call .componentReference,
      before .lParen <| wrap .functionCall (call .callArguments)]).Reads
    (.alt (.node .functionCall (.sequence [.rule .componentReference, .rule .callArguments]))
      (.rule .componentReference)) ends true anywhere Nonterminal.primary.Stops := by
  have href : (call .componentReference).Reads (.rule .componentReference) ends true anywhere
      Nonterminal.componentReference.Stops :=
    reads_call (fun _ _ => trivial) fun _ => rfl
  have hcall : (call .callArguments).Reads (.rule .callArguments) ends true anywhere .any :=
    reads_call (fun _ _ => trivial) fun _ => rfl
  have hclosed : (wrap .functionCall (call .callArguments)).Closes (.rule .componentReference)
      (.node .functionCall (.sequence [.rule .componentReference, .rule .callArguments])) ends true
      ([.lParen] : List Kind).contains Nonterminal.componentReference.Stops
      Nonterminal.primary.Stops :=
    closes_wrap hcall.of_any (fun _ _ => trivial) (fits_of_first (by decide))
      (fits_of_first (by decide))
  have hbare : done.Closes (.rule .componentReference) (.rule .componentReference) ends true
      (fun k => !([.lParen] : List Kind).contains k) Nonterminal.componentReference.Stops
      Nonterminal.primary.Stops :=
    closes_done (Stop.holds_of_kinds (by decide)) (Stop.holds_of_kinds (by decide))
  exact reads_group_closes href
    (closes_ite (sees_eq_contains · .lParen) hclosed hbare fun _ => rfl)

/-- The ways to read a primary expression. -/
def primaryBranches : List Branch := [
  ⟨fun v => v.kind ∈ [.unsignedInteger], single .unsignedIntegerLiteral,
    .node .unsignedIntegerLiteral (.leaf .unsignedInteger)⟩,
  ⟨fun v => v.kind ∈ [.unsignedReal], single .unsignedRealLiteral,
    .node .unsignedRealLiteral (.leaf .unsignedReal)⟩,
  ⟨fun v => v.kind ∈ [.string], single .stringLiteral, .node .stringLiteral (.leaf .string)⟩,
  ⟨fun v => v.kind ∈ [.trueKw, .falseKw], single .logicalLiteral,
    .node .logicalLiteral (.token [.trueKw, .falseKw])⟩,
  ⟨fun v => v.kind ∈ [.derKw, .initialKw, .pureKw],
    node .functionCall [shift, call .callArguments],
    .node .functionCall (.sequence [.token [.derKw, .initialKw, .pureKw], .rule .callArguments])⟩,
  ⟨fun v => v.kind ∈ [.ident, .dot],
    group <| seq [call .componentReference,
      before .lParen <| wrap .functionCall (call .callArguments)],
    .alt (.node .functionCall (.sequence [.rule .componentReference, .rule .callArguments]))
      (.rule .componentReference)⟩,
  ⟨fun v => v.kind ∈ [.lParen], call .parenthesized, .rule .parenthesized⟩,
  ⟨fun v => v.kind ∈ [.lBracket], call .arrayConcatenation, .rule .arrayConcatenation⟩,
  ⟨fun v => v.kind ∈ [.lBrace], call .arrayConstructor, .rule .arrayConstructor⟩,
  ⟨fun v => v.endIsExpression = true, single .endExpression, .node .endExpression .endToken⟩]

theorem isRead_primary : Nonterminal.primary.IsRead ends := by
  have hcall : ∀ {rule : Nonterminal} {k : Kind}, (∀ ts, headKind ts = k → rule.Expects ts) →
      rule.Stops = .any → rule.inner = true →
      (call rule).Reads (.rule rule) ends true (atOneOf [k]) Nonterminal.primary.Stops := by
    intro rule k hs ha hi
    exact Reads.of_any (ha ▸ reads_call (fun _ h => hs _ (List.mem_singleton.mp h)) fun _ => hi)
  refine reads_dispatch primaryBranches ?_ fun v _ h => ?_
  · simp only [primaryBranches, List.forall_mem_cons]
    refine ⟨?_, ?_, ?_, ?_, ?_, ?_, ?_, ?_, ?_, ?_, fun _ h => absurd h List.not_mem_nil⟩
    · exact serves_of_kinds (by simp +contextual) (Reads.of_any (reads_single (by decide) fun _ =>
        id))
        (by decide)
    · exact serves_of_kinds (by simp +contextual) (Reads.of_any (reads_single (by decide) fun _ =>
        id))
        (by decide)
    · exact serves_of_kinds (by simp +contextual) (Reads.of_any (reads_single (by decide) fun _ =>
        id))
        (by decide)
    · exact serves_of_kinds (by simp +contextual)
        (Reads.of_any (reads_node (reads_shift (fun _ => id) (by decide)))) (by decide)
    · exact serves_of_kinds (by simp +contextual)
        (Reads.of_any (reads_node (reads_seq_cons (reads_shift (fun _ => id) (by decide))
          (reads_call (fun _ _ => trivial) fun _ => rfl) fits_any))) (by decide)
    · exact serves_of_kinds (by simp +contextual) (reads_reference.mono (fun _ _ => trivial)
        fun _ _ => id) (by decide)
    · exact serves_of_kinds (by simp +contextual) (hcall (fun _ => id) rfl rfl) (by decide)
    · exact serves_of_kinds (by simp +contextual) (hcall (fun _ => id) rfl rfl) (by decide)
    · exact serves_of_kinds (by simp +contextual) (hcall (fun _ => id) rfl rfl) (by decide)
    · exact {
        next := by
          intro v h
          have hv : v.endIsExpression = true := h
          simp [(endIsExpression_iff.mp hv).1, hv]
        read := reads_endExpression.mono (fun _ h => h.2) fun _ _ => id
        opens := by
          intro he v n ts us rest hd ha _
          cases hd with
          | node hd =>
            cases hd with
            | endToken ht hk =>
              refine endIsExpression_iff.mpr ⟨?_, ?_⟩
              · rw [Lookahead.kind, ha]
                exact ht
              · rw [Lookahead.nth, ha]
                exact he.guarded _ hk }
  · simp only [primaryBranches, List.forall_mem_cons] at h
    split <;> rename_i hk
    case h_14 =>
      rw [if_neg h.2.2.2.2.2.2.2.2.2.1]
      exact fails_missingExpression
    case h_15 => exact fails_missingExpression
    all_goals simp [hk] at h

end Modelica.Grammar
