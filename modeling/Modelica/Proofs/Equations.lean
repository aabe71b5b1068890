import Modelica.Proofs.Elements
import Modelica.Proofs.Groups

/-!
# Equations, statements and blocks are read as they are written down

One lemma for each rule of equations and statements. In the body of a block it depends on the open
blocks where the body ends; behind the items of a block its own clauses and its own `end` are known
to come (`Stop.inBlock`).
-/

namespace Modelica

open Token

/-- One of these kinds comes next, and this block is the innermost open one. -/
def Stop.inBlock (block : OpenConstruct) (ks : List Kind) : Stop :=
  test fun constructs rest => constructs.head? = some block ∧ headKind rest ∈ ks

namespace Grammar

open Production

variable {ends : Kind → Prop}

/-! ## Equations -/

theorem reads_rightSide : (look fun v =>
      match v.kind with
      | .equals => seq [shift, call .expression]
      | .assign => seq [
          report { Diagnostic.ofCode .assignInEquation v.index with
            expected := [.equals], found := some .assign,
            hint := some "equations use `=`; `:=` belongs in algorithm sections" },
          shift,
          call .expression]
      | _ => missing .missingEquals [.equals]).Reads
    (.sequence [.leaf .equals, .rule .expression]) ends false anywhere
    Nonterminal.expression.Stops := by
  have hequals : (seq [shift, call .expression]).Reads
      (.sequence [.leaf .equals, .rule .expression])
      ends false (atOneOf [.equals]) Nonterminal.expression.Stops :=
    reads_seq_cons (reads_shift (fun _ h => h) (by decide)) reads_call_expression fits_any
  refine reads_dispatch [⟨fun v => v.kind ∈ [.equals], seq [shift, call .expression],
    .sequence [.leaf .equals, .rule .expression]⟩] ?_ fun v _ h => ?_
  · exact List.forall_mem_singleton.mpr
      (serves_of_kinds (by simp +contextual) hequals (by decide))
  · have hk := List.forall_mem_singleton.mp h
    split
    · exact absurd (List.mem_singleton.mpr ‹_›) hk
    · exact rfl
    · exact fails_missing

theorem isRead_simpleEquation : Nonterminal.simpleEquation.IsRead ends :=
  reads_node
    (reads_seq_cons (reads_call (fun _ _ => trivial) nofun)
      (reads_assoc (reads_andThen reads_rightSide reads_itemEnd (fits_of_clears (by decide))))
      (fits_of_first (by decide)))

theorem isRead_specialEquation : Nonterminal.specialEquation.IsRead ends := by
  have harguments : (seq [call .callArguments, itemEnd]).Reads
      (.sequence [.rule .callArguments, .itemEnd]) ends false anywhere .any :=
    reads_andThen (reads_call (fun _ _ => trivial) nofun) reads_itemEnd fits_any
  exact reads_node (reads_andThen (reads_call (fun _ _ => trivial) nofun) harguments
    (fits_of_first (by decide)))

theorem isRead_connectEquation : Nonterminal.connectEquation.IsRead ends :=
  reads_node (reads_andThen (reads_call (fun _ h => h) nofun) reads_itemEnd fits_any)

theorem kind_of_atPrimaryStart {v : Lookahead}
    (h : (v.atPrimaryStart || (Band.unaryLevel? v.kind).isSome) = true) :
    v.kind ∈ Kind.operandStart true := by
  rcases (Bool.or_eq_true _ _).mp h with h | h
  · unfold Lookahead.atPrimaryStart at h
    split at h <;> rename_i hk
    case h_15 => cases h
    all_goals
      rw [hk]
      decide
  · obtain ⟨level, hl⟩ := Option.isSome_iff_exists.mp h
    have hprefix := mem_prefixOperators hl
    unfold Nonterminal.prefixOperators at hprefix
    split at hprefix
    · exact List.mem_cons.mpr (.inl (List.mem_singleton.mp hprefix))
    · exact List.mem_cons_of_mem _ (List.mem_append_left _ hprefix)
    · cases hprefix

theorem atPrimaryStart_of_kind {v : Lookahead} (h : v.kind ∈ Kind.operandStart false) :
    (v.atPrimaryStart || (Band.unaryLevel? v.kind).isSome) = true := by
  unfold Lookahead.atPrimaryStart
  generalize v.endIsExpression = e
  generalize v.kind = k at h ⊢
  cases e
  all_goals
    revert k
    decide

theorem kind_of_atCallEquation {v : Lookahead} (h : v.atCallEquation = true) :
    v.kind ∈ [.ident, .dot] := by
  by_cases hk : v.kind ∈ [.ident, .dot]
  · exact hk
  · simp only [Lookahead.atCallEquation, afterReference_eq_none hk] at h
    cases h

/-- The ways to read an equation. -/
def equationBranches : List Branch := [
  ⟨fun v => v.atCallEquation = false ∧
      (v.atPrimaryStart || (Band.unaryLevel? v.kind).isSome) = true,
    call .simpleEquation, .rule .simpleEquation⟩,
  ⟨fun v => v.kind ∈ [.ifKw], call (.ifBlock .equations), .rule (.ifBlock .equations)⟩,
  ⟨fun v => v.kind ∈ [.forKw], call (.forBlock .equations), .rule (.forBlock .equations)⟩,
  ⟨fun v => v.kind ∈ [.connectKw], call .connectEquation, .rule .connectEquation⟩,
  ⟨fun v => v.kind ∈ [.whenKw], call (.whenBlock .equations), .rule (.whenBlock .equations)⟩,
  ⟨fun v => v.atCallEquation = true, call .specialEquation, .rule .specialEquation⟩]

theorem isRead_equation : Nonterminal.equation.IsRead ends := by
  refine reads_deeper (reads_dispatch equationBranches ?_ fun v _ h => ?_)
  · simp only [equationBranches, List.forall_mem_cons]
    refine ⟨?_, ?_, ?_, ?_, ?_, ?_, fun _ h => absurd h List.not_mem_nil⟩
    · exact {
        next := by
          rintro v ⟨hcall, hstart⟩
          have hk := kind_of_atPrimaryStart hstart
          split <;> rename_i hkind
          case h_8 => rw [if_neg (by simp [hcall]), if_pos hstart]
          all_goals
            rw [hkind] at hk
            exact absurd hk (by decide)
        read := reads_call (fun _ _ => trivial) nofun
        opens := by
          intro he v n ts us rest hd ha _
          refine ⟨atCallEquation_of_simple hd ha, atPrimaryStart_of_kind ?_⟩
          rw [Lookahead.kind, ha]
          exact headKind_of_opens he (by decide) hd rest }
    · exact serves_of_kinds (by simp +contextual)
        (reads_call (fun _ h => List.mem_singleton.mp h) nofun) (by decide)
    · exact serves_of_kinds (by simp +contextual)
        (reads_call (fun _ h => List.mem_singleton.mp h) nofun) (by decide)
    · exact serves_of_kinds (by simp +contextual)
        (reads_call (fun _ h => List.mem_singleton.mp h) nofun) (by decide)
    · exact serves_of_kinds (by simp +contextual)
        (reads_call (fun _ h => List.mem_singleton.mp h) nofun) (by decide)
    · exact {
        next := by
          intro v hcall
          have hk := kind_of_atCallEquation hcall
          split <;> rename_i hkind
          case h_8 => rw [if_pos hcall]
          all_goals
            rw [hkind] at hk
            exact absurd hk (by decide)
        read := reads_call (fun _ _ => trivial) nofun
        opens := fun _ v n ts us rest hd ha _ => atCallEquation_of_special hd ha }
  · simp only [equationBranches, List.forall_mem_cons] at h
    obtain ⟨hsimple, hif, hfor, hconnect, hwhen, hspecial, -⟩ := h
    split
    · exact absurd (List.mem_singleton.mpr ‹_›) hif
    · exact absurd (List.mem_singleton.mpr ‹_›) hfor
    · exact absurd (List.mem_singleton.mpr ‹_›) hwhen
    · exact absurd (List.mem_singleton.mpr ‹_›) hconnect
    · exact fails_strayClause
    · exact fails_strayClause
    · exact fails_strayClause
    · rw [if_neg hspecial, if_neg fun hs => hsimple ⟨Bool.eq_false_iff.mpr hspecial, hs⟩]
      exact fails_fault

theorem isRead_keywordStatement (kind : Kind) :
    (Nonterminal.keywordStatement kind).IsRead ends := by
  refine reads_node (reads_andThen (reads_shift (fun ts h => ?_) ?_) reads_itemEnd fits_any)
  · have hready : kind = .breakStatement ∧ headKind ts = .breakKw ∨
        kind = .returnStatement ∧ headKind ts = .returnKw := h
    rcases hready with ⟨rfl, hk⟩ | ⟨rfl, hk⟩ <;> exact List.mem_singleton.mpr hk
  · cases kind <;> decide

theorem isRead_destructuringAssignment : Nonterminal.destructuringAssignment.IsRead ends := by
  have hcall : (seq [call .componentReference, call .callArguments]).Reads
      (.sequence [.rule .componentReference, .rule .callArguments]) ends false anywhere .any :=
    reads_andThen (reads_call (fun _ _ => trivial) nofun) (reads_call (fun _ _ => trivial) nofun)
      (fits_of_first (by decide))
  have hright : (look fun v =>
      if v.seesAny [.ident, .dot] then seq [call .componentReference, call .callArguments]
      else missing .notAStatement [.ident]).Reads
      (.sequence [.rule .componentReference, .rule .callArguments]) ends false anywhere .any :=
    reads_guard (fun _ => rfl) (hcall.mono (fun _ _ => trivial) fun _ _ => id) (by decide)
      fun _ => fails_missing
  exact reads_node
    (reads_andThen (reads_call (fun _ h => h) nofun)
      (reads_andThen (reads_expect (by decide))
        (reads_assoc (reads_andThen hright reads_itemEnd fits_any))
        fits_any)
      fits_any)

theorem isRead_referenceStatement : Nonterminal.referenceStatement.IsRead ends := by
  have hassign : (seq [shift, call .expression, itemEnd]).Reads
      (.sequence [.leaf .assign, .rule .expression, .itemEnd]) ends false
      (atOneOf [.assign]) .any :=
    reads_andThen (reads_shift (fun _ h => h) (by decide))
      (reads_andThen reads_call_expression reads_itemEnd (fits_of_clears (by decide))) fits_any
  have harguments : (seq [call .callArguments, itemEnd]).Reads
      (.sequence [.rule .callArguments, .itemEnd]) ends false anywhere .any :=
    reads_andThen (reads_call (fun _ _ => trivial) nofun) reads_itemEnd fits_any
  have hreference : (call .componentReference).Reads (.rule .componentReference) ends false anywhere
      Nonterminal.componentReference.Stops :=
    reads_call (fun _ _ => trivial) nofun
  have hassignment :
      (wrap .simpleAssignmentStatement <| seq [shift, call .expression, itemEnd]).Closes
      (.rule .componentReference) (.node .simpleAssignmentStatement (.sequence [
        .rule .componentReference, .leaf .assign, .rule .expression, .itemEnd])) ends false
      [Kind.assign].contains Nonterminal.componentReference.Stops .any :=
    closes_wrap hassign (fun _ h => List.contains_iff_mem.mp h) (fits_of_first (by decide))
      (fits_of_first (by decide))
  have hcall : (wrap .functionCallStatement <| seq [call .callArguments, itemEnd]).Closes
      (.rule .componentReference) (.node .functionCallStatement (.sequence [
        .rule .componentReference, .rule .callArguments, .itemEnd])) ends false
      [Kind.lParen].contains Nonterminal.componentReference.Stops .any :=
    closes_wrap harguments (fun _ _ => trivial) (fits_of_first (by decide))
      (fits_of_first (by decide))
  refine (reads_group_closes hreference
    (closes_either hassignment hcall ?_ ?_ ?_ fun _ => rfl)).mono
    (fun _ _ => trivial) fun _ _ => id
  · intro v h
    have hk : v.kind = .assign := List.mem_singleton.mp (List.contains_iff_mem.mp h)
    simp [hk]
  · intro v h
    have hk : v.kind = .lParen := List.mem_singleton.mp (List.contains_iff_mem.mp h)
    simp [hk]
  · intro v h h' env r r' hd
    split at hd
    · rename_i hk
      rw [hk] at h
      cases h
    · rename_i hk
      rw [hk] at h'
      cases h'
    · obtain ⟨m, hm, -⟩ := hd
      exact absurd hm (not_does_of_fails rfl)
    · obtain ⟨m, hm, -⟩ := hd
      exact absurd hm (not_does_of_fails (fails_seq_cons fails_missing))

/-- The ways to read a statement. -/
def statementBranches : List Branch := [
  ⟨fun v => v.kind ∈ [.ident, .dot], call .referenceStatement, .rule .referenceStatement⟩,
  ⟨fun v => v.kind ∈ [.lParen], call .destructuringAssignment, .rule .destructuringAssignment⟩,
  ⟨fun v => v.kind ∈ [.breakKw], call (.keywordStatement .breakStatement),
    .rule (.keywordStatement .breakStatement)⟩,
  ⟨fun v => v.kind ∈ [.returnKw], call (.keywordStatement .returnStatement),
    .rule (.keywordStatement .returnStatement)⟩,
  ⟨fun v => v.kind ∈ [.ifKw], call (.ifBlock .statements), .rule (.ifBlock .statements)⟩,
  ⟨fun v => v.kind ∈ [.forKw], call (.forBlock .statements), .rule (.forBlock .statements)⟩,
  ⟨fun v => v.kind ∈ [.whileKw], call .whileBlock, .rule .whileBlock⟩,
  ⟨fun v => v.kind ∈ [.whenKw], call (.whenBlock .statements), .rule (.whenBlock .statements)⟩]

theorem isRead_statement : Nonterminal.statement.IsRead ends := by
  have hcall : ∀ {rule : Nonterminal} {k : Kind}, rule.Stops = .any →
      (∀ ts, headKind ts = k → rule.Expects ts) →
      (call rule).Reads (.rule rule) ends false (atOneOf [k]) .any := by
    intro rule k hstop hs
    exact hstop ▸ reads_call (fun _ h => hs _ (List.mem_singleton.mp h)) nofun
  refine reads_deeper (reads_dispatch statementBranches ?_ fun v _ h => ?_)
  · simp only [statementBranches, List.forall_mem_cons]
    refine ⟨?_, ?_, ?_, ?_, ?_, ?_, ?_, ?_, fun _ h => absurd h List.not_mem_nil⟩
    · exact serves_of_kinds (by simp +contextual) (reads_call (fun _ _ => trivial) nofun)
        (by decide)
    · exact serves_of_kinds (by simp +contextual) (hcall rfl fun _ => id) (by decide)
    · exact serves_of_kinds (by simp +contextual) (hcall rfl fun _ h => .inl ⟨rfl, h⟩) (by decide)
    · exact serves_of_kinds (by simp +contextual) (hcall rfl fun _ h => .inr ⟨rfl, h⟩) (by decide)
    · exact serves_of_kinds (by simp +contextual) (hcall rfl fun _ => id) (by decide)
    · exact serves_of_kinds (by simp +contextual) (hcall rfl fun _ => id) (by decide)
    · exact serves_of_kinds (by simp +contextual) (hcall rfl fun _ => id) (by decide)
    · exact serves_of_kinds (by simp +contextual) (hcall rfl fun _ => id) (by decide)
  · simp only [statementBranches, List.forall_mem_cons] at h
    split <;> rename_i hk
    case h_10 | h_11 | h_12 => exact fails_strayClause
    case h_13 => exact fails_fault
    all_goals simp [hk] at h

theorem isRead_item (family : Family) : (Nonterminal.item family).IsRead ends := by
  cases family
  · exact reads_call (fun _ _ => trivial) nofun
  · exact reads_call (fun _ _ => trivial) nofun

/-! ## Bodies -/

/-- An item that does not start with an `end` starts with nothing that ends a body or a section. -/
theorem not_ends_of_starts {family : Family} {v : Lookahead} {n : Nat} {ts rest : List Token}
    {us : List Tree} {k : Kind} (h : Derives ends (.rule (.item family)) n ts us k)
    (hend : headKind ts ≠ .endKw) (ha : v.ahead = ts ++ rest) :
    v.atEnd = false ∧ v.atSectionBoundary = false ∧ isClauseKeyword v.kind = false := by
  have hs := h.starts (e := true) (.inl rfl)
  obtain ⟨t, us, rfl⟩ := List.exists_cons_of_ne_nil (h.ne_nil rfl)
  have hv : v.kind = t.kind := by rw [Lookahead.kind, ha]; rfl
  have hk : v.kind ∈ family.start true := hv ▸ hs.first t us rfl
  have hend : v.kind ≠ .endKw := hv ▸ hend
  by_cases hinitial : v.kind = .initialKw
  · -- `initial` is a function here, for neither `equation` nor `algorithm` comes second
    cases family with
    | statements =>
      rw [hinitial] at hk
      exact absurd hk (by decide)
    | equations =>
      have hlen := h.two_le_length rfl
      have hopens : v.initialOpensSection = false := by
        rcases us with _ | ⟨u, us⟩
        · simp at hlen
        · have hu : v.nth 1 ∈ Kind.equationSecond true := by
            rw [Lookahead.nth, ha]
            exact hs.second t u us _ rfl rfl
          have hall : ∀ k ∈ Kind.equationSecond true, k ≠ .equationKw ∧ k ≠ .algorithmKw := by
            decide
          simp [Lookahead.initialOpensSection, hall _ hu]
      refine ⟨?_, ?_, ?_⟩
      · simp [Lookahead.atEnd, Lookahead.sees, hinitial]
      · simp [Lookahead.atSectionBoundary, hinitial, hopens]
      · simp [hinitial, isClauseKeyword, clauseOwner?]
  · have hall : ∀ k ∈ family.start true, k ≠ .initialKw → k ≠ .endKw →
        (∀ l ∈ [k], l ∉ [Kind.equationKw, .algorithmKw, .publicKw, .protectedKw, .externalKw,
          .endKw, .annotationKw, .endOfInput, .initialKw]) ∧ isClauseKeyword k = false := by
      cases family <;> decide
    obtain ⟨hother, hclause⟩ := hall _ hk hinitial hend
    obtain ⟨hend, hboundary⟩ := not_boundary_of_kind (List.mem_singleton.mpr rfl) hother
    exact ⟨hend, hboundary, hclause⟩

/-- Where no `end` is an expression, no item starts with one. -/
theorem not_ends_of_item {family : Family} (he : Allows ends false) {v : Lookahead} {n : Nat}
    {ts rest : List Token} {us : List Tree} {k : Kind}
    (h : Derives ends (.rule (.item family)) n ts us k) (ha : v.ahead = ts ++ rest) :
    v.atEnd = false ∧ v.atSectionBoundary = false ∧ isClauseKeyword v.kind = false := by
  refine not_ends_of_starts h (fun hend => ?_) ha
  obtain ⟨t, us, rfl⟩ := List.exists_cons_of_ne_nil (h.ne_nil rfl)
  have ht : t.kind ∈ family.start false := (h.starts_of_allows he).first t us rfl
  rw [show t.kind = .endKw from hend] at ht
  exact absurd ht (by cases family <;> decide)

theorem atBlockEnd_eq_false {v : Lookahead} (h : v.atSectionBoundary = false) :
    v.atBlockEnd = false := by
  have hk : v.kind ≠ .endKw := by
    intro hk
    simp [Lookahead.atSectionBoundary, hk] at h
  simp [Lookahead.atBlockEnd, Lookahead.sees, hk]

theorem isRead_body (family : Family) : (Nonterminal.body family).IsRead ends := by
  have hcall : (call (.item family)).Reads (.rule (.item family)) ends false anywhere .any :=
    reads_call (fun _ _ => trivial) nofun
  refine reads_repeatUntil hcall rfl (fun _ _ _ => trivial) (fun he v n ts us rest hd ha _ => ?_)
    (fun v h => .inr h) fits_any
  obtain ⟨hend, hboundary, hclause⟩ := not_ends_of_item he hd ha
  exact ⟨hend, by simp [Lookahead.bodyEnds, hboundary, hclause]⟩

theorem isRead_sectionBody (family : Family) : (Nonterminal.sectionBody family).IsRead ends := by
  have hcall : (call (.item family)).Reads (.rule (.item family)) ends false anywhere .any :=
    reads_call (fun _ _ => trivial) nofun
  have hitem : (look fun v => if v.atBlockEnd then strayEnd else call (.item family)).Reads
      (.rule (.item family)) ends false anywhere .any := by
    refine reads_guard_not hcall (fun _ _ => trivial) (fun he v n ts us rest hd ha => ?_)
      fun _ => fails_strayEnd
    exact atBlockEnd_eq_false (not_ends_of_item he hd ha).2.1
  refine reads_repeatUntil hitem rfl (fun _ _ _ => trivial) (fun he v n ts us rest hd ha _ => ?_)
    (fun v h => .inr ?_) fits_any
  · obtain ⟨hend, hboundary, hclause⟩ := not_ends_of_item he hd ha
    exact ⟨hend, by simp [Lookahead.bodyEnds, hboundary, hclause]⟩
  · have hb : v.atSectionBoundary = true := h.1
    have he : v.atBlockEnd = false := h.2
    simp [Lookahead.bodyEnds, hb, he]

/-- The keyword of a section, and its items. -/
theorem reads_section {keyword : Kind} {context : Context} (family : Family)
    (hk : keyword ≠ .endOfInput) (hi : keyword ≠ .initialKw) :
    (seq [accept .initialKw, expect keyword,
      inContext context (call (.sectionBody family))]).Reads
      (.sequence [.opt (.leaf .initialKw), .leaf keyword, .rule (.sectionBody family)]) ends false
      anywhere .sectionEnd := by
  have hbody : (call (.sectionBody family)).Reads (.rule (.sectionBody family)) ends false
      anywhere .sectionEnd :=
    reads_call (fun _ _ => trivial) nofun
  have hinitial : Fits ends false (.except [.initialKw])
      (.sequence [.leaf keyword, .rule (.sectionBody family)]) .sectionEnd :=
    fits_of_first (by simp [Form.sequence, Form.leaf, Form.nullable, Form.first, hi])
  exact reads_andThen (reads_accept (by decide))
    (reads_andThen (reads_expect hk) (reads_inContext hbody) fits_any) hinitial

theorem isRead_equationSection : Nonterminal.equationSection.IsRead ends :=
  reads_node (reads_section .equations (by decide) (by decide))

theorem isRead_algorithmSection : Nonterminal.algorithmSection.IsRead ends :=
  reads_node (reads_section .statements (by decide) (by decide))

end Grammar

end Modelica
