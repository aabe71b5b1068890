import Modelica.Proofs.Expressions

/-!
# Comments and modifications are read as they are written down

One lemma for each rule of comments and modifications. Outside expressions it does not matter
which trees are built, only what is read.
-/

namespace Modelica.Grammar

open Production Token

variable {ends : Kind → Prop}

/-! ## Comments -/

theorem isRead_descriptionString : Nonterminal.descriptionString.IsRead ends := by
  have hstring : (look fun v => if v.sees .string then single .stringLiteral
      else missing .expectedToken [.string]).Reads (.node .stringLiteral (.leaf .string)) ends false
        anywhere .any :=
    reads_guard (sees_eq_contains · .string) (reads_single (by decide) fun _ => id) (by decide)
      fun _ => fails_missing
  exact Reads.weaken (reads_node (reads_separated (by decide) hstring (by decide))) (by decide)

theorem isRead_annotationClause : Nonterminal.annotationClause.IsRead ends := by
  have hmodification : (look fun v => if v.sees .lParen then call .classModification
      else missing .expectedToken [.lParen]).Reads (.rule .classModification) ends false anywhere
        .any :=
    reads_guard (sees_eq_contains · .lParen)
      (reads_call (fun _ h => List.mem_singleton.mp h) nofun) (by decide) fun _ => fails_missing
  exact reads_node (reads_seq_cons (reads_expect (by decide)) hmodification fits_any)

theorem isRead_comment : Nonterminal.comment.IsRead ends := by
  have hstring : (call .descriptionString).Reads (.rule .descriptionString) ends false
      (atOneOf [.string]) Nonterminal.descriptionString.Stops :=
    reads_call (fun _ _ => trivial) nofun
  have hannotation : (call .annotationClause).Reads (.rule .annotationClause) ends false
      (atOneOf [.annotationKw]) .any :=
    reads_call (fun _ _ => trivial) nofun
  have hend : (before .annotationKw (call .annotationClause)).Reads
      (.opt (.rule .annotationClause)) ends false anywhere Nonterminal.comment.Stops :=
    Reads.weaken (reads_before hannotation (by decide)) (by decide)
  exact reads_seq_cons (reads_before hstring (by decide)) hend (fits_of_clears (by decide))

/-! ## Modifications -/

theorem isRead_modificationExpression : Nonterminal.modificationExpression.IsRead ends := by
  have hbreak : shift.Reads (.leaf .breakKw) ends false (atOneOf [.breakKw])
      Nonterminal.modificationExpression.Stops :=
    reads_shift (fun _ h => h) (by decide)
  exact reads_node (reads_ite_kind (sees_eq_contains · .breakKw) hbreak reads_call_expression
    (by decide) (fits_of_clears (by decide)))

theorem isRead_modification : Nonterminal.modification.IsRead ends := by
  have hexpr : (call .modificationExpression).Reads (.rule .modificationExpression) ends false
      anywhere Nonterminal.modificationExpression.Stops :=
    reads_call (fun _ _ => trivial) nofun
  have hequals : (seq [shift, call .modificationExpression]).Reads
      (.sequence [.leaf .equals, .rule .modificationExpression]) ends false (atOneOf [.equals])
      Nonterminal.modificationExpression.Stops :=
    reads_seq_cons (reads_shift (fun _ h => h) (by decide)) hexpr fits_any
  have hclass : (seq [call .classModification,
        before .equals <| seq [shift, call .modificationExpression]]).Reads
      (.sequence [.rule .classModification,
        .opt (.sequence [.leaf .equals, .rule .modificationExpression])]) ends false
      (atOneOf [.lParen]) Nonterminal.modification.Stops := by
    refine reads_seq_cons (reads_call (fun _ h => List.mem_singleton.mp h) nofun) ?_ fits_any
    exact Reads.weaken (reads_before hequals (by decide)) (by decide)
  have hvalue : (seq [shift, call .modificationExpression]).Reads
      (.sequence [.token [.equals, .assign], .rule .modificationExpression]) ends false
      (atOneOf [.equals, .assign]) Nonterminal.modification.Stops := by
    refine reads_seq_cons (reads_shift (fun _ h => h) (by decide)) ?_ fits_any
    exact Reads.weaken hexpr (by decide)
  refine reads_node (reads_ite_kinds (sees_eq_contains · .lParen) hclass hvalue (fun ts h hk => ?_)
    (by decide) (fits_of_clears (by decide)))
  have hstart : headKind ts ∈ [.lParen, .equals, .assign] := h
  exact (List.mem_cons.mp hstart).resolve_left fun he => hk (List.mem_singleton.mpr he)

/-- A list in parentheses, which may be empty. -/
theorem reads_argumentGroup {p : Production} {f : Form} {good : Kind → Bool}
    (hp : p.Reads f ends false anywhere (.kind good))
    (hgood : ([Kind.comma, .rParen].all good && (f.first false).all (· != .rParen)) = true)
    (hf : f.nullable = false) :
    (argumentGroup p).Reads (.group f) ends false (atOneOf [.lParen]) .any := by
  simp only [Bool.and_eq_true, List.all_cons, List.all_nil, Bool.and_true] at hgood
  have hitems : (separated .comma p).Reads (.separated .comma f) ends false anywhere
      (.kind fun k => good k && !([Kind.comma].contains k)) :=
    reads_separated (by decide) hp hgood.1.1
  have hlist : (look fun v => if v.sees .rParen then done else separated .comma p).Reads
      (.opt (.separated .comma f)) ends false anywhere (.only [.rParen]) := by
    refine reads_unless (sees_eq_contains · .rParen) hitems ?_ ?_
    · simp only [Form.separated, Form.first, hf, Bool.false_eq_true, if_false, List.append_nil]
      simpa [hgood.1.2] using hgood.2
    · simp [Form.separated, Form.nullable, hf]
  have hclosed : (seq [look fun v => if v.sees .rParen then done else separated .comma p,
        expect .rParen]).Reads
      (.sequence [.opt (.separated .comma f), .leaf .rParen]) ends false anywhere .any :=
    reads_seq_cons hlist (reads_expect (by decide)) (fits_of_clears (by decide))
  exact reads_seq_cons (reads_shift (fun _ h => h) (by decide)) (reads_inContext hclosed) fits_any

theorem isRead_classModification : Nonterminal.classModification.IsRead ends := by
  have hargument : (call .argument).Reads (.rule .argument) ends false anywhere
      Nonterminal.argument.Stops :=
    reads_call (fun _ _ => trivial) nofun
  exact reads_node ((reads_argumentGroup hargument (by decide) rfl).mono
    (fun _ h => List.mem_singleton.mpr h) fun _ _ => id)

theorem isRead_inheritanceModification : Nonterminal.inheritanceModification.IsRead ends := by
  have hconnect : (call .connectClause).Reads (.rule .connectClause) ends false
      (atOneOf [.connectKw]) .any :=
    reads_call (fun _ h => List.mem_singleton.mp h) nofun
  have hwhat :
      (look fun v => if v.sees .connectKw then call .connectClause else expect .ident).Reads
      (.alt (.rule .connectClause) (.leaf .ident)) ends false anywhere .any :=
    reads_ite_kind (sees_eq_contains · .connectKw) hconnect (reads_expect (by decide)) (by decide)
      (fits_of_first (by decide))
  exact reads_node (reads_seq_cons (reads_shift (fun _ h => List.mem_singleton.mpr h) (by decide))
    hwhat fits_any)

theorem isRead_classOrInheritanceModification :
    Nonterminal.classOrInheritanceModification.IsRead ends := by
  have hbreak : (call .inheritanceModification).Reads (.rule .inheritanceModification) ends false
      (atOneOf [.breakKw]) Nonterminal.argument.Stops :=
    Reads.of_any (reads_call (fun _ h => List.mem_singleton.mp h) nofun)
  have hargument : (call .argument).Reads (.rule .argument) ends false anywhere
      Nonterminal.argument.Stops :=
    reads_call (fun _ _ => trivial) nofun
  have hitem : (look fun v =>
        if v.sees .breakKw then call .inheritanceModification else call .argument).Reads
      (.alt (.rule .inheritanceModification) (.rule .argument)) ends false anywhere
      Nonterminal.argument.Stops :=
    reads_ite_kind (sees_eq_contains · .breakKw) hbreak hargument (by decide)
      (fits_of_clears (by decide))
  exact reads_node ((reads_argumentGroup hitem (by decide) rfl).mono
    (fun _ h => List.mem_singleton.mpr h) fun _ _ => id)

theorem isRead_connectClause : Nonterminal.connectClause.IsRead ends := by
  have href : (call .componentReference).Reads (.rule .componentReference) ends false anywhere
      Nonterminal.componentReference.Stops :=
    reads_call (fun _ _ => trivial) nofun
  have hsecond : (seq [call .componentReference, expect .rParen]).Reads
      (.sequence [.rule .componentReference, .leaf .rParen]) ends false anywhere .any :=
    reads_seq_cons href (reads_expect (by decide)) (fits_of_clears (by decide))
  have hpair : (seq [call .componentReference, expect .comma, call .componentReference,
        expect .rParen]).Reads
      (.sequence [.rule .componentReference, .leaf .comma, .rule .componentReference,
        .leaf .rParen]) ends false anywhere .any :=
    reads_seq_cons href (reads_seq_cons (reads_expect (by decide)) hsecond fits_any)
      (fits_of_clears (by decide))
  exact reads_node (reads_seq_cons (reads_shift (fun _ h => List.mem_singleton.mpr h) (by decide))
    (reads_expectThen (by decide) hpair) fits_any)

/-! ## Arguments -/

theorem isRead_elementRedeclaration : Nonterminal.elementRedeclaration.IsRead ends := by
  have helement : (call .redeclaredElement).Reads (.rule .redeclaredElement) ends false anywhere
      Nonterminal.redeclaredElement.Stops :=
    reads_call (fun _ _ => trivial) nofun
  exact reads_node
    (reads_seq_cons (reads_shift (fun _ h => List.mem_singleton.mpr h) (by decide))
      (reads_seq_cons (reads_accept (by decide))
        (reads_seq_cons (reads_accept (by decide))
          (reads_seq_cons (reads_accept (by decide)) helement (fits_of_first (by decide)))
          (fits_of_first (by decide)))
        (fits_of_first (by decide)))
      fits_any)

theorem isRead_elementReplaceable : Nonterminal.elementReplaceable.IsRead ends := by
  have helement : (call .redeclaredElement).Reads (.rule .redeclaredElement) ends false anywhere
      Nonterminal.redeclaredElement.Stops :=
    reads_call (fun _ _ => trivial) nofun
  exact reads_node
    (reads_seq_cons (reads_accept (by decide))
      (reads_seq_cons (reads_accept (by decide))
        (reads_seq_cons (reads_expect (by decide)) helement fits_any)
        (fits_of_first (by decide)))
      (fits_of_first (by decide)))

theorem isRead_redeclaredElement : Nonterminal.redeclaredElement.IsRead ends := by
  have hspecifier : (call .shortClassSpecifier).Reads (.rule .shortClassSpecifier) ends false
      anywhere (.only [.comma, .rParen, .constrainedbyKw]) :=
    Reads.weaken (reads_call (fun _ _ => trivial) nofun) (by decide)
  have hclass : (node .shortClassDefinition [call .classPrefixes, call .shortClassSpecifier]).Reads
      (.node .shortClassDefinition (.sequence [.rule .classPrefixes, .rule .shortClassSpecifier]))
      ends false (atOneOf Kind.classPrefixStart) (.only [.comma, .rParen, .constrainedbyKw]) :=
    reads_node (reads_seq_cons (reads_call (fun _ _ => trivial) nofun) hspecifier
      (fits_of_first (by decide)))
  have hcomponent : (call .componentClause1).Reads (.rule .componentClause1) ends false anywhere
      (.only [.comma, .rParen, .constrainedbyKw]) :=
    reads_call (fun _ _ => trivial) nofun
  have hclause : (call .constrainingClause).Reads (.rule .constrainingClause) ends false
      (atOneOf [.constrainedbyKw]) Nonterminal.constrainingClause.Stops :=
    reads_call (fun _ h => List.mem_singleton.mp h) nofun
  have hend : (before .constrainedbyKw (call .constrainingClause)).Reads
      (.opt (.rule .constrainingClause)) ends false anywhere Nonterminal.redeclaredElement.Stops :=
    Reads.weaken (reads_before hclause (by decide)) (by decide)
  exact reads_seq_cons (reads_ite_kind (fun _ => rfl) hclass hcomponent (by decide)
    (fits_of_clears (by decide))) hend (fits_of_clears (by decide))

theorem isRead_componentClause1 : Nonterminal.componentClause1.IsRead ends := by
  have hdeclaration : (call .declaration).Reads (.rule .declaration) ends false anywhere
      Nonterminal.declaration.Stops :=
    reads_call (fun _ _ => trivial) nofun
  have hcomment : (call .comment).Reads (.rule .comment) ends false anywhere
      Nonterminal.componentClause1.Stops :=
    Reads.weaken (reads_call (fun _ _ => trivial) nofun) (by decide)
  have hcomponent : (node .componentDeclaration1 [call .declaration, call .comment]).Reads
      (.node .componentDeclaration1 (.sequence [.rule .declaration, .rule .comment])) ends false
      anywhere Nonterminal.componentClause1.Stops :=
    reads_node (reads_seq_cons hdeclaration hcomment (fits_of_clears (by decide)))
  exact reads_node
    (reads_seq_cons (reads_call (fun _ _ => trivial) nofun)
      (reads_seq_cons (reads_call (fun _ _ => trivial) nofun) hcomponent
        (fits_of_clears (by decide)))
      (fits_of_clears (by decide)))

/-! ## Telling arguments apart -/

/-- The kind after any `each` and `final`. -/
def headAfterPrefix (ts : List Token) : Kind :=
  headKind (ts.dropWhile fun t => t.kind == .eachKw || t.kind == .finalKw)

theorem headAfterPrefix_of_headKind {ts : List Token} (h : headKind ts ≠ .eachKw)
    (h' : headKind ts ≠ .finalKw) : headAfterPrefix ts = headKind ts := by
  cases ts with
  | nil => rfl
  | cons t ts =>
    have ht : (t.kind == .eachKw || t.kind == .finalKw) = false := by
      simpa [headKind] using ⟨h, h'⟩
    simp [headAfterPrefix, ht]

theorem headAfterPrefix_cons {t : Token} {ts : List Token}
    (h : t.kind = .eachKw ∨ t.kind = .finalKw) :
    headAfterPrefix (t :: ts) = headAfterPrefix ts := by
  have ht : (t.kind == .eachKw || t.kind == .finalKw) = true := by simpa using h
  simp [headAfterPrefix, ht]

/-- What may start with `each` and `final` shows by what comes after them. -/
theorem headAfterPrefix_of_derives {f : Form} {ks : List Kind} (he : Allows ends false)
    (hf : f.opens false ks = true) (hks : .eachKw ∉ ks ∧ .finalKw ∉ ks) {n : Nat} {ts : List Token}
    {us : List Tree} {k : Kind}
    (h : Derives ends (.seq (.opt (.leaf .eachKw)) (.seq (.opt (.leaf .finalKw)) f)) n ts us k)
    (rest : List Token) : headAfterPrefix (ts ++ rest) ∈ ks := by
  have hskip : ∀ {l : Kind} {g : Form} {ts us}, (l = .eachKw ∨ l = .finalKw) →
      (∀ {ts us}, Derives ends g n ts us k → headAfterPrefix (ts ++ rest) ∈ ks) →
      Derives ends (.seq (.opt (.leaf l)) g) n ts us k → headAfterPrefix (ts ++ rest) ∈ ks := by
    intro l g ts us hl hg hd
    cases hd with
    | seq hopt hd =>
      cases hopt with
      | right hnil =>
        cases hnil
        exact hg hd
      | left hleaf =>
        cases hleaf with
        | @token _ t _ _ ht =>
          rw [List.append_assoc, List.cons_append, List.nil_append,
            headAfterPrefix_cons (by rw [List.mem_singleton.mp ht]; exact hl)]
          exact hg hd
  refine hskip (.inl rfl) (hskip (.inr rfl) fun {ts us} hd => ?_) h
  have hk := headKind_of_opens he hf hd rest
  rwa [headAfterPrefix_of_headKind (fun h => hks.1 (h ▸ hk)) fun h => hks.2 (h ▸ hk)]

theorem headAfterPrefix_elementModification (he : Allows ends false) {n : Nat} {ts : List Token}
    {us : List Tree} {k : Kind} (h : Derives ends (.rule .elementModification) n ts us k)
    (rest : List Token) : headAfterPrefix (ts ++ rest) = .ident := by
  cases derives_rule.mp h with
  | node h =>
    exact List.mem_singleton.mp (headAfterPrefix_of_derives he (by decide) (by decide) h rest)

theorem headAfterPrefix_elementReplaceable (he : Allows ends false) {n : Nat} {ts : List Token}
    {us : List Tree} {k : Kind} (h : Derives ends (.rule .elementReplaceable) n ts us k)
    (rest : List Token) : headAfterPrefix (ts ++ rest) = .replaceableKw := by
  cases derives_rule.mp h with
  | node h =>
    exact List.mem_singleton.mp (headAfterPrefix_of_derives he (by decide) (by decide) h rest)

/-- The forms of an argument, by the kind that tells them apart. -/
def argumentBranches : List Branch := [
  ⟨fun v => v.argumentHead = .ident, call .elementModification, .rule .elementModification⟩,
  ⟨fun v => v.kind = .redeclareKw, call .elementRedeclaration, .rule .elementRedeclaration⟩,
  ⟨fun v => v.argumentHead = .replaceableKw, call .elementReplaceable, .rule .elementReplaceable⟩]

theorem isRead_argument : Nonterminal.argument.IsRead ends := by
  have hredeclare : ∀ v : Lookahead, v.sees .redeclareKw = true →
      v.argumentHead = .redeclareKw := by
    intro v h
    have hk : headKind v.ahead = .redeclareKw := kind_of_sees h
    show headAfterPrefix v.ahead = .redeclareKw
    rw [headAfterPrefix_of_headKind (by rw [hk]; decide) (by rw [hk]; decide), hk]
  have hother : ∀ {v : Lookahead} {k : Kind}, v.argumentHead = k → k ≠ .redeclareKw →
      ¬ v.sees .redeclareKw = true :=
    fun h hk hs => hk (h.symm.trans (hredeclare _ hs))
  refine reads_dispatch argumentBranches ?_ fun v _ h => ?_
  · simp only [argumentBranches, List.forall_mem_cons]
    refine ⟨?_, ?_, ?_, fun _ h => absurd h List.not_mem_nil⟩
    · exact {
        next := by
          intro v h
          have hv : v.argumentHead = .ident := h
          rw [if_neg (hother hv (by decide)), hv]
        read := reads_call (by rintro ts ⟨-, v, rfl, h⟩; exact h) nofun
        opens := by
          intro he v n ts us rest hd ha _
          show headAfterPrefix v.ahead = .ident
          rw [ha]
          exact headAfterPrefix_elementModification he hd rest }
    · exact {
        next := fun v h => if_pos (beq_iff_eq.mpr h)
        read := reads_call (by rintro ts ⟨-, v, rfl, h⟩; exact h) nofun
        opens := by
          intro he v n ts us rest hd ha _
          show headKind v.ahead = .redeclareKw
          rw [ha]
          exact List.mem_singleton.mp (headKind_of_opens he (by decide) hd rest) }
    · exact {
        next := by
          intro v h
          have hv : v.argumentHead = .replaceableKw := h
          rw [if_neg (hother hv (by decide)), hv]
        read := reads_call (fun _ _ => trivial) nofun
        opens := by
          intro he v n ts us rest hd ha _
          show headAfterPrefix v.ahead = .replaceableKw
          rw [ha]
          exact headAfterPrefix_elementReplaceable he hd rest }
  · simp only [argumentBranches, List.forall_mem_cons] at h
    rw [if_neg fun hs => h.2.1 (kind_of_sees hs)]
    split
    · exact absurd ‹_› h.2.2.1
    · exact absurd ‹_› h.1
    · split <;> exact fails_fault

/-! ## Modified elements -/

theorem chainHasSubscripts_of_headKind {ts : List Token} (h : headKind ts = .lBracket) :
    Token.chainHasSubscripts ts = true := by
  rcases ts with _ | ⟨t, _ | ⟨u, ts⟩⟩
  · cases h
  · simpa [Token.chainHasSubscripts, headKind] using h
  · have ht : t.kind = .lBracket := h
    simp [Token.chainHasSubscripts, ht]

theorem chainHasSubscripts_eq_false {ts : List Token} (h : headKind ts ≠ .dot)
    (h' : headKind ts ≠ .lBracket) : Token.chainHasSubscripts ts = false := by
  rcases ts with _ | ⟨t, _ | ⟨u, ts⟩⟩
  · rfl
  · simpa [Token.chainHasSubscripts, headKind] using h'
  · have ht : t.kind ≠ .dot ∧ t.kind ≠ .lBracket := ⟨h, h'⟩
    simp [Token.chainHasSubscripts, ht]

theorem chainHasSubscripts_cons {t u : Token} (ht : t.kind = .dot) (hu : u.kind = .ident)
    (ts : List Token) : Token.chainHasSubscripts (t :: u :: ts) = Token.chainHasSubscripts ts := by
  simp [Token.chainHasSubscripts, ht, hu]

/-- A chain from an identifier on has subscripts if its rest has. -/
theorem lookahead_chainHasSubscripts {v : Lookahead} {t : Token} {ts : List Token}
    (ha : v.ahead = t :: ts) (ht : t.kind = .ident) :
    v.chainHasSubscripts = Token.chainHasSubscripts ts := by
  simp [Lookahead.chainHasSubscripts, Lookahead.sees, Lookahead.kind, ha, headKind, ht]

/-- Names have no subscripts. -/
theorem chainHasSubscripts_of_name {rest : List Token} (hr : Token.chainHasSubscripts rest = false)
    {n : Nat} {ts : List Token} {us : List Tree} {k : Kind}
    (h : Derives ends (.many (.seq (.leaf .dot) (.leaf .ident))) n ts us k) :
    Token.chainHasSubscripts (ts ++ rest) = false := by
  induction h.repeated with
  | none => exact hr
  | more hd hmany ih =>
    obtain ⟨t, _, _, rfl, -, ht, hd⟩ := hd.of_leaf_seq
    cases hd with
    | @token _ u _ _ hu =>
      simp only [List.cons_append, List.nil_append]
      rw [chainHasSubscripts_cons ht (List.mem_singleton.mp hu)]
      exact ih (hmany.derives)

theorem kinds_of_part (he : Allows ends false) {n : Nat} {ts : List Token} {us : List Tree}
    {k : Kind} (h : Derives ends (.rule .componentReferencePart) n ts us k) :
    ∃ t vs, ts = t :: vs ∧ t.kind = .ident ∧
      (vs = [] ∨ ∀ rest, headKind (vs ++ rest) = .lBracket) := by
  cases derives_rule.mp h with
  | node h =>
    obtain ⟨t, vs, _, rfl, -, ht, h⟩ := h.of_leaf_seq
    refine ⟨t, vs, rfl, ht, ?_⟩
    cases h with
    | left h =>
      exact .inr fun rest => List.mem_singleton.mp (headKind_of_opens he (by decide) h rest)
    | right h =>
      cases h
      exact .inl rfl

/-- The parts of a reference that has no subscripts are those of a name. -/
theorem name_of_parts (he : Allows ends false) {rest : List Token} {n : Nat} {ts : List Token}
    {us : List Tree} {k : Kind}
    (h : Repeated (Derives ends (.seq (.leaf .dot) (.rule .componentReferencePart)) n) ts us k)
    (hr : Token.chainHasSubscripts (ts ++ rest) = false) :
    ∃ vs, (Form.many (.seq (.leaf .dot) (.leaf .ident))).Holds ends (Completes ends) n ts vs k := by
  induction h with
  | none => exact ⟨[], .none⟩
  | more hd _ ih =>
    obtain ⟨t, _, _, rfl, -, ht, hd⟩ := hd.of_leaf_seq
    obtain ⟨u, vs, rfl, hu, hvs⟩ := kinds_of_part he hd
    simp only [List.cons_append, List.append_assoc] at hr
    rw [chainHasSubscripts_cons ht hu] at hr
    rcases hvs with rfl | hvs
    · obtain ⟨ws, hws⟩ := ih (by simpa using hr)
      have hlink : ∀ k, (Form.seq (.leaf .dot) (.leaf .ident)).Holds ends (Completes ends) n [t, u]
          [.leaf t, .leaf u] k :=
        fun _ => ⟨[t], [.leaf t], [u], [.leaf u], rfl, rfl,
          ⟨t, List.mem_singleton.mpr ht, rfl, rfl⟩,
          ⟨u, List.mem_singleton.mpr hu, rfl, rfl⟩⟩
      exact ⟨_, .more (hlink _) hws⟩
    · rw [chainHasSubscripts_of_headKind (hvs _)] at hr
      cases hr

/-- A reference that does not start with a dot is its parts. -/
theorem derives_parts_of_reference {n : Nat} {ts : List Token} {us : List Tree} {k : Kind}
    (h : Derives ends (.rule .componentReference) n ts us k) (hdot : nextKind ts k ≠ .dot) :
    Derives ends (.node .componentReference (.separated .dot (.rule .componentReferencePart))) n ts
      us k := by
  cases derives_rule.mp h with
  | node h =>
    cases h with
    | seq hpoint hparts =>
      cases hpoint with
      | left hpoint =>
        cases hpoint with
        | token ht => exact absurd (List.mem_singleton.mp ht) hdot
      | right hnone =>
        cases hnone
        exact .node hparts

/-- What is a name has no subscripts in what is seen. -/
theorem lookahead_chainHasSubscripts_of_name {v : Lookahead} {n : Nat} {ts rest : List Token}
    {us : List Tree} {k : Kind} (h : Derives ends (.rule .name) n ts us k)
    (ha : v.ahead = ts ++ rest) (hr : Token.chainHasSubscripts rest = false) :
    v.chainHasSubscripts = false := by
  cases derives_rule.mp h with
  | node h =>
    obtain ⟨t, _, _, rfl, -, ht, h⟩ := h.of_leaf_seq
    rw [lookahead_chainHasSubscripts ha ht]
    exact chainHasSubscripts_of_name hr h

/-- The name of a modified element is read as a reference where it has subscripts. -/
theorem reads_modifiedName : (look fun v =>
      if v.chainHasSubscripts then call .componentReference else call .name).Reads
    (.alt (.rule .name)
      (.node .componentReference (.separated .dot (.rule .componentReferencePart)))) ends false
    (fun ts => headAfterPrefix ts = .ident) (.except [.dot, .lBracket]) where
  sound := by
    intro env r r' hstart hd
    simp only [Does] at hd
    split at hd
    · obtain ⟨ts, us, ha, hb, href⟩ := (hd trivial).1
      refine ⟨ts, us, ha, hb, .right (derives_parts_of_reference href fun hk => ?_)⟩
      have hk : headKind r.ahead = .dot := by
        rw [ha, Token.headKind_append, hk]
      rw [headAfterPrefix_of_headKind (by rw [hk]; decide) (by rw [hk]; decide), hk] at hstart
      cases hstart
    · exact (hd trivial).1.map .left
  complete := by
    intro he env r n ts us rest hl ha hn hstop
    have he' : Allows ends true := ⟨he.guarded, .inl rfl⟩
    have hr : headKind rest ≠ .dot ∧ headKind rest ≠ .lBracket := by
      simpa [Stop.except, Stop.Holds] using hstop
    have hchain : Token.chainHasSubscripts rest = false := chainHasSubscripts_eq_false hr.1 hr.2
    refine takes_look ?_
    rcases hl with hname | ⟨vs, rfl, _, _, _, _, rfl, rfl, hpart, hmany⟩
    · have htest : (r.look env).chainHasSubscripts = false :=
        lookahead_chainHasSubscripts_of_name hname.1 ha hchain
      rw [htest]
      exact ((hname.2 he').1 env r rest rfl ha hn (continuesChain_eq_false hr.1)).outer
    · have hparts := (Form.Holds.derives_of_completes (f := .many _) hmany).repeated
      obtain ⟨t, ws, rfl, ht, hws⟩ := kinds_of_part he hpart.1
      have htest := lookahead_chainHasSubscripts (v := r.look env)
        (by simpa [Reading.look] using ha) ht
      cases hb : (r.look env).chainHasSubscripts with
      | true =>
        have href : Nonterminal.componentReference.form.Holds ends (Completes ends) n _ _ _ :=
          ⟨_, rfl, [], [], _, _, rfl, rfl, .inr ⟨rfl, rfl⟩, _, _, _, _, rfl, rfl, hpart, hmany⟩
        exact (takes_call (isRead_componentReference.complete he' env href ha hn hstop)).outer
      | false =>
        rw [hb] at htest
        rcases hws with rfl | hws
        · obtain ⟨vs', hvs⟩ := name_of_parts he hparts htest.symm
          have hname : Nonterminal.name.form.Holds ends (Completes ends) n _ _ _ :=
            ⟨_, rfl, [t], [.leaf t], _, _, rfl, rfl, ⟨t, List.mem_singleton.mpr ht, rfl, rfl⟩, hvs⟩
          exact (takes_call (isRead_name.complete he' env hname ha hn
            (continuesChain_eq_false hr.1))).outer
        · rw [chainHasSubscripts_of_headKind (hws _)] at htest
          cases htest

/-- A prefix that is read leaves what comes after all of them. -/
theorem headAfterPrefix_of_accept {k l : Kind} (hk : k = .eachKw ∨ k = .finalKw)
    {env : Surroundings} {r m : Reading} (h : headAfterPrefix r.ahead = l)
    (hd : (accept k).Does Nonterminal.Spelled env r m) : headAfterPrefix m.ahead = l := by
  simp only [accept, Does] at hd
  split at hd
  · rename_i hs
    have hr : headKind r.ahead = k := Reading.sees_look.mp hs
    obtain rfl : m = r.shift := hd
    cases ha : r.ahead with
    | nil =>
      rw [Reading.shift_nil ha, h]
    | cons t ts =>
      rw [ha] at h hr
      have ht : t.kind = k := hr
      rw [Reading.shift_cons ha]
      rwa [headAfterPrefix_cons (by rwa [ht])] at h
  · exact hd ▸ h

theorem isRead_elementModification : Nonterminal.elementModification.IsRead ends := by
  have hmodification : (call .modification).Reads (.rule .modification) ends false
      (atOneOf modificationStart) Nonterminal.modification.Stops :=
    reads_call (fun _ => id) nofun
  have hdescription : (call .descriptionString).Reads (.rule .descriptionString) ends false
      (atOneOf [.string]) Nonterminal.descriptionString.Stops :=
    reads_call (fun _ _ => trivial) nofun
  have hend : (before .string (call .descriptionString)).Reads (.opt (.rule .descriptionString))
      ends false anywhere Nonterminal.elementModification.Stops :=
    Reads.weaken (reads_before hdescription (by decide)) (by decide)
  have hrest : (seq [
        look fun v => if v.seesAny modificationStart then call .modification else done,
        before .string (call .descriptionString)]).Reads
      (.sequence [.opt (.rule .modification), .opt (.rule .descriptionString)]) ends false anywhere
      Nonterminal.elementModification.Stops :=
    reads_seq_cons (reads_optional (fun _ => rfl) hmodification (by decide)) hend
      (fits_of_clears (by decide))
  let start : List Token → Prop := fun ts => headAfterPrefix ts = .ident
  have hstart : ∀ {k}, k = .eachKw ∨ k = .finalKw → ∀ (env : Surroundings) {r m : Reading},
      start r.ahead → (accept k).Does Nonterminal.Spelled env r m → start m.ahead :=
    fun hk _ _ _ h hd => headAfterPrefix_of_accept hk h hd
  exact reads_node
    (reads_andThen_of (reads_accept (by decide))
      (reads_andThen_of (reads_accept (by decide))
        (reads_andThen reads_modifiedName hrest (fits_of_clears (by decide)))
        (hstart (.inr rfl)) (fits_of_first (by decide)))
      (hstart (.inl rfl)) (fits_of_first (by decide)))

end Modelica.Grammar
