import Modelica.Proofs.Classes.Bodies

/-!
# Classes are read as they are written down

One lemma for each rule of stored definitions, class definitions and class specifiers.
-/

namespace Modelica.Grammar

open Production Token

variable {ends : Kind → Prop}

theorem isRead_storedDefinition : Nonterminal.storedDefinition.IsRead ends := by
  have hwithin : (call .withinClause).Reads (.rule .withinClause) ends false (atOneOf [.withinKw])
      .any :=
    reads_call (fun _ h => List.mem_singleton.mp h) nofun
  have hclause : (call .classDefinitionClause).Reads (.rule .classDefinitionClause) ends false
      (atOneOf (.finalKw :: Kind.classStart)) .any :=
    reads_call (fun _ _ => trivial) nofun
  have hitem : (look fun v =>
      if v.sees .finalKw || v.atClassDefinition then call .classDefinitionClause
      else skipUntil .unexpectedToken
        ("expected " ++ Context.expectation .topLevel ++ ", found " ++ v.kind.displayName)
        (Context.recovery .topLevel)).Reads (.rule .classDefinitionClause) ends false anywhere
      .any := by
    refine reads_guard (fun v => ?_) hclause (by decide) fun _ => fails_fault
    simp [sees_eq_contains, atClassDefinition_eq_contains]
  have hlist : (many (!·.atEnd) fun _ => look fun v =>
      if v.sees .finalKw || v.atClassDefinition then call .classDefinitionClause
      else skipUntil .unexpectedToken
        ("expected " ++ Context.expectation .topLevel ++ ", found " ++ v.kind.displayName)
        (Context.recovery .topLevel)).Reads (.many (.rule .classDefinitionClause)) ends false
      anywhere (.only [.endOfInput]) := by
    refine reads_many hitem (fun _ _ => trivial) (fun he v n ts us rest hd ha _ => ?_)
      (fun v h => ?_) fits_any
    · have hk : v.kind ∈ .finalKw :: Kind.classStart := by
        rw [Lookahead.kind, ha]
        exact headKind_of_opens he (by decide) hd rest
      have hall : ∀ k ∈ Kind.finalKw :: Kind.classStart, (!(k == .endOfInput)) = true := by decide
      exact hall _ hk
    · have hk : v.kind = .endOfInput := List.mem_singleton.mp (List.contains_iff_mem.mp h)
      simp [Lookahead.atEnd, Lookahead.sees, hk]
  exact reads_node
    (reads_andThen (reads_before hwithin (by decide)) hlist (fits_of_clears (by decide)))

theorem isRead_withinClause : Nonterminal.withinClause.IsRead ends := by
  have hcall : (call .name).Reads (.rule .name) ends false (atOneOf [.ident])
      (.kind fun k => k == .semicolon) := by
    have h : (call .name).Reads (.rule .name) ends false (atOneOf [.ident])
        Nonterminal.name.Stops :=
      reads_call (fun _ _ => trivial) nofun
    refine h.mono (fun _ => id) fun _ rest hstop => continuesChain_eq_false ?_
    have hk : headKind rest = .semicolon := beq_iff_eq.mp hstop
    rw [hk]
    decide
  exact reads_node
    (reads_seq_cons (reads_shift (fun _ h => List.mem_singleton.mpr h) (by decide))
      (reads_seq_cons (reads_before hcall (by decide)) (reads_expect (by decide))
        (fits_of_clears (by decide)))
      fits_any)

theorem isRead_classDefinitionClause : Nonterminal.classDefinitionClause.IsRead ends := by
  have hcall : (call .classDefinition).Reads (.rule .classDefinition) ends false anywhere
      Nonterminal.classDefinition.Stops :=
    reads_call (fun _ _ => trivial) nofun
  exact reads_node
    (reads_seq_cons (reads_accept (by decide))
      (reads_seq_cons hcall (reads_expect (by decide)) (fits_of_first (by decide)))
      (fits_of_first (by decide)))

/-! ## Short and derivative class specifiers -/

theorem isRead_enumerationLiteral : Nonterminal.enumerationLiteral.IsRead ends :=
  reads_node (reads_andThen (reads_expect (by decide))
    (Reads.weaken (reads_call (fun _ _ => trivial) nofun) (by decide)) fits_any)

/-- The ways to read the inside of an enumeration. -/
def enumerationBranches : List Branch := [
  ⟨fun v => v.kind ∈ [.colon], shift, .leaf .colon⟩,
  ⟨fun v => v.kind ∈ [.ident], separated .comma (call .enumerationLiteral),
    .separated .comma (.rule .enumerationLiteral)⟩,
  ⟨fun v => v.kind ∉ [.colon, .ident], done, .empty⟩]

theorem reads_enumerationLiterals :
    (look fun v =>
      if v.sees .colon then shift
      else if v.sees .ident then separated .comma (call .enumerationLiteral)
      else done).Reads
      (.opt (.alt (.leaf .colon) (.separated .comma (.rule .enumerationLiteral)))) ends false
      anywhere (.only [.rParen]) := by
  have hliterals : (separated .comma (call .enumerationLiteral)).Reads
      (.separated .comma (.rule .enumerationLiteral)) ends false (atOneOf [.ident])
      (.only [.rParen]) :=
    Reads.weaken (reads_separated (by decide) (reads_call (fun _ _ => trivial) nofun) (by decide))
      (by decide)
  refine (reads_dispatch enumerationBranches ?_ fun v _ h => ?_).map (fun hd => ?_) fun hh => ?_
  · simp only [enumerationBranches, List.forall_mem_cons]
    refine ⟨?_, ?_, ?_, fun _ h => absurd h List.not_mem_nil⟩
    · exact serves_of_kinds (by simp +contextual [Lookahead.sees])
        (reads_shift (fun _ h => h) (by decide)) (by decide)
    · exact serves_of_kinds (by simp +contextual [Lookahead.sees]) hliterals (by decide)
    · exact {
        next := by
          intro v h
          have hk : v.kind ≠ .colon ∧ v.kind ≠ .ident := by simpa using h
          simp [Lookahead.sees, hk]
        read := reads_done
        opens := by
          intro he v n ts us rest hd ha hstop
          cases hd
          have hk : v.kind = .rParen := by
            rw [Lookahead.kind, ha]
            exact List.mem_singleton.mp (List.contains_iff_mem.mp hstop)
          simp [hk] }
  · simp only [enumerationBranches, List.forall_mem_cons] at h
    obtain ⟨hcolon, hident, hother, -⟩ := h
    refine absurd (fun hk => ?_) hother
    rcases List.mem_cons.mp hk with hk | hk
    · exact hcolon (List.mem_singleton.mpr hk)
    · exact hident hk
  · cases hd with
    | left h => exact .left (.left h)
    | right h =>
      cases h with
      | left h => exact .left (.right h)
      | right h => exact .right h
  · rcases hh with (h | h) | h
    · exact .inl h
    · exact .inr (.inl h)
    · exact .inr (.inr h)

theorem reads_enumeration : enumeration.Reads (.sequence [
    .leaf .enumerationKw, .leaf .lParen,
    .opt (.alt (.leaf .colon) (.separated .comma (.rule .enumerationLiteral))), .leaf .rParen])
    ends false (atOneOf [.enumerationKw]) .any :=
  reads_andThen (reads_shift (fun _ h => h) (by decide))
    (reads_expectThen (by decide)
      (reads_andThen reads_enumerationLiterals (reads_expect (by decide))
        (fits_of_first (by decide))))
    fits_any

theorem reads_derivedType : derivedType.Reads (.sequence [
    .opt (.token [.inputKw, .outputKw]), .rule .typeSpecifier, .opt (.rule .arraySubscripts),
    .opt (.rule .classModification)]) ends false anywhere (.except [.dot, .lBracket, .lParen]) := by
  have hsubscripts : (call .arraySubscripts).Reads (.rule .arraySubscripts) ends false
      (atOneOf [.lBracket]) .any :=
    reads_call (fun _ h => List.mem_singleton.mp h) nofun
  have hmodification : (call .classModification).Reads (.rule .classModification) ends false
      (atOneOf [.lParen]) .any :=
    reads_call (fun _ h => List.mem_singleton.mp h) nofun
  exact reads_andThen (reads_acceptAny (by decide))
    (reads_andThen (reads_call (fun _ _ => trivial) nofun)
      (reads_andThen (reads_before hsubscripts (by decide))
        (Reads.weaken (reads_before hmodification (by decide)) (by decide))
        (fits_of_clears (by decide)))
      (fits_of_clears (by decide)))
    (fits_of_first (by decide))

theorem isRead_shortClassSpecifier : Nonterminal.shortClassSpecifier.IsRead ends := by
  have hcomment : (call .comment).Reads (.rule .comment) ends false anywhere
      Nonterminal.shortClassSpecifier.Stops :=
    Reads.weaken (reads_call (fun _ _ => trivial) nofun) (by decide)
  exact reads_node (reads_andThen (reads_expect (by decide))
    (reads_andThen (reads_expect (by decide))
      (reads_andThen
        (reads_ite_kind (sees_eq_contains · .enumerationKw) (Reads.of_any reads_enumeration)
          reads_derivedType (by decide) (fits_of_first (by decide)))
        hcomment (fits_of_clears (by decide)))
      fits_any)
    fits_any)

theorem isRead_derClassSpecifier : Nonterminal.derClassSpecifier.IsRead ends := by
  have hcomment : (call .comment).Reads (.rule .comment) ends false anywhere
      Nonterminal.derClassSpecifier.Stops :=
    Reads.weaken (reads_call (fun _ _ => trivial) nofun) (by decide)
  have hnames : (separated .comma (expect .ident)).Reads
      (.separated .comma (.leaf .ident)) ends false
      anywhere (.kind fun x => true && !([Kind.comma].contains x)) :=
    reads_separated (by decide) (reads_expect (by decide)) rfl
  refine reads_node ((@reads_shifts ends false Nonterminal.derClassSpecifier.Stops _
    (.sequence [.rule .typeSpecifier, .leaf .comma, .separated .comma (.leaf .ident),
      .leaf .rParen, .rule .comment]) [.ident, .equals, .derKw, .lParen] (by decide) ?_).mono ?_
    fun _ _ => id)
  · exact reads_andThen (reads_call (fun _ _ => trivial) nofun)
      (reads_andThen (reads_expect (by decide))
        (reads_andThen hnames
          (reads_andThen (reads_expect (by decide)) hcomment fits_any)
          (fits_of_first (by decide)))
        fits_any)
      (fits_of_first (by decide))
  · rintro ts ⟨h0, h1, h2, h3⟩
    have h2' : headKind ((ts.drop 1).drop 1) = .derKw := by rwa [List.drop_drop]
    have h3' : headKind (((ts.drop 1).drop 1).drop 1) = .lParen := by
      rwa [List.drop_drop, List.drop_drop]
    exact ⟨h0, h1, h2', h3', trivial⟩

/-! ## Class definitions -/

/-- The ways to read a class specifier. -/
def classSpecifierBranches : List Branch := [
  ⟨fun v => v.classSpecifierKind = .longClassSpecifier, call .longClassSpecifier,
    .rule .longClassSpecifier⟩,
  ⟨fun v => v.classSpecifierKind = .shortClassSpecifier, call .shortClassSpecifier,
    .rule .shortClassSpecifier⟩,
  ⟨fun v => v.classSpecifierKind = .derClassSpecifier, call .derClassSpecifier,
    .rule .derClassSpecifier⟩]

section

variable {n : Nat} {ts rest : List Token} {us : List Tree} {k : Kind} {v : Lookahead}

theorem classSpecifierKind_long (he : Allows ends false)
    (hd : Derives ends (.rule .longClassSpecifier) n ts us k) (ha : v.ahead = ts ++ rest) :
    v.classSpecifierKind = .longClassSpecifier := by
  have hs := hd.starts_of_allows he
  have hlen := hd.two_le_length rfl
  rcases ts with _ | ⟨t, _ | ⟨u, ts⟩⟩
  · simp at hlen
  · simp at hlen
  · have hu : u.kind ≠ .equals := by
      intro hk
      have hmem := hs.second t u ts _ rfl rfl
      rw [hk] at hmem
      exact absurd hmem (by decide)
    have hnth : v.nth 1 = u.kind := by
      rw [Lookahead.nth, ha]
      rfl
    simp [Lookahead.classSpecifierKind, hnth, hu]

theorem classSpecifierKind_short (he : Allows ends false)
    (hd : Derives ends (.rule .shortClassSpecifier) n ts us k) (ha : v.ahead = ts ++ rest) :
    v.classSpecifierKind = .shortClassSpecifier := by
  cases derives_rule.mp hd with
  | node hd =>
    obtain ⟨t, _, _, rfl, -, ht, hd⟩ := hd.of_leaf_seq
    obtain ⟨u, vs, _, rfl, -, hu, hd⟩ := hd.of_leaf_seq
    have hw : headKind (vs ++ rest) ∈
        [.enumerationKw, .inputKw, .outputKw, .dot, .ident] :=
      headKind_of_opens he (by decide) hd rest
    have hkind : v.kind = .ident := by
      rw [Lookahead.kind, ha]
      exact ht
    have hnth : v.nth 1 = .equals := by
      rw [Lookahead.nth, ha]
      exact hu
    have hder : v.nth 2 ≠ .derKw := by
      rw [Lookahead.nth, ha]
      intro hk
      have hk' : headKind (vs ++ rest) = .derKw := hk
      rw [hk'] at hw
      exact absurd hw (by decide)
    simp [Lookahead.classSpecifierKind, Lookahead.sees, hkind, hnth, hder]

theorem classSpecifierKind_der (hd : Derives ends (.rule .derClassSpecifier) n ts us k)
    (ha : v.ahead = ts ++ rest) : v.classSpecifierKind = .derClassSpecifier := by
  cases derives_rule.mp hd with
  | node hd =>
    obtain ⟨t, _, _, rfl, -, ht, hd⟩ := hd.of_leaf_seq
    obtain ⟨u, _, _, rfl, -, hu, hd⟩ := hd.of_leaf_seq
    obtain ⟨w, _, _, rfl, -, hw, hd⟩ := hd.of_leaf_seq
    obtain ⟨x, _, _, rfl, -, hx, hd⟩ := hd.of_leaf_seq
    simp [Lookahead.classSpecifierKind, Lookahead.sees, Lookahead.kind, Lookahead.nth, kindAt,
      headKind, ha, ht, hu, hw, hx]

end

theorem classSpecifierKind_mem (v : Lookahead) : v.classSpecifierKind ∈
    [.longClassSpecifier, .shortClassSpecifier, .derClassSpecifier] := by
  unfold Lookahead.classSpecifierKind
  split
  · split <;> decide
  · decide

theorem reads_classSpecifier : (look fun v =>
      match v.classSpecifierKind with
      | .shortClassSpecifier => call .shortClassSpecifier
      | .derClassSpecifier => call .derClassSpecifier
      | _ => call .longClassSpecifier).Reads
    (.alts (classSpecifierBranches.map Branch.form)) ends false anywhere
    Nonterminal.classDefinition.Stops := by
  refine reads_dispatch classSpecifierBranches ?_ fun v _ h => ?_
  · simp only [classSpecifierBranches, List.forall_mem_cons]
    refine ⟨?_, ?_, ?_, fun _ h => absurd h List.not_mem_nil⟩
    · exact {
        next := fun v (h : v.classSpecifierKind = .longClassSpecifier) => by rw [h]
        read := Reads.of_any (reads_call (fun _ _ => trivial) nofun)
        opens := fun he v _ _ _ _ hd ha _ => classSpecifierKind_long he hd ha }
    · exact {
        next := fun v (h : v.classSpecifierKind = .shortClassSpecifier) => by rw [h]
        read := Reads.weaken (reads_call (fun _ _ => trivial) nofun) (by decide)
        opens := fun he v _ _ _ _ hd ha _ => classSpecifierKind_short he hd ha }
    · exact {
        next := fun v (h : v.classSpecifierKind = .derClassSpecifier) => by rw [h]
        read := reads_call (fun _ ⟨_, v, hv, h⟩ => hv ▸ ready_derClassSpecifier h) nofun
        opens := fun _ v _ _ _ _ hd ha _ => classSpecifierKind_der hd ha }
  · simp only [classSpecifierBranches, List.forall_mem_cons] at h
    have hk := classSpecifierKind_mem v
    simp only [List.mem_cons, List.not_mem_nil, or_false] at hk
    rcases hk with hk | hk | hk
    · exact absurd hk h.1
    · exact absurd hk h.2.1
    · exact absurd hk h.2.2.1

theorem isRead_classDefinition : Nonterminal.classDefinition.IsRead ends :=
  reads_deeper (reads_node (reads_andThen (reads_accept (by decide))
    (reads_andThen (reads_inContext (reads_call (fun _ _ => trivial) nofun)) reads_classSpecifier
      (fits_of_first (by decide)))
    (fits_of_first (by decide))))

/-! ## External functions -/

theorem isRead_externalFunctionClause : Nonterminal.externalFunctionClause.IsRead ends := by
  have hlanguage : (node .languageSpecification [single .stringLiteral]).Reads
      (.node .languageSpecification (.node .stringLiteral (.leaf .string))) ends false
      (atOneOf [.string]) .any :=
    reads_node (reads_node (reads_shift (fun _ h => h) (by decide)))
  have hcall : (call .externalFunctionCall).Reads (.rule .externalFunctionCall) ends false
      (atOneOf [.ident, .dot]) .any :=
    reads_call (fun _ _ => trivial) nofun
  have hannotation : (call .annotationClause).Reads (.rule .annotationClause) ends false
      (atOneOf [.annotationKw]) .any :=
    reads_call (fun _ _ => trivial) nofun
  exact reads_node (reads_andThen (reads_shift (fun _ h => List.mem_singleton.mpr h) (by decide))
    (reads_inContext (reads_andThen (reads_before hlanguage (by decide))
      (reads_andThen (reads_optional (fun _ => rfl) hcall (by decide))
        (reads_andThen (reads_before hannotation (by decide)) (reads_expect (by decide))
          (fits_of_first (by decide)))
        (fits_of_first (by decide)))
      (fits_of_first (by decide))))
    fits_any)

/-- What comes after the component reference for a result is no bracket. -/
theorem nth_one_of_result (he : Allows ends false) {n : Nat} {ts rest : List Token} {us : List Tree}
    {k : Kind} {v : Lookahead}
    (hd : Derives ends (.sequence [.rule .componentReference, .leaf .equals]) n ts us k)
    (ha : v.ahead = ts ++ rest) : v.nth 1 ≠ .lParen := by
  cases hd with
  | @seq _ _ _ ts _ vs _ _ hreference hequals =>
    have hs := hreference.starts_of_allows he
    have hne : ts ≠ [] := hreference.ne_nil rfl
    cases hequals with
    | @token _ e _ _ heq =>
      have he' : e.kind = .equals := List.mem_singleton.mp heq
      rw [Lookahead.nth, ha]
      rcases ts with _ | ⟨t, _ | ⟨u, ts⟩⟩
      · exact absurd rfl hne
      · show e.kind ≠ .lParen
        rw [he']
        decide
      · show u.kind ≠ .lParen
        intro hk
        have hmem := hs.second t u ts _ rfl rfl
        rw [hk] at hmem
        exact absurd hmem (by decide)

/-- The result of an external function is there unless the function is called at once. -/
theorem reads_externalResult :
    (look fun v =>
      if v.sees .ident && v.nth 1 == .lParen then done
      else seq [call .componentReference, expect .equals]).Reads
      (.opt (.sequence [.rule .componentReference, .leaf .equals])) ends false anywhere
      (.test fun _ rest => kindAt rest 0 = .ident ∧ kindAt rest 1 = .lParen) := by
  have hresult : (seq [call .componentReference, expect .equals]).Reads
      (.sequence [.rule .componentReference, .leaf .equals]) ends false anywhere
      (.test fun _ rest => kindAt rest 0 = .ident ∧ kindAt rest 1 = .lParen) :=
    Reads.of_any (reads_andThen (reads_call (fun _ _ => trivial) nofun) (reads_expect (by decide))
      (fits_of_first (by decide)))
  have hcases := @reads_ite ends false anywhere
    (.test fun _ rest => kindAt rest 0 = .ident ∧ kindAt rest 1 = .lParen) _ _ _ _
    (fun v => v.sees .ident && v.nth 1 == .lParen) anywhere anywhere reads_done hresult
    (fun _ _ h => h) (fun _ _ h => h) ?_ ?_
  · exact reads_alt_comm hcases
  · intro he v n ts us rest hd ha ⟨hident, hparen⟩
    cases hd
    have hahead : v.ahead = rest := ha
    have hk : v.kind = .ident := by
      rw [Lookahead.kind, hahead]
      exact hident
    have hn : v.nth 1 = .lParen := by
      rw [Lookahead.nth, hahead]
      exact hparen
    simp [Lookahead.sees, hk, hn]
  · intro he v n ts us rest hd ha _
    simp [nth_one_of_result he hd ha]

theorem isRead_externalFunctionCall : Nonterminal.externalFunctionCall.IsRead ends := by
  have hlist : (look fun v => if v.sees .rParen then done else call .expressionList).Reads
      (.opt (.rule .expressionList)) ends false anywhere (.only [.rParen]) :=
    reads_unless (sees_eq_contains · .rParen) (reads_call (fun _ _ => trivial) nofun)
      (by decide) rfl
  have harguments : (expectThen .lParen <| seq [
        look fun v => if v.sees .rParen then done else call .expressionList, expect .rParen]).Reads
      (.seq (.leaf .lParen) (.sequence [.opt (.rule .expressionList), .leaf .rParen])) ends false
      anywhere .any :=
    reads_expectThen (by decide)
      (reads_andThen hlist (reads_expect (by decide)) (fits_of_first (by decide)))
  refine reads_node (reads_andThen reads_externalResult
    (reads_andThen (reads_expect (by decide)) harguments fits_any) ?_)
  intro he constructs n ts us rest hd _
  obtain ⟨t, _, _, rfl, -, ht, hd⟩ := hd.of_leaf_seq
  obtain ⟨u, _, _, rfl, -, hu, -⟩ := hd.of_leaf_seq
  exact ⟨ht, hu⟩

end Modelica.Grammar
