import Modelica.Proofs.Modifications

/-!
# Elements are read as they are written down

One lemma for each rule of elements. The forms of an import clause are told apart by what comes
after the dotted chain; `importKind` is shown to find the form that the tokens were derived from.
-/

namespace Modelica.Grammar

open Production Token

variable {ends : Kind → Prop}

/-! ## Components -/

theorem isRead_typePrefix : Nonterminal.typePrefix.IsRead ends := by
  have hlast : (acceptAny [.inputKw, .outputKw]).Reads (.opt (.token [.inputKw, .outputKw])) ends
      false anywhere Nonterminal.typePrefix.Stops :=
    Reads.weaken (reads_acceptAny (by decide)) (by decide)
  exact reads_seq_cons (reads_acceptAny (by decide))
    (reads_seq_cons (reads_acceptAny (by decide)) hlast (fits_of_clears (by decide)))
    (fits_of_clears (by decide))

theorem isRead_declaration : Nonterminal.declaration.IsRead ends := by
  have hsubscripts : (call .arraySubscripts).Reads (.rule .arraySubscripts) ends false
      (atOneOf [.lBracket]) .any :=
    reads_call (fun _ h => List.mem_singleton.mp h) nofun
  have hmodification : (call .modification).Reads (.rule .modification) ends false
      (atOneOf modificationStart) Nonterminal.modification.Stops :=
    reads_call (fun _ => id) nofun
  have hend : (look fun v => if v.seesAny modificationStart then call .modification else done).Reads
      (.opt (.rule .modification)) ends false anywhere Nonterminal.declaration.Stops :=
    Reads.weaken (reads_optional (fun _ => rfl) hmodification (by decide)) (by decide)
  exact reads_node
    (reads_seq_cons (reads_expect (by decide))
      (reads_seq_cons (reads_before hsubscripts (by decide)) hend (fits_of_clears (by decide)))
      fits_any)

theorem isRead_componentDeclaration : Nonterminal.componentDeclaration.IsRead ends := by
  have hdeclaration : (call .declaration).Reads (.rule .declaration) ends false anywhere
      Nonterminal.declaration.Stops :=
    reads_call (fun _ _ => trivial) nofun
  have hcondition : (node .conditionAttribute [shift, call .expression]).Reads
      (.node .conditionAttribute (.sequence [.leaf .ifKw, .rule .expression])) ends false
      (atOneOf [.ifKw]) Nonterminal.expression.Stops :=
    reads_node (reads_seq_cons (reads_shift (fun _ h => h) (by decide))
      (reads_call (fun _ _ => trivial) nofun) fits_any)
  have hcomment : (call .comment).Reads (.rule .comment) ends false anywhere
      Nonterminal.componentDeclaration.Stops :=
    Reads.weaken (reads_call (fun _ _ => trivial) nofun) (by decide)
  exact reads_node
    (reads_seq_cons hdeclaration
      (reads_seq_cons (reads_before hcondition (by decide)) hcomment (fits_of_clears (by decide)))
      (fits_of_clears (by decide)))

theorem isRead_componentClause : Nonterminal.componentClause.IsRead ends := by
  have hsubscripts : (call .arraySubscripts).Reads (.rule .arraySubscripts) ends false
      (atOneOf [.lBracket]) .any :=
    reads_call (fun _ h => List.mem_singleton.mp h) nofun
  have hdeclaration : (call .componentDeclaration).Reads (.rule .componentDeclaration) ends false
      anywhere Nonterminal.componentDeclaration.Stops :=
    reads_call (fun _ _ => trivial) nofun
  have hlist : (separated .comma (call .componentDeclaration)).Reads
      (.separated .comma (.rule .componentDeclaration)) ends false anywhere
      Nonterminal.componentClause.Stops :=
    Reads.weaken (reads_separated (by decide) hdeclaration (by decide)) (by decide)
  exact reads_node
    (reads_seq_cons (reads_call (fun _ _ => trivial) nofun)
      (reads_seq_cons (reads_call (fun _ _ => trivial) nofun)
        (reads_seq_cons (reads_before hsubscripts (by decide)) hlist (fits_of_clears (by decide)))
        (fits_of_clears (by decide)))
      (fits_of_first (by decide)))

/-! ## Clauses -/

/-- A comment and a semicolon. -/
theorem reads_itemEnd : (seq [call .comment, expect .semicolon]).Reads .itemEnd ends false anywhere
    .any :=
  reads_seq_cons (reads_call (fun _ _ => trivial) nofun) (reads_expect (by decide))
    (fits_of_clears (by decide))

theorem isRead_constrainingClause : Nonterminal.constrainingClause.IsRead ends := by
  have hmodification : (call .classModification).Reads (.rule .classModification) ends false
      (atOneOf [.lParen]) .any :=
    reads_call (fun _ h => List.mem_singleton.mp h) nofun
  have hend : (before .lParen (call .classModification)).Reads (.opt (.rule .classModification))
      ends false anywhere Nonterminal.constrainingClause.Stops :=
    Reads.weaken (reads_before hmodification (by decide)) (by decide)
  exact reads_node
    (reads_seq_cons (reads_shift (fun _ h => List.mem_singleton.mpr h) (by decide))
      (reads_seq_cons (reads_call (fun _ _ => trivial) nofun) hend (fits_of_clears (by decide)))
      fits_any)

theorem isRead_extendsClause : Nonterminal.extendsClause.IsRead ends := by
  have hmodification : (call .classOrInheritanceModification).Reads
      (.rule .classOrInheritanceModification) ends false (atOneOf [.lParen]) .any :=
    reads_call (fun _ h => List.mem_singleton.mp h) nofun
  have hannotation : (call .annotationClause).Reads (.rule .annotationClause) ends false
      (atOneOf [.annotationKw]) .any :=
    reads_call (fun _ _ => trivial) nofun
  exact reads_node
    (reads_seq_cons (reads_shift (fun _ h => List.mem_singleton.mpr h) (by decide))
      (reads_seq_cons (reads_call (fun _ _ => trivial) nofun)
        (reads_seq_cons (reads_before hmodification (by decide))
          (reads_seq_cons (reads_before hannotation (by decide)) (reads_expect (by decide))
            (fits_of_clears (by decide)))
          (fits_of_clears (by decide)))
        (fits_of_clears (by decide)))
      fits_any)

theorem atClassDefinition_eq_contains (v : Lookahead) :
    v.atClassDefinition = Kind.classStart.contains v.kind := by
  have hall : ∀ k : Kind, (k == .encapsulatedKw || Kind.classPrefixStart.contains k) =
      Kind.classStart.contains k := by
    intro k
    cases k <;> rfl
  exact hall v.kind

theorem isRead_namedElementClause : Nonterminal.namedElementClause.IsRead ends := by
  have hclass : (call .classDefinition).Reads (.rule .classDefinition) ends false
      (atOneOf Kind.classStart) (.only [.semicolon, .constrainedbyKw]) :=
    reads_call (fun _ _ => trivial) nofun
  have hcomponent : (call .componentClause).Reads (.rule .componentClause) ends false anywhere
      (.only [.semicolon, .constrainedbyKw]) :=
    reads_call (fun _ _ => trivial) nofun
  have hcomment : (call .comment).Reads (.rule .comment) ends false anywhere (.only [.semicolon]) :=
    Reads.weaken (reads_call (fun _ _ => trivial) nofun) (by decide)
  have hconstraint : (seq [call .constrainingClause, call .comment]).Reads
      (.sequence [.rule .constrainingClause, .rule .comment]) ends false
      (atOneOf [.constrainedbyKw]) (.only [.semicolon]) :=
    reads_seq_cons (reads_call (fun _ h => List.mem_singleton.mp h) nofun) hcomment
      (fits_of_clears (by decide))
  have hend : (seq [before .constrainedbyKw <| seq [call .constrainingClause, call .comment],
        expect .semicolon]).Reads
      (.sequence [.opt (.sequence [.rule .constrainingClause, .rule .comment]), .leaf .semicolon])
      ends false anywhere .any :=
    reads_seq_cons (reads_before hconstraint (by decide)) (reads_expect (by decide))
      (fits_of_clears (by decide))
  refine reads_node (reads_andThen (reads_accept (by decide)) ?_ (fits_of_first (by decide)))
  refine reads_andThen (reads_accept (by decide)) ?_ (fits_of_first (by decide))
  refine reads_andThen (reads_accept (by decide)) ?_ (fits_of_first (by decide))
  refine reads_andThen (reads_accept (by decide)) ?_ (fits_of_first (by decide))
  refine reads_andThen (reads_accept (by decide)) ?_ (fits_of_first (by decide))
  exact reads_andThen (reads_ite_kind atClassDefinition_eq_contains hclass hcomponent (by decide)
    (fits_of_clears (by decide))) hend (fits_of_clears (by decide))

/-! ## Import clauses -/

/-- What follows a dotted chain of identifiers. -/
theorem afterChain_of_links {n : Nat} {ts rest : List Token} {us : List Tree} {k : Kind}
    (h : Derives ends (.many (.seq (.leaf .dot) (.leaf .ident))) n ts us k) :
    afterChain (ts ++ rest) = afterChain rest := by
  induction h.repeated with
  | none => rfl
  | more hd hmany ih =>
    obtain ⟨t, _, _, rfl, -, ht, hd⟩ := hd.of_leaf_seq
    cases hd with
    | @token _ u _ _ hu =>
      rw [← ih hmany.derives]
      simp [afterChain, ht, List.mem_singleton.mp hu]

theorem afterChain_eq_self {ts : List Token} (h : continuesChain ts = false) :
    afterChain ts = ts := by
  rcases ts with _ | ⟨t, _ | ⟨u, ts⟩⟩
  · rfl
  · rfl
  · have hc : ¬ (t.kind = .dot ∧ u.kind = .ident) := by
      simpa [continuesChain, kindAt, headKind] using h
    rw [afterChain, if_neg hc]

/-- The form of an import clause shows behind `import` and a name. -/
theorem importKind_of_name {v : Lookahead} {t : Token} {ts rest : List Token} {n : Nat}
    {us : List Tree} {k : Kind} (ha : v.ahead = t :: ts ++ rest)
    (h : Derives ends (.rule .name) n ts us k) (hr : continuesChain rest = false) :
    v.importKind = match kindAt rest 0, kindAt rest 1 with
      | .dotStar, _ => .unqualifiedImportClause
      | .dot, .star => .unqualifiedImportClause
      | .dot, .lBrace => .compoundImportClause
      | _, _ => .simpleImportClause := by
  cases derives_rule.mp h with
  | node h =>
    obtain ⟨u, vs, _, rfl, -, hu, h⟩ := h.of_leaf_seq
    have hfirst : v.nth 1 = .ident := by
      rw [Lookahead.nth, ha]
      exact hu
    have hchain : afterChain (v.ahead.drop 2) = rest := by
      rw [ha]
      show afterChain (vs ++ rest) = rest
      rw [afterChain_of_links h, afterChain_eq_self hr]
    by_cases hsecond : v.nth 2 = .equals
    · -- then the name is one identifier, and what comes after it tells the same
      have hrest : kindAt rest 0 = .equals := by
        rw [Lookahead.nth, ha] at hsecond
        cases h.repeated with
        | none => exact hsecond
        | more hd _ =>
          obtain ⟨w, _, _, rfl, -, hw, -⟩ := hd.of_leaf_seq
          exact absurd (hw.symm.trans hsecond) (by decide)
      simp [Lookahead.importKind, hsecond, hrest]
    · have htest : (v.nth 1 != .ident || v.nth 2 == .equals) = false := by
        simp [hfirst, hsecond]
      subst hchain
      exact if_neg (by rw [htest]; exact Bool.false_ne_true)

/-- The forms of an import clause. -/
def importForm : Kind → Form
  | .compoundImportClause => .sequence [
      .rule .name, .leaf .dot, .leaf .lBrace, .separated .comma (.leaf .ident), .leaf .rBrace,
      .itemEnd]
  | .unqualifiedImportClause => .sequence [
      .rule .name, .alt (.leaf .dotStar) (.sequence [.leaf .dot, .leaf .star]), .itemEnd]
  | _ => .sequence [.opt (.sequence [.leaf .ident, .leaf .equals]), .rule .name, .itemEnd]

/-- One way to read an import clause. -/
def importBranch (kind : Kind) : Branch :=
  ⟨fun v => v.importKind = kind,
    node kind [shift, inContext .importClause <| seq [
      importPath kind, call .comment, expect .semicolon]],
    .node kind (.sequence [.leaf .importKw, importForm kind])⟩

theorem importKind_mem (v : Lookahead) : v.importKind ∈
    [.simpleImportClause, .compoundImportClause, .unqualifiedImportClause] := by
  unfold Lookahead.importKind
  split
  · decide
  · dsimp only
    split <;> decide

/-- A branch reads its form if that is what is read behind `import`, and the form shows. -/
theorem serves_import {kind : Kind}
    (hp : (seq [importPath kind, call .comment, expect .semicolon]).Reads (importForm kind) ends
      false (fun ts => ∃ t, (Lookahead.mk (t :: ts) 0 .topLevel []).importKind = kind) .any)
    (hk : Allows ends false → ∀ (v : Lookahead) n t ts us rest,
      Derives ends (importForm kind) n ts us (headKind rest) → v.ahead = t :: ts ++ rest →
      v.importKind = kind) :
    (importBranch kind).Serves
      (fun v => node v.importKind [shift, inContext .importClause <| seq [
        importPath v.importKind, call .comment, expect .semicolon]])
      ends false Nonterminal.importClause.Expects .any where
  next v h := by
    have hv : v.importKind = kind := h
    simp only [hv]
    rfl
  read := by
    refine reads_node (reads_andThen_of (reads_shift (fun _ h => List.mem_singleton.mpr h.1)
      (by decide)) (reads_inContext hp) ?_ fits_any)
    rintro env r m ⟨hkw, v, hv, h⟩ hd
    obtain rfl : m = r.shift := hd
    cases ha : r.ahead with
    | nil =>
      rw [ha] at hkw
      cases hkw
    | cons t ts =>
      rw [Reading.shift_cons ha]
      rw [ha] at hv
      have hk : (Lookahead.mk v.ahead 0 .topLevel []).importKind = kind := h
      rw [hv] at hk
      exact ⟨t, hk⟩
  opens := by
    intro he v n ts us rest hd ha _
    cases hd with
    | node hd =>
      obtain ⟨t, vs, _, rfl, -, -, hd⟩ := hd.of_leaf_seq
      exact hk he v n t vs _ rest hd ha

/-- Whoever reads a name reads all of its chain. -/
theorem importKind_of_does {env : Surroundings} {r m : Reading} {t : Token} {kind : Kind}
    (h : (Lookahead.mk (t :: r.ahead) 0 .topLevel []).importKind = kind)
    (hd : (call .name).Does Nonterminal.Spelled env r m) :
    (match kindAt m.ahead 0, kindAt m.ahead 1 with
      | .dotStar, _ => Kind.unqualifiedImportClause
      | .dot, .star => .unqualifiedImportClause
      | .dot, .lBrace => .compoundImportClause
      | _, _ => .simpleImportClause) = kind := by
  obtain ⟨⟨ts, us, ha, -, hname⟩, hleaves⟩ := hd trivial
  rw [← h, importKind_of_name (v := Lookahead.mk _ 0 .topLevel []) (congrArg _ ha) hname hleaves]

theorem fits_chain {g : Form} {after : Stop}
    (h : (!g.nullable && (g.first false).all (· != .dot)) = true) :
    Fits ends false Nonterminal.name.Stops g after := by
  intro he constructs n ts us rest hd _
  simp only [Bool.and_eq_true, Bool.not_eq_true', List.all_eq_true] at h
  refine continuesChain_eq_false ?_
  cases ts with
  | nil => exact absurd hd (derives_nil h.1)
  | cons t ts => simpa [headKind] using h.2 _ ((hd.starts_of_allows he).first t ts rfl)

/-- The name that an import brings in. -/
theorem reads_importedName : (look fun v => if v.sees .ident then call .name
      else missing .invalidImport [.ident]).Reads (.rule .name) ends false anywhere
    Nonterminal.name.Stops :=
  reads_guard (sees_eq_contains · .ident) (reads_call (fun _ _ => trivial) nofun) (by decide)
    fun _ => fails_missing

/-- `'import' (IDENT '=')? Name` -/
theorem reads_simpleImport {start : List Token → Prop} :
    (seq [importPath .simpleImportClause, call .comment, expect .semicolon]).Reads
      (importForm .simpleImportClause) ends false start .any := by
  have halias : (look fun v => if v.sees .ident && v.nth 1 == .equals then shifts 2 else done).Reads
      (.opt (.sequence [.leaf .ident, .leaf .equals])) ends false start
      (.test fun _ rest => kindAt rest 1 ≠ .equals) := by
    have hshift : (shifts 2).Reads (.sequence [.leaf .ident, .leaf .equals]) ends false
        (fun ts => kindAt ts 0 = .ident ∧ kindAt ts 1 = .equals)
        (.test fun _ rest => kindAt rest 1 ≠ .equals) :=
      reads_shifts_two (by decide) (by decide) fun _ => id
    have hdone : done.Reads .empty ends false anywhere
        (.test fun _ rest => kindAt rest 1 ≠ .equals) := reads_done
    refine reads_ite hshift hdone (fun v h _ => ?_) (fun _ _ _ => trivial) ?_ ?_
    · simp only [Bool.and_eq_true, beq_iff_eq] at h
      exact ⟨kind_of_sees h.1, h.2⟩
    · intro _ v n ts us rest hd ha _
      obtain ⟨t, _, _, rfl, -, ht, hd⟩ := hd.of_leaf_seq
      cases hd with
      | @token _ u _ _ hu =>
        simp [Lookahead.sees, Lookahead.kind, Lookahead.nth, kindAt, ha, headKind, ht,
          List.mem_singleton.mp hu]
    · intro _ v n ts us rest hd ha hs
      cases hd
      have hne : v.nth 1 ≠ .equals := by
        rw [Lookahead.nth, ha]
        exact hs
      simp [hne]
  have hrest := reads_andThen (@reads_importedName ends) reads_itemEnd (fits_chain (by decide))
  refine reads_andThen_assoc (reads_andThen halias hrest ?_)
  intro he constructs n ts us rest hd _
  have hlen := hd.two_le_length rfl
  rcases ts with _ | ⟨t, _ | ⟨u, ts⟩⟩
  · simp at hlen
  · simp at hlen
  · intro hk
    have hu := (hd.starts_of_allows he).second t u ts _ rfl rfl
    rw [show u.kind = .equals from hk] at hu
    revert hu
    decide

/-- `'import' Name '.' '{' IDENT (',' IDENT)* '}'` -/
theorem reads_compoundImport :
    (seq [importPath .compoundImportClause, call .comment, expect .semicolon]).Reads
      (importForm .compoundImportClause) ends false
      (fun ts => ∃ t, (Lookahead.mk (t :: ts) 0 .topLevel []).importKind = .compoundImportClause)
      .any := by
  have hidents : (separated .comma (expect .ident)).Reads (.separated .comma (.leaf .ident)) ends
      false anywhere (.only [.rBrace]) :=
    Reads.weaken (reads_separated (by decide) (reads_expect (by decide)) (by decide)) (by decide)
  have hpoint : (shifts 2).Reads (.sequence [.leaf .dot, .leaf .lBrace]) ends false
      (fun ts => kindAt ts 0 = .dot ∧ kindAt ts 1 = .lBrace) .any :=
    reads_shifts_two (by decide) (by decide) fun _ => id
  have hbrace : (expect .rBrace).Reads (.leaf .rBrace) ends false anywhere .any :=
    reads_expect (by decide)
  have hend := reads_andThen_assoc (reads_andThen hidents
    (reads_andThen hbrace reads_itemEnd fits_any)
    (fits_of_clears (by decide)))
  have hlist := reads_andThen_assoc (reads_assoc (reads_andThen hpoint hend fits_any))
  refine reads_andThen_assoc (reads_andThen_of (reads_call (fun _ _ => trivial) nofun) hlist ?_ ?_)
  · rintro env r m ⟨t, h⟩ hd
    have hkind := importKind_of_does h hd
    split at hkind
    · cases hkind
    · cases hkind
    · exact ⟨‹_›, ‹_›⟩
    · cases hkind
  · rintro - constructs n ts us rest hd -
    obtain ⟨t, _, _, rfl, -, ht, hd⟩ := hd.of_leaf_seq
    obtain ⟨u, _, _, rfl, -, hu, -⟩ := hd.of_leaf_seq
    show continuesChain _ = false
    simp [continuesChain, kindAt, headKind, hu]

/-- `'import' Name '.*'` -/
theorem reads_unqualifiedImport :
    (seq [importPath .unqualifiedImportClause, call .comment, expect .semicolon]).Reads
      (importForm .unqualifiedImportClause) ends false
      (fun ts => ∃ t, (Lookahead.mk (t :: ts) 0 .topLevel []).importKind = .unqualifiedImportClause)
      .any := by
  have hone : shift.Reads (.leaf .dotStar) ends false (atOneOf [.dotStar]) .any :=
    reads_shift (fun _ => id) (by decide)
  have htwo : (shifts 2).Reads (.sequence [.leaf .dot, .leaf .star]) ends false
      (fun ts => kindAt ts 0 = .dot ∧ kindAt ts 1 = .star) .any :=
    reads_shifts_two (by decide) (by decide) fun _ => id
  have hstar : (look fun v => if v.sees .dotStar then shift else shifts 2).Reads
      (.alt (.leaf .dotStar) (.sequence [.leaf .dot, .leaf .star])) ends false
      (fun ts => kindAt ts 0 = .dotStar ∨ kindAt ts 0 = .dot ∧ kindAt ts 1 = .star) .any := by
    refine reads_ite_kinds (sees_eq_contains · .dotStar) hone htwo (fun ts h hk => ?_) (by decide)
      (fits_of_first (by decide))
    exact h.resolve_left fun h => hk (List.mem_singleton.mpr h)
  have hend := reads_andThen hstar reads_itemEnd fits_any
  refine reads_andThen_assoc (reads_andThen_of (reads_call (fun _ _ => trivial) nofun) hend ?_ ?_)
  · rintro env r m ⟨t, h⟩ hd
    have hkind := importKind_of_does h hd
    split at hkind
    · exact .inl ‹_›
    · exact .inr ⟨‹_›, ‹_›⟩
    · cases hkind
    · cases hkind
  · rintro - constructs n ts us rest hd -
    show continuesChain _ = false
    cases hd with
    | seq hd _ =>
      cases hd with
      | left hd =>
        cases hd with
        | token ht => simp [continuesChain, kindAt, headKind, List.mem_singleton.mp ht]
      | right hd =>
        obtain ⟨t, _, _, rfl, -, ht, hd⟩ := hd.of_leaf_seq
        cases hd with
        | token hu => simp [continuesChain, kindAt, headKind, List.mem_singleton.mp hu]

section

variable {v : Lookahead} {n : Nat} {t : Token} {ts rest : List Token} {us : List Tree} {k : Kind}

theorem importKind_simple (he : Allows ends false)
    (hd : Derives ends (importForm .simpleImportClause) n ts us k)
    (ha : v.ahead = t :: ts ++ rest) :
    v.importKind = .simpleImportClause := by
  cases hd with
  | @seq _ _ _ ts₁ _ ts₂ _ _ halias hd =>
    cases halias with
    | left halias =>
      obtain ⟨u, _, _, rfl, -, -, hd⟩ := halias.of_leaf_seq
      cases hd with
      | @token _ w _ _ hw =>
        have hsecond : v.nth 2 = .equals := by
          rw [Lookahead.nth, ha]
          exact List.mem_singleton.mp hw
        simp [Lookahead.importKind, hsecond]
    | right halias =>
      cases halias
      cases hd with
      | @seq _ _ _ vs _ ws _ _ hname hend =>
        have hk : headKind (ws ++ rest) ∈ [.string, .annotationKw, .semicolon] :=
          headKind_of_opens he (by decide) hend rest
        have hdot : headKind (ws ++ rest) ≠ .dot := by
          intro h
          rw [h] at hk
          revert hk
          decide
        have hafter : v.ahead = t :: vs ++ (ws ++ rest) := by simp [ha]
        rw [importKind_of_name hafter hname (continuesChain_eq_false hdot)]
        have hzero : kindAt (ws ++ rest) 0 = headKind (ws ++ rest) := rfl
        simp only [List.mem_cons, List.not_mem_nil, or_false] at hk
        rcases hk with hk | hk | hk <;> rw [hzero, hk]

theorem importKind_compound (hd : Derives ends (importForm .compoundImportClause) n ts us k)
    (ha : v.ahead = t :: ts ++ rest) : v.importKind = .compoundImportClause := by
  cases hd with
  | @seq _ _ _ vs _ _ _ _ hname hd =>
    obtain ⟨u, _, _, rfl, -, hu, hd⟩ := hd.of_leaf_seq
    obtain ⟨w, ws, _, rfl, -, hw, -⟩ := hd.of_leaf_seq
    have hafter : v.ahead = t :: vs ++ (u :: w :: (ws ++ rest)) := by simp [ha]
    rw [importKind_of_name hafter hname (by simp [continuesChain, kindAt, headKind, hw])]
    simp [kindAt, headKind, hu, hw]

theorem importKind_unqualified (hd : Derives ends (importForm .unqualifiedImportClause) n ts us k)
    (ha : v.ahead = t :: ts ++ rest) : v.importKind = .unqualifiedImportClause := by
  cases hd with
  | @seq _ _ _ vs _ _ _ _ hname hd =>
    cases hd with
    | @seq _ _ _ _ _ ws _ _ hstar _ =>
      cases hstar with
      | left hstar =>
        cases hstar with
        | @token _ u _ _ hu =>
          have hafter : v.ahead = t :: vs ++ (u :: (ws ++ rest)) := by simp [ha]
          have hu' := List.mem_singleton.mp hu
          rw [importKind_of_name hafter hname (by simp [continuesChain, kindAt, headKind, hu'])]
          simp [kindAt, headKind, hu']
      | right hstar =>
        obtain ⟨u, _, _, rfl, -, hu, hstar⟩ := hstar.of_leaf_seq
        cases hstar with
        | @token _ w _ _ hw =>
          have hafter : v.ahead = t :: vs ++ (u :: w :: (ws ++ rest)) := by simp [ha]
          have hw' := List.mem_singleton.mp hw
          rw [importKind_of_name hafter hname (by simp [continuesChain, kindAt, headKind, hw'])]
          simp [kindAt, headKind, hu, hw']

end

theorem isRead_importClause : Nonterminal.importClause.IsRead ends := by
  refine reads_dispatch [importBranch .simpleImportClause, importBranch .compoundImportClause,
    importBranch .unqualifiedImportClause] ?_ fun v _ h => ?_
  · simp only [List.forall_mem_cons]
    refine ⟨?_, ?_, ?_, fun _ h => absurd h List.not_mem_nil⟩
    · exact serves_import reads_simpleImport fun he v n t ts us rest hd ha =>
        importKind_simple he hd ha
    · exact serves_import reads_compoundImport fun _ v n t ts us rest hd ha =>
        importKind_compound hd ha
    · exact serves_import reads_unqualifiedImport
        fun _ v n t ts us rest hd ha => importKind_unqualified hd ha
  · simp only [List.forall_mem_cons] at h
    have hk := importKind_mem v
    simp only [List.mem_cons, List.not_mem_nil, or_false] at hk
    rcases hk with hk | hk | hk
    · exact absurd hk h.1
    · exact absurd hk h.2.1
    · exact absurd hk h.2.2.1

/-! ## Lists of elements -/

/-- The ways to read an element. -/
def elementBranches : List Branch := [
  ⟨fun v => v.kind ∈ [.importKw], call .importClause, .rule .importClause⟩,
  ⟨fun v => v.kind ∈ [.extendsKw], call .extendsClause, .rule .extendsClause⟩,
  ⟨fun v => v.kind ∈ Kind.namedElementStart, call .namedElementClause, .rule .namedElementClause⟩]

/-- The kinds that start a named element and are no part of a class or a component clause. -/
def elementPrefixes : List Kind := [
  .redeclareKw, .finalKw, .innerKw, .outerKw, .replaceableKw, .encapsulatedKw]

theorem mem_namedElementStart {v : Lookahead} : v.kind ∈ Kind.namedElementStart ↔
    v.kind ∈ elementPrefixes ∨
      (v.seesAny Kind.classPrefixStart || v.seesAny Kind.componentClauseStart) = true := by
  have hall : ∀ k : Kind, k ∈ Kind.namedElementStart ↔ k ∈ elementPrefixes ∨
      (Kind.classPrefixStart.contains k || Kind.componentClauseStart.contains k) = true := by
    intro k
    cases k <;> decide
  exact hall v.kind

theorem isRead_element : Nonterminal.element.IsRead ends := by
  refine reads_dispatch elementBranches ?_ fun v _ h => ?_
  · simp only [elementBranches, List.forall_mem_cons]
    refine ⟨?_, ?_, ?_, fun _ h => absurd h List.not_mem_nil⟩
    · exact serves_of_kinds (by simp +contextual)
        (reads_call (fun _ h => List.mem_singleton.mp h) nofun) (by decide)
    · exact serves_of_kinds (by simp +contextual)
        (reads_call (fun _ h => List.mem_singleton.mp h) nofun) (by decide)
    · refine serves_of_kinds ?_ (reads_call (fun _ _ => trivial) nofun) (by decide)
      rintro k hk v rfl
      have hstart := mem_namedElementStart.mp hk
      split <;> rename_i hkind
      case h_1 | h_2 =>
        rw [hkind] at hk
        exact absurd hk (by decide)
      case h_9 =>
        rw [if_pos (hstart.resolve_left fun h => ?_)]
        simp only [elementPrefixes, List.mem_cons, List.not_mem_nil, or_false] at h
        simp_all
      all_goals rfl
  · simp only [elementBranches, List.forall_mem_cons] at h
    have hstart := mt mem_namedElementStart.mpr h.2.2.1
    split <;> rename_i hkind
    case h_9 =>
      rw [if_neg fun hs => hstart (.inr hs)]
      exact fails_fault
    all_goals simp [hkind, Kind.namedElementStart, Kind.classStart] at h

/-- What an element starts with is no boundary of a section. -/
theorem not_boundary_of_kind {v : Lookahead} {ks : List Kind} (h : v.kind ∈ ks)
    (hks : ∀ k ∈ ks, k ∉ [.equationKw, .algorithmKw, .publicKw, .protectedKw, .externalKw, .endKw,
      .annotationKw, .endOfInput, .initialKw]) :
    v.atEnd = false ∧ v.atSectionBoundary = false := by
  have hk := hks _ h
  simp only [List.mem_cons, List.not_mem_nil, or_false, not_or] at hk
  refine ⟨by simp [Lookahead.atEnd, Lookahead.sees, hk], ?_⟩
  unfold Lookahead.atSectionBoundary
  split <;> simp_all

theorem isRead_elements : Nonterminal.elements.IsRead ends := by
  have hcall : (call .element).Reads (.rule .element) ends false anywhere .any :=
    reads_call (fun _ _ => trivial) nofun
  refine reads_repeatUntil hcall rfl (fun _ _ _ => trivial) (fun he v n ts us rest hd ha _ => ?_)
    (fun v h => .inr h.1) fits_any
  have hk : v.kind ∈ Kind.elementStart := by
    rw [Lookahead.kind, ha]
    exact headKind_of_opens he (by decide) hd rest
  exact not_boundary_of_kind hk (by decide)

end Modelica.Grammar
