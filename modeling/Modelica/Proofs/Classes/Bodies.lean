import Modelica.Proofs.Blocks

/-!
# Class bodies are read as they are written down

One lemma for each rule of class prefixes, bodies and long class specifiers. The prefixes of a class
are written down by the kind of the class and read by the first keyword; the two agree
(`reads_classKind`).
-/

namespace Modelica.Grammar

open Production Token

variable {ends : Kind → Prop}

/-! ## Prefixes -/

theorem reads_expectClassKind {kinds : List Kind} (hk : .endOfInput ∉ kinds) :
    (expectClassKind kinds).Reads (.token kinds) ends false anywhere .any := by
  have hshift : shift.Reads (.token kinds) ends false (atOneOf kinds) .any :=
    reads_shift (fun _ h => h) hk
  exact reads_guard (fun _ => rfl) hshift (by simp [Form.opens, Form.nullable, Form.first])
    fun _ => fails_missing

/-- The kinds of a class with nothing before them. -/
def plainClassKinds : List Kind := [
  .classKw, .modelKw, .recordKw, .blockKw, .connectorKw, .typeKw, .packageKw, .functionKw]

/-- The ways to read the kind of a class, by the first keyword. -/
def classKindBranches : List Branch := [
  ⟨fun v => v.kind ∈ plainClassKinds, shift, .token plainClassKinds⟩,
  ⟨fun v => v.kind ∈ [.expandableKw], seq [shift, expectClassKind [.connectorKw]],
    .sequence [.leaf .expandableKw, .leaf .connectorKw]⟩,
  ⟨fun v => v.kind ∈ [.operatorKw], seq [shift, acceptAny [.recordKw, .functionKw]],
    .sequence [.leaf .operatorKw, .opt (.token [.recordKw, .functionKw])]⟩,
  ⟨fun v => v.kind ∈ [.pureKw, .impureKw],
    seq [shift, accept .operatorKw, expectClassKind [.functionKw]],
    .sequence [.token [.pureKw, .impureKw], .opt (.leaf .operatorKw), .leaf .functionKw]⟩]

/-- The kind of a class as the grammar has it. -/
def classKindForm : Form := .alts [
  .token [.classKw, .modelKw, .blockKw, .typeKw, .packageKw],
  .sequence [.opt (.leaf .operatorKw), .leaf .recordKw],
  .sequence [.opt (.leaf .expandableKw), .leaf .connectorKw],
  .sequence [.opt (.token [.pureKw, .impureKw]), .opt (.leaf .operatorKw), .leaf .functionKw],
  .leaf .operatorKw]

section

variable {n : Nat} {ts : List Token} {us : List Tree} {k : Kind}

theorem derives_classKind
    (h : Derives ends (.alts (classKindBranches.map Branch.form)) n ts us k) :
    Derives ends classKindForm n ts us k := by
  cases h with
  | left h =>
    cases h with
    | @token _ t _ _ ht =>
      simp only [plainClassKinds, List.mem_cons, List.not_mem_nil, or_false] at ht
      have hrecord : t.kind = .recordKw → Derives ends classKindForm n [t] [.leaf t] k := fun h =>
        .right (.left (.seq (.right .empty) (.token (List.mem_singleton.mpr h))))
      have hconnector : t.kind = .connectorKw → Derives ends classKindForm n [t] [.leaf t] k :=
        fun h => .right (.right (.left (.seq (.right .empty) (.token (List.mem_singleton.mpr h)))))
      have hfunction : t.kind = .functionKw → Derives ends classKindForm n [t] [.leaf t] k :=
        fun h => .right (.right (.right (.left (.seq (.right .empty)
          (.seq (.right .empty) (.token (List.mem_singleton.mpr h)))))))
      have hplain : t.kind ∈ [.classKw, .modelKw, .blockKw, .typeKw, .packageKw] →
          Derives ends classKindForm n [t] [.leaf t] k := fun h => .left (.token h)
      rcases ht with h | h | h | h | h | h | h | h
      · exact hplain (by simp [h])
      · exact hplain (by simp [h])
      · exact hrecord h
      · exact hplain (by simp [h])
      · exact hconnector h
      · exact hplain (by simp [h])
      · exact hplain (by simp [h])
      · exact hfunction h
  | right h =>
    cases h with
    | left h =>
      cases h with
      | seq he hc => exact .right (.right (.left (.seq (.left he) hc)))
    | right h =>
      cases h with
      | left h =>
        cases h with
        | seq ho hrest =>
          cases hrest with
          | left h =>
            cases h with
            | @token _ t _ _ ht =>
              simp only [List.mem_cons, List.not_mem_nil, or_false] at ht
              rcases ht with h | h
              · exact .right (.left (.seq (.left ho) (.token (List.mem_singleton.mpr h))))
              · have hfunction : Derives ends (.seq (.opt (.token [.pureKw, .impureKw]))
                    (.sequence [.opt (.leaf .operatorKw), .leaf .functionKw])) n
                    ([] ++ (_ ++ [t])) ([] ++ (_ ++ [.leaf t])) k :=
                  .seq (.right .empty) (.seq (.left ho) (.token (List.mem_singleton.mpr h)))
                exact .right (.right (.right (.left hfunction)))
          | right h =>
            cases h
            rw [List.append_nil, List.append_nil]
            exact .right (.right (.right (.right ho)))
      | right h =>
        cases h with
        | seq hp hrest => exact .right (.right (.right (.left (.seq (.left hp) hrest))))

theorem holds_classKind {claim : RuleClaim} (h : classKindForm.Holds ends claim n ts us k) :
    (Form.alts (classKindBranches.map Branch.form)).Holds ends claim n ts us k := by
  have hplain : ∀ {ks}, ks ⊆ plainClassKinds → ∀ t : Token, t.kind ∈ ks →
      (Form.alts (classKindBranches.map Branch.form)).Holds ends claim n [t] [.leaf t] k :=
    fun hs t ht => .inl ⟨t, hs ht, rfl, rfl⟩
  have hoperator : ∀ {ks}, ks ⊆ [Kind.recordKw, .functionKw] → ∀ o t : Token,
      o.kind ∈ [Kind.operatorKw] → t.kind ∈ ks →
      (Form.alts (classKindBranches.map Branch.form)).Holds ends claim n [o, t]
        [.leaf o, .leaf t] k :=
    fun hs o t ho ht => .inr (.inr (.inl
      ⟨[o], [.leaf o], [t], [.leaf t], rfl, rfl, ⟨o, ho, rfl, rfl⟩, .inl ⟨t, hs ht, rfl, rfl⟩⟩))
  rcases h with ⟨t, ht, rfl, rfl⟩ | ⟨_, _, _, _, rfl, rfl, ho, t, ht, rfl, rfl⟩ |
    ⟨_, _, _, _, rfl, rfl, he, t, ht, rfl, rfl⟩ | ⟨_, _, _, _, rfl, rfl, hp, hrest⟩ |
    ⟨o, ho, rfl, rfl⟩
  · exact hplain (by decide) t ht
  · rcases ho with ⟨o, ho, rfl, rfl⟩ | ⟨rfl, rfl⟩
    · exact hoperator (by decide) o t ho ht
    · exact hplain (by decide) t ht
  · rcases he with ⟨e, he, rfl, rfl⟩ | ⟨rfl, rfl⟩
    · exact .inr (.inl
        ⟨[e], [.leaf e], [t], [.leaf t], rfl, rfl, ⟨e, he, rfl, rfl⟩, ⟨t, ht, rfl, rfl⟩⟩)
    · exact hplain (by decide) t ht
  · rcases hp with ⟨p, hp, rfl, rfl⟩ | ⟨rfl, rfl⟩
    · exact .inr (.inr (.inr ⟨[p], [.leaf p], _, _, rfl, rfl, ⟨p, hp, rfl, rfl⟩, hrest⟩))
    · obtain ⟨_, _, _, _, rfl, rfl, ho, t, ht, rfl, rfl⟩ := hrest
      rcases ho with ⟨o, ho, rfl, rfl⟩ | ⟨rfl, rfl⟩
      · exact hoperator (by decide) o t ho ht
      · exact hplain (by decide) t ht
  · exact .inr (.inr (.inl ⟨[o], [.leaf o], [], [], rfl, rfl, ⟨o, ho, rfl, rfl⟩, .inr ⟨rfl, rfl⟩⟩))

end

theorem reads_classKind : (look fun v =>
      match v.kind with
      | .classKw | .modelKw | .recordKw | .blockKw | .connectorKw | .typeKw | .packageKw
      | .functionKw => shift
      | .expandableKw => seq [shift, expectClassKind [.connectorKw]]
      | .operatorKw => seq [shift, acceptAny [.recordKw, .functionKw]]
      | .pureKw | .impureKw => seq [
          shift, accept .operatorKw, expectClassKind [.functionKw]]
      | _ => missing .missingClassKind classKinds).Reads classKindForm ends false anywhere
    (.only [.ident, .extendsKw]) := by
  refine (reads_dispatch classKindBranches ?_ fun v _ h => ?_).map derives_classKind
    holds_classKind
  · simp only [classKindBranches, List.forall_mem_cons]
    refine ⟨?_, ?_, ?_, ?_, fun _ h => absurd h List.not_mem_nil⟩
    · exact serves_of_kinds (by simp +contextual [plainClassKinds])
        (reads_shift (fun _ h => h) (by decide)) (by decide)
    · exact serves_of_kinds (by simp +contextual)
        (reads_andThen (reads_shift (fun _ h => h) (by decide))
          (Reads.of_any (reads_expectClassKind (by decide))) fits_any) (by decide)
    · exact serves_of_kinds (by simp +contextual)
        (reads_andThen (reads_shift (fun _ h => h) (by decide))
          (Reads.weaken (reads_acceptAny (by decide)) (by decide)) fits_any) (by decide)
    · exact serves_of_kinds (by simp +contextual)
        (reads_andThen (reads_shift (fun _ h => h) (by decide))
          (reads_andThen (reads_accept (by decide))
            (Reads.of_any (reads_expectClassKind (by decide))) (fits_of_first (by decide)))
          fits_any) (by decide)
  · simp only [classKindBranches, List.forall_mem_cons] at h
    split <;> rename_i hk
    case h_13 => exact fails_missing
    all_goals simp [hk, plainClassKinds] at h

theorem isRead_classPrefixes : Nonterminal.classPrefixes.IsRead ends :=
  reads_node (reads_andThen (reads_accept (by decide)) reads_classKind
    (fits_of_first (by decide)))

/-! ## Bodies -/

/-- The ways to read one more part of the body of a class. -/
def classSectionBranches : List Branch := [
  ⟨fun v => v.kind ∈ [.publicKw, .protectedKw], node .elementList [shift, call .elements],
    .node .elementList (.sequence [.token [.publicKw, .protectedKw], .rule .elements])⟩,
  ⟨fun v => v.kind = .equationKw ∨ v.kind = .initialKw ∧ v.nth 1 = .equationKw,
    call .equationSection, .rule .equationSection⟩,
  ⟨fun v => v.kind = .algorithmKw ∨ v.kind = .initialKw ∧ v.nth 1 = .algorithmKw,
    call .algorithmSection, .rule .algorithmSection⟩]

theorem atClassSection_of_test {b : Branch} (hb : b ∈ classSectionBranches) {v : Lookahead}
    (h : b.test v) :
    atClassSection v = true ∧ v.atSectionBoundary = true ∧ v.atBlockEnd = false := by
  have hinitial : ∀ k ∈ [Kind.equationKw, .algorithmKw], v.kind = .initialKw ∧ v.nth 1 = k →
      v.initialOpensSection = true := by
    rintro k hk ⟨hi, hn⟩
    simp only [List.mem_cons, List.not_mem_nil, or_false] at hk
    rcases hk with rfl | rfl <;> simp [Lookahead.initialOpensSection, Lookahead.sees, hi, hn]
  have hkind : v.kind ∈ [.publicKw, .protectedKw, .equationKw, .algorithmKw] ∨
      v.kind = .initialKw ∧ v.initialOpensSection = true := by
    rcases hb with _ | ⟨_, _ | ⟨_, _ | ⟨_, hb⟩⟩⟩
    · have hk : v.kind ∈ [.publicKw, .protectedKw] := h
      exact .inl (List.mem_append_left [Kind.equationKw, .algorithmKw] hk)
    · rcases h with h | h
      · simp [h]
      · exact .inr ⟨h.1, hinitial _ (by decide) h⟩
    · rcases h with h | h
      · simp [h]
      · exact .inr ⟨h.1, hinitial _ (by decide) h⟩
    · cases hb
  rcases hkind with hk | ⟨hk, hi⟩
  · simp only [List.mem_cons, List.not_mem_nil, or_false] at hk
    rcases hk with hk | hk | hk | hk <;>
      simp [atClassSection, Lookahead.atSectionBoundary, Lookahead.atBlockEnd, Lookahead.sees, hk]
  · simp [atClassSection, Lookahead.atSectionBoundary, Lookahead.atBlockEnd, Lookahead.sees, hk, hi]

/-- A section starts with its keyword, or with `initial` before it. -/
theorem keyword_of_derives {kind k k' : Kind} {f : Form} {n : Nat} {ts rest : List Token}
    {us : List Tree} {v : Lookahead}
    (hd : Derives ends (.node kind (.seq (.opt (.leaf .initialKw)) (.seq (.leaf k) f))) n ts us k')
    (ha : v.ahead = ts ++ rest) : v.kind = k ∨ v.kind = .initialKw ∧ v.nth 1 = k := by
  cases hd with
  | node hd =>
    cases hd with
    | seq hi hd =>
      obtain ⟨t, _, _, rfl, -, ht, -⟩ := hd.of_leaf_seq
      cases hi with
      | left hi =>
        cases hi with
        | token hi =>
          refine .inr ⟨?_, ?_⟩
          · rw [Lookahead.kind, ha]
            exact List.mem_singleton.mp hi
          · rw [Lookahead.nth, ha]
            exact ht
      | right hi =>
        cases hi
        rw [Lookahead.kind, ha]
        exact .inl ht

theorem classSection_opens {b : Branch} (hb : b ∈ classSectionBranches) (he : Allows ends false)
    {v : Lookahead} {n : Nat} {ts rest : List Token} {us : List Tree} {k : Kind}
    (hd : Derives ends b.form n ts us k) (ha : v.ahead = ts ++ rest) : b.test v := by
  rcases hb with _ | ⟨_, _ | ⟨_, _ | ⟨_, hb⟩⟩⟩
  · show headKind v.ahead ∈ [.publicKw, .protectedKw]
    rw [ha]
    exact headKind_of_opens he (by decide) hd rest
  · exact keyword_of_derives (derives_rule.mp hd) ha
  · exact keyword_of_derives (derives_rule.mp hd) ha
  · cases hb

theorem reads_classSection :
    classSection.Reads (.alts (classSectionBranches.map Branch.form)) ends false
      (fun ts => ∃ v : Lookahead, v.ahead = ts ∧ atClassSection v = true) .sectionEnd := by
  have helements : (call .elements).Reads (.rule .elements) ends false anywhere .sectionEnd :=
    reads_call (fun _ _ => trivial) nofun
  refine reads_dispatch classSectionBranches ?_ fun v ⟨w, hw, hat⟩ h => ?_
  · simp only [classSectionBranches, List.forall_mem_cons]
    refine ⟨?_, ?_, ?_, fun _ h => absurd h List.not_mem_nil⟩
    · exact serves_of_kinds (by simp +contextual)
        (reads_node (reads_andThen (reads_shift (fun _ h => h) (by decide)) helements fits_any))
        (by decide)
    · exact {
        next := by
          rintro v (h | h)
          · simp [h]
          · simp [h.1, h.2]
        read := reads_call (fun _ _ => trivial) nofun
        opens := fun he v _ _ _ _ hd ha _ =>
          classSection_opens (.tail _ (.head _)) he hd ha }
    · exact {
        next := by
          rintro v (h | h)
          · simp [h]
          · simp [h.1, h.2]
        read := reads_call (fun _ _ => trivial) nofun
        opens := fun he v _ _ _ _ hd ha _ =>
          classSection_opens (.tail _ (.tail _ (.head _))) he hd ha }
  · simp only [classSectionBranches, List.forall_mem_cons] at h
    obtain ⟨hlist, hequation, halgorithm, -⟩ := h
    split <;> rename_i hk
    case h_1 | h_2 => simp [hk] at hlist
    case h_3 => exact absurd (.inl hk) hequation
    case h_4 => exact absurd (.inl hk) halgorithm
    case h_5 =>
      have hkw : w.kind = .initialKw := by
        rw [Lookahead.kind, hw]
        exact hk
      have hnth : w.nth 1 = v.nth 1 := by rw [Lookahead.nth, Lookahead.nth, hw]
      simp only [atClassSection, hkw, Lookahead.initialOpensSection, Bool.and_eq_true,
        Bool.or_eq_true, beq_iff_eq, hnth] at hat
      rcases hat.2 with h | h
      · exact absurd (.inr ⟨hk, h⟩) hequation
      · exact absurd (.inr ⟨hk, h⟩) halgorithm
    case h_6 => exact fails_strayEnd

/-- The elements before the first section. -/
theorem reads_initialElements :
    (look fun v =>
      if v.atSectionBoundary then done else node .initialElementList [call .elements]).Reads
      (.opt (.node .initialElementList (.rule .elements))) ends false anywhere .sectionEnd := by
  have hcall : (call .elements).Reads (.rule .elements) ends false anywhere .sectionEnd :=
    reads_call (fun _ _ => trivial) nofun
  have hlist : (node .initialElementList [call .elements]).Reads
      (.node .initialElementList (.rule .elements)) ends false anywhere .sectionEnd :=
    reads_node hcall
  constructor
  · intro env r r' _ hd
    simp only [Does] at hd
    split at hd
    · rw [hd]
      exact spells_empty.map .right
    · exact (hlist.sound env trivial hd).map .left
  · intro he env r n ts us rest hl ha hn hstop
    refine takes_look ?_
    cases ts with
    | nil =>
      -- nothing is read where no element is there
      rw [if_pos]
      · have hdone : done.Takes false env r [] rest := takes_done ha
        exact hdone.outer
      · show (Lookahead.mk r.ahead r.index env.context env.constructs).atSectionBoundary = true
        rw [ha]
        exact hstop.1
    | cons t ts =>
      rcases hl with hl | ⟨h, -⟩
      · have hk : headKind r.ahead ∈ Kind.elementStart := by
          rw [ha]
          have hd := hl.derives_of_completes
          exact (hd.starts_of_allows he).first t ts rfl
        have hboundary := not_boundary_of_kind (v := r.look env) hk (by decide)
        rw [if_neg (by simp [hboundary.2])]
        exact hlist.complete he env hl ha hn hstop
      · cases h

theorem isRead_classBody : Nonterminal.classBody.IsRead ends := by
  have hfits : Fits ends false .sectionEnd
      (.many (.alts (classSectionBranches.map Branch.form))) Nonterminal.classBody.Stops := by
    intro he constructs n ts us rest hd hafter
    cases hd with
    | none => exact hafter.1
    | @more _ _ ts us vs ws _ hd _ =>
      obtain ⟨_, hf, hd⟩ := derives_of_alts hd
      obtain ⟨b, hb, rfl⟩ := List.mem_map.mp hf
      have hv : (Lookahead.mk (ts ++ vs ++ rest) 0 .topLevel constructs).ahead =
          ts ++ (vs ++ rest) := List.append_assoc ts vs rest
      exact (atClassSection_of_test hb (classSection_opens hb he hd hv)).2
  have hsections : (many atClassSection fun _ => classSection).Reads
      (.many (.alts (classSectionBranches.map Branch.form))) ends false anywhere
      Nonterminal.classBody.Stops := by
    refine reads_many reads_classSection (fun v h => ⟨v, rfl, h⟩)
      (fun he v n ts us rest hd ha _ => ?_) (fun v h => ?_) hfits
    · obtain ⟨_, hf, hd⟩ := derives_of_alts hd
      obtain ⟨b, hb, rfl⟩ := List.mem_map.mp hf
      exact (atClassSection_of_test hb (classSection_opens hb he hd ha)).1
    · obtain ⟨⟨-, hend⟩, hk⟩ := h
      have hend' : v.atBlockEnd = false := hend
      have hk' : v.kind ∈ [.externalKw, .annotationKw, .endKw] := hk
      simp only [List.mem_cons, List.not_mem_nil, or_false] at hk'
      rcases hk' with hk | hk | hk <;> simp [atClassSection, hk, hend']
  exact reads_andThen reads_initialElements hsections hfits

/-! ## Long class specifiers -/

/-- The name after `end` may be any; another name than that of the class is a warning. -/
theorem reads_endName {name : Option String} {opened : Spot} :
    (look fun w =>
      if w.sees .ident then seq [
        match name with
        | some n => if w.text = n then done else report (endNameMismatch w n opened)
        | none => done,
        shift]
      else missing .missingIdentifier [.ident]).Reads (.leaf .ident) ends false anywhere .any := by
  have hwarning : ∀ w : Lookahead, (match name with
      | some n => if w.text = n then done else report (endNameMismatch w n opened)
      | none => done).Reads .empty ends false (atOneOf [.ident]) .any := by
    intro w
    split
    · split
      · exact reads_done
      · exact reads_report rfl
    · exact reads_done
  refine @reads_guard_look _ _ _ _ _ (·.sees .ident) _ (atOneOf [.ident]) (fun w h => ?_)
    (fun w h => ?_) (fun w h => mem_of_sees h) fun he w n ts us rest hd ha => ?_
  · rw [if_pos h]
    exact reads_andThen_empty (hwarning w) (reads_shift (fun _ h => h) (by decide)) fits_any
  · rw [if_neg (by simp [h])]
    exact fails_missing
  · refine beq_iff_eq.mpr ?_
    rw [Lookahead.kind, ha]
    exact List.mem_singleton.mp (headKind_of_opens he (by decide) hd rest)

theorem reads_classEnd {name : Option String} {opened : Spot} :
    (classEnd name opened).Reads (.sequence [.leaf .endKw, .leaf .ident]) ends false anywhere
      .any :=
  reads_guard (sees_eq_contains · .endKw)
    (reads_andThen (reads_shift (fun _ h => h) (by decide)) reads_endName fits_any) (by decide)
    fun _ => rfl

/-- What follows the body of a class in its long form. -/
def classTail : List Form := [
  .opt (.rule .externalFunctionClause),
  .opt (.sequence [.rule .annotationClause, .leaf .semicolon]),
  .leaf .endKw, .leaf .ident]

/-- The name comes after an `end` that is not before an external clause or an annotation. -/
theorem ident_of_classTail (he : Allows ends false) {n : Nat} {ts rest : List Token}
    {us : List Tree} {k : Kind} (hd : Derives ends (.sequence classTail) n ts us k)
    (hend : headKind (ts ++ rest) = .endKw) : kindAt (ts ++ rest) 1 = .ident := by
  have hexternal : headKind (ts ++ rest) ∉ [Kind.externalKw] := by
    rw [hend]
    decide
  have hannotation : headKind (ts ++ rest) ∉ [Kind.annotationKw] := by
    rw [hend]
    decide
  have hd := Derives.of_opt_seq he (by decide) (Derives.of_opt_seq he (by decide) hd hexternal)
    hannotation
  obtain ⟨_, _, _, rfl, -, -, hd⟩ := hd.of_leaf_seq
  cases hd with
  | token hu => exact List.mem_singleton.mp hu

theorem fits_classBody :
    Fits ends false Nonterminal.classBody.Stops (.sequence classTail) .any := by
  intro he constructs n ts us rest hd _
  have hk : headKind (ts ++ rest) ∈ [.externalKw, .annotationKw, .endKw] :=
    headKind_of_opens he (by decide) hd rest
  have hident : headKind (ts ++ rest) = .endKw → kindAt (ts ++ rest) 1 = .ident :=
    ident_of_classTail he hd
  show Stop.sectionEnd.Holds constructs (ts ++ rest) ∧ headKind (ts ++ rest) ∈ _
  generalize ts ++ rest = vs at hk hident
  refine ⟨⟨?_, ?_⟩, hk⟩
  · simp only [List.mem_cons, List.not_mem_nil, or_false] at hk
    rcases hk with hk | hk | hk <;> simp [Lookahead.atSectionBoundary, Lookahead.kind, hk]
  · by_cases hend : headKind vs = .endKw
    · simp [Lookahead.atBlockEnd, Lookahead.nth, hident hend]
    · simp [Lookahead.atBlockEnd, Lookahead.sees, Lookahead.kind, hend]

/-- The body of a class and all that follows it. -/
theorem reads_classTail {name : Option String} {opened : Spot} :
    (seq [
      before .string (call .descriptionString),
      inContext .classBody (call .classBody),
      before .externalKw (call .externalFunctionClause),
      before .annotationKw <| seq [call .annotationClause, expect .semicolon],
      classEnd name opened]).Reads
      (.seq (.opt (.rule .descriptionString)) (.seq (.rule .classBody) (.sequence classTail))) ends
      false anywhere .any := by
  have hdescription : (call .descriptionString).Reads (.rule .descriptionString) ends false
      (atOneOf [.string]) Nonterminal.descriptionString.Stops :=
    reads_call (fun _ _ => trivial) nofun
  have hexternal : (call .externalFunctionClause).Reads (.rule .externalFunctionClause) ends false
      (atOneOf [.externalKw]) .any :=
    reads_call (fun _ h => List.mem_singleton.mp h) nofun
  have hannotation : (seq [call .annotationClause, expect .semicolon]).Reads
      (.sequence [.rule .annotationClause, .leaf .semicolon]) ends false (atOneOf [.annotationKw])
      .any :=
    reads_andThen (reads_call (fun _ _ => trivial) nofun) (reads_expect (by decide))
      (fits_of_first (by decide))
  have htail : (seq [
      before .externalKw (call .externalFunctionClause),
      before .annotationKw <| seq [call .annotationClause, expect .semicolon],
      classEnd name opened]).Reads (.sequence classTail) ends false anywhere .any :=
    reads_andThen (reads_before hexternal (by decide))
      (reads_andThen (reads_before hannotation (by decide)) reads_classEnd
        (fits_of_first (by decide)))
      (fits_of_first (by decide))
  exact reads_andThen (reads_before hdescription (by decide))
    (reads_andThen (reads_inContext (reads_call (fun _ _ => trivial) nofun)) htail fits_classBody)
    (fits_of_first (by decide))

/-- A class that extends one of the same name, or a class with a name of its own. -/
theorem isRead_longClassSpecifier : Nonterminal.longClassSpecifier.IsRead ends := by
  have hmodification : (call .classModification).Reads (.rule .classModification) ends false
      (atOneOf [.lParen]) .any :=
    reads_call (fun _ h => List.mem_singleton.mp h) nofun
  have hcases := @reads_cases ends false anywhere .any
    (.node .longClassSpecifier (.seq
      (.sequence [.leaf .extendsKw, .leaf .ident, .opt (.rule .classModification)])
      (.seq (.opt (.rule .descriptionString)) (.seq (.rule .classBody) (.sequence classTail)))))
    (.node .longClassSpecifier (.seq (.leaf .ident)
      (.seq (.opt (.rule .descriptionString)) (.seq (.rule .classBody) (.sequence classTail)))))
    (fun start => node .longClassSpecifier [
      accept .extendsKw,
      look fun v => seq [
        expect .ident,
        if start.sees .extendsKw then before .lParen (call .classModification) else done,
        before .string (call .descriptionString),
        inContext .classBody (call .classBody),
        before .externalKw (call .externalFunctionClause),
        before .annotationKw <| seq [call .annotationClause, expect .semicolon],
        classEnd (if v.sees .ident then some v.text else none) start.index]])
    (·.sees .extendsKw) (atOneOf [.extendsKw]) (fun ts => headKind ts ≠ .extendsKw)
    ?_ ?_ ?_ ?_ ?_ ?_
  · exact reads_node_alt (reads_alt_comm hcases)
  · intro start h
    rw [if_pos h]
    exact reads_node (reads_assoc_symm (reads_andThen (reads_accept_seen (by decide))
      (reads_assoc_symm (reads_look fun v => reads_andThen (reads_expect (by decide))
        (reads_andThen (reads_before hmodification (by decide)) reads_classTail
          (fits_of_first (by decide)))
        fits_any))
      fits_any))
  · intro start h
    rw [if_neg (by simp [h])]
    exact reads_node (reads_andThen_empty reads_accept_unseen
      (reads_look fun v => reads_andThen (reads_expect (by decide))
        (reads_andThen_empty reads_done reads_classTail fits_any) fits_any)
      (fits_of_first (by decide)))
  · exact fun v h _ => mem_of_sees h
  · exact fun v h _ hk => by simp [Lookahead.sees, Lookahead.kind, hk] at h
  · intro he v n ts us rest hd ha _
    refine beq_iff_eq.mpr ?_
    rw [Lookahead.kind, ha]
    exact List.mem_singleton.mp (headKind_of_opens he (by decide) hd rest)
  · intro he v n ts us rest hd ha _
    have hk : headKind (ts ++ rest) = .ident :=
      List.mem_singleton.mp (headKind_of_opens he (by decide) hd rest)
    simp [Lookahead.sees, Lookahead.kind, ha, hk]

end Modelica.Grammar
