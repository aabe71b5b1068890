import Modelica.Proofs.Classes
import Modelica.Proofs.Conformity
import Modelica.Proofs.Ladder
import Modelica.Proofs.Trivia

/-!
# What is accepted

Every rule reads its right-hand side (`Grammar.isRead`), given that the rules it calls do. From that
both directions follow for whole runs: the first by induction on the run, the second by induction on
the derivation.
-/

namespace Modelica

open Token (headKind)

theorem Grammar.isRead {ends : Kind → Prop} : (rule : Nonterminal) → rule.IsRead ends
  | .name => isRead_name
  | .typeSpecifier => isRead_typeSpecifier
  | .componentReference => isRead_componentReference
  | .componentReferencePart => isRead_componentReferencePart
  | .arraySubscripts => isRead_arraySubscripts
  | .subscript => isRead_subscript
  | .expression => isRead_expression
  | .ifExpression => isRead_ifExpression
  | .simpleExpression => isRead_simpleExpression
  | .band least => isRead_band least
  | .unary least => isRead_unary least
  | .operand least => isRead_operand least
  | .primary => isRead_primary
  | .callArguments => isRead_callArguments
  | .functionArguments => isRead_functionArguments
  | .functionArgument => isRead_functionArgument
  | .namedArgument => isRead_namedArgument
  | .partialApplication => isRead_partialApplication
  | .forIndex => isRead_forIndex
  | .parenthesized => isRead_parenthesized
  | .arrayConcatenation => isRead_arrayConcatenation
  | .arrayConstructor => isRead_arrayConstructor
  | .expressionList => isRead_expressionList
  | .descriptionString => isRead_descriptionString
  | .annotationClause => isRead_annotationClause
  | .comment => isRead_comment
  | .modification => isRead_modification
  | .modificationExpression => isRead_modificationExpression
  | .classModification => isRead_classModification
  | .classOrInheritanceModification => isRead_classOrInheritanceModification
  | .inheritanceModification => isRead_inheritanceModification
  | .connectClause => isRead_connectClause
  | .argument => isRead_argument
  | .elementModification => isRead_elementModification
  | .elementRedeclaration => isRead_elementRedeclaration
  | .elementReplaceable => isRead_elementReplaceable
  | .redeclaredElement => isRead_redeclaredElement
  | .componentClause1 => isRead_componentClause1
  | .elements => isRead_elements
  | .element => isRead_element
  | .importClause => isRead_importClause
  | .extendsClause => isRead_extendsClause
  | .constrainingClause => isRead_constrainingClause
  | .namedElementClause => isRead_namedElementClause
  | .typePrefix => isRead_typePrefix
  | .componentClause => isRead_componentClause
  | .componentDeclaration => isRead_componentDeclaration
  | .declaration => isRead_declaration
  | .storedDefinition => isRead_storedDefinition
  | .withinClause => isRead_withinClause
  | .classDefinitionClause => isRead_classDefinitionClause
  | .classDefinition => isRead_classDefinition
  | .classPrefixes => isRead_classPrefixes
  | .longClassSpecifier => isRead_longClassSpecifier
  | .classBody => isRead_classBody
  | .shortClassSpecifier => isRead_shortClassSpecifier
  | .enumerationLiteral => isRead_enumerationLiteral
  | .derClassSpecifier => isRead_derClassSpecifier
  | .externalFunctionClause => isRead_externalFunctionClause
  | .externalFunctionCall => isRead_externalFunctionCall
  | .equationSection => isRead_equationSection
  | .algorithmSection => isRead_algorithmSection
  | .sectionBody family => isRead_sectionBody family
  | .body family => isRead_body family
  | .item family => isRead_item family
  | .equation => isRead_equation
  | .simpleEquation => isRead_simpleEquation
  | .specialEquation => isRead_specialEquation
  | .connectEquation => isRead_connectEquation
  | .statement => isRead_statement
  | .keywordStatement kind => isRead_keywordStatement kind
  | .referenceStatement => isRead_referenceStatement
  | .destructuringAssignment => isRead_destructuringAssignment
  | .ifBlock _ => isRead_ifBlock
  | .elseIfClause _ => isRead_elseIfClause
  | .elseClause _ => isRead_elseClause
  | .whenBlock _ => isRead_whenBlock
  | .elseWhenClause _ => isRead_elseWhenClause
  | .forBlock _ => isRead_forBlock
  | .whileBlock => isRead_whileBlock

/-- What a rule reads without errors is a derivation of it. -/
theorem Runs.spells {rule : Nonterminal} {env : Surroundings} {r r' : Reading}
    (h : Runs noError (.of (.call rule)) env r r') (hs : rule.Expects r.ahead) :
    Spells (.rule rule) env r r' := by
  have hrule : ∀ {rule : Nonterminal} {env r r'},
      rule.production.Does Nonterminal.Spelled env r r' → rule.Spelled env r r' :=
    fun hd hs =>
      ⟨((@Grammar.isRead endGuarded _).sound _ hs hd).map .rule, Grammar.leaves_of_does hd⟩
  have hcall : rule.Spelled env r r' := Runs.does hrule h
  exact (hcall hs).1

theorem completes_of_holds {ends : Kind → Prop} {rule : Nonterminal} {n : Nat} {ts : List Token}
    {us : List Tree} {k : Kind} (h : rule.form.Holds ends (Completes ends) n ts us k) :
    Completes ends rule n ts us k := by
  refine ⟨.rule h.derives_of_completes, fun he => ⟨?_, ?_⟩⟩
  · rintro env r rest rfl ha hn hstop
    exact Production.takes_call ((Grammar.isRead rule).complete he env h ha hn hstop)
  · rintro level rfl
    exact Grammar.climbs_rung he h

/-- What is derived from a rule, the rule reads. -/
theorem Derives.takes {ends : Kind → Prop} {rule : Nonterminal} {n : Nat} {ts : List Token}
    {us : List Tree} {k : Kind} (h : Derives ends (.rule rule) n ts us k)
    (he : Allows ends rule.inner) : rule.Takes n ts us k := by
  have hc : Completes ends rule n ts us k := h.holds completes_of_holds
  exact (hc.2 he).1

namespace Parse

theorem lexicalFaults_eq_nil {tokens : List Token} (h : ∀ t ∈ tokens, t.kind ≠ .error) :
    lexicalFaults tokens = [] := by
  refine List.filterMap_eq_nil_iff.mpr fun p hp => ?_
  have ht : p.toToken ∈ tokens := by
    rw [← Token.map_placeFrom 0 .origin tokens]
    exact List.mem_map_of_mem hp
  have hfault : p.toToken.fault? = none := if_neg (h _ ht)
  rw [hfault]
  rfl

/-- A text without bad tokens where the grammar has reported no error has none. -/
theorem ok_of_clean {p : Production} {limit : Nat} {text : String}
    (ht : ∀ t ∈ tokenize text, t.kind ≠ .error)
    (hc : (p.read limit (Token.significant (tokenize text))).Clean) :
    (ofProduction p limit text).ok = true := by
  refine List.all_eq_true.mpr fun d hd => ?_
  have hd' := List.mem_mergeSort.mp hd
  rw [lexicalFaults_eq_nil ht, List.nil_append] at hd'
  obtain ⟨e, he, rfl⟩ := List.mem_map.mp hd'
  have herror : e.isError = false := hc e (List.mem_reverse.mp he)
  have hmap : (e.map (Landmarks.ofTokens (tokenize text)).span).isError = e.isError := rfl
  rw [hmap, herror]
  rfl

end Parse

/-- A run without errors is what is read, and it is clean. -/
theorem Runs.read_eq {p : Production} {limit : Nat} {tokens : List Token} {r : Reading}
    (ht : p.Tame) (h : Runs noError (.of p) ⟨.topLevel, [], 0, limit⟩ (.start tokens) r) :
    p.read limit tokens = r ∧ r.Clean := by
  have hany : Runs anyReport (.of p) ⟨.topLevel, [], 0, limit⟩ (.start tokens) r :=
    h.mono fun _ _ => trivial
  refine ⟨(p.runs_read ht limit tokens).determined hany, ?_⟩
  exact h.forall_faults fun _ hf => absurd hf List.not_mem_nil

/-- A text that parses without errors is read to its end, and no error is reported on the way. -/
theorem runs_of_ok {limit : Nat} {text : String}
    (h : (Parse.ofProduction (.call .storedDefinition) limit text).ok = true) :
    let r := Production.read (.call .storedDefinition) limit (Token.significant (tokenize text))
    Runs noError (.of (.call .storedDefinition)) ⟨.topLevel, [], 0, limit⟩
        (.start (Token.significant (tokenize text))) r ∧ r.ahead = [] := by
  intro r
  have hrun := Production.runs_of_clean (.call .storedDefinition) trivial (Parse.clean_of_ok h).2
  refine ⟨hrun, Reading.ahead_eq_nil_of_atEnd (fun t ht => ?_) hrun.atEnd_of_storedDefinition⟩
  exact Token.kind_mem_tokens_of_significant (hrun.leads.1.subset ht)

/-- What is read to its end without errors is derived from the grammar, with the root over it. -/
theorem Runs.derives_storedDefinition {limit : Nat} {ts : List Token} {r : Reading}
    (h : Runs noError (.of (.call .storedDefinition)) ⟨.topLevel, [], 0, limit⟩ (.start ts) r)
    (hr : r.ahead = []) : ∃ us, r.built = [.node .storedDefinition us] ∧ Tree.leavesOf us = ts ∧
      Derives endGuarded (.rule .storedDefinition) limit ts [.node .storedDefinition us]
        .endOfInput := by
  obtain ⟨ts', us, ha, hb, hd⟩ := h.spells trivial
  obtain rfl : ts = ts' := by simpa [Reading.start, hr] using ha
  have hleaves : Tree.leavesOf r.built.reverse ++ r.ahead = ts := h.leaves
  rw [hr] at hd
  cases derives_rule.mp hd with
  | @node _ _ _ _ us _ _ =>
    have hbuilt : r.built = [.node .storedDefinition us] := by simpa [Reading.start] using hb
    exact ⟨us, hbuilt, by simpa [hbuilt, hr] using hleaves, hd⟩

/-- A text that parses without errors is derived from the grammar, with its tree. -/
theorem derives_of_ok {limit : Nat} {text : String}
    (h : (Parse.ofProduction (.call .storedDefinition) limit text).ok = true) :
    Derives endGuarded (.rule .storedDefinition) limit (Token.significant (tokenize text))
      [(Parse.ofProduction (.call .storedDefinition) limit text).tree.strip] .endOfInput := by
  obtain ⟨hrun, hend⟩ := runs_of_ok h
  rw [Parse.strip_tree_ofProduction Production.readsAll_storedDefinition]
  generalize Production.read (.call .storedDefinition) limit
    (Token.significant (tokenize text)) = r at hrun hend
  obtain ⟨us, hbuilt, -, hd⟩ := hrun.derives_storedDefinition hend
  rw [hbuilt]
  exact hd

/-- A derivation within the bound on nesting is read without errors. -/
theorem ok_of_derives {n limit : Nat} {text : String} {us : List Tree}
    (ht : ∀ t ∈ tokenize text, t.kind ≠ .error) (hn : n ≤ limit)
    (h : Derives endNowhere (.rule .storedDefinition) n (Token.significant (tokenize text)) us
      .endOfInput) :
    (Parse.ofProduction (.call .storedDefinition) limit text).ok = true := by
  have hallows : Allows endNowhere (Nonterminal.inner .storedDefinition) :=
    ⟨fun _ => False.elim, .inr fun _ => id⟩
  obtain ⟨r, hrun, -⟩ := h.takes hallows ⟨.topLevel, [], 0, limit⟩
    (.start (Token.significant (tokenize text))) [] rfl (List.append_nil _).symm
    (by simpa using hn) rfl
  obtain ⟨hread, hclean⟩ := Runs.read_eq (p := .call .storedDefinition) trivial hrun
  exact Parse.ok_of_clean ht (hread ▸ hclean)

section

variable {f g : Form} {fs : List Form} {n : Nat} {ts : List Token} {us vs : List Tree} {k : Kind}

/-- A part that is empty here. -/
theorem derives_nil_seq (h : Derives endNowhere g n [] us (Token.nextKind ts k))
    (h' : Derives endNowhere (.sequence (f :: fs)) n ts vs k) :
    Derives endNowhere (.sequence (g :: f :: fs)) n ts (us ++ vs) k :=
  .seq h h'

theorem derives_cons_seq {t : Token} (h : Derives endNowhere g n [t] us (Token.nextKind ts k))
    (h' : Derives endNowhere (.sequence (f :: fs)) n ts vs k) :
    Derives endNowhere (.sequence (g :: f :: fs)) n (t :: ts) (us ++ vs) k :=
  .seq h h'

theorem derives_opt_seq (h : Derives endNowhere (.sequence (f :: fs)) n ts vs k) :
    Derives endNowhere (.sequence (.opt g :: f :: fs)) n ts vs k :=
  derives_nil_seq (.right .empty) h

end

/-- A class with nothing in it. -/
theorem derives_emptyClass : ∃ us, Derives endNowhere (.rule .storedDefinition) 1
    [⟨.modelKw, "model"⟩, ⟨.ident, "A"⟩, ⟨.endKw, "end"⟩, ⟨.ident, "A"⟩, ⟨.semicolon, ";"⟩] us
    .endOfInput := by
  have hbody : Derives endNowhere (.rule .classBody) 0 [] [] .endKw :=
    .rule (.seq (.right .empty) .none)
  have hend : Derives endNowhere (.sequence [.leaf .endKw, .leaf .ident]) 0
      [⟨.endKw, "end"⟩, ⟨.ident, "A"⟩] _ .semicolon :=
    .seq (.token (by decide)) (.token (t := ⟨.ident, "A"⟩) (by decide))
  have hspecifier : Derives endNowhere (.rule .longClassSpecifier) 0
      [⟨.ident, "A"⟩, ⟨.endKw, "end"⟩, ⟨.ident, "A"⟩] _ .semicolon :=
    .rule (.node (.seq (.left (.token (t := ⟨.ident, "A"⟩) (by decide)))
      (derives_opt_seq (derives_nil_seq hbody (derives_opt_seq (derives_opt_seq hend))))))
  have hprefixes : Derives endNowhere (.rule .classPrefixes) 0 [⟨.modelKw, "model"⟩] _ .ident :=
    .rule (.node (derives_opt_seq (.left (.token (by decide)))))
  have hclass : Derives endNowhere (.rule .classDefinition) 1
      [⟨.modelKw, "model"⟩, ⟨.ident, "A"⟩, ⟨.endKw, "end"⟩, ⟨.ident, "A"⟩] _ .semicolon :=
    .rule (.level (.node (derives_opt_seq (derives_cons_seq hprefixes (.left hspecifier)))))
  have hrest : Derives endNowhere (.sequence [.rule .classDefinition, .leaf .semicolon]) 1
      ([⟨.modelKw, "model"⟩, ⟨.ident, "A"⟩, ⟨.endKw, "end"⟩, ⟨.ident, "A"⟩] ++
        [⟨.semicolon, ";"⟩]) _
      .endOfInput :=
    .seq hclass (.token (by decide))
  have hclause : Derives endNowhere (.many (.rule .classDefinitionClause)) 1 (_ ++ []) _
      .endOfInput :=
    .more (.rule (.node (derives_opt_seq hrest))) .none
  exact ⟨_, .rule (.node (derives_opt_seq hclause))⟩

/-- Texts without bad tokens are accepted as the grammar has it. One that parses without errors is
a stored definition, and without trivia its tree is that of the derivation. Conversely a stored
definition in which no `end` is an expression parses without errors, if its classes, equations,
statements, expressions and operands nest no deeper than the limit. -/
theorem parse_accepts {text : String} (ht : ∀ t ∈ tokenize text, t.kind ≠ .error) :
    ((parse text).ok = true → Derives endAnywhere (.rule .storedDefinition)
      ParseOptions.standard.limit (Token.significant (tokenize text)) [(parse text).tree.strip]
      .endOfInput) ∧
    ∀ n limit us, n ≤ limit → Derives endNowhere (.rule .storedDefinition) n
      (Token.significant (tokenize text)) us .endOfInput →
      ∃ p, parseWith ⟨limit, false⟩ text = .ok p ∧ p.ok = true := by
  refine ⟨fun h => (derives_of_ok h).mono fun _ _ => trivial, fun n limit us hn hd => ?_⟩
  exact ⟨_, rfl, ok_of_derives ht hn hd⟩

/-- A class with nothing in it goes both ways. -/
theorem parse_accepts_emptyClass :
    (∀ t ∈ tokenize "model A end A;", t.kind ≠ .error) ∧
      Derives endAnywhere (.rule .storedDefinition) ParseOptions.standard.limit
        (Token.significant (tokenize "model A end A;")) [(parse "model A end A;").tree.strip]
        .endOfInput ∧
      ∃ p, parseWith ⟨1, false⟩ "model A end A;" = .ok p ∧ p.ok = true := by
  have ht : ∀ t ∈ tokenize "model A end A;", t.kind ≠ .error := by decide +kernel
  have htokens : Token.significant (tokenize "model A end A;") =
      [⟨.modelKw, "model"⟩, ⟨.ident, "A"⟩, ⟨.endKw, "end"⟩, ⟨.ident, "A"⟩, ⟨.semicolon, ";"⟩] := by
    decide +kernel
  obtain ⟨us, hd⟩ := derives_emptyClass
  refine ⟨ht, (parse_accepts ht).1 (by decide +kernel), ?_⟩
  exact (parse_accepts ht).2 1 1 us (Nat.le_refl 1) (htokens ▸ hd)

end Modelica
