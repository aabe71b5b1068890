import Modelica.Grammar.Block

/-!
# The grammar as it is written down

The right-hand sides of a grammar in the notation of its documentation: tokens, sequences, choices,
repetitions and the names of other rules. Beside what a text may be, a right-hand side says which
nodes are put over it, and where one more level of nesting is counted.

* `Form`: a right-hand side;
* `Nonterminal.form`: the one of each rule, as the documentation gives it;
* `Derives`: which tokens a right-hand side stands for, and with which trees over them;
* `Form.Holds`: the same one rule deep, given what the rules stand for.
-/

namespace Modelica

/-- A right-hand side of the grammar. -/
inductive Form where
  | empty
  /-- One token of one of these kinds. -/
  | token (kinds : List Kind)
  /-- An `end` that is an expression. -/
  | endToken
  | seq (first second : Form)
  | alt (left right : Form)
  | many (item : Form)
  | rule (rule : Nonterminal)
  | node (kind : Kind) (body : Form)
  /-- What is one level deeper. -/
  | level (body : Form)
  /-- `operand step*`, where each step puts a node over all that stands before it and itself. -/
  | chain (kind : Kind) (operand step : Form)
  deriving Inhabited

namespace Form

def leaf (k : Kind) : Form := token [k]

def opt (f : Form) : Form := alt f empty

def sequence : List Form → Form
  | [] => empty
  | [f] => f
  | f :: fs => seq f (sequence fs)

def alts : List Form → Form
  | [] => token []
  | [f] => f
  | f :: fs => alt f (alts fs)

/-- `f (separator f)*` -/
def separated (separator : Kind) (f : Form) : Form := seq f (many (seq (leaf separator) f))

/-- `'(' (f (',' f)*)? ')'` -/
def group (f : Form) : Form :=
  sequence [leaf .lParen, opt (separated .comma f), leaf .rParen]

/-- `'for' ForIndex (',' ForIndex)*` -/
def forIndices : Form := sequence [leaf .forKw, separated .comma (rule .forIndex)]

/-- `Expression 'for' ForIndex (',' ForIndex)*` -/
def comprehension : Form :=
  node .comprehensionClause (seq (rule .expression) forIndices)

/-- `FunctionPartialApplication | Expression` -/
def argument : Form := node .functionArgument (alt (rule .partialApplication) (rule .expression))

/-- `DescriptionString? AnnotationClause? ';'` -/
def itemEnd : Form := sequence [rule .comment, leaf .semicolon]

/-- `'end' keyword DescriptionString? AnnotationClause? ';'` -/
def blockEnd (keyword : Kind) : Form := sequence [leaf .endKw, leaf keyword, itemEnd]

/-- A chain of operators that groups to the left. -/
def leftChain (operators : List Kind) (operand : Form) : Form :=
  chain .binaryExpression operand (seq (token operators) operand)

/-- An operator between two operands. -/
def binary (left : Form) (operators : List Kind) (right : Form) : Form :=
  node .binaryExpression (sequence [left, token operators, right])

end Form

namespace Nonterminal

open Form

/-- The keyword of a statement that is nothing else. -/
def statementKeyword : Kind → List Kind
  | .breakStatement => [.breakKw]
  | .returnStatement => [.returnKw]
  | _ => []

/-- The prefix operators of a band. -/
def prefixOperators : Nat → List Kind
  | 2 => [.notKw]
  | 5 => Band.additive
  | _ => []

/-- The ladder of operators, the loosest rung first:
`Or := And ('or' And)*`, `And := Not ('and' Not)*`, `Not := 'not' Not | Rel`,
`Rel := Add (relop Add)?`, `Add := UAdd (addop UAdd)*`, `UAdd := addop UAdd | Mul`,
`Mul := Pow (mulop Pow)*`, `Pow := primary (powop Pow)?`. -/
def rung : Nat → Form
  | 0 => leftChain [.orKw] (rule (band 1))
  | 1 => leftChain [.andKw] (rule (band 2))
  | 2 => alt (rule (unary 2)) (rule (band 3))
  | 3 => alt (binary (rule (band 4)) Band.relational (rule (band 4))) (rule (band 4))
  | 4 => leftChain Band.additive (rule (band 5))
  | 5 => alt (rule (unary 5)) (rule (band 6))
  | 6 => leftChain Band.multiplicative (rule (band 7))
  | 7 => alt (binary (rule primary) Band.power (rule (operand 7))) (rule primary)
  | _ => rule primary

/-- The items of a section or a body. -/
def itemRule : Family → Nonterminal
  | .equations => equation
  | .statements => statement

/-- The right-hand side of a rule. -/
def form : Nonterminal → Form
  -- names and expressions
  | name => node .name (sequence [leaf .ident, many (sequence [leaf .dot, leaf .ident])])
  | typeSpecifier => node .typeSpecifier (sequence [opt (leaf .dot), rule name])
  | componentReference => node .componentReference (sequence [
      opt (leaf .dot), separated .dot (rule componentReferencePart)])
  | componentReferencePart => node .componentReferencePart (sequence [
      leaf .ident, opt (rule arraySubscripts)])
  | arraySubscripts => node .arraySubscripts (sequence [
      leaf .lBracket, separated .comma (rule subscript), leaf .rBracket])
  | subscript => node .subscript (alt (leaf .colon) (rule expression))
  | expression => level (alts [
      rule ifExpression,
      node .rangeExpression (sequence [
        rule simpleExpression, leaf .colon, rule simpleExpression,
        opt (sequence [leaf .colon, rule simpleExpression])]),
      rule simpleExpression])
  | ifExpression => node .ifExpression (sequence [
      leaf .ifKw, rule expression, leaf .thenKw, rule expression,
      many (node .elseIfExpressionClause (sequence [
        leaf .elseifKw, rule expression, leaf .thenKw, rule expression])),
      leaf .elseKw, rule expression])
  | simpleExpression => rule (band 0)
  | band least => rung least
  | unary least => node .unaryExpression (sequence [
      token (prefixOperators least), rule (operand least)])
  | operand least => level (rule (band least))
  | primary => alts [
      node .unsignedIntegerLiteral (leaf .unsignedInteger),
      node .unsignedRealLiteral (leaf .unsignedReal),
      node .stringLiteral (leaf .string),
      node .logicalLiteral (token [.trueKw, .falseKw]),
      node .functionCall (sequence [token [.derKw, .initialKw, .pureKw], rule callArguments]),
      alt (node .functionCall (sequence [rule componentReference, rule callArguments]))
        (rule componentReference),
      rule parenthesized,
      rule arrayConcatenation,
      rule arrayConstructor,
      node .endExpression endToken]
  | callArguments => sequence [leaf .lParen, opt (rule functionArguments), leaf .rParen]
  | functionArguments => node .functionArguments (alts [
      separated .comma (rule namedArgument),
      comprehension,
      sequence [
        Form.argument,
        many (sequence [leaf .comma, rule functionArgument]),
        many (sequence [leaf .comma, rule namedArgument])]])
  | functionArgument => Form.argument
  | namedArgument => node .namedArgument (sequence [
      leaf .ident, leaf .equals, rule functionArgument])
  | partialApplication => node .functionPartialApplication (sequence [
      leaf .functionKw, rule typeSpecifier, group (rule namedArgument)])
  | forIndex => node .forIndex (sequence [
      leaf .ident, opt (sequence [leaf .inKw, rule expression])])
  | parenthesized => node .parenthesizedExpression (group (opt (rule expression)))
  | arrayConcatenation => node .arrayConcatenation (sequence [
      leaf .lBracket, separated .semicolon (rule expressionList), leaf .rBracket])
  | arrayConstructor => node .arrayConstructor (sequence [
      leaf .lBrace,
      opt (alt comprehension (node .expressionList (separated .comma (rule expression)))),
      leaf .rBrace])
  | expressionList => node .expressionList (separated .comma (rule expression))
  -- comments and modifications
  | descriptionString => node .descriptionString
      (separated .plus (node .stringLiteral (leaf .string)))
  | annotationClause => node .annotationClause (sequence [
      leaf .annotationKw, rule classModification])
  | comment => sequence [opt (rule descriptionString), opt (rule annotationClause)]
  | modification => node .modification (alt
      (sequence [
        rule classModification, opt (sequence [leaf .equals, rule modificationExpression])])
      (sequence [token [.equals, .assign], rule modificationExpression]))
  | modificationExpression => node .modificationExpression
      (alt (leaf .breakKw) (rule expression))
  | classModification => node .classModification (group (rule argument))
  | classOrInheritanceModification => node .classOrInheritanceModification
      (group (alt (rule inheritanceModification) (rule argument)))
  | inheritanceModification => node .inheritanceModification (sequence [
      leaf .breakKw, alt (rule connectClause) (leaf .ident)])
  | connectClause => node .connectClause (sequence [
      leaf .connectKw, leaf .lParen, rule componentReference, leaf .comma,
      rule componentReference, leaf .rParen])
  | argument => alts [rule elementModification, rule elementRedeclaration, rule elementReplaceable]
  | elementModification => node .elementModification (sequence [
      opt (leaf .eachKw), opt (leaf .finalKw),
      alt (rule name)
        (node .componentReference (separated .dot (rule componentReferencePart))),
      opt (rule modification), opt (rule descriptionString)])
  | elementRedeclaration => node .elementRedeclaration (sequence [
      leaf .redeclareKw, opt (leaf .eachKw), opt (leaf .finalKw), opt (leaf .replaceableKw),
      rule redeclaredElement])
  | elementReplaceable => node .elementReplaceable (sequence [
      opt (leaf .eachKw), opt (leaf .finalKw), leaf .replaceableKw, rule redeclaredElement])
  | redeclaredElement => sequence [
      alt (node .shortClassDefinition (sequence [rule classPrefixes, rule shortClassSpecifier]))
        (rule componentClause1),
      opt (rule constrainingClause)]
  | componentClause1 => node .componentClause1 (sequence [
      rule typePrefix, rule typeSpecifier,
      node .componentDeclaration1 (sequence [rule declaration, rule comment])])
  -- elements
  | elements => many (rule element)
  | element => alts [rule importClause, rule extendsClause, rule namedElementClause]
  | importClause => alts [
      node .simpleImportClause (sequence [
        leaf .importKw, opt (sequence [leaf .ident, leaf .equals]), rule name, itemEnd]),
      node .compoundImportClause (sequence [
        leaf .importKw, rule name, leaf .dot, leaf .lBrace, separated .comma (leaf .ident),
        leaf .rBrace, itemEnd]),
      node .unqualifiedImportClause (sequence [
        leaf .importKw, rule name, alt (leaf .dotStar) (sequence [leaf .dot, leaf .star]),
        itemEnd])]
  | extendsClause => node .extendsClause (sequence [
      leaf .extendsKw, rule typeSpecifier, opt (rule classOrInheritanceModification),
      opt (rule annotationClause), leaf .semicolon])
  | constrainingClause => node .constrainingClause (sequence [
      leaf .constrainedbyKw, rule typeSpecifier, opt (rule classModification)])
  | namedElementClause => node .namedElementClause (sequence [
      opt (leaf .redeclareKw), opt (leaf .finalKw), opt (leaf .innerKw), opt (leaf .outerKw),
      opt (leaf .replaceableKw),
      alt (rule classDefinition) (rule componentClause),
      opt (sequence [rule constrainingClause, rule comment]),
      leaf .semicolon])
  | typePrefix => sequence [
      opt (token [.flowKw, .streamKw]),
      opt (token [.discreteKw, .parameterKw, .constantKw]),
      opt (token [.inputKw, .outputKw])]
  | componentClause => node .componentClause (sequence [
      rule typePrefix, rule typeSpecifier, opt (rule arraySubscripts),
      separated .comma (rule componentDeclaration)])
  | componentDeclaration => node .componentDeclaration (sequence [
      rule declaration,
      opt (node .conditionAttribute (sequence [leaf .ifKw, rule expression])),
      rule comment])
  | declaration => node .declaration (sequence [
      leaf .ident, opt (rule arraySubscripts), opt (rule modification)])
  -- classes
  | storedDefinition => node .storedDefinition (sequence [
      opt (rule withinClause), many (rule classDefinitionClause)])
  | withinClause => node .withinClause (sequence [
      leaf .withinKw, opt (rule name), leaf .semicolon])
  | classDefinitionClause => node .classDefinitionClause (sequence [
      opt (leaf .finalKw), rule classDefinition, leaf .semicolon])
  | classDefinition => level (node .classDefinition (sequence [
      opt (leaf .encapsulatedKw), rule classPrefixes,
      alts [rule longClassSpecifier, rule shortClassSpecifier, rule derClassSpecifier]]))
  | classPrefixes => node .classPrefixes (sequence [
      opt (leaf .partialKw),
      alts [
        token [.classKw, .modelKw, .blockKw, .typeKw, .packageKw],
        sequence [opt (leaf .operatorKw), leaf .recordKw],
        sequence [opt (leaf .expandableKw), leaf .connectorKw],
        sequence [opt (token [.pureKw, .impureKw]), opt (leaf .operatorKw), leaf .functionKw],
        leaf .operatorKw]])
  | longClassSpecifier => node .longClassSpecifier (sequence [
      alt (leaf .ident) (sequence [leaf .extendsKw, leaf .ident, opt (rule classModification)]),
      opt (rule descriptionString),
      rule classBody,
      opt (rule externalFunctionClause),
      opt (sequence [rule annotationClause, leaf .semicolon]),
      leaf .endKw, leaf .ident])
  | classBody => sequence [
      opt (node .initialElementList (rule elements)),
      many (alts [
        node .elementList (sequence [token [.publicKw, .protectedKw], rule elements]),
        rule equationSection, rule algorithmSection])]
  | shortClassSpecifier => node .shortClassSpecifier (sequence [
      leaf .ident, leaf .equals,
      alt
        (sequence [
          leaf .enumerationKw, leaf .lParen,
          opt (alt (leaf .colon) (separated .comma (rule enumerationLiteral))), leaf .rParen])
        (sequence [
          opt (token [.inputKw, .outputKw]), rule typeSpecifier, opt (rule arraySubscripts),
          opt (rule classModification)]),
      rule comment])
  | enumerationLiteral => node .enumerationLiteral (sequence [leaf .ident, rule comment])
  | derClassSpecifier => node .derClassSpecifier (sequence [
      leaf .ident, leaf .equals, leaf .derKw, leaf .lParen, rule typeSpecifier, leaf .comma,
      separated .comma (leaf .ident), leaf .rParen, rule comment])
  | externalFunctionClause => node .externalFunctionClause (sequence [
      leaf .externalKw,
      opt (node .languageSpecification (node .stringLiteral (leaf .string))),
      opt (rule externalFunctionCall), opt (rule annotationClause), leaf .semicolon])
  | externalFunctionCall => node .externalFunctionCall (sequence [
      opt (sequence [rule componentReference, leaf .equals]),
      leaf .ident, leaf .lParen, opt (rule expressionList), leaf .rParen])
  -- equations and statements
  | equationSection => node .equationSection (sequence [
      opt (leaf .initialKw), leaf .equationKw, rule (sectionBody .equations)])
  | algorithmSection => node .algorithmSection (sequence [
      opt (leaf .initialKw), leaf .algorithmKw, rule (sectionBody .statements)])
  | sectionBody family | body family => many (rule (item family))
  | item family => rule (itemRule family)
  | equation => level (alts [
      rule simpleEquation, rule (ifBlock .equations), rule (forBlock .equations),
      rule connectEquation, rule (whenBlock .equations), rule specialEquation])
  | simpleEquation => node .simpleEquation (sequence [
      rule simpleExpression, leaf .equals, rule expression, itemEnd])
  | specialEquation => node .specialEquation (sequence [
      rule componentReference, rule callArguments, itemEnd])
  | connectEquation => node .connectEquation (sequence [rule connectClause, itemEnd])
  | statement => level (alts [
      rule referenceStatement, rule destructuringAssignment,
      rule (keywordStatement .breakStatement), rule (keywordStatement .returnStatement),
      rule (ifBlock .statements), rule (forBlock .statements), rule whileBlock,
      rule (whenBlock .statements)])
  | keywordStatement kind => node kind (sequence [token (statementKeyword kind), itemEnd])
  | referenceStatement => alt
      (node .simpleAssignmentStatement (sequence [
        rule componentReference, leaf .assign, rule expression, itemEnd]))
      (node .functionCallStatement (sequence [
        rule componentReference, rule callArguments, itemEnd]))
  | destructuringAssignment => node .destructuringAssignmentStatement (sequence [
      rule parenthesized, leaf .assign, rule componentReference, rule callArguments, itemEnd])
  | ifBlock family => node family.ifKind (sequence [
      leaf .ifKw, rule expression, leaf .thenKw,
      sequence [
        rule (body family), many (rule (elseIfClause family)), opt (rule (elseClause family))],
      blockEnd .ifKw])
  | elseIfClause family => node family.elseIfKind (sequence [
      leaf .elseifKw, rule expression, leaf .thenKw, rule (body family)])
  | elseClause family => node family.elseKind (sequence [leaf .elseKw, rule (body family)])
  | whenBlock family => node family.whenKind (sequence [
      leaf .whenKw, rule expression, leaf .thenKw,
      sequence [rule (body family), many (rule (elseWhenClause family))],
      blockEnd .whenKw])
  | elseWhenClause family => node family.elseWhenKind (sequence [
      leaf .elsewhenKw, rule expression, leaf .thenKw, rule (body family)])
  | forBlock family => node family.forKind (sequence [
      leaf .forKw, separated .comma (rule forIndex), leaf .loopKw, rule (body family),
      blockEnd .forKw])
  | whileBlock => node .whileStatement (sequence [
      leaf .whileKw, rule expression, leaf .loopKw, rule (body .statements),
      blockEnd .whileKw])

end Nonterminal

/-- The kind at the front of some tokens before a token of kind `k`. -/
def Token.nextKind (ts : List Token) (k : Kind) : Kind :=
  match ts with
  | [] => k
  | t :: _ => t.kind

/-- `Derives ends f n ts us k`: before a token of kind `k`, the tokens `ts` are what `f` stands
for, with the trees `us` over them, and the levels in them are nested `n` deep at most. An `end` is
an expression where the kind of the token after it is one of `ends`. -/
inductive Derives (ends : Kind → Prop) : Form → Nat → List Token → List Tree → Kind → Prop
  | empty {n k} : Derives ends .empty n [] [] k
  | token {ks t n k} : t.kind ∈ ks → Derives ends (.token ks) n [t] [.leaf t] k
  | endToken {t n k} : t.kind = .endKw → ends k → Derives ends .endToken n [t] [.leaf t] k
  | seq {f g n ts us vs ws k} : Derives ends f n ts us (Token.nextKind vs k) →
      Derives ends g n vs ws k → Derives ends (.seq f g) n (ts ++ vs) (us ++ ws) k
  | left {f g n ts us k} : Derives ends f n ts us k → Derives ends (.alt f g) n ts us k
  | right {f g n ts us k} : Derives ends g n ts us k → Derives ends (.alt f g) n ts us k
  | none {f n k} : Derives ends (.many f) n [] [] k
  | more {f n ts us vs ws k} : Derives ends f n ts us (Token.nextKind vs k) →
      Derives ends (.many f) n vs ws k → Derives ends (.many f) n (ts ++ vs) (us ++ ws) k
  | rule {r n ts us k} : Derives ends r.form n ts us k → Derives ends (.rule r) n ts us k
  | node {kind f n ts us k} : Derives ends f n ts us k →
      Derives ends (.node kind f) n ts [.node kind us] k
  | level {f n ts us k} : Derives ends f n ts us k → Derives ends (.level f) (n + 1) ts us k
  | operand {kind f g n ts us k} : Derives ends f n ts us k →
      Derives ends (.chain kind f g) n ts us k
  | step {kind f g n ts us vs ws k} :
      Derives ends (.chain kind f g) n ts us (Token.nextKind vs k) → Derives ends g n vs ws k →
      Derives ends (.chain kind f g) n (ts ++ vs) [.node kind (us ++ ws)] k

/-- Where an `end` may be an expression: everywhere, nowhere, or where it does not start the end of
a class or of a block. -/
def endAnywhere (_ : Kind) : Prop := True

def endNowhere (_ : Kind) : Prop := False

def endGuarded (k : Kind) : Prop :=
  k ∉ [.ident, .semicolon, .ifKw, .forKw, .whenKw, .whileKw, .endOfInput]

theorem Derives.mono {ends ends' : Kind → Prop} (he : ∀ k, ends k → ends' k) {f : Form} {n : Nat}
    {ts : List Token} {us : List Tree} {k : Kind} (h : Derives ends f n ts us k) :
    Derives ends' f n ts us k := by
  induction h with
  | empty => exact .empty
  | token ht => exact .token ht
  | endToken ht hk => exact .endToken ht (he _ hk)
  | seq _ _ ihf ihg => exact .seq ihf ihg
  | left _ ih => exact .left ih
  | right _ ih => exact .right ih
  | none => exact .none
  | more _ _ ihf ihg => exact .more ihf ihg
  | rule _ ih => exact .rule ih
  | node _ ih => exact .node ih
  | level _ ih => exact .level ih
  | operand _ ih => exact .operand ih
  | step _ _ ihf ihg => exact .step ihf ihg

/-- What a derivation says of one rule, in the order: levels, tokens, trees, kind after them. -/
abbrev RuleClaim : Type := Nonterminal → Nat → List Token → List Tree → Kind → Prop

/-- A repetition of items. -/
inductive Repeated (item : List Token → List Tree → Kind → Prop) :
    List Token → List Tree → Kind → Prop
  | none {k} : Repeated item [] [] k
  | more {ts us vs ws k} : item ts us (Token.nextKind vs k) → Repeated item vs ws k →
      Repeated item (ts ++ vs) (us ++ ws) k

/-- An operand and steps that each take in all that stands before. -/
inductive Chained (kind : Kind) (operand step : List Token → List Tree → Kind → Prop) :
    List Token → List Tree → Kind → Prop
  | operand {ts us k} : operand ts us k → Chained kind operand step ts us k
  | step {ts us vs ws k} : Chained kind operand step ts us (Token.nextKind vs k) → step vs ws k →
      Chained kind operand step (ts ++ vs) [.node kind (us ++ ws)] k

/-- What a right-hand side stands for, given what the rules in it stand for. -/
def Form.Holds (ends : Kind → Prop) (claim : RuleClaim) :
    Form → Nat → List Token → List Tree → Kind → Prop
  | empty, _, ts, us, _ => ts = [] ∧ us = []
  | token ks, _, ts, us, _ => ∃ t, t.kind ∈ ks ∧ ts = [t] ∧ us = [.leaf t]
  | endToken, _, ts, us, k => ∃ t, t.kind = .endKw ∧ ends k ∧ ts = [t] ∧ us = [.leaf t]
  | seq f g, n, ts, us, k => ∃ ts₁ us₁ ts₂ us₂, ts = ts₁ ++ ts₂ ∧ us = us₁ ++ us₂ ∧
      f.Holds ends claim n ts₁ us₁ (Token.nextKind ts₂ k) ∧ g.Holds ends claim n ts₂ us₂ k
  | alt f g, n, ts, us, k => f.Holds ends claim n ts us k ∨ g.Holds ends claim n ts us k
  | many f, n, ts, us, k => Repeated (f.Holds ends claim n) ts us k
  | rule r, n, ts, us, k => claim r n ts us k
  | node kind f, n, ts, us, k => ∃ vs, us = [.node kind vs] ∧ f.Holds ends claim n ts vs k
  | level f, n, ts, us, k => ∃ m, n = m + 1 ∧ f.Holds ends claim m ts us k
  | chain kind f g, n, ts, us, k =>
      Chained kind (f.Holds ends claim n) (g.Holds ends claim n) ts us k

/-- What every rule keeps from the rules it calls holds of all derivations. -/
theorem Derives.holds {ends : Kind → Prop} {claim : RuleClaim}
    (hc : ∀ {r : Nonterminal} {n ts us k}, r.form.Holds ends claim n ts us k → claim r n ts us k)
    {f : Form} {n : Nat} {ts : List Token} {us : List Tree} {k : Kind}
    (h : Derives ends f n ts us k) : f.Holds ends claim n ts us k := by
  induction h with
  | empty => exact ⟨rfl, rfl⟩
  | token ht => exact ⟨_, ht, rfl, rfl⟩
  | endToken ht hk => exact ⟨_, ht, hk, rfl, rfl⟩
  | seq _ _ ihf ihg => exact ⟨_, _, _, _, rfl, rfl, ihf, ihg⟩
  | left _ ih => exact .inl ih
  | right _ ih => exact .inr ih
  | none => exact .none
  | more _ _ ihf ihg => exact .more ihf ihg
  | rule _ ih => exact hc ih
  | node _ ih => exact ⟨_, rfl, ih⟩
  | level _ ih => exact ⟨_, rfl, ih⟩
  | operand _ ih => exact .operand ih
  | step _ _ ihf ihg => exact .step ihf ihg

/-- What a right-hand side stands for is a derivation when all rules in it stand for such. -/
theorem Form.Holds.derives {ends : Kind → Prop} {claim : RuleClaim}
    (hc : ∀ {r : Nonterminal} {n ts us k}, claim r n ts us k → Derives ends (.rule r) n ts us k)
    {f : Form} {n : Nat} {ts : List Token} {us : List Tree} {k : Kind}
    (h : f.Holds ends claim n ts us k) : Derives ends f n ts us k := by
  induction f generalizing n ts us k with
  | empty =>
    obtain ⟨rfl, rfl⟩ := h
    exact .empty
  | token ks =>
    obtain ⟨t, ht, rfl, rfl⟩ := h
    exact .token ht
  | endToken =>
    obtain ⟨t, ht, hk, rfl, rfl⟩ := h
    exact .endToken ht hk
  | seq f g ihf ihg =>
    obtain ⟨_, _, _, _, rfl, rfl, hf, hg⟩ := h
    exact .seq (ihf hf) (ihg hg)
  | alt f g ihf ihg => exact h.elim (fun h => .left (ihf h)) fun h => .right (ihg h)
  | many f ih =>
    induction h with
    | none => exact .none
    | more hf _ ihm => exact .more (ih hf) ihm
  | rule r => exact hc h
  | node kind f ih =>
    obtain ⟨vs, rfl, h⟩ := h
    exact .node (ih h)
  | level f ih =>
    obtain ⟨m, rfl, h⟩ := h
    exact .level (ih h)
  | chain kind f g ihf ihg =>
    induction h with
    | operand hf => exact .operand (ihf hf)
    | step _ hg ihc => exact .step ihc (ihg hg)

theorem Derives.repeated {ends : Kind → Prop} {f : Form} {n : Nat} {ts : List Token}
    {us : List Tree} {k : Kind} (h : Derives ends (.many f) n ts us k) :
    Repeated (Derives ends f n) ts us k := by
  generalize hg : Form.many f = g at h
  induction h with
  | none => exact .none
  | more hf _ _ ih =>
    cases hg
    exact .more hf (ih rfl)
  | _ => cases hg

theorem Repeated.derives {ends : Kind → Prop} {f : Form} {n : Nat} {ts : List Token}
    {us : List Tree} {k : Kind} (h : Repeated (Derives ends f n) ts us k) :
    Derives ends (.many f) n ts us k := by
  induction h with
  | none => exact .none
  | more hf _ ih => exact .more hf ih

/-- A rule derives what its right-hand side derives. -/
theorem derives_rule {ends : Kind → Prop} {r : Nonterminal} {n : Nat} {ts : List Token}
    {us : List Tree} {k : Kind} :
    Derives ends (.rule r) n ts us k ↔ Derives ends r.form n ts us k :=
  ⟨fun h => by cases h with | rule h => exact h, .rule⟩

end Modelica
