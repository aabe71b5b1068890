import Modelica.Grammar.Block
import Modelica.Kind.Supertype
import Modelica.Proofs.Shape
import Modelica.Schema.Standard

/-!
# What the nodes of a clean tree contain

Three tables about readings without errors: which children a node of each kind has (`Kind.shape`),
which trees a rule adds to the group it is called in (`Nonterminal.adds`), and what a caller has
seen before it calls a rule that reads its first token unseen (`Nonterminal.Ready`). That the
grammar keeps to them is shown in `Proofs.Contracts`.
-/

namespace Modelica

open Shape
open Supertype (members)

namespace Shape

def comment : Shape := [opt [.descriptionString], opt [.annotationClause]]

def itemEnd : Shape := comment ++ [one [.semicolon]]

def typePrefix : Shape := [
  opt [.flowKw, .streamKw], opt [.discreteKw, .parameterKw, .constantKw],
  opt [.inputKw, .outputKw]]

def callArguments : Shape := [one [.lParen], opt [.functionArguments], one [.rParen]]

/-- A condition with its keyword, and items after `then`. -/
def clause (keyword : Kind) (items : Supertype) : Shape := [
  one [keyword], one (members .expression), one [.thenKw], many (members items)]

/-- The `end` of a block. -/
def blockEnd (keyword : Kind) : Shape := [one [.endKw], one [keyword]] ++ itemEnd

def ifBlock (items : Supertype) (elseIf otherwise : Kind) : Shape :=
  clause .ifKw items ++ [many [elseIf], opt [otherwise]] ++ blockEnd .ifKw

def whenBlock (items : Supertype) (elseWhen : Kind) : Shape :=
  clause .whenKw items ++ [many [elseWhen]] ++ blockEnd .whenKw

def forBlock (items : Supertype) : Shape :=
  [one [.forKw], many [.forIndex, .comma], one [.loopKw], many (members items)] ++ blockEnd .forKw

/-- A list in brackets, with commas. -/
def bracketed (left : Kind) (items : List Kind) (right : Kind) : Shape :=
  [one [left], many (.comma :: items), one [right]]

def declared : Shape := [one [.shortClassDefinition, .componentClause1], opt [.constrainingClause]]

end Shape

/-- The kinds of the tokens that the grammar reads. -/
def Kind.significant : List Kind := words ++ punctuation ++ keywords

/-- The children of a node, without trivia. -/
def Kind.shape : Kind → Shape
  -- stored definition and classes
  | .storedDefinition => [opt [.withinClause], many [.classDefinitionClause]]
  | .withinClause => [one [.withinKw], opt [.name], one [.semicolon]]
  | .classDefinitionClause => [opt [.finalKw], one [.classDefinition], one [.semicolon]]
  | .classDefinition => [
      opt [.encapsulatedKw], one [.classPrefixes], one (members .classSpecifier)]
  | .classPrefixes => [
      opt [.partialKw], opt [.expandableKw, .pureKw, .impureKw], opt [.operatorKw],
      opt [.classKw, .modelKw, .recordKw, .blockKw, .connectorKw, .typeKw, .packageKw,
        .functionKw]]
  | .longClassSpecifier => [
      opt [.extendsKw], one [.ident], opt [.classModification], opt [.descriptionString],
      opt [.initialElementList], many [.elementList, .equationSection, .algorithmSection],
      opt [.externalFunctionClause], opt [.annotationClause], opt [.semicolon], one [.endKw],
      one [.ident]]
  | .shortClassSpecifier => [
      one [.ident], one [.equals], opt [.inputKw, .outputKw], opt [.typeSpecifier],
      opt [.arraySubscripts], opt [.classModification], opt [.enumerationKw], opt [.lParen],
      many [.enumerationLiteral, .comma], opt [.colon], opt [.rParen]] ++ comment
  | .derClassSpecifier => [
      one [.ident], one [.equals], one [.derKw], one [.lParen], one [.typeSpecifier],
      one [.comma], many [.ident, .comma], one [.rParen]] ++ comment
  | .externalFunctionClause => [
      one [.externalKw], opt [.languageSpecification], opt [.externalFunctionCall],
      opt [.annotationClause], one [.semicolon]]
  | .enumerationLiteral => one [.ident] :: comment
  | .languageSpecification => [one [.stringLiteral]]
  | .externalFunctionCall => [
      opt [.componentReference], opt [.equals], one [.ident], one [.lParen],
      opt [.expressionList], one [.rParen]]
  | .initialElementList => [many (members .element)]
  | .elementList => [one [.publicKw, .protectedKw], many (members .element)]
  -- elements
  | .namedElementClause => [
      opt [.redeclareKw], opt [.finalKw], opt [.innerKw], opt [.outerKw], opt [.replaceableKw],
      one [.classDefinition, .componentClause], opt [.constrainingClause]] ++ itemEnd
  | .simpleImportClause => [one [.importKw], opt [.ident], opt [.equals], one [.name]] ++ itemEnd
  | .compoundImportClause | .unqualifiedImportClause =>
    [one [.importKw], one [.name], many Kind.significant] ++ itemEnd
  | .extendsClause => [
      one [.extendsKw], one [.typeSpecifier], opt [.classOrInheritanceModification],
      opt [.annotationClause], one [.semicolon]]
  | .constrainingClause => [
      one [.constrainedbyKw], one [.typeSpecifier], opt [.classModification]]
  | .classOrInheritanceModification =>
    bracketed .lParen (.inheritanceModification :: members .argument) .rParen
  | .inheritanceModification => [one [.breakKw], one [.connectClause, .ident]]
  | .componentClause => typePrefix ++ [
      one [.typeSpecifier], opt [.arraySubscripts], many [.componentDeclaration, .comma]]
  | .componentDeclaration => [one [.declaration], opt [.conditionAttribute]] ++ comment
  | .conditionAttribute => [one [.ifKw], one (members .expression)]
  | .declaration => [one [.ident], opt [.arraySubscripts], opt [.modification]]
  -- modifications
  | .modification => [
      opt [.classModification], opt [.equals, .assign], opt [.modificationExpression]]
  | .modificationExpression => [one (.breakKw :: members .expression)]
  | .classModification => bracketed .lParen (members .argument) .rParen
  | .elementModification => [
      opt [.eachKw], opt [.finalKw], one [.name, .componentReference], opt [.modification],
      opt [.descriptionString]]
  | .elementRedeclaration => [
      one [.redeclareKw], opt [.eachKw], opt [.finalKw], opt [.replaceableKw]] ++ declared
  | .elementReplaceable => [opt [.eachKw], opt [.finalKw], one [.replaceableKw]] ++ declared
  | .componentClause1 => typePrefix ++ [one [.typeSpecifier], one [.componentDeclaration1]]
  | .componentDeclaration1 => one [.declaration] :: comment
  | .shortClassDefinition => [one [.classPrefixes], one [.shortClassSpecifier]]
  -- equations and statements
  | .equationSection => [opt [.initialKw], one [.equationKw], many (members .equation)]
  | .algorithmSection => [opt [.initialKw], one [.algorithmKw], many (members .statement)]
  | .simpleEquation => [
      one (members .simpleExpression), one [.equals], one (members .expression)] ++ itemEnd
  | .specialEquation | .functionCallStatement =>
    one [.componentReference] :: callArguments ++ itemEnd
  | .ifEquation => ifBlock .equation .elseIfEquationClause .elseEquationClause
  | .elseIfEquationClause => clause .elseifKw .equation
  | .elseEquationClause => [one [.elseKw], many (members .equation)]
  | .forEquation => forBlock .equation
  | .connectEquation => one [.connectClause] :: itemEnd
  | .connectClause => [
      one [.connectKw], one [.lParen], one [.componentReference], one [.comma],
      one [.componentReference], one [.rParen]]
  | .whenEquation => whenBlock .equation .elseWhenEquationClause
  | .elseWhenEquationClause => clause .elsewhenKw .equation
  | .simpleAssignmentStatement => [
      one [.componentReference], one [.assign], one (members .expression)] ++ itemEnd
  | .destructuringAssignmentStatement => [
      one [.parenthesizedExpression], one [.assign], one [.componentReference]] ++
      callArguments ++ itemEnd
  | .breakStatement => one [.breakKw] :: itemEnd
  | .returnStatement => one [.returnKw] :: itemEnd
  | .ifStatement => ifBlock .statement .elseIfStatementClause .elseStatementClause
  | .elseIfStatementClause => clause .elseifKw .statement
  | .elseStatementClause => [one [.elseKw], many (members .statement)]
  | .forStatement => forBlock .statement
  | .forIndex => [one [.ident], opt [.inKw], opt (members .expression)]
  | .whileStatement => [
      one [.whileKw], one (members .expression), one [.loopKw], many (members .statement)] ++
      blockEnd .whileKw
  | .whenStatement => whenBlock .statement .elseWhenStatementClause
  | .elseWhenStatementClause => clause .elsewhenKw .statement
  -- expressions
  | .ifExpression => [
      one [.ifKw], one (members .expression), one [.thenKw], one (members .expression),
      many [.elseIfExpressionClause], one [.elseKw], one (members .expression)]
  | .elseIfExpressionClause => [
      one [.elseifKw], one (members .expression), one [.thenKw], one (members .expression)]
  | .rangeExpression => [
      one (members .simpleExpression), one [.colon], one (members .simpleExpression),
      opt [.colon], opt (members .simpleExpression)]
  | .unaryExpression => [one Schema.unaryOperators, one (members .simpleExpression)]
  | .binaryExpression => [
      one (members .simpleExpression), one Schema.binaryOperators, one (members .simpleExpression)]
  | .endExpression => [one [.endKw]]
  | .unsignedIntegerLiteral => [one [.unsignedInteger]]
  | .unsignedRealLiteral => [one [.unsignedReal]]
  | .logicalLiteral => [one [.trueKw, .falseKw]]
  | .stringLiteral => [one [.string]]
  | .typeSpecifier => [opt [.dot], one [.name]]
  | .name => [many [.ident, .dot]]
  | .componentReference => [
      opt [.dot], one [.componentReferencePart], many [.dot, .componentReferencePart]]
  | .componentReferencePart => [one [.ident], opt [.arraySubscripts]]
  | .functionCall => one [.componentReference, .derKw, .initialKw, .pureKw] :: callArguments
  | .functionArguments => [
      opt [.comprehensionClause, .functionArgument],
      many [.functionArgument, .namedArgument, .comma]]
  | .arrayConcatenation => [one [.lBracket], many [.expressionList, .semicolon], one [.rBracket]]
  | .arrayConstructor => [
      one [.lBrace], opt [.comprehensionClause, .expressionList], one [.rBrace]]
  | .comprehensionClause => [
      one (members .expression), one [.forKw], many [.forIndex, .comma]]
  | .namedArgument => [one [.ident], one [.equals], one [.functionArgument]]
  | .functionArgument => [one (.functionPartialApplication :: members .expression)]
  | .functionPartialApplication =>
    [one [.functionKw], one [.typeSpecifier]] ++ bracketed .lParen [.namedArgument] .rParen
  | .parenthesizedExpression => bracketed .lParen (members .expression) .rParen
  | .expressionList => [many (.comma :: members .expression)]
  | .arraySubscripts => bracketed .lBracket [.subscript] .rBracket
  | .subscript => [one (.colon :: members .expression)]
  | .descriptionString => [many [.stringLiteral, .plus]]
  | .annotationClause => [one [.annotationKw], one [.classModification]]
  | _ => []

/-- The choice that the items of a family make. -/
def Family.items : Family → Supertype
  | .equations => .equation
  | .statements => .statement

namespace Nonterminal

/-- The trees that a rule adds to the group it is called in. -/
def adds : Nonterminal → Shape
  | expression => [one (members .expression)]
  | simpleExpression | band _ | operand _ => [one (members .simpleExpression)]
  | primary => [one (members .primaryExpression)]
  | unary _ => [one [.unaryExpression]]
  | parenthesized => [one [.parenthesizedExpression]]
  | partialApplication => [one [.functionPartialApplication]]
  | callArguments => Shape.callArguments
  | comment => Shape.comment
  | argument => [one (members .argument)]
  | redeclaredElement => declared
  | elements => [many (members .element)]
  | element => [one (members .element)]
  | importClause => [one (members .importClause)]
  | typePrefix => Shape.typePrefix
  | classBody => [
      opt [.initialElementList], many [.elementList, .equationSection, .algorithmSection]]
  | sectionBody family | body family => [many (members family.items)]
  | item family => [one (members family.items)]
  | equation => [one (members .equation)]
  | statement => [one (members .statement)]
  | keywordStatement kind => [one [kind]]
  | referenceStatement => [one [.simpleAssignmentStatement, .functionCallStatement]]
  | destructuringAssignment => [one [.destructuringAssignmentStatement]]
  | ifBlock family => [one [family.ifKind]]
  | elseIfClause family => [one [family.elseIfKind]]
  | elseClause family => [one [family.elseKind]]
  | whenBlock family => [one [family.whenKind]]
  | elseWhenClause family => [one [family.elseWhenKind]]
  | forBlock family => [one [family.forKind]]
  | whileBlock => [one [.whileStatement]]
  | name => [one [.name]]
  | typeSpecifier => [one [.typeSpecifier]]
  | componentReference => [one [.componentReference]]
  | componentReferencePart => [one [.componentReferencePart]]
  | arraySubscripts => [one [.arraySubscripts]]
  | subscript => [one [.subscript]]
  | ifExpression => [one [.ifExpression]]
  | functionArguments => [one [.functionArguments]]
  | functionArgument => [one [.functionArgument]]
  | namedArgument => [one [.namedArgument]]
  | forIndex => [one [.forIndex]]
  | arrayConcatenation => [one [.arrayConcatenation]]
  | arrayConstructor => [one [.arrayConstructor]]
  | expressionList => [one [.expressionList]]
  | descriptionString => [one [.descriptionString]]
  | annotationClause => [one [.annotationClause]]
  | modification => [one [.modification]]
  | modificationExpression => [one [.modificationExpression]]
  | classModification => [one [.classModification]]
  | classOrInheritanceModification => [one [.classOrInheritanceModification]]
  | inheritanceModification => [one [.inheritanceModification]]
  | connectClause => [one [.connectClause]]
  | elementModification => [one [.elementModification]]
  | elementRedeclaration => [one [.elementRedeclaration]]
  | elementReplaceable => [one [.elementReplaceable]]
  | componentClause1 => [one [.componentClause1]]
  | extendsClause => [one [.extendsClause]]
  | constrainingClause => [one [.constrainingClause]]
  | namedElementClause => [one [.namedElementClause]]
  | componentClause => [one [.componentClause]]
  | componentDeclaration => [one [.componentDeclaration]]
  | declaration => [one [.declaration]]
  | storedDefinition => [one [.storedDefinition]]
  | withinClause => [one [.withinClause]]
  | classDefinitionClause => [one [.classDefinitionClause]]
  | classDefinition => [one [.classDefinition]]
  | classPrefixes => [one [.classPrefixes]]
  | longClassSpecifier => [one [.longClassSpecifier]]
  | shortClassSpecifier => [one [.shortClassSpecifier]]
  | enumerationLiteral => [one [.enumerationLiteral]]
  | derClassSpecifier => [one [.derClassSpecifier]]
  | externalFunctionClause => [one [.externalFunctionClause]]
  | externalFunctionCall => [one [.externalFunctionCall]]
  | equationSection => [one [.equationSection]]
  | algorithmSection => [one [.algorithmSection]]
  | simpleEquation => [one [.simpleEquation]]
  | specialEquation => [one [.specialEquation]]
  | connectEquation => [one [.connectEquation]]

/-- What the caller of a rule has seen. -/
def Ready : Nonterminal → Lookahead → Prop
  | arraySubscripts, v | arrayConcatenation, v => v.kind = .lBracket
  | arrayConstructor, v => v.kind = .lBrace
  | parenthesized, v | classModification, v | classOrInheritanceModification, v
  | destructuringAssignment, v => v.kind = .lParen
  | modification, v => v.kind ∈ [.lParen, .equals, .assign]
  | ifExpression, v | ifBlock _, v => v.kind = .ifKw
  | unary _, v => v.kind ∈ Schema.unaryOperators
  | partialApplication, v => v.kind = .functionKw
  | inheritanceModification, v => v.kind = .breakKw
  | connectClause, v | connectEquation, v => v.kind = .connectKw
  | elementRedeclaration, v => v.kind = .redeclareKw
  | importClause, v => v.kind = .importKw
  | extendsClause, v => v.kind = .extendsKw
  | constrainingClause, v => v.kind = .constrainedbyKw
  | withinClause, v => v.kind = .withinKw
  | externalFunctionClause, v => v.kind = .externalKw
  | derClassSpecifier, v =>
    v.kind = .ident ∧ v.nth 1 = .equals ∧ v.nth 2 = .derKw ∧ v.nth 3 = .lParen
  | keywordStatement kind, v =>
    kind = .breakStatement ∧ v.kind = .breakKw ∨ kind = .returnStatement ∧ v.kind = .returnKw
  | elseIfClause _, v => v.kind = .elseifKw
  | elseClause _, v => v.kind = .elseKw
  | whenBlock _, v => v.kind = .whenKw
  | elseWhenClause _, v => v.kind = .elsewhenKw
  | forBlock _, v => v.kind = .forKw
  | whileBlock, v => v.kind = .whileKw
  | _, _ => True

end Nonterminal

/-- Every node of a tree has the children that its kind asks for. -/
inductive Tree.Shaped : Tree → Prop
  | leaf {t} : t.kind ∈ Kind.significant → Shaped (.leaf t)
  | node {k cs} : k ∈ Kind.productions → k.shape.Matches (cs.map Tree.kind) →
      (∀ c ∈ cs, Shaped c) → Shaped (.node k cs)

end Modelica
