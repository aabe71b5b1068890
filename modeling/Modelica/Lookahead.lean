import Modelica.Construct
import Modelica.Diagnostic
import Modelica.Operator
import Modelica.Token

/-!
# Looking ahead

Wherever the Modelica grammar is ambiguous for the next token, the choice is made here, from what
follows (`Lookahead.ahead`) or from the blocks that are still open. No decision looks at trivia or
at byte offsets: a place is the index of a token.

* `afterGroup` and `afterReference` find where a bracketed group or a component reference ends;
* `atSectionBoundary`, `endIsExpression` and `bodyEnds` say where expressions and bodies stop;
* `classSpecifierKind` and `importKind` choose among the forms of a class and of an import.
-/

namespace Modelica

/-- The index of a significant token; one past the last stands for the end of the input. -/
abbrev Spot := Nat

/-- What the grammar may look at when it chooses. -/
structure Lookahead where
  /-- The significant tokens not read yet. -/
  ahead : List Token
  index : Spot
  context : Context
  /-- The blocks that wait for their `end`, innermost first. -/
  constructs : List OpenConstruct
  deriving Inhabited

namespace Token

/-- The kind of the token at the front; the end of the input when there is none. -/
def headKind : List Token → Kind
  | [] => .endOfInput
  | t :: _ => t.kind

/-- The kind of the token `n` places on. -/
def kindAt (ts : List Token) (n : Nat) : Kind := headKind (ts.drop n)

/-- A point continues a dotted chain only before an identifier, so `A.B.*` stops before the last
point. -/
def continuesChain (ts : List Token) : Bool := kindAt ts 0 == .dot && kindAt ts 1 == .ident

def opensGroup : Kind → Bool
  | .lParen | .lBracket | .lBrace => true
  | _ => false

def closesGroup : Kind → Bool
  | .rParen | .rBracket | .rBrace => true
  | _ => false

/-- What follows the bracketed group at the front, `depth` brackets being open already. Brackets
are counted but not matched by kind. -/
def afterGroup : Nat → List Token → Option (List Token)
  | _, [] => none
  | depth, t :: ts =>
    if opensGroup t.kind then afterGroup (depth + 1) ts
    else if closesGroup t.kind then
      match depth with
      | 0 => none
      | 1 => some ts
      | d + 1 => afterGroup d ts
    else afterGroup depth ts

/-- What follows the parts of a component reference after an identifier: subscripts, and further
identifiers after points. Each part takes two tokens or more, so `fuel` counts parts. -/
def afterParts : Nat → List Token → Option (List Token)
  | 0, _ => none
  | fuel + 1, ts => do
    let ts ← if headKind ts = .lBracket then afterGroup 0 ts else some ts
    if continuesChain ts then afterParts fuel (ts.drop 2) else some ts

/-- What follows the component reference at the front. -/
def afterReference (ts : List Token) : Option (List Token) :=
  let ts := if headKind ts = .dot then ts.drop 1 else ts
  if headKind ts = .ident then afterParts ts.length (ts.drop 1) else none

/-- Whether a chain, from just after one of its identifiers, has subscripts somewhere. -/
def chainHasSubscripts : List Token → Bool
  | t :: u :: ts =>
    t.kind == .lBracket || (t.kind == .dot && u.kind == .ident && chainHasSubscripts ts)
  | [t] => t.kind == .lBracket
  | [] => false

/-- What follows a dotted chain, from just after one of its identifiers. -/
def afterChain : List Token → List Token
  | t :: u :: ts =>
    if t.kind = .dot ∧ u.kind = .ident then afterChain ts else t :: u :: ts
  | ts => ts

/-- How many tokens to skip up to the bracket that closes an enclosing group, or up to a `;`
outside all brackets, `depth` brackets being open within what is skipped. -/
def nestedExtent : Nat → List Token → Nat
  | _, [] => 0
  | depth, t :: ts =>
    if opensGroup t.kind then 1 + nestedExtent (depth + 1) ts
    else if closesGroup t.kind then
      match depth with
      | 0 => 0
      | d + 1 => 1 + nestedExtent d ts
    else if t.kind = .semicolon ∧ depth = 0 then 0
    else 1 + nestedExtent depth ts

end Token

/-- The keywords that can start the prefixes of a class. -/
def Kind.classPrefixStart : List Kind := [
  .partialKw, .classKw, .modelKw, .operatorKw, .recordKw, .blockKw, .expandableKw, .connectorKw,
  .typeKw, .packageKw, .pureKw, .impureKw, .functionKw]

/-- The tokens that can start a component clause. -/
def Kind.componentClauseStart : List Kind := [
  .flowKw, .streamKw, .discreteKw, .parameterKw, .constantKw, .inputKw, .outputKw, .ident, .dot]

namespace Lookahead

/-- The kind of the token `n` places ahead. -/
def nth (v : Lookahead) (n : Nat) : Kind := Token.kindAt v.ahead n

/-- The kind of the next token. -/
def kind (v : Lookahead) : Kind := Token.headKind v.ahead

/-- The text of the next token, empty at the end of the input. -/
def text (v : Lookahead) : String := (v.ahead.head?.map Token.text).getD ""

def sees (v : Lookahead) (k : Kind) : Bool := v.kind == k

def seesAny (v : Lookahead) (ks : List Kind) : Bool := ks.contains v.kind

def atEnd (v : Lookahead) : Bool := v.sees .endOfInput

/-- What a diagnostic reports as found here. -/
def found (v : Lookahead) : Option Kind := if v.atEnd then none else some v.kind

/-- `initial` opens a section only before `equation` or `algorithm`; otherwise it is called. -/
def initialOpensSection (v : Lookahead) : Bool :=
  v.sees .initialKw && (v.nth 1 == .equationKw || v.nth 1 == .algorithmKw)

/-- Tokens that end the innermost section or list of elements. -/
def atSectionBoundary (v : Lookahead) : Bool :=
  match v.kind with
  | .equationKw | .algorithmKw | .publicKw | .protectedKw | .externalKw | .endKw | .annotationKw
  | .endOfInput => true
  | .initialKw => v.initialOpensSection
  | _ => false

/-- An `end` is an expression unless it starts an `end X;` or `end if;`. -/
def endIsExpression (v : Lookahead) : Bool :=
  v.sees .endKw &&
    match v.nth 1 with
    | .ident | .semicolon | .ifKw | .forKw | .whenKw | .whileKw | .endOfInput => false
    | _ => true

/-- An `end if` and the like, whose block may not be open. -/
def atBlockEnd (v : Lookahead) : Bool :=
  v.sees .endKw &&
    match v.nth 1 with
    | .ifKw | .forKw | .whenKw | .whileKw => true
    | _ => false

/-- Who owns the clause that the next token starts. -/
def clauseResolution (v : Lookahead) (category : Category) : Resolution :=
  resolveClause v.constructs v.kind category

/-- A clause of the innermost open block comes next. -/
def clauseAttaches (v : Lookahead) (category : Category) : Bool :=
  isClauseKeyword v.kind && v.clauseResolution category == .attach

/-- The body of a block ends at a section boundary and at a clause that an open block claims. -/
def bodyEnds (v : Lookahead) (category : Category) : Bool :=
  v.atSectionBoundary ||
    (isClauseKeyword v.kind &&
      match v.clauseResolution category with
      | .attach | .unwind _ => true
      | _ => false)

/-- Tokens that can start a primary expression. -/
def atPrimaryStart (v : Lookahead) : Bool :=
  match v.kind with
  | .unsignedInteger | .unsignedReal | .string | .trueKw | .falseKw | .ident | .dot | .derKw
  | .initialKw | .pureKw | .lParen | .lBracket | .lBrace => true
  | .endKw => v.endIsExpression
  | _ => false

/-- A point and an identifier come next. -/
def continuesChain (v : Lookahead) : Bool := Token.continuesChain v.ahead

/-- `name =` starts a named argument. -/
def atNamedArgument (v : Lookahead) : Bool := v.sees .ident && v.nth 1 == .equals

/-- A call that is a whole equation: a component reference, one group of arguments, and then a
description, an annotation or the `;`. -/
def atCallEquation (v : Lookahead) : Bool :=
  match Token.afterReference v.ahead with
  | some rest =>
    Token.headKind rest == .lParen &&
      match Token.afterGroup 0 rest with
      | some after =>
        match Token.headKind after with
        | .semicolon | .string | .annotationKw => true
        | _ => false
      | none => false
  | none => false

/-- The name ahead has subscripts somewhere, so it is a component reference. -/
def chainHasSubscripts (v : Lookahead) : Bool :=
  let ts := if v.sees .dot then v.ahead.drop 1 else v.ahead
  Token.headKind ts == .ident && Token.chainHasSubscripts (ts.drop 1)

/-- The form of the class specifier ahead. -/
def classSpecifierKind (v : Lookahead) : Kind :=
  if v.sees .ident && v.nth 1 == .equals then
    if v.nth 2 == .derKw && v.nth 3 == .lParen then .derClassSpecifier else .shortClassSpecifier
  else .longClassSpecifier

/-- The form of the import clause ahead. The characters `.*` are one token. -/
def importKind (v : Lookahead) : Kind :=
  if v.nth 1 != .ident || v.nth 2 == .equals then .simpleImportClause
  else
    let rest := Token.afterChain (v.ahead.drop 2)
    match Token.kindAt rest 0, Token.kindAt rest 1 with
    | .dotStar, _ => .unqualifiedImportClause
    | .dot, .star => .unqualifiedImportClause
    | .dot, .lBrace => .compoundImportClause
    | _, _ => .simpleImportClause

/-- A class prefix, or `encapsulated` before one, starts a class definition. -/
def atClassDefinition (v : Lookahead) : Bool :=
  v.sees .encapsulatedKw || v.seesAny Kind.classPrefixStart

/-- The kind after any `each` and `final`, which tells the forms of an argument apart. -/
def argumentHead (v : Lookahead) : Kind :=
  Token.headKind (v.ahead.dropWhile fun t => t.kind == .eachKw || t.kind == .finalKw)

end Lookahead

end Modelica
