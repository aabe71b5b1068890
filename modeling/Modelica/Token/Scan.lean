import Modelica.Token
import Modelica.Token.Pattern
import Modelica.Diagnostic.Code

/-!
# Cutting a text into tokens

`tokenize` never fails: what no pattern matches becomes an `error` token, so the tokens always
cover the text. A quoted text without its closing quote is bad up to the end of its first line, a
block comment without its end is bad up to the end of the text, and any other unmatched character
is a bad token of its own. `Token.fault?` reads the cause back from the token.
-/

namespace Modelica

namespace Token

/-- A quoted text: its kind when it is closed, otherwise the rest of the line as a bad token. -/
def quoted (kind : Kind) (quote : Char) (spansLines : Bool) (rest : List Char) : Kind × Nat :=
  match Pattern.closingQuote quote spansLines rest with
  | some n => (kind, 1 + n)
  | none => (.error, 1 + Pattern.run (!Pattern.isLineEnd ·) rest)

/-- The kind and length of the token that a text starts with. -/
def measure (cs : List Char) : Kind × Nat :=
  match cs with
  | '"' :: rest => quoted .string '"' true rest
  | '\'' :: rest => quoted .ident '\'' false rest
  | '/' :: '*' :: rest =>
    match Pattern.commentEnd rest with
    | some n => (.blockComment, 2 + n)
    | none => (.error, 2 + rest.length)
  | _ =>
    match Pattern.longestMatch cs with
    | (_, 0) => (.error, 1)
    | (kind, n) => (kind, n)

/-- The kind of a token by its pattern, its text and whether it opens the file: a word may be a
keyword, and a byte-order mark is bad anywhere but at the start. -/
def refine (opensFile : Bool) (kind : Kind) (text : String) : Kind :=
  match kind with
  | .ident => (Kind.keyword? text).getD .ident
  | .byteOrderMark => if opensFile then .byteOrderMark else .error
  | k => k

/-- Tokens of the remaining characters, the first `skip` of which belong to the last token. -/
def cut (opensFile : Bool) : Nat → List Char → List Token
  | _, [] => []
  | skip + 1, _ :: rest => cut opensFile skip rest
  | 0, c :: rest =>
    let (kind, n) := measure (c :: rest)
    let text := String.ofList ((c :: rest).take n)
    ⟨refine opensFile kind text, text⟩ :: cut false (n - 1) rest

/-- What is wrong with the text of a bad token. -/
def causeOf : List Char → Code
  | [] => .invalidCharacter
  | c :: rest =>
    if c = '"' then .unterminatedString
    else if c = '\'' then .unterminatedName
    else if c = '/' ∧ rest.head? = some '*' then .unterminatedComment
    else if c = Pattern.byteOrderMark ∧ rest = [] then .misplacedMark
    else .invalidCharacter

/-- What is wrong with a bad token. -/
def fault? (t : Token) : Option Code :=
  if t.kind = .error then some (causeOf t.text.toList) else none

end Token

/-- All tokens of a text, in order and without gaps. -/
def tokenize (text : String) : List Token := Token.cut true 0 text.toList

end Modelica
