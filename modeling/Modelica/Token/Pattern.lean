import Modelica.Kind.Spelling

/-!
# Lexical patterns

Each pattern answers how many characters at the start of a text it can match at most, zero when
it does not match at all. `longestMatch` takes the pattern that reaches furthest. Quoted texts and
block comments are found by what closes them instead: `closingQuote` and `commentEnd`.
-/

namespace Modelica.Pattern

def isBlank (c : Char) : Bool := c == ' ' || c == '\t' || c == '\r' || c == '\n' || c == '\x0c'

def isLineEnd (c : Char) : Bool := c == '\r' || c == '\n'

def isDigit (c : Char) : Bool := '0' ≤ c && c ≤ '9'

def isLetter (c : Char) : Bool := ('a' ≤ c && c ≤ 'z') || ('A' ≤ c && c ≤ 'Z') || c == '_'

/-- The mark that may open a file and nothing else. -/
def byteOrderMark : Char := '\ufeff'

/-- How many characters of a class a text starts with. -/
def run (p : Char → Bool) (cs : List Char) : Nat := (cs.takeWhile p).length

/-- `//` up to the end of its line. -/
def lineComment : List Char → Nat
  | '/' :: '/' :: rest => 2 + run (!isLineEnd ·) rest
  | _ => 0

/-- A letter or underscore, then letters, underscores and digits. -/
def word : List Char → Nat
  | c :: rest => if isLetter c then 1 + run (fun d => isLetter d || isDigit d) rest else 0
  | [] => 0

/-- `e` or `E`, an optional sign and at least one digit. -/
def exponent : List Char → Nat
  | [] => 0
  | e :: rest =>
    if e == 'e' || e == 'E' then
      match rest with
      | [] => 0
      | s :: digits =>
        if s == '+' || s == '-' then
          let n := run isDigit digits
          if n = 0 then 0 else 2 + n
        else
          let n := run isDigit rest
          if n = 0 then 0 else 1 + n
    else 0

/-- A number with a point or an exponent; digits may be missing on one side of the point. -/
def real (cs : List Char) : Nat :=
  let whole := run isDigit cs
  match cs.drop whole with
  | '.' :: rest =>
    let fraction := run isDigit rest
    if whole = 0 && fraction = 0 then 0
    else whole + 1 + fraction + exponent (rest.drop fraction)
  | rest =>
    let e := exponent rest
    if whole = 0 || e = 0 then 0 else whole + e

/-- One fixed spelling. -/
def exactly (spelling : List Char) (cs : List Char) : Nat :=
  if spelling.isPrefixOf cs then spelling.length else 0

end Pattern

/-- A kind of token and the longest start of a text that is one. -/
structure Pattern where
  kind : Kind
  reach : List Char → Nat

namespace Pattern

/-- The patterns of everything but quoted texts and block comments. -/
def all : List Pattern := [
    ⟨.whitespace, run isBlank⟩, ⟨.lineComment, lineComment⟩,
    ⟨.byteOrderMark, exactly [byteOrderMark]⟩, ⟨.ident, word⟩,
    ⟨.unsignedInteger, run isDigit⟩, ⟨.unsignedReal, real⟩] ++
  Kind.punctuation.map fun k => ⟨k, exactly ((k.spelling?.getD "").toList)⟩

/-- The kind and length of the longest match; no two patterns match the same characters. -/
def longestMatch (cs : List Char) : Kind × Nat :=
  all.foldl (fun best p => if best.2 < p.reach cs then (p.kind, p.reach cs) else best) (.error, 0)

/-- Characters up to and with the quote that ends a quoted text. A backslash hides the character
after it. Where the text may not span lines it has to end before the line does. -/
def closingQuote (quote : Char) (spansLines : Bool) : List Char → Option Nat
  | [] => none
  | [c] => if c = quote then some 1 else none
  | c :: d :: rest =>
    if isLineEnd c && !spansLines then none
    else if c = '\\' && (spansLines || !isLineEnd d) then
      (closingQuote quote spansLines rest).map (· + 2)
    else if c = quote then some 1
    else (closingQuote quote spansLines (d :: rest)).map (· + 1)

/-- Characters up to and with the first `*/`. -/
def commentEnd : List Char → Option Nat
  | '*' :: '/' :: _ => some 2
  | _ :: rest => (commentEnd rest).map (· + 1)
  | [] => none

end Pattern

end Modelica
