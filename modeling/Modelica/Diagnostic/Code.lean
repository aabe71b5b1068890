/-!
# Diagnostic codes

A code names the cause of a diagnostic. Its label has the form `E` and four digits, of which the
first two give the area: `01` tokens, `02` delimiters and `end`, `03` declarations, `04`
expressions, `05` imports, `06` equations and statements, `09` everything else.
-/

namespace Modelica

inductive Code where
  | invalidCharacter | unterminatedString | unterminatedComment | misplacedMark
  | unterminatedName | missingSemicolon | unclosedBrace | unclosedParen | unclosedBracket
  | missingEnd | mismatchedEnd | missingIdentifier | missingClassKind | endNameMismatch
  | unexpectedInClass | missingType | misplacedUnary | positionalAfterNamed | missingExpression
  | chainedRelation | nestedTooDeep | invalidImport | missingEquals | notAStatement
  | orphanClause | assignInEquation | unexpectedToken | expectedToken | ambiguousClause
  | internal
  deriving DecidableEq, Inhabited

namespace Code

def all : List Code := [
  .invalidCharacter, .unterminatedString, .unterminatedComment, .misplacedMark,
  .unterminatedName, .missingSemicolon, .unclosedBrace, .unclosedParen, .unclosedBracket,
  .missingEnd, .mismatchedEnd, .missingIdentifier, .missingClassKind, .endNameMismatch,
  .unexpectedInClass, .missingType, .misplacedUnary, .positionalAfterNamed, .missingExpression,
  .chainedRelation, .nestedTooDeep, .invalidImport, .missingEquals, .notAStatement,
  .orphanClause, .assignInEquation, .unexpectedToken, .expectedToken, .ambiguousClause, .internal]

def label : Code → String
  | .invalidCharacter => "E0101"
  | .unterminatedString => "E0102"
  | .unterminatedComment => "E0103"
  | .misplacedMark => "E0104"
  | .unterminatedName => "E0105"
  | .missingSemicolon => "E0201"
  | .unclosedBrace => "E0202"
  | .unclosedParen => "E0203"
  | .unclosedBracket => "E0204"
  | .missingEnd => "E0206"
  | .mismatchedEnd => "E0207"
  | .missingIdentifier => "E0301"
  | .missingClassKind => "E0302"
  | .endNameMismatch => "E0303"
  | .unexpectedInClass => "E0304"
  | .missingType => "E0305"
  | .misplacedUnary => "E0403"
  | .positionalAfterNamed => "E0405"
  | .missingExpression => "E0406"
  | .chainedRelation => "E0407"
  | .nestedTooDeep => "E0408"
  | .invalidImport => "E0501"
  | .missingEquals => "E0601"
  | .notAStatement => "E0602"
  | .orphanClause => "E0603"
  | .assignInEquation => "E0604"
  | .unexpectedToken => "E0901"
  | .expectedToken => "E0902"
  | .ambiguousClause => "E0950"
  | .internal => "E0999"

/-- The area of a code, from the first two digits of its label. -/
def area : Code → String
  | .invalidCharacter | .unterminatedString | .unterminatedComment | .misplacedMark
  | .unterminatedName => "lexical error"
  | .missingSemicolon | .unclosedBrace | .unclosedParen | .unclosedBracket | .missingEnd
  | .mismatchedEnd => "structural error"
  | .missingIdentifier | .missingClassKind | .endNameMismatch | .unexpectedInClass
  | .missingType => "declaration error"
  | .misplacedUnary | .positionalAfterNamed | .missingExpression | .chainedRelation
  | .nestedTooDeep => "expression error"
  | .invalidImport => "import error"
  | .missingEquals | .notAStatement | .orphanClause | .assignInEquation => "equation error"
  | .ambiguousClause => "ambiguity error"
  | .unexpectedToken | .expectedToken | .internal => "syntax error"

/-- What a diagnostic with this code says unless it is given a message of its own. -/
def defaultMessage : Code → String
  | .invalidCharacter => "invalid character"
  | .unterminatedString => "unterminated string literal"
  | .unterminatedComment => "unterminated block comment"
  | .misplacedMark => "byte-order mark is only allowed at the start of the file"
  | .unterminatedName => "unterminated quoted identifier"
  | .missingSemicolon => "missing semicolon"
  | .unclosedBrace => "unclosed brace"
  | .unclosedParen => "unclosed parenthesis"
  | .unclosedBracket => "unclosed bracket"
  | .missingEnd => "missing 'end'"
  | .mismatchedEnd => "mismatched 'end'"
  | .missingIdentifier => "missing identifier"
  | .missingClassKind => "missing class kind"
  | .endNameMismatch => "end name does not match class name"
  | .unexpectedInClass => "unexpected token in class body"
  | .missingType => "missing type specifier"
  | .misplacedUnary => "unary operator not allowed here"
  | .positionalAfterNamed => "positional argument after named argument"
  | .missingExpression => "expected expression"
  | .chainedRelation => "relational operators are non-associative"
  | .nestedTooDeep => "expression nested too deeply"
  | .invalidImport => "invalid import path"
  | .missingEquals => "expected '=' in equation"
  | .notAStatement => "expected assignment or function call"
  | .orphanClause => "clause has no enclosing construct"
  | .assignInEquation => "':=' is not allowed in equations"
  | .unexpectedToken => "unexpected token"
  | .expectedToken => "expected token"
  | .ambiguousClause => "ambiguous clause attachment"
  | .internal => "internal parser error"

/-- Found while cutting the text into tokens. -/
def isLexical (c : Code) : Bool := c.area == "lexical error"

/-- About delimiters, semicolons and `end`. -/
def isStructural (c : Code) : Bool := c.area == "structural error"

def isAmbiguity (c : Code) : Bool := c == .ambiguousClause

def isRecoverable (c : Code) : Bool := c != .internal

end Code

/-- The three classes of failure. -/
inductive FaultClass where
  | lexical | grammatical | ambiguity
  deriving DecidableEq, Inhabited

def Code.faultClass (c : Code) : FaultClass :=
  if c.isLexical then .lexical else if c.isAmbiguity then .ambiguity else .grammatical

end Modelica
