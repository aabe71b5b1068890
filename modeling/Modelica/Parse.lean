import Modelica.Grammar.Rules
import Modelica.Token.Scan
import Modelica.Tree.Weave

/-!
# Parsing a source text

A text is cut into tokens, the grammar is run on the significant ones, and the rest is woven back
into the tree (`Tree.weave`), so the leaves of the result are the tokens of the text. Diagnostics
of the grammar are moved from token indices to spans and merged with those of the bad tokens.

`parse` reads a whole source text; `parseWith` takes a bound on nesting and a request to stop.
`Parse.result` turns a parse with errors into a failure.
-/

namespace Modelica

/-- Where the significant tokens of a text stand, and where the text ends. -/
structure Landmarks where
  spans : List Span
  stop : Nat
  deriving DecidableEq, Inhabited

namespace Landmarks

def ofTokens (tokens : List Token) : Landmarks :=
  let placed := Token.place tokens
  { spans := (placed.filter (·.isSignificant)).map (·.span),
    stop := (placed.getLast?.map (·.span.stop)).getD 0 }

/-- The span of a significant token; past the last one, the empty span at the end of the text. -/
def span (marks : Landmarks) (spot : Spot) : Span := marks.spans[spot]?.getD (.point marks.stop)

end Landmarks

/-- The diagnostics of the bad tokens of a text. -/
def lexicalFaults (tokens : List Token) : List (Diagnostic Span) :=
  (Token.place tokens).filterMap fun t => t.fault?.map fun code => .ofCode code t.span

/-- Diagnostics by where they start; those that start together keep their order. -/
def inOrder (faults : List (Diagnostic Span)) : List (Diagnostic Span) :=
  faults.mergeSort fun a b => a.place.start ≤ b.place.start

/-- A tree and its diagnostics in the order of the text. -/
structure Parse where
  tree : Tree
  faults : List (Diagnostic Span)
  deriving Inhabited

namespace Parse

/-- No diagnostic is an error; warnings do no harm. -/
def ok (p : Parse) : Bool := p.faults.all (!·.isError)

/-- The text that was parsed. -/
def text (p : Parse) : String := p.tree.text

/-- Run a production that reads all of a text into one tree. -/
def ofProduction (p : Production) (limit : Nat) (text : String) : Parse :=
  let tokens := tokenize text
  let marks := Landmarks.ofTokens tokens
  let reading := p.read limit (Token.significant tokens)
  { tree := Tree.weave tokens (reading.built.head?.getD (.node .error [])),
    faults := inOrder <|
      lexicalFaults tokens ++ reading.faults.reverse.map (Diagnostic.map marks.span) }

end Parse

/-- How a parse may be restricted. -/
structure ParseOptions where
  /-- How deep expressions, equations, statements and classes may nest. -/
  limit : Nat
  /-- The caller has asked to stop. -/
  cancelled : Bool
  deriving DecidableEq, Inhabited

namespace ParseOptions

def standard : ParseOptions := ⟨256, false⟩

end ParseOptions

/-- Why there is no tree. -/
inductive Failure where
  | cancelled
  /-- The errors of the text, each with the position where it starts. -/
  | faults (entries : List (Position × Diagnostic Span))
  deriving DecidableEq, Inhabited

/-- One line for each error. -/
def Failure.message : Failure → String
  | cancelled => "parse cancelled"
  | faults entries => "\n".intercalate <| entries.map fun (position, d) =>
      position.render ++ ": " ++ d.code.label ++ " " ++ d.message

/-- Parse a whole source text. -/
def parse (text : String) : Parse :=
  Parse.ofProduction (.call .storedDefinition) ParseOptions.standard.limit text

/-- What is left of a text after its `within` clause, where a request to stop is heeded first. -/
def afterWithin (limit : Nat) (text : String) : List Token :=
  ((Production.before .withinKw (.call .withinClause)).read limit
    (Token.significant (tokenize text))).ahead

/-- Parse a whole source text within bounds. A parse that is stopped gives no tree. -/
def parseWith (options : ParseOptions) (text : String) : Except Failure Parse :=
  if options.cancelled && !(afterWithin options.limit text).isEmpty then .error .cancelled
  else .ok (Parse.ofProduction (.call .storedDefinition) options.limit text)

/-- Parse several source texts, each on its own. -/
def parseBatch (texts : List String) : List Parse := texts.map parse

/-- The parse itself when it has no errors, otherwise all of them. -/
def Parse.result (p : Parse) : Except Failure Parse :=
  let index := LineIndex.ofText p.text
  match p.faults.filter (·.isError) with
  | [] => .ok p
  | errors => .error <| .faults <| errors.map fun d => (index.position d.place.start, d)

end Modelica
