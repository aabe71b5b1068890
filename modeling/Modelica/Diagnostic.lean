import Modelica.Diagnostic.Code
import Modelica.Diagnostic.Context
import Modelica.Kind.Spelling
import Modelica.Position

/-!
# Diagnostics

A diagnostic tells where a fault is, what could have stood there and what did. The type is open in
how places are given: while the grammar runs a place is the index of a token, afterwards it is a
span of the text (`Diagnostic.map`).
-/

namespace Modelica

/-- An error makes the text invalid, a warning does not. -/
inductive Severity where
  | error | warning
  deriving DecidableEq, Inhabited

def Severity.label : Severity → String
  | .error => "error"
  | .warning => "warning"

/-- A second place that explains a diagnostic. -/
structure Related (Place : Type) where
  message : String
  place : Place
  deriving DecidableEq, Inhabited

structure Diagnostic (Place : Type) where
  code : Code
  message : String
  place : Place
  severity : Severity
  /-- How to mend the fault, where there is an obvious way. -/
  hint : Option String
  related : List (Related Place)
  /-- The token kinds that would have been accepted at the place. -/
  expected : List Kind
  /-- The token kind met there; none at the end of the input. -/
  found : Option Kind
  deriving DecidableEq, Inhabited

namespace Diagnostic

variable {Place : Type}

/-- An error that says only what its code says. -/
def ofCode (code : Code) (place : Place) : Diagnostic Place :=
  { code, message := code.defaultMessage, place, severity := .error, hint := none, related := [],
    expected := [], found := none }

def isError (d : Diagnostic Place) : Bool := d.severity == .error

/-- The same diagnostic with every place converted. -/
def map {Place' : Type} (f : Place → Place') (d : Diagnostic Place) : Diagnostic Place' :=
  { code := d.code, message := d.message, place := f d.place, severity := d.severity,
    hint := d.hint, related := d.related.map fun r => ⟨r.message, f r.place⟩,
    expected := d.expected, found := d.found }

/-- One line: code, severity, message and hint. -/
def render (d : Diagnostic Place) : String :=
  d.code.label ++ " " ++ d.severity.label ++ ": " ++ d.message ++
    match d.hint with
    | some hint => " (hint: " ++ hint ++ ")"
    | none => ""

end Diagnostic

/-- A choice of kinds in words: commas between all but the last two, which `or` joins. -/
def Kind.alternatives : List Kind → String
  | [] => "more input"
  | [only] => only.displayName
  | first :: second :: rest =>
    ", ".intercalate ((first :: (second :: rest).dropLast).map displayName) ++ " or " ++
      ((second :: rest).getLast (by simp)).displayName

/-- The kind that was met, in words. -/
def Kind.foundName (found : Option Kind) : String := (found.getD .endOfInput).displayName

/-- The message of a fault where one of some kinds was expected. -/
def Diagnostic.expectedMessage (expected : List Kind) (found : Option Kind) (context : Context) :
    String :=
  "expected " ++ Kind.alternatives expected ++ ", found " ++ Kind.foundName found ++ " " ++
    context.description

end Modelica
