import Modelica.Production

/-!
# Names and references

A name is a dotted chain of identifiers. A component reference may also start with a point, which
anchors it at the global scope, and each of its parts may carry subscripts.
-/

namespace Modelica.Grammar

open Production

/-- One token in a node of its own. -/
def single (kind : Kind) : Production := node kind [shift]

/-- `IDENT ('.' IDENT)*` -/
def name : Production :=
  node .name [expect .ident, many Lookahead.continuesChain fun _ => shifts 2]

/-- `'.'? Name` -/
def typeSpecifier : Production :=
  node .typeSpecifier [
    accept .dot,
    look fun v => if v.sees .ident then call .name else missing .missingType [.ident]]

/-- `'.'? ComponentReferencePart ('.' ComponentReferencePart)*` -/
def componentReference : Production :=
  node .componentReference [
    accept .dot,
    call .componentReferencePart,
    many Lookahead.continuesChain fun _ => seq [shift, call .componentReferencePart]]

/-- `IDENT ArraySubscripts?` -/
def componentReferencePart : Production :=
  node .componentReferencePart [expect .ident, before .lBracket (call .arraySubscripts)]

/-- `'[' Subscript (',' Subscript)* ']'` -/
def arraySubscripts : Production :=
  node .arraySubscripts [
    shift,
    inContext .arraySubscripts <| seq [separated .comma (call .subscript), expect .rBracket]]

/-- `':' | Expression`; a colon alone stands for the whole dimension. -/
def subscript : Production :=
  node .subscript [look fun v =>
    if v.sees .colon && (v.nth 1 == .comma || v.nth 1 == .rBracket) then shift
    else call .expression]

end Modelica.Grammar
