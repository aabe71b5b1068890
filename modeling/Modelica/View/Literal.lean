import Modelica.Number.Literal
import Modelica.View.Kinds

/-!
# Literals and descriptions

The values of number, logical and string literals. The value of a string is the text between its
quotes as it is written: escapes are not resolved.
-/

namespace Modelica

namespace UnsignedIntegerLiteral

variable (v : UnsignedIntegerLiteral)

/-- The value, if it fits into 64 bits. -/
def value? : Option Nat := Number.natural? v.text

end UnsignedIntegerLiteral

namespace UnsignedRealLiteral

variable (v : UnsignedRealLiteral)

/-- The double nearest to the literal. -/
def value? : Option Float := Number.real? v.text

end UnsignedRealLiteral

namespace LogicalLiteral

variable (v : LogicalLiteral)

def value : Bool := v.node.has .trueKw

end LogicalLiteral

namespace StringLiteral

variable (v : StringLiteral)

/-- The text between the quotes. -/
def value? : Option String :=
  (v.node.tokenChildren.find? (·.kind == .string)).bind fun t =>
    match t.text.toList with
    | '"' :: inner =>
      some (String.ofList (if inner.getLast? = some '"' then inner.dropLast else inner))
    | _ => none

end StringLiteral

namespace DescriptionString

variable (v : DescriptionString)

def parts : List StringLiteral := v.node.every

/-- The texts of the parts, one after the other. -/
def value : String := String.join (v.parts.filterMap (·.value?))

end DescriptionString

end Modelica
