import Modelica.View.Kinds

/-!
# Names and references

A name is a path of identifiers. A reference to a component is a path as well, but each of its parts
may have subscripts. Identifiers are given as they are written, quoted ones with their quotes.
-/

namespace Modelica

namespace TypeSpecifier

variable (v : TypeSpecifier)

def name? : Option Name := v.node.first?

/-- It starts with a dot, so the name is looked up from the outermost scope. -/
def isGlobal : Bool := v.node.fills "global"

end TypeSpecifier

namespace Name

variable (v : Name)

def parts : List String := v.node.identifiers

end Name

namespace ComponentReferencePart

variable (v : ComponentReferencePart)

def arraySubscripts? : Option ArraySubscripts := v.node.first?

def name? : Option String := v.node.identifier?

end ComponentReferencePart

namespace ComponentReference

variable (v : ComponentReference)

def parts : List ComponentReferencePart := v.node.every

/-- It starts with a dot, so the name is looked up from the outermost scope. -/
def isGlobal : Bool := v.node.fills "global"

/-- The identifiers of the parts, without their subscripts. -/
def names : List String := v.parts.filterMap (·.name?)

end ComponentReference

namespace ArraySubscripts

variable (v : ArraySubscripts)

def subscripts : List Subscript := v.node.every

end ArraySubscripts

namespace Subscript

variable (v : Subscript)

def expression? : Option Expression := v.node.first?

/-- A lone colon: the whole dimension, or a size left open. -/
def isFlexible : Bool := v.node.has .colon

end Subscript

end Modelica
