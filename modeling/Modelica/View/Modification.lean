import Modelica.View.Kinds

/-!
# Modifications

What stands in parentheses or behind `=` after a name to modify it, in declarations, `extends`
clauses and annotations.
-/

namespace Modelica

namespace ModificationExpression

variable (v : ModificationExpression)

def isBreak : Bool := v.node.has .breakKw

def expression? : Option Expression := v.node.first?

end ModificationExpression

namespace Modification

variable (v : Modification)

def classModification? : Option ClassModification := v.node.first?

def modificationExpression? : Option ModificationExpression := v.node.first?

/-- The value that is bound. -/
def expression? : Option Expression := v.modificationExpression?.bind (·.expression?)

end Modification

namespace ClassModification

variable (v : ClassModification)

def arguments : List Argument := v.node.every

end ClassModification

namespace ClassOrInheritanceModification

variable (v : ClassOrInheritanceModification)

def arguments : List Argument := v.node.every

def inheritanceModifications : List InheritanceModification := v.node.every

end ClassOrInheritanceModification

namespace InheritanceModification

variable (v : InheritanceModification)

def identifier? : Option String := v.node.identifier?

def connectClause? : Option ConnectClause := v.node.first?

end InheritanceModification

namespace ElementModification

variable (v : ElementModification)

def isEach : Bool := v.node.has .eachKw

def isFinal : Bool := v.node.has .finalKw

/-- The modified name as it is written. -/
def target? : Option String := (v.node.childByField "name").map Located.text

def modification? : Option Modification := v.node.first?

def description? : Option DescriptionString := v.node.first?

end ElementModification

namespace ElementRedeclaration

variable (v : ElementRedeclaration)

def isEach : Bool := v.node.has .eachKw

def isFinal : Bool := v.node.has .finalKw

def isReplaceable : Bool := v.node.has .replaceableKw

def shortClassDefinition? : Option ShortClassDefinition := v.node.first?

def componentClause? : Option ComponentClause1 := v.node.first?

def constrainingClause? : Option ConstrainingClause := v.node.first?

end ElementRedeclaration

namespace ElementReplaceable

variable (v : ElementReplaceable)

def isEach : Bool := v.node.has .eachKw

def isFinal : Bool := v.node.has .finalKw

def shortClassDefinition? : Option ShortClassDefinition := v.node.first?

def componentClause? : Option ComponentClause1 := v.node.first?

def constrainingClause? : Option ConstrainingClause := v.node.first?

end ElementReplaceable

namespace ComponentClause1

variable (v : ComponentClause1)

def typeSpecifier? : Option TypeSpecifier := v.node.first?

def componentDeclaration? : Option ComponentDeclaration1 := v.node.first?

end ComponentClause1

namespace ComponentDeclaration1

variable (v : ComponentDeclaration1)

def declaration? : Option Declaration := v.node.first?

def description? : Option DescriptionString := v.node.first?

end ComponentDeclaration1

namespace ShortClassDefinition

variable (v : ShortClassDefinition)

def classPrefixes? : Option ClassPrefixes := v.node.first?

def specifier? : Option ShortClassSpecifier := v.node.first?

end ShortClassDefinition

namespace AnnotationClause

variable (v : AnnotationClause)

def classModification? : Option ClassModification := v.node.first?

end AnnotationClause

end Modelica
