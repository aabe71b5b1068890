import Modelica.View.Kinds

/-!
# Elements

What the element lists of a class hold: imports, `extends` clauses, component clauses and nested
classes.
-/

namespace Modelica

namespace SimpleImportClause

variable (v : SimpleImportClause)

def packageName? : Option Name := v.node.first?

/-- The name that the import gives to the package. -/
def shortName? : Option String := (v.node.tokenIn? "shortName").map Located.text

def description? : Option DescriptionString := v.node.first?

end SimpleImportClause

namespace CompoundImportClause

variable (v : CompoundImportClause)

def packageName? : Option Name := v.node.first?

/-- The names in braces. -/
def importNames : List String := v.node.identifiers

end CompoundImportClause

namespace UnqualifiedImportClause

variable (v : UnqualifiedImportClause)

def packageName? : Option Name := v.node.first?

end UnqualifiedImportClause

namespace ImportClause

variable (v : ImportClause)

/-- The imported package, without an alias, names in braces or a star. -/
def packageName? : Option Name := v.node.first?

end ImportClause

namespace ExtendsClause

variable (v : ExtendsClause)

def typeSpecifier? : Option TypeSpecifier := v.node.first?

def modification? : Option ClassOrInheritanceModification := v.node.first?

def annotation? : Option AnnotationClause := v.node.first?

end ExtendsClause

namespace NamedElementClause

variable (v : NamedElementClause)

def isRedeclare : Bool := v.node.has .redeclareKw

def isFinal : Bool := v.node.has .finalKw

def isInner : Bool := v.node.has .innerKw

def isOuter : Bool := v.node.has .outerKw

def isReplaceable : Bool := v.node.has .replaceableKw

def classDefinition? : Option ClassDefinition := v.node.first?

def componentClause? : Option ComponentClause := v.node.first?

def constrainingClause? : Option ConstrainingClause := v.node.first?

end NamedElementClause

namespace ConstrainingClause

variable (v : ConstrainingClause)

def typeSpecifier? : Option TypeSpecifier := v.node.first?

def classModification? : Option ClassModification := v.node.first?

end ConstrainingClause

namespace ComponentClause

variable (v : ComponentClause)

def isFlow : Bool := v.node.has .flowKw

def isStream : Bool := v.node.has .streamKw

def isDiscrete : Bool := v.node.has .discreteKw

def isParameter : Bool := v.node.has .parameterKw

def isConstant : Bool := v.node.has .constantKw

def isInput : Bool := v.node.has .inputKw

def isOutput : Bool := v.node.has .outputKw

def typeSpecifier? : Option TypeSpecifier := v.node.first?

def arraySubscripts? : Option ArraySubscripts := v.node.first?

def componentDeclarations : List ComponentDeclaration := v.node.every

end ComponentClause

namespace ComponentDeclaration

variable (v : ComponentDeclaration)

def declaration? : Option Declaration := v.node.first?

def conditionAttribute? : Option ConditionAttribute := v.node.first?

def description? : Option DescriptionString := v.node.first?

def annotation? : Option AnnotationClause := v.node.first?

end ComponentDeclaration

namespace ConditionAttribute

variable (v : ConditionAttribute)

def condition? : Option Expression := v.node.first?

end ConditionAttribute

namespace Declaration

variable (v : Declaration)

def name? : Option String := v.node.identifier?

def arraySubscripts? : Option ArraySubscripts := v.node.first?

def modification? : Option Modification := v.node.first?

end Declaration

end Modelica
