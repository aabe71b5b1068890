import Modelica.View.Equation

/-!
# Source texts and classes

The parts of a whole source text and of class definitions, in all the forms a class can be written.
-/

namespace Modelica

namespace InitialElementList

variable (v : InitialElementList)

def elements : List Element := v.node.every

end InitialElementList

namespace ElementList

variable (v : ElementList)

def isPublic : Bool := v.node.has .publicKw

def isProtected : Bool := v.node.has .protectedKw

def elements : List Element := v.node.every

end ElementList

namespace LongClassSpecifier

variable (v : LongClassSpecifier)

/-- It extends the inherited class of the same name. -/
def isExtends : Bool := v.node.has .extendsKw

def identifier? : Option Located := v.node.tokenIn? "identifier"

/-- The identifier after `end`. -/
def endIdentifier? : Option Located := v.node.tokenIn? "endIdentifier"

def classModification? : Option ClassModification := v.node.first?

def description? : Option DescriptionString := v.node.first?

def initialElementList? : Option InitialElementList := v.node.first?

def elementLists : List ElementList := v.node.every

def equationSections : List EquationSection := v.node.every

def algorithmSections : List AlgorithmSection := v.node.every

def externalFunctionClause? : Option ExternalFunctionClause := v.node.first?

def annotation? : Option AnnotationClause := v.node.first?

/-- The elements of the class body, public and protected ones, in the order of the text. -/
def elements : List Element :=
  (v.node.nodeChildren.filter fun n =>
    n.kind == .initialElementList || n.kind == .elementList).flatMap Located.every

/-- The equations of all equation sections. -/
def equations : List Equation := v.equationSections.flatMap (·.equations)

end LongClassSpecifier

namespace ShortClassSpecifier

variable (v : ShortClassSpecifier)

def identifier? : Option Located := v.node.tokenIn? "identifier"

def isEnumeration : Bool := v.node.has .enumerationKw

def typeSpecifier? : Option TypeSpecifier := v.node.first?

def arraySubscripts? : Option ArraySubscripts := v.node.first?

def classModification? : Option ClassModification := v.node.first?

def enumerationLiterals : List EnumerationLiteral := v.node.every

/-- An enumeration whose literals are left open. -/
def isUnspecified : Bool := v.node.fills "unspecified"

def description? : Option DescriptionString := v.node.first?

def annotation? : Option AnnotationClause := v.node.first?

end ShortClassSpecifier

namespace DerClassSpecifier

variable (v : DerClassSpecifier)

def identifier? : Option Located := v.node.tokenIn? "identifier"

def typeSpecifier? : Option TypeSpecifier := v.node.first?

/-- The inputs that the derivative is taken with respect to. -/
def inputs : List String :=
  ((v.node.field "input").toList.filter (!·.isNode)).map Located.text

def description? : Option DescriptionString := v.node.first?

def annotation? : Option AnnotationClause := v.node.first?

end DerClassSpecifier

namespace ClassSpecifier

variable (v : ClassSpecifier)

/-- The name of the class. -/
def name? : Option String := (v.node.tokenIn? "identifier").map Located.text

end ClassSpecifier

namespace EnumerationLiteral

variable (v : EnumerationLiteral)

def name? : Option String := v.node.identifier?

def description? : Option DescriptionString := v.node.first?

def annotation? : Option AnnotationClause := v.node.first?

end EnumerationLiteral

namespace ExternalFunctionClause

variable (v : ExternalFunctionClause)

def languageSpecification? : Option LanguageSpecification := v.node.first?

def externalFunctionCall? : Option ExternalFunctionCall := v.node.first?

def annotation? : Option AnnotationClause := v.node.first?

end ExternalFunctionClause

namespace LanguageSpecification

variable (v : LanguageSpecification)

def language? : Option StringLiteral := v.node.first?

end LanguageSpecification

namespace ExternalFunctionCall

variable (v : ExternalFunctionCall)

def output? : Option ComponentReference := v.node.first?

def functionName? : Option String := (v.node.tokenIn? "functionName").map Located.text

def arguments? : Option ExpressionList := v.node.first?

end ExternalFunctionCall

namespace ClassPrefixes

/-- The keywords of the sorts of classes. -/
def restrictions : List Kind := [
  .classKw, .modelKw, .recordKw, .blockKw, .connectorKw, .typeKw, .packageKw, .functionKw]

variable (v : ClassPrefixes)

def isPartial : Bool := v.node.has .partialKw

def isExpandable : Bool := v.node.has .expandableKw

def isPure : Bool := v.node.has .pureKw

def isImpure : Bool := v.node.has .impureKw

def isOperator : Bool := v.node.has .operatorKw

/-- The keyword that says what sort of class it is. `operator` counts only where it stands alone. -/
def restriction? : Option Kind :=
  match (v.node.tokenChildren.map Located.kind).find? restrictions.contains with
  | some k => some k
  | none => if v.isOperator then some .operatorKw else none

end ClassPrefixes

namespace ClassDefinition

variable (v : ClassDefinition)

def isEncapsulated : Bool := v.node.has .encapsulatedKw

def classPrefixes? : Option ClassPrefixes := v.node.first?

def classSpecifier? : Option ClassSpecifier := v.node.first?

/-- The name of the class, in whichever form it is written. -/
def name? : Option String := v.classSpecifier?.bind (·.name?)

end ClassDefinition

namespace ClassDefinitionClause

variable (v : ClassDefinitionClause)

def isFinal : Bool := v.node.has .finalKw

def classDefinition? : Option ClassDefinition := v.node.first?

end ClassDefinitionClause

namespace WithinClause

variable (v : WithinClause)

def packageName? : Option Name := v.node.first?

end WithinClause

namespace StoredDefinition

variable (v : StoredDefinition)

def hasByteOrderMark : Bool := v.node.has .byteOrderMark

def withinClause? : Option WithinClause := v.node.first?

def classDefinitionClauses : List ClassDefinitionClause := v.node.every

/-- The outermost classes. -/
def classDefinitions : List ClassDefinition :=
  v.classDefinitionClauses.filterMap (·.classDefinition?)

end StoredDefinition

end Modelica
