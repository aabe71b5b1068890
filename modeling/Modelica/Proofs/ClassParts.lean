import Modelica.Proofs.Agreement
import Modelica.View.Class
import Modelica.View.Element
import Modelica.View.Modification

/-!
# The parts of classes, elements and modifications

What the views of classes, elements and modifications read for a part is what its slot holds.
-/

namespace Modelica

/-! ## Source texts -/

structure StoredDefinition.Agrees (v : StoredDefinition) : Prop where
  hasByteOrderMark : v.node.Shows "bom" v.hasByteOrderMark
  withinClause : v.node.Shows "withinClause" v.withinClause?
  classDefinitionClauses : v.node.Shows "classDefinitionClause" v.classDefinitionClauses

theorem StoredDefinition.agrees (v : StoredDefinition) (h : v.node.Remains) : v.Agrees where
  hasByteOrderMark := v.shows_has h (by decide +kernel)
  withinClause := v.shows_first? h (by decide +kernel)
  classDefinitionClauses := v.shows_every h (by decide +kernel)

structure WithinClause.Agrees (v : WithinClause) : Prop where
  packageName : v.node.Shows "packageName" v.packageName?

theorem WithinClause.agrees (v : WithinClause) (h : v.node.Remains) : v.Agrees where
  packageName := v.shows_first? h (by decide +kernel)

structure ClassDefinitionClause.Agrees (v : ClassDefinitionClause) : Prop where
  isFinal : v.node.Shows "final" v.isFinal
  classDefinition : v.node.Shows "classDefinition" v.classDefinition?

theorem ClassDefinitionClause.agrees (v : ClassDefinitionClause) (h : v.node.Remains) :
    v.Agrees where
  isFinal := v.shows_has h (by decide +kernel)
  classDefinition := v.shows_first? h (by decide +kernel)

/-! ## Class definitions -/

structure ClassDefinition.Agrees (v : ClassDefinition) : Prop where
  isEncapsulated : v.node.Shows "encapsulated" v.isEncapsulated
  classPrefixes : v.node.Shows "classPrefixes" v.classPrefixes?
  classSpecifier : v.node.Shows "classSpecifier" v.classSpecifier?

theorem ClassDefinition.agrees (v : ClassDefinition) (h : v.node.Remains) : v.Agrees where
  isEncapsulated := v.shows_has h (by decide +kernel)
  classPrefixes := v.shows_first? h (by decide +kernel)
  classSpecifier := v.shows_first? h (by decide +kernel)

structure ClassPrefixes.Agrees (v : ClassPrefixes) : Prop where
  isPartial : v.node.Shows "partial" v.isPartial
  isExpandable : v.node.Shows "expandable" v.isExpandable
  isPure : v.node.Shows "pure" v.isPure
  isImpure : v.node.Shows "impure" v.isImpure
  isOperator : v.node.Shows "operator" v.isOperator

theorem ClassPrefixes.agrees (v : ClassPrefixes) (h : v.node.Remains) : v.Agrees where
  isPartial := v.shows_has h (by decide +kernel)
  isExpandable := v.shows_has h (by decide +kernel)
  isPure := v.shows_has h (by decide +kernel)
  isImpure := v.shows_has h (by decide +kernel)
  isOperator := v.shows_has h (by decide +kernel)

structure LongClassSpecifier.Agrees (v : LongClassSpecifier) : Prop where
  isExtends : v.node.Shows "extends" v.isExtends
  identifier : v.node.Shows "identifier" v.identifier?
  endIdentifier : v.node.Shows "endIdentifier" v.endIdentifier?
  classModification : v.node.Shows "classModification" v.classModification?
  description : v.node.Shows "descriptionString" v.description?
  initialElementList : v.node.Shows "initialElementList" v.initialElementList?
  elementLists : v.node.Shows "elementList" v.elementLists
  equationSections : v.node.Shows "equationSection" v.equationSections
  algorithmSections : v.node.Shows "algorithmSection" v.algorithmSections
  externalFunctionClause : v.node.Shows "externalFunctionClause" v.externalFunctionClause?
  annotation : v.node.Shows "annotationClause" v.annotation?

theorem LongClassSpecifier.agrees (v : LongClassSpecifier) (h : v.node.Remains) : v.Agrees where
  isExtends := v.shows_has h (by decide +kernel)
  identifier := v.shows_tokenIn? h (by decide +kernel)
  endIdentifier := v.shows_tokenIn? h (by decide +kernel)
  classModification := v.shows_first? h (by decide +kernel)
  description := v.shows_first? h (by decide +kernel)
  initialElementList := v.shows_first? h (by decide +kernel)
  elementLists := v.shows_every h (by decide +kernel)
  equationSections := v.shows_every h (by decide +kernel)
  algorithmSections := v.shows_every h (by decide +kernel)
  externalFunctionClause := v.shows_first? h (by decide +kernel)
  annotation := v.shows_first? h (by decide +kernel)

structure ShortClassSpecifier.Agrees (v : ShortClassSpecifier) : Prop where
  identifier : v.node.Shows "identifier" v.identifier?
  typeSpecifier : v.node.Shows "typeSpecifier" v.typeSpecifier?
  arraySubscripts : v.node.Shows "arraySubscripts" v.arraySubscripts?
  classModification : v.node.Shows "classModification" v.classModification?
  isEnumeration : v.node.Shows "enumeration" v.isEnumeration
  enumerationLiterals : v.node.Shows "enumerationLiteral" v.enumerationLiterals
  isUnspecified : v.node.Shows "unspecified" v.isUnspecified
  description : v.node.Shows "descriptionString" v.description?
  annotation : v.node.Shows "annotationClause" v.annotation?

theorem ShortClassSpecifier.agrees (v : ShortClassSpecifier) (h : v.node.Remains) : v.Agrees where
  identifier := v.shows_tokenIn? h (by decide +kernel)
  typeSpecifier := v.shows_first? h (by decide +kernel)
  arraySubscripts := v.shows_first? h (by decide +kernel)
  classModification := v.shows_first? h (by decide +kernel)
  isEnumeration := v.shows_has h (by decide +kernel)
  enumerationLiterals := v.shows_every h (by decide +kernel)
  isUnspecified := v.shows_fills
  description := v.shows_first? h (by decide +kernel)
  annotation := v.shows_first? h (by decide +kernel)

structure DerClassSpecifier.Agrees (v : DerClassSpecifier) : Prop where
  identifier : v.node.Shows "identifier" v.identifier?
  typeSpecifier : v.node.Shows "typeSpecifier" v.typeSpecifier?
  inputs : v.node.Shows "input" v.inputs
  description : v.node.Shows "descriptionString" v.description?
  annotation : v.node.Shows "annotationClause" v.annotation?

theorem DerClassSpecifier.agrees (v : DerClassSpecifier) (h : v.node.Remains) : v.Agrees where
  identifier := v.shows_tokenIn? h (by decide +kernel)
  typeSpecifier := v.shows_first? h (by decide +kernel)
  inputs := v.shows_textsIn h (by decide +kernel)
  description := v.shows_first? h (by decide +kernel)
  annotation := v.shows_first? h (by decide +kernel)

structure EnumerationLiteral.Agrees (v : EnumerationLiteral) : Prop where
  name : v.node.Shows "identifier" v.name?
  description : v.node.Shows "descriptionString" v.description?
  annotation : v.node.Shows "annotationClause" v.annotation?

theorem EnumerationLiteral.agrees (v : EnumerationLiteral) (h : v.node.Remains) : v.Agrees where
  name := v.shows_identifier? h (by decide +kernel)
  description := v.shows_first? h (by decide +kernel)
  annotation := v.shows_first? h (by decide +kernel)

structure ExternalFunctionClause.Agrees (v : ExternalFunctionClause) : Prop where
  languageSpecification : v.node.Shows "languageSpecification" v.languageSpecification?
  externalFunctionCall : v.node.Shows "externalFunctionCall" v.externalFunctionCall?
  annotation : v.node.Shows "annotationClause" v.annotation?

theorem ExternalFunctionClause.agrees (v : ExternalFunctionClause) (h : v.node.Remains) :
    v.Agrees where
  languageSpecification := v.shows_first? h (by decide +kernel)
  externalFunctionCall := v.shows_first? h (by decide +kernel)
  annotation := v.shows_first? h (by decide +kernel)

structure LanguageSpecification.Agrees (v : LanguageSpecification) : Prop where
  language : v.node.Shows "language" v.language?

theorem LanguageSpecification.agrees (v : LanguageSpecification) (h : v.node.Remains) :
    v.Agrees where
  language := v.shows_first? h (by decide +kernel)

structure ExternalFunctionCall.Agrees (v : ExternalFunctionCall) : Prop where
  output : v.node.Shows "output" v.output?
  functionName : v.node.Shows "functionName" v.functionName?
  arguments : v.node.Shows "arguments" v.arguments?

theorem ExternalFunctionCall.agrees (v : ExternalFunctionCall) (h : v.node.Remains) : v.Agrees where
  output := v.shows_first? h (by decide +kernel)
  functionName := v.shows_textIn? h (by decide +kernel)
  arguments := v.shows_first? h (by decide +kernel)

structure InitialElementList.Agrees (v : InitialElementList) : Prop where
  elements : v.node.Shows "element" v.elements

theorem InitialElementList.agrees (v : InitialElementList) (h : v.node.Remains) : v.Agrees where
  elements := v.shows_every h (by decide +kernel)

structure ElementList.Agrees (v : ElementList) : Prop where
  isProtected : v.node.Shows "protected" v.isProtected
  isPublic : v.node.Shows "public" v.isPublic
  elements : v.node.Shows "element" v.elements

theorem ElementList.agrees (v : ElementList) (h : v.node.Remains) : v.Agrees where
  isProtected := v.shows_has h (by decide +kernel)
  isPublic := v.shows_has h (by decide +kernel)
  elements := v.shows_every h (by decide +kernel)

/-! ## Elements -/

structure NamedElementClause.Agrees (v : NamedElementClause) : Prop where
  isRedeclare : v.node.Shows "redeclare" v.isRedeclare
  isFinal : v.node.Shows "final" v.isFinal
  isInner : v.node.Shows "inner" v.isInner
  isOuter : v.node.Shows "outer" v.isOuter
  isReplaceable : v.node.Shows "replaceable" v.isReplaceable
  classDefinition : v.node.Shows "classDefinition" v.classDefinition?
  componentClause : v.node.Shows "componentClause" v.componentClause?
  constrainingClause : v.node.Shows "constrainingClause" v.constrainingClause?

theorem NamedElementClause.agrees (v : NamedElementClause) (h : v.node.Remains) : v.Agrees where
  isRedeclare := v.shows_has h (by decide +kernel)
  isFinal := v.shows_has h (by decide +kernel)
  isInner := v.shows_has h (by decide +kernel)
  isOuter := v.shows_has h (by decide +kernel)
  isReplaceable := v.shows_has h (by decide +kernel)
  classDefinition := v.shows_first? h (by decide +kernel)
  componentClause := v.shows_first? h (by decide +kernel)
  constrainingClause := v.shows_first? h (by decide +kernel)

structure SimpleImportClause.Agrees (v : SimpleImportClause) : Prop where
  shortName : v.node.Shows "shortName" v.shortName?
  packageName : v.node.Shows "packageName" v.packageName?
  description : v.node.Shows "descriptionString" v.description?

theorem SimpleImportClause.agrees (v : SimpleImportClause) (h : v.node.Remains) : v.Agrees where
  shortName := v.shows_textIn? h (by decide +kernel)
  packageName := v.shows_first? h (by decide +kernel)
  description := v.shows_first? h (by decide +kernel)

structure CompoundImportClause.Agrees (v : CompoundImportClause) : Prop where
  packageName : v.node.Shows "packageName" v.packageName?
  importNames : v.node.Shows "importName" v.importNames

theorem CompoundImportClause.agrees (v : CompoundImportClause) (h : v.node.Remains) : v.Agrees where
  packageName := v.shows_first? h (by decide +kernel)
  importNames := v.shows_identifiers h (by decide +kernel)

structure UnqualifiedImportClause.Agrees (v : UnqualifiedImportClause) : Prop where
  packageName : v.node.Shows "packageName" v.packageName?

theorem UnqualifiedImportClause.agrees (v : UnqualifiedImportClause) (h : v.node.Remains) :
    v.Agrees where
  packageName := v.shows_first? h (by decide +kernel)

structure ExtendsClause.Agrees (v : ExtendsClause) : Prop where
  typeSpecifier : v.node.Shows "typeSpecifier" v.typeSpecifier?
  modification : v.node.Shows "classOrInheritanceModification" v.modification?
  annotation : v.node.Shows "annotationClause" v.annotation?

theorem ExtendsClause.agrees (v : ExtendsClause) (h : v.node.Remains) : v.Agrees where
  typeSpecifier := v.shows_first? h (by decide +kernel)
  modification := v.shows_first? h (by decide +kernel)
  annotation := v.shows_first? h (by decide +kernel)

structure ConstrainingClause.Agrees (v : ConstrainingClause) : Prop where
  typeSpecifier : v.node.Shows "typeSpecifier" v.typeSpecifier?
  classModification : v.node.Shows "classModification" v.classModification?

theorem ConstrainingClause.agrees (v : ConstrainingClause) (h : v.node.Remains) : v.Agrees where
  typeSpecifier := v.shows_first? h (by decide +kernel)
  classModification := v.shows_first? h (by decide +kernel)

structure ComponentClause.Agrees (v : ComponentClause) : Prop where
  isFlow : v.node.Shows "flow" v.isFlow
  isStream : v.node.Shows "stream" v.isStream
  isDiscrete : v.node.Shows "discrete" v.isDiscrete
  isParameter : v.node.Shows "parameter" v.isParameter
  isConstant : v.node.Shows "constant" v.isConstant
  isInput : v.node.Shows "input" v.isInput
  isOutput : v.node.Shows "output" v.isOutput
  typeSpecifier : v.node.Shows "typeSpecifier" v.typeSpecifier?
  arraySubscripts : v.node.Shows "arraySubscripts" v.arraySubscripts?
  componentDeclarations : v.node.Shows "componentDeclaration" v.componentDeclarations

theorem ComponentClause.agrees (v : ComponentClause) (h : v.node.Remains) : v.Agrees where
  isFlow := v.shows_has h (by decide +kernel)
  isStream := v.shows_has h (by decide +kernel)
  isDiscrete := v.shows_has h (by decide +kernel)
  isParameter := v.shows_has h (by decide +kernel)
  isConstant := v.shows_has h (by decide +kernel)
  isInput := v.shows_has h (by decide +kernel)
  isOutput := v.shows_has h (by decide +kernel)
  typeSpecifier := v.shows_first? h (by decide +kernel)
  arraySubscripts := v.shows_first? h (by decide +kernel)
  componentDeclarations := v.shows_every h (by decide +kernel)

structure ComponentDeclaration.Agrees (v : ComponentDeclaration) : Prop where
  declaration : v.node.Shows "declaration" v.declaration?
  conditionAttribute : v.node.Shows "conditionAttribute" v.conditionAttribute?
  description : v.node.Shows "descriptionString" v.description?
  annotation : v.node.Shows "annotationClause" v.annotation?

theorem ComponentDeclaration.agrees (v : ComponentDeclaration) (h : v.node.Remains) : v.Agrees where
  declaration := v.shows_first? h (by decide +kernel)
  conditionAttribute := v.shows_first? h (by decide +kernel)
  description := v.shows_first? h (by decide +kernel)
  annotation := v.shows_first? h (by decide +kernel)

structure ConditionAttribute.Agrees (v : ConditionAttribute) : Prop where
  condition : v.node.Shows "condition" v.condition?

theorem ConditionAttribute.agrees (v : ConditionAttribute) (h : v.node.Remains) : v.Agrees where
  condition := v.shows_first? h (by decide +kernel)

structure Declaration.Agrees (v : Declaration) : Prop where
  name : v.node.Shows "identifier" v.name?
  arraySubscripts : v.node.Shows "arraySubscripts" v.arraySubscripts?
  modification : v.node.Shows "modification" v.modification?

theorem Declaration.agrees (v : Declaration) (h : v.node.Remains) : v.Agrees where
  name := v.shows_identifier? h (by decide +kernel)
  arraySubscripts := v.shows_first? h (by decide +kernel)
  modification := v.shows_first? h (by decide +kernel)

/-! ## Modifications -/

structure Modification.Agrees (v : Modification) : Prop where
  classModification : v.node.Shows "classModification" v.classModification?
  modificationExpression : v.node.Shows "modificationExpression" v.modificationExpression?

theorem Modification.agrees (v : Modification) (h : v.node.Remains) : v.Agrees where
  classModification := v.shows_first? h (by decide +kernel)
  modificationExpression := v.shows_first? h (by decide +kernel)

structure ModificationExpression.Agrees (v : ModificationExpression) : Prop where
  isBreak : v.node.Shows "break" v.isBreak
  expression : v.node.Shows "expression" v.expression?

theorem ModificationExpression.agrees (v : ModificationExpression) (h : v.node.Remains) :
    v.Agrees where
  isBreak := v.shows_has h (by decide +kernel)
  expression := v.shows_first? h (by decide +kernel)

structure ClassModification.Agrees (v : ClassModification) : Prop where
  arguments : v.node.Shows "argument" v.arguments

theorem ClassModification.agrees (v : ClassModification) (h : v.node.Remains) : v.Agrees where
  arguments := v.shows_every h (by decide +kernel)

/-- One slot has the parts of both sorts. -/
structure ClassOrInheritanceModification.Agrees (v : ClassOrInheritanceModification) : Prop where
  arguments : v.node.ShowsSome "argumentOrInheritanceModification" v.arguments
  inheritanceModifications :
    v.node.ShowsSome "argumentOrInheritanceModification" v.inheritanceModifications

theorem ClassOrInheritanceModification.agrees (v : ClassOrInheritanceModification)
    (h : v.node.Remains) : v.Agrees where
  arguments := v.shows_some h (by decide +kernel)
  inheritanceModifications := v.shows_some h (by decide +kernel)

structure InheritanceModification.Agrees (v : InheritanceModification) : Prop where
  connectClause : v.node.Shows "connectClause" v.connectClause?
  identifier : v.node.Shows "identifier" v.identifier?

theorem InheritanceModification.agrees (v : InheritanceModification) (h : v.node.Remains) :
    v.Agrees where
  connectClause := v.shows_first? h (by decide +kernel)
  identifier := v.shows_identifier? h (by decide +kernel)

structure ElementModification.Agrees (v : ElementModification) : Prop where
  isEach : v.node.Shows "each" v.isEach
  isFinal : v.node.Shows "final" v.isFinal
  target : v.node.Shows "name" v.target?
  modification : v.node.Shows "modification" v.modification?
  description : v.node.Shows "descriptionString" v.description?

theorem ElementModification.agrees (v : ElementModification) (h : v.node.Remains) : v.Agrees where
  isEach := v.shows_has h (by decide +kernel)
  isFinal := v.shows_has h (by decide +kernel)
  target := v.shows_nodeText? h (by decide +kernel)
  modification := v.shows_first? h (by decide +kernel)
  description := v.shows_first? h (by decide +kernel)

structure ElementRedeclaration.Agrees (v : ElementRedeclaration) : Prop where
  isEach : v.node.Shows "each" v.isEach
  isFinal : v.node.Shows "final" v.isFinal
  isReplaceable : v.node.Shows "replaceable" v.isReplaceable
  shortClassDefinition : v.node.Shows "shortClassDefinition" v.shortClassDefinition?
  componentClause : v.node.Shows "componentClause" v.componentClause?
  constrainingClause : v.node.Shows "constrainingClause" v.constrainingClause?

theorem ElementRedeclaration.agrees (v : ElementRedeclaration) (h : v.node.Remains) : v.Agrees where
  isEach := v.shows_has h (by decide +kernel)
  isFinal := v.shows_has h (by decide +kernel)
  isReplaceable := v.shows_has h (by decide +kernel)
  shortClassDefinition := v.shows_first? h (by decide +kernel)
  componentClause := v.shows_first? h (by decide +kernel)
  constrainingClause := v.shows_first? h (by decide +kernel)

structure ElementReplaceable.Agrees (v : ElementReplaceable) : Prop where
  isEach : v.node.Shows "each" v.isEach
  isFinal : v.node.Shows "final" v.isFinal
  shortClassDefinition : v.node.Shows "shortClassDefinition" v.shortClassDefinition?
  componentClause : v.node.Shows "componentClause" v.componentClause?
  constrainingClause : v.node.Shows "constrainingClause" v.constrainingClause?

theorem ElementReplaceable.agrees (v : ElementReplaceable) (h : v.node.Remains) : v.Agrees where
  isEach := v.shows_has h (by decide +kernel)
  isFinal := v.shows_has h (by decide +kernel)
  shortClassDefinition := v.shows_first? h (by decide +kernel)
  componentClause := v.shows_first? h (by decide +kernel)
  constrainingClause := v.shows_first? h (by decide +kernel)

structure ComponentClause1.Agrees (v : ComponentClause1) : Prop where
  typeSpecifier : v.node.Shows "typeSpecifier" v.typeSpecifier?
  componentDeclaration : v.node.Shows "componentDeclaration" v.componentDeclaration?

theorem ComponentClause1.agrees (v : ComponentClause1) (h : v.node.Remains) : v.Agrees where
  typeSpecifier := v.shows_first? h (by decide +kernel)
  componentDeclaration := v.shows_first? h (by decide +kernel)

structure ComponentDeclaration1.Agrees (v : ComponentDeclaration1) : Prop where
  declaration : v.node.Shows "declaration" v.declaration?
  description : v.node.Shows "descriptionString" v.description?

theorem ComponentDeclaration1.agrees (v : ComponentDeclaration1) (h : v.node.Remains) :
    v.Agrees where
  declaration := v.shows_first? h (by decide +kernel)
  description := v.shows_first? h (by decide +kernel)

structure ShortClassDefinition.Agrees (v : ShortClassDefinition) : Prop where
  classPrefixes : v.node.Shows "classPrefixes" v.classPrefixes?
  specifier : v.node.Shows "shortClassSpecifier" v.specifier?

theorem ShortClassDefinition.agrees (v : ShortClassDefinition) (h : v.node.Remains) : v.Agrees where
  classPrefixes := v.shows_first? h (by decide +kernel)
  specifier := v.shows_first? h (by decide +kernel)

structure AnnotationClause.Agrees (v : AnnotationClause) : Prop where
  classModification : v.node.Shows "classModification" v.classModification?

theorem AnnotationClause.agrees (v : AnnotationClause) (h : v.node.Remains) : v.Agrees where
  classModification := v.shows_first? h (by decide +kernel)

end Modelica
