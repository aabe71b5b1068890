import Modelica.Kind

/-!
# How kinds are spelled

Keywords and punctuation have one spelling each (`spelling?`). From it follow the keyword that a
word stands for (`keyword?`) and the form in which a diagnostic names a kind (`displayName`).
`grammarName` is the name a kind has in the written grammar.
-/

namespace Modelica.Kind

/-- The spelling of a token kind that has only one. -/
def spelling? : Kind → Option String
  | .lParen => "("
  | .rParen => ")"
  | .lBracket => "["
  | .rBracket => "]"
  | .lBrace => "\x7b"
  | .rBrace => "\x7d"
  | .semicolon => ";"
  | .comma => ","
  | .dot => "."
  | .colon => ":"
  | .equals => "="
  | .assign => ":="
  | .plus => "+"
  | .minus => "-"
  | .star => "*"
  | .slash => "/"
  | .caret => "^"
  | .dotPlus => ".+"
  | .dotMinus => ".-"
  | .dotStar => ".*"
  | .dotSlash => "./"
  | .dotCaret => ".^"
  | .less => "<"
  | .lessEq => "<="
  | .greater => ">"
  | .greaterEq => ">="
  | .equal => "=="
  | .notEqual => "<>"
  | .algorithmKw => "algorithm"
  | .andKw => "and"
  | .annotationKw => "annotation"
  | .blockKw => "block"
  | .breakKw => "break"
  | .classKw => "class"
  | .connectKw => "connect"
  | .connectorKw => "connector"
  | .constantKw => "constant"
  | .constrainedbyKw => "constrainedby"
  | .derKw => "der"
  | .discreteKw => "discrete"
  | .eachKw => "each"
  | .elseKw => "else"
  | .elseifKw => "elseif"
  | .elsewhenKw => "elsewhen"
  | .encapsulatedKw => "encapsulated"
  | .endKw => "end"
  | .enumerationKw => "enumeration"
  | .equationKw => "equation"
  | .expandableKw => "expandable"
  | .extendsKw => "extends"
  | .externalKw => "external"
  | .falseKw => "false"
  | .finalKw => "final"
  | .flowKw => "flow"
  | .forKw => "for"
  | .functionKw => "function"
  | .ifKw => "if"
  | .importKw => "import"
  | .impureKw => "impure"
  | .inKw => "in"
  | .initialKw => "initial"
  | .innerKw => "inner"
  | .inputKw => "input"
  | .loopKw => "loop"
  | .modelKw => "model"
  | .notKw => "not"
  | .operatorKw => "operator"
  | .orKw => "or"
  | .outerKw => "outer"
  | .outputKw => "output"
  | .packageKw => "package"
  | .parameterKw => "parameter"
  | .partialKw => "partial"
  | .protectedKw => "protected"
  | .publicKw => "public"
  | .pureKw => "pure"
  | .recordKw => "record"
  | .redeclareKw => "redeclare"
  | .replaceableKw => "replaceable"
  | .returnKw => "return"
  | .streamKw => "stream"
  | .thenKw => "then"
  | .trueKw => "true"
  | .typeKw => "type"
  | .whenKw => "when"
  | .whileKw => "while"
  | .withinKw => "within"
  | _ => none

/-- The keyword that a word is, if it is one. -/
def keyword? (text : String) : Option Kind := keywords.find? fun k => k.spelling? == some text

/-- The name of a kind in the grammar; tokens of one class share a name. -/
def grammarName : Kind → String
  | .storedDefinition => "StoredDefinition"
  | .withinClause => "WithinClause"
  | .classDefinitionClause => "ClassDefinitionClause"
  | .classDefinition => "ClassDefinition"
  | .classPrefixes => "ClassPrefixes"
  | .longClassSpecifier => "LongClassSpecifier"
  | .shortClassSpecifier => "ShortClassSpecifier"
  | .derClassSpecifier => "DerClassSpecifier"
  | .externalFunctionClause => "ExternalFunctionClause"
  | .enumerationLiteral => "EnumerationLiteral"
  | .languageSpecification => "LanguageSpecification"
  | .externalFunctionCall => "ExternalFunctionCall"
  | .initialElementList => "InitialElementList"
  | .elementList => "ElementList"
  | .namedElementClause => "NamedElementClause"
  | .simpleImportClause => "SimpleImportClause"
  | .compoundImportClause => "CompoundImportClause"
  | .unqualifiedImportClause => "UnqualifiedImportClause"
  | .extendsClause => "ExtendsClause"
  | .constrainingClause => "ConstrainingClause"
  | .classOrInheritanceModification => "ClassOrInheritanceModification"
  | .inheritanceModification => "InheritanceModification"
  | .componentClause => "ComponentClause"
  | .componentDeclaration => "ComponentDeclaration"
  | .conditionAttribute => "ConditionAttribute"
  | .declaration => "Declaration"
  | .modification => "Modification"
  | .modificationExpression => "ModificationExpression"
  | .classModification => "ClassModification"
  | .elementModification => "ElementModification"
  | .elementRedeclaration => "ElementRedeclaration"
  | .elementReplaceable => "ElementReplaceable"
  | .componentClause1 => "ComponentClause1"
  | .componentDeclaration1 => "ComponentDeclaration1"
  | .shortClassDefinition => "ShortClassDefinition"
  | .equationSection => "EquationSection"
  | .algorithmSection => "AlgorithmSection"
  | .simpleEquation => "SimpleEquation"
  | .specialEquation => "SpecialEquation"
  | .ifEquation => "IfEquation"
  | .elseIfEquationClause => "ElseIfEquationClause"
  | .elseEquationClause => "ElseEquationClause"
  | .forEquation => "ForEquation"
  | .connectEquation => "ConnectEquation"
  | .connectClause => "ConnectClause"
  | .whenEquation => "WhenEquation"
  | .elseWhenEquationClause => "ElseWhenEquationClause"
  | .simpleAssignmentStatement => "SimpleAssignmentStatement"
  | .functionCallStatement => "FunctionCallStatement"
  | .destructuringAssignmentStatement => "DestructuringAssignmentStatement"
  | .breakStatement => "BreakStatement"
  | .returnStatement => "ReturnStatement"
  | .ifStatement => "IfStatement"
  | .elseIfStatementClause => "ElseIfStatementClause"
  | .elseStatementClause => "ElseStatementClause"
  | .forStatement => "ForStatement"
  | .forIndex => "ForIndex"
  | .whileStatement => "WhileStatement"
  | .whenStatement => "WhenStatement"
  | .elseWhenStatementClause => "ElseWhenStatementClause"
  | .ifExpression => "IfExpression"
  | .elseIfExpressionClause => "ElseIfExpressionClause"
  | .rangeExpression => "RangeExpression"
  | .unaryExpression => "UnaryExpression"
  | .binaryExpression => "BinaryExpression"
  | .endExpression => "EndExpression"
  | .unsignedIntegerLiteral => "UnsignedIntegerLiteral"
  | .unsignedRealLiteral => "UnsignedRealLiteral"
  | .logicalLiteral => "LogicalLiteral"
  | .stringLiteral => "StringLiteral"
  | .typeSpecifier => "TypeSpecifier"
  | .name => "Name"
  | .componentReference => "ComponentReference"
  | .componentReferencePart => "ComponentReferencePart"
  | .functionCall => "FunctionCall"
  | .functionArguments => "FunctionArguments"
  | .arrayConcatenation => "ArrayConcatenation"
  | .arrayConstructor => "ArrayConstructor"
  | .comprehensionClause => "ComprehensionClause"
  | .namedArgument => "NamedArgument"
  | .functionArgument => "FunctionArgument"
  | .functionPartialApplication => "FunctionPartialApplication"
  | .parenthesizedExpression => "ParenthesizedExpression"
  | .expressionList => "ExpressionList"
  | .arraySubscripts => "ArraySubscripts"
  | .subscript => "Subscript"
  | .descriptionString => "DescriptionString"
  | .annotationClause => "AnnotationClause"
  | .error => "ERROR"
  | .endOfInput => "EOF"
  | .whitespace => "WHITESPACE"
  | .lineComment => "LINE_COMMENT"
  | .blockComment => "BLOCK_COMMENT"
  | .byteOrderMark => "BOM"
  | .ident => "IDENT"
  | .unsignedInteger => "UNSIGNED_INTEGER"
  | .unsignedReal => "UNSIGNED_REAL"
  | .string => "STRING"
  | k => if k.isPunctuation then "PUNCT" else "KEYWORD"

/-- How a diagnostic names a kind: a fixed spelling in backquotes, otherwise a description. -/
def displayName (k : Kind) : String :=
  match k.spelling? with
  | some text => "`" ++ text ++ "`"
  | none =>
    match k with
    | .whitespace => "whitespace"
    | .lineComment | .blockComment => "comment"
    | .byteOrderMark => "byte-order mark"
    | .ident => "identifier"
    | .unsignedInteger => "integer literal"
    | .unsignedReal => "real literal"
    | .string => "string literal"
    | .endOfInput => "end of input"
    | other => other.grammarName

end Modelica.Kind
