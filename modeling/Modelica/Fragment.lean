import Modelica.Parse

/-!
# Parsing a fragment

`parseFragment` reads one rule of the grammar without a class or section around it. The rule runs
inside a scratch `error` node; when that holds nothing but one good node and trivia, the node
becomes the root and takes the trivia in (`Tree.soleNode?`). Otherwise the scratch node stays the
root, and what the rule has left over is reported.
-/

namespace Modelica

/-- The rules that can be read on their own. -/
inductive FragmentRule where
  | storedDefinition | classDefinition | element | equation | statement | expression
  | simpleExpression | modification | classModification | annotationClause | componentReference
  | name | typeSpecifier | arraySubscripts
  deriving DecidableEq, Inhabited

namespace FragmentRule

open Production

def all : List FragmentRule := [
  .storedDefinition, .classDefinition, .element, .equation, .statement, .expression,
  .simpleExpression, .modification, .classModification, .annotationClause, .componentReference,
  .name, .typeSpecifier, .arraySubscripts]

/-- How a diagnostic names a rule. -/
def label : FragmentRule → String
  | .storedDefinition => "StoredDefinition"
  | .classDefinition => "ClassDefinition"
  | .element => "Element"
  | .equation => "Equation"
  | .statement => "Statement"
  | .expression => "Expression"
  | .simpleExpression => "SimpleExpression"
  | .modification => "Modification"
  | .classModification => "ClassModification"
  | .annotationClause => "AnnotationClause"
  | .componentReference => "ComponentReference"
  | .name => "Name"
  | .typeSpecifier => "TypeSpecifier"
  | .arraySubscripts => "ArraySubscripts"

/-- A rule that may only run where its first token is one of `start`; elsewhere that token is
reported as missing and an empty node stands in its place. -/
def startingWith (start : List Kind) (rule : Nonterminal) : Production :=
  look fun v =>
    if v.seesAny start then call rule
    else seq [missing .expectedToken start, node .error []]

/-- What reading a rule does. -/
def production : FragmentRule → Production
  | .storedDefinition => call .storedDefinition
  | .classDefinition => call .classDefinition
  | .element => call .element
  | .equation => inContext .equationSection (call .equation)
  | .statement => inContext .algorithmSection (call .statement)
  | .expression => call .expression
  | .simpleExpression => call .simpleExpression
  | .modification => startingWith [.equals, .assign, .lParen] .modification
  | .classModification => startingWith [.lParen] .classModification
  | .annotationClause => call .annotationClause
  | .componentReference => call .componentReference
  | .name => call .name
  | .typeSpecifier => call .typeSpecifier
  | .arraySubscripts => startingWith [.lBracket] .arraySubscripts

/-- A rule and everything it leaves over in one scratch node. -/
def scratch (rule : FragmentRule) : Production :=
  node .error [
    rule.production,
    look fun v =>
      if v.atEnd then done
      else seq [
        fault .unexpectedToken ("unexpected " ++ v.kind.displayName ++ " after " ++ rule.label),
        many (!·.atEnd) fun _ => shift]]

end FragmentRule

namespace Tree

def isTriviaLeaf : Tree → Bool
  | leaf t => t.isTrivia
  | node .. => false

/-- The only node among the children of a tree, with the trivia around it moved inside. There is
none when the children hold anything else, or when that node is an `error` node. -/
def soleNode? (t : Tree) : Option Tree :=
  match t.children.dropWhile isTriviaLeaf with
  | node k cs :: trailing =>
    if k ≠ .error ∧ trailing.all isTriviaLeaf then
      some (node k (t.children.takeWhile isTriviaLeaf ++ cs ++ trailing))
    else none
  | _ => none

end Tree

/-- What reading a fragment gives. -/
structure Fragment where
  parse : Parse
  /-- The rule has matched the whole text. -/
  fullyConsumed : Bool
  deriving Inhabited

/-- Read one rule from a text. -/
def parseFragment (rule : FragmentRule) (text : String) : Fragment :=
  let p := Parse.ofProduction rule.scratch ParseOptions.standard.limit text
  match p.tree.soleNode? with
  | some root => ⟨{ p with tree := root }, true⟩
  | none => ⟨p, false⟩

end Modelica
