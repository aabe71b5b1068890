import Modelica.Kind.Spelling
import Modelica.Kind.Supertype

/-!
# Slots

A schema gives every node kind a list of named slots, which its children fill in order. A schema
may come from a caller, so it is checked first (`Schema.problem?`): only node kinds may have
entries, each kind at most one, and the slots of an entry have different names.
-/

namespace Modelica

/-- How many children a slot holds. -/
inductive Cardinality where
  | optional | required | many
  deriving DecidableEq, Inhabited

/-- Which children a slot accepts. -/
inductive Matcher where
  | kind (k : Kind)
  | oneOf (ks : List Kind)
  | alternative (s : Supertype)
  deriving DecidableEq, Inhabited

def Matcher.accepts : Matcher → Kind → Bool
  | kind k, l => l == k
  | oneOf ks, l => ks.contains l
  | alternative s, l => l.isA s

structure Slot where
  name : String
  matcher : Matcher
  cardinality : Cardinality
  deriving DecidableEq, Inhabited

/-- The slots of some node kinds. -/
abbrev Schema := List (Kind × List Slot)

/-- What can be wrong with a schema. -/
inductive SchemaError where
  | duplicateKind (kind : Kind)
  | duplicateSlot (kind : Kind) (slot : String)
  | notANode (kind : Kind)
  deriving DecidableEq, Inhabited

def SchemaError.message : SchemaError → String
  | duplicateKind k => "duplicate schema for " ++ k.grammarName
  | duplicateSlot k slot => "duplicate field `" ++ slot ++ "` on " ++ k.grammarName
  | notANode k => k.grammarName ++ " is not a node kind"

namespace Schema

/-- The first name that a list has twice. -/
def repeated? : List String → Option String :=
  go []
where
  go (seen : List String) : List String → Option String
    | [] => none
    | name :: rest => if seen.contains name then some name else go (name :: seen) rest

/-- What is wrong with the entries after those of some kinds. -/
def problemAfter (seen : List Kind) : Schema → Option SchemaError
  | [] => none
  | (k, slots) :: rest =>
    if !k.isNode || k == .error then some (.notANode k)
    else match repeated? (slots.map Slot.name) with
      | some slot => some (.duplicateSlot k slot)
      | none => if seen.contains k then some (.duplicateKind k) else problemAfter (k :: seen) rest

/-- The first thing that is wrong with a schema. -/
def problem? (s : Schema) : Option SchemaError := problemAfter [] s

def has (s : Schema) (k : Kind) : Bool := (s.lookup k).isSome

/-- The slots of a kind, none for a kind without an entry. -/
def slots (s : Schema) (k : Kind) : List Slot := (s.lookup k).getD []

end Schema

end Modelica
