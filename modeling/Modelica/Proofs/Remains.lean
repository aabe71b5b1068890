import Modelica.Proofs.Contents

/-!
# What is left in a recovered tree

Whatever a text is, the nodes of its tree keep an order. `Kind.remains` lists what a node may have
left when errors were recovered from: most often any part of its shape may be missing, now and then
there is more than one shape to choose from. Trivia and `error` nodes may stand anywhere and are not
counted.
-/

namespace Modelica

open Shape
open Supertype (members)

/-- Shapes to choose from. -/
abbrev Variants := List Shape

namespace Variants

/-- The children fall into one of the shapes. -/
def Matches (vs : Variants) (ks : List Kind) : Prop := ∃ s ∈ vs, s.Matches ks

/-- Every child list of the first shapes is one of the second. -/
def Le (vs ws : Variants) : Prop := ∀ ks, vs.Matches ks → ws.Matches ks

/-- Children of the first shapes, then children of the second. -/
def join (vs ws : Variants) : Variants := vs.flatMap fun s => ws.map (s ++ ·)

/-- A test for inclusion. -/
def covers (vs ws : Variants) : Bool := vs.all fun s => ws.any fun d => Shape.covers s d

variable {vs vs' ws ws' xs : Variants} {s : Shape} {a b : List Kind}

theorem Le.refl (vs : Variants) : vs.Le vs := fun _ h => h

theorem Le.trans (h : vs.Le ws) (h' : ws.Le xs) : vs.Le xs := fun ks hk => h' ks (h ks hk)

theorem matches_singleton : Matches [s] a ↔ s.Matches a := by simp [Matches]

theorem le_of_covers (h : vs.covers ws = true) : vs.Le ws := by
  rintro ks ⟨s, hs, hm⟩
  obtain ⟨d, hd, hc⟩ := List.any_eq_true.mp (List.all_eq_true.mp h s hs)
  exact ⟨d, hd, Shape.le_of_covers hc ks hm⟩

theorem le_singleton {s d : Shape} (h : Shape.Le s d) : Le [s] [d] := fun ks hk =>
  matches_singleton.mpr (h ks (matches_singleton.mp hk))

theorem matches_join : (vs.join ws).Matches a ↔
    ∃ x y, a = x ++ y ∧ vs.Matches x ∧ ws.Matches y := by
  constructor
  · rintro ⟨s, hs, hm⟩
    obtain ⟨s, hsv, hs⟩ := List.mem_flatMap.mp hs
    obtain ⟨d, hdw, rfl⟩ := List.mem_map.mp hs
    obtain ⟨x, y, rfl, hx, hy⟩ := exists_of_matches_append hm
    exact ⟨x, y, rfl, ⟨s, hsv, hx⟩, d, hdw, hy⟩
  · rintro ⟨x, y, rfl, ⟨s, hs, hx⟩, d, hd, hy⟩
    exact ⟨s ++ d, List.mem_flatMap.mpr ⟨s, hs, List.mem_map_of_mem hd⟩, matches_append hx hy⟩

theorem Le.join (h : vs.Le vs') (h' : ws.Le ws') : (vs.join ws).Le (vs'.join ws') := by
  intro ks hk
  obtain ⟨x, y, rfl, hx, hy⟩ := matches_join.mp hk
  exact matches_join.mpr ⟨x, y, rfl, h x hx, h' y hy⟩

theorem Le.join_left (vs : Variants) (h : ws.Le ws') : (vs.join ws).Le (vs.join ws') :=
  (Le.refl vs).join h

theorem matches_nil : Matches [[]] [] := ⟨[], List.mem_singleton.mpr rfl, .nil⟩

/-- Where nothing has to follow. -/
theorem Le.join_nil (vs : Variants) (h : Le [[]] ws) : vs.Le (vs.join ws) := fun ks hk =>
  matches_join.mpr ⟨ks, [], (List.append_nil ks).symm, hk, h [] matches_nil⟩

theorem join_nil (vs : Variants) : vs.join [[]] = vs := by simp [join]

theorem join_assoc (vs ws xs : Variants) : (vs.join ws).join xs = vs.join (ws.join xs) := by
  simp [join, List.flatMap_assoc, List.map_flatMap, List.flatMap_map, Function.comp_def]

theorem le_nil_maybe (s : Shape) : Le [[]] [s.maybe] := le_singleton (Shape.le_nil_maybe s)

theorem le_maybe (s : Shape) : Le [s] [s.maybe] := le_singleton (Shape.le_maybe s)

end Variants

namespace Shape

/-- The `end` of a block, with the keyword of another one where they do not match. -/
def anyBlockEnd : Shape := [opt [.endKw], opt [.ifKw, .whenKw, .forKw, .whileKw]] ++ itemEnd.maybe

/-- An `if` block. After its `else` clause there are the items of clauses that come too late. -/
def anyIfBlock (items : Supertype) (elseIf otherwise : Kind) : Shape :=
  (clause .ifKw items).maybe ++ [many [elseIf], opt [otherwise], many (members items)] ++
    anyBlockEnd

end Shape

/-- What is left of the children of a node. -/
def Kind.remains : Kind → Variants
  | .longClassSpecifier =>
    let body := [
      opt [.extendsKw], opt [.ident], opt [.classModification], opt [.descriptionString],
      opt [.initialElementList], many [.elementList, .equationSection, .algorithmSection],
      opt [.externalFunctionClause], opt [.annotationClause], opt [.semicolon]]
    [body, body ++ [one [.endKw], opt [.ident]]]
  | .simpleEquation => [[
      opt (members .simpleExpression), opt [.equals, .assign], opt (members .expression)] ++
      itemEnd.maybe]
  | .simpleAssignmentStatement => [[
      opt [.componentReference], opt [.assign, .equals], opt (members .expression)] ++
      itemEnd.maybe]
  | .ifEquation => [anyIfBlock .equation .elseIfEquationClause .elseEquationClause]
  | .ifStatement => [anyIfBlock .statement .elseIfStatementClause .elseStatementClause]
  | .whenEquation =>
    [(clause .whenKw .equation).maybe ++ [many [.elseWhenEquationClause]] ++ anyBlockEnd]
  | .whenStatement =>
    [(clause .whenKw .statement).maybe ++ [many [.elseWhenStatementClause]] ++ anyBlockEnd]
  | .forEquation => [[
      opt [.forKw], many [.forIndex, .comma], opt [.loopKw], many (members .equation)] ++
      anyBlockEnd]
  | .forStatement => [[
      opt [.forKw], many [.forIndex, .comma], opt [.loopKw], many (members .statement)] ++
      anyBlockEnd]
  | .whileStatement => [[
      opt [.whileKw], opt (members .expression), opt [.loopKw], many (members .statement)] ++
      anyBlockEnd]
  | .ifExpression =>
    let branches := [
      opt [.ifKw], opt (members .expression), opt [.thenKw], opt (members .expression),
      many [.elseIfExpressionClause]]
    [branches, branches ++ [one [.elseKw], opt (members .expression)]]
  | k => [k.shape.maybe]

namespace Tree

/-- The kinds of the trees that count. -/
def counted (ts : List Tree) : List Kind := (ts.map kind).filter Kind.isSignificant

theorem counted_append (ts us : List Tree) : counted (ts ++ us) = counted ts ++ counted us := by
  simp [counted]

/-- Every node of a tree that is not an `error` has what is left of its kind, and no leaf has the
kind of a node. -/
inductive Recovered : Tree → Prop
  | leaf {t} : t.kind ∉ Kind.productions → t.kind ≠ .byteOrderMark → Recovered (.leaf t)
  | error {cs} : (∀ c ∈ cs, Recovered c) → Recovered (.node .error cs)
  | node {k cs} : k ∈ Kind.productions → k.remains.Matches (counted cs) →
      (∀ c ∈ cs, Recovered c) → Recovered (.node k cs)

end Tree

end Modelica
