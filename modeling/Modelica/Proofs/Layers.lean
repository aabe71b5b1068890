import Modelica.Proofs.Demands

/-!
# Layers of the grammar

Rules for classes call rules for equations and statements, these call rules for expressions, names
and modifications, and none calls back. What is open while a rule runs depends on its layer:
nothing while a class is read, and blocks of one category among equations or statements. So a
clause keyword there has an owner or is an orphan, and is never ambiguous.
-/

namespace Modelica

/-- A clause that a keyword of this kind starts belongs to none of the blocks. -/
def Unclaimed (constructs : List OpenConstruct) (k : Kind) : Prop :=
  ∀ owner, clauseOwner? k = some owner → ∀ block ∈ constructs, block.construct ≠ owner

section

variable {category : Category} {constructs : List OpenConstruct} {k : Kind}

/-- Blocks of one category hide no owner. -/
theorem findOwner_of_category (h : ∀ block ∈ constructs, block.category = category)
    (owner : Construct) (inner : Nat) :
    findOwner ⟨owner, category⟩ inner constructs = .attach ∨
      (∃ n, findOwner ⟨owner, category⟩ inner constructs = .unwind n) ∨
      findOwner ⟨owner, category⟩ inner constructs = .orphan ∧
        ∀ block ∈ constructs, block.construct ≠ owner := by
  induction constructs generalizing inner with
  | nil => exact .inr (.inr ⟨rfl, fun _ hb => nomatch hb⟩)
  | cons entry outer ih =>
    obtain ⟨he, ho⟩ := List.forall_mem_cons.mp h
    simp only [findOwner, he, ne_eq, not_true_eq_false, ↓reduceIte]
    by_cases hc : entry.construct = owner
    · by_cases hi : inner = 0 <;> simp [hc, hi]
    · simpa [hc] using ih ho (inner + 1)

/-- The innermost block takes its own clauses. -/
theorem resolveClause_cons_self {owner : Construct} (hk : clauseOwner? k = some owner) :
    resolveClause (⟨owner, category⟩ :: constructs) k category = .attach := by
  simp [resolveClause, hk, findOwner]

theorem resolveClause_ne_ambiguous (h : ∀ block ∈ constructs, block.category = category) :
    resolveClause constructs k category ≠ .ambiguous := by
  unfold resolveClause
  split
  · nofun
  · rename_i owner _
    rcases findOwner_of_category h owner 0 with h | ⟨n, h⟩ | ⟨h, -⟩ <;> rw [h] <;> nofun

/-- A body that goes on at a clause keyword is in no block that could take the clause. -/
theorem Lookahead.unclaimed_of_not_bodyEnds {v : Lookahead}
    (h : ∀ block ∈ v.constructs, block.category = category) (hb : v.bodyEnds category = false) :
    Unclaimed v.constructs v.kind := by
  intro owner hk
  simp only [bodyEnds, isClauseKeyword, hk, Option.isSome_some, Bool.true_and, Bool.or_eq_false_iff,
    clauseResolution, resolveClause] at hb
  rcases findOwner_of_category h owner 0 with he | ⟨n, he⟩ | ⟨-, ho⟩
  · simp [he] at hb
  · simp [he] at hb
  · exact ho

end

/-- What a rule is about. -/
inductive Layer where
  /-- Expressions, names, modifications, declarations and all else that holds no block. -/
  | plain
  /-- Equations or statements. -/
  | items (family : Family)
  /-- Classes and what holds classes or sections. -/
  | classes
  deriving DecidableEq

/-- The layer of a rule. Only rules for items ask who owns a clause. -/
def Nonterminal.layer : Nonterminal → Layer
  | sectionBody family | body family | item family | ifBlock family | elseIfClause family
  | elseClause family | whenBlock family | elseWhenClause family | forBlock family => .items family
  | equation => .items .equations
  | statement | whileBlock => .items .statements
  | storedDefinition | classDefinitionClause | classDefinition | longClassSpecifier | classBody
  | elements | element | namedElementClause | equationSection | algorithmSection => .classes
  | _ => .plain

namespace Layer

/-- The blocks that may be open while a rule of the layer runs. -/
def Admits : Layer → List OpenConstruct → Prop
  | plain, _ => True
  | items family, constructs => ∀ block ∈ constructs, block.category = family.category
  | classes, constructs => constructs = []

theorem admits_plain (constructs : List OpenConstruct) : plain.Admits constructs := True.intro

theorem admits_classes {constructs : List OpenConstruct} :
    classes.Admits constructs ↔ constructs = [] := Iff.rfl

theorem admits_items_nil (family : Family) : (items family).Admits [] := fun _ h => nomatch h

theorem admits_items_cons {family : Family} {block : OpenConstruct}
    {constructs : List OpenConstruct} : (items family).Admits (block :: constructs) ↔
      block.category = family.category ∧ (items family).Admits constructs :=
  List.forall_mem_cons

/-- The rules that a rule of the layer may call. -/
def Calls : Layer → Layer → Prop
  | plain, callee => callee = .plain
  | items family, callee => callee = .plain ∨ callee = .items family
  | classes, _ => True

end Layer

namespace Nonterminal

/-- What the caller has seen to: the keyword of a block or of a clause comes next, and a clause
keyword before an item is one that no open block claims. -/
def Seen : Nonterminal → Lookahead → Prop
  | item _, v | equation, v | statement, v => Unclaimed v.constructs v.kind
  | elseIfClause _, v => v.sees .elseifKw = true
  | elseClause _, v => v.sees .elseKw = true
  | elseWhenClause _, v => v.sees .elsewhenKw = true
  | keywordStatement kind, _ => kind = .breakStatement ∨ kind = .returnStatement
  | _, _ => True

/-- The rule may be called here. -/
structure Entered (rule : Nonterminal) (v : Lookahead) : Prop where
  admits : rule.layer.Admits v.constructs
  seen : rule.Seen v

theorem entered_iff {rule : Nonterminal} {v : Lookahead} :
    rule.Entered v ↔ rule.layer.Admits v.constructs ∧ rule.Seen v :=
  ⟨fun h => ⟨h.admits, h.seen⟩, fun h => ⟨h.1, h.2⟩⟩

theorem entered_storedDefinition {v : Lookahead} (h : v.constructs = []) :
    storedDefinition.Entered v :=
  ⟨h, True.intro⟩

end Nonterminal

/-- A diagnostic of a clause that no block takes. -/
def Diagnostic.IsOrphan (d : Diagnostic Spot) : Prop := d.code = .orphanClause

namespace Kind

/-- The block whose clause a node of this kind is. -/
def clauseParent? : Kind → Option Kind
  | .elseIfEquationClause | .elseEquationClause => some .ifEquation
  | .elseIfStatementClause | .elseStatementClause => some .ifStatement
  | .elseWhenEquationClause => some .whenEquation
  | .elseWhenStatementClause => some .whenStatement
  | _ => none

/-- The block that a node of this kind is, where such blocks own clauses. -/
def owner? : Kind → Option OpenConstruct
  | .ifEquation => some ⟨.ifBlock, .equation⟩
  | .ifStatement => some ⟨.ifBlock, .statement⟩
  | .whenEquation => some ⟨.whenBlock, .equation⟩
  | .whenStatement => some ⟨.whenBlock, .statement⟩
  | _ => none

end Kind

/-- What is asked of the steps of a rule. A diagnostic is at the place ahead; none is about an
ambiguous clause, and an orphan is a clause keyword that no open block claims. Around a block there
are only blocks of its own category, and a clause starts with a keyword of the block it is in. -/
@[simps] def Layer.demand (layer : Layer) : Demand where
  look v := layer.Admits v.constructs
  report v d := d.place = v.index ∧ d.code ≠ .ambiguousClause ∧
    (d.IsOrphan → layer ≠ .plain ∧ d.found = some v.kind ∧ (clauseOwner? v.kind).isSome ∧
      Unclaimed v.constructs v.kind)
  call v rule := rule.Entered v ∧ layer.Calls rule.layer
  wrap kind v p :=
    (∀ block, kind.owner? = some block → ∀ entry ∈ v.constructs, entry.category = block.category) ∧
    ∀ parent, kind.clauseParent? = some parent →
      clauseOwner? v.kind = parent.owner?.map (·.construct) ∧ ∃ q, p = .andThen .shift q
  whole _ := False

/-- Diagnostics are errors. The only warning is one about the end of a class, so this can be asked
where no rule for classes is called. -/
@[simps] def Demand.severe : Demand where
  look _ := True
  report _ d := d.isError = true
  call _ rule := rule.layer = .plain
  wrap _ _ _ := True
  whole _ := False

namespace Lookahead

/-- The same place with other blocks open. -/
@[simps] def withBlocks (v : Lookahead) (constructs : List OpenConstruct) : Lookahead :=
  { v with constructs }

section

variable (v : Lookahead) (constructs : List OpenConstruct)

@[simp] theorem withBlocks_nth (n : Nat) : (v.withBlocks constructs).nth n = v.nth n := (rfl)

@[simp] theorem withBlocks_kind : (v.withBlocks constructs).kind = v.kind := (rfl)

@[simp] theorem withBlocks_text : (v.withBlocks constructs).text = v.text := (rfl)

@[simp] theorem withBlocks_sees (k : Kind) : (v.withBlocks constructs).sees k = v.sees k := (rfl)

@[simp] theorem withBlocks_seesAny (ks : List Kind) :
    (v.withBlocks constructs).seesAny ks = v.seesAny ks := (rfl)

@[simp] theorem withBlocks_atEnd : (v.withBlocks constructs).atEnd = v.atEnd := (rfl)

@[simp] theorem withBlocks_found : (v.withBlocks constructs).found = v.found := (rfl)

@[simp] theorem withBlocks_atSectionBoundary :
    (v.withBlocks constructs).atSectionBoundary = v.atSectionBoundary := (rfl)

@[simp] theorem withBlocks_initialOpensSection :
    (v.withBlocks constructs).initialOpensSection = v.initialOpensSection := (rfl)

@[simp] theorem withBlocks_endIsExpression :
    (v.withBlocks constructs).endIsExpression = v.endIsExpression := (rfl)

@[simp] theorem withBlocks_atBlockEnd :
    (v.withBlocks constructs).atBlockEnd = v.atBlockEnd := (rfl)

@[simp] theorem withBlocks_atPrimaryStart :
    (v.withBlocks constructs).atPrimaryStart = v.atPrimaryStart := (rfl)

@[simp] theorem withBlocks_continuesChain :
    (v.withBlocks constructs).continuesChain = v.continuesChain := (rfl)

@[simp] theorem withBlocks_atNamedArgument :
    (v.withBlocks constructs).atNamedArgument = v.atNamedArgument := (rfl)

@[simp] theorem withBlocks_atCallEquation :
    (v.withBlocks constructs).atCallEquation = v.atCallEquation := (rfl)

@[simp] theorem withBlocks_chainHasSubscripts :
    (v.withBlocks constructs).chainHasSubscripts = v.chainHasSubscripts := (rfl)

@[simp] theorem withBlocks_classSpecifierKind :
    (v.withBlocks constructs).classSpecifierKind = v.classSpecifierKind := (rfl)

@[simp] theorem withBlocks_importKind :
    (v.withBlocks constructs).importKind = v.importKind := (rfl)

@[simp] theorem withBlocks_atClassDefinition :
    (v.withBlocks constructs).atClassDefinition = v.atClassDefinition := (rfl)

@[simp] theorem withBlocks_argumentHead :
    (v.withBlocks constructs).argumentHead = v.argumentHead := (rfl)

end

end Lookahead

/-- Rules of the layer cannot tell these blocks apart: who owns a clause among its items and which
blocks an `end` may close is the same. -/
def Layer.Alike : Layer → List OpenConstruct → List OpenConstruct → Prop
  | items family, constructs, constructs' =>
    (∀ k, resolveClause constructs k family.category =
      resolveClause constructs' k family.category) ∧
    ∀ k, (constructs.any fun block => block.construct.endKeyword == k) =
      constructs'.any fun block => block.construct.endKeyword == k
  | _, _, _ => True

namespace Production

/-- What the production does is the same for blocks that are alike. Calls answer for themselves. -/
@[simp] def Respects (alike : List OpenConstruct → List OpenConstruct → Prop) : Production → Prop
  | done | shift | report _ | call _ => True
  | andThen p q | nested p q => p.Respects alike ∧ q.Respects alike
  | group p | wrap _ p | inContext _ p | opening _ p => p.Respects alike
  | look next =>
    (∀ v constructs, alike v.constructs constructs → next (v.withBlocks constructs) = next v) ∧
    ∀ v, (next v).Respects alike
  | many continues item =>
    (∀ v constructs, alike v.constructs constructs →
      continues (v.withBlocks constructs) = continues v) ∧
    ∀ before, (item before).Respects alike

variable {alike : List OpenConstruct → List OpenConstruct → Prop} {p q : Production}
  {ps : List Production}

@[simp] theorem respects_ite {c : Prop} [Decidable c] : (if c then p else q).Respects alike ↔
    (c → p.Respects alike) ∧ (¬ c → q.Respects alike) := by
  split <;> simp [*]

@[simp] theorem respects_seq_nil : (seq []).Respects alike := True.intro

@[simp] theorem respects_seq_cons :
    (seq (p :: ps)).Respects alike ↔ p.Respects alike ∧ (seq ps).Respects alike := by
  cases ps with
  | nil => exact (and_iff_left True.intro).symm
  | cons q qs => exact Iff.rfl

@[simp] theorem respects_shifts (n : Nat) : (shifts n).Respects alike := by
  induction n with
  | zero => exact True.intro
  | succ n ih => exact ⟨True.intro, ih⟩

end Production

end Modelica
