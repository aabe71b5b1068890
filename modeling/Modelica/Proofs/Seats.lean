import Modelica.Proofs.Layers

/-!
# Where nodes are put

A clause belongs into the node of its block. Which nodes a production puts where is read off the
production: trees go into a group, and a node is put over all trees of the group, most often before
the group has any.
-/

namespace Modelica

/-- What a production has to put nodes over. -/
inductive Room where
  /-- The group of some production around. -/
  | outside
  /-- A group of its own without trees. -/
  | fresh
  /-- A group of its own that may have trees. -/
  | used
  deriving DecidableEq

/-- The room after a step. -/
def Room.next : Room → Room
  | outside => outside
  | fresh | used => used

/-- The node that a rule for a clause goes into. -/
def Nonterminal.clauseParent? : Nonterminal → Option Kind
  | elseIfClause family | elseClause family => some family.ifKind
  | elseWhenClause family => some family.whenKind
  | _ => none

namespace Kind

/-- The kind itself, if clauses may go into such a node. -/
def host? (k : Kind) : Option Kind := if k.owner?.isSome then some k else none

/-- A node of this kind may be put here, where the trees go into a node of the kind `under`. A node
of a block or of a clause is put over a group without trees, and so is any node where clauses may
stand. -/
structure Seated (k : Kind) (under : Option Kind) (room : Room) : Prop where
  inside : room ≠ .outside
  parent : ∀ parent, k.clauseParent? = some parent → under = some parent
  alone : room = .used → under = none ∧ k.owner? = none

namespace Seated

variable {k : Kind} {under : Option Kind} {room : Room}

theorem fresh_of_clause (h : k.Seated under room) {parent : Kind}
    (hk : k.clauseParent? = some parent) : room = .fresh := by
  cases room with
  | fresh => rfl
  | outside => exact absurd rfl h.inside
  | used =>
    have hu := h.parent parent hk
    rw [(h.alone rfl).1] at hu
    cases hu

theorem fresh_of_block (h : k.Seated under room) {block : OpenConstruct}
    (hk : k.owner? = some block) : room = .fresh := by
  cases room with
  | fresh => rfl
  | outside => exact absurd rfl h.inside
  | used => rw [(h.alone rfl).2] at hk; cases hk

end Seated

theorem seated_iff {k : Kind} {under : Option Kind} {room : Room} : k.Seated under room ↔
    room ≠ .outside ∧ (∀ parent, k.clauseParent? = some parent → under = some parent) ∧
      (room = .used → under = none ∧ k.owner? = none) :=
  ⟨fun h => ⟨h.inside, h.parent, h.alone⟩, fun h => ⟨h.1, h.2.1, h.2.2⟩⟩

end Kind

/-- No diagnostic is about an orphan. A stray clause is judged as a whole. -/
@[simps] def Demand.quiet : Demand where
  look _ := True
  report _ d := ¬ d.IsOrphan
  call _ _ := True
  wrap _ _ _ := True
  whole p := ∃ family, p = Grammar.strayClause family

namespace Production

/-- What a production does where it finds `v` ahead. -/
def lookAt (v : Lookahead) : Production → Production
  | look next => next v
  | p => p

/-- The node of an `if` or `when` block is put over this production. -/
def IsBlockBody (kind : Kind) (p : Production) : Prop :=
  ∃ family start, (Grammar.ifBlock family).lookAt start = group (wrap kind p) ∨
    (Grammar.whenBlock family).lookAt start = group (wrap kind p)

/-- Nodes of clauses go into nodes of the kind `under` only, and nodes of blocks over the bodies of
blocks. -/
@[simp] def Tidy : Production → Option Kind → Room → Prop
  | done, _, _ | shift, _, _ | report _, _, _ => True
  | andThen p q, under, room => p.Tidy under room ∧ q.Tidy under room.next
  | group p, under, _ => p.Tidy under .fresh
  | wrap kind p, under, room =>
    kind.Seated under room ∧ (kind.owner?.isSome → IsBlockBody kind p) ∧ p.Tidy kind.host? room
  | look next, under, room => ∀ v, (next v).Tidy under room
  | many _ item, under, room => ∀ before, (item before).Tidy under room.next
  | call rule, under, _ => ∀ parent, rule.clauseParent? = some parent → under = some parent
  | inContext _ p, under, room | opening _ p, under, room => p.Tidy under room
  | nested p q, under, room => p.Tidy under room ∧ q.Tidy under room

variable {p q : Production} {ps : List Production} {kind : Kind} {under : Option Kind} {room : Room}

@[simp] theorem tidy_ite {c : Prop} [Decidable c] : (if c then p else q).Tidy under room ↔
    (c → p.Tidy under room) ∧ (¬ c → q.Tidy under room) := by
  split <;> simp [*]

@[simp] theorem tidy_seq_nil : (seq []).Tidy under room := True.intro

@[simp] theorem tidy_seq_cons : (seq (p :: ps)).Tidy under room ↔
    p.Tidy under room ∧ (seq ps).Tidy under room.next := by
  cases ps with
  | nil => exact (and_iff_left True.intro).symm
  | cons q qs => exact Iff.rfl

@[simp] theorem tidy_shifts (n : Nat) : (shifts n).Tidy under room := by
  induction n generalizing room with
  | zero => exact True.intro
  | succ n ih => exact ⟨True.intro, ih⟩

end Production

end Modelica
