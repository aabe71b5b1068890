import Modelica.Proofs.BlockEnds
import Modelica.Proofs.Perches

/-!
# Clauses belong to the nearest block

A clause is a child of a block that may have it. Blocks of the same kind may have been left without
an `end` before it, but not right before it: such a block would have taken the clause.

* `Tree.Attached`: what is said of a tree;
* `Runs.housed`: a run puts clauses into nodes of their blocks;
* `Runs.followed`: no block without an `end` comes right before a clause it could take;
* `Tree.Housed.attached`: the two together say that clauses are attached;
* `Tree.attached_of_strip`: trivia and bad tokens do not matter.
-/

namespace Modelica

namespace Tree

/-- The block that the tree is a clause of, if it is a clause. -/
def clauseOf? : Tree → Option Kind
  | leaf _ => none
  | node k _ => k.clauseParent?

/-- One of the trees is an `end`. -/
def HasEnd (ts : List Tree) : Prop := ∃ t, t.kind = .endKw ∧ leaf t ∈ ts

/-- The tree is one of several or below one of them, and after it comes no significant token. -/
inductive Last (t : Tree) : List Tree → Prop
  | here {before after : List Tree} : Token.significant (leavesOf after) = [] →
      Last t (before ++ t :: after)
  | inside {before after cs : List Tree} {k : Kind} : Token.significant (leavesOf after) = [] →
      Last t cs → Last t (before ++ node k cs :: after)

/-- Every clause is a child of a block that may have it, and any such block that ends right before
the clause, however deep it is, has an `end`. -/
inductive Attached : Tree → Prop
  | leaf (t : Token) : Attached (leaf t)
  | node {k : Kind} {cs : List Tree} :
      (∀ before clause after parent, cs = before ++ clause :: after →
        clause.clauseOf? = some parent →
        k = parent ∧ ∀ ds, Last (node parent ds) before → HasEnd ds) →
      (∀ c ∈ cs, Attached c) → Attached (node k cs)

/-- The tree may be a child of a node where clauses of the block `under` may stand. -/
def Fits (under : Option Kind) (t : Tree) : Prop :=
  ∀ parent, t.clauseOf? = some parent → under = some parent

/-- Every clause below the tree is a child of a block that may have it. -/
inductive Housed : Tree → Prop
  | leaf (t : Token) : Housed (leaf t)
  | node {k : Kind} {cs : List Tree} : (∀ c ∈ cs, c.Fits k.host?) → (∀ c ∈ cs, Housed c) →
      Housed (node k cs)

end Tree

@[simp] theorem Room.next_next (room : Room) : room.next.next = room.next := by cases room <;> rfl

theorem Room.next_ne_fresh (room : Room) : room.next ≠ .fresh := by cases room <;> nofun

theorem Room.ne_outside_of_next {room : Room} (h : room.next ≠ .outside) : room ≠ .outside := by
  rintro rfl
  exact h rfl

/-- Nodes of clauses go into nodes of the kind `under` only. -/
def Task.Tidy : Task → Option Kind → Room → Prop
  | of p, under, room => p.Tidy under room
  | rest continues item _, under, room => (Production.many continues item).Tidy under room

/-- What is left of a repetition may meet trees that it has built. -/
theorem Task.Tidy.next {continues : Lookahead → Bool} {item : Option Lookahead → Production}
    {before : Option Lookahead} {under : Option Kind} {room : Room}
    (h : (rest continues item before).Tidy under room) (before' : Option Lookahead) :
    (rest continues item before').Tidy under room.next := by
  simpa [Tidy] using h

namespace Runs

variable {allowed : Diagnostic Spot → Prop} {task : Task} {env : Surroundings} {r r' : Reading}
  {layer : Layer} {under : Option Kind} {room : Room}

/-- What a run builds fits where it is put. A group of its own must fit too where it has trees
already, since a node may still be put over them. -/
theorem housed (h : Runs allowed task env r r') (hm : task.Meets layer.demand (r.look env))
    (ht : task.Tidy under room) (hf : room = .fresh → r.built = [])
    (hb : room ≠ .outside → ∀ t ∈ r.built, t.Fits under ∧ t.Housed) :
    ∀ t ∈ r'.built, t ∈ r.built ∨ t.Fits under ∧ t.Housed := by
  induction h generalizing layer under room with
  | done | stop _ => exact fun _ => .inl
  | @andThen _ _ _ r m _ _ _ ihp ihq =>
    have hp := ihp hm.1 ht.1 hf hb
    intro t hmem
    refine (ihq (hm.2 _ _) ht.2 (absurd · room.next_ne_fresh) (fun ho t hmem => ?_) t hmem).elim
      (hp t) .inr
    exact (hp t hmem).elim (hb (Room.ne_outside_of_next ho) t) id
  | @shift env r =>
    cases ha : r.ahead with
    | nil => rw [Reading.shift_nil ha]; exact fun _ => .inl
    | cons t ts =>
      rw [Reading.shift_cons ha]
      refine List.forall_mem_cons.mpr ⟨.inr ⟨nofun, .leaf t⟩, fun _ => .inl⟩
  | group _ ih =>
    intro t hmem
    refine (List.mem_append.mp hmem).elim (fun hmem => .inr ?_) .inl
    exact (ih hm ht (fun _ => rfl) (fun _ _ h => nomatch h) t hmem).resolve_left (nomatch ·)
  | @wrap k p env r m _ ih =>
    obtain ⟨hs, -, hp⟩ := ht
    -- The node takes in what the group has: nothing if clauses may stand in the node.
    have start : ∀ t ∈ r.built, t.Fits k.host? ∧ t.Housed := by
      cases room with
      | outside => exact absurd rfl hs.inside
      | fresh => rw [hf rfl]; exact fun _ h => nomatch h
      | used =>
        obtain ⟨rfl, hk⟩ := hs.alone rfl
        have hn : k.host? = none := by simp [Kind.host?, hk]
        rw [hn]
        exact hb nofun
    have inner : ∀ t ∈ m.built, t.Fits k.host? ∧ t.Housed := fun t hmem =>
      (ih hm.2 hp hf (fun _ => start) t hmem).elim (start t) id
    refine List.forall_mem_singleton.mpr (.inr ⟨hs.parent, .node ?_ ?_⟩)
    · exact fun c hc => (inner c (List.mem_reverse.mp hc)).1
    · exact fun c hc => (inner c (List.mem_reverse.mp hc)).2
  | look _ ih => exact ih (hm.2 id) (ht _) hf hb
  | many _ ih | inContext _ ih | opening _ ih => exact ih hm ht hf hb
  | @turn _ _ before _ r m _ hc _ _ ihi ihr =>
    have hfresh : room.next = .fresh → m.built = [] := (absurd · room.next_ne_fresh)
    have hi := ihi ((hm _ _).2 hc _) (ht _) (absurd · room.next_ne_fresh)
      fun ho => hb (Room.ne_outside_of_next ho)
    intro t hmem
    refine (ihr hm (Task.Tidy.next ht _) hfresh (fun ho t hmem => ?_) t hmem).elim (hi t) .inr
    exact (hi t hmem).elim (hb (Room.ne_outside_of_next ho) t) id
  | @call rule _ _ _ _ ih =>
    intro t hmem
    have hr := ih (Nonterminal.layer_production hm.1) (Nonterminal.tidy_production hm.1.seen) nofun
      (absurd rfl) t hmem
    exact hr.imp_right fun ⟨hfit, hh⟩ => ⟨fun parent hp => ht parent (hfit parent hp), hh⟩
  | report _ => rw [Reading.report_built]; exact fun _ => .inl
  | within _ _ ih => exact ih hm.1 ht.1 hf hb
  | beyond _ _ ih => exact ih hm.2 ht.2 hf hb

end Runs

/-! ## What follows a block -/

namespace Tree

mutual

/-- Every clause below the tree starts with its keyword, and every block below it has an `end` or is
not before a clause it could take. The tokens `after` follow the tree. -/
def Followed (after : List Token) : Tree → Prop
  | leaf _ => True
  | node k cs =>
    (∀ parent, k.clauseParent? = some parent →
      clauseOwner? (Token.headKind (leavesOf cs)) = parent.owner?.map (·.construct)) ∧
    (∀ block, k.owner? = some block →
      HasEnd cs ∨ clauseOwner? (Token.headKind after) ≠ some block.construct) ∧
    AllFollowed after cs

def AllFollowed (after : List Token) : List Tree → Prop
  | [] => True
  | c :: cs => Followed (leavesOf cs ++ after) c ∧ AllFollowed after cs

end

theorem allFollowed_append {after : List Token} {cs ds : List Tree} :
    AllFollowed after (cs ++ ds) ↔
      AllFollowed (leavesOf ds ++ after) cs ∧ AllFollowed after ds := by
  induction cs with
  | nil => exact (and_iff_right True.intro).symm
  | cons c cs ih => simp [AllFollowed, ih, and_assoc]

end Tree

namespace Runs

variable {allowed : Diagnostic Spot → Prop} {task : Task} {env : Surroundings} {r r' : Reading}
  {layer : Layer} {under : Option Kind} {room : Room}

/-- What is built over a group that starts with a token starts with this token. -/
theorem headKind_leaves {q : Production} (h : Runs allowed (.of (.andThen .shift q)) env r r')
    (hb : r.built = []) :
    Token.headKind (Tree.leavesOf r'.built.reverse) = Token.headKind r.ahead := by
  obtain ⟨m, hm, hq⟩ := runs_andThen.mp h
  have hl : Tree.leavesOf r'.built.reverse ++ r'.ahead = r.ahead := by
    simpa [Reading.tokens, hb] using h.leaves
  cases ha : r.ahead with
  | nil => rw [(List.append_eq_nil_iff.mp (hl.trans ha)).1]
  | cons t ts =>
    have hle := hq.leads.length_le
    rw [runs_shift.mp hm, Reading.shift_cons ha] at hle
    cases hc : Tree.leavesOf r'.built.reverse with
    | nil =>
      rw [hc, List.nil_append, ha] at hl
      rw [hl] at hle
      exact absurd hle (Nat.not_succ_le_self _)
    | cons u us =>
      rw [hc, ha] at hl
      rw [(List.cons.inj hl).1]
      rfl

/-- A run keeps what is known about the blocks that have been read. What follows them is the same
all along, as tokens only go from those ahead into trees. -/
theorem followed (h : Runs allowed task env r r') (hm : task.Meets layer.demand (r.look env))
    (ht : task.Tidy under room) (hf : room = .fresh → r.built = [])
    (hb : Tree.AllFollowed r.ahead r.built.reverse) :
    Tree.AllFollowed r'.ahead r'.built.reverse := by
  induction h generalizing layer under room with
  | done | stop _ => exact hb
  | andThen _ _ ihp ihq =>
    exact ihq (hm.2 _ _) ht.2 (absurd · room.next_ne_fresh) (ihp hm.1 ht.1 hf hb)
  | @shift env r =>
    cases ha : r.ahead with
    | nil => rw [Reading.shift_nil ha]; exact hb
    | cons t ts =>
      rw [Reading.shift_cons ha, List.reverse_cons, Tree.allFollowed_append]
      exact ⟨by rwa [ha] at hb, True.intro, True.intro⟩
  | @group p env r m hp ih =>
    have hl : Tree.leavesOf m.built.reverse ++ m.ahead = r.ahead := by
      simpa [Reading.tokens] using hp.leaves
    rw [List.reverse_append, Tree.allFollowed_append]
    exact ⟨hl ▸ hb, ih hm ht (fun _ => rfl) True.intro⟩
  | @wrap k p env r m hp ih =>
    obtain ⟨hs, hbody, hp'⟩ := ht
    refine ⟨⟨fun parent hk => ?_, fun block hk => ?_, ih hm.2 hp' hf hb⟩, True.intro⟩
    · obtain ⟨ho, q, rfl⟩ := hm.1.2 parent hk
      rw [hp.headKind_leaves (hf (hs.fresh_of_clause hk))]
      exact ho
    · exact (hp.blockBody_left (hbody (by simp [hk])) hk).imp_left <|
        Exists.imp fun t h => ⟨h.1, List.mem_reverse.mpr h.2⟩
  | look _ ih => exact ih (hm.2 id) (ht _) hf hb
  | many _ ih | inContext _ ih | opening _ ih => exact ih hm ht hf hb
  | turn hc _ _ ihi ihr =>
    refine ihr hm (Task.Tidy.next ht _) (absurd · room.next_ne_fresh) ?_
    exact ihi ((hm _ _).2 hc _) (ht _) (absurd · room.next_ne_fresh) hb
  | call _ ih =>
    exact ih (Nonterminal.layer_production hm.1) (Nonterminal.tidy_production hm.1.seen)
      (fun h => absurd h (by decide)) hb
  | report _ => simpa using hb
  | within _ _ ih => exact ih hm.1 ht.1 hf hb
  | beyond _ _ ih => exact ih hm.2 ht.2 hf hb

end Runs

/-! ## Clauses are attached -/

namespace Kind

theorem exists_owner_of_clauseParent {k parent : Kind} (h : k.clauseParent? = some parent) :
    ∃ block, parent.owner? = some block := by
  revert h
  cases k <;> simp [clauseParent?] <;> rintro rfl <;> exact ⟨_, rfl⟩

theorem eq_of_host {k parent : Kind} (h : k.host? = some parent) : k = parent := by
  unfold host? at h
  split at h
  · exact Option.some.inj h
  · cases h

end Kind

namespace Tree

theorem AllFollowed.of_mem {after : List Token} {cs : List Tree} {c : Tree}
    (h : AllFollowed after cs) (hc : c ∈ cs) : ∃ after', Followed after' c := by
  obtain ⟨before, rest, rfl⟩ := List.append_of_mem hc
  exact ⟨_, (allFollowed_append.mp h).2.1⟩

/-- What follows the last trees follows what is last in them. -/
theorem Last.followed {t : Tree} {ts : List Tree} {after : List Token} (h : Last t ts)
    (hs : ∀ u ∈ leavesOf ts, u.isSignificant = true) (hf : AllFollowed after ts) :
    Followed after t := by
  have nothing : ∀ {us : List Tree}, (∀ u ∈ leavesOf us, u.isSignificant = true) →
      Token.significant (leavesOf us) = [] → leavesOf us = [] := fun hu he =>
    (List.filter_eq_self.mpr hu).symm.trans he
  induction h with
  | here he =>
    simp only [leavesOf_append, leavesOf_cons, List.mem_append] at hs
    have hc := (allFollowed_append.mp hf).2.1
    rwa [nothing (fun u hu => hs u (.inr (.inr hu))) he, List.nil_append] at hc
  | inside he _ ih =>
    simp only [leavesOf_append, leavesOf_cons, leaves_node, List.mem_append] at hs
    have hc := (allFollowed_append.mp hf).2.1.2.2
    rw [nothing (fun u hu => hs u (.inr (.inr hu))) he, List.nil_append] at hc
    exact ih (fun u hu => hs u (.inr (.inl hu))) hc

/-- Where clauses are in nodes of their blocks and no block without an `end` is before a clause it
could take, all clauses are attached. -/
theorem Housed.attached {t : Tree} {after : List Token} (h : t.Housed)
    (hs : ∀ u ∈ t.leaves, u.isSignificant = true) (hf : t.Followed after) : t.Attached := by
  induction h generalizing after with
  | leaf t => exact .leaf t
  | @node k cs hfit _ ih =>
    obtain ⟨-, -, hcs⟩ := hf
    refine .node ?_ fun c hc => ?_
    · rintro before clause rest parent rfl hp
      have hk := Kind.eq_of_host (hfit clause (by simp) parent hp)
      refine ⟨hk, fun ds hl => ?_⟩
      cases clause with
      | leaf t => cases hp
      | node kc cc =>
        obtain ⟨block, ho⟩ := Kind.exists_owner_of_clauseParent hp
        obtain ⟨hbefore, hclause, -⟩ := allFollowed_append.mp hcs
        have hd := hl.followed (fun u hu => hs u (by simp [hu])) hbefore
        refine (hd.2.1 block ho).resolve_right fun hn => hn ?_
        -- The clause starts with a keyword that the block owns, and this keyword comes next.
        have hown := hclause.1 parent hp
        rw [ho, Option.map_some] at hown
        cases hcc : leavesOf cc with
        | nil => rw [hcc] at hown; cases hown
        | cons u us => rw [hcc] at hown; simpa [hcc, Token.headKind] using hown
    · obtain ⟨after', hc'⟩ := hcs.of_mem hc
      obtain ⟨before, rest, rfl⟩ := List.append_of_mem hc
      exact ih c hc (fun u hu => hs u (by simp [hu])) hc'

theorem leaf_mem_of_stripAll {cs : List Tree} {t : Token} (h : leaf t ∈ stripAll cs) :
    leaf t ∈ cs := by
  induction cs with
  | nil => exact h
  | cons c cs ih =>
    unfold stripAll at h
    split at h
    · exact .tail _ (ih h)
    · refine List.mem_cons.mpr ((List.mem_cons.mp h).imp (fun he => ?_) ih)
      cases c with
      | leaf u => exact he
      | node k ds => cases he

theorem clauseOf?_strip (t : Tree) : t.strip.clauseOf? = t.clauseOf? := by cases t <;> rfl

theorem Last.exists_node {k : Kind} {ds ts : List Tree} (h : Last (node k ds) ts) :
    ∃ l cs, node l cs ∈ ts := by
  cases h with
  | here => exact ⟨k, ds, by simp⟩
  | inside => exact ⟨_, _, List.mem_append_right _ List.mem_cons_self⟩

theorem Last.strip {k : Kind} {ds ts : List Tree} (hk : k ≠ .error) (h : Last (node k ds) ts) :
    Last (node k (stripAll ds)) (stripAll ts) := by
  induction h with
  | here he =>
    rw [stripAll_append_cons (isBadToken_of_ne hk ds)]
    exact .here ((significant_leavesOf_stripAll _).trans he)
  | @inside before after cs l he hl ih =>
    have hb : (node l cs).isBadToken = false := by
      unfold isBadToken
      split
      · -- The only tree in a node around a bad token is a leaf.
        rename_i he
        cases he
        obtain ⟨_, _, hmem⟩ := hl.exists_node
        cases List.mem_singleton.mp hmem
      · rfl
    rw [stripAll_append_cons hb]
    exact .inside ((significant_leavesOf_stripAll _).trans he) ih

theorem attached_of_stripped {c : Tree} (h : (c.isTriviaLeaf || c.isBadToken) = true) :
    c.Attached := by
  rw [Bool.or_eq_true] at h
  rcases h with h | h
  · cases c with
    | leaf t => exact .leaf t
    | node k cs => cases h
  · unfold isBadToken at h
    split at h
    · rename_i t
      refine .node (fun before clause after parent he hp => ?_) ?_
      · have hmem : clause ∈ [leaf t] := he ▸ List.mem_append_right _ List.mem_cons_self
        rw [List.mem_singleton.mp hmem] at hp
        cases hp
      · exact List.forall_mem_singleton.mpr (.leaf t)
    · cases h

mutual

/-- Clauses are attached when they are without trivia and bad tokens. -/
theorem attached_of_strip : ∀ t : Tree, t.strip.Attached → t.Attached
  | leaf t, _ => .leaf t
  | node k cs, .node hc ha => by
    refine .node ?_ (attached_of_stripAll cs ha)
    rintro before clause after parent rfl hp
    cases clause with
    | leaf t => cases hp
    | node kc cc =>
      have hkc : kc ≠ .error := by rintro rfl; cases hp
      have hparent : parent ≠ .error := by
        rintro rfl
        obtain ⟨_, ho⟩ := Kind.exists_owner_of_clauseParent hp
        cases ho
      obtain ⟨hk, hend⟩ := hc _ _ _ parent
        (stripAll_append_cons (isBadToken_of_ne hkc cc)) hp
      refine ⟨hk, fun ds hl => ?_⟩
      obtain ⟨t, ht, hmem⟩ := hend _ (hl.strip hparent)
      exact ⟨t, ht, leaf_mem_of_stripAll hmem⟩

theorem attached_of_stripAll : ∀ cs : List Tree, (∀ c ∈ stripAll cs, c.Attached) →
    ∀ c ∈ cs, c.Attached
  | [], _ => fun _ h => nomatch h
  | c :: cs, ha => by
    unfold stripAll at ha
    split at ha
    · rename_i hs
      exact List.forall_mem_cons.mpr ⟨attached_of_stripped hs, attached_of_stripAll cs ha⟩
    · obtain ⟨hc, hcs⟩ := List.forall_mem_cons.mp ha
      exact List.forall_mem_cons.mpr ⟨attached_of_strip c hc, attached_of_stripAll cs hcs⟩

end

end Tree

end Modelica
