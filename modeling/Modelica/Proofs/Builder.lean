import Modelica.Builder

/-!
# The steps of the tree builder

What each step leaves as it is, and when it does not trip.
-/

namespace Modelica

/-- The stacks, the counter and the open nodes of one state are those of the other. -/
structure Builder.Restores (b b' : Builder) : Prop where
  nodes : b'.nodes = b.nodes
  contexts : b'.contexts = b.contexts
  constructs : b'.constructs = b.constructs
  depth : b'.depth = b.depth
  limit : b'.limit = b.limit

namespace Builder

variable {b m b' : Builder}

theorem Restores.refl (b : Builder) : b.Restores b := ⟨rfl, rfl, rfl, rfl, rfl⟩

theorem Restores.trans (h : b.Restores m) (h' : m.Restores b') : b.Restores b' :=
  ⟨h'.nodes.trans h.nodes, h'.contexts.trans h.contexts, h'.constructs.trans h.constructs,
    h'.depth.trans h.depth, h'.limit.trans h.limit⟩

/-- Flushing adds the gap as it stands in the tree, and that never trips. -/
theorem flush_eq (b : Builder) : b.flush = some { b with
    finished := (Tree.gap b.pending).reverse ++ b.finished,
    pending := Tree.afterGap b.pending } := by
  have hadd : ∀ (c : Builder) (t : Token), c.addGapToken t =
      some { c with finished := Tree.ofGapToken t :: c.finished } := by
    intro c t
    unfold addGapToken Tree.ofGapToken
    split
    · simp [openNode, add, closeNode]
    · rfl
  have hall : ∀ (ts : List Token) (c : Builder), ts.foldlM addGapToken c =
      some { c with finished := (ts.map Tree.ofGapToken).reverse ++ c.finished } := by
    intro ts
    induction ts with
    | nil => intro c; rfl
    | cons t ts ih =>
      intro c
      simp only [List.foldlM_cons, hadd, Option.bind_eq_bind, Option.bind_some, ih]
      simp
  simp only [flush, hall, Option.bind_eq_bind, Option.bind_some, Tree.gap]

theorem restores_of_flush (h : b.flush = some b') : b.Restores b' := by
  rw [flush_eq] at h
  cases h
  exact ⟨rfl, rfl, rfl, rfl, rfl⟩

theorem restores_of_flushLeading (h : b.flushLeading = some b') : b.Restores b' := by
  unfold flushLeading at h
  split at h
  · exact restores_of_flush h
  · cases h
    exact .refl _

theorem look_of_flushLeading (h : b.flushLeading = some b') : b'.look = b.look := by
  unfold flushLeading at h
  split at h
  · rw [flush_eq] at h
    cases h
    rfl
  · cases h
    rfl

theorem restores_of_read (h : b.read = some b') : b.Restores b' := by
  unfold read at h
  split at h
  · cases h
    exact .refl _
  · simp only [flush_eq, Option.bind_eq_bind, Option.bind_some] at h
    split at h
    · cases h
    · cases h
      exact ⟨rfl, rfl, rfl, rfl, rfl⟩

theorem ahead_of_read (h : b.read = some b') : b'.ahead = b.ahead.tail := by
  unfold read at h
  split at h
  · rename_i hb
    cases h
    rw [hb]
    rfl
  · rename_i hb
    simp only [flush_eq, Option.bind_eq_bind, Option.bind_some] at h
    split at h
    · cases h
    · cases h
      rw [hb]
      rfl

/-- Closing takes one node off and nothing else. -/
theorem nodes_of_closeNode (h : b.closeNode = some b') :
    b'.nodes = b.nodes.tail ∧ b'.contexts = b.contexts ∧ b'.constructs = b.constructs ∧
      b'.depth = b.depth ∧ b'.limit = b.limit := by
  unfold closeNode at h
  split at h
  · cases h
  · rename_i hn
    split at h
    · cases h
      exact ⟨by rw [hn]; rfl, rfl, rfl, rfl, rfl⟩
    · cases h

theorem nodes_of_close (h : b.close = some b') :
    b'.nodes = b.nodes.tail ∧ b'.contexts = b.contexts ∧ b'.constructs = b.constructs ∧
      b'.depth = b.depth ∧ b'.limit = b.limit := by
  unfold close at h
  split at h
  · simp only [flush_eq, Option.bind_eq_bind, Option.bind_some] at h
    obtain ⟨hn, hx, hb, hd, hl⟩ := nodes_of_closeNode h
    exact ⟨hn, hx, hb, hd, hl⟩
  · exact nodes_of_closeNode h

theorem openAt_eq {mark : Nat} {k : Kind} (h : b.openAt mark k = some b') :
    b' = { b with nodes := (k, mark) :: b.nodes } := by
  unfold openAt at h
  split at h
  · exact (Option.some.inj h).symm
  · cases h

end Builder

end Modelica
