import Modelica.Proofs.Resolution
import Modelica.Proofs.Sheltered

/-!
# How a block is left

When the clauses of an `if` or `when` block have been read, none of its own comes next. What is left
of the block reads its `end`, or reads nothing. So a block without an `end` is never before a clause
that it could have taken.
-/

namespace Modelica

variable {allowed : Diagnostic Spot → Prop} {env : Surroundings} {r r' : Reading}

/-- Where no node is opened in the open, a run adds trees and changes none. -/
theorem Runs.built_suffix {task : Task} (h : Runs allowed task env r r')
    (ht : task.Sheltered false) : r.built <:+ r'.built := by
  induction h with
  | done | stop _ => exact List.suffix_rfl
  | andThen _ _ ihp ihq => exact (ihp ht.1).trans (ihq ht.2)
  | @shift env r =>
    cases ha : r.ahead with
    | nil => simp [Reading.shift_nil ha]
    | cons t ts => simp [Reading.shift_cons ha]
  | group _ _ => exact List.suffix_append _ _
  | wrap _ _ => exact absurd ht.1 Bool.false_ne_true
  | look _ ih => exact ih (ht _)
  | many _ ih | inContext _ ih | opening _ ih => exact ih ht
  | turn _ _ _ ihi ihr => exact (ihi (ht _)).trans (ihr ht)
  | @call rule _ _ _ _ ih => exact ih rule.production_sheltered
  | report _ => exact (Reading.report_built _ _).symm ▸ List.suffix_rfl
  | within _ _ ih => exact ih ht.1
  | beyond _ _ ih => exact ih ht.2

/-- A token that is read in the open stays a tree of its own. -/
theorem Runs.leaf_mem {q : Production} {t : Token} {ts : List Token}
    (h : Runs allowed (.of (.andThen .shift q)) env r r') (hq : q.Sheltered false)
    (ha : r.ahead = t :: ts) : .leaf t ∈ r'.built := by
  obtain ⟨m, hm, h⟩ := runs_andThen.mp h
  refine (h.built_suffix hq).subset ?_
  rw [runs_shift.mp hm, Reading.shift_cons ha]
  exact List.mem_cons_self

theorem Token.exists_cons_of_headKind {ts : List Token} {k : Kind} (h : headKind ts = k)
    (hk : k ≠ .endOfInput) : ∃ t rest, ts = t :: rest ∧ t.kind = k := by
  cases ts with
  | nil => exact absurd h.symm hk
  | cons t rest => exact ⟨t, rest, rfl, h⟩

/-- The `end` of a block is read, or nothing is. -/
theorem Runs.finishBlock {construct : Construct} {opened : Spot}
    (h : Runs allowed (.of (Grammar.finishBlock construct opened)) env r r') :
    (∃ t, t.kind = .endKw ∧ .leaf t ∈ r'.built) ∨ r'.ahead = r.ahead := by
  have missing : ∀ {r r' : Reading}, Runs allowed
      (.of (Grammar.missingBlockEnd construct.endKeyword opened)) env r r' →
      r'.ahead = r.ahead := by
    intro r r' h
    obtain ⟨-, rfl⟩ := runs_report.mp (runs_look.mp h)
    exact Reading.report_ahead _ _
  have read : ∀ {r r' : Reading}, Token.headKind r.ahead = .endKw → Runs allowed
      (.of (.seq [.shifts 2, .seq [.call .comment, .expect .semicolon]])) env r r' →
      ∃ t, t.kind = .endKw ∧ .leaf t ∈ r'.built := by
    intro r r' hk h
    obtain ⟨t, ts, ha, ht⟩ := Token.exists_cons_of_headKind hk nofun
    obtain ⟨m, hm, h⟩ := runs_seq_cons.mp h
    have hl := hm.leaf_mem (by simp) ha
    have hs : Task.Sheltered false
        (.of (.seq [.seq [.call .comment, .expect .semicolon]])) := by
      simp [Task.Sheltered, Production.expect, Production.missing]
    exact ⟨t, ht, (h.built_suffix hs).subset hl⟩
  replace h := runs_look.mp h
  split at h
  · exact .inr (missing h)
  · rename_i hk
    replace hk : Token.headKind r.ahead = .endKw := by
      simpa [Reading.look, Lookahead.sees, Lookahead.kind] using hk
    split at h
    · exact .inl (read hk h)
    · split at h
      · exact .inr (missing h)
      · obtain ⟨m, hm, h⟩ := runs_andThen.mp h
        obtain ⟨-, rfl⟩ := runs_report.mp hm
        exact .inl (read (by simpa using hk) h)

section

variable {kind : Kind} {p : Production}

/-- The innermost block takes its own clauses. -/
theorem Lookahead.clauseAttaches_of_owner {v : Lookahead} {block : OpenConstruct}
    {rest : List OpenConstruct} (hv : v.constructs = block :: rest)
    (hk : clauseOwner? v.kind = some block.construct) : v.clauseAttaches block.category = true := by
  simp [clauseAttaches, isClauseKeyword, hk, clauseResolution, hv, resolveClause_cons_self hk]

theorem clauseOwner?_eq_ifBlock {k : Kind} (h : clauseOwner? k = some .ifBlock) :
    k = .elseifKw ∨ k = .elseKw := by
  revert h
  cases k <;> simp [clauseOwner?]

theorem clauseOwner?_eq_whenBlock {k : Kind} (h : clauseOwner? k = some .whenBlock) :
    k = .elsewhenKw := by
  revert h
  cases k <;> simp [clauseOwner?]

/-- The body of a block: its head, its items and clauses, and its `end`. Where the clauses end, none
that the block could take comes next. -/
theorem Production.IsBlockBody.eq_seq (allowed : Diagnostic Spot → Prop)
    (hb : IsBlockBody kind p) :
    ∃ block inner start, kind.owner? = some block ∧
      p = seq [shift, call .expression, expect .thenKw, opening block inner,
        Grammar.finishBlock block.construct start] ∧
      ∀ {env r r' rest}, env.constructs = block :: rest → Runs allowed (.of inner) env r r' →
        clauseOwner? (r'.look env).kind ≠ some block.construct := by
  obtain ⟨family, start, h | h⟩ := hb
  · simp only [lookAt, Grammar.ifBlock, node, group.injEq, wrap.injEq] at h
    obtain ⟨rfl, rfl⟩ := h
    refine ⟨_, _, _, by cases family <;> rfl, rfl, fun {env r r' rest} hc h hk => ?_⟩
    have attaches := Lookahead.clauseAttaches_of_owner (v := r'.look env) hc hk
    obtain ⟨_, -, h⟩ := runs_andThen.mp h
    obtain ⟨m, hm, h⟩ := runs_andThen.mp h
    replace h := runs_look.mp h
    split at h
    · -- After an `else` any clause of the block goes on with the repetition.
      obtain ⟨_, -, h⟩ := runs_andThen.mp h
      rw [(runs_many.mp h).test_eq_false] at attaches
      cases attaches
    · rename_i helse
      cases runs_done.mp h
      have helseif := (runs_many.mp hm).test_eq_false
      rw [attaches, Bool.and_true] at helse helseif
      rcases clauseOwner?_eq_ifBlock hk with he | he
      · simp [Lookahead.sees, he] at helseif
      · simp [Lookahead.sees, he] at helse
  · simp only [lookAt, Grammar.whenBlock, node, group.injEq, wrap.injEq] at h
    obtain ⟨rfl, rfl⟩ := h
    refine ⟨_, _, _, by cases family <;> rfl, rfl, fun {env r r' rest} hc h hk => ?_⟩
    have attaches := Lookahead.clauseAttaches_of_owner (v := r'.look env) hc hk
    obtain ⟨_, -, h⟩ := runs_andThen.mp h
    have hf := (runs_many.mp h).test_eq_false
    rw [attaches, Bool.and_true] at hf
    simp [Lookahead.sees, clauseOwner?_eq_whenBlock hk] at hf

variable {block : OpenConstruct}

/-- A block that is left without an `end` is not before a clause it could take. -/
theorem Runs.blockBody_left (h : Runs allowed (.of p) env r r') (hb : p.IsBlockBody kind)
    (ho : kind.owner? = some block) : (∃ t, t.kind = .endKw ∧ .leaf t ∈ r'.built) ∨
      clauseOwner? (Token.headKind r'.ahead) ≠ some block.construct := by
  obtain ⟨_, inner, start, ho', rfl, hi⟩ := hb.eq_seq allowed
  cases ho.symm.trans ho'
  obtain ⟨_, -, h⟩ := runs_andThen.mp h
  obtain ⟨_, -, h⟩ := runs_andThen.mp h
  obtain ⟨_, -, h⟩ := runs_andThen.mp h
  obtain ⟨m, hm, h⟩ := runs_andThen.mp h
  cases hm with
  | opening hm =>
    refine (Runs.finishBlock h).imp_right fun he => ?_
    rw [he]
    exact hi rfl hm

/-- A production of the plain layer reports no orphans. -/
theorem Runs.orphans_of_plain {q : Production} (h : Runs allowed (.of q) env r r')
    (hq : q.Meets Layer.plain.demand (r.look env)) {d : Diagnostic Spot} (hd : d ∈ r'.faults)
    (ho : d.IsOrphan) : d ∈ r.faults :=
  (h.reported hq d hd).resolve_right fun hr => (hr.orphan ho).1 rfl

/-- The orphans in a block are none of its own clauses. -/
theorem Runs.blockBody_orphans {layer : Layer} (h : Runs allowed (.of p) env r r')
    (hb : p.IsBlockBody kind) (hp : p.Meets layer.demand (r.look env))
    (ho : kind.owner? = some block) {d : Diagnostic Spot} (hd : d ∈ r'.faults) (hi : d.IsOrphan) :
    d ∈ r.faults ∨ ∃ k, d.found = some k ∧ clauseOwner? k ≠ some block.construct := by
  obtain ⟨_, inner, start, ho', rfl, -⟩ := hb.eq_seq allowed
  cases ho.symm.trans ho'
  obtain ⟨_, h₁, h⟩ := runs_andThen.mp h
  obtain ⟨_, h₂, h⟩ := runs_andThen.mp h
  obtain ⟨m, h₃, h⟩ := runs_andThen.mp h
  obtain ⟨n, h₄, h⟩ := runs_andThen.mp h
  have head : d ∈ m.faults → d ∈ r.faults := fun hd => by
    have hd := h₃.orphans_of_plain Nonterminal.layer_expect hd hi
    have hd := h₂.orphans_of_plain ⟨⟨True.intro, True.intro⟩, rfl⟩ hd hi
    exact h₁.orphans_of_plain True.intro hd hi
  have hn : d ∈ n.faults := h.orphans_of_plain Nonterminal.layer_finishBlock hd hi
  cases h₄ with
  | opening hin =>
    have hinner := (((hp.2 [] 0).2 [] 0).2 m.ahead m.index).1
    refine (hin.reported hinner d hn).imp head fun hr => ?_
    obtain ⟨-, k, hf, -, hu⟩ := hr.orphan hi
    exact ⟨k, hf, fun he => hu _ he block List.mem_cons_self rfl⟩

end

end Modelica
