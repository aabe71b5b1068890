import Modelica.Proofs.RuleRoutines
import Modelica.Proofs.Sheltered
import Modelica.Proofs.Weaving

/-!
# The builder never trips

No text, no rule and no bound makes the tree builder trip, and what it ends with is the tree of the
parse. A run and the paired calls of its production stay in step (`Builder.Agrees`), and the routine
of a rule, whose calls stand alone, does what those do.
-/

namespace Modelica

/-- Where the builder stands when a run has come to `r` in a group. The group has `left` to weave,
and `outer` are the trees that were finished before it. -/
structure Builder.Agrees (left : List Token) (outer : List Tree) (env : Surroundings)
    (r : Reading) (b : Builder) : Prop where
  finished : b.finished = (Tree.weaveAll left r.built.reverse).1.reverse ++ outer
  pending : b.pending = (Tree.weaveAll left r.built.reverse).2
  ahead : b.ahead = r.ahead
  index : b.index = r.index
  faults : b.faults = r.faults
  context : b.context = env.context
  constructs : b.constructs = env.constructs
  depth : b.depth = env.depth
  limit : b.limit = env.limit
  /-- The pending tokens go on as far as those ahead. -/
  unread : Token.significant b.pending = b.ahead
  /-- The group is in an open node. -/
  inside : ∃ k first rest, b.nodes = (k, first) :: rest ∧ first ≤ outer.length

namespace Builder

variable {left : List Token} {outer : List Tree} {env : Surroundings} {r : Reading} {b : Builder}

theorem Agrees.look (h : b.Agrees left outer env r) : b.look = r.look env := by
  simp only [Builder.look, Reading.look, h.ahead, h.index, h.context, h.constructs]

theorem Agrees.read (h : b.Agrees left outer env r) :
    ∃ b', b.read = some b' ∧ b'.Agrees left outer env r.shift := by
  cases ha : r.ahead with
  | nil => exact ⟨b, by simp [Builder.read, h.ahead, ha], by rwa [Reading.shift_nil ha]⟩
  | cons t ts =>
    have hb : b.ahead = t :: ts := h.ahead.trans ha
    obtain ⟨p, hp, hs⟩ := Tree.afterGap_eq_cons (h.unread.trans hb)
    refine ⟨_, by simp [Builder.read, hb, flush_eq, hp]; rfl, ?_⟩
    have hl := h.pending ▸ hp
    rw [Reading.shift_cons ha]
    exact {
      finished := by
        simp [add, Tree.weaveAll_append, Tree.weaveAll, Tree.weaveChild, h.finished, h.pending]
      pending := by simp [Tree.weaveAll_append, Tree.weaveAll, Tree.weaveChild, hl]
      ahead := rfl
      index := by simp [h.index]
      faults := h.faults
      context := h.context
      constructs := h.constructs
      depth := h.depth
      limit := h.limit
      unread := hs
      inside := h.inside }

theorem Agrees.report (h : b.Agrees left outer env r) (fault : Diagnostic Spot) :
    (b.report fault).Agrees left outer env (r.report fault) where
  finished := by simpa [Builder.report] using h.finished
  pending := by simpa [Builder.report] using h.pending
  ahead := by simpa [Builder.report] using h.ahead
  index := by simpa [Builder.report] using h.index
  faults := by
    unfold Builder.report Reading.report
    rw [h.faults]
    cases hf : r.faults with
    | nil => rfl
    | cons last faults => simp only; split <;> simp [hf]
  context := h.context
  constructs := h.constructs
  depth := h.depth
  limit := h.limit
  unread := h.unread
  inside := h.inside

/-- A group starts with what is pending once the gap is out of the way, and what it leaves goes
after the trees that stand before it. -/
theorem Agrees.group (h : b.Agrees left outer env r) :
    ∃ m, b.flushLeading = some m ∧ Tree.Settled m.pending ∧
      m.Agrees m.pending m.finished env { r with built := [] } ∧
      ∀ (r' : Reading) (b' : Builder), r'.built ≠ [] → b'.nodes = b.nodes →
        b'.Agrees m.pending m.finished env r' →
        b'.Agrees left outer env { r' with built := r'.built ++ r.built } := by
  obtain ⟨k, first, rest, hn, hfirst⟩ := h.inside
  have hopen : b.nodes ≠ [] := by rw [hn]; exact List.cons_ne_nil _ _
  have hlength : outer.length ≤ b.finished.length := by rw [h.finished]; simp
  by_cases ha : b.ahead = []
  · have hs : Tree.afterGap b.pending = [] := by
      rw [Tree.afterGap_eq_nil_iff, h.unread, ha]
    refine ⟨b, by simp [flushLeading, ha], .inr hs, ?_, fun r' b' _ hnodes h' => ?_⟩
    · exact { h with
        finished := rfl
        pending := rfl
        inside := ⟨k, first, rest, hn, hfirst.trans hlength⟩ }
    · exact { h' with
        finished := by simp [h'.finished, h.finished, h.pending, Tree.weaveAll_append]
        pending := by simp [h'.pending, h.pending, Tree.weaveAll_append]
        inside := ⟨k, first, rest, hnodes.trans hn, hfirst⟩ }
  · have hs : Tree.afterGap b.pending ≠ [] := by
      rw [Ne, Tree.afterGap_eq_nil_iff, h.unread]
      exact ha
    refine ⟨_, by simp [flushLeading, ha, hopen, flush_eq]; rfl, Tree.settled_afterGap _, ?_,
      fun r' b' hb hnodes h' => ?_⟩
    · exact { h with
        finished := rfl
        pending := rfl
        unread := (Tree.significant_afterGap _).trans h.unread
        inside := ⟨k, first, rest, hn, by simp; omega⟩ }
    · have hr : r'.built.reverse ≠ [] := by simpa using hb
      have hw := Tree.weaveAll_afterGap hr hs
      exact { h' with
        finished := by simp [h'.finished, h.finished, ← h.pending, Tree.weaveAll_append, hw]
        pending := by simp [h'.pending, ← h.pending, Tree.weaveAll_append, hw]
        inside := ⟨k, first, rest, hnodes.trans hn, hfirst⟩ }

/-- The mark of a group is good for the node that is opened at it. -/
theorem Agrees.openAt (h : b.Agrees left outer env r) (k : Kind) :
    ∃ m, b.openAt outer.length k = some m ∧ m.Agrees left outer env r := by
  obtain ⟨k', first, rest, hn, hfirst⟩ := h.inside
  have hlength : outer.length ≤ b.finished.length := by rw [h.finished]; simp
  refine ⟨{ b with nodes := (k, outer.length) :: b.nodes }, ?_, ?_⟩
  · simp [Builder.openAt, hlength, hn, hfirst]
  · exact { h with inside := ⟨k, outer.length, b.nodes, rfl, le_refl _⟩ }

theorem Agrees.close {k : Kind} (h : b.Agrees left outer env r) (hl : Tree.Settled left)
    {nodes : List (Kind × Nat)} (hnodes : b.nodes = (k, outer.length) :: nodes)
    (hinside : ∃ k first rest, nodes = (k, first) :: rest ∧ first ≤ outer.length) :
    ∃ b', b.close = some b' ∧ b'.Agrees left outer env (r.wrap k) := by
  have hlength : nodes.length ≠ 0 := by
    obtain ⟨_, _, _, rfl, _⟩ := hinside
    simp
  have hw := Tree.weaveAll_node hl k r.built.reverse
  refine ⟨_, by simp [Builder.close, closeNode, hnodes, hlength, h.finished]; rfl, ?_⟩
  exact { h with
    finished := by simp [Reading.wrap, hw]
    pending := by simp [Reading.wrap, hw, h.pending]
    inside := hinside }

end Builder

/-- The calls of a production, or of what is left of a repetition. -/
def Task.paired : Task → Nat → Routine Unit
  | of p, mark => p.paired mark
  | rest continues item last, mark => do
    let mut before := last
    for _ in Routine.forever do
      let v ← Routine.look
      if !continues v then
        break
      (item before).paired mark
      before := some v

section

variable {keeps : Builder → Builder → Prop} {continues : Lookahead → Bool}
  {item : Option Lookahead → Production} {before : Option Lookahead} {mark : Nat} {b m b' : Builder}

theorem Task.builds_stop (hc : continues b.look = false) :
    Builds keeps ((rest continues item before).paired mark) b () b := by
  refine builds_bind.mpr ⟨before, b, .stop (builds_look.mpr ?_) .ret, .ret⟩
  rw [hc]
  exact .ret

theorem Task.builds_turn (hc : continues b.look = true)
    (hi : Builds keeps ((item before).paired mark) b () m)
    (hr : Builds keeps ((rest continues item (some b.look)).paired mark) m () b') :
    Builds keeps ((rest continues item before).paired mark) b () b' := by
  refine .turn (builds_look.mpr ?_) hr
  rw [hc]
  exact hi.bind .ret

end

/-- Wherever a run goes, the builder goes with the calls. -/
theorem Runs.builds {allowed : Diagnostic Spot → Prop} {task : Task} {env : Surroundings}
    {r r' : Reading} (h : Runs allowed task env r r') {inGroup : Bool}
    (ht : task.Sheltered inGroup) (mark : Nat) {left : List Token} {outer : List Tree} {b : Builder}
    (hmark : inGroup = true → mark = outer.length ∧ Tree.Settled left)
    (hb : b.Agrees left outer env r) :
    ∃ b', Builds Builder.Restores (task.paired mark) b () b' ∧ b.Restores b' ∧
      b'.Agrees left outer env r' := by
  induction h generalizing inGroup mark left outer b with
  | done => exact ⟨b, .ret, .refl b, hb⟩
  | andThen _ _ ihp ihq =>
    obtain ⟨m, hp, hrp, hm⟩ := ihp ht.1 mark hmark hb
    obtain ⟨b', hq, hrq, hb'⟩ := ihq ht.2 mark hmark hm
    exact ⟨b', hp.bind hq, hrp.trans hrq, hb'⟩
  | shift =>
    obtain ⟨b', hr, hb'⟩ := hb.read
    exact ⟨b', .act (congrArg (Option.map _) hr) .ret, Builder.restores_of_read hr, hb'⟩
  | @group p env r m hp ih =>
    obtain ⟨hsheltered, hfills⟩ := Production.group_sheltered ht
    obtain ⟨w, hf, hs, hw, hback⟩ := hb.group
    obtain ⟨b', hbuild, hr, hb'⟩ := ih hsheltered w.finished.length (fun _ => ⟨rfl, hs⟩) hw
    have hrestores := (Builder.restores_of_flushLeading hf).trans hr
    have hmarked : Builds Builder.Restores
        (Routine.checkpoint >>= fun start => p.paired start) b () b' :=
      .act (congrArg (Option.map _) hf) hbuild
    exact ⟨b', Production.group_follows ht _ _ _ _ hmarked, hrestores,
      hback _ b' (hp.built_ne_nil.2 _ rfl hfills) hrestores.nodes hb'⟩
  | @wrap k p env r m _ ih =>
    obtain ⟨rfl, hl⟩ := hmark ht.1
    obtain ⟨o, ho, hm⟩ := hb.openAt k
    obtain ⟨w, hbuild, hrw, hw⟩ := ih ht.2 outer.length hmark hm
    cases Builder.openAt_eq ho
    obtain ⟨b', hc, hb'⟩ := hw.close hl hrw.nodes hb.inside
    refine ⟨b', .act (congrArg (Option.map _) ho)
      (hbuild.bind (.act (congrArg (Option.map _) hc) .ret)), ?_, hb'⟩
    obtain ⟨hn, hx, hcs, hd, hlim⟩ := Builder.nodes_of_close hc
    exact ⟨by rw [hn, hrw.nodes]; rfl, hx.trans hrw.contexts, hcs.trans hrw.constructs,
      hd.trans hrw.depth, hlim.trans hrw.limit⟩
  | look _ ih =>
    obtain ⟨b', hbuild, hr, hb'⟩ := ih (ht _) mark hmark hb
    exact ⟨b', .act rfl (hb.look ▸ hbuild), hr, hb'⟩
  | many _ ih => exact ih ht mark hmark hb
  | stop hc => exact ⟨b, Task.builds_stop (hb.look ▸ hc), .refl b, hb⟩
  | turn hc _ _ ihi ihr =>
    obtain ⟨w, hi, hri, hw⟩ := ihi (ht _) mark hmark hb
    obtain ⟨b', hr, hrr, hb'⟩ := ihr ht mark hmark hw
    exact ⟨b', Task.builds_turn (hb.look ▸ hc) hi (hb.look ▸ hr), hri.trans hrr, hb'⟩
  | @call rule _ _ _ _ ih =>
    obtain ⟨b', hbuild, hr, hb'⟩ := ih rule.production_sheltered 0 nofun hb
    exact ⟨b', .call (rule.routine_follows _ _ _ _ hbuild) hr .ret, hr, hb'⟩
  | @report fault _ _ _ => exact ⟨_, .act rfl .ret, ⟨rfl, rfl, rfl, rfl, rfl⟩, hb.report fault⟩
  | @inContext context p env r r' _ ih =>
    obtain ⟨m, hbuild, hr, hm⟩ := ih (b := b.pushContext context) ht mark hmark
      { hb with context := rfl }
    have hpop : m.popContext = some { m with contexts := b.contexts } := by
      simp [Builder.popContext, hr.contexts, Builder.pushContext]
    exact ⟨_, .act rfl (hbuild.bind (.act (congrArg (Option.map _) hpop) .ret)),
      { hr with contexts := rfl }, { hm with context := hb.context }⟩
  | @opening block p env r r' _ ih =>
    obtain ⟨m, hbuild, hr, hm⟩ := ih (b := b.pushConstruct block) ht mark hmark
      { hb with constructs := congrArg _ hb.constructs }
    have hpop : m.popConstruct = some { m with constructs := b.constructs } := by
      simp [Builder.popConstruct, hr.constructs, Builder.pushConstruct]
    exact ⟨_, .act rfl (hbuild.bind (.act (congrArg (Option.map _) hpop) .ret)),
      { hr with constructs := rfl }, { hm with constructs := hb.constructs }⟩
  | within hd _ ih =>
    obtain ⟨m, hbuild, hr, hm⟩ := ih (b := b.enter) ht.1 mark hmark
      { hb with depth := congrArg (· + 1) hb.depth }
    have hpop : m.leave = some { m with depth := b.depth } := by
      simp [Builder.leave, hr.depth, Builder.enter]
    rw [← hb.depth, ← hb.limit] at hd
    refine ⟨{ m with depth := b.depth }, .act (congrArg some (by rw [decide_eq_true hd])) ?_,
      { hr with depth := rfl }, { hm with depth := hb.depth }⟩
    exact hbuild.bind (.act (congrArg (Option.map _) hpop) .ret)
  | beyond hd _ ih =>
    obtain ⟨m, hbuild, hr, hm⟩ := ih (b := b.enter) ht.2 mark hmark
      { hb with depth := congrArg (· + 1) hb.depth }
    have hpop : m.leave = some { m with depth := b.depth } := by
      simp [Builder.leave, hr.depth, Builder.enter]
    rw [← hb.depth, ← hb.limit] at hd
    refine ⟨{ m with depth := b.depth }, .act (congrArg some (by rw [decide_eq_false hd])) ?_,
      { hr with depth := rfl }, { hm with depth := hb.depth }⟩
    exact hbuild.bind (.act (congrArg (Option.map _) hpop) .ret)

/-! ## Rules -/

/-- Where a rule may be called: in an open node, with all that lies ahead still pending. -/
structure Builder.Ready (b : Builder) : Prop where
  unread : Token.significant b.pending = b.ahead
  inside : ∃ k first rest, b.nodes = (k, first) :: rest ∧ first ≤ b.finished.length

theorem Builder.ready_start (k : Kind) (limit : Nat) (tokens : List Token) :
    ((Builder.start limit tokens).openNode k).Ready :=
  ⟨rfl, k, 0, [], rfl, Nat.le_refl 0⟩

/-- A rule that is called where it may be comes to its end without a trip. -/
theorem Builder.Ready.builds {b : Builder} (h : b.Ready) (rule : Nonterminal) :
    ∃ b', Builds Builder.Restores (Routine.rule rule) b () b' ∧ b.Restores b' := by
  have hrun := Nonterminal.runs_of_cost_lt _ rule ⟨b.context, b.constructs, b.depth, b.limit⟩
    ⟨b.ahead, b.index, [], b.faults⟩ (Nat.lt_succ_self _) (Nat.lt_succ_self _)
  have hs : (Task.of (.call rule)).Sheltered false := True.intro
  obtain ⟨b', hbuild, hr, -⟩ := hrun.builds (b := b) hs 0 nofun {
    finished := rfl
    pending := rfl
    ahead := rfl
    index := rfl
    faults := rfl
    context := rfl
    constructs := rfl
    depth := rfl
    limit := rfl
    unread := h.unread
    inside := h.inside }
  exact ⟨b', hbuild, hr⟩

/-- The builder starts in step with the node over a whole text. -/
theorem Builder.agrees_start (k : Kind) (limit : Nat) (tokens : List Token) :
    Builder.Agrees tokens [] ⟨.topLevel, [], 0, limit⟩ (.start (Token.significant tokens))
      ((Builder.start limit tokens).openNode k) where
  finished := rfl
  pending := rfl
  ahead := rfl
  index := rfl
  faults := rfl
  context := rfl
  constructs := rfl
  depth := rfl
  limit := rfl
  unread := rfl
  inside := ⟨k, 0, [], rfl, le_refl _⟩

/-- A node over a whole text is built, and it is the only one in the end. -/
theorem Runs.builds_root {allowed : Diagnostic Spot → Prop} {k : Kind} {ps : List Production}
    {limit : Nat} {tokens : List Token} {r : Reading} (hs : (Production.seq ps).Sheltered false)
    (h : Runs allowed (.of (.node k ps)) ⟨.topLevel, [], 0, limit⟩
      (.start (Token.significant tokens)) r) :
    ∃ b, Builds Builder.Restores ((Production.node k ps).paired 0) (.start limit tokens) () b ∧
      (Builder.start limit tokens).Restores b ∧
      b.finish = some (Tree.weave tokens (r.built.head?.getD (.node .error []))) ∧
      b.faults = r.faults := by
  obtain ⟨m, hm, rfl⟩ := runs_node.mp h
  obtain ⟨w, hbuild, hr, hw⟩ := hm.builds hs 0 nofun (Builder.agrees_start k limit tokens)
  have hnodes : w.nodes = [(k, 0)] := hr.nodes
  have hstart : (Action.startNode k).apply (.start limit tokens) =
      some ((), (Builder.start limit tokens).openNode k) := by
    simp [Action.apply, Builder.flushLeading, Builder.start]
  have hfinish : Action.finishNode.apply w = some ((), { w with
      nodes := [],
      finished := [.node k ((Tree.weaveAll tokens m.built.reverse).1 ++ Tree.gap w.pending)],
      pending := Tree.afterGap w.pending }) := by
    have htake : ∀ a c : List Tree, (a.reverse ++ c.reverse).take (a.length + c.length) =
        (c ++ a).reverse := by
      intro a c
      rw [List.take_of_length_le (by simp), List.reverse_append]
    simp [Action.apply, Builder.close, Builder.closeNode, Builder.flush_eq, hnodes, hw.finished,
      htake]
  refine ⟨_, .act hstart (hbuild.bind (.act hfinish .ret)), { hr with nodes := rfl }, ?_,
    hw.faults⟩
  simp [Builder.finish, Tree.weave, hw.pending]

/-- A routine takes the builder through a text without a trip, and every rule that is called on the
way leaves the open nodes, the stacks and the counter as it has found them. In the end the builder
has one tree, and that and its reports are those of a parse by `p`. -/
def Routine.BuildsParse (q : Routine Unit) (p : Production) (limit : Nat) (text : String) : Prop :=
  ∃ b, Builds Builder.Restores q (.start limit (tokenize text)) () b ∧
    (Builder.start limit (tokenize text)).Restores b ∧
    b.finish = some (Parse.ofProduction p limit text).tree ∧
    b.faults = (p.read limit (Token.significant (tokenize text))).faults

theorem Parse.built_storedDefinition (limit : Nat) (text : String) :
    (Routine.rule .storedDefinition).BuildsParse (.call .storedDefinition) limit text := by
  have hrun := (Production.call .storedDefinition).runs_read (by simp) limit
    (Token.significant (tokenize text))
  obtain ⟨b, hb, hr, hf⟩ := (runs_call.mp hrun).builds_root (by simp [Production.before])
  exact ⟨b, .call (Nonterminal.routine_follows _ _ _ _ _ hb) hr .ret, hr, hf⟩

theorem Parse.built_scratch (rule : FragmentRule) (limit : Nat) (text : String) :
    rule.scratchRoutine.BuildsParse rule.scratch limit text := by
  have hrun := rule.scratch.runs_read rule.tame_scratch limit (Token.significant (tokenize text))
  obtain ⟨b, hb, hr, hf⟩ :=
    hrun.builds_root (by simp [rule.sheltered_production, Production.fault])
  exact ⟨b, rule.paired_scratch ▸ hb, hr, hf⟩

/-- **No parse trips the builder.** For every text and bound, the routines get through a parse of
the whole text and through one of any fragment: each node is opened at a good mark, no stack and no
counter is found empty, and one tree is left, that of the parse. A rule, wherever it is called,
leaves the open nodes, the stacks and the counter as it has found them. -/
theorem builder_never_trips :
    (∀ limit text,
      (Routine.rule .storedDefinition).BuildsParse (.call .storedDefinition) limit text) ∧
    (∀ (rule : FragmentRule) limit text,
      rule.scratchRoutine.BuildsParse rule.scratch limit text) ∧
    ∀ (rule : Nonterminal) (b : Builder), b.Ready →
      ∃ b', Builds Builder.Restores (Routine.rule rule) b () b' ∧ b.Restores b' :=
  ⟨Parse.built_storedDefinition, Parse.built_scratch, fun rule _ h => h.builds rule⟩

/-- An expression in an open node. -/
theorem builder_never_trips_expression :
    ∃ b : Builder, b.ahead.length = 3 ∧ b.Ready ∧
      ∃ b', Builds Builder.Restores (Routine.rule .expression) b () b' ∧ b.Restores b' := by
  have ready := Builder.ready_start .declaration 256 (tokenize "x + 1")
  exact ⟨_, by decide +kernel, ready, builder_never_trips.2.2 .expression _ ready⟩

end Modelica
