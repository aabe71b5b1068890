import Modelica.Proofs.Attachment

/-!
# Orphans have no owner around them

A clause keyword that no open block takes is put into an `error` node and reported there. Nodes are
put around the `error` node later on, when the blocks end; none of them is a block that could have
taken the clause.

* `Runs.strayClause`: what is built and reported where a stray clause is read;
* `Reading.Perches`: what holds of the orphans while a group is built, with a lemma for each step;
* `Runs.perched`: the token of an orphan stays in its `error` node, and no owner is put around it;
* `clauses_attach`: the clauses of every parse are attached, and orphans have no owner around them.
-/

namespace Modelica

variable {allowed : Diagnostic Spot → Prop} {task : Task} {env : Surroundings} {r r' : Reading}
  {layer : Layer} {under : Option Kind} {room : Room}

/-- The keyword of a stray clause becomes the first token of an `error` node. It is the only orphan
that is reported. -/
theorem Runs.strayClause {family : Family}
    (h : Runs allowed (.of (Grammar.strayClause family)) env r r')
    (hm : (Grammar.strayClause family).Meets layer.demand (r.look env)) :
    ∃ owner t cs, clauseOwner? t.kind = some owner ∧
      r'.built = .node .error (.leaf t :: cs) :: r.built ∧
      ∀ d ∈ r'.faults, d.IsOrphan → d ∈ r.faults ∨ d.place = r.index ∧ d.found = some t.kind := by
  obtain ⟨-, hm⟩ := hm
  obtain ⟨hreport, -⟩ := hm id
  obtain ⟨n, hn, h⟩ := runs_andThen.mp (runs_look.mp h)
  have reported : ∃ d : Diagnostic Spot, layer.demand.report (r.look env) d ∧ d.IsOrphan ∧
      n = r.report d := by
    split at hn
    · rename_i hres
      simp only [hres] at hreport
      exact absurd rfl (hreport.2 id).2.1
    · split at hreport
      · contradiction
      · obtain ⟨-, he⟩ := runs_report.mp (runs_look.mp hn)
        exact ⟨_, hreport.2 id, rfl, he⟩
  obtain ⟨d, ⟨hp, -, ho⟩, hi, rfl⟩ := reported
  obtain ⟨-, hfound, hk, -⟩ := ho hi
  obtain ⟨owner, hk⟩ := Option.isSome_iff_exists.mp hk
  have hhead : Token.headKind r.ahead = (r.look env).kind := rfl
  obtain ⟨t, ts, ha, ht⟩ := Token.exists_cons_of_headKind hhead fun he => by
    rw [he] at hk
    cases hk
  refine ⟨owner, t, ?_⟩
  obtain ⟨m, hm, rfl⟩ := runs_node.mp (runs_look.mp h)
  obtain ⟨_, hs, hq⟩ := runs_andThen.mp hm
  rw [runs_shift.mp hs, Reading.shift_cons (by simpa using ha)] at hq
  obtain ⟨us, hus⟩ := hq.built_suffix (by simp [Task.Sheltered, Production.accept])
  refine ⟨us.reverse, ht ▸ hk, by simp [← hus], fun e he hi => ?_⟩
  have hd := Runs.orphans_of_plain h Nonterminal.layer_clauseHeadAsError he hi
  rcases r.report_eq d with heq | ⟨heq, -⟩ <;> rw [heq] at hd
  · exact .inl hd
  · exact (List.mem_cons.mp hd).elim (fun h => .inr ⟨h ▸ hp, h ▸ ht ▸ hfound⟩) .inl

/-- The token starts a clause and is in an `error` node. No node around that one is a block that
owns such clauses. -/
def Perch.IsStray (p : Perch) : Prop :=
  ∃ owner above, clauseOwner? p.token.kind = some owner ∧ p.above = .error :: above ∧
    ∀ k ∈ above, k.owner?.map (·.construct) ≠ some owner

theorem Perch.IsStray.inside {p : Perch} (h : p.IsStray) {k : Kind}
    (hk : ∀ block, k.owner? = some block → clauseOwner? p.token.kind ≠ some block.construct) :
    (p.inside [k]).IsStray := by
  obtain ⟨owner, above, ho, ha, hn⟩ := h
  refine ⟨owner, above ++ [k], ho, by simp [Perch.inside, ha], fun l hl => ?_⟩
  rcases List.mem_append.mp hl with hl | hl
  · exact hn l hl
  · rw [List.mem_singleton.mp hl]
    intro he
    obtain ⟨block, hb, hc⟩ := Option.map_eq_some_iff.mp he
    exact hk block hb (ho.trans (congrArg some hc.symm))

/-- The diagnostic is about a token that is found as a stray one in the trees, of which the first
token is at `start`. -/
def Diagnostic.Perched (d : Diagnostic Spot) (start : Spot) (built : List Tree) : Prop :=
  ∃ p, (p, d.place) ∈ (Tree.perchesOf [] built.reverse).zipIdx start ∧ p.IsStray ∧
    d.found = some p.token.kind

namespace Diagnostic.Perched

variable {d : Diagnostic Spot} {start : Spot} {built more : List Tree}

theorem length_perches (ts : List Tree) :
    (Tree.perchesOf [] ts).length = (Tree.leavesOf ts).length := by
  rw [← Tree.map_token_perchesOf [], List.length_map]

theorem bounds (h : d.Perched start built) :
    start ≤ d.place ∧ d.place < start + (Tree.leavesOf built.reverse).length := by
  obtain ⟨p, hp, -⟩ := h
  obtain ⟨hl, hr, -⟩ := List.mem_zipIdx hp
  exact ⟨hl, length_perches built.reverse ▸ hr⟩

theorem append (h : d.Perched start built) (more : List Tree) :
    d.Perched start (more ++ built) := by
  obtain ⟨p, hp, hs⟩ := h
  refine ⟨p, ?_, hs⟩
  rw [List.reverse_append, Tree.perchesOf_append, List.zipIdx_append]
  exact List.mem_append_left _ hp

theorem group (h : d.Perched (start + (Tree.leavesOf built.reverse).length) more) :
    d.Perched start (more ++ built) := by
  obtain ⟨p, hp, hs⟩ := h
  refine ⟨p, ?_, hs⟩
  rw [List.reverse_append, Tree.perchesOf_append, List.zipIdx_append, length_perches]
  exact List.mem_append_right _ hp

/-- A node over all trees is put around each token. -/
theorem wrap (h : d.Perched start built) {k : Kind}
    (hk : ∀ block l, k.owner? = some block → d.found = some l →
      clauseOwner? l ≠ some block.construct) : d.Perched start [.node k built.reverse] := by
  obtain ⟨p, hp, hs, hf⟩ := h
  refine ⟨p.inside [k], ?_, hs.inside fun block hb => hk block _ hb hf, hf⟩
  have he : Tree.perchesOf [] [.node k built.reverse] =
      (Tree.perchesOf [] built.reverse).map (·.inside [k]) := by
    simpa [Tree.perchesOf, Tree.perches] using Tree.perchesOf_inside [] [k] built.reverse
  rw [List.reverse_singleton, he, List.zipIdx_map]
  exact List.mem_map.mpr ⟨_, hp, rfl⟩

theorem stray {t : Token} {cs : List Tree} {owner : Construct}
    (ho : clauseOwner? t.kind = some owner) (hf : d.found = some t.kind)
    (hp : d.place = start + (Tree.leavesOf built.reverse).length) :
    d.Perched start (.node .error (.leaf t :: cs) :: built) := by
  have h : d.Perched (start + (Tree.leavesOf built.reverse).length)
      [.node .error (.leaf t :: cs)] := by
    refine ⟨⟨t, [.error]⟩, ?_, ⟨owner, [], ho, rfl, fun _ h => nomatch h⟩, hf⟩
    simp [Tree.perchesOf, Tree.perches, List.zipIdx_cons, hp]
  exact h.group

end Diagnostic.Perched

/-! ## Orphans while a group is built -/

/-- Each orphan was reported before the group that starts at `start`, or it stands in what the group
has built. -/
def Reading.Perches (r : Reading) (start : Spot) : Prop :=
  ∀ d ∈ r.faults, d.IsOrphan → d.place < start ∨ d.Perched start r.built

namespace Reading.Perches

variable {m : Reading} {start : Spot}

theorem shift (h : r.Perches start) : r.shift.Perches start := by
  intro d hd hi
  rw [Reading.shift_faults] at hd
  refine (h d hd hi).imp_right fun hd => ?_
  cases ha : r.ahead with
  | nil => rwa [Reading.shift_nil ha]
  | cons t ts => rw [Reading.shift_cons ha]; exact hd.append [_]

/-- What is reported elsewhere than for a stray clause is no orphan. -/
theorem report (h : r.Perches start) {fault : Diagnostic Spot} (hf : ¬ fault.IsOrphan) :
    (r.report fault).Perches start := by
  intro d hd hi
  rw [Reading.report_built]
  rcases r.report_eq fault with he | ⟨he, -⟩ <;> rw [he] at hd
  · exact h d hd hi
  · rcases List.mem_cons.mp hd with rfl | hd
    · exact absurd hi hf
    · exact h d hd hi

/-- The orphans from before a group are all before its first token. -/
theorem place_lt (h : r.Perches start)
    (hs : r.index = start + (Tree.leavesOf r.built.reverse).length) {d : Diagnostic Spot}
    (hd : d ∈ r.faults) (hi : d.IsOrphan) : d.place < r.index := by
  rw [hs]
  exact (h d hd hi).elim (Nat.lt_add_right _) (·.bounds.2)

theorem group {p : Production} (h : r.Perches start)
    (hs : r.index = start + (Tree.leavesOf r.built.reverse).length)
    (hrun : Runs allowed (.of p) env { r with built := [] } m)
    (hm : p.Meets layer.demand (r.look env)) (hgroup : m.Perches r.index) :
    Reading.Perches { m with built := m.built ++ r.built } start := by
  intro d hd hi
  rcases hgroup d hd hi with hl | hg
  · have hold := (hrun.reported hm d hd).resolve_right fun hr => Nat.not_le_of_lt hl hr.place
    exact (h d hold hi).imp_right (·.append _)
  · exact .inr (Diagnostic.Perched.group (hs ▸ hg))

/-- A node of a block is put only around orphans that the block does not own. -/
theorem wrap {p : Production} {k : Kind} (h : r.Perches start) (hinside : m.Perches start)
    (hrun : Runs allowed (.of p) env r m) (hm : p.Meets layer.demand (r.look env))
    (hblock : ∀ block, k.owner? = some block → p.IsBlockBody k ∧ r.built = []) :
    (m.wrap k).Perches start := by
  intro d hd hi
  refine (hinside d hd hi).imp_right fun hg => hg.wrap fun block l hk hl => ?_
  obtain ⟨hbody, hr⟩ := hblock block hk
  -- The group of a block has nothing before the block, so the orphan is one of its body.
  have hnew : d ∉ r.faults := fun hold => by
    rcases h d hold hi with hl' | hg'
    · exact Nat.not_le_of_lt hl' hg.bounds.1
    · obtain ⟨hle, hlt⟩ := hg'.bounds
      rw [hr] at hlt
      exact Nat.not_le_of_lt hlt hle
  obtain ⟨l', hl', ho⟩ := (hrun.blockBody_orphans hbody hm hk hd hi).resolve_left hnew
  cases hl.symm.trans hl'
  exact ho

theorem strayClause {family : Family} (h : r.Perches start)
    (hs : r.index = start + (Tree.leavesOf r.built.reverse).length)
    (hrun : Runs allowed (.of (Grammar.strayClause family)) env r r')
    (hm : (Grammar.strayClause family).Meets layer.demand (r.look env)) : r'.Perches start := by
  obtain ⟨owner, t, cs, ho, hb, hd⟩ := hrun.strayClause hm
  intro d hmem hi
  rw [hb]
  rcases hd d hmem hi with hold | ⟨hplace, hfound⟩
  · exact (h d hold hi).imp_right (·.append [_])
  · exact .inr (.stray ho hfound (hplace.trans hs))

end Reading.Perches

namespace Runs

/-- The place ahead is behind the tokens of the group. -/
theorem index_eq (h : Runs allowed task env r r') {start : Spot}
    (hs : r.index = start + (Tree.leavesOf r.built.reverse).length) :
    r'.index = start + (Tree.leavesOf r'.built.reverse).length := by
  have ht := congrArg List.length h.leaves
  have hl := h.leads.2
  rw [hs] at hl
  simp only [Reading.tokens, List.length_append] at ht
  exact Nat.add_left_cancel (n := r'.ahead.length) (by omega)

/-- An orphan of the group stands at its token, and no block that owns it is put around it. -/
theorem perched (h : Runs allowed task env r r') (hm : task.Meets layer.demand (r.look env))
    (hq : task.Meets .quiet (r.look env)) (ht : task.Tidy under room)
    (hf : room = .fresh → r.built = []) {start : Spot}
    (hs : r.index = start + (Tree.leavesOf r.built.reverse).length) (hp : r.Perches start) :
    r'.Perches start := by
  induction h generalizing layer under room start with
  | done | stop _ => exact hp
  | andThen hrun _ ihp ihq =>
    exact ihq (hm.2 _ _) (hq.2 _ _) ht.2 (absurd · room.next_ne_fresh) (hrun.index_eq hs)
      (ihp hm.1 hq.1 ht.1 hf hs hp)
  | shift => exact hp.shift
  | group hrun ih =>
    refine hp.group hs hrun hm (ih hm hq ht (fun _ => rfl) rfl fun d hd hi => ?_)
    exact .inl (hp.place_lt hs hd hi)
  | wrap hrun ih =>
    obtain ⟨hseat, hbody, hp'⟩ := ht
    refine hp.wrap (ih hm.2 hq.2 hp' hf hs hp) hrun hm.2 fun block hk => ?_
    exact ⟨hbody (by simp [hk]), hf (hseat.fresh_of_block hk)⟩
  | @look next env r r' hrun ih =>
    by_cases hstray : ∃ family, Production.look next = Grammar.strayClause family
    · obtain ⟨family, he⟩ := hstray
      have hrun : Runs allowed (.of (Grammar.strayClause family)) env r r' := he ▸ .look hrun
      exact hp.strayClause hs hrun (he ▸ hm)
    · exact ih (hm.2 id) (hq.2 hstray) (ht _) hf hs hp
  | many _ ih | inContext _ ih | opening _ ih => exact ih hm hq ht hf hs hp
  | turn hc hi _ ihi ihr =>
    refine ihr hm hq (Task.Tidy.next ht _) (absurd · room.next_ne_fresh) (hi.index_eq hs) ?_
    exact ihi ((hm _ _).2 hc _) ((hq _ _).2 hc _) (ht _) (absurd · room.next_ne_fresh) hs hp
  | @call rule _ _ _ _ ih =>
    exact ih (Nonterminal.layer_production hm.1) (rule.quiet_production _)
      (Nonterminal.tidy_production hm.1.seen) nofun hs hp
  | report => exact hp.report hq
  | within _ _ ih => exact ih hm.1 hq.1 ht.1 hf hs hp
  | beyond _ _ ih => exact ih hm.2 hq.2 ht.2 hf hs hp

end Runs

/-- The tokens of a text and those of its tree are the same ones, so the significant ones among them
stand at the same places. -/
theorem exists_mem_zip {ts : List PlacedToken} {ps : List Perch}
    (h : ts.map (·.toToken) = ps.map (·.token)) {i : Nat} {p : Perch}
    (hp : (ps.filter Perch.isSignificant)[i]? = some p) :
    ∃ t, (ts.filter (·.isSignificant))[i]? = some t ∧ t.toToken = p.token ∧ (t, p) ∈ ts.zip ps := by
  induction ts generalizing ps i with
  | nil =>
    cases ps with
    | nil => cases hp
    | cons q qs => cases h
  | cons t ts ih =>
    cases ps with
    | nil => cases h
    | cons q qs =>
      obtain ⟨htq, h⟩ := List.cons.inj h
      have hsig : t.isSignificant = q.isSignificant := congrArg Token.isSignificant htq
      rw [List.filter_cons] at hp
      rw [List.filter_cons, hsig]
      by_cases hs : q.isSignificant = true
      · rw [if_pos hs] at hp ⊢
        cases i with
        | zero =>
          cases hp
          exact ⟨t, rfl, htq, List.mem_cons_self⟩
        | succ i =>
          obtain ⟨u, hu, hup, hmem⟩ := ih h hp
          exact ⟨u, hu, hup, .tail _ hmem⟩
      · rw [if_neg hs] at hp ⊢
        obtain ⟨u, hu, hup, hmem⟩ := ih h hp
        exact ⟨u, hu, hup, .tail _ hmem⟩

namespace Parse

/-- The significant token that an orphan is about has its place in the text and its nodes in the
tree. -/
theorem exists_perch {p : Parse} {text : String} {root : Tree} (hstrip : p.tree.strip = root)
    (hleaves : p.tree.leaves = tokenize text)
    (hroot : root.leaves = Token.significant (tokenize text)) {d : Diagnostic Spot}
    (h : d.Perched 0 [root]) :
    ∃ t perch, (t, perch) ∈ (Token.place (tokenize text)).zip (p.tree.perches []) ∧
      (Landmarks.ofTokens (tokenize text)).span d.place = t.span ∧ perch.token = t.toToken ∧
      perch.IsStray := by
  obtain ⟨q, hq, hs, -⟩ := h
  have hfilter : (p.tree.perches []).filter Perch.isSignificant = root.perches [] := by
    rw [← Tree.perches_strip, hstrip, List.filter_eq_self]
    intro q hq
    have hmem : q.token ∈ root.leaves :=
      Tree.map_token_perches [] root ▸ List.mem_map_of_mem (f := Perch.token) hq
    rw [hroot] at hmem
    exact (List.mem_filter.mp hmem).2
  have hi : ((p.tree.perches []).filter Perch.isSignificant)[d.place]? = some q := by
    rw [hfilter]
    simpa [Tree.perchesOf, List.mk_mem_zipIdx_iff_getElem?] using hq
  have htokens : (Token.place (tokenize text)).map (·.toToken) =
      (p.tree.perches []).map (·.token) :=
    (Token.map_placeFrom 0 .origin _).trans (hleaves.symm.trans (Tree.map_token_perches [] _).symm)
  obtain ⟨t, ht, htq, hmem⟩ := exists_mem_zip htokens hi
  refine ⟨t, q, hmem, ?_, htq.symm, hs⟩
  simp [Landmarks.span, Landmarks.ofTokens, ht]

/-- The clauses of the tree are attached, and each orphan is about a clause keyword in an `error`
node that has no owner around it. -/
structure Attaches (p : Parse) (text : String) : Prop where
  root : p.tree.clauseOf? = none
  clauses : p.tree.Attached
  orphans : ∀ d ∈ p.faults, d.code = .orphanClause →
    ∃ t perch, (t, perch) ∈ (Token.place (tokenize text)).zip (p.tree.perches []) ∧
      d.place = t.span ∧ perch.token = t.toToken ∧ perch.IsStray

theorem attaches_storedDefinition (limit : Nat) (text : String) :
    (ofProduction (.call .storedDefinition) limit text).Attaches text := by
  have hr := Production.runs_read (.call .storedDefinition) True.intro limit
    (Token.significant (tokenize text))
  have hm : (Task.of (.call .storedDefinition)).Meets Layer.classes.demand
      ((Reading.start (Token.significant (tokenize text))).look ⟨.topLevel, [], 0, limit⟩) :=
    ⟨Nonterminal.entered_storedDefinition rfl, True.intro⟩
  have ht : (Task.of (.call .storedDefinition)).Tidy none .outside := nofun
  have hhoused := hr.housed hm ht nofun (absurd rfl)
  have hfollowed := hr.followed hm ht nofun True.intro
  have hperched := hr.perched hm True.intro ht nofun rfl (fun _ h => nomatch h)
  have hstrip := strip_tree_ofProduction Production.readsAll_storedDefinition limit text
  obtain ⟨k, cs, -, hb, hl⟩ := Production.readsAll_storedDefinition.exists_root limit text
  have hleaves : (Tree.node k cs).leaves = Token.significant (tokenize text) := hl
  rw [hb] at hhoused hfollowed hstrip
  rw [Reading.Perches, hb] at hperched
  obtain ⟨hfit, hh⟩ := (hhoused _ List.mem_cons_self).resolve_left (nomatch ·)
  refine ⟨?_, ?_, fun d hd hc => ?_⟩
  · rw [← Tree.clauseOf?_strip, hstrip]
    exact Option.eq_none_iff_forall_ne_some.mpr fun parent hp => nomatch hfit parent hp
  · refine Tree.attached_of_strip _ (hstrip ▸ hh.attached (fun u hu => ?_) hfollowed.1)
    exact (List.mem_filter.mp (hleaves ▸ hu)).2
  · rcases isLexical_or_reported hd with hl | ⟨e, he, rfl⟩
    · rw [hc] at hl
      exact absurd hl (by decide)
    · have hp := (hperched e he hc).resolve_left (Nat.not_lt_zero _)
      exact exists_perch hstrip (covers_storedDefinition limit text).leaves hleaves hp

end Parse

/-- The clauses of every text are attached to the nearest block that may have them: each is a child
of such a block, and no such block that ends right before it lacks an `end`. A clause keyword that
is reported as an orphan has no block around it that owns such clauses. -/
theorem clauses_attach (text : String) :
    (parse text).Attaches text ∧
      ∀ limit, ∃ p, parseWith ⟨limit, false⟩ text = .ok p ∧ p.Attaches text :=
  ⟨Parse.attaches_storedDefinition _ text,
    fun limit => ⟨_, rfl, Parse.attaches_storedDefinition limit text⟩⟩

/-- A dangling `else` is in the inner `if`, which is in the outer one. -/
example : ∃ perch ∈
    (parse "model A equation if a then if b then else end if; end if; end A;").tree.perches [],
    perch.token.kind = .elseKw ∧
      perch.above.take 3 = [.elseEquationClause, .ifEquation, .ifEquation] := by
  decide +kernel

/-- An `else` without an `if` is an orphan. -/
example : (parse "model A equation else end A;").faults.map (·.code) = [.orphanClause] := by
  decide +kernel

end Modelica
