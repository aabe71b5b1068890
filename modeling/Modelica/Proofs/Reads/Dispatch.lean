import Modelica.Proofs.Reads.Repetitions

/-!
# Reading by what comes next

A list of branches, each with a test that is true of what it starts with and of nothing that the
others start with; and nodes that are put over what has been read before it was known what they are.
-/

namespace Modelica

open Token (headKind nextKind)

namespace Production

variable {ends : Kind → Prop} {inner : Bool} {start : List Token → Prop} {stop after : Stop}
variable {p q : Production} {ps : List Production} {f g : Form} {fs : List Form} {k : Kind}
variable {ks : List Kind}

/-- One way to go on, and when it is taken. -/
structure Branch where
  test : Lookahead → Prop
  body : Production
  form : Form

theorem spells_alts {env : Surroundings} {r r' : Reading} {fs : List Form} (hf : f ∈ fs)
    (h : Spells f env r r') : Spells (.alts fs) env r r' := by
  induction fs with
  | nil => cases hf
  | cons g fs ih =>
    cases fs with
    | nil =>
      cases List.mem_singleton.mp hf
      exact h
    | cons g' fs =>
      rcases List.mem_cons.mp hf with rfl | hf
      · exact h.map .left
      · exact (ih hf).map .right

theorem holds_of_alts {claim : RuleClaim} {fs : List Form} {n : Nat} {ts : List Token}
    {us : List Tree} {k : Kind} (h : (Form.alts fs).Holds ends claim n ts us k) :
    ∃ f ∈ fs, f.Holds ends claim n ts us k := by
  induction fs with
  | nil =>
    obtain ⟨t, ht, -⟩ := h
    cases ht
  | cons g fs ih =>
    cases fs with
    | nil => exact ⟨g, List.mem_singleton.mpr rfl, h⟩
    | cons g' fs =>
      rcases h with h | h
      · exact ⟨g, List.mem_cons_self, h⟩
      · obtain ⟨f, hf, h⟩ := ih h
        exact ⟨f, List.mem_cons_of_mem _ hf, h⟩

theorem derives_of_alts {fs : List Form} {n : Nat} {ts : List Token} {us : List Tree} {k : Kind}
    (h : Derives ends (Form.alts fs) n ts us k) : ∃ f ∈ fs, Derives ends f n ts us k := by
  have hl : (Form.alts fs).Holds ends (fun r n ts us k => Derives ends (.rule r) n ts us k) n ts us
      k :=
    h.holds fun hr => .rule (hr.derives id)
  obtain ⟨f, hf, hl⟩ := holds_of_alts hl
  exact ⟨f, hf, hl.derives id⟩

/-- Where its test holds, the branch is taken and reads its form; and its test holds where its form
comes next. -/
structure Branch.Serves (b : Branch) (next : Lookahead → Production) (ends : Kind → Prop)
    (inner : Bool) (start : List Token → Prop) (stop : Stop) : Prop where
  next : ∀ v, b.test v → next v = b.body
  read : b.body.Reads b.form ends inner
    (fun ts => start ts ∧ ∃ v : Lookahead, v.ahead = ts ∧ b.test v) stop
  opens : Allows ends inner → ∀ (v : Lookahead) n ts us rest,
    Derives ends b.form n ts us (headKind rest) → v.ahead = ts ++ rest →
    stop.Holds v.constructs rest → b.test v

/-- A branch that goes by the next kind. -/
theorem serves_of_kinds {next : Lookahead → Production}
    (hn : ∀ k ∈ ks, ∀ v : Lookahead, v.kind = k → next v = p)
    (hp : p.Reads f ends inner (atOneOf ks) stop) (hf : f.opens inner ks = true) :
    Branch.Serves ⟨fun v => v.kind ∈ ks, p, f⟩ next ends inner start stop where
  next v h := hn _ h v rfl
  read := hp.mono (by rintro ts ⟨-, v, rfl, h⟩; exact h) fun _ _ => id
  opens := by
    intro he v n ts us rest hd ha _
    show headKind v.ahead ∈ ks
    rw [ha]
    exact headKind_of_opens he hf hd rest

/-- Several branches, each with a test of its own; where none applies, an error is certain. -/
theorem reads_dispatch {next : Lookahead → Production} (bs : List Branch)
    (h : ∀ b ∈ bs, b.Serves next ends inner start stop)
    (helse : ∀ v, start v.ahead → (∀ b ∈ bs, ¬ b.test v) → (next v).Fails v) :
    (look next).Reads (.alts (bs.map Branch.form)) ends inner start stop where
  sound := by
    intro env r r' hs hd
    by_cases ht : ∃ b ∈ bs, b.test (r.look env)
    · obtain ⟨b, hb, ht⟩ := ht
      have hd' : b.body.Does Nonterminal.Spelled env r r' := (h b hb).next _ ht ▸ hd
      exact spells_alts (List.mem_map_of_mem hb) ((h b hb).read.sound env ⟨hs, _, rfl, ht⟩ hd')
    · exact absurd hd (not_does_of_fails (helse _ hs fun b hb hb' => ht ⟨b, hb, hb'⟩))
  complete := by
    intro he env r n ts us rest hl ha hn hstop
    obtain ⟨f, hf, hl⟩ := holds_of_alts hl
    obtain ⟨b, hb, rfl⟩ := List.mem_map.mp hf
    have ht := (h b hb).opens he (r.look env) n ts us rest hl.derives_of_completes ha hstop
    refine takes_look ?_
    rw [(h b hb).next _ ht]
    exact (h b hb).read.complete he env hl ha hn hstop

/-- In a group where `f` has been read, the production makes it a `form`. It runs only where
`middle` holds of the kind after `f`. -/
structure Closes (p : Production) (f form : Form) (ends : Kind → Prop) (inner : Bool)
    (middle : Kind → Bool) (stop after : Stop) : Prop where
  sound : ∀ env {r m r'}, r.built = [] → Spells f env r m → middle (headKind m.ahead) = true →
    p.Does Nonterminal.Spelled env m r' → Spells form env r r'
  complete : Allows ends inner → ∀ env {n ts us rest},
    form.Holds ends (Completes ends) n ts us (headKind rest) → env.depth + n ≤ env.limit →
    after.Holds env.constructs rest →
    ∃ ts₁ us₁ ts₂, ts = ts₁ ++ ts₂ ∧
      f.Holds ends (Completes ends) n ts₁ us₁ (headKind (ts₂ ++ rest)) ∧
      stop.Holds env.constructs (ts₂ ++ rest) ∧ middle (headKind (ts₂ ++ rest)) = true ∧
      ∀ m : Reading, m.ahead = ts₂ ++ rest → (inner = true → m.built = us₁.reverse) →
        ∃ r', Runs noError (.of p) env m r' ∧ r'.ahead = rest ∧
          (inner = true → r'.built = us.reverse)

theorem closes_done {middle : Kind → Bool}
    (hs : ∀ constructs rest, after.Holds constructs rest → stop.Holds constructs rest)
    (hm : ∀ constructs rest, after.Holds constructs rest →
      (Stop.kind middle).Holds constructs rest) :
    done.Closes f f ends inner middle stop after where
  sound := by
    rintro env r m r' - hf - rfl
    exact hf
  complete := by
    intro he env n ts us rest hf hn hafter
    exact ⟨ts, us, [], by simp, hf, hs _ _ hafter, hm _ _ hafter, fun m ha hb => ⟨m, .done, ha, hb⟩⟩

theorem closes_wrap {middle : Kind → Bool} (hq : q.Reads g ends inner start after)
    (hs : ∀ ts, middle (headKind ts) = true → start ts)
    (hg : Fits ends inner stop g after) (hm : Fits ends inner (.kind middle) g after) :
    (wrap k q).Closes f (.node k (.seq f g)) ends inner middle stop after where
  sound := by
    rintro env r m r' hr ⟨ts, us, ha, hb, hf⟩ hmid ⟨w, hw, rfl⟩
    obtain ⟨vs, ws, ha', hb', hg'⟩ := hq.sound env (hs _ hmid) hw
    rw [ha', Token.headKind_append] at hf
    refine ⟨ts ++ vs, [.node k (us ++ ws)], by simp [ha, ha', Reading.wrap], ?_,
      .node (.seq hf hg')⟩
    simp [Reading.wrap, hb', hb, hr]
  complete := by
    rintro he env n ts us rest ⟨vs, rfl, ts₁, us₁, ts₂, us₂, rfl, rfl, hf, hg'⟩ hn hafter
    have hd := hg'.derives_of_completes
    rw [← Token.headKind_append] at hf
    refine ⟨ts₁, us₁, ts₂, rfl, hf, hg he hd hafter,
      (hm he hd hafter : (Stop.kind middle).Holds env.constructs _), fun m ha hb => ?_⟩
    obtain ⟨w, hrun, ha', hb'⟩ := hq.complete he env hg' ha hn hafter
    exact ⟨w.wrap k, .wrap hrun, ha', fun hi => by simp [Reading.wrap, hb' hi, hb hi]⟩

/-- Two ways to go on, by the next kind; elsewhere an error is certain. -/
theorem closes_either {form form' : Form} {next : Lookahead → Production}
    {good good' middle : Kind → Bool}
    (hp : p.Closes f form ends inner good stop after)
    (hq : q.Closes f form' ends inner good' stop after)
    (hnp : ∀ v : Lookahead, good v.kind = true → next v = p)
    (hnq : ∀ v : Lookahead, good' v.kind = true → next v = q)
    (hnone : ∀ v : Lookahead, good v.kind = false → good' v.kind = false → ∀ env r r',
      ¬ (next v).Does Nonterminal.Spelled env r r')
    (hm : ∀ k, middle k = true) :
    (look next).Closes f (.alt form form') ends inner middle stop after where
  sound := by
    intro env r m r' hr hf _ hd
    have hd' : (next (m.look env)).Does Nonterminal.Spelled env m r' := hd
    cases hg : good (m.look env).kind with
    | true => exact (hp.sound env hr hf hg (hnp _ hg ▸ hd')).map .left
    | false =>
      cases hg' : good' (m.look env).kind with
      | true => exact (hq.sound env hr hf hg' (hnq _ hg' ▸ hd')).map .right
      | false => exact absurd hd' (hnone _ hg hg' _ _ _)
  complete := by
    have hlook : ∀ {env : Surroundings} {m : Reading} {rest : List Token}, m.ahead = rest →
        (m.look env).kind = headKind rest := by
      rintro env m rest rfl
      rfl
    rintro he env n ts us rest (hl | hl) hn hafter
    · obtain ⟨ts₁, us₁, ts₂, hts, hf, hs, hmid, hrun⟩ := hp.complete he env hl hn hafter
      refine ⟨ts₁, us₁, ts₂, hts, hf, hs, hm _, fun m ha hb => ?_⟩
      obtain ⟨r', hr, ha', hb'⟩ := hrun m ha hb
      refine ⟨r', .look ?_, ha', hb'⟩
      rwa [hnp _ (by rw [hlook ha]; exact hmid)]
    · obtain ⟨ts₁, us₁, ts₂, hts, hf, hs, hmid, hrun⟩ := hq.complete he env hl hn hafter
      refine ⟨ts₁, us₁, ts₂, hts, hf, hs, hm _, fun m ha hb => ?_⟩
      obtain ⟨r', hr, ha', hb'⟩ := hrun m ha hb
      refine ⟨r', .look ?_, ha', hb'⟩
      rwa [hnq _ (by rw [hlook ha]; exact hmid)]

theorem closes_ite {form form' : Form} {test : Lookahead → Bool} {middle : Kind → Bool}
    (ht : ∀ v : Lookahead, test v = ks.contains v.kind)
    (hp : p.Closes f form ends inner ks.contains stop after)
    (hq : q.Closes f form' ends inner (fun k => !ks.contains k) stop after)
    (hm : ∀ k, middle k = true) :
    (look fun v => if test v then p else q).Closes f (.alt form form') ends inner middle stop
      after := by
  refine closes_either hp hq (fun v h => ?_) (fun v h => ?_) (fun v h h' => ?_) hm
  · rw [ht, h, if_pos rfl]
  · rw [ht, show ks.contains v.kind = false by simpa using h, if_neg Bool.false_ne_true]
  · rw [h] at h'
    cases h'

/-- A group that is closed. -/
theorem reads_group_closes {form : Form} (hp : p.Reads f ends inner start stop)
    (hq : q.Closes f form ends inner (fun _ => true) stop after) :
    (group (andThen p q)).Reads form ends inner start after where
  sound := by
    rintro env r r' hs ⟨m, ⟨w, hw, hq'⟩, rfl⟩
    have hs' : start { r with built := [] }.ahead := hs
    obtain ⟨ts, us, ha, hb, hf⟩ := hq.sound env rfl (hp.sound env hs' hw) rfl hq'
    exact ⟨ts, us, ha, by simp [hb], hf⟩
  complete := by
    intro he env r n ts us rest hl ha hn hafter
    obtain ⟨ts₁, us₁, ts₂, rfl, hf, hs, -, hrun⟩ := hq.complete he env hl hn hafter
    obtain ⟨m, hp', ham, hbm⟩ := hp.complete he env (r := { r with built := [] }) hf
      (by simpa using ha) hn hs
    obtain ⟨r', hq', har, hbr⟩ := hrun m ham fun hi => by simp [hbm hi]
    exact ⟨_, .group (.andThen hp' hq'), har, fun hi => by simp [hbr hi]⟩

end Production

end Modelica
