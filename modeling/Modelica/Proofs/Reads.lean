import Modelica.Proofs.Reads.Does

/-!
# Productions and right-hand sides

A production reads a right-hand side of the grammar (`Production.Reads`) when two things hold of
it. What it reads without errors is what the right-hand side stands for, and it puts the trees over
it that belong there. Conversely, where tokens stand ahead that the right-hand side stands for, it
reads them all and nothing more, provided that what comes after them cannot be taken for a part of
them. Both are stated given the same of the rules that are called, so they can be shown for one
rule after the other, from `reads_node`, `reads_seq_cons` and the lemmas beside them.
-/

namespace Modelica

open Token (headKind nextKind)

/-- What was read from `r` to `r'` is what `f` stands for. -/
def Spells (f : Form) (env : Surroundings) (r r' : Reading) : Prop :=
  ∃ ts us, r.ahead = ts ++ r'.ahead ∧ r'.built = us.reverse ++ r.built ∧
    Derives endGuarded f (env.limit - env.depth) ts us (headKind r'.ahead)

/-- What a call reads is what its rule stands for. -/
def Nonterminal.Spelled : CallClaim := fun rule env r r' =>
  rule.Expects r.ahead → Spells (.rule rule) env r r' ∧ rule.Leaves r'.ahead

/-- The production reads everything before `rest` without an error. With `inner` it is known as well
which trees it adds. -/
def Production.Takes (p : Production) (inner : Bool) (env : Surroundings) (r : Reading)
    (us : List Tree) (rest : List Token) : Prop :=
  ∃ r', Runs noError (.of p) env r r' ∧ r'.ahead = rest ∧
    (inner = true → r'.built = us.reverse ++ r.built)

/-- Where an `end` may be an expression: not before what looks like the end of a block, and outside
the inner rules nowhere. -/
structure Allows (ends : Kind → Prop) (inner : Bool) : Prop where
  guarded : ∀ k, ends k → endGuarded k
  nowhere : inner = true ∨ ∀ k, ¬ ends k

/-- Climbing from a band that is looser than `level` or `level` itself, what `level` stands for is
read up to its end, and the repetition of operators goes on there. What comes next is no operator
that binds at `close` or tighter. -/
def Climbs (close level n : Nat) (ts : List Token) (us : List Tree) (k : Kind) : Prop :=
  Kind.endsBand close k = true → ∀ least ≤ level, ∀ env r rest, r.built = [] →
    r.ahead = ts ++ rest → headKind rest = k → env.depth + n ≤ env.limit →
    ∃ m before, m.ahead = rest ∧ m.built = us.reverse ∧
      (∀ v ∈ before, ∃ l, Band.binaryLevel? (Lookahead.kind v) least = some l ∧ level ≤ l) ∧
      ∀ r', Runs noError (.rest (fun v => (Band.binaryLevel? v.kind least).isSome)
          (Grammar.operation least) before) env m r' →
        Runs noError (.of (.seq [Grammar.leftmost least,
          .many (fun v => (Band.binaryLevel? v.kind least).isSome) (Grammar.operation least)]))
          env r r'

/-- Called before some tokens, the rule reads just them, if what comes next stops it. -/
def Nonterminal.Takes (rule : Nonterminal) (n : Nat) (ts : List Token) (us : List Tree) (k : Kind) :
    Prop :=
  ∀ env r rest, headKind rest = k → r.ahead = ts ++ rest → env.depth + n ≤ env.limit →
    rule.Stops.Holds env.constructs rest → (Production.call rule).Takes rule.inner env r us rest

/-- What a rule stands for, the rule reads. -/
def Completes (ends : Kind → Prop) : RuleClaim := fun rule n ts us k =>
  Derives ends (.rule rule) n ts us k ∧ (Allows ends rule.inner →
    rule.Takes n ts us k ∧ ∀ level, rule = .band level → Climbs level level n ts us k)

/-- The production reads what the right-hand side stands for. Its caller knows `start` of the tokens
ahead and `stop` of those after it. -/
structure Production.Reads (p : Production) (f : Form) (ends : Kind → Prop) (inner : Bool)
    (start : List Token → Prop) (stop : Stop) : Prop where
  sound : ∀ env {r r'}, start r.ahead → p.Does Nonterminal.Spelled env r r' → Spells f env r r'
  complete : Allows ends inner → ∀ env {r n ts us rest},
    f.Holds ends (Completes ends) n ts us (headKind rest) → r.ahead = ts ++ rest →
    env.depth + n ≤ env.limit → stop.Holds env.constructs rest → p.Takes inner env r us rest

/-! ## What is read, piece by piece -/

section

variable {f g : Form} {env : Surroundings} {r m r' : Reading}

theorem Spells.seq (h : Spells f env r m) (h' : Spells g env m r') :
    Spells (.seq f g) env r r' := by
  obtain ⟨ts, us, ha, hb, hd⟩ := h
  obtain ⟨vs, ws, ha', hb', hd'⟩ := h'
  rw [ha', Token.headKind_append] at hd
  exact ⟨ts ++ vs, us ++ ws, by simp [ha, ha'], by simp [hb, hb'], .seq hd hd'⟩

theorem Spells.map (h : Spells f env r r')
    (hd : ∀ {n ts us k}, Derives endGuarded f n ts us k → Derives endGuarded g n ts us k) :
    Spells g env r r' := by
  obtain ⟨ts, us, ha, hb, hf⟩ := h
  exact ⟨ts, us, ha, hb, hd hf⟩

theorem spells_empty : Spells .empty env r r := ⟨[], [], rfl, rfl, .empty⟩

theorem spells_none : Spells (.many f) env r r := ⟨[], [], rfl, rfl, .none⟩

theorem Spells.more (h : Spells f env r m) (h' : Spells (.many f) env m r') :
    Spells (.many f) env r r' := by
  obtain ⟨ts, us, ha, hb, hd⟩ := h
  obtain ⟨vs, ws, ha', hb', hd'⟩ := h'
  rw [ha', Token.headKind_append] at hd
  exact ⟨ts ++ vs, us ++ ws, by simp [ha, ha'], by simp [hb, hb'], .more hd hd'⟩

/-- A token that comes next is read. -/
theorem spells_shift {ks : List Kind} (hk : headKind r.ahead ∈ ks) (he : .endOfInput ∉ ks) :
    Spells (.token ks) env r r.shift := by
  cases ha : r.ahead with
  | nil =>
    rw [ha] at hk
    exact absurd hk he
  | cons t ts =>
    rw [ha] at hk
    rw [Reading.shift_cons ha]
    exact ⟨[t], [.leaf t], ha, rfl, .token hk⟩

end

namespace Production

variable {p q : Production} {inner : Bool} {env : Surroundings} {r : Reading}
variable {us vs : List Tree} {ts rest : List Token}

theorem takes_andThen (hp : p.Takes inner env r us (ts ++ rest))
    (hq : ∀ m, m.ahead = ts ++ rest → q.Takes inner env m vs rest) :
    (andThen p q).Takes inner env r (us ++ vs) rest := by
  obtain ⟨m, hrun, ha, hb⟩ := hp
  obtain ⟨r', hrun', ha', hb'⟩ := hq m ha
  refine ⟨r', .andThen hrun hrun', ha', fun hi => ?_⟩
  rw [hb' hi, hb hi]
  simp

theorem takes_done (h : r.ahead = rest) : done.Takes inner env r [] rest :=
  ⟨r, .done, h, fun _ => rfl⟩

theorem takes_shift {t : Token} (h : r.ahead = t :: rest) :
    shift.Takes inner env r [.leaf t] rest := by
  refine ⟨r.shift, .shift, ?_, fun _ => ?_⟩ <;> rw [Reading.shift_cons h]
  rfl

theorem takes_look {next : Lookahead → Production}
    (h : (next (r.look env)).Takes inner env r us rest) :
    (look next).Takes inner env r us rest := by
  obtain ⟨r', hrun, ha, hb⟩ := h
  exact ⟨r', .look hrun, ha, hb⟩

/-- Outside the inner rules trees do not matter. -/
theorem Takes.outer (h : p.Takes inner env r us rest) : p.Takes false env r vs rest := by
  obtain ⟨r', hrun, ha, -⟩ := h
  exact ⟨r', hrun, ha, nofun⟩

theorem takes_call {rule : Nonterminal} (h : rule.production.Takes inner env r us rest) :
    (call rule).Takes inner env r us rest := by
  obtain ⟨r', hrun, ha, hb⟩ := h
  exact ⟨r', .call hrun, ha, hb⟩

theorem takes_node {k : Kind} {ps : List Production}
    (h : (seq ps).Takes inner env { r with built := [] } us rest) :
    (node k ps).Takes inner env r [.node k us] rest := by
  obtain ⟨m, hrun, ha, hb⟩ := h
  refine ⟨_, runs_node.mpr ⟨m, hrun, rfl⟩, ha, fun hi => ?_⟩
  simp [hb hi]

end Production

/-! ## What comes after -/

theorem Kind.mem_all (k : Kind) : k ∈ Kind.all := by
  cases k <;> decide

theorem Stop.holds_of_kinds {good good' : Kind → Bool}
    (h : (Kind.all.all fun k => !good k || good' k) = true) (constructs : List OpenConstruct)
    (rest : List Token) (hg : (Stop.kind good).Holds constructs rest) :
    (Stop.kind good').Holds constructs rest := by
  have hk := List.all_eq_true.mp h _ (Kind.mem_all (headKind rest))
  have hr : good (headKind rest) = true := hg
  show good' (headKind rest) = true
  simpa [hr] using hk

/-- A rule reads its right-hand side. -/
def Nonterminal.IsRead (ends : Kind → Prop) (rule : Nonterminal) : Prop :=
  rule.production.Reads rule.form ends rule.inner rule.Expects rule.Stops

/-- `f`, and what comes after it, keep to a condition. -/
def Fits (ends : Kind → Prop) (inner : Bool) (stop : Stop) (f : Form) (after : Stop) : Prop :=
  Allows ends inner → ∀ {constructs n ts us rest}, Derives ends f n ts us (headKind rest) →
    after.Holds constructs rest → stop.Holds constructs (ts ++ rest)

/-- A token and what comes after it. -/
theorem Derives.of_leaf_seq {ends : Kind → Prop} {k k' : Kind} {f : Form} {n : Nat}
    {ts : List Token} {us : List Tree} (h : Derives ends (.seq (.leaf k) f) n ts us k') :
    ∃ t vs ws, ts = t :: vs ∧ us = .leaf t :: ws ∧ t.kind = k ∧ Derives ends f n vs ws k' := by
  cases h with
  | seq hk hf =>
    cases hk with
    | token ht => exact ⟨_, _, _, rfl, rfl, List.mem_singleton.mp ht, hf⟩

/-- All that can come first is good. -/
def Form.clears (inner : Bool) (good after : Kind → Bool) (f : Form) : Bool :=
  (f.first inner).all good && (!f.nullable || Kind.all.all fun k => !after k || good k)

section

variable {ends : Kind → Prop} {inner : Bool} {f g : Form}

theorem Derives.starts_of_allows (he : Allows ends inner) {n : Nat} {ts : List Token}
    {us : List Tree} {k : Kind} (h : Derives ends f n ts us k) :
    StartsIn f.nullable (f.first inner) (f.second inner) ts :=
  h.starts he.nowhere

theorem fits_of_clears {good after : Kind → Bool} (h : f.clears inner good after = true) :
    Fits ends inner (.kind good) f (.kind after) := by
  intro he constructs n ts us rest hd ha
  simp only [Form.clears, Bool.and_eq_true, Bool.or_eq_true, Bool.not_eq_true'] at h
  have hs := hd.starts_of_allows he
  cases ts with
  | nil =>
    have hall := h.2.resolve_left (by simp [hs.empty rfl])
    have hk := List.all_eq_true.mp hall _ (Kind.mem_all (headKind rest))
    have ha' : after (headKind rest) = true := ha
    show good (headKind rest) = true
    simpa [ha'] using hk
  | cons t ts => exact List.all_eq_true.mp h.1 _ (hs.first t ts rfl)

theorem fits_any {after : Stop} : Fits ends inner .any f after :=
  fun _ _ _ _ _ _ _ _ => rfl

/-- Where `f` is not empty, it hides what comes after it. -/
theorem fits_of_first {good : Kind → Bool} {after : Stop}
    (h : (!f.nullable && (f.first inner).all good) = true) :
    Fits ends inner (.kind good) f after := by
  intro he constructs n ts us rest hd _
  simp only [Bool.and_eq_true, Bool.not_eq_true'] at h
  have hs := hd.starts_of_allows he
  cases ts with
  | nil =>
    rw [h.1] at hs
    exact absurd (hs.empty rfl) (by simp)
  | cons t ts => exact List.all_eq_true.mp h.2 _ (hs.first t ts rfl)

/-- What `f` stands for starts with one of these kinds. -/
def Form.opens (inner : Bool) (ks : List Kind) (f : Form) : Bool :=
  !f.nullable && (f.first inner).all ks.contains

theorem headKind_of_opens (he : Allows ends inner) {ks : List Kind} (h : f.opens inner ks = true)
    {n : Nat} {ts : List Token} {us : List Tree} {k : Kind} (hd : Derives ends f n ts us k)
    (rest : List Token) : headKind (ts ++ rest) ∈ ks := by
  simp only [Form.opens, Bool.and_eq_true, Bool.not_eq_true'] at h
  have hs := hd.starts_of_allows he
  cases ts with
  | nil =>
    rw [h.1] at hs
    exact absurd (hs.empty rfl) (by simp)
  | cons t ts => exact List.contains_iff_mem.mp (List.all_eq_true.mp h.2 _ (hs.first t ts rfl))

/-- A part is left out where the next token is none that it starts with. -/
theorem Derives.of_opt_seq (he : Allows ends inner) {ks : List Kind} (hf : f.opens inner ks = true)
    {n : Nat} {ts rest : List Token} {us : List Tree} {k : Kind}
    (hd : Derives ends (.seq (.opt f) g) n ts us k) (hk : headKind (ts ++ rest) ∉ ks) :
    Derives ends g n ts us k := by
  cases hd with
  | @seq _ _ _ _ _ vs _ _ hopt hg =>
    cases hopt with
    | left h =>
      rw [List.append_assoc] at hk
      exact absurd (headKind_of_opens he hf h (vs ++ rest)) hk
    | right h =>
      cases h
      exact hg

theorem Form.Holds.derives_of_completes {n : Nat} {ts : List Token} {us : List Tree} {k : Kind}
    (h : f.Holds ends (Completes ends) n ts us k) : Derives ends f n ts us k :=
  h.derives fun hc => hc.1

end

/-! ## Steps -/

namespace Production

variable {ends : Kind → Prop} {inner : Bool} {start : List Token → Prop} {stop after : Stop}
variable {p q : Production} {ps : List Production} {f g : Form} {fs : List Form} {k : Kind}
variable {ks : List Kind}

/-- Nothing is known of what comes next. -/
def anywhere (_ : List Token) : Prop := True

/-- One of these kinds comes next. -/
def atOneOf (ks : List Kind) (ts : List Token) : Prop := headKind ts ∈ ks

theorem Reads.mono {start' : List Token → Prop} {stop' : Stop}
    (h : p.Reads f ends inner start stop) (hs : ∀ ts, start' ts → start ts)
    (ht : ∀ constructs rest, stop'.Holds constructs rest → stop.Holds constructs rest) :
    p.Reads f ends inner start' stop' where
  sound env _ _ hk hd := h.sound env (hs _ hk) hd
  complete he env _ _ _ _ _ hf ha hn hstop := h.complete he env hf ha hn (ht _ _ hstop)

/-- Two right-hand sides that stand for the same. -/
theorem Reads.map (h : p.Reads f ends inner start stop)
    (hd : ∀ {n ts us k}, Derives endGuarded f n ts us k → Derives endGuarded g n ts us k)
    (hh : ∀ {n ts us k}, g.Holds ends (Completes ends) n ts us k →
      f.Holds ends (Completes ends) n ts us k) :
    p.Reads g ends inner start stop where
  sound env _ _ hk hdoes := (h.sound env hk hdoes).map hd
  complete he env _ _ _ _ _ hg ha hn hstop := h.complete he env (hh hg) ha hn hstop

theorem reads_assoc {h : Form} (hp : p.Reads (.seq (.seq f g) h) ends inner start stop) :
    p.Reads (.seq f (.seq g h)) ends inner start stop := by
  refine hp.map (fun hd => ?_) ?_
  · cases hd with
    | seq hfg hh =>
      cases hfg with
      | @seq _ _ _ ts us vs ws _ hf hg =>
        rw [List.append_assoc, List.append_assoc]
        refine .seq ?_ (.seq hg hh)
        rwa [Token.nextKind_append]
  · rintro n _ _ k ⟨ts, us, _, _, rfl, rfl, hf, vs, ws, xs, ys, rfl, rfl, hg, hh⟩
    rw [Token.nextKind_append] at hf
    exact ⟨ts ++ vs, us ++ ws, xs, ys, by simp, by simp, ⟨ts, us, vs, ws, rfl, rfl, hf, hg⟩, hh⟩

theorem reads_assoc_symm {h : Form} (hp : p.Reads (.seq f (.seq g h)) ends inner start stop) :
    p.Reads (.seq (.seq f g) h) ends inner start stop := by
  refine hp.map (fun hd => ?_) ?_
  · cases hd with
    | seq hf hgh =>
      cases hgh with
      | seq hg hh =>
        rw [← List.append_assoc, ← List.append_assoc]
        rw [Token.nextKind_append] at hf
        exact .seq (.seq hf hg) hh
  · rintro n _ _ k ⟨_, _, xs, ys, rfl, rfl, ⟨ts, us, vs, ws, rfl, rfl, hf, hg⟩, hh⟩
    rw [← Token.nextKind_append] at hf
    exact ⟨ts, us, vs ++ xs, ws ++ ys, by simp, by simp, hf, vs, ws, xs, ys, rfl, rfl, hg, hh⟩

theorem reads_done : done.Reads .empty ends inner start stop where
  sound := by
    rintro env r r' - rfl
    exact spells_empty
  complete := by
    rintro - env r n ts us rest ⟨rfl, rfl⟩ ha - -
    exact takes_done ha

/-- A warning is no error. -/
theorem reads_report {fault : Diagnostic Spot} (h : fault.isError = false) :
    (report fault).Reads .empty ends inner start stop where
  sound := by
    rintro env r r' - ⟨-, rfl⟩
    exact ⟨[], [], by simp, by simp, .empty⟩
  complete := by
    rintro - env r n ts us rest ⟨rfl, rfl⟩ ha - -
    exact ⟨r.report fault, .report h, by simpa using ha, by simp⟩

theorem reads_shift (h : ∀ ts, start ts → headKind ts ∈ ks) (hk : .endOfInput ∉ ks) :
    shift.Reads (.token ks) ends inner start stop where
  sound := by
    rintro env r r' hs rfl
    exact spells_shift (h _ hs) hk
  complete := by
    rintro - env r n ts us rest ⟨t, -, rfl, rfl⟩ ha - -
    exact takes_shift ha

/-- What comes second knows what it needs from what came first. -/
theorem reads_andThen_of {startq : List Token → Prop} (hp : p.Reads f ends inner start stop)
    (hq : q.Reads g ends inner startq after)
    (hs : ∀ env {r m}, start r.ahead → p.Does Nonterminal.Spelled env r m → startq m.ahead)
    (hg : Fits ends inner stop g after) :
    (andThen p q).Reads (.seq f g) ends inner start after where
  sound := by
    rintro env r r' hk ⟨m, hdp, hdq⟩
    exact (hp.sound env hk hdp).seq (hq.sound env (hs env hk hdp) hdq)
  complete := by
    rintro he env r n ts us rest ⟨ts₁, us₁, ts₂, us₂, rfl, rfl, hf, hg'⟩ ha hn hafter
    have hstop := hg he hg'.derives_of_completes hafter
    rw [← Token.headKind_append] at hf
    exact takes_andThen (hp.complete he env hf (by simpa using ha) hn hstop) fun m hm =>
      hq.complete he env hg' hm hn hafter

theorem reads_andThen (hp : p.Reads f ends inner start stop)
    (hq : q.Reads g ends inner anywhere after) (hg : Fits ends inner stop g after) :
    (andThen p q).Reads (.seq f g) ends inner start after :=
  reads_andThen_of hp hq (fun _ _ _ => fun _ _ => trivial) hg

/-- What comes first reads nothing. -/
theorem reads_andThen_empty (hp : p.Reads .empty ends inner start stop)
    (hq : q.Reads f ends inner start after) (hf : Fits ends inner stop f after) :
    (andThen p q).Reads f ends inner start after := by
  refine (reads_andThen_of hp hq (fun env r m hs hd => ?_) hf).map (fun hd => ?_)
    fun hh => ⟨[], [], _, _, rfl, rfl, ⟨rfl, rfl⟩, hh⟩
  · obtain ⟨_, _, ha, -, hempty⟩ := hp.sound env hs hd
    cases hempty
    have ha' : r.ahead = m.ahead := ha
    exact ha' ▸ hs
  · cases hd with
    | seq hnil hf =>
      cases hnil
      exact hf

theorem reads_andThen_assoc {w : Production}
    (h : (andThen p (andThen q w)).Reads f ends inner start stop) :
    (andThen (andThen p q) w).Reads f ends inner start stop where
  sound := by
    rintro env r r' hs ⟨m', ⟨m, hp, hq⟩, hw⟩
    exact h.sound env hs ⟨m, hp, m', hq, hw⟩
  complete := by
    intro he env r n ts us rest hl ha hn hstop
    obtain ⟨r', hrun, ha', hb⟩ := h.complete he env hl ha hn hstop
    obtain ⟨m, hp, hrest⟩ := runs_andThen.mp hrun
    obtain ⟨m', hq, hw⟩ := runs_andThen.mp hrest
    exact ⟨r', .andThen (.andThen hp hq) hw, ha', hb⟩

theorem reads_seq_cons (hp : p.Reads f ends inner start stop)
    (hq : (seq (q :: ps)).Reads (.sequence (g :: fs)) ends inner anywhere after)
    (hg : Fits ends inner stop (.sequence (g :: fs)) after) :
    (seq (p :: q :: ps)).Reads (.sequence (f :: g :: fs)) ends inner start after :=
  reads_andThen hp hq hg

theorem reads_node (h : (seq ps).Reads f ends inner start stop) :
    (node k ps).Reads (.node k f) ends inner start stop where
  sound := by
    intro env r r' hs hd
    obtain ⟨m, hm, rfl⟩ := does_node.mp hd
    have hs' : start { r with built := [] }.ahead := hs
    obtain ⟨ts, us, ha, hb, hf⟩ := h.sound env hs' hm
    exact ⟨ts, [.node k us], ha, by simp [hb], .node hf⟩
  complete := by
    rintro he env r n ts us rest ⟨vs, rfl, hf⟩ ha hn hstop
    exact takes_node (h.complete he env hf ha hn hstop)

theorem reads_call {rule : Nonterminal} (hs : ∀ ts, start ts → rule.Expects ts)
    (hi : inner = true → rule.inner = true) :
    (call rule).Reads (.rule rule) ends inner start rule.Stops where
  sound := by
    intro env r r' hk hd
    exact (hd (hs _ hk)).1
  complete := by
    rintro he env r n ts us rest ⟨-, hc⟩ ha hn hstop
    have he' : Allows ends rule.inner := ⟨he.guarded, he.nowhere.imp_left hi⟩
    obtain ⟨r', hrun, ha', hb⟩ := (hc he').1 env r rest rfl ha hn hstop
    exact ⟨r', hrun, ha', fun h => hb (hi h)⟩

theorem reads_inContext {context : Context} (h : p.Reads f ends inner start stop) :
    (inContext context p).Reads f ends inner start stop where
  sound env _ _ hs hd := h.sound { env with context } hs hd
  complete := by
    intro he env r n ts us rest hf ha hn hstop
    obtain ⟨r', hrun, ha', hb⟩ := h.complete he { env with context } hf ha hn hstop
    exact ⟨r', .inContext hrun, ha', hb⟩

theorem reads_opening {block : OpenConstruct}
    (h : p.Reads f ends inner start stop)
    (hs : ∀ constructs rest, after.Holds constructs rest → stop.Holds (block :: constructs) rest) :
    (opening block p).Reads f ends inner start after where
  sound env _ _ hk hd := h.sound { env with constructs := block :: env.constructs } hk hd
  complete := by
    intro he env r n ts us rest hf ha hn hstop
    obtain ⟨r', hrun, ha', hb⟩ :=
      h.complete he { env with constructs := block :: env.constructs } hf ha hn (hs _ _ hstop)
    exact ⟨r', .opening hrun, ha', hb⟩

/-- What is too deep is an error. -/
theorem reads_deeper (h : p.Reads f ends inner start stop) :
    (deeper p).Reads (.level f) ends inner start stop where
  sound := by
    rintro env r r' hs (⟨hd, hp⟩ | ⟨-, hq⟩)
    · obtain ⟨ts, us, ha, hb, hf⟩ := h.sound _ hs hp
      refine ⟨ts, us, ha, hb, ?_⟩
      have hn : env.limit - env.depth = (env.limit - (env.depth + 1)) + 1 := by omega
      rw [hn]
      exact .level hf
    · exact absurd hq (not_does_of_fails (fails_fault (v := r.look _)))
  complete := by
    rintro he env r n ts us rest ⟨m, rfl, hf⟩ ha hn hstop
    obtain ⟨r', hrun, ha', hb⟩ :=
      h.complete he { env with depth := env.depth + 1 } hf ha
        (show env.depth + 1 + m ≤ env.limit by omega) hstop
    exact ⟨r', .within (by omega) hrun, ha', hb⟩

end Production

end Modelica
