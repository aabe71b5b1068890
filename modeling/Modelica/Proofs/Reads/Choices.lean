import Modelica.Proofs.Reads

/-!
# Reading one of several right-hand sides

What tells the ways to go on apart is what they start with, or a test of what lies further ahead.
A part may be left out where what it starts with cannot come after it.
-/

namespace Modelica

open Token (headKind nextKind)

namespace Production

variable {ends : Kind → Prop} {inner : Bool} {start : List Token → Prop} {stop after : Stop}
variable {p q : Production} {ps : List Production} {f g : Form} {fs : List Form} {k : Kind}
variable {ks : List Kind}

theorem reads_alt_comm (h : p.Reads (.alt f g) ends inner start stop) :
    p.Reads (.alt g f) ends inner start stop := by
  refine h.map (fun hd => ?_) Or.symm
  cases hd with
  | left hf => exact .right hf
  | right hg => exact .left hg

/-- Two nodes that differ in how they start are one node with a choice at its start. -/
theorem reads_node_alt {h : Form}
    (hp : p.Reads (.alt (.node k (.seq f h)) (.node k (.seq g h))) ends inner start stop) :
    p.Reads (.node k (.seq (.alt f g) h)) ends inner start stop := by
  refine hp.map (fun hd => ?_) fun hh => ?_
  · cases hd with
    | left hd =>
      cases hd with
      | node hd =>
        cases hd with
        | seq hf hh => exact .node (.seq (.left hf) hh)
    | right hd =>
      cases hd with
      | node hd =>
        cases hd with
        | seq hg hh => exact .node (.seq (.right hg) hh)
  · obtain ⟨vs, rfl, _, _, _, _, rfl, rfl, hstart, hh⟩ := hh
    exact hstart.imp (fun hf => ⟨_, rfl, _, _, _, _, rfl, rfl, hf, hh⟩)
      fun hg => ⟨_, rfl, _, _, _, _, rfl, rfl, hg, hh⟩

/-- A choice by a test, where what is chosen depends on what comes next in other ways too. -/
theorem reads_cases {next : Lookahead → Production} {test : Lookahead → Bool}
    {startp startq : List Token → Prop}
    (hp : ∀ v, test v = true → (next v).Reads f ends inner startp stop)
    (hq : ∀ v, test v = false → (next v).Reads g ends inner startq stop)
    (hsp : ∀ v : Lookahead, test v = true → start v.ahead → startp v.ahead)
    (hsq : ∀ v : Lookahead, test v = false → start v.ahead → startq v.ahead)
    (hf : Allows ends inner → ∀ (v : Lookahead) n ts us rest,
      Derives ends f n ts us (headKind rest) →
      v.ahead = ts ++ rest → stop.Holds v.constructs rest → test v = true)
    (hg : Allows ends inner → ∀ (v : Lookahead) n ts us rest,
      Derives ends g n ts us (headKind rest) →
      v.ahead = ts ++ rest → stop.Holds v.constructs rest → test v = false) :
    (look next).Reads (.alt f g) ends inner start stop where
  sound := by
    intro env r r' hs hd
    cases ht : test (r.look env) with
    | true => exact ((hp _ ht).sound env (hsp _ ht hs) hd).map .left
    | false => exact ((hq _ ht).sound env (hsq _ ht hs) hd).map .right
  complete := by
    rintro he env r n ts us rest (hl | hr) ha hn hstop
    · have ht := hf he (r.look env) n ts us rest hl.derives_of_completes ha hstop
      exact takes_look ((hp _ ht).complete he env hl ha hn hstop)
    · have ht := hg he (r.look env) n ts us rest hr.derives_of_completes ha hstop
      exact takes_look ((hq _ ht).complete he env hr ha hn hstop)

/-- A choice between two productions by a test. -/
theorem reads_ite {test : Lookahead → Bool} {startp startq : List Token → Prop}
    (hp : p.Reads f ends inner startp stop) (hq : q.Reads g ends inner startq stop)
    (hsp : ∀ v : Lookahead, test v = true → start v.ahead → startp v.ahead)
    (hsq : ∀ v : Lookahead, test v = false → start v.ahead → startq v.ahead)
    (hf : Allows ends inner → ∀ (v : Lookahead) n ts us rest,
      Derives ends f n ts us (headKind rest) →
      v.ahead = ts ++ rest → stop.Holds v.constructs rest → test v = true)
    (hg : Allows ends inner → ∀ (v : Lookahead) n ts us rest,
      Derives ends g n ts us (headKind rest) →
      v.ahead = ts ++ rest → stop.Holds v.constructs rest → test v = false) :
    (look fun v => if test v then p else q).Reads (.alt f g) ends inner start stop := by
  refine reads_cases (fun v h => ?_) (fun v h => ?_) hsp hsq hf hg
  · rwa [if_pos h]
  · rwa [if_neg (by simp [h])]

/-- A choice by the next kind, where the second production knows that it is another one. -/
theorem reads_ite_kinds {test : Lookahead → Bool} {startq : List Token → Prop}
    (ht : ∀ v : Lookahead, test v = ks.contains v.kind)
    (hp : p.Reads f ends inner (atOneOf ks) stop) (hq : q.Reads g ends inner startq stop)
    (hs : ∀ ts, start ts → headKind ts ∉ ks → startq ts)
    (hf : f.opens inner ks = true) (hg : Fits ends inner (.except ks) g stop) :
    (look fun v => if test v then p else q).Reads (.alt f g) ends inner start stop := by
  refine reads_ite hp hq (fun v h _ => ?_) (fun v h hstart => hs _ hstart fun hk => ?_) ?_ ?_
  · rw [ht] at h
    exact List.contains_iff_mem.mp h
  · rw [ht, Lookahead.kind, List.contains_iff_mem.mpr hk] at h
    cases h
  · intro he v n ts us rest hd ha _
    rw [ht, Lookahead.kind, ha]
    exact List.contains_iff_mem.mpr (headKind_of_opens he hf hd rest)
  · intro he v n ts us rest hd ha hstop
    have := hg he hd hstop
    rw [ht, Lookahead.kind, ha]
    simpa [Stop.except, Stop.Holds] using this

/-- A choice by the next kind. -/
theorem reads_ite_kind {test : Lookahead → Bool}
    (ht : ∀ v : Lookahead, test v = ks.contains v.kind)
    (hp : p.Reads f ends inner (atOneOf ks) stop) (hq : q.Reads g ends inner anywhere stop)
    (hf : f.opens inner ks = true) (hg : Fits ends inner (.except ks) g stop) :
    (look fun v => if test v then p else q).Reads (.alt f g) ends inner start stop :=
  reads_ite_kinds ht hp hq (fun _ _ _ => trivial) hf hg

theorem sees_eq_contains (v : Lookahead) (k : Kind) : v.sees k = [k].contains v.kind := by
  rw [Bool.eq_iff_iff]
  simp [Lookahead.sees]

/-- For stops that go by the next kind. -/
theorem Reads.weaken {good good' : Kind → Bool} (h : p.Reads f ends inner start (.kind good))
    (hg : (Kind.all.all fun k => !good' k || good k) = true) :
    p.Reads f ends inner start (.kind good') :=
  h.mono (fun _ => id) (Stop.holds_of_kinds hg)

theorem Reads.of_any (h : p.Reads f ends inner start .any) : p.Reads f ends inner start stop :=
  h.mono (fun _ => id) fun _ _ _ => rfl

theorem reads_look {next : Lookahead → Production}
    (h : ∀ v, (next v).Reads f ends inner start stop) :
    (look next).Reads f ends inner start stop where
  sound env r _ hs hd := (h (r.look env)).sound env hs hd
  complete he env r _ _ _ _ hf ha hn hstop :=
    takes_look ((h (r.look env)).complete he env hf ha hn hstop)

/-- A look ahead that leaves no choice. -/
theorem reads_look_of {next : Lookahead → Production} (hp : p.Reads f ends inner start stop)
    (hs : ∀ v : Lookahead, start v.ahead → next v = p)
    (hf : Allows ends inner → ∀ (v : Lookahead) n ts us rest,
      Derives ends f n ts us (headKind rest) → v.ahead = ts ++ rest →
      stop.Holds v.constructs rest → next v = p) :
    (look next).Reads f ends inner start stop where
  sound := by
    intro env r r' hk hd
    have hd' : p.Does Nonterminal.Spelled env r r' := hs (r.look env) hk ▸ hd
    exact hp.sound env hk hd'
  complete := by
    intro he env r n ts us rest hl ha hn hstop
    refine takes_look ?_
    rw [hf he (r.look env) n ts us rest hl.derives_of_completes ha hstop]
    exact hp.complete he env hl ha hn hstop

/-- Where a test holds, the form is read; elsewhere an error is certain. -/
theorem reads_guard_look {test : Lookahead → Bool} {next : Lookahead → Production}
    {startp : List Token → Prop}
    (hp : ∀ v, test v = true → (next v).Reads f ends inner startp stop)
    (hq : ∀ v, test v = false → (next v).Fails v)
    (hs : ∀ v : Lookahead, test v = true → startp v.ahead)
    (ht : Allows ends inner → ∀ (v : Lookahead) n ts us rest,
      Derives ends f n ts us (headKind rest) → v.ahead = ts ++ rest → test v = true) :
    (look next).Reads f ends inner start stop where
  sound := by
    intro env r r' _ hd
    cases h : test (r.look env) with
    | true => exact (hp _ h).sound env (hs _ h) hd
    | false => exact absurd hd (not_does_of_fails (hq _ h))
  complete := by
    intro he env r n ts us rest hl ha hn hstop
    have h := ht he (r.look env) n ts us rest hl.derives_of_completes ha
    exact takes_look ((hp _ h).complete he env hl ha hn hstop)

theorem reads_guard_test {test : Lookahead → Bool} {other : Lookahead → Production}
    {startp : List Token → Prop} (hp : p.Reads f ends inner startp stop)
    (hs : ∀ v : Lookahead, test v = true → startp v.ahead)
    (ht : Allows ends inner → ∀ (v : Lookahead) n ts us rest,
      Derives ends f n ts us (headKind rest) → v.ahead = ts ++ rest → test v = true)
    (hq : ∀ v, (other v).Fails v) :
    (look fun v => if test v then p else other v).Reads f ends inner start stop := by
  refine reads_guard_look (fun v h => ?_) (fun v h => ?_) hs ht
  · rwa [if_pos h]
  · rw [if_neg (by simp [h])]
    exact hq v

/-- A production that runs only where a test fails. -/
theorem reads_guard_not {test : Lookahead → Bool} {other : Lookahead → Production}
    {startp : List Token → Prop} (hp : p.Reads f ends inner startp stop)
    (hs : ∀ v : Lookahead, test v = false → startp v.ahead)
    (ht : Allows ends inner → ∀ (v : Lookahead) n ts us rest,
      Derives ends f n ts us (headKind rest) → v.ahead = ts ++ rest → test v = false)
    (hq : ∀ v, (other v).Fails v) :
    (look fun v => if test v then other v else p).Reads f ends inner start stop := by
  refine @reads_guard_look _ _ _ _ _ (fun v => !test v) _ _ (fun v h => ?_) (fun v h => ?_)
    (fun v h => hs v (by simpa using h))
    fun he v n ts us rest hd ha => by simp [ht he v n ts us rest hd ha]
  · rw [Bool.not_eq_true'] at h
    rwa [if_neg (by simp [h])]
  · rw [Bool.not_eq_false'] at h
    rw [if_pos h]
    exact hq v

theorem reads_guard {test : Lookahead → Bool} {other : Lookahead → Production}
    (ht : ∀ v : Lookahead, test v = ks.contains v.kind)
    (hp : p.Reads f ends inner (atOneOf ks) stop) (hf : f.opens inner ks = true)
    (hq : ∀ v, (other v).Fails v) :
    (look fun v => if test v then p else other v).Reads f ends inner start stop := by
  refine reads_guard_test hp (fun v h => ?_) (fun he v n ts us rest hd ha => ?_) hq
  · rw [ht] at h
    exact List.contains_iff_mem.mp h
  · rw [ht, Lookahead.kind, ha]
    exact List.contains_iff_mem.mpr (headKind_of_opens he hf hd rest)

theorem opens_leaf : (Form.leaf k).opens inner [k] = true := by
  simp [Form.opens, Form.leaf, Form.nullable, Form.first]

theorem reads_expect (hk : k ≠ .endOfInput) :
    (expect k).Reads (.leaf k) ends inner start .any :=
  reads_guard (sees_eq_contains · k)
    (reads_shift (fun _ h => h) (by simpa using hk.symm)) opens_leaf fun _ => fails_missing

theorem reads_expectThen (hk : k ≠ .endOfInput) (hp : p.Reads f ends inner anywhere stop) :
    (expectThen k p).Reads (.seq (.leaf k) f) ends inner start stop := by
  refine reads_guard (sees_eq_contains · k)
    (reads_andThen (reads_shift (fun _ h => h) (by simpa using hk.symm)) hp fits_any) ?_
    fun _ => fails_missing
  simp [Form.opens, Form.nullable, Form.first, Form.leaf]

/-- A part that is there if one of some kinds comes next. -/
theorem reads_optional {good : Kind → Bool} {test : Lookahead → Bool}
    (ht : ∀ v : Lookahead, test v = ks.contains v.kind)
    (hp : p.Reads f ends inner (atOneOf ks) (.kind good)) (hf : f.opens inner ks = true) :
    (look fun v => if test v then p else done).Reads (.opt f) ends inner start
      (.kind fun k => good k && !ks.contains k) := by
  refine reads_ite_kind ht (hp.mono (fun _ => id) fun _ rest hr => ?_) reads_done hf ?_
  · exact ((Bool.and_eq_true _ _).mp hr).1
  · intro he constructs n ts us rest hd hr
    cases hd
    exact ((Bool.and_eq_true _ _).mp hr).2

theorem reads_before {good : Kind → Bool}
    (hp : p.Reads f ends inner (atOneOf [k]) (.kind good)) (hf : f.opens inner [k] = true) :
    (before k p).Reads (.opt f) ends inner start (.kind fun x => good x && !([k].contains x)) :=
  reads_optional (sees_eq_contains · k) hp hf

theorem reads_accept (hk : k ≠ .endOfInput) :
    (accept k).Reads (.opt (.leaf k)) ends inner start (.except [k]) := by
  have hs : shift.Reads (.leaf k) ends inner (atOneOf [k]) .any :=
    reads_shift (fun _ h => h) (by simpa using hk.symm)
  exact reads_optional (sees_eq_contains · k) hs opens_leaf

/-- A token that is known to be there, or known not to be there. -/
theorem reads_accept_seen (hk : k ≠ .endOfInput) :
    (accept k).Reads (.leaf k) ends inner (atOneOf [k]) stop := by
  refine reads_look_of (reads_shift (fun _ h => h) (by simpa using hk.symm)) (fun v h => ?_)
    fun he v n ts us rest hd ha _ => ?_
  · exact if_pos (beq_iff_eq.mpr (List.mem_singleton.mp h))
  · refine if_pos (beq_iff_eq.mpr ?_)
    rw [Lookahead.kind, ha]
    exact List.mem_singleton.mp (headKind_of_opens he opens_leaf hd rest)

theorem reads_accept_unseen :
    (accept k).Reads .empty ends inner (fun ts => headKind ts ≠ k) (.except [k]) := by
  refine reads_look_of reads_done (fun v h => ?_) fun he v n ts us rest hd ha hstop => ?_
  · exact if_neg fun hs => h (beq_iff_eq.mp hs)
  · cases hd
    refine if_neg fun hs => ?_
    have hk : headKind rest = k := by
      rw [← beq_iff_eq.mp hs, Lookahead.kind, ha]
      rfl
    simp [Stop.except, Stop.Holds, hk] at hstop

theorem reads_acceptAny (hk : .endOfInput ∉ ks) :
    (acceptAny ks).Reads (.opt (.token ks)) ends inner start (.except ks) := by
  have hs : shift.Reads (.token ks) ends inner (atOneOf ks) .any := reads_shift (fun _ h => h) hk
  exact reads_optional (fun _ => rfl) hs (by simp [Form.opens, Form.nullable, Form.first])

/-- A part that is left out where a token that comes after it is next. -/
theorem reads_unless_nil {good : Kind → Bool} {test : Lookahead → Bool}
    (ht : ∀ v : Lookahead, test v = ks.contains v.kind)
    (hp : p.Reads f ends inner anywhere (.kind good))
    (hg : (ks.all good && (f.first inner).all (!ks.contains ·)) = true)
    (hnil : ∀ {n us k}, Derives ends f n [] us k → us = []) :
    (look fun v => if test v then done else p).Reads (.opt f) ends inner start (.only ks) where
  sound := by
    intro env r r' hs hd
    simp only [Does] at hd
    split at hd
    · rw [hd]
      exact spells_empty.map .right
    · exact (hp.sound env trivial hd).map .left
  complete := by
    intro he env r n ts us rest hl ha hn hstop
    have hr : headKind rest ∈ ks := List.contains_iff_mem.mp hstop
    simp only [Bool.and_eq_true, List.all_eq_true] at hg
    have hdone : ∀ {us}, r.ahead = rest → us = [] →
        (if test (r.look env) then done else p).Takes inner env r us rest := by
      rintro us hrest rfl
      rw [if_pos]
      · exact takes_done hrest
      · rw [ht, Lookahead.kind]
        exact List.contains_iff_mem.mpr (show headKind r.ahead ∈ ks from hrest ▸ hr)
    refine takes_look ?_
    rcases hl with hl | ⟨rfl, rfl⟩
    · have hd := hl.derives_of_completes
      cases ts with
      | nil => exact hdone ha (hnil hd)
      | cons t ts =>
        have hfirst := hg.2 _ ((hd.starts_of_allows he).first t ts rfl)
        rw [if_neg]
        · exact hp.complete he env hl ha hn (hg.1 _ hr)
        · rw [ht, Lookahead.kind]
          simpa [Reading.look, ha, headKind] using hfirst
    · exact hdone ha rfl

theorem derives_nil (hf : f.nullable = false) {n : Nat} {us : List Tree}
    {k : Kind} : ¬ Derives ends f n [] us k :=
  fun h => h.ne_nil hf rfl

theorem reads_unless {good : Kind → Bool} {test : Lookahead → Bool}
    (ht : ∀ v : Lookahead, test v = ks.contains v.kind)
    (hp : p.Reads f ends inner anywhere (.kind good))
    (hg : (ks.all good && (f.first inner).all (!ks.contains ·)) = true)
    (hf : f.nullable = false) :
    (look fun v => if test v then done else p).Reads (.opt f) ends inner start (.only ks) :=
  reads_unless_nil ht hp hg fun h => absurd h (derives_nil hf)

end Production

end Modelica
