import Modelica.Proofs.Reads.Choices

/-!
# Reading the same again

A repetition goes on as long as its test sees what an item starts with, and not what may come after
the last one.
-/

namespace Modelica

open Token (headKind nextKind)

namespace Production

variable {ends : Kind → Prop} {inner : Bool} {start : List Token → Prop} {stop after : Stop}
variable {p q : Production} {ps : List Production} {f g : Form} {fs : List Form} {k : Kind}
variable {ks : List Kind}

/-- A repetition whose test sees what its items start with, and not what comes after them. -/
theorem reads_many {test : Lookahead → Bool} {startItem : List Token → Prop}
    (hp : p.Reads f ends inner startItem stop)
    (hs : ∀ v : Lookahead, test v = true → startItem v.ahead)
    (ht : Allows ends inner → ∀ (v : Lookahead) n ts us rest,
      Derives ends f n ts us (headKind rest) → v.ahead = ts ++ rest →
      stop.Holds v.constructs rest → test v = true)
    (ha : ∀ v : Lookahead, after.Holds v.constructs v.ahead → test v = false)
    (hf : Fits ends inner stop (.many f) after) :
    (many test fun _ => p).Reads (.many f) ends inner start after where
  sound := by
    intro env r r' _ hd
    have hall : ∀ before r r',
        Turned env test (fun _ => p.Does Nonterminal.Spelled env) before r r' →
        Spells (.many f) env r r' := by
      intro before r r' h
      induction h with
      | stop _ => exact spells_none
      | turn htest hi _ ih => exact (hp.sound env (hs _ htest) hi).more ih
    exact hall none r r' hd
  complete := by
    intro he env r n ts us rest hl hahead hn hstop
    have hrest : ∀ {ts us k}, Repeated (f.Holds ends (Completes ends) n) ts us k →
        ∀ before r, k = headKind rest → r.ahead = ts ++ rest →
        ∃ r', Runs noError (.rest test (fun _ => p) before) env r r' ∧ r'.ahead = rest ∧
          (inner = true → r'.built = us.reverse ++ r.built) := by
      intro ts us k hl
      induction hl with
      | none =>
        intro before r _ hr
        have hr' : r.ahead = rest := hr
        refine ⟨r, .stop (ha _ ?_), hr', fun _ => rfl⟩
        show after.Holds env.constructs r.ahead
        rw [hr']
        exact hstop
      | @more ts us vs ws k hi hl ih =>
        intro before r hk hr
        subst hk
        rw [← Token.headKind_append] at hi
        have hd := hi.derives_of_completes
        have hm : Derives ends (.many f) n vs ws (headKind rest) :=
          Form.Holds.derives_of_completes (f := .many f) hl
        have hs : stop.Holds env.constructs (vs ++ rest) := hf he hm hstop
        obtain ⟨m, hrun, ham, hbm⟩ := hp.complete he env hi (by simpa using hr) hn hs
        obtain ⟨r', hrun', har, hbr⟩ := ih (some (r.look env)) m rfl ham
        refine ⟨r', .turn ?_ hrun hrun', har, fun h => ?_⟩
        · exact ht he (r.look env) _ _ _ _ hd (by simpa [Reading.look] using hr) hs
        · rw [hbr h, hbm h]
          simp
    obtain ⟨r', hrun, har, hbr⟩ := hrest hl none r rfl hahead
    exact ⟨r', .many hrun, har, hbr⟩

/-- A repetition that goes by the next kind. -/
theorem reads_many_kind {good : Kind → Bool} {test : Lookahead → Bool}
    (ht : ∀ v : Lookahead, test v = ks.contains v.kind)
    (hp : p.Reads f ends inner (atOneOf ks) (.kind good)) (hf : f.opens inner ks = true)
    (hg : (f.first inner).all good = true) :
    (many test fun _ => p).Reads (.many f) ends inner start
      (.kind fun k => good k && !ks.contains k) := by
  refine reads_many hp (fun v h => ?_) (fun he v n ts us rest hd ha _ => ?_) (fun v h => ?_)
    (fits_of_clears ?_)
  · rw [ht] at h
    exact List.contains_iff_mem.mp h
  · rw [ht, Lookahead.kind, ha]
    exact List.contains_iff_mem.mpr (headKind_of_opens he hf hd rest)
  · rw [ht]
    simpa [Lookahead.kind] using ((Bool.and_eq_true _ _).mp h).2
  · simp only [Form.clears, Form.first, Form.nullable, hg, Bool.true_and, Bool.not_true,
      Bool.false_or, List.all_eq_true]
    intro k _
    cases good k <;> simp

/-- A repetition of what is an error reads nothing. -/
theorem reads_many_fails {test : Lookahead → Bool} (hp : ∀ v, p.Fails v)
    (ha : ∀ v : Lookahead, after.Holds v.constructs v.ahead → test v = false) :
    (many test fun _ => p).Reads .empty ends inner start after where
  sound := by
    intro env r r' _ hd
    have hd' : Turned env test (fun _ => p.Does Nonterminal.Spelled env) none r r' := hd
    cases hd' with
    | stop _ => exact spells_empty
    | turn _ hi _ => exact absurd hi (not_does_of_fails (hp _))
  complete := by
    rintro - env r n ts us rest ⟨rfl, rfl⟩ hahead - hstop
    have hr : r.ahead = rest := hahead
    refine ⟨r, .many (.stop (ha _ ?_)), hr, fun _ => rfl⟩
    show after.Holds env.constructs r.ahead
    rwa [hr]

/-- Items up to where `stop` holds or the input ends. -/
theorem reads_repeatUntil {test : Lookahead → Bool} {startItem : List Token → Prop}
    (hp : p.Reads f ends inner startItem stop) (hnil : f.nullable = false)
    (hs : ∀ v : Lookahead, v.atEnd = false → test v = false → startItem v.ahead)
    (ht : Allows ends inner → ∀ (v : Lookahead) n ts us rest,
      Derives ends f n ts us (headKind rest) → v.ahead = ts ++ rest →
      stop.Holds v.constructs rest → v.atEnd = false ∧ test v = false)
    (ha : ∀ v : Lookahead, after.Holds v.constructs v.ahead → v.atEnd = true ∨ test v = true)
    (hf : Fits ends inner stop (.many f) after) :
    (repeatUntil test p).Reads (.many f) ends inner start after := by
  have hitem : (look fun start => andThen p <| look fun v =>
      if v.index = start.index ∧ !v.atEnd then
        skipUntil .unexpectedToken
          ("unexpected " ++ v.kind.displayName ++ " " ++ v.context.description) []
      else done).Reads f ends inner startItem stop := by
    constructor
    · rintro env r r' hs ⟨m, hd, hrest⟩
      simp only [Does] at hrest
      split at hrest
      · exact absurd hrest (not_does_of_fails (p := skipUntil _ _ _) fails_fault)
      · exact hrest ▸ hp.sound env hs hd
    · intro he env r n ts us rest hl hahead hn hstop
      obtain ⟨m, hrun, ham, hbm⟩ := hp.complete he env hl hahead hn hstop
      refine ⟨m, .look (.andThen hrun (.look ?_)), ham, hbm⟩
      rw [if_neg]
      · exact .done
      · -- the item has read something
        rintro ⟨hi, -⟩
        have hlen := hrun.leads.2
        have hpos := List.length_pos_iff.mpr (hl.derives_of_completes.ne_nil hnil)
        have hi' : m.index = r.index := hi
        rw [hahead, ham, List.length_append, hi'] at hlen
        omega
  refine reads_many hitem (fun v h => ?_) (fun he v n ts us rest hd hahead hstop => ?_)
    (fun v h => ?_) hf
  · simp only [Bool.and_eq_true, Bool.not_eq_true'] at h
    exact hs v h.1 h.2
  · obtain ⟨h1, h2⟩ := ht he v n ts us rest hd hahead hstop
    simp [h1, h2]
  · rcases ha v h with h | h <;> simp [h]

/-- Items with a token between them. -/
theorem reads_separated {good : Kind → Bool} (hk : k ≠ .endOfInput)
    (hp : p.Reads f ends inner anywhere (.kind good)) (hg : good k = true) :
    (separated k p).Reads (.separated k f) ends inner start
      (.kind fun x => good x && !([k].contains x)) := by
  have hitem : (andThen shift p).Reads (.seq (.leaf k) f) ends inner (atOneOf [k]) (.kind good) :=
    reads_andThen (reads_shift (fun _ h => h) (by simpa using hk.symm)) hp fits_any
  have hrest :
      (many (·.sees k) fun _ => andThen shift p).Reads (.many (.seq (.leaf k) f)) ends inner
      anywhere (.kind fun x => good x && !([k].contains x)) :=
    reads_many_kind (sees_eq_contains · k) hitem
      (by simp [Form.opens, Form.leaf, Form.nullable, Form.first])
      (by simp [Form.leaf, Form.nullable, Form.first, hg])
  refine reads_andThen (hp.mono (fun _ _ => trivial) fun _ _ => id) hrest (fits_of_clears ?_)
  simp only [Form.clears, Form.first, Form.nullable, Form.leaf, Bool.and_eq_true,
    Bool.or_eq_true, List.all_eq_true]
  refine ⟨by simp [hg], .inr fun x _ => ?_⟩
  cases good x <;> simp

/-- Two tokens at once. -/
theorem reads_shifts_two {k l : Kind} (hk : k ≠ .endOfInput) (hl : l ≠ .endOfInput)
    (h : ∀ ts, start ts → Token.kindAt ts 0 = k ∧ Token.kindAt ts 1 = l) :
    (shifts 2).Reads (.seq (.leaf k) (.leaf l)) ends inner start stop where
  sound := by
    rintro env r r' hs ⟨m, hm, m', hm', hd⟩
    obtain ⟨h0, h1⟩ := h _ hs
    obtain rfl : m = r.shift := hm
    obtain rfl : m' = r.shift.shift := hm'
    obtain rfl : r' = r.shift.shift := hd
    have hfirst : headKind r.ahead ∈ [k] := by simpa [Token.kindAt] using h0
    refine (spells_shift hfirst (by simpa using hk.symm)).seq
      (spells_shift (r := r.shift) ?_ (by simpa using hl.symm))
    cases ha : r.ahead with
    | nil =>
      rw [ha] at h0
      exact absurd h0.symm hk
    | cons t ts => simpa [Reading.shift_cons ha, Token.kindAt, ha] using h1
  complete := by
    rintro - env r n ts us rest ⟨_, _, _, _, rfl, rfl, ⟨t, -, rfl, rfl⟩, ⟨u, -, rfl, rfl⟩⟩ ha - -
    have hfirst : shift.Takes inner env r [.leaf t] ([u] ++ rest) := takes_shift (by simpa using ha)
    have hdone : ∀ m : Reading, m.ahead = [] ++ rest → done.Takes inner env m [] rest :=
      fun m hm => takes_done hm
    exact takes_andThen hfirst fun m hm => takes_andThen (takes_shift hm) hdone

/-- The next tokens are of these kinds. -/
def atKinds : List Kind → List Token → Prop
  | [], _ => True
  | k :: ks, ts => headKind ts = k ∧ atKinds ks (ts.drop 1)

/-- As many tokens as are known, and what comes after them. -/
theorem reads_shifts (hk : .endOfInput ∉ ks) (hp : p.Reads f ends inner anywhere stop) :
    (andThen (shifts ks.length) p).Reads (ks.foldr (fun k g => .seq (.leaf k) g) f) ends inner
      (atKinds ks) stop := by
  induction ks with
  | nil =>
    exact reads_andThen_empty reads_done (hp.mono (fun _ _ => trivial) fun _ _ => id) fits_any
  | cons k ks ih =>
    simp only [List.mem_cons, not_or] at hk
    obtain ⟨hne, hks⟩ := hk
    have hshift : shift.Reads (.leaf k) ends inner (atKinds (k :: ks)) .any :=
      reads_shift (fun _ h => List.mem_singleton.mpr h.1) (by simpa using hne)
    refine reads_andThen_assoc (reads_andThen_of hshift (ih hks) ?_ fits_any)
    rintro env r m ⟨hr, hrest⟩ rfl
    cases ha : r.ahead with
    | nil =>
      rw [ha] at hr
      exact absurd hr hne
    | cons t ts =>
      rw [Reading.shift_cons ha]
      rwa [ha] at hrest

end Production

end Modelica
