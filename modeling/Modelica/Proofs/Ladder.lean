import Modelica.Proofs.Expressions

/-!
# Climbing reads the ladder of operators

`Grammar.band` reads a chain of operands and operators by one loop for all bands: it puts each
operator over all that it has read in its group. The grammar instead has a rule for every rung of
the ladder. Both come to the same.

* `Climbed`: what has been read so far is of one rung, and what comes next does not bind tighter;
  each turn of the loop keeps this (`Climbed.operation`), so the loop reads a rung;
* `Climbs`: what a rung stands for, the loop of any looser band reads and then goes on. This is
  shown rung by rung (`climbs_rung`).
-/

namespace Modelica

open Token (headKind nextKind)

/-- The operators with two operands of a level. -/
def Band.infixOperators : Nat → List Kind
  | 0 => [.orKw]
  | 1 => [.andKw]
  | 3 => relational
  | 4 => additive
  | 6 => multiplicative
  | 7 => power
  | _ => []

namespace Band

theorem binaryLevel?_eq_some {k : Kind} {least l : Nat} :
    binaryLevel? k least = some l ↔ k ∈ infixOperators l ∧ least ≤ l := by
  have hsmall : (Kind.all.all fun k => (List.range 8).all fun least => (List.range 8).all fun l =>
      (binaryLevel? k least == some l) == ((infixOperators l).contains k && least ≤ l)) = true := by
    decide +kernel
  have hbound : (Kind.all.all fun k => (List.range 8).all fun least =>
      (binaryLevel? k least).all (· < 8)) = true := by
    decide +kernel
  have hnone : ∀ l, 8 ≤ l → infixOperators l = [] := by
    intro l hl
    obtain ⟨m, rfl⟩ := Nat.exists_eq_add_of_le' hl
    rfl
  by_cases hleast : least < 8
  · have hk := List.all_eq_true.mp hsmall k (Kind.mem_all k)
    have hk' := List.all_eq_true.mp hbound k (Kind.mem_all k)
    have hr : least ∈ List.range 8 := List.mem_range.mpr hleast
    by_cases hl : l < 8
    · have h := List.all_eq_true.mp (List.all_eq_true.mp hk _ hr) _ (List.mem_range.mpr hl)
      rw [beq_iff_eq, Bool.eq_iff_iff] at h
      simpa only [beq_iff_eq, Bool.and_eq_true, List.contains_iff_mem, decide_eq_true_eq] using h
    · have hb := List.all_eq_true.mp hk' _ hr
      rw [hnone l (by omega)]
      constructor
      · intro h
        rw [h] at hb
        exact absurd (of_decide_eq_true hb) hl
      · rintro ⟨h, -⟩
        cases h
  · have hdrop : binaryLevel? k least = none := by
      have : table.zipIdx.drop least = [] := by
        rw [List.drop_eq_nil_iff]
        show 8 ≤ least
        omega
      simp [binaryLevel?, this]
    rw [hdrop]
    constructor
    · intro h
      cases h
    · rintro ⟨h, hl⟩
      rw [hnone l (by omega)] at h
      cases h

theorem lt_of_binaryLevel?_eq_none {k : Kind} {least l : Nat} (h : binaryLevel? k least = none)
    (hk : k ∈ infixOperators l) : l < least := by
  refine Nat.lt_of_not_le fun hle => ?_
  rw [binaryLevel?_eq_some.mpr ⟨hk, hle⟩] at h
  cases h

theorem lt_of_infixOperators {k : Kind} {l : Nat} (hk : k ∈ infixOperators l) : l < 8 := by
  refine Nat.lt_of_not_le fun hle => ?_
  obtain ⟨m, rfl⟩ := Nat.exists_eq_add_of_le' hle
  cases hk

theorem endOfInput_not_infix (l : Nat) : Kind.endOfInput ∉ infixOperators l := by
  rcases l with _ | _ | _ | _ | _ | _ | _ | _ | l <;>
    simp [infixOperators, relational, additive, multiplicative, power]

theorem unaryLevel?_eq_some {k : Kind} {level : Nat} :
    unaryLevel? k = some level ↔ k ∈ Nonterminal.prefixOperators level := by
  refine ⟨Grammar.mem_prefixOperators, fun h => ?_⟩
  have hall : ∀ level ∈ [2, 5], ∀ k ∈ Nonterminal.prefixOperators level,
      unaryLevel? k = some level := by
    decide
  by_cases hl : level ∈ [2, 5]
  · exact hall level hl k h
  · have hnil : Nonterminal.prefixOperators level = [] := by
      simp only [List.mem_cons, List.not_mem_nil, or_false, not_or] at hl
      unfold Nonterminal.prefixOperators
      split
      · exact absurd rfl hl.1
      · exact absurd rfl hl.2
      · rfl
    rw [hnil] at h
    cases h

end Band

/-! ## Rungs -/

section

variable {ends : Kind → Prop} {n : Nat} {ts : List Token} {us : List Tree} {k : Kind}

theorem rung_of_le {level : Nat} (h : 8 ≤ level) :
    Nonterminal.rung level = .rule .primary := by
  obtain ⟨m, rfl⟩ := Nat.exists_eq_add_of_le' h
  rfl

theorem derives_primary_of_band {level : Nat} (hl : 8 ≤ level)
    (h : Derives ends (.rule (.band level)) n ts us k) :
    Derives ends (.rule .primary) n ts us k := by
  have h := derives_rule.mp h
  rwa [show Nonterminal.form (.band level) = .rule .primary from rung_of_le hl] at h

theorem derives_band_of_primary {level : Nat} (hl : 8 ≤ level)
    (h : Derives ends (.rule .primary) n ts us k) :
    Derives ends (.rule (.band level)) n ts us k := by
  refine .rule ?_
  rwa [show Nonterminal.form (.band level) = .rule .primary from rung_of_le hl]

/-- What one rung stands for, the rung before it stands for. -/
theorem derives_band_succ {level : Nat} (h : Derives ends (.rule (.band (level + 1))) n ts us k) :
    Derives ends (.rule (.band level)) n ts us k := by
  rcases level with _ | _ | _ | _ | _ | _ | _ | _ | level
  · exact .rule (.operand h)
  · exact .rule (.operand h)
  · exact .rule (.right h)
  · exact .rule (.right h)
  · exact .rule (.operand h)
  · exact .rule (.right h)
  · exact .rule (.operand h)
  · exact .rule (.right (derives_primary_of_band (by omega) h))
  · exact derives_band_of_primary (by omega) (derives_primary_of_band (by omega) h)

theorem derives_band_of_le {least level : Nat} (hl : least ≤ level)
    (h : Derives ends (.rule (.band level)) n ts us k) :
    Derives ends (.rule (.band least)) n ts us k := by
  induction hl with
  | refl => exact h
  | step _ ih => exact ih (derives_band_succ h)

theorem derives_band_of_unary {level : Nat} {k' : Kind} (hu : Band.unaryLevel? k' = some level)
    (h : Derives ends (.rule (.unary level)) n ts us k) :
    Derives ends (.rule (.band level)) n ts us k := by
  have hk := Band.unaryLevel?_eq_some.mp hu
  rcases level with _ | _ | _ | _ | _ | _ | level
  case succ.succ.zero => exact .rule (.left h)
  case succ.succ.succ.succ.succ.zero => exact .rule (.left h)
  all_goals cases hk

end

namespace Grammar

open Production

variable {ends : Kind → Prop}

/-- The rule for what stands to the right of an operator of a level. -/
def rightOperand (level : Nat) : Nonterminal :=
  if Band.associativityAt level = .right then .operand level else .band (level + 1)

theorem inner_rightOperand (level : Nat) : (rightOperand level).inner = true := by
  unfold rightOperand
  split <;> rfl

theorem call_rightOperand (level : Nat) :
    (if Band.associativityAt level = .right then call (.operand level)
      else call (.band (level + 1))) = call (rightOperand level) :=
  (apply_ite call _ _ _).symm

/-- An operator of a level takes what was read so far as its left operand, unless that is of a
looser rung, or of the same rung and the level does not group to the left. -/
theorem derives_operation {n : Nat} {ts vs : List Token} {t : Token} {us ws : List Tree} {k : Kind}
    {level rung : Nat} (ht : t.kind ∈ Band.infixOperators level)
    (hr : level < rung ∨ level = rung ∧ Band.associativityAt level = .left)
    (hleft : Derives ends (.rule (.band rung)) n ts us t.kind)
    (hright : Derives ends (.rule (rightOperand level)) n vs ws k) :
    Derives ends (.rule (.band level)) n (ts ++ t :: vs)
      [.node .binaryExpression (us ++ .leaf t :: ws)] k := by
  have hsame : Derives ends (.rule (.band level)) n ts us t.kind :=
    derives_band_of_le (by omega) hleft
  have htighter : Band.associativityAt level ≠ .left →
      Derives ends (.rule (.band (level + 1))) n ts us t.kind := by
    intro h
    have hlt : level < rung := hr.resolve_right fun hr => h hr.2
    exact derives_band_of_le hlt hleft
  have hstep : Derives ends (.seq (.token (Band.infixOperators level))
      (.rule (rightOperand level))) n (t :: vs) (.leaf t :: ws) k :=
    .seq (.token ht) hright
  rcases level with _ | _ | _ | _ | _ | _ | _ | _ | level
  · exact .rule (.step (derives_rule.mp hsame) hstep)
  · exact .rule (.step (derives_rule.mp hsame) hstep)
  · cases ht
  · exact .rule (.left (.node (.seq (htighter (by decide)) hstep)))
  · exact .rule (.step (derives_rule.mp hsame) hstep)
  · cases ht
  · exact .rule (.step (derives_rule.mp hsame) hstep)
  · exact .rule (.left (.node
      (.seq (derives_primary_of_band (Nat.le_refl 8) (htighter (by decide))) hstep)))
  · cases ht

/-! ## The loop reads a rung -/

/-- What has been read from `r` to `m` is of the rung `rung`. An operator that comes next does not
bind tighter; if it is of the same rung, it groups to the left, or the operator `before` was of that
rung too. -/
structure Climbed (env : Surroundings) (least : Nat) (before : Option Lookahead) (r m : Reading)
    (rung : Nat) : Prop where
  le : least ≤ rung
  spells : Spells (.rule (.band rung)) env r m
  next : ∀ level, Band.binaryLevel? (headKind m.ahead) least = some level →
    level < rung ∨ level = rung ∧ (Band.associativityAt level = .left ∨
      Band.associativityAt level = .neither ∧
        (before.bind fun v => Band.binaryLevel? v.kind least) = some level)

/-- After the right operand of an operator, no operator binds tighter than that one. -/
theorem le_of_leaves {least level : Nat} {ts : List Token}
    (h : (rightOperand level).Leaves ts) {l : Nat}
    (hl : Band.binaryLevel? (headKind ts) least = some l) :
    l < level ∨ l = level ∧ Band.associativityAt level ≠ .right := by
  obtain ⟨hmem, -⟩ := Band.binaryLevel?_eq_some.mp hl
  unfold rightOperand at h
  split at h
  · exact .inl (Band.lt_of_binaryLevel?_eq_none h hmem)
  · rename_i hr
    have hlt : l < level + 1 := Band.lt_of_binaryLevel?_eq_none h hmem
    rcases Nat.lt_or_eq_of_le (Nat.le_of_lt_succ hlt) with hlt | heq
    · exact .inl hlt
    · exact .inr ⟨heq, hr⟩

theorem climbed_of_primary {env : Surroundings} {least : Nat} {before : Option Lookahead}
    {r m : Reading} (h : Spells (.rule .primary) env r m) :
    Climbed env least before r m (max 8 least) where
  le := Nat.le_max_right 8 least
  spells := h.map (derives_band_of_primary (Nat.le_max_left 8 least))
  next := by
    intro level hl
    have hlt : level < 8 := Band.lt_of_infixOperators (Band.binaryLevel?_eq_some.mp hl).1
    exact .inl (by omega)

/-- The first operand. -/
theorem climbed_leftmost {env : Surroundings} {least : Nat} {r m : Reading}
    (h : (leftmost least).Does Nonterminal.Spelled env r m) :
    ∃ rung, Climbed env least none r m rung := by
  simp only [leftmost, Does] at h
  split at h
  · exact ⟨_, climbed_of_primary (h trivial).1⟩
  · rename_i level hu
    split at h
    · rename_i hle
      have hs : Nonterminal.Spelled (.unary level) env r m := h
      obtain ⟨hs, hnone⟩ := hs hu
      refine ⟨level, hle, hs.map (derives_band_of_unary hu), fun l hl => .inl ?_⟩
      exact Band.lt_of_binaryLevel?_eq_none hnone (Band.binaryLevel?_eq_some.mp hl).1
    · exact absurd h (not_does_of_fails (fails_seq_cons fails_fault))

/-- A turn of the loop. -/
theorem Climbed.operation {env : Surroundings} {least : Nat} {before : Option Lookahead}
    {r m m' : Reading} {rung : Nat} (hr : r.built = []) (h : Climbed env least before r m rung)
    (hd : (Grammar.operation least before).Does Nonterminal.Spelled env m m')
    (ht : (Band.binaryLevel? (headKind m.ahead) least).isSome = true) :
    ∃ rung', Climbed env least (some (m.look env)) r m' rung' := by
  obtain ⟨level, hl⟩ := Option.isSome_iff_exists.mp ht
  obtain ⟨hmem, hle⟩ := Band.binaryLevel?_eq_some.mp hl
  have hlook : Band.binaryLevel? (m.look env).kind least = some level := hl
  simp only [Grammar.operation, Does, hlook, call_rightOperand] at hd
  obtain ⟨w, hreport, x, ⟨y, hshift, hright⟩, rfl⟩ := hd
  split at hreport
  · exact absurd hreport (not_does_of_fails rfl)
  rename_i hchain
  obtain rfl : w = m := hreport
  obtain rfl : y = w.shift := hshift
  have hexpects : (rightOperand level).Expects w.shift.ahead := by
    unfold rightOperand
    split <;> trivial
  obtain ⟨⟨vs, ws, ha', hb', hright⟩, hleaves⟩ := hright hexpects
  obtain ⟨ts, us, ha, hb, hleft⟩ := h.spells
  have hrung : level < rung ∨ level = rung ∧ Band.associativityAt level = .left := by
    rcases h.next level hl with hlt | ⟨heq, hleft | hneither⟩
    · exact .inl hlt
    · exact .inr ⟨heq, hleft⟩
    · exact absurd hneither hchain
  refine ⟨level, hle, ?_, fun l hl' => ?_⟩
  · cases hw : w.ahead with
    | nil =>
      rw [hw] at hmem
      exact absurd hmem (Band.endOfInput_not_infix level)
    | cons t rest =>
      rw [Reading.shift_cons hw] at ha' hb'
      rw [hw] at hleft hmem
      refine ⟨ts ++ t :: vs, _, ?_, ?_, derives_operation hmem hrung hleft hright⟩
      · simp only at ha'
        rw [ha, hw, ha']
        simp
      · simp [hb', hb, hr]
  · rcases le_of_leaves hleaves hl' with hlt | ⟨heq, hright⟩
    · exact .inl hlt
    · subst heq
      refine .inr ⟨rfl, ?_⟩
      cases hassoc : Band.associativityAt l with
      | left => exact .inl rfl
      | right => exact absurd hassoc hright
      | neither => exact .inr ⟨rfl, hl⟩

/-- The loop reads a rung, and where it ends no operator of its bands follows. -/
theorem spells_band {env : Surroundings} {least : Nat} {r r' : Reading}
    (h : (Grammar.band least).Does Nonterminal.Spelled env r r') :
    Spells (.rule (.band least)) env r r' ∧ Band.binaryLevel? (headKind r'.ahead) least = none := by
  obtain ⟨m', ⟨m, hfirst, hloop⟩, rfl⟩ := h
  obtain ⟨rung, hfirst⟩ := climbed_leftmost hfirst
  have hrun : ∀ {before : Option Lookahead} {m m' : Reading} {rung : Nat},
      Climbed env least before { r with built := [] } m rung →
      Turned env (fun v => (Band.binaryLevel? v.kind least).isSome)
        (fun before => (operation least before).Does Nonterminal.Spelled env) before m m' →
      ∃ before' rung', Climbed env least before' { r with built := [] } m' rung' := by
    intro before m m' rung hm ht
    induction ht generalizing rung with
    | stop _ => exact ⟨_, _, hm⟩
    | turn htest hitem _ ih =>
      obtain ⟨rung', hm'⟩ := hm.operation rfl hitem htest
      exact ih hm'
  obtain ⟨before, rung', hend⟩ := hrun hfirst hloop
  obtain ⟨ts, us, ha, hb, hd⟩ := hend.spells
  refine ⟨⟨ts, us, ha, by simp [hb], derives_band_of_le hend.le hd⟩, ?_⟩
  simpa [Reading.look, Lookahead.kind] using hloop.test_eq_false

/-! ## A rung is read by the loop -/

theorem endsBand_mono {close close' : Nat} (hc : close ≤ close') {k : Kind}
    (h : Kind.endsBand close k = true) : Kind.endsBand close' k = true := by
  simp only [Kind.endsBand, Bool.and_eq_true, Option.isNone_iff_eq_none] at h ⊢
  refine ⟨?_, h.2⟩
  cases hl : Band.binaryLevel? k close' with
  | none => rfl
  | some l =>
    obtain ⟨hm, hle⟩ := Band.binaryLevel?_eq_some.mp hl
    have hlt := Band.lt_of_binaryLevel?_eq_none h.1 hm
    omega

/-- An operator ends what binds tighter. -/
theorem endsBand_of_mem {k : Kind} {level : Nat} (h : k ∈ Band.infixOperators level) :
    Kind.endsBand (level + 1) k = true := by
  have hall : ∀ level < 8, ∀ k ∈ Band.infixOperators level, Kind.endsBand (level + 1) k = true := by
    decide +kernel
  exact hall level (Band.lt_of_infixOperators h) k h

theorem unaryLevel?_of_primary {k : Kind} (h : k ∈ Kind.primaryStart true) :
    Band.unaryLevel? k = none := by
  revert k
  decide

section

variable {ends : Kind → Prop}
variable {n close close' level level' : Nat} {ts vs : List Token} {us ws : List Tree} {k : Kind}

theorem climbs_weaken (h : Climbs close' level' n ts us k) (hc : close ≤ close')
    (hl : level ≤ level') : Climbs close level n ts us k := by
  intro hk least hle env r rest hb ha hr hn
  obtain ⟨m, before, ham, hbm, hbefore, hrun⟩ :=
    h (endsBand_mono hc hk) least (Nat.le_trans hle hl) env r rest hb ha hr hn
  refine ⟨m, before, ham, hbm, fun v hv => ?_, hrun⟩
  obtain ⟨l, hl', hle'⟩ := hbefore v hv
  exact ⟨l, hl', Nat.le_trans hl hle'⟩

/-- What is read as a first operand. -/
theorem climbs_of_leftmost (h : Kind.endsBand close k = true → ∀ least ≤ level, ∀ env r rest,
      r.ahead = ts ++ rest → headKind rest = k → env.depth + n ≤ env.limit →
      (leftmost least).Takes true env r us rest) :
    Climbs close level n ts us k := by
  intro hk least hle env r rest hb ha hr hn
  obtain ⟨m, hrun, ham, hbm⟩ := h hk least hle env r rest ha hr hn
  refine ⟨m, none, ham, ?_, ?_, fun r' hr' => .andThen hrun (.many hr')⟩
  · simpa [hb] using hbm rfl
  · rintro v ⟨⟩

theorem climbs_of_primary (h : Nonterminal.primary.Takes n ts us k)
    (hs : ∀ rest, headKind (ts ++ rest) ∈ Kind.primaryStart true) :
    Climbs close level n ts us k := by
  refine climbs_of_leftmost fun hk least _ env r rest ha hr hn => takes_look ?_
  have hnone : Band.unaryLevel? (r.look env).kind = none := by
    refine unaryLevel?_of_primary ?_
    show headKind r.ahead ∈ _
    rw [ha]
    exact hs rest
  rw [hnone]
  refine h env r rest hr ha hn ?_
  subst hr
  exact ((Bool.and_eq_true _ _).mp hk).2

theorem climbs_of_unary (h : (Nonterminal.unary level).Takes n ts us k)
    (hs : ∀ rest, Band.unaryLevel? (headKind (ts ++ rest)) = some level) :
    Climbs level level n ts us k := by
  refine climbs_of_leftmost fun hk least hle env r rest ha hr hn => takes_look ?_
  have hsome : Band.unaryLevel? (r.look env).kind = some level := by
    show Band.unaryLevel? (headKind r.ahead) = some level
    rw [ha]
    exact hs rest
  rw [hsome]
  simp only [hle, if_true]
  refine h env r rest hr ha hn ?_
  subst hr
  exact hk

/-- An operator and its right operand, after what a tighter rung stands for. -/
theorem climbs_operation {t : Token} (ht : t.kind ∈ Band.infixOperators level)
    (hleft : Climbs close' level' n ts us t.kind) (hc : Kind.endsBand close' t.kind = true)
    (hright : (rightOperand level).Takes n vs ws k)
    (hl : level ≤ level') (hneither : Band.associativityAt level = .neither → level < level')
    (hstop : ∀ constructs rest, headKind rest = k → Kind.endsBand close k = true →
      (rightOperand level).Stops.Holds constructs rest) :
    Climbs close level n (ts ++ t :: vs) [.node .binaryExpression (us ++ .leaf t :: ws)] k := by
  intro hk least hle env r rest hb ha hr hn
  obtain ⟨m, before, ham, hbm, hbefore, hrun⟩ :=
    hleft hc least (Nat.le_trans hle hl) env r (t :: vs ++ rest) hb (by simp [ha]) rfl hn
  have hlook : Band.binaryLevel? (m.look env).kind least = some level := by
    show Band.binaryLevel? (headKind m.ahead) least = some level
    rw [ham]
    exact Band.binaryLevel?_eq_some.mpr ⟨ht, hle⟩
  have hshift := Reading.shift_cons ham
  obtain ⟨x, hx, hax, hbx⟩ := hright env m.shift rest hr (by rw [hshift]; rfl) hn
    (hstop _ _ hr hk)
  have hchain : ¬ (Band.associativityAt level = .neither ∧
      (before.bind fun v => Band.binaryLevel? v.kind least) = some level) := by
    rintro ⟨hassoc, hsame⟩
    obtain ⟨v, hv, hvl⟩ := Option.bind_eq_some_iff.mp hsame
    obtain ⟨l, hl', hle'⟩ := hbefore v hv
    rw [hvl] at hl'
    cases hl'
    have := hneither hassoc
    omega
  have hop : Runs noError (.of (operation least before)) env m (x.wrap .binaryExpression) := by
    refine .look ?_
    simp only [hlook, if_neg hchain, call_rightOperand]
    exact .andThen .done (.wrap (.andThen .shift hx))
  refine ⟨x.wrap .binaryExpression, some (m.look env), hax, ?_, ?_, fun r' hr' => ?_⟩
  · simp [hbx (inner_rightOperand level), hshift, hbm]
  · rintro v ⟨⟩
    exact ⟨level, hlook, Nat.le_refl level⟩
  · exact hrun r' (.turn (by simp [hlook]) hop hr')

/-- A chain of operators that group to the left. -/
theorem climbs_chain (he : Allows ends true) (hassoc : Band.associativityAt level = .left)
    (h : Chained .binaryExpression ((Form.rule (.band (level + 1))).Holds ends (Completes ends) n)
      ((Form.seq (.token (Band.infixOperators level)) (.rule (.band (level + 1)))).Holds ends
        (Completes ends) n) ts us k) :
    Climbs (level + 1) level n ts us k := by
  have hright : rightOperand level = .band (level + 1) := by
    rw [rightOperand, hassoc]
    rfl
  induction h with
  | operand h => exact climbs_weaken ((h.2 he).2 _ rfl) (Nat.le_refl _) (Nat.le_succ _)
  | step _ hstep ih =>
    obtain ⟨_, _, vs, ws, rfl, rfl, ⟨t, ht, rfl, rfl⟩, hoperand⟩ := hstep
    refine climbs_operation ht ih (endsBand_of_mem ht) ?_ (Nat.le_refl level) ?_ ?_
    · rw [hright]
      exact (hoperand.2 he).1
    · intro hn
      rw [hassoc] at hn
      cases hn
    · rintro constructs rest rfl hk
      rw [hright]
      exact hk

/-- What a rung stands for is read by the loop of any looser band. -/
theorem climbs_rung (he : Allows ends true)
    (h : (Nonterminal.rung level).Holds ends (Completes ends) n ts us k) :
    Climbs level level n ts us k := by
  have hsucc : ∀ {level}, Completes ends (.band (level + 1)) n ts us k →
      Climbs level level n ts us k :=
    fun h => climbs_weaken ((h.2 he).2 _ rfl) (Nat.le_succ _) (Nat.le_succ _)
  have hchain : ∀ {level}, Band.associativityAt level = .left →
      (Form.leftChain (Band.infixOperators level) (.rule (.band (level + 1)))).Holds ends
        (Completes ends) n ts us k → Climbs level level n ts us k :=
    fun hassoc h => climbs_weaken (climbs_chain he hassoc h) (Nat.le_succ _) (Nat.le_refl _)
  have hunary : ∀ {level}, Completes ends (.unary level) n ts us k →
      Climbs level level n ts us k := by
    intro level h
    have hopens :
        (Form.rule (.unary level)).opens true (Nonterminal.prefixOperators level) = true := by
      simp [Form.opens, Form.nullable, Nonterminal.nullable, Form.first, Nonterminal.first]
    exact climbs_of_unary (h.2 he).1 fun rest =>
      Band.unaryLevel?_eq_some.mpr (headKind_of_opens he hopens h.1 rest)
  have hprimary : ∀ {close level n ts us k}, Completes ends .primary n ts us k →
      Climbs close level n ts us k := by
    intro close level n ts us k h
    exact climbs_of_primary (h.2 he).1 fun rest => headKind_of_opens he (by decide) h.1 rest
  -- one rung after the other, the loosest first
  rcases level with _ | _ | _ | _ | _ | _ | _ | _ | level
  · exact hchain rfl h
  · exact hchain rfl h
  · exact h.elim hunary hsucc
  · rcases h with h | h
    · obtain ⟨_, rfl, ts₁, us₁, _, _, rfl, rfl, hleft, hstep⟩ := h
      obtain ⟨_, _, vs, ws, rfl, rfl, ⟨t, ht, rfl, rfl⟩, hright⟩ := hstep
      have hclimbs : Climbs 4 4 n ts₁ us₁ t.kind := (hleft.2 he).2 4 rfl
      refine climbs_operation ht hclimbs (endsBand_of_mem ht) (hright.2 he).1 (by decide)
        (fun _ => by decide) ?_
      rintro constructs rest rfl hk
      exact endsBand_mono (by decide) hk
    · exact hsucc h
  · exact hchain rfl h
  · exact h.elim hunary hsucc
  · exact hchain rfl h
  · rcases h with h | h
    · obtain ⟨_, rfl, ts₁, us₁, _, _, rfl, rfl, hleft, hstep⟩ := h
      obtain ⟨_, _, vs, ws, rfl, rfl, ⟨t, ht, rfl, rfl⟩, hright⟩ := hstep
      have hclimbs : Climbs 8 8 n ts₁ us₁ t.kind := hprimary hleft
      refine climbs_operation ht hclimbs (endsBand_of_mem ht) (hright.2 he).1 (by decide)
        (fun _ => by decide) ?_
      rintro constructs rest rfl hk
      exact hk
    · exact hprimary h
  · exact hprimary h

end

theorem isRead_band (least : Nat) : (Nonterminal.band least).IsRead ends where
  sound _ _ _ _ hd := (spells_band hd).1.map derives_rule.mp
  complete := by
    intro he env r n ts us rest hl ha hn hstop
    obtain ⟨m, before, ham, hbm, -, hrun⟩ := climbs_rung he hl hstop least (Nat.le_refl least) env
      { r with built := [] } rest rfl ha rfl hn
    have hend : (Band.binaryLevel? (m.look env).kind least).isSome = false := by
      show (Band.binaryLevel? (headKind m.ahead) least).isSome = false
      have hnone := ((Bool.and_eq_true _ _).mp hstop).1
      rw [Option.isNone_iff_eq_none] at hnone
      rw [ham, hnone]
      rfl
    exact ⟨_, .group (hrun m (.stop hend)), ham, fun _ => by simp [hbm]⟩

/-- What a caller knows after a rule holds where the rule has ended. -/
theorem leaves_of_does {rule : Nonterminal} {env : Surroundings} {r r' : Reading}
    (h : rule.production.Does Nonterminal.Spelled env r r') : rule.Leaves r'.ahead := by
  cases rule with
  | name =>
    obtain ⟨m, hm, rfl⟩ := does_node.mp h
    obtain ⟨_, -, hmany⟩ := hm
    exact hmany.test_eq_false
  | band least => exact (spells_band h).2
  | unary level =>
    obtain ⟨m, hm, rfl⟩ := does_node.mp h
    obtain ⟨_, -, hcall⟩ := hm
    exact (hcall trivial).2
  | operand level =>
    rcases h with ⟨-, hcall⟩ | ⟨-, hdeep⟩
    · exact (hcall trivial).2
    · exact absurd hdeep (not_does_of_fails (fails_fault (v := r.look _)))
  | _ => trivial

end Grammar

end Modelica
