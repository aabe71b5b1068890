import Modelica.Proofs.Exactness
import Modelica.Proofs.Operators

/-!
# Chains of comparisons

A comparison has two operands. Where a relational operator comes once more the loop that climbs the
bands reports it and reads on, so an error of this kind costs nothing else: each operator of a chain
but the first is reported, and the tree groups the chain to the left.

* `Comparison`: sums with any number of relational operators between them;
* `Relaxed`: the ladder of operators with such chains on it (`relaxed_iff`: without a second
  operator in a chain it is the ladder itself);
* `reaches_sum`, `reaches_comparison`, `reaches_relaxed`: how far the loop comes, rung by rung, and
  what it reports on the way;
* `simpleExpression_chains`: the statement for texts.
-/

namespace Modelica

open Token (headKind kindAt)

/-- `Comparison := Add | Comparison relop Add`, with the relational operators at `spots` among the
tokens. Each is put over all that is to its left. -/
inductive Comparison (n : Nat) : List Token → Tree → List Nat → Kind → Prop
  | operand {ts u k} : Ladder n .add ts u k → Comparison n ts u [] k
  | step {ts u spots vs w k t} : Comparison n ts u spots t.kind → t.kind ∈ Band.relational →
      Ladder n .add vs w k → Comparison n (ts ++ t :: vs) (.binary u t w) (spots ++ [ts.length]) k

/-- The ladder down to its rung for relations, where `Rel := Add (relop Add)*`. At the `spots` among
the tokens stand the relational operators that are not the first of their chain. -/
inductive Relaxed : Nat → Rung → List Token → Tree → List Nat → Kind → Prop
  /-- `Or := And ('or' And)*` -/
  | or {n ts u spots k} : Relaxed n .and ts u spots k → Relaxed n .or ts u spots k
  | orStep {n ts u spots vs w spots' k t} : Relaxed n .or ts u spots t.kind → t.kind = .orKw →
      Relaxed n .and vs w spots' k →
      Relaxed n .or (ts ++ t :: vs) (.binary u t w) (spots ++ spots'.map (ts.length + 1 + ·)) k
  /-- `And := Not ('and' Not)*` -/
  | and {n ts u spots k} : Relaxed n .not ts u spots k → Relaxed n .and ts u spots k
  | andStep {n ts u spots vs w spots' k t} : Relaxed n .and ts u spots t.kind → t.kind = .andKw →
      Relaxed n .not vs w spots' k →
      Relaxed n .and (ts ++ t :: vs) (.binary u t w) (spots ++ spots'.map (ts.length + 1 + ·)) k
  /-- `Not := 'not' Not | Rel` -/
  | notStep {n vs w spots k t} : t.kind = .notKw → Relaxed n .not vs w spots k →
      Relaxed (n + 1) .not (t :: vs) (.unary t w) (spots.map (1 + ·)) k
  | not {n ts u spots k} : Relaxed n .rel ts u spots k → Relaxed n .not ts u spots k
  /-- `Rel := Add (relop Add)*` -/
  | rel {n ts u spots k} : Comparison n ts u spots k → Relaxed n .rel ts u spots.tail k

/-- Relational operators stand at the spots among the tokens, which are in order. -/
def Token.ComparesAt (ts : List Token) (spots : List Nat) : Prop :=
  spots.Pairwise (· < ·) ∧ ∀ i ∈ spots, i < ts.length ∧ kindAt ts i ∈ Band.relational

namespace Token.ComparesAt

variable {ts vs : List Token} {t : Token} {spots spots' : List Nat}

theorem nil (ts : List Token) : ComparesAt ts [] := ⟨.nil, nofun⟩

theorem here (ht : t.kind ∈ Band.relational) : ComparesAt (t :: ts) [0] := by
  constructor
  · exact List.pairwise_singleton ..
  · intro i hi
    obtain rfl := List.mem_singleton.mp hi
    exact ⟨Nat.zero_lt_succ _, ht⟩

theorem tail (h : ComparesAt ts spots) : ComparesAt ts spots.tail :=
  ⟨h.1.tail, fun i hi => h.2 i (List.mem_of_mem_tail hi)⟩

theorem append (h : ComparesAt ts spots) (h' : ComparesAt vs spots') :
    ComparesAt (ts ++ vs) (spots ++ spots'.map (ts.length + ·)) := by
  constructor
  · rw [List.pairwise_append, List.pairwise_map]
    refine ⟨h.1, h'.1.imp fun hij => Nat.add_lt_add_left hij _, fun i hi j hj => ?_⟩
    obtain ⟨j, -, rfl⟩ := List.mem_map.mp hj
    exact Nat.lt_add_right j (h.2 i hi).1
  · intro i hi
    rw [List.length_append]
    rcases List.mem_append.mp hi with hi | hi
    · obtain ⟨hlt, hk⟩ := h.2 i hi
      have hsame : kindAt (ts ++ vs) i = kindAt ts i := by
        rw [kindAt, kindAt, List.drop_append_of_le_length (Nat.le_of_lt hlt),
          List.drop_eq_getElem_cons hlt]
        rfl
      rw [hsame]
      exact ⟨by omega, hk⟩
    · obtain ⟨j, hj, rfl⟩ := List.mem_map.mp hi
      obtain ⟨hlt, hk⟩ := h'.2 j hj
      rw [kindAt, List.drop_length_add_append]
      exact ⟨by omega, hk⟩

theorem cons (h : ComparesAt ts spots) (t : Token) : ComparesAt (t :: ts) (spots.map (1 + ·)) :=
  (nil [t]).append h

theorem operation (h : ComparesAt ts spots) (h' : ComparesAt vs spots') (t : Token) :
    ComparesAt (ts ++ t :: vs) (spots ++ spots'.map (ts.length + 1 + ·)) := by
  simpa [Function.comp_def, Nat.add_assoc] using h.append (h'.cons t)

end Token.ComparesAt

section

variable {n : Nat} {rung : Rung} {ts : List Token} {u : Tree} {spots : List Nat} {k : Kind}

theorem Comparison.comparesAt (h : Comparison n ts u spots k) : Token.ComparesAt ts spots := by
  induction h with
  | operand _ => exact .nil _
  | step _ ht _ ih => exact ih.append (.here ht)

theorem Relaxed.comparesAt (h : Relaxed n rung ts u spots k) : Token.ComparesAt ts spots := by
  induction h with
  | or _ ih | and _ ih | not _ ih => exact ih
  | orStep _ _ _ ih ih' | andStep _ _ _ ih ih' => exact ih.operation ih' _
  | notStep _ _ ih => exact ih.cons _
  | rel h => exact h.comparesAt.tail

theorem Relaxed.node (h : Relaxed n rung ts u spots k) : ∃ l cs, u = .node l cs ∧ l ≠ .error := by
  induction h with
  | or _ ih | and _ ih | not _ ih => exact ih
  | rel h =>
    cases h with
    | operand h => exact h.node
    | step _ _ _ => exact ⟨_, _, rfl, by decide⟩
  | _ => exact ⟨_, _, rfl, by decide⟩

/-- Without a second operator in a chain, the relaxed ladder is the ladder. -/
theorem relaxed_iff (hr : rung.level ≤ 3) :
    Relaxed n rung ts u [] k ↔ Ladder n rung ts u k := by
  constructor
  · intro h
    generalize hs : ([] : List Nat) = spots at h
    induction h with
    | or _ ih => exact .or (ih (by decide) hs)
    | and _ ih => exact .and (ih (by decide) hs)
    | not _ ih => exact .not (ih (by decide) hs)
    | orStep _ ht _ ih ih' =>
      obtain ⟨hs, hs'⟩ := List.append_eq_nil_iff.mp hs.symm
      exact .orStep (ih (by decide) hs.symm) ht (ih' (by decide) (List.map_eq_nil_iff.mp hs').symm)
    | andStep _ ht _ ih ih' =>
      obtain ⟨hs, hs'⟩ := List.append_eq_nil_iff.mp hs.symm
      exact .andStep (ih (by decide) hs.symm) ht (ih' (by decide) (List.map_eq_nil_iff.mp hs').symm)
    | notStep ht _ ih => exact .notStep ht (ih (by decide) (List.map_eq_nil_iff.mp hs.symm).symm)
    | rel h =>
      cases h with
      | operand h => exact .rel h
      | step h ht h' =>
        cases h with
        | operand h => exact .relStep h ht h'
        | step _ _ _ =>
          have hlength := congrArg List.length hs
          simp at hlength
  · intro h
    induction h with
    | or _ ih => exact .or (ih (by decide))
    | and _ ih => exact .and (ih (by decide))
    | not _ ih => exact .not (ih (by decide))
    | orStep _ ht _ ih ih' => exact .orStep (ih (by decide)) ht (ih' (by decide))
    | andStep _ ht _ ih ih' => exact .andStep (ih (by decide)) ht (ih' (by decide))
    | notStep ht _ ih => exact .notStep ht (ih (by decide))
    | rel h => exact .rel (.operand h)
    | relStep h ht h' => exact .rel (.step (.operand h) ht h')
    | _ => exact absurd hr (by decide)

end

/-! ## Readings -/

/-- The error at a relational operator that is not the first of its chain. -/
def Diagnostic.chained (operator : Kind) (place : Spot) : Diagnostic Spot :=
  { Diagnostic.ofCode .chainedRelation place with
    found := some operator, hint := some "add parentheses to group the comparison" }

namespace Reading

/-- The error about an operator so many tokens on. -/
def chained (r : Reading) (i : Nat) : Diagnostic Spot :=
  .chained (kindAt r.ahead i) (r.index + i)

/-- Where `length` tokens have been read, with the trees `us` over them and with the operators at
`spots` among them reported. -/
def past (r : Reading) (length : Nat) (us : List Tree) (spots : List Nat) : Reading where
  ahead := r.ahead.drop length
  index := r.index + length
  built := us.reverse
  faults := (spots.map r.chained).reverse ++ r.faults

/-- What comes after the next token, in a group of its own. -/
def beyond (r : Reading) : Reading := { r.shift with built := [] }

variable {r : Reading} {ts vs rest : List Token} {us ws : List Tree} {spots spots' : List Nat}
variable {t : Token} {length : Nat}

theorem chained_past (i : Nat) : (r.past length us spots).chained i = r.chained (length + i) := by
  simp only [chained, past, kindAt, List.drop_drop, Nat.add_assoc]

theorem chained_beyond (ha : r.ahead = t :: ts) (i : Nat) :
    r.beyond.chained i = r.chained (1 + i) := by
  simp only [chained, beyond, shift_cons ha, ha, kindAt, Nat.add_comm 1 i, List.drop_succ_cons,
    Nat.add_assoc]

/-- A report further on than all others is kept. -/
theorem report_of_behind {d : Diagnostic Spot} (h : ∀ e ∈ r.faults, e.place < d.place) :
    r.report d = { r with faults := d :: r.faults } := by
  cases hf : r.faults with
  | nil => simp only [report, hf]
  | cons last rest =>
    have hlt : last.place < d.place := h last (hf ▸ List.mem_cons_self)
    simp only [report, hf]
    exact if_neg fun he => Nat.ne_of_lt hlt he.1

/-- What is reported among some tokens is behind them. -/
theorem behind_past (hr : ∀ d ∈ r.faults, d.place < r.index) {bound : Nat}
    (hs : ∀ i ∈ spots, i < bound) :
    ∀ d ∈ (r.past length us spots).faults, d.place < r.index + bound := by
  intro d hd
  rcases List.mem_append.mp hd with hd | hd
  · obtain ⟨i, hi, rfl⟩ := List.mem_map.mp (List.mem_reverse.mp hd)
    exact Nat.add_lt_add_left (hs i hi) r.index
  · exact Nat.lt_add_right bound (hr d hd)

/-- A report at the next token. -/
theorem report_past (hr : ∀ d ∈ r.faults, d.place < r.index) (hs : ∀ i ∈ spots, i < length) :
    (r.past length us spots).report (r.chained length) = r.past length us (spots ++ [length]) := by
  rw [report_of_behind (behind_past hr hs)]
  simp [past]

/-- Tokens, one token more and then others, under one node. -/
theorem wrap_past (ha : r.ahead = ts ++ t :: (vs ++ rest)) (k : Kind) {m w : Reading}
    (hm : m = r.past ts.length us spots) (hw : w = m.beyond.past vs.length ws spots') :
    Reading.wrap k { w with built := w.built ++ .leaf t :: m.built } =
      r.past (ts ++ t :: vs).length [.node k (us ++ .leaf t :: ws)]
        (spots ++ spots'.map (ts.length + 1 + ·)) := by
  have hahead : m.ahead = t :: (vs ++ rest) := by simp [hm, past, ha]
  have hbeyond : m.beyond = ⟨vs ++ rest, m.index + 1, [], m.faults⟩ := by
    rw [beyond, shift_cons hahead]
  have hchained : m.beyond.chained = fun i => r.chained (ts.length + 1 + i) := by
    funext i
    rw [chained_beyond hahead, hm, chained_past, Nat.add_assoc]
  have hdrop : r.ahead.drop (ts ++ t :: vs).length = rest := by simp [ha]
  rw [hw, past, hchained, past, hdrop, hbeyond]
  simp [wrap, hm, past, Nat.add_assoc, Nat.add_comm 1]

end Reading

/-- In a group of its own, the tokens `ts` come before the others, the bound on levels leaves room
for `n` more, and what has been reported is behind. -/
structure Begins (env : Surroundings) (r : Reading) (n : Nat) (ts rest : List Token) : Prop where
  built : r.built = []
  ahead : r.ahead = ts ++ rest
  room : env.depth + n ≤ env.limit
  behind : ∀ d ∈ r.faults, d.place < r.index

/-- What comes after some tokens and one more. -/
theorem Begins.beyond {env : Surroundings} {r : Reading} {n : Nat} {ts vs rest : List Token}
    {t : Token} {us : List Tree} {spots : List Nat} (h : Begins env r n (ts ++ t :: vs) rest)
    (hs : ∀ i ∈ spots, i ≤ ts.length) :
    Begins env (r.past ts.length us spots).beyond n vs rest := by
  have hahead : (r.past ts.length us spots).ahead = t :: (vs ++ rest) := by
    simp [Reading.past, h.ahead]
  have hbehind : ∀ d ∈ (r.past ts.length us spots).faults, d.place < r.index + (ts.length + 1) :=
    Reading.behind_past h.behind fun i hi => Nat.lt_succ_of_le (hs i hi)
  rw [Reading.beyond, Reading.shift_cons hahead]
  exact ⟨rfl, rfl, h.room, hbehind⟩

theorem Begins.left {env : Surroundings} {r : Reading} {n : Nat} {ts vs rest : List Token}
    (h : Begins env r n (ts ++ vs) rest) : Begins env r n ts (vs ++ rest) :=
  ⟨h.built, by rw [h.ahead, List.append_assoc], h.room, h.behind⟩

/-! ## The loop -/

theorem Kind.binaryLevel?_of_endsBand {least : Nat} {k : Kind} (h : endsBand least k = true) :
    Band.binaryLevel? k least = none :=
  Option.isNone_iff_eq_none.mp ((Bool.and_eq_true _ _).mp h).1

/-- What comes after a rung goes on with no operator of this level or of a tighter one. -/
def Rung.close : Rung → Nat
  | or => 1
  | and | not => 2
  | _ => 4

namespace Grammar

open Production

/-- An operand and what the loop puts over it. -/
def operands (least : Nat) : Production :=
  seq [leftmost least, many (fun v => (Band.binaryLevel? v.kind least).isSome) (operation least)]

/-- The turns that are left after the operator `before`. -/
def operators (least : Nat) (before : Option Lookahead) : Task :=
  .rest (fun v => (Band.binaryLevel? v.kind least).isSome) (operation least) before

/-- The loop comes from `r` to `m`, and goes on there after the operator `before`. -/
def Reaches (env : Surroundings) (least : Nat) (r m : Reading) (before : Option Lookahead) : Prop :=
  ∀ r', Runs anyReport (operators least before) env m r' →
    Runs anyReport (.of (operands least)) env r r'

section

variable {env : Surroundings} {least tight level : Nat} {r m m' : Reading}
variable {before : Option Lookahead}

theorem associativityAt_eq_neither (hl : level < 8) :
    Band.associativityAt level = .neither ↔ level = 3 := by
  revert level
  decide

/-- The operator before is a relational one. -/
def compares (before : Option Lookahead) : Bool :=
  before.any fun v => Band.relational.contains v.kind

theorem compares_look (hk : headKind m.ahead ∈ Band.infixOperators level) :
    compares (some (m.look env)) = true ↔ level = 3 := by
  rw [compares, Option.any_some, List.contains_iff_mem]
  constructor
  · intro h
    have hrelation : Band.binaryLevel? (headKind m.ahead) 0 = some 3 :=
      Band.binaryLevel?_eq_some.mpr ⟨h, Nat.zero_le 3⟩
    rw [Band.binaryLevel?_eq_some.mpr ⟨hk, Nat.zero_le level⟩] at hrelation
    exact Option.some.inj hrelation
  · rintro rfl
    exact hk

/-- An operator, which is reported if it chains comparisons, and its right operand. -/
theorem runs_operation (hk : headKind m.ahead ∈ Band.infixOperators level) (hl : least ≤ level) :
    Runs anyReport (.of (operation least before)) env m m' ↔
      Runs anyReport (.of (wrap .binaryExpression (seq [shift, call (rightOperand level)]))) env
        (if level = 3 ∧ compares before = true then m.report (m.chained 0) else m) m' := by
  have hlook : Band.binaryLevel? (m.look env).kind least = some level :=
    Band.binaryLevel?_eq_some.mpr ⟨hk, hl⟩
  have hchain : (Band.associativityAt level = .neither ∧
      (before.bind fun v => Band.binaryLevel? v.kind least) = some level) ↔
        level = 3 ∧ compares before = true := by
    rw [associativityAt_eq_neither (Band.lt_of_infixOperators hk)]
    apply and_congr_right
    rintro rfl
    cases before with
    | none => simp [compares]
    | some v => simp [compares, Band.binaryLevel?_eq_some, hl, Band.infixOperators]
  rw [operation, runs_look]
  simp only [hlook, hchain, call_rightOperand]
  rw [runs_seq_cons]
  split
  · simp [runs_report, anyReport]
    rfl
  · simp [runs_done]

/-- What reads a first operand of a tight band without errors reads it in a looser one. -/
theorem runs_leftmost_of_le (hl : least ≤ tight) (h : Runs noError (.of (leftmost tight)) env r m) :
    Runs anyReport (.of (leftmost least)) env r m := by
  have h' := runs_look.mp h
  apply Runs.look
  cases hu : Band.unaryLevel? (r.look env).kind with
  | none =>
    simp only [hu] at h' ⊢
    exact h'.mono fun _ _ => trivial
  | some level =>
    simp only [hu] at h' ⊢
    by_cases hle : tight ≤ level
    · rw [if_pos hle] at h'
      rw [if_pos (Nat.le_trans hl hle)]
      exact h'.mono fun _ _ => trivial
    · rw [if_neg hle] at h'
      obtain ⟨w, hfault, -⟩ := runs_seq_cons.mp h'
      obtain ⟨herror, -⟩ := runs_report.mp (runs_look.mp hfault)
      cases herror

/-- Turns among operators that bind tighter than relations are turns of a looser band too. -/
theorem operators_of_le (hl : least ≤ tight) (ht : 3 < tight)
    (h : Runs anyReport (operators tight before) env r m) (hb : compares before = false) :
    ∃ before', compares before' = false ∧ ∀ r', Runs anyReport (operators least before') env m r' →
      Runs anyReport (operators least before) env r r' := by
  generalize htask : operators tight before = task at h
  induction h generalizing before with
  | stop _ =>
    cases htask
    exact ⟨_, hb, fun r' h => h⟩
  | @turn _ _ _ env m _ _ hc hitem _ _ ih =>
    cases htask
    obtain ⟨level, hlevel⟩ := Option.isSome_iff_exists.mp hc
    obtain ⟨hk, hle⟩ := Band.binaryLevel?_eq_some.mp hlevel
    have hnone : compares (some (m.look env)) = false := by
      rw [Bool.eq_false_iff, ne_eq, compares_look hk]
      omega
    obtain ⟨before', hb', hrun⟩ := ih hnone rfl
    rw [runs_operation hk hle] at hitem
    refine ⟨before', hb', fun r' h => .turn ?_ ((runs_operation hk ?_).mpr hitem) (hrun r' h)⟩
    · exact Option.isSome_iff_exists.mpr
        ⟨level, Band.binaryLevel?_eq_some.mpr ⟨hk, Nat.le_trans hl hle⟩⟩
    · exact Nat.le_trans hl hle
  | _ => cases htask

/-- What the loop has come to is all of a band, if no operator of the band goes on. -/
theorem Reaches.band (h : Reaches env least { r with built := [] } m before)
    (hk : Band.binaryLevel? (headKind m.ahead) least = none) :
    Runs anyReport (.of (.call (.band least))) env r { m with built := m.built ++ r.built } := by
  have hstop : (Band.binaryLevel? (m.look env).kind least).isSome = false := by
    rw [Option.isSome_eq_false_iff, Option.isNone_iff_eq_none]
    exact hk
  exact .call (.group (h m (.stop hstop)))

end

section

variable {env : Surroundings} {least level n : Nat} {r : Reading} {before : Option Lookahead}
variable {ts vs rest : List Token} {u w : Tree} {spots spots' : List Nat} {t : Token} {k : Kind}

/-- A sum is read without a report. -/
theorem reaches_sum (h : Ladder n .add ts u k) (hl : least ≤ 4) (hb : Begins env r n ts rest)
    (hr : headKind rest = k) (hk : Kind.endsBand 4 k = true) :
    ∃ before, compares before = false ∧ Reaches env least r (r.past ts.length [u] []) before := by
  subst hr
  -- By itself the sum is read by the loop of its own band. A looser loop takes the same turns.
  obtain ⟨r', hrun, ha, hbuilt⟩ := h.derives.takes ⟨fun _ => id, .inl rfl⟩ env r rest rfl hb.ahead
    hb.room hk
  have hfaults : r'.faults = r.faults :=
    (hrun.demanded (fun _ => id) (Nonterminal.severe_production · _) rfl).faults_eq
      fun fault ⟨hno, _, herror⟩ => by cases hno.symm.trans herror
  have hindex : ts.length + r.index = r'.index := by
    obtain ⟨-, hlength⟩ := hrun.leads
    rw [ha, hb.ahead, List.length_append] at hlength
    omega
  obtain ⟨m, hm, rfl⟩ := runs_group.mp (runs_call.mp hrun)
  have hpast : m = r.past ts.length [u] [] := by
    simp only [hb.built, List.append_nil] at hbuilt
    rw [Nat.add_comm] at hindex
    simp [Reading.past, hb.ahead, ← ha, ← hfaults, hindex, ← hbuilt rfl]
  have hgroup : { r with built := [] } = r := by rw [← hb.built]
  rw [hgroup] at hm
  obtain ⟨w, hfirst, hrest⟩ := runs_seq_cons.mp hm
  obtain ⟨before, hbefore, hloop⟩ := operators_of_le hl (by decide)
    ((runs_many.mp hrest).mono fun _ _ => trivial) rfl
  refine ⟨before, hbefore, fun r' hr' => ?_⟩
  exact .andThen (runs_leftmost_of_le hl hfirst) (.many (hloop r' (hpast ▸ hr')))

/-- One more turn of the loop. -/
theorem Reaches.turn {m m' : Reading} (h : Reaches env least r m before)
    (hk : headKind m.ahead ∈ Band.infixOperators level) (hl : least ≤ level)
    (ho : Runs anyReport (.of (wrap .binaryExpression (seq [shift, call (rightOperand level)]))) env
      (if level = 3 ∧ compares before = true then m.report (m.chained 0) else m) m') :
    ∃ after, (compares after = true ↔ level = 3) ∧ Reaches env least r m' after := by
  refine ⟨some (m.look env), compares_look hk, fun r' hr' => h r' (.turn ?_ ?_ hr')⟩
  · exact Option.isSome_iff_exists.mpr ⟨level, Band.binaryLevel?_eq_some.mpr ⟨hk, hl⟩⟩
  · exact (runs_operation hk hl).mpr ho

/-- The operand after an operator is read in a group of its own. -/
theorem Reaches.operand {m : Reading} (ha : m.ahead = t :: (vs ++ rest))
    (h : Reaches env least m.beyond (m.beyond.past vs.length [w] spots) before)
    (hk : Band.binaryLevel? (headKind rest) least = none) :
    Runs anyReport (.of (.call (.band least))) env m.shift
      { m.beyond.past vs.length [w] spots with
        built := (m.beyond.past vs.length [w] spots).built ++ .leaf t :: m.built } := by
  have hshift : m.shift.built = .leaf t :: m.built := by rw [Reading.shift_cons ha]
  have hend : (m.beyond.past vs.length [w] spots).ahead = rest := by
    simp [Reading.past, Reading.beyond, Reading.shift_cons ha]
  rw [← hshift]
  exact h.band (hend ▸ hk)

/-- An operator that groups to the left and its right operand. -/
theorem runs_rightOperand {m : Reading} (hm : m = r.past ts.length [u] spots)
    (ha : r.ahead = ts ++ t :: (vs ++ rest)) (hassoc : Band.associativityAt level ≠ .right)
    (hright : Reaches env (level + 1) m.beyond (m.beyond.past vs.length [w] spots') before)
    (hk : Band.binaryLevel? (headKind rest) (level + 1) = none) :
    Runs anyReport (.of (wrap .binaryExpression (seq [shift, call (rightOperand level)]))) env m
      (r.past (ts ++ t :: vs).length [.binary u t w]
        (spots ++ spots'.map (ts.length + 1 + ·))) := by
  have hahead : m.ahead = t :: (vs ++ rest) := by simp [hm, Reading.past, ha]
  have hwrap := Reading.wrap_past ha .binaryExpression hm
    (rfl : m.beyond.past vs.length [w] spots' = _)
  rw [rightOperand, if_neg hassoc]
  exact hwrap ▸ .wrap (.andThen .shift (hright.operand hahead hk))

/-- An operator that groups to the left, once it is known what is `reported` up to there. -/
theorem reaches_operation {m : Reading} {reported : List Nat} (hleft : Reaches env least r m before)
    (hb : Begins env r n (ts ++ t :: vs) rest)
    (ht : t.kind ∈ Band.infixOperators level) (hl : least ≤ level)
    (hassoc : Band.associativityAt level ≠ .right)
    (hreport : (if level = 3 ∧ compares before = true then m.report (m.chained 0) else m) =
      r.past ts.length [u] reported) (hs : ∀ i ∈ reported, i ≤ ts.length)
    (hright : ∀ {x}, Begins env x n vs rest →
      ∃ after, Reaches env (level + 1) x (x.past vs.length [w] spots') after)
    (hk : Kind.endsBand (level + 1) (headKind rest) = true) :
    ∃ after, (compares after = true ↔ level = 3) ∧ Reaches env least r
      (r.past (ts ++ t :: vs).length [.binary u t w] (reported ++ spots'.map (ts.length + 1 + ·)))
      after := by
  have hahead : r.ahead = ts ++ t :: (vs ++ rest) := by
    rw [hb.ahead, List.append_assoc, List.cons_append]
  have hm : m.ahead = t :: (vs ++ rest) := by
    have hsame : m.ahead = (r.past ts.length [u] reported).ahead := by
      rw [← hreport]
      split
      · rw [Reading.report_ahead]
      · rfl
    rw [hsame, Reading.past, hahead, List.drop_left]
  have hmem : headKind m.ahead ∈ Band.infixOperators level := by
    rw [hm]
    exact ht
  obtain ⟨after, hoperand⟩ := hright (hb.beyond hs)
  refine hleft.turn hmem hl ?_
  rw [hreport]
  exact runs_rightOperand rfl hahead hassoc hoperand (Kind.binaryLevel?_of_endsBand hk)

/-- A chain of comparisons is read to its end. Each operator but the first is reported. -/
theorem reaches_comparison (h : Comparison n ts u spots k) (hl : least ≤ 3)
    (hb : Begins env r n ts rest) (hr : headKind rest = k) (hk : Kind.endsBand 4 k = true) :
    ∃ before, (compares before = true ↔ spots ≠ []) ∧
      Reaches env least r (r.past ts.length [u] spots.tail) before := by
  induction h generalizing rest with
  | operand h =>
    obtain ⟨before, hbefore, hreach⟩ := reaches_sum h (Nat.le_succ_of_le hl) hb hr hk
    exact ⟨before, by simp [hbefore], hreach⟩
  | @step ts u spots vs w k t h ht hsum ih =>
    subst hr
    have hmem : t.kind ∈ Band.infixOperators 3 := ht
    obtain ⟨before, hbefore, hreach⟩ := ih hb.left rfl (endsBand_of_mem hmem)
    -- The loop looks one operator back, and that is a relational one after each of the chain.
    have hreport : (if 3 = 3 ∧ compares before = true then
          (r.past ts.length [u] spots.tail).report ((r.past ts.length [u] spots.tail).chained 0)
        else r.past ts.length [u] spots.tail) =
        r.past ts.length [u] (spots ++ [ts.length]).tail := by
      by_cases hs : spots = []
      · simp [hbefore, hs]
      · rw [if_pos ⟨rfl, hbefore.mpr hs⟩, List.tail_append_of_ne_nil hs, Reading.chained_past]
        exact Reading.report_past hb.behind fun i hi => (h.comparesAt.tail.2 i hi).1
    have hle : ∀ i ∈ (spots ++ [ts.length]).tail, i ≤ ts.length := by
      intro i hi
      rcases List.mem_append.mp (List.mem_of_mem_tail hi) with hi | hi
      · exact Nat.le_of_lt (h.comparesAt.2 i hi).1
      · exact Nat.le_of_eq (List.mem_singleton.mp hi)
    have hright : ∀ {x}, Begins env x n vs rest →
        ∃ after, Reaches env 4 x (x.past vs.length [w] []) after := by
      intro x hx
      obtain ⟨after, -, hreach⟩ := reaches_sum hsum (Nat.le_refl 4) hx rfl hk
      exact ⟨after, hreach⟩
    obtain ⟨after, hafter, hreach⟩ :=
      reaches_operation hreach hb hmem hl (by decide) hreport hle hright hk
    exact ⟨after, by simp [hafter], by simpa using hreach⟩

end

/-! ## The rungs above comparisons -/

section

variable {env : Surroundings} {least n : Nat} {r : Reading}
variable {ts rest : List Token} {u : Tree} {spots : List Nat} {k : Kind} {rung : Rung}

/-- A `not` and its operand, which is one level deeper. -/
theorem runs_unary {t : Token} {vs : List Token} {w : Tree}
    (hb : Begins env r (n + 1) (t :: vs) rest)
    (hright : ∀ {env x}, Begins env x n vs rest →
      ∃ after, Reaches env 2 x (x.past vs.length [w] spots) after)
    (hk : Kind.endsBand 2 (headKind rest) = true) :
    Runs anyReport (.of (.call (.unary 2))) env r
      (r.past (t :: vs).length [.unary t w] (spots.map (1 + ·))) := by
  have hgroup : { r with built := [] } = r := by rw [← hb.built]
  have hstart : r = r.past ([] : List Token).length [] [] := by
    rw [← hgroup]
    simp [Reading.past]
  have hroom : env.depth + 1 + n ≤ env.limit := by
    have := hb.room
    omega
  have hdeeper : Begins { env with depth := env.depth + 1 } r n ([] ++ t :: vs) rest :=
    ⟨hb.built, hb.ahead, hroom, hb.behind⟩
  have hbeyond : Begins { env with depth := env.depth + 1 } r.beyond n vs rest := by
    rw [hstart]
    exact hdeeper.beyond nofun
  obtain ⟨after, hreach⟩ := hright hbeyond
  have hoperand := hreach.operand hb.ahead (Kind.binaryLevel?_of_endsBand hk)
  have ha : r.ahead = [] ++ t :: (vs ++ rest) := hb.ahead
  have hwrap := Reading.wrap_past ha .unaryExpression hstart
    (rfl : r.beyond.past vs.length [w] spots = _)
  rw [hb.built] at hoperand hwrap
  have hlimit : env.depth + 1 ≤ env.limit := by omega
  have hnested : Runs anyReport (.of (.call (.operand 2))) env r.shift _ :=
    .call (.within hlimit hoperand)
  have hnode : Runs anyReport (.of (Grammar.unary 2)) env r
      (r.past (t :: vs).length [.unary t w] (spots.map (1 + ·))) := by
    rw [Grammar.unary, runs_node, hgroup, hb.built]
    exact ⟨_, .andThen .shift hnested, hwrap.symm⟩
  exact .call hnode

/-- An operator before an operand of its own rung. -/
theorem reaches_unary {t : Token} {vs : List Token} {w : Tree} (ht : t.kind = .notKw)
    (hl : least ≤ 2) (hb : Begins env r (n + 1) (t :: vs) rest)
    (hright : ∀ {env x}, Begins env x n vs rest →
      ∃ after, Reaches env 2 x (x.past vs.length [w] spots) after)
    (hk : Kind.endsBand 2 (headKind rest) = true) :
    Reaches env least r (r.past (t :: vs).length [.unary t w] (spots.map (1 + ·))) none := by
  intro r' hr'
  have hlook : Band.unaryLevel? (r.look env).kind = some 2 := by
    have hkind : (r.look env).kind = .notKw := by simpa [Reading.look, Lookahead.kind, hb.ahead]
    rw [hkind]
    rfl
  refine .andThen (.look ?_) (.many hr')
  simp only [hlook, if_pos hl]
  exact runs_unary hb hright hk

/-- A rung is read to its end, and reported are the operators at its spots. -/
theorem reaches_relaxed (h : Relaxed n rung ts u spots k) (hl : least ≤ rung.level)
    (hb : Begins env r n ts rest) (hr : headKind rest = k)
    (hk : Kind.endsBand rung.close k = true) :
    ∃ before, Reaches env least r (r.past ts.length [u] spots) before := by
  -- The left operand of an operator is read by the same loop, the right one by a loop of its own.
  induction h generalizing env least r rest with
  | or _ ih => exact ih (Nat.le_trans hl (by decide)) hb hr (endsBand_mono (by decide) hk)
  | and _ ih => exact ih (Nat.le_trans hl (by decide)) hb hr hk
  | not _ ih => exact ih (Nat.le_trans hl (by decide)) hb hr (endsBand_mono (by decide) hk)
  | rel h =>
    obtain ⟨before, -, hreach⟩ := reaches_comparison h hl hb hr hk
    exact ⟨before, hreach⟩
  | orStep h ht _ ih ih' =>
    subst hr
    have hmem : _ ∈ Band.infixOperators 0 := List.mem_singleton.mpr ht
    obtain ⟨before, hreach⟩ := ih hl hb.left rfl (endsBand_of_mem hmem)
    obtain ⟨after, -, hreach⟩ := reaches_operation hreach hb hmem hl (by decide)
      (if_neg (by simp)) (fun i hi => Nat.le_of_lt (h.comparesAt.2 i hi).1)
      (fun hx => ih' (Nat.le_refl 1) hx rfl (endsBand_mono (by decide) hk)) hk
    exact ⟨after, hreach⟩
  | andStep h ht _ ih ih' =>
    subst hr
    have hmem : _ ∈ Band.infixOperators 1 := List.mem_singleton.mpr ht
    obtain ⟨before, hreach⟩ := ih hl hb.left rfl (endsBand_of_mem hmem)
    obtain ⟨after, -, hreach⟩ := reaches_operation hreach hb hmem hl (by decide)
      (if_neg (by simp)) (fun i hi => Nat.le_of_lt (h.comparesAt.2 i hi).1)
      (fun hx => ih' (Nat.le_refl 2) hx rfl hk) hk
    exact ⟨after, hreach⟩
  | notStep ht _ ih =>
    subst hr
    exact ⟨none, reaches_unary ht hl hb (fun hx => ih (Nat.le_refl 2) hx rfl hk) hk⟩

end

end Grammar

section

variable {text : String} {n limit : Nat} {ts : List Token} {u : Tree} {spots : List Nat}

/-- What stands on the relaxed ladder is read to its end. -/
theorem Relaxed.runs (hn : n ≤ limit) (h : Relaxed n .or ts u spots .endOfInput) :
    Runs anyReport (.of (FragmentRule.scratch .simpleExpression)) ⟨.topLevel, [], 0, limit⟩
      (.start ts)
      { Reading.past (.start ts) ts.length [u] spots with built := [.node .error [u]] } := by
  have hb : Begins ⟨.topLevel, [], 0, limit⟩ (.start ts) n ts [] :=
    ⟨rfl, (List.append_nil ts).symm, by simpa using hn, fun _ hd => absurd hd List.not_mem_nil⟩
  have hloosest : 0 ≤ Rung.or.level := Nat.zero_le _
  obtain ⟨before, hreach⟩ := Grammar.reaches_relaxed h hloosest hb rfl (by decide)
  have hahead : (Reading.past (.start ts) ts.length [u] spots).ahead = [] := List.drop_length
  have hband : Runs anyReport (.of (.call (.band 0))) ⟨.topLevel, [], 0, limit⟩ (.start ts)
      (Reading.past (.start ts) ts.length [u] spots) :=
    hreach.band (by rw [hahead]; exact Band.binaryLevel?_endOfInput 0)
  have hrule : Runs anyReport (.of (FragmentRule.production .simpleExpression))
      ⟨.topLevel, [], 0, limit⟩ (.start ts) (Reading.past (.start ts) ts.length [u] spots) :=
    .call hband
  refine Runs.scratch hrule ?_
  simp [Reading.look, Lookahead.atEnd, Lookahead.sees, Lookahead.kind, hahead, headKind]

/-- **Each operator of a chain but the first is reported, and nothing else is.** A text without bad
tokens that stands on the relaxed ladder, within the bound on nesting, is read whole as a simple
expression, with the tree from there, which puts each operator of a chain over all that is to its
left. There is one diagnostic for each spot, in their order. -/
theorem simpleExpression_chains (ht : ∀ t ∈ tokenize text, t.kind ≠ .error)
    (hn : n ≤ ParseOptions.standard.limit)
    (h : Relaxed n .or (Token.significant (tokenize text)) u spots .endOfInput) :
    Token.ComparesAt (Token.significant (tokenize text)) spots ∧
    (parseFragment .simpleExpression text).parse.faults = spots.map (fun i =>
      (Diagnostic.chained (kindAt (Token.significant (tokenize text)) i) i).map
        (Landmarks.ofTokens (tokenize text)).span) ∧
    (parseFragment .simpleExpression text).fullyConsumed = true ∧
    (parseFragment .simpleExpression text).parse.tree.strip = u := by
  have hread := ((FragmentRule.scratch .simpleExpression).runs_read
    (FragmentRule.tame_scratch .simpleExpression) ParseOptions.standard.limit
    (Token.significant (tokenize text))).determined (h.runs hn)
  refine ⟨h.comparesAt, ?_, ?_⟩
  · have hreported : Parse.reported (FragmentRule.scratch .simpleExpression)
        ParseOptions.standard.limit text = spots.map (fun i =>
          (Diagnostic.chained (kindAt (Token.significant (tokenize text)) i) i).map
            (Landmarks.ofTokens (tokenize text)).span) := by
      rw [Parse.reported, hread]
      simp [Reading.past, Reading.chained, Reading.start]
    have hfaults : (Parse.ofProduction (FragmentRule.scratch .simpleExpression)
        ParseOptions.standard.limit text).faults = inOrder (lexicalFaults (tokenize text) ++
          Parse.reported (FragmentRule.scratch .simpleExpression)
            ParseOptions.standard.limit text) :=
      rfl
    have hsorted := Parse.pairwise_reported (FragmentRule.tame_scratch .simpleExpression)
      (FragmentRule.prompt_scratch .simpleExpression) ParseOptions.standard.limit text
    rw [parseFragment_faults, hfaults, Parse.lexicalFaults_eq_nil ht, List.nil_append, ← hreported]
    exact List.mergeSort_of_pairwise (hsorted.imp fun h => by simpa using Nat.le_of_lt h)
  · obtain ⟨l, cs, rfl, hl⟩ := h.node
    exact parseFragment_of_built ht hl (by rw [hread])

end

/-- A number is a sum by itself. -/
theorem ladder_number {t : Token} (ht : t.kind = .unsignedInteger) (k : Kind) :
    Ladder 0 .add [t] (.node .unsignedIntegerLiteral [.leaf t]) k := by
  have hprimary : Derives endGuarded (.rule .primary) 0 [t]
      [.node .unsignedIntegerLiteral [.leaf t]] k :=
    .rule (.left (.node (.token (List.mem_singleton.mpr ht))))
  exact .add (.uadd (.mul (.pow hprimary)))

/-- Three numbers in a chain, where the second operator is reported. -/
theorem simpleExpression_chains_numbers :
    (∀ t ∈ tokenize "1 < 2 < 3", t.kind ≠ .error) ∧ 0 ≤ ParseOptions.standard.limit ∧
      ∃ u, Relaxed 0 .or (Token.significant (tokenize "1 < 2 < 3")) u [3] .endOfInput ∧
        Token.ComparesAt (Token.significant (tokenize "1 < 2 < 3")) [3] ∧
        (parseFragment .simpleExpression "1 < 2 < 3").parse.faults =
          [(Diagnostic.chained .less 3).map (Landmarks.ofTokens (tokenize "1 < 2 < 3")).span] ∧
        (parseFragment .simpleExpression "1 < 2 < 3").fullyConsumed = true ∧
        (parseFragment .simpleExpression "1 < 2 < 3").parse.tree.strip = u := by
  have ht : ∀ t ∈ tokenize "1 < 2 < 3", t.kind ≠ .error := by decide +kernel
  have htokens : Token.significant (tokenize "1 < 2 < 3") =
      [⟨.unsignedInteger, "1"⟩, ⟨.less, "<"⟩, ⟨.unsignedInteger, "2"⟩, ⟨.less, "<"⟩,
        ⟨.unsignedInteger, "3"⟩] := by
    decide +kernel
  have hone : Comparison 0 [⟨.unsignedInteger, "1"⟩] _ [] .less := .operand (ladder_number rfl _)
  have htwo : Comparison 0 [⟨.unsignedInteger, "1"⟩, ⟨.less, "<"⟩, ⟨.unsignedInteger, "2"⟩] _ [1]
      .less :=
    .step (t := ⟨.less, "<"⟩) hone (by decide) (ladder_number rfl _)
  have hthree : Comparison 0 [⟨.unsignedInteger, "1"⟩, ⟨.less, "<"⟩, ⟨.unsignedInteger, "2"⟩,
      ⟨.less, "<"⟩, ⟨.unsignedInteger, "3"⟩] _ [1, 3] .endOfInput :=
    .step (t := ⟨.less, "<"⟩) htwo (by decide) (ladder_number rfl _)
  rw [← htokens] at hthree
  have hrelaxed := Relaxed.or (.and (.not (.rel hthree)))
  obtain ⟨hspots, hfaults, htree⟩ := simpleExpression_chains ht (Nat.zero_le _) hrelaxed
  refine ⟨ht, Nat.zero_le _, _, hrelaxed, hspots, ?_, htree⟩
  rw [hfaults, htokens]
  rfl

end Modelica
