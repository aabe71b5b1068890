import Modelica.Proofs.Lossless

/-!
# Reading advances

Reading never comes back to where it was: each turn of a repetition reads a token, and no rule is
called again, within a call of itself, before a token has been read. So the number of tokens left
is a measure for the whole of a reading.
-/

namespace Modelica

namespace Nonterminal

/-- A rule whatever its parameters. -/
def shape : Nonterminal → Nonterminal
  | band _ => band 0
  | unary _ => unary 0
  | operand _ => operand 0
  | sectionBody _ => sectionBody .equations
  | body _ => body .equations
  | item _ => item .equations
  | keywordStatement _ => keywordStatement .breakStatement
  | ifBlock _ => ifBlock .equations
  | elseIfClause _ => elseIfClause .equations
  | elseClause _ => elseClause .equations
  | whenBlock _ => whenBlock .equations
  | elseWhenClause _ => elseWhenClause .equations
  | forBlock _ => forBlock .equations
  | rule => rule

theorem height_shape (rule : Nonterminal) : rule.shape.height = rule.height := by
  cases rule <;> rfl

theorem shiftsFirst_shape (rule : Nonterminal) : rule.shape.shiftsFirst = rule.shiftsFirst := by
  cases rule <;> rfl

theorem shape_eq_classDefinition (rule : Nonterminal) :
    rule.shape = classDefinition ↔ rule = classDefinition := by
  cases rule <;> simp [shape]

/-- Parameters do not matter for the rank, and of what is seen only the tokens do. -/
theorem rank_congr {rule rule' : Nonterminal} {v v' : Lookahead} (hr : rule.shape = rule'.shape)
    (hv : v.ahead = v'.ahead) : rule.rank v = rule'.rank v' := by
  have hclass : rule = classDefinition ↔ rule' = classDefinition := by
    rw [← shape_eq_classDefinition, ← shape_eq_classDefinition rule', hr]
  have hat : v.atClassDefinition = v'.atClassDefinition := by
    simp only [Lookahead.atClassDefinition, Lookahead.sees, Lookahead.seesAny, Lookahead.kind, hv]
  unfold rank
  rw [← height_shape rule, ← shiftsFirst_shape rule, hr, height_shape, shiftsFirst_shape, hv, hat]
  simp only [hclass]

end Nonterminal

/-- The rules that are being read, innermost first, each with the number of tokens that were left
where it began. -/
abbrev Entered := List (Nonterminal × Nat)

/-- The rule is not being read, or a token has been read since it began. -/
def Entered.Admits (entered : Entered) (rule : Nonterminal) (left : Nat) : Prop :=
  ∀ e ∈ entered, e.1.shape = rule.shape → left < e.2

/-- `Advances entered task env r r'`: doing `task` takes `r` to `r'`. Each turn of a repetition
reads a token on the way, and each rule that is called is one that `entered` admits. -/
inductive Advances : Entered → Task → Surroundings → Reading → Reading → Prop
  | done {entered env r} : Advances entered (.of .done) env r r
  | andThen {entered p q env r m r'} : Advances entered (.of p) env r m →
      Advances entered (.of q) env m r' → Advances entered (.of (.andThen p q)) env r r'
  | shift {entered env r} : Advances entered (.of .shift) env r r.shift
  | group {entered p env r m} : Advances entered (.of p) env { r with built := [] } m →
      Advances entered (.of (.group p)) env r { m with built := m.built ++ r.built }
  | wrap {entered k p env r m} : Advances entered (.of p) env r m →
      Advances entered (.of (.wrap k p)) env r (m.wrap k)
  | look {entered next env r r'} : Advances entered (.of (next (r.look env))) env r r' →
      Advances entered (.of (.look next)) env r r'
  | many {entered continues item env r r'} :
      Advances entered (.rest continues item none) env r r' →
      Advances entered (.of (.many continues item)) env r r'
  | stop {entered continues item before env r} : continues (r.look env) = false →
      Advances entered (.rest continues item before) env r r
  | turn {entered continues item before env r m r'} : continues (r.look env) = true →
      Advances entered (.of (item before)) env r m →
      m.ahead.length < r.ahead.length →
      Advances entered (.rest continues item (some (r.look env))) env m r' →
      Advances entered (.rest continues item before) env r r'
  | call {entered rule env r r'} : Entered.Admits entered rule r.ahead.length →
      Advances ((rule, r.ahead.length) :: entered) (.of rule.production) env r r' →
      Advances entered (.of (.call rule)) env r r'
  | report {entered fault env r} :
      Advances entered (.of (.report fault)) env r (r.report fault)
  | inContext {entered context p env r r'} :
      Advances entered (.of p) { env with context } r r' →
      Advances entered (.of (.inContext context p)) env r r'
  | opening {entered block p env r r'} :
      Advances entered (.of p) { env with constructs := block :: env.constructs } r r' →
      Advances entered (.of (.opening block p)) env r r'
  | within {entered p q env r r'} : env.depth + 1 ≤ env.limit →
      Advances entered (.of p) { env with depth := env.depth + 1 } r r' →
      Advances entered (.of (.nested p q)) env r r'
  | beyond {entered p q env r r'} : ¬ env.depth + 1 ≤ env.limit →
      Advances entered (.of q) { env with depth := env.depth + 1 } r r' →
      Advances entered (.of (.nested p q)) env r r'

/-- What a task calls before it reads a token has a rank below the limit. -/
def Task.Heads (limit : Nat) : Task → Lookahead → Prop
  | of p, v => p.Heads limit v
  | rest continues item before, v => continues v = true → (item before).Heads limit v

namespace Entered

/-- A rule that has read nothing since it began has a rank of at least `limit`. -/
def Above (entered : Entered) (limit : Nat) (r : Reading) : Prop :=
  ∀ e ∈ entered, r.ahead.length < e.2 ∨
    (r.ahead.length = e.2 ∧ ∀ v : Lookahead, v.ahead = r.ahead → limit ≤ e.1.rank v)

variable {entered : Entered} {limit : Nat} {r r' : Reading} {rule : Nonterminal}

/-- Once a token has been read the ranks are of no concern. -/
theorem Above.of_lt (h : entered.Above limit r) (hl : r'.ahead.length < r.ahead.length)
    (limit' : Nat) : entered.Above limit' r' := by
  intro e he
  obtain hlt | ⟨heq, -⟩ := h e he
  · left; omega
  · left; omega

theorem Above.of_eq (h : entered.Above limit r) (ha : r'.ahead = r.ahead) :
    entered.Above limit r' := by
  intro e he
  rw [ha]
  exact h e he

/-- A rule of lower rank is not one of those that have read nothing. -/
theorem Above.admits (h : entered.Above limit r) {env : Surroundings}
    (hr : rule.rank (r.look env) < limit) : entered.Admits rule r.ahead.length := by
  intro e he hs
  obtain hlt | ⟨-, hrank⟩ := h e he
  · exact hlt
  · have hle := hrank (r.look env) rfl
    rw [Nonterminal.rank_congr hs rfl] at hle
    omega

theorem Above.enter (h : entered.Above limit r) {env : Surroundings}
    (hr : rule.rank (r.look env) < limit) :
    Entered.Above ((rule, r.ahead.length) :: entered) (rule.rank (r.look env)) r := by
  intro e he
  rcases List.mem_cons.mp he with rfl | he
  · right
    refine ⟨rfl, fun v hv => ?_⟩
    exact Nat.le_of_eq (Nonterminal.rank_congr rfl hv.symm)
  · obtain hlt | ⟨heq, hrank⟩ := h e he
    · exact .inl hlt
    · right
      refine ⟨heq, fun v hv => ?_⟩
      have := hrank v hv
      omega

end Entered

theorem Runs.advances {task : Task} {env : Surroundings} {r r' : Reading}
    (h : Runs anyReport task env r r') (ht : task.Tame) {entered : Entered} {limit : Nat}
    (hh : task.Heads limit (r.look env)) (he : entered.Above limit r) :
    Advances entered task env r r' := by
  -- The limit falls with each call and is lifted when a token is read.
  induction h generalizing entered limit with
  | done => exact .done
  | @andThen p q env r m r' hp hq ihp ihq =>
    have hadv := ihp ht.1 hh.1 he
    refine .andThen hadv ?_
    have hle := hp.leads.length_le
    by_cases hm : m.ahead.length = r.ahead.length
    · have hv : m.look env = r.look env := hp.leads.look_eq hm
      refine ihq ht.2 (hv ▸ hh.2 (hp.mayStall ht.1 hm)) ?_
      exact he.of_eq (hp.leads.same hm).1
    · exact ihq ht.2 (q.heads_any _) (he.of_lt (by omega) 20)
  | shift => exact .shift
  | group _ ih => exact .group (ih ht hh he)
  | wrap _ ih => exact .wrap (ih ht hh he)
  | look _ ih => exact .look (ih (ht _) hh he)
  | many _ ih => exact .many (ih ht hh he)
  | stop hc => exact .stop hc
  | @turn continues item before env r m r' hc hi hr ihi ihr =>
    have hle := hi.leads.length_le
    have hlt : m.ahead.length < r.ahead.length := by
      refine Nat.lt_of_le_of_ne hle fun hm => ?_
      exact (ht before).2 _ hc (hi.mayStall (ht before).1 hm)
    refine .turn hc (ihi (ht before).1 (hh hc) he) hlt ?_
    exact ihr ht (fun _ => Production.heads_any _ _) (he.of_lt hlt 20)
  | @call rule env r r' _ ih =>
    refine .call (he.admits hh) ?_
    exact ih rule.orderly.tame (rule.orderly.heads _) (he.enter hh)
  | report _ => exact .report
  | inContext _ ih => exact .inContext (ih ht hh he)
  | opening _ ih => exact .opening (ih ht hh he)
  | within hd _ ih => exact .within hd (ih ht.1 hh.1 he)
  | beyond hd _ ih => exact .beyond hd (ih ht.2 hh.2 he)

/-- What nests too deep is skipped token by token, and there are that many. -/
theorem Token.nestedExtent_le (depth : Nat) (ts : List Token) :
    nestedExtent depth ts ≤ ts.length := by
  induction ts generalizing depth with
  | nil => simp [nestedExtent]
  | cons t ts ih =>
    have h0 := ih depth
    have h1 := ih (depth + 1)
    unfold nestedExtent
    rw [List.length_cons]
    split
    · omega
    · split
      · cases depth with
        | zero => exact Nat.zero_le _
        | succ d =>
          have h2 := ih d
          simp only
          omega
      · split <;> omega

/-- Reading so many tokens advances, and with more repetitions and more fuel than it gets the
reading is the same. -/
structure Production.Ends (p : Production) (limit : Nat) (tokens : List Token) : Prop where
  advances : Advances [] (.of p) ⟨.topLevel, [], 0, limit⟩ (.start tokens) (p.read limit tokens)
  enough : ∀ turns fuel, p.run
    (Nonterminal.run (repeatBound tokens.length + turns) (callBound tokens.length + fuel))
    (repeatBound tokens.length + turns) ⟨.topLevel, [], 0, limit⟩ (.start tokens) =
      p.read limit tokens

theorem Production.ends_of_tame {p : Production} (ht : p.Tame) (limit : Nat)
    (tokens : List Token) : p.Ends limit tokens := by
  have hrun := p.runs_read ht limit tokens
  constructor
  · exact hrun.advances ht (p.heads_any _) fun e he => nomatch he
  · intro turns fuel
    have hmore := p.runs_of_bounds ht limit (Nat.le_add_right (repeatBound tokens.length) turns)
      (Nat.le_add_right (callBound tokens.length) fuel)
    exact hmore.determined hrun

/-- Reading ends on every text: that of a whole text and that of a fragment by any rule, within any
bound on nesting. Skipping what nests too deep never asks for more tokens than there are. -/
theorem reading_ends (text : String) (limit : Nat) :
    (Production.call .storedDefinition).Ends limit (Token.significant (tokenize text)) ∧
      (∀ rule : FragmentRule, rule.scratch.Ends limit (Token.significant (tokenize text))) ∧
      ∀ depth ts, Token.nestedExtent depth ts ≤ ts.length := by
  refine ⟨?_, fun rule => ?_, Token.nestedExtent_le⟩
  · exact Production.ends_of_tame (p := .call .storedDefinition) True.intro limit _
  · exact Production.ends_of_tame rule.tame_scratch limit _

end Modelica
