import Modelica.Proofs.Derived
import Modelica.Proofs.MissingEnds

/-!
# Scans find what the grammar reads

Where the grammar is ambiguous, a scan goes over the tokens ahead before a rule reads them. It
counts brackets without matching them and knows nothing of expressions, but where the rule reads
without an error the scan ends at the same token. A bracketed group is balanced since every rule
closes the brackets that it opens; a reference is followed part by part.

* `Reading.Foresees`: a scan ends where reading ends;
* `Runs.foresees_group`: counting brackets;
* `Runs.reference`: the end of a reference, and whether it has subscripts;
* `scans_agree`: both, and what follows for the equations of a text.
-/

namespace Modelica

open Token (headKind afterGroup afterParts afterReference continuesChain)

/-- A scan of what lies ahead of `r` ends where `r'` has come to, and so it counts what was read. -/
def Reading.Foresees (scan : List Token → Option (List Token)) (r r' : Reading) : Prop :=
  ∃ ts, r.ahead = ts ++ r'.ahead ∧ ts.length + r.index = r'.index ∧ scan r.ahead = some r'.ahead

theorem Reading.Leads.foresees {r r' : Reading} (h : r.Leads r')
    {scan : List Token → Option (List Token)} (hs : scan r.ahead = some r'.ahead) :
    r.Foresees scan r' := by
  obtain ⟨⟨ts, ha⟩, hl⟩ := h
  have hlength := congrArg List.length ha
  rw [List.length_append] at hlength
  exact ⟨ts, ha.symm, by omega, hs⟩

/-- The bracket that a rule starts with. -/
def Nonterminal.opener? : Nonterminal → Option Kind
  | callArguments | parenthesized | classModification => some .lParen
  | arraySubscripts | arrayConcatenation => some .lBracket
  | arrayConstructor => some .lBrace
  | _ => none

section

variable {env : Surroundings} {r r' : Reading} {rule : Nonterminal} {o : Kind}

theorem Nonterminal.expects_of_opener (ho : rule.opener? = some o) {ts : List Token}
    (hk : headKind ts = o) : rule.Expects ts := by
  cases rule <;> cases ho
  case callArguments => trivial
  all_goals exact hk

theorem afterGroup_of_opener (ho : rule.opener? = some o) {ends : Kind → Prop} {n : Nat}
    {ts rest : List Token} {us : List Tree} {k : Kind} (h : Derives ends (.rule rule) n ts us k) :
    afterGroup 0 (ts ++ rest) = some rest := by
  have hr := derives_rule.mp h
  cases rule <;> cases ho
  case callArguments => exact afterGroup_of_brackets rfl rfl rfl rfl hr
  all_goals
    cases hr with
    | node hr => exact afterGroup_of_brackets rfl rfl rfl rfl hr

/-- Counting brackets finds where a rule in brackets has come to. -/
theorem Runs.foresees_group (h : Runs noError (.of (.call rule)) env r r')
    (ho : rule.opener? = some o) (hk : headKind r.ahead = o) : r.Foresees (afterGroup 0) r' := by
  obtain ⟨ts, us, ha, -, hd⟩ := h.spells (rule.expects_of_opener ho hk)
  apply h.leads.foresees
  rw [ha]
  exact afterGroup_of_opener ho hd

end

/-! ## References -/

namespace Token

/-- What follows the subscripts at the front, if there are any. -/
def afterSubscripts (ts : List Token) : Option (List Token) :=
  if headKind ts = .lBracket then afterGroup 0 ts else some ts

/-- What follows the further parts of a reference, each after a point. -/
def afterLinks (fuel : Nat) (ts : List Token) : Option (List Token) :=
  if continuesChain ts then afterParts fuel (ts.drop 2) else some ts

variable {ts : List Token}

theorem afterParts_eq (fuel : Nat) :
    afterParts (fuel + 1) ts = (afterSubscripts ts).bind (afterLinks fuel) := by
  simp only [afterParts, afterSubscripts]
  split <;> rfl

theorem exists_of_continuesChain (h : continuesChain ts = true) :
    ∃ p t vs, ts = p :: t :: vs ∧ p.kind = .dot ∧ t.kind = .ident := by
  match ts with
  | [] | [_] => simp [continuesChain, kindAt, headKind] at h
  | p :: t :: vs => exact ⟨p, t, vs, rfl, by simpa [continuesChain, kindAt, headKind] using h⟩

theorem chainHasSubscripts_of_stop (h : continuesChain ts = false) (hk : headKind ts ≠ .lBracket) :
    chainHasSubscripts ts = false := by
  match ts with
  | [] => rfl
  | [t] => simpa [chainHasSubscripts, headKind] using hk
  | p :: t :: vs =>
    have hp : (p.kind == .lBracket) = false := by simpa [headKind] using hk
    have hc : (p.kind == .dot && t.kind == .ident) = false := h
    simp [chainHasSubscripts, hp, hc]

theorem afterLinks_cons {p t : Token} {ts : List Token} (hp : p.kind = .dot) (ht : t.kind = .ident)
    (fuel : Nat) :
    afterLinks (fuel + 1) (p :: t :: ts) = (afterSubscripts ts).bind (afterLinks fuel) := by
  rw [afterLinks, if_pos (by simp [continuesChain, kindAt, headKind, hp, ht])]
  exact afterParts_eq fuel

/-- A chain has subscripts at the part where it stands or behind it. -/
theorem chainHasSubscripts_iff {ts rest : List Token} {later : Prop}
    (hs : afterSubscripts ts = some rest)
    (hl : headKind rest ≠ .lBracket → (chainHasSubscripts rest = true ↔ later)) :
    chainHasSubscripts ts = true ↔ headKind ts = .lBracket ∨ later := by
  by_cases hk : headKind ts = .lBracket
  · simp [hk, Grammar.chainHasSubscripts_of_headKind hk]
  · rw [afterSubscripts, if_neg hk, Option.some.injEq] at hs
    subst hs
    rw [hl hk, or_iff_right hk]

end Token

/-- A part of a reference that has subscripts. -/
def Tree.HasSubscripts : Tree → Prop
  | leaf _ => False
  | node k cs => k = .componentReferencePart ∧ ∃ c ∈ cs, c.kind = .arraySubscripts

namespace Runs

open Token

variable {env : Surroundings} {r r' : Reading}

/-- Where a token is expected and nothing is wrong, the token is read. -/
theorem expected {k : Kind} (hk : k ≠ .endOfInput) (h : Runs noError (.of (.expect k)) env r r') :
    ∃ t ts, r.ahead = t :: ts ∧ t.kind = k ∧ r'.ahead = ts ∧ r'.built = .leaf t :: r.built := by
  have h' := runs_look.mp h
  by_cases hs : (r.look env).sees k = true
  · rw [if_pos hs] at h'
    obtain ⟨t, ts, ha, ht⟩ := exists_cons_of_headKind (Reading.sees_look.mp hs) hk
    refine ⟨t, ts, ha, ht, ?_⟩
    rw [runs_shift.mp h', Reading.shift_cons ha]
    exact ⟨rfl, rfl⟩
  · rw [if_neg hs] at h'
    obtain ⟨hf, -⟩ := runs_report.mp (runs_look.mp h')
    cases hf

/-- A token that may come is read where it comes. -/
theorem accepted {allowed : Diagnostic Spot → Prop} {k : Kind} (hk : k ≠ .endOfInput)
    (h : Runs allowed (.of (.accept k)) env r r') :
    r'.ahead = (if headKind r.ahead = k then r.ahead.drop 1 else r.ahead) ∧
      ∃ ts : List Token, r'.built = ts.map .leaf ++ r.built := by
  have h' := runs_look.mp h
  by_cases hs : headKind r.ahead = k
  · rw [if_pos (Reading.sees_look.mpr hs)] at h'
    obtain ⟨t, ts, ha, -⟩ := exists_cons_of_headKind hs hk
    rw [if_pos hs, runs_shift.mp h', Reading.shift_cons ha, ha]
    exact ⟨rfl, [t], rfl⟩
  · rw [if_neg (mt Reading.sees_look.mp hs)] at h'
    rw [if_neg hs, runs_done.mp h']
    exact ⟨rfl, [], rfl⟩

/-- One part of a reference: an identifier, and subscripts where their bracket comes. -/
theorem part (h : Runs noError (.of (.call .componentReferencePart)) env r r') :
    ∃ t ts u, r.ahead = t :: ts ∧ t.kind = .ident ∧ afterSubscripts ts = some r'.ahead ∧
      r'.built = u :: r.built ∧ (u.HasSubscripts ↔ headKind ts = .lBracket) := by
  obtain ⟨m, hm, rfl⟩ := runs_node.mp (runs_call.mp h)
  obtain ⟨w, hident, hsubscripts⟩ := runs_seq_cons.mp hm
  obtain ⟨t, ts, ha, ht, rfl, hb⟩ := expected (by decide : Kind.ident ≠ .endOfInput) hident
  have hbefore := runs_look.mp hsubscripts
  refine ⟨t, w.ahead, _, ha, ht, ?_, rfl, ?_⟩
  all_goals by_cases hk : headKind w.ahead = .lBracket
  · rw [if_pos (Reading.sees_look.mpr hk)] at hbefore
    obtain ⟨-, -, -, hscan⟩ := hbefore.foresees_group rfl hk
    simp only [afterSubscripts, if_pos hk, hscan]
  · rw [if_neg (mt Reading.sees_look.mp hk)] at hbefore
    obtain rfl := runs_done.mp hbefore
    simp only [afterSubscripts, if_neg hk]
  · rw [if_pos (Reading.sees_look.mpr hk)] at hbefore
    obtain ⟨n, -, rfl⟩ := runs_node.mp (runs_call.mp hbefore)
    simp [Tree.HasSubscripts, hk, Tree.kind]
  · rw [if_neg (mt Reading.sees_look.mp hk)] at hbefore
    obtain rfl := runs_done.mp hbefore
    have ht' : t.kind ≠ .arraySubscripts := by rw [ht]; decide
    simp [Tree.HasSubscripts, hk, hb, Tree.kind, ht']

/-- The further parts of a reference: the scans come past each of them, and subscripts are seen at
the first part that has them. -/
theorem links {before : Option Lookahead} (h : Runs noError (.rest Lookahead.continuesChain
      (fun _ => .seq [.shift, .call .componentReferencePart]) before) env r r') :
    (∀ fuel, r.ahead.length ≤ fuel + 1 → afterLinks fuel r.ahead = some r'.ahead) ∧
      ∃ us, r'.built = us ++ r.built ∧ (headKind r.ahead ≠ .lBracket →
        (chainHasSubscripts r.ahead = true ↔ ∃ u ∈ us, u.HasSubscripts)) := by
  generalize htask : Task.rest Lookahead.continuesChain
    (fun _ => .seq [.shift, .call .componentReferencePart]) before = task at h
  induction h generalizing before with
  | @stop _ _ _ _ r hc =>
    cases htask
    refine ⟨fun fuel _ => if_neg (Bool.eq_false_iff.mp hc), [], rfl, fun hk => ?_⟩
    have hno : chainHasSubscripts r.ahead = false := chainHasSubscripts_of_stop hc hk
    simp [hno]
  | @turn _ _ _ _ r m r' hc hitem _ _ ih =>
    cases htask
    obtain ⟨hscan, us, hb, hchain⟩ := ih rfl
    have hc' : continuesChain r.ahead = true := hc
    obtain ⟨p, t, ts, ha, hp, -⟩ := exists_of_continuesChain hc'
    obtain ⟨_, hshift, hpart⟩ := runs_seq_cons.mp hitem
    rw [runs_shift.mp hshift, Reading.shift_cons ha] at hpart
    have hlength := hpart.leads.length_le
    obtain ⟨_, _, u, he, ht, hsubscripts, hb', hu⟩ := part hpart
    cases he
    simp only [List.length_cons] at hlength
    constructor
    · intro fuel hfuel
      simp only [ha, List.length_cons] at hfuel ⊢
      obtain ⟨fuel, rfl⟩ : ∃ f, fuel = f + 1 := ⟨fuel - 1, by omega⟩
      rw [afterLinks_cons hp ht, hsubscripts, Option.bind_some]
      exact hscan fuel (by omega)
    · refine ⟨us ++ [u, .leaf p], by simp [hb, hb'], fun _ => ?_⟩
      rw [ha, Grammar.chainHasSubscripts_cons hp ht, chainHasSubscripts_iff hsubscripts hchain,
        ← hu]
      simp [Tree.HasSubscripts, or_and_right, exists_or, or_comm]
  | _ => cases htask

/-- A reference: where it ends and whether it has subscripts is seen from its start. -/
theorem reference (h : Runs noError (.of (.call .componentReference)) env r r') :
    r.Foresees afterReference r' ∧ ∃ cs, r'.built = .node .componentReference cs :: r.built ∧
      ((r.look env).chainHasSubscripts = true ↔ ∃ u ∈ cs, u.HasSubscripts) := by
  obtain ⟨m, hm, rfl⟩ := runs_node.mp (runs_call.mp h)
  obtain ⟨w, hpoint, hm⟩ := runs_seq_cons.mp hm
  obtain ⟨x, hpart, hlinks⟩ := runs_seq_cons.mp hm
  obtain ⟨hw, points, hb⟩ := accepted (by decide) hpoint
  replace hw : (if headKind r.ahead = .dot then r.ahead.drop 1 else r.ahead) = w.ahead := hw.symm
  obtain ⟨t, ts, u, ha, ht, hsubscripts, hb', hu⟩ := part hpart
  obtain ⟨hscan, us, hb'', hchain⟩ := links (runs_many.mp hlinks)
  have hident : headKind (t :: ts) = .ident := ht
  refine ⟨h.leads.foresees ?_, m.built.reverse, rfl, ?_⟩
  · have hlength := hpart.leads.length_le
    rw [ha, List.length_cons] at hlength
    simp only [afterReference, hw, ha, if_pos hident, List.length_cons, List.drop_succ_cons,
      List.drop_zero]
    rw [afterParts_eq, hsubscripts, Option.bind_some]
    exact hscan _ hlength
  · have hlook : (r.look env).chainHasSubscripts = chainHasSubscripts ts := by
      simp only [Lookahead.chainHasSubscripts, Reading.sees_look]
      simp only [Reading.look, hw, hident, ha, List.drop_succ_cons, List.drop_zero,
        beq_self_eq_true, Bool.true_and]
    rw [hlook, chainHasSubscripts_iff hsubscripts hchain, ← hu, hb'', hb', hb]
    simp [Tree.HasSubscripts, or_and_right, exists_or, or_comm]

end Runs

/-! ## Equations -/

/-- What the scans say of an equation: it is a call if it is read by the rule for calls. -/
theorem atCallEquation_iff {rule : Nonterminal} (hr : rule ∈ Nonterminal.equations)
    {ends : Kind → Prop} {n : Nat} {ts rest : List Token} {us : List Tree} {k : Kind}
    (h : Derives ends (.rule rule) n ts us k) {v : Lookahead} (ha : v.ahead = ts ++ rest) :
    v.atCallEquation = true ↔ rule = .specialEquation := by
  have hkeyword : (!(Form.rule rule).nullable &&
      ((Form.rule rule).first true).all fun k => k != .ident && k != .dot) = true →
      v.atCallEquation = false := by
    intro hfirst
    obtain ⟨t, ts, rfl⟩ := List.exists_cons_of_ne_nil (h.ne_nil (by simp_all))
    have hstart : headKind (t :: ts) ∉ [.ident, .dot] := not_reference_of_first h hfirst
    have hk : headKind v.ahead ∉ [.ident, .dot] := ha ▸ hstart
    simp only [Lookahead.atCallEquation, afterReference_eq_none hk]
  simp only [Nonterminal.equations, List.mem_cons, List.not_mem_nil, or_false] at hr
  rcases hr with rfl | rfl | rfl | rfl | rfl | rfl
  · simp [atCallEquation_of_simple h ha]
  · simp [hkeyword (by decide)]
  · simp [hkeyword (by decide)]
  · simp [hkeyword (by decide)]
  · simp [hkeyword (by decide)]
  · simp [atCallEquation_of_special h ha]

/-- An equation is taken for a call exactly if its tokens are those of a call. -/
theorem callEquation_iff {ends : Kind → Prop} {n : Nat} {ts rest : List Token} {us : List Tree}
    {k : Kind} (h : Derives ends (.rule .equation) n ts us k) {v : Lookahead}
    (ha : v.ahead = ts ++ rest) :
    (v.atCallEquation = true ↔ Token.CallEquation ends v.ahead) ∧
      (v.atCallEquation = true ↔ us.map Tree.kind = [.specialEquation]) := by
  obtain ⟨m, rfl, r, hr, h⟩ := derives_equation.mp h
  have hscan := atCallEquation_iff hr h ha
  constructor
  · constructor
    · intro hv
      obtain rfl := hscan.mp hv
      exact ha ▸ callEquation_of_special h rest
    · exact atCallEquation_of_callEquation
  · rw [hscan]
    have hd := derives_rule.mp h
    simp only [Nonterminal.equations, List.mem_cons, List.not_mem_nil, or_false] at hr
    rcases hr with rfl | rfl | rfl | rfl | rfl | rfl <;>
      cases hd with
      | node _ => simp [Tree.kind, Family.ifKind, Family.forKind, Family.whenKind]

namespace Token

/-- The significant tokens of a text that start at an offset or later. -/
def aheadFrom (text : String) (offset : Nat) : List Token :=
  ((landmarks text).filter (offset ≤ ·.span.start)).map (·.toToken)

theorem aheadFrom_eq {text : String} {before after : List Token}
    (h : tokenize text = before ++ after) :
    aheadFrom text (Modelica.width (concat before).toList) = significant after := by
  obtain ⟨front, back, hsplit, -, hback, hlt, hle⟩ := landmarks_append h
  have hfront : front.filter (Modelica.width (concat before).toList ≤ ·.span.start) = [] :=
    List.filter_eq_nil_iff.mpr fun t ht => by simpa using hlt t ht
  have hall : back.filter (Modelica.width (concat before).toList ≤ ·.span.start) = back :=
    List.filter_eq_self.mpr fun t ht => by simpa using hle t ht
  rw [aheadFrom, hsplit, List.filter_append, hfront, hall, List.nil_append, hback]

end Token

/-- An equation in the tree of a text without errors is derived from what stands there. -/
theorem Parse.exists_equation {limit : Nat} {text : String}
    (hok : (ofProduction (.call .storedDefinition) limit text).ok = true) {n : Located}
    (hn : n ∈ (Located.root (ofProduction (.call .storedDefinition) limit text).tree).nodes)
    (hk : n.kind.isA .equation = true) :
    ∃ m ts rest k, Token.aheadFrom text n.start = ts ++ rest ∧
      Derives endGuarded (.rule .equation) m ts [n.tree.strip] k := by
  obtain ⟨hmem, hnode⟩ := List.mem_filter.mp hn
  have hd := derives_of_ok hok
  have htext := (covers_storedDefinition limit text).leaves
  generalize (ofProduction (.call .storedDefinition) limit text).tree = t at *
  obtain ⟨before, after, hslice, hstart, -⟩ := Located.exists_slice 0 t n hmem
  have hleaf : n.tree.isLeaf = false := by simpa [Located.isNode] using hnode
  have herror : n.tree.kind ≠ .error := by
    intro he
    rw [Located.kind, he] at hk
    exact absurd hk (by decide)
  have hwithin := (Located.within_of_mem_preorder 0 t n hmem).strip hleaf herror
  rw [Located.kind, ← Tree.kind_strip] at hk
  obtain ⟨m, k, hequation⟩ := hd.exists_equation rfl _ List.mem_cons_self _ hwithin hk
  have hleaves : n.tree.strip.leaves = Token.significant n.tree.leaves := by
    have hsignificant : ∀ u ∈ n.tree.strip.leaves, u.isSignificant = true := by
      intro u hu
      have hu' : u ∈ Token.significant (tokenize text) := by
        rw [← hd.leaves, Tree.leavesOf_cons, Tree.leavesOf_nil, List.append_nil]
        exact hwithin.leaves_subset hu
      exact (List.mem_filter.mp hu').2
    calc n.tree.strip.leaves
        = Token.significant n.tree.strip.leaves := (List.filter_eq_self.mpr hsignificant).symm
      _ = Token.significant n.tree.leaves := Tree.significant_leaves_strip n.tree
  refine ⟨m, _, Token.significant after, k, ?_, hequation⟩
  rw [htext, List.append_assoc] at hslice
  rw [hstart, Nat.zero_add, Token.aheadFrom_eq hslice, Token.significant_append, hleaves]

/-- **The scans agree with the rules.** Where a rule reads without meeting an error (also one that
is not kept, as another stands at its place), at any place of any text:

* the scan of a reference ends where reading it ends, and subscripts are seen in the chain exactly
  if a part of the reference has some;
* the scan of a bracketed group ends where reading the group ends;
* an equation is taken for a call exactly if it starts with a reference and one list of arguments,
  and then a description, an annotation or the `;` comes.

In a text without errors this holds for each equation of the tree, from what stands where it starts,
and the calls are those with a node for calls. -/
theorem scans_agree :
    (∀ (env : Surroundings) (r r' : Reading),
      Runs noError (.of (.call .componentReference)) env r r' →
        r.Foresees afterReference r' ∧ ∃ cs, r'.built = .node .componentReference cs :: r.built ∧
          ((r.look env).chainHasSubscripts = true ↔ ∃ u ∈ cs, u.HasSubscripts)) ∧
    (∀ (rule : Nonterminal) (opener : Kind) (env : Surroundings) (r r' : Reading),
      rule.opener? = some opener → headKind r.ahead = opener →
        Runs noError (.of (.call rule)) env r r' → r.Foresees (afterGroup 0) r') ∧
    (∀ (env : Surroundings) (r r' : Reading), Runs noError (.of (.call .equation)) env r r' →
      ((r.look env).atCallEquation = true ↔ Token.CallEquation endGuarded r.ahead)) ∧
    ∀ (options : ParseOptions) (text : String) (p : Parse), parseWith options text = .ok p →
      p.ok = true → ∀ n ∈ (Located.root p.tree).nodes, n.kind.isA .equation = true →
        ∀ v : Lookahead, v.ahead = Token.aheadFrom text n.start →
          (v.atCallEquation = true ↔ Token.CallEquation endGuarded v.ahead) ∧
            (v.atCallEquation = true ↔ n.kind = .specialEquation) := by
  refine ⟨fun env r r' h => h.reference, fun rule opener env r r' ho hk h => h.foresees_group ho hk,
    fun env r r' h => ?_, fun options text p hp hok n hn hk v hv => ?_⟩
  · obtain ⟨ts, us, ha, -, hd⟩ := h.spells trivial
    have hlook : (r.look env).ahead = ts ++ r'.ahead := ha
    rw [(callEquation_iff hd hlook).1]
    rfl
  · unfold parseWith at hp
    split at hp
    · cases hp
    · cases hp
      obtain ⟨m, ts, rest, k, ha, hd⟩ := Parse.exists_equation hok hn hk
      obtain ⟨hcall, hnode⟩ := callEquation_iff hd (hv.trans ha)
      refine ⟨hcall, ?_⟩
      rw [hnode, List.map_singleton, Tree.kind_strip, List.singleton_inj]
      rfl

/-- A reference with subscripts, its subscripts and an equation that is a call, where the scans have
come to the same. -/
theorem scans_agree_call :
    (∃ r, Runs noError (.of (.call .componentReference)) ⟨.topLevel, [], 0, 8⟩
        (.start (Token.significant (tokenize "a[f(x, 1)].b = 2"))) r ∧
      (Reading.start (Token.significant (tokenize "a[f(x, 1)].b = 2"))).Foresees
        afterReference r ∧
      ∃ cs, r.built = [.node .componentReference cs] ∧ ∃ u ∈ cs, u.HasSubscripts) ∧
    (∃ r, Runs noError (.of (.call .arraySubscripts)) ⟨.topLevel, [], 0, 8⟩
        (.start (Token.significant (tokenize "[f(x, 1)].b = 2"))) r ∧
      (Reading.start (Token.significant (tokenize "[f(x, 1)].b = 2"))).Foresees
        (afterGroup 0) r) ∧
    (∃ r, Runs noError (.of (.call .equation)) ⟨.topLevel, [], 0, 8⟩
        (.start (Token.significant (tokenize "f(x[1]);"))) r) ∧
    Token.CallEquation endGuarded (Token.significant (tokenize "f(x[1]);")) ∧
    (parse "model M equation f(x[1]); end M;").ok = true ∧
      ∃ n ∈ (Located.root (parse "model M equation f(x[1]); end M;").tree).nodes,
        n.kind = .specialEquation ∧ Token.CallEquation endGuarded
          (Token.aheadFrom "model M equation f(x[1]); end M;" n.start) := by
  obtain ⟨hreference, hgroup, hequation, htext⟩ := scans_agree
  refine ⟨?reference, ?group, ?equation⟩
  case reference =>
    have hrun : Runs noError (.of (.call .componentReference)) ⟨.topLevel, [], 0, 8⟩
        (.start (Token.significant (tokenize "a[f(x, 1)].b = 2"))) _ :=
      Production.runs_of_clean (.call .componentReference) trivial (by decide +kernel)
    obtain ⟨hscan, cs, hb, hchain⟩ := hreference _ _ _ hrun
    exact ⟨_, hrun, hscan, cs, hb, hchain.mp (by decide +kernel)⟩
  case group =>
    have hrun : Runs noError (.of (.call .arraySubscripts)) ⟨.topLevel, [], 0, 8⟩
        (.start (Token.significant (tokenize "[f(x, 1)].b = 2"))) _ :=
      Production.runs_of_clean (.call .arraySubscripts) trivial (by decide +kernel)
    exact ⟨_, hrun, hgroup _ .lBracket _ _ _ rfl (by decide +kernel) hrun⟩
  case equation =>
    have hrun : Runs noError (.of (.call .equation)) ⟨.topLevel, [], 0, 8⟩
        (.start (Token.significant (tokenize "f(x[1]);"))) _ :=
      Production.runs_of_clean (.call .equation) trivial (by decide +kernel)
    have htest : ((Reading.start (Token.significant (tokenize "f(x[1]);"))).look
        ⟨.topLevel, [], 0, 8⟩).atCallEquation = true := by
      decide +kernel
    have hcall := (hequation _ _ _ hrun).mp htest
    refine ⟨⟨_, hrun⟩, ?_, ?_⟩
    · generalize Token.significant (tokenize "f(x[1]);") = ts at *
      exact hcall
    have hok : (parse "model M equation f(x[1]); end M;").ok = true := by decide +kernel
    have hnodes : ∃ n ∈ (Located.root (parse "model M equation f(x[1]); end M;").tree).nodes,
        n.kind = .specialEquation := by
      decide +kernel
    generalize "model M equation f(x[1]); end M;" = text at *
    obtain ⟨n, hn, hk⟩ := hnodes
    have hn' : n.kind.isA .equation = true := by
      rw [hk]
      decide
    obtain ⟨hscan, hnode⟩ := htext .standard text _ rfl hok n hn hn'
      ⟨Token.aheadFrom text n.start, 0, .topLevel, []⟩ rfl
    exact ⟨hok, n, hn, hk, hscan.mp (hnode.mpr hk)⟩

end Modelica
