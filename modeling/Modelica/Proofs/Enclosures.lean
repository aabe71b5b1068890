import Modelica.Proofs.BlockEnds
import Modelica.Proofs.Ends
import Modelica.Proofs.Operators
import Modelica.Proofs.TwinRules

/-!
# Reading a rule where it stands

What a rule has read from a text of its own it reads where the text stands in a larger one
(`Runs.takes_in_setting`). Around it the larger text is read piece by piece: the lemmas
`takes_storedDefinition`, `takes_class`, `takes_section`, `takes_elements` and `takes_equation` read
what encloses a class, the body of a class, an equation or a statement, an element and an
expression.
-/

namespace Modelica

open Token (headKind)

/-- What was built or reported before does not matter to a run, but for what it takes along. -/
theorem Runs.frame {allowed : Diagnostic Spot → Prop} {task : Task} {env : Surroundings}
    {r r' q : Reading} {outer : List Tree} (h : Runs allowed task env r r')
    (ht : outer = [] ∨ task.Sheltered false) (ha : q.ahead = r.ahead) (hi : q.index = r.index)
    (hb : q.built = r.built ++ outer) :
    ∃ q', Runs allowed task env q q' ∧ q'.ahead = r'.ahead ∧ q'.index = r'.index ∧
      q'.built = r'.built ++ outer := by
  have hlook : ∀ {env : Surroundings} {r q : Reading}, q.ahead = r.ahead → q.index = r.index →
      q.look env = r.look env := fun ha hi => by rw [Reading.look, Reading.look, ha, hi]
  induction h generalizing q outer with
  | done => exact ⟨q, .done, ha, hi, hb⟩
  | andThen _ _ ihp ihq =>
    obtain ⟨m, hm, ha, hi, hb⟩ := ihp (ht.imp_right And.left) ha hi hb
    obtain ⟨q', hq, ha, hi, hb⟩ := ihq (ht.imp_right And.right) ha hi hb
    exact ⟨q', .andThen hm hq, ha, hi, hb⟩
  | @shift env r =>
    refine ⟨q.shift, .shift, ?_⟩
    cases hr : r.ahead with
    | nil => rw [Reading.shift_nil (ha.trans hr), Reading.shift_nil hr]; exact ⟨ha, hi, hb⟩
    | cons t ts => simp [Reading.shift_cons hr, Reading.shift_cons (ha.trans hr), hi, hb]
  | group _ ih =>
    obtain ⟨q', hq, ha, hi, hb'⟩ := ih (q := { q with built := [] }) (.inl rfl) ha hi rfl
    exact ⟨_, .group hq, ha, hi, by simp [hb, hb']⟩
  | wrap _ ih =>
    -- in the open, where `outer` stands, nothing is wrapped
    obtain rfl := ht.resolve_right fun hs => absurd hs.1 Bool.false_ne_true
    obtain ⟨q', hq, ha, hi, hb⟩ := ih (.inl rfl) ha hi hb
    exact ⟨_, .wrap hq, ha, hi, by simpa [Reading.wrap] using hb⟩
  | look _ ih =>
    obtain ⟨q', hq, h⟩ := ih (ht.imp_right fun hs => hs _) ha hi hb
    exact ⟨q', .look (by rwa [hlook ha hi]), h⟩
  | many _ ih =>
    obtain ⟨q', hq, h⟩ := ih ht ha hi hb
    exact ⟨q', .many hq, h⟩
  | stop hc => exact ⟨q, .stop (by rwa [hlook ha hi]), ha, hi, hb⟩
  | @turn continues item before env r m r' hc _ _ ihi ihr =>
    have hv : q.look env = r.look env := hlook ha hi
    obtain ⟨m, hm, ha, hi, hb⟩ := ihi (ht.imp_right fun hs => hs _) ha hi hb
    obtain ⟨q', hq, h⟩ := ihr ht ha hi hb
    exact ⟨q', .turn (by rwa [hv]) hm (by rwa [hv]), h⟩
  | @call rule _ _ _ _ ih =>
    obtain ⟨q', hq, h⟩ := ih (.inr rule.production_sheltered) ha hi hb
    exact ⟨q', .call hq, h⟩
  | report hf => exact ⟨_, .report hf, by simp [ha], by simp [hi], by simp [hb]⟩
  | inContext _ ih =>
    obtain ⟨q', hq, h⟩ := ih ht ha hi hb
    exact ⟨q', .inContext hq, h⟩
  | opening _ ih =>
    obtain ⟨q', hq, h⟩ := ih ht ha hi hb
    exact ⟨q', .opening hq, h⟩
  | within hd _ ih =>
    obtain ⟨q', hq, h⟩ := ih (ht.imp_right And.left) ha hi hb
    exact ⟨q', .within hd hq, h⟩
  | beyond hd _ ih =>
    obtain ⟨q', hq, h⟩ := ih (ht.imp_right And.right) ha hi hb
    exact ⟨q', .beyond hd hq, h⟩

/-- What a rule reads from a text of its own it reads in the larger text, with the same trees. -/
theorem Runs.takes_in_setting {rule : Nonterminal} {env env' : Surroundings} {ts after : List Token}
    {r' q : Reading} (h : Runs noError (.of (.call rule)) env (.start ts) r') (hr : r'.ahead = [])
    (hmay : rule.mayEnd (headKind after == .semicolon) = true)
    (hb : Token.EndsItem ts ∨ headKind after = .semicolon) (henv : env.Within env')
    (hq : q.ahead = ts ++ after) :
    (Production.call rule).Takes true env' q r'.built.reverse after := by
  let s : Setting := ⟨q.index, after⟩
  have hsets : s.Sets (.start ts) ⟨ts ++ after, q.index, [], []⟩ :=
    ⟨rfl, (Nat.zero_add _).symm, rfl, rfl⟩
  have htwin : (Production.call rule).Twin s true 0 (.call rule) :=
    Production.twin_call.mpr fun _ => hmay
  obtain ⟨m, hm, hm'⟩ := h.in_setting htwin (fun _ => hb) (.inr rfl) hsets henv
  have hbuilt : q.built = [] ++ q.built := rfl
  obtain ⟨q', hq', ha, -, hbuilt⟩ := hm.frame (.inr True.intro) hq rfl hbuilt
  refine ⟨q', hq', by rw [ha, hm'.ahead, hr]; rfl, fun _ => ?_⟩
  rw [hbuilt, hm'.built, List.reverse_reverse]

namespace Production

variable {p q : Production} {ps : List Production} {env : Surroundings} {r : Reading}
variable {us vs : List Tree} {mid rest : List Token} {k : Kind} {t : Token}

theorem takes_seq_cons (hp : p.Takes true env r us mid)
    (hq : ∀ m : Reading, m.ahead = mid → (seq ps).Takes true env m vs rest) :
    (seq (p :: ps)).Takes true env r (us ++ vs) rest := by
  obtain ⟨m, hrun, ha, hb⟩ := hp
  obtain ⟨r', hrun', ha', hb'⟩ := hq m ha
  refine ⟨r', runs_seq_cons.mpr ⟨m, hrun, hrun'⟩, ha', fun hi => ?_⟩
  rw [hb' hi, hb hi]
  simp

/-- First a part that takes nothing. -/
theorem takes_skip (hp : p.Takes true env r [] mid)
    (hq : ∀ m : Reading, m.ahead = mid → (seq ps).Takes true env m vs rest) :
    (seq (p :: ps)).Takes true env r vs rest :=
  takes_seq_cons hp hq

/-- First a part with one tree. -/
theorem takes_cons {u : Tree} (hp : p.Takes true env r [u] mid)
    (hq : ∀ m : Reading, m.ahead = mid → (seq ps).Takes true env m vs rest) :
    (seq (p :: ps)).Takes true env r (u :: vs) rest :=
  takes_seq_cons hp hq

theorem takes_before (h : r.ahead = rest) (hk : headKind rest ≠ k) :
    (before k p).Takes true env r [] rest := by
  refine takes_look ?_
  rw [if_neg (mt Reading.sees_look.mp (by rwa [h]))]
  exact takes_done h

theorem takes_accept (h : r.ahead = rest) (hk : headKind rest ≠ k) :
    (accept k).Takes true env r [] rest :=
  takes_before h hk

theorem takes_expect (h : r.ahead = t :: rest) (hk : t.kind = k) :
    (expect k).Takes true env r [.leaf t] rest := by
  refine takes_look ?_
  rw [if_pos (Reading.sees_look.mpr (by rw [h]; exact hk))]
  exact takes_shift h

theorem takes_inContext {context : Context} (h : p.Takes true { env with context } r us rest) :
    (inContext context p).Takes true env r us rest := by
  obtain ⟨r', hrun, ha, hb⟩ := h
  exact ⟨r', .inContext hrun, ha, hb⟩

theorem takes_nested (hd : env.depth + 1 ≤ env.limit)
    (h : p.Takes true { env with depth := env.depth + 1 } r us rest) :
    (nested p q).Takes true env r us rest := by
  obtain ⟨r', hrun, ha, hb⟩ := h
  exact ⟨r', .within hd hrun, ha, hb⟩

/-- A repetition that ends after its first turn. -/
theorem takes_once {continues : Lookahead → Bool} {item : Option Lookahead → Production}
    (hc : continues (r.look env) = true) (h : (item none).Takes true env r us rest)
    (hstop : ∀ index, continues ⟨rest, index, env.context, env.constructs⟩ = false) :
    (many continues item).Takes true env r us rest := by
  obtain ⟨r', hrun, ha, hb⟩ := h
  refine ⟨r', .many (.turn hc hrun (.stop ?_)), ha, hb⟩
  rw [Reading.look, ha]
  exact hstop _

/-- One item up to where the list ends. -/
theorem takes_item {stop : Lookahead → Bool} (hr : (r.look env).atEnd = false)
    (hs : stop (r.look env) = false) (h : p.Takes true env r us rest)
    (hread : rest.length < r.ahead.length)
    (hstop : ∀ index, stop ⟨rest, index, env.context, env.constructs⟩ = true) :
    (repeatUntil stop p).Takes true env r us rest := by
  refine takes_once (by simp [hr, hs]) (takes_look ?_) fun index => by simp [hstop index]
  obtain ⟨r', hrun, ha, hb⟩ := h
  refine ⟨r', .andThen hrun (.look ?_), ha, hb⟩
  have hindex : r'.index ≠ r.index := fun he => by
    have hlength := hrun.leads.2
    rw [ha, he] at hlength
    omega
  rw [if_neg fun hc => hindex hc.1]
  exact .done

end Production

/-! ## A class on its own -/

namespace Grammar

open Production

theorem takes_storedDefinition {limit : Nat} {q : Reading} {c : Tree} {semi : Token}
    (hstart : headKind q.ahead ∈ Kind.classStart)
    (hclass : ∀ m : Reading, m.ahead = q.ahead →
      (call .classDefinition).Takes true ⟨.topLevel, [], 0, limit⟩ m [c] [semi])
    (hsemi : semi.kind = .semicolon) :
    (call .storedDefinition).Takes true ⟨.topLevel, [], 0, limit⟩ q
      [.node .storedDefinition [.node .classDefinitionClause [c, .leaf semi]]] [] := by
  have hne : ∀ k ∉ Kind.classStart, headKind q.ahead ≠ k := fun k hk he => hk (he ▸ hstart)
  refine takes_call (takes_node (takes_skip (takes_before rfl (hne .withinKw (by decide)))
    fun m hm => takes_once ?_ (takes_look ?_) fun index => rfl))
  · have hend := hne .endOfInput (by decide)
    simp [Reading.look, Lookahead.atEnd, Lookahead.sees, Lookahead.kind, hm, hend]
  · rw [if_pos ?_]
    · exact takes_call (takes_node (takes_skip (takes_accept hm (hne .finalKw (by decide)))
        fun m hm => takes_cons (hclass m hm) fun m hm => takes_expect hm hsemi))
    · have hk : (m.look ⟨.topLevel, [], 0, limit⟩).kind ∈ Kind.classStart := by
        rw [Lookahead.kind, Reading.look, hm]
        exact hstart
      have hat : (m.look ⟨.topLevel, [], 0, limit⟩).atClassDefinition = true := by
        simpa [Lookahead.atClassDefinition, Lookahead.sees, Lookahead.seesAny,
          Kind.classStart] using hk
      simp [hat]

/-- The tokens of a class with a name and a body. -/
def classTokens (keyword name : Token) (body : List Token) : List Token :=
  keyword :: name :: (body ++ [⟨.endKw, "end"⟩, name, ⟨.semicolon, ";"⟩])

/-- A class with a name and a body. -/
def classTree (keyword name : Token) (body : List Tree) : Tree :=
  .node .classDefinition [
    .node .classPrefixes [.leaf keyword],
    .node .longClassSpecifier (.leaf name :: (body ++ [.leaf ⟨.endKw, "end"⟩, .leaf name]))]

section

variable {limit : Nat} {keyword name : Token} {body : List Token} {us : List Tree}

theorem takes_classEnd {env : Surroundings} {r : Reading} {opened : Spot} {rest : List Token}
    (hname : name.kind = .ident) (ha : r.ahead = ⟨.endKw, "end"⟩ :: name :: rest) :
    (classEnd (some name.text) opened).Takes true env r
      [.leaf ⟨.endKw, "end"⟩, .leaf name] rest := by
  refine takes_look ?_
  rw [if_pos (Reading.sees_look.mpr (by rw [ha]; rfl))]
  refine takes_cons (takes_shift ha) fun m hm => takes_look ?_
  have htext : (m.look env).text = name.text := by simp [Lookahead.text, Reading.look, hm]
  rw [if_pos (Reading.sees_look.mpr (by rw [hm]; exact hname))]
  simp only [htext, if_true]
  exact takes_skip (takes_done hm) fun m hm => takes_shift hm

theorem takes_classPrefixes {env : Surroundings} {r : Reading} {rest : List Token}
    (hkeyword : keyword.kind = .modelKw ∨ keyword.kind = .functionKw)
    (ha : r.ahead = keyword :: rest) : (call .classPrefixes).Takes true env r
      [.node .classPrefixes [.leaf keyword]] rest := by
  have hpartial : keyword.kind ≠ .partialKw := by
    rcases hkeyword with hk | hk <;> rw [hk] <;> decide
  refine takes_call (takes_node (takes_skip (takes_accept ha hpartial) fun m hm => takes_look ?_))
  have hk : (m.look env).kind = keyword.kind := by
    rw [Lookahead.kind, Reading.look, hm]
    rfl
  rcases hkeyword with h | h <;> simp only [hk, h] <;> exact takes_shift hm

/-- A class from its name on, with no description. -/
theorem takes_longClassSpecifier {env : Surroundings} {r : Reading} {rest : List Token}
    (hname : name.kind = .ident)
    (hstart : headKind (body ++ ⟨.endKw, "end"⟩ :: name :: rest) ≠ .string)
    (hbody : ∀ m : Reading, m.ahead = body ++ ⟨.endKw, "end"⟩ :: name :: rest →
      (call .classBody).Takes true { env with context := .classBody } m us
        (⟨.endKw, "end"⟩ :: name :: rest))
    (ha : r.ahead = name :: (body ++ ⟨.endKw, "end"⟩ :: name :: rest)) :
    (call .longClassSpecifier).Takes true env r [.node .longClassSpecifier
      (.leaf name :: (us ++ [.leaf ⟨.endKw, "end"⟩, .leaf name]))] rest := by
  have hk : headKind (name :: (body ++ ⟨.endKw, "end"⟩ :: name :: rest)) = .ident := hname
  refine takes_call (takes_look (takes_node (takes_skip (takes_accept ha (by rw [hk]; decide))
    fun m hm => takes_look ?_)))
  have hsees : (m.look env).sees .ident = true := Reading.sees_look.mpr (by rw [hm]; exact hname)
  have hextends : (r.look env).sees .extendsKw = false := by
    simp [Lookahead.sees, Lookahead.kind, Reading.look, ha, hk]
  have htext : (m.look env).text = name.text := by simp [Lookahead.text, Reading.look, hm]
  simp only [hsees, hextends, htext, if_true]
  refine takes_cons (takes_expect hm hname) fun m hm => ?_
  refine takes_skip (takes_done hm) fun m hm => takes_skip (takes_before hm hstart) fun m hm => ?_
  refine takes_seq_cons (takes_inContext (hbody m hm)) fun m hm => ?_
  refine takes_skip (takes_before hm (by simp [headKind])) fun m hm =>
    takes_skip (takes_before hm (by simp [headKind])) fun m hm => ?_
  exact takes_classEnd hname hm

theorem takes_class (hl : 1 ≤ limit)
    (hkeyword : keyword.kind = .modelKw ∨ keyword.kind = .functionKw) (hname : name.kind = .ident)
    (hstart : headKind (body ++ [⟨.endKw, "end"⟩, name, ⟨.semicolon, ";"⟩]) ∉ [.equals, .string])
    (hbody : ∀ m : Reading, m.ahead = body ++ [⟨.endKw, "end"⟩, name, ⟨.semicolon, ";"⟩] →
      (call .classBody).Takes true ⟨.classBody, [], 1, limit⟩ m us
        [⟨.endKw, "end"⟩, name, ⟨.semicolon, ";"⟩])
    {q : Reading} (hq : q.ahead = classTokens keyword name body) :
    (call .classDefinition).Takes true ⟨.topLevel, [], 0, limit⟩ q [classTree keyword name us]
      [⟨.semicolon, ";"⟩] := by
  have hencapsulated : keyword.kind ≠ .encapsulatedKw := by
    rcases hkeyword with hk | hk <;> rw [hk] <;> decide
  simp only [List.mem_cons, List.not_mem_nil, or_false, not_or] at hstart
  refine takes_call (takes_nested hl (takes_node (takes_skip (takes_accept hq hencapsulated)
    fun m hm => ?_)))
  refine takes_cons (takes_inContext (takes_classPrefixes hkeyword hm)) fun m hm => takes_look ?_
  have hspecifier :
      (m.look ⟨.topLevel, [], 0 + 1, limit⟩).classSpecifierKind = .longClassSpecifier := by
    have hsecond : (m.look ⟨.topLevel, [], 0 + 1, limit⟩).nth 1 =
        headKind (body ++ [⟨.endKw, "end"⟩, name, ⟨.semicolon, ";"⟩]) := by
      simp only [Lookahead.nth, Token.kindAt, Reading.look, hm]
      rfl
    simp only [Lookahead.classSpecifierKind, hsecond, beq_eq_false_iff_ne.mpr hstart.1,
      Bool.and_false, Bool.false_eq_true, if_false]
  simp only [hspecifier]
  exact takes_longClassSpecifier hname hstart.2 hbody hm

end

/-! ## The body of a class -/

/-- The `end` of a class ends what stands before it. -/
theorem boundary_of_classEnd {v : Lookahead} {name : Token} {rest : List Token}
    (hname : name.kind = .ident) (ha : v.ahead = ⟨.endKw, "end"⟩ :: name :: rest) :
    v.atSectionBoundary = true ∧ v.atBlockEnd = false ∧ atClassSection v = false := by
  have hk : v.kind = .endKw := by rw [Lookahead.kind, ha]; rfl
  have hn : v.nth 1 = .ident := by rw [Lookahead.nth, ha]; exact hname
  have hb : v.atBlockEnd = false := by simp [Lookahead.atBlockEnd, hn]
  exact ⟨by simp [Lookahead.atSectionBoundary, hk], hb, by simp [atClassSection, hk, hb]⟩

/-- A token opens something that is neither the end of a section nor a clause. -/
def OpensItem (v : Lookahead) : Prop :=
  v.atEnd = false ∧ v.atSectionBoundary = false ∧ isClauseKeyword v.kind = false

/-- The keyword of a section. -/
def sectionKeyword : Family → Token
  | .equations => ⟨.equationKw, "equation"⟩
  | .statements => ⟨.algorithmKw, "algorithm"⟩

def sectionKind : Family → Kind
  | .equations => .equationSection
  | .statements => .algorithmSection

def sectionContext : Family → Context
  | .equations => .equationSection
  | .statements => .algorithmSection

section

variable {env : Surroundings} {name : Token} {ts rest : List Token} {us : List Tree}

theorem takes_sectionBody {family : Family} {r : Reading} (hname : name.kind = .ident)
    (hopens : ∀ v : Lookahead, v.ahead = r.ahead → OpensItem v)
    (hitem : (call (.item family)).Takes true env r us (⟨.endKw, "end"⟩ :: name :: rest))
    (hread : (⟨.endKw, "end"⟩ :: name :: rest).length < r.ahead.length) :
    (call (.sectionBody family)).Takes true env r us (⟨.endKw, "end"⟩ :: name :: rest) := by
  obtain ⟨hend, hboundary, hclause⟩ := hopens (r.look env) rfl
  refine takes_call (takes_item hend ?_ (takes_look ?_) hread fun index => ?_)
  · simp [Lookahead.bodyEnds, hboundary, hclause]
  · rw [if_neg (by simp [atBlockEnd_eq_false hboundary])]
    exact hitem
  · obtain ⟨hb, he, -⟩ := boundary_of_classEnd (v := ⟨⟨.endKw, "end"⟩ :: name :: rest, index,
      env.context, env.constructs⟩) hname rfl
    simp [Lookahead.bodyEnds, hb, he]

/-- A class whose body is one section with one item. -/
theorem takes_section {family : Family} {r : Reading} (hname : name.kind = .ident)
    (hopens : ∀ v : Lookahead, v.ahead = ts ++ ⟨.endKw, "end"⟩ :: name :: rest → OpensItem v)
    (hitem : ∀ m : Reading, m.ahead = ts ++ ⟨.endKw, "end"⟩ :: name :: rest →
      (call (.item family)).Takes true { env with context := sectionContext family } m us
        (⟨.endKw, "end"⟩ :: name :: rest))
    (hts : ts ≠ [])
    (ha : r.ahead = sectionKeyword family :: (ts ++ ⟨.endKw, "end"⟩ :: name :: rest)) :
    (call .classBody).Takes true env r
      [.node (sectionKind family) (.leaf (sectionKeyword family) :: us)]
      (⟨.endKw, "end"⟩ :: name :: rest) := by
  have hbody : ∀ m : Reading, m.ahead = ts ++ ⟨.endKw, "end"⟩ :: name :: rest →
      (call (.sectionBody family)).Takes true { env with context := sectionContext family } m us
        (⟨.endKw, "end"⟩ :: name :: rest) := fun m hm =>
    takes_sectionBody hname (fun v hv => hopens v (hv.trans hm)) (hitem m hm) (by
      rw [hm, List.length_append]
      exact Nat.lt_add_of_pos_left (List.length_pos_iff.mpr hts))
  have hk : ∀ m : Reading, m.ahead = r.ahead → (m.look env).kind = (sectionKeyword family).kind :=
    fun m hm => by
      rw [Lookahead.kind, Reading.look, hm, ha]
      rfl
  have hnone : (look fun v => if v.atSectionBoundary then done else
      node .initialElementList [call .elements]).Takes true env r [] r.ahead := by
    have hboundary : (r.look env).atSectionBoundary = true := by
      cases family <;> simp [Lookahead.atSectionBoundary, hk r rfl, sectionKeyword]
    refine takes_look ?_
    rw [if_pos hboundary]
    exact takes_done rfl
  refine takes_call (takes_skip hnone fun m hm => takes_once ?_ (takes_look ?_) fun index =>
    (boundary_of_classEnd hname rfl).2.2)
  · cases family <;> simp [atClassSection, hk m hm, sectionKeyword]
  · cases family <;> simp only [hk m hm, sectionKeyword] <;>
      exact takes_call (takes_node (takes_skip
        (takes_accept (hm.trans ha) (by simp [headKind, sectionKeyword]))
        fun m hm => takes_cons (takes_expect hm rfl) fun m hm => takes_inContext (hbody m hm)))

/-- A class whose body is one element. -/
theorem takes_elements {r : Reading} (hname : name.kind = .ident)
    (hopens : ∀ v : Lookahead, v.ahead = r.ahead → v.atEnd = false ∧ v.atSectionBoundary = false)
    (helement : ∀ m : Reading, m.ahead = r.ahead →
      (call .element).Takes true env m us (⟨.endKw, "end"⟩ :: name :: rest))
    (hread : (⟨.endKw, "end"⟩ :: name :: rest).length < r.ahead.length) :
    (call .classBody).Takes true env r [.node .initialElementList us]
      (⟨.endKw, "end"⟩ :: name :: rest) := by
  obtain ⟨hend, hboundary⟩ := hopens (r.look env) rfl
  have hlist : (look fun v => if v.atSectionBoundary then done else
      node .initialElementList [call .elements]).Takes true env r [.node .initialElementList us]
        (⟨.endKw, "end"⟩ :: name :: rest) := by
    refine takes_look ?_
    rw [if_neg (by simp [hboundary])]
    exact takes_node (takes_call (takes_item hend hboundary (helement _ rfl) hread fun index =>
      (boundary_of_classEnd hname rfl).1))
  refine takes_call (takes_cons hlist fun m hm => ⟨m, .many (.stop ?_), hm, fun _ => rfl⟩)
  exact (boundary_of_classEnd (v := m.look env) hname hm).2.2

end

/-- A name as an expression. -/
def nameTree (name : Token) : Tree :=
  .node .componentReference [.node .componentReferencePart [.leaf name]]

section

variable {name equals semi : Token} {rest : List Token}

/-- A name is an expression at the foot of the ladder. -/
theorem ladder_name (hname : name.kind = .ident) (k : Kind) :
    Ladder 0 .or [name] (nameTree name) k := by
  have hpart : Derives endGuarded (.rule .componentReferencePart) 0 [name]
      [.node .componentReferencePart [.leaf name]] k :=
    .rule (.node (.seq (.token (List.mem_singleton.mpr hname)) (.right .empty)))
  have hreference : Derives endGuarded (.rule .componentReference) 0 [name] [nameTree name] k :=
    .rule (.node (.seq (.right .empty) (.seq hpart .none)))
  have hprimary : Derives endGuarded (.rule .primary) 0 [name] [nameTree name] k :=
    .rule (.right (.right (.right (.right (.right (.left (.right hreference)))))))
  exact .or (.and (.not (.rel (.add (.uadd (.mul (.pow hprimary)))))))

theorem takes_name {env : Surroundings} {r : Reading} (hl : env.depth ≤ env.limit)
    (hname : name.kind = .ident) (hrest : headKind rest = .equals) (ha : r.ahead = name :: rest) :
    (call .simpleExpression).Takes true env r [nameTree name] rest := by
  have hd : Derives endGuarded (.rule .simpleExpression) 0 [name] [nameTree name] .equals :=
    .rule (ladder_name hname .equals).derives
  refine hd.takes ⟨fun _ => id, .inl rfl⟩ env r rest hrest ha hl ?_
  show Kind.endsBand 0 (headKind rest) = true
  rw [hrest]
  rfl

/-- With nothing before it, a `;` ends an item. -/
theorem takes_itemEnd {env : Surroundings} {r : Reading} (hsemi : semi.kind = .semicolon)
    (ha : r.ahead = semi :: rest) : itemEnd.Takes true env r [.leaf semi] rest := by
  have hk : ∀ k ≠ Kind.semicolon, headKind (semi :: rest) ≠ k := fun k hk he =>
    hk (he.symm.trans hsemi)
  have hcomment : (call .comment).Takes true env r [] (semi :: rest) :=
    takes_call (takes_skip (takes_before ha (hk _ nofun)) fun m hm =>
      takes_before hm (hk _ nofun))
  exact takes_skip hcomment fun m hm => takes_expect hm hsemi

/-- No call starts with a name and an `=`. -/
theorem atCallEquation_of_equals {v : Lookahead} (hname : name.kind = .ident)
    (hequals : equals.kind = .equals) (ha : v.ahead = name :: equals :: rest) :
    v.atCallEquation = false := by
  simp [Lookahead.atCallEquation, ha, Token.afterReference, Token.afterParts, headKind, hname,
    hequals, Token.continuesChain, Token.kindAt]

/-- An equation whose left side is a name. -/
theorem takes_equation {env : Surroundings} {r : Reading} {ts : List Token} {us : List Tree}
    (hl : env.depth + 1 ≤ env.limit) (hname : name.kind = .ident) (hequals : equals.kind = .equals)
    (hsemi : semi.kind = .semicolon)
    (hexpression : ∀ m : Reading, m.ahead = ts ++ semi :: rest →
      (call .expression).Takes true { env with depth := env.depth + 1 } m us (semi :: rest))
    (ha : r.ahead = name :: equals :: (ts ++ semi :: rest)) :
    (call (.item .equations)).Takes true env r
      [.node .simpleEquation (nameTree name :: .leaf equals :: (us ++ [.leaf semi]))] rest := by
  have hcall := atCallEquation_of_equals (v := r.look { env with depth := env.depth + 1 }) hname
    hequals ha
  have hkind : (r.look { env with depth := env.depth + 1 }).kind = .ident := by
    rw [Lookahead.kind, Reading.look, ha]
    exact hname
  have hstart : (r.look { env with depth := env.depth + 1 }).atPrimaryStart = true := by
    simp [Lookahead.atPrimaryStart, hkind]
  refine takes_call (takes_call (takes_nested hl (takes_look ?_)))
  simp only [hkind, hcall, hstart]
  have hleft : ∀ m : Reading, m.ahead = r.ahead → (call .simpleExpression).Takes true
      { env with depth := env.depth + 1 } m [nameTree name] (equals :: (ts ++ semi :: rest)) :=
    fun m hm => takes_name hl hname hequals (hm.trans ha)
  refine takes_call (takes_node (takes_cons (hleft _ rfl) fun m hm => ?_))
  have hk : (m.look { env with depth := env.depth + 1 }).kind = .equals := by
    rw [Lookahead.kind, Reading.look, hm]
    exact hequals
  refine @takes_seq_cons _ _ _ m (.leaf equals :: us) [.leaf semi] (semi :: rest) rest
    (takes_look ?_) fun m hm => takes_itemEnd hsemi hm
  simp only [hk]
  exact takes_cons (takes_shift hm) hexpression

end

section

variable {limit : Nat} {keyword name : Token} {body ts : List Token} {us : List Tree}

/-- A whole text that is one class with a name and a body. -/
theorem takes_classText (hl : 1 ≤ limit)
    (hkeyword : keyword.kind = .modelKw ∨ keyword.kind = .functionKw) (hname : name.kind = .ident)
    (hstart : headKind (body ++ [⟨.endKw, "end"⟩, name, ⟨.semicolon, ";"⟩]) ∉ [.equals, .string])
    (hbody : ∀ m : Reading, m.ahead = body ++ [⟨.endKw, "end"⟩, name, ⟨.semicolon, ";"⟩] →
      (call .classBody).Takes true ⟨.classBody, [], 1, limit⟩ m us
        [⟨.endKw, "end"⟩, name, ⟨.semicolon, ";"⟩]) :
    (call .storedDefinition).Takes true ⟨.topLevel, [], 0, limit⟩
      (.start (classTokens keyword name body))
      [.node .storedDefinition [
        .node .classDefinitionClause [classTree keyword name us, .leaf ⟨.semicolon, ";"⟩]]] [] := by
  refine takes_storedDefinition ?_ (fun m hm => takes_class hl hkeyword hname hstart hbody hm) rfl
  show keyword.kind ∈ Kind.classStart
  rcases hkeyword with hk | hk <;> rw [hk] <;> decide

/-- A whole text that is one class with one item in one section. -/
theorem takes_sectionText {family : Family} (hl : 1 ≤ limit)
    (hkeyword : keyword.kind = .modelKw ∨ keyword.kind = .functionKw) (hname : name.kind = .ident)
    (hts : ts ≠ [])
    (hopens : ∀ v : Lookahead, v.ahead = ts ++ [⟨.endKw, "end"⟩, name, ⟨.semicolon, ";"⟩] →
      OpensItem v)
    (hitem : ∀ m : Reading, m.ahead = ts ++ [⟨.endKw, "end"⟩, name, ⟨.semicolon, ";"⟩] →
      (call (.item family)).Takes true ⟨sectionContext family, [], 1, limit⟩ m us
        [⟨.endKw, "end"⟩, name, ⟨.semicolon, ";"⟩]) :
    (call .storedDefinition).Takes true ⟨.topLevel, [], 0, limit⟩
      (.start (classTokens keyword name (sectionKeyword family :: ts)))
      [.node .storedDefinition [.node .classDefinitionClause [
        classTree keyword name
          [.node (sectionKind family) (.leaf (sectionKeyword family) :: us)],
        .leaf ⟨.semicolon, ";"⟩]]] [] := by
  refine takes_classText hl hkeyword hname ?_ fun m hm => takes_section hname hopens hitem hts hm
  show (sectionKeyword family).kind ∉ _
  cases family <;> decide

end

end Grammar

end Modelica
