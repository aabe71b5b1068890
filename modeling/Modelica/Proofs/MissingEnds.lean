import Modelica.Proofs.Orphans
import Modelica.Proofs.Parts
import Modelica.Proofs.Truthful

/-!
# A missing class end is reported

A long class specifier ends with its `end`, or with an error at the place where the `end` is
missing. The error is about the `end`, unless another one has been reported there before: of two
errors at one place only the first is kept.

* `Moment.LacksEnd.exists_error`: what is reported when a class looks for its `end` in vain;
* `Runs.ended`: every class without an `end`, in the trees that a run builds, has looked for it;
* `Located.stops_of_ended`: where such a class stops in the text;
* `missing_end_reported`: the statement for a parse.
-/

namespace Modelica

/-- Where an error is reported there is one: itself, or the one that was reported before. -/
theorem Reading.exists_error_report {r : Reading} {d : Diagnostic Spot} (he : d.isError = true) :
    ∃ e ∈ (r.report d).faults, e.isError = true ∧ e.place = d.place ∧ (e = d ∨ e ∈ r.faults) := by
  unfold report
  split
  · exact ⟨d, by simp, he, rfl, .inl rfl⟩
  next last rest h =>
    split
    next hs =>
      have hl : last.isError = true := by simpa [Diagnostic.isError, hs.2] using he
      have hmem : last ∈ r.faults := h ▸ List.mem_cons_self
      exact ⟨last, hmem, hl, hs.1, .inr hmem⟩
    · exact ⟨d, by simp, he, rfl, .inl rfl⟩

/-- What there is to do when a whole text is to be read. -/
def Moment.whole (limit : Nat) (text : String) : Moment :=
  ⟨none, .of (.call .storedDefinition), ⟨.topLevel, [], 0, limit⟩,
    .start (Token.significant (tokenize text))⟩

/-- A class looks for its `end` where none comes. -/
structure Moment.LacksEnd (m : Moment) : Prop where
  task : ∃ name opened, m.task = .of (Grammar.classEnd name opened)
  ahead : Token.headKind m.reading.ahead ≠ .endKw

/-- Where an `end` is lacking, the `end` is reported, unless there was an error already. -/
theorem Moment.LacksEnd.exists_error {m : Moment} (hm : m.LacksEnd) {r' : Reading}
    (h : Runs anyReport m.task m.env m.reading r') :
    ∃ d ∈ r'.faults, d.isError = true ∧ d.place = m.reading.index ∧
      (d.expected = [.endKw] ∨ d ∈ m.reading.faults) := by
  obtain ⟨⟨name, opened, htask⟩, hne⟩ := hm
  rw [htask] at h
  replace h := runs_look.mp h
  rw [if_neg (by simpa [Reading.look, Lookahead.sees, Lookahead.kind] using hne)] at h
  obtain ⟨-, rfl⟩ := runs_report.mp h
  have kept : ∀ d : Diagnostic Spot, d.isError = true → d.place = m.reading.index →
      d.expected = [.endKw] → ∃ e ∈ (m.reading.report d).faults, e.isError = true ∧
        e.place = m.reading.index ∧ (e.expected = [.endKw] ∨ e ∈ m.reading.faults) := by
    intro d herror hplace hexpected
    obtain ⟨e, he, herror, hp, rfl | hb⟩ := Reading.exists_error_report (r := m.reading) herror
    · exact ⟨e, he, herror, hplace, .inl hexpected⟩
    · exact ⟨e, he, herror, hp.trans hplace, .inr hb⟩
  exact kept _ rfl rfl rfl

namespace Runs

variable {env : Surroundings} {r r' : Reading}

/-- What looks for the `end` of a class last has read it, or has come to where it is lacking. -/
theorem endsClass {p : Production} (hp : p.EndsClass) (h : Runs anyReport (.of p) env r r')
    (rule : Option Nonterminal) : (∃ t, t.kind = .endKw ∧ .leaf t ∈ r'.built) ∨
      ∃ m, Relation.ReflTransGen Moment.Step ⟨rule, .of p, env, r⟩ m ∧ m.LacksEnd ∧
        m.reading.ahead = r'.ahead ∧ m.reading.index = r'.index := by
  induction p generalizing r with
  | andThen _ _ _ ih =>
    obtain ⟨w, hw, h⟩ := runs_andThen.mp h
    obtain hend | ⟨m, hm, hlacks⟩ := ih hp h
    · exact .inl hend
    · exact .inr ⟨m, .head (.second hw) hm, hlacks⟩
  | look next ih =>
    rcases hp with ⟨name, opened, he⟩ | hp
    · rw [he] at h
      replace h := runs_look.mp h
      split at h
      next hs =>
        obtain ⟨t, ts, ha, ht⟩ := Token.exists_cons_of_headKind (beq_iff_eq.mp hs) nofun
        exact .inl ⟨t, ht, h.leaf_mem (by cases name <;> simp [Production.missing]) ha⟩
      next hs =>
        obtain ⟨-, rfl⟩ := runs_report.mp h
        refine .inr ⟨_, .refl, ⟨⟨name, opened, congrArg Task.of he⟩, ?_⟩,
          (Reading.report_ahead _ _).symm, (Reading.report_index _ _).symm⟩
        simpa [Reading.look, Lookahead.sees, Lookahead.kind] using hs
    · obtain hend | ⟨m, hm, hlacks⟩ := ih _ (hp _) (runs_look.mp h)
      · exact .inl hend
      · exact .inr ⟨m, .head .look hm, hlacks⟩
  | _ => exact hp.elim

end Runs

/-! ## Classes in a tree -/

namespace Tree

mutual

/-- Every long class specifier of a tree has an `end`, or it stops before a significant token that
`stops` speaks of. The first significant token of the tree is `first`. -/
def Ended (stops : Spot → Prop) (first : Spot) : Tree → Prop
  | leaf _ => True
  | node k cs => (k = .longClassSpecifier → (∃ t, t.kind = .endKw ∧ leaf t ∈ cs) ∨
      stops (first + (Token.significant (leavesOf cs)).length)) ∧ EndedAll stops first cs

def EndedAll (stops : Spot → Prop) (first : Spot) : List Tree → Prop
  | [] => True
  | c :: cs => c.Ended stops first ∧
      EndedAll stops (first + (Token.significant c.leaves).length) cs

end

variable {stops : Spot → Prop} {first : Spot}

theorem endedAll_append {cs ds : List Tree} : EndedAll stops first (cs ++ ds) ↔
    EndedAll stops first cs ∧
      EndedAll stops (first + (Token.significant (leavesOf cs)).length) ds := by
  induction cs generalizing first with
  | nil => exact (and_iff_right True.intro).symm
  | cons c cs ih =>
    have hl : (Token.significant (leavesOf (c :: cs))).length =
        (Token.significant c.leaves).length + (Token.significant (leavesOf cs)).length := by
      rw [leavesOf_cons, Token.significant, List.filter_append, List.length_append]
      rfl
    rw [List.cons_append, EndedAll, EndedAll, ih, and_assoc, hl, Nat.add_assoc]

end Tree

/-- Reading comes from `start` to a class whose `end` is lacking at the place. -/
def Moment.Lacks (start : Moment) (i : Spot) : Prop :=
  ∃ m, Relation.ReflTransGen Step start m ∧ m.LacksEnd ∧ m.reading.index = i

/-- Where a long class specifier without an `end` stops, the `end` is lacking. -/
theorem Runs.ended {task : Task} {env : Surroundings} {r r' : Reading}
    (h : Runs anyReport task env r r') (ht : task.Meets .ending (r.look env))
    {start : Moment} {rule : Option Nonterminal}
    (hm : Relation.ReflTransGen Moment.Step start ⟨rule, task, env, r⟩)
    (hsig : ∀ t ∈ r.tokens, t.isSignificant = true) {first : Spot}
    (hi : r.index = first + (Tree.leavesOf r.built.reverse).length)
    (hr : Tree.EndedAll start.Lacks first r.built.reverse) :
    Tree.EndedAll start.Lacks first r'.built.reverse := by
  have all_significant : ∀ {r : Reading}, (∀ t ∈ r.tokens, t.isSignificant = true) →
      Token.significant (Tree.leavesOf r.built.reverse) = Tree.leavesOf r.built.reverse :=
    fun h => List.filter_eq_self.mpr fun t ht => h t (List.mem_append_left _ ht)
  induction h generalizing first rule with
  | done | stop _ => exact hr
  | andThen hp _ ihp ihq =>
    exact ihq (ht.2 _ _) (hm.tail (.second hp)) (hp.leaves ▸ hsig) (hp.index_eq hi)
      (ihp ht.1 (hm.tail .first) hsig hi hr)
  | @shift env r =>
    cases ha : r.ahead with
    | nil => rwa [Reading.shift_nil ha]
    | cons t ts =>
      rw [Reading.shift_cons ha, List.reverse_cons]
      exact Tree.endedAll_append.mpr ⟨hr, True.intro, True.intro⟩
  | @group p env r m hp ih =>
    have hin := ih ht (hm.tail .group) (fun t ht => hsig t (List.mem_append_right _ ht)) rfl
      True.intro
    rw [List.reverse_append]
    refine Tree.endedAll_append.mpr ⟨hr, ?_⟩
    rw [all_significant hsig, ← hi]
    exact hin
  | @wrap k p env r m hp ih =>
    have hin := ih ht.2 (hm.tail .wrap) hsig hi hr
    refine ⟨⟨fun hk => ?_, hin⟩, True.intro⟩
    rcases hp.endsClass (ht.1 hk) rule with ⟨t, hend, hmem⟩ | ⟨w, hw, hend, -, hindex⟩
    · exact .inl ⟨t, hend, List.mem_reverse.mpr hmem⟩
    · refine .inr ⟨w, (hm.tail .wrap).trans hw, hend, ?_⟩
      rw [all_significant (hp.leaves ▸ hsig), ← hp.index_eq hi, hindex]
  | look _ ih => exact ih (ht.2 id) (hm.tail .look) hsig hi hr
  | many _ ih => exact ih ht (hm.tail .many) hsig hi hr
  | inContext _ ih => exact ih ht (hm.tail .inContext) hsig hi hr
  | opening _ ih => exact ih ht (hm.tail .opening) hsig hi hr
  | turn hc hp _ ihp ihr =>
    exact ihr ht (hm.tail (.again hc hp)) (hp.leaves ▸ hsig) (hp.index_eq hi)
      (ihp ((ht _ _).2 hc _) (hm.tail (.turn hc)) hsig hi hr)
  | call _ ih => exact ih (Nonterminal.ending_production ht) (hm.tail .call) hsig hi hr
  | @report fault env r _ => rwa [Reading.report_built]
  | within hd _ ih => exact ih ht.1 (hm.tail (.within hd)) hsig hi hr
  | beyond hd _ ih => exact ih ht.2 (hm.tail (.beyond hd)) hsig hi hr

namespace Tree

variable {stops : Spot → Prop}

/-- What is stripped has no significant token, and no class in it. -/
theorem ended_of_stripped {c : Tree} {first : Spot}
    (h : (c.isTriviaLeaf || c.isBadToken) = true) : c.Ended stops first := by
  cases c with
  | leaf t => exact True.intro
  | node k cs =>
    have hb : (node k cs).isBadToken = true := by simpa [isTriviaLeaf] using h
    unfold isBadToken at hb
    split at hb
    · rename_i he
      cases he
      exact ⟨fun h => absurd h (by decide), True.intro, True.intro⟩
    · cases hb

mutual

theorem ended_of_strip : ∀ (t : Tree) (first : Spot), t.strip.Ended stops first →
    t.Ended stops first
  | leaf _, _, _ => True.intro
  | node _ cs, first, ⟨hk, hcs⟩ => by
    refine ⟨fun h => ?_, ended_of_stripAll cs first hcs⟩
    rw [significant_leavesOf_stripAll] at hk
    exact (hk h).imp_left fun ⟨t, ht, hm⟩ => ⟨t, ht, leaf_mem_of_stripAll hm⟩

theorem ended_of_stripAll : ∀ (cs : List Tree) (first : Spot),
    EndedAll stops first (stripAll cs) → EndedAll stops first cs
  | [], _, _ => True.intro
  | c :: cs, first, h => by
    have hc := significant_leavesOf_stripAll [c]
    simp only [leavesOf_cons, leavesOf_nil, List.append_nil] at hc
    unfold stripAll at h hc
    split at h
    next hs =>
      rw [if_pos hs] at hc
      have hn : (Token.significant c.leaves).length = 0 := by rw [← hc]; rfl
      exact ⟨ended_of_stripped hs, hn ▸ ended_of_stripAll cs first h⟩
    next hs =>
      rw [if_neg hs] at hc
      obtain ⟨h₁, h₂⟩ := h
      have hn : (Token.significant c.strip.leaves).length =
          (Token.significant c.leaves).length := by
        rw [← hc]; simp [stripAll]
      exact ⟨ended_of_strip c first h₁, ended_of_stripAll cs _ (hn ▸ h₂)⟩

end

end Tree

namespace Located

variable {stops : Spot → Prop}

mutual

/-- A node stands after the tokens before it, and so do the classes in it. -/
theorem exists_slice (start : Nat) : (t : Tree) → ∀ n ∈ preorder start t,
    ∃ before after, t.leaves = before ++ n.tree.leaves ++ after ∧
      n.start = start + Modelica.width (Token.concat before).toList ∧
      ∀ {stops first}, t.Ended stops first →
        n.tree.Ended stops (first + (Token.significant before).length)
  | .leaf t => fun n hn => by
    cases List.mem_singleton.mp hn
    exact ⟨[], [], by simp, rfl, id⟩
  | .node k cs => fun n hn => by
    rcases List.mem_cons.mp hn with rfl | hn
    · exact ⟨[], [], by simp, rfl, id⟩
    · obtain ⟨before, after, hl, hs, he⟩ := exists_slice_row start cs n hn
      exact ⟨before, after, hl, hs, fun h => he h.2⟩

theorem exists_slice_row (start : Nat) : (ts : List Tree) → ∀ n ∈ preorderRow start ts,
    ∃ before after, Tree.leavesOf ts = before ++ n.tree.leaves ++ after ∧
      n.start = start + Modelica.width (Token.concat before).toList ∧
      ∀ {stops first}, Tree.EndedAll stops first ts →
        n.tree.Ended stops (first + (Token.significant before).length)
  | [] => fun n hn => nomatch hn
  | t :: ts => fun n hn => by
    rcases List.mem_append.mp hn with hn | hn
    · obtain ⟨before, after, hl, hs, he⟩ := exists_slice start t n hn
      exact ⟨before, after ++ Tree.leavesOf ts, by simp [hl], hs, fun h => he h.1⟩
    · obtain ⟨before, after, hl, hs, he⟩ := exists_slice_row _ ts n hn
      refine ⟨t.leaves ++ before, after, by simp [hl], ?_, fun h => ?_⟩
      · rw [hs, Token.concat_append, String.toList_append, width_append, Tree.width_eq_leaves,
          Nat.add_assoc]
      · rw [Token.significant, List.filter_append, List.length_append, ← Nat.add_assoc]
        exact he h.2

end

/-- A class without an `end` stops after some of the tokens, at a place that is spoken of. -/
theorem stops_of_ended {t : Tree} (h : t.Ended stops 0) {n : Located} (hn : n ∈ (root t).nodes)
    (hk : n.kind = .longClassSpecifier) (he : ∀ c ∈ n.tokenChildren, c.kind ≠ .endKw) :
    ∃ before after, t.leaves = before ++ after ∧
      n.stop = Modelica.width (Token.concat before).toList ∧
      stops (Token.significant before).length := by
  obtain ⟨hn, hnode⟩ := List.mem_filter.mp hn
  obtain ⟨before, after, hleaves, hstart, hslice⟩ := exists_slice 0 t n hn
  replace hslice := hslice h
  refine ⟨before ++ n.tree.leaves, after, hleaves, ?_, ?_⟩
  · rw [stop, hstart, Tree.width_eq_leaves, Token.concat_append, String.toList_append, width_append,
      Nat.zero_add]
  · obtain ⟨start, t⟩ := n
    cases t with
    | leaf t => simp [isNode, Tree.isLeaf] at hnode
    | node k cs =>
      rw [Token.significant, List.filter_append, List.length_append]
      rw [Nat.zero_add] at hslice
      refine (hslice.1 hk).resolve_left fun ⟨t, hend, hm⟩ => ?_
      obtain ⟨c, hc, hct⟩ := List.mem_map.mp ((map_tree_row start cs).symm ▸ hm)
      have hchild : c ∈ tokenChildren ⟨start, .node k cs⟩ :=
        List.mem_filter.mpr ⟨hc, by simp [isNode, hct, Tree.isLeaf]⟩
      exact he c hchild (by rw [kind, hct]; exact hend)

end Located

/-- The first significant token of a text that starts at an offset or later. -/
def Token.nextFrom (text : String) (offset : Nat) : Option PlacedToken :=
  (landmarks text).find? (offset ≤ ·.span.start)

theorem Token.placeFrom_stop_le {offset : Nat} {position : Position} {ts : List Token}
    {p : PlacedToken} (h : p ∈ placeFrom offset position ts) :
    p.span.stop ≤ offset + Modelica.width (concat ts).toList := by
  induction ts generalizing offset position with
  | nil => cases h
  | cons t ts ih =>
    rw [width_concat_cons, ← Nat.add_assoc]
    cases h with
    | head => exact Nat.le_add_right _ _
    | tail _ h => exact ih h

theorem Token.start_lt_of_mem_placeFrom {offset : Nat} {position : Position} {ts : List Token}
    (hwidth : ∀ t ∈ ts, 0 < t.width) {p : PlacedToken} (h : p ∈ placeFrom offset position ts) :
    p.span.start < offset + Modelica.width (concat ts).toList :=
  Nat.lt_of_lt_of_le (placeFrom_start_lt_stop hwidth h) (placeFrom_stop_le h)

/-- Where a text is cut in two, the significant tokens of the first part start before that place,
and those of the second part do not. -/
theorem Token.landmarks_append {text : String} {before after : List Token}
    (h : tokenize text = before ++ after) :
    ∃ front back, landmarks text = front ++ back ∧
      front.map PlacedToken.toToken = significant before ∧
      back.map PlacedToken.toToken = significant after ∧
      (∀ t ∈ front, t.span.start < Modelica.width (concat before).toList) ∧
      ∀ t ∈ back, Modelica.width (concat before).toList ≤ t.span.start := by
  obtain ⟨position, hplace⟩ := placeFrom_append 0 .origin before after
  rw [← h, Nat.zero_add] at hplace
  refine ⟨_, _, by rw [landmarks, place, hplace, List.filter_append],
    map_filter_placeFrom 0 .origin before, map_filter_placeFrom _ position after, ?_, ?_⟩
  · intro t ht
    have hwidth : ∀ u ∈ before, 0 < u.width := fun u hu =>
      cut_width_pos (h ▸ List.mem_append_left after hu : u ∈ tokenize text)
    have hlt := start_lt_of_mem_placeFrom hwidth (List.mem_filter.mp ht).1
    rwa [Nat.zero_add] at hlt
  · intro t ht
    exact placeFrom_start_le (List.mem_filter.mp ht).1

/-- What starts where some of the tokens of a text stop, or later, comes after the significant ones
among them. -/
theorem Token.nextFrom_eq {text : String} {before after : List Token}
    (h : tokenize text = before ++ after) :
    nextFrom text (Modelica.width (concat before).toList) =
      (landmarks text)[(significant before).length]? := by
  obtain ⟨front, back, hsplit, hfront, -, hlt, hle⟩ := landmarks_append h
  have hnone : front.find? (Modelica.width (concat before).toList ≤ ·.span.start) = none := by
    refine List.find?_eq_none.mpr fun t ht => ?_
    simpa using hlt t ht
  have hall : back.filter (Modelica.width (concat before).toList ≤ ·.span.start) = back :=
    List.filter_eq_self.mpr fun t ht => by simpa using hle t ht
  rw [nextFrom, hsplit, ← hfront, List.length_map, List.getElem?_append_right (Nat.le_refl _),
    Nat.sub_self, List.find?_append, hnone, Option.none_or, ← List.head?_filter, hall,
    List.head?_eq_getElem?]

/-- The significant tokens are the same where they stand. -/
theorem Token.kind_getElem?_landmarks (text : String) {i : Spot} {k : Kind}
    (hk : k ≠ .endOfInput) : (landmarks text)[i]?.map (·.kind) = some k ↔
      headKind ((significant (tokenize text)).drop i) = k := by
  rw [← map_landmarks, ← List.map_drop]
  by_cases hi : i < (landmarks text).length
  · rw [List.getElem?_eq_getElem hi, List.drop_eq_getElem_cons hi]
    exact Option.some_inj
  · have hle := Nat.le_of_not_lt hi
    rw [List.getElem?_eq_none hle, List.drop_eq_nil_of_le hle]
    exact iff_of_false (by simp) hk.symm

/-- While a text is read, a class looks for its `end` at a place where none comes. What has been
reported until then is `before`. -/
def Parse.LacksEnd (limit : Nat) (text : String) (place : Span)
    (before : List (Diagnostic Span)) : Prop :=
  ∃ m, Relation.ReflTransGen Moment.Step (.whole limit text) m ∧ m.LacksEnd ∧
    place = (Landmarks.ofTokens (tokenize text)).span m.reading.index ∧
    before = m.reading.faults.map (Diagnostic.map (Landmarks.ofTokens (tokenize text)).span)

/-- Where the `end` of a class is lacking there is an error. It expects the `end`, unless it was
there before. -/
theorem Parse.LacksEnd.exists_error {limit : Nat} {text : String} {place : Span}
    {before : List (Diagnostic Span)} (h : LacksEnd limit text place before) :
    ∃ d ∈ reported (.call .storedDefinition) limit text, d.isError = true ∧ d.place = place ∧
      (d.expected = [.endKw] ∨ d ∈ before) := by
  obtain ⟨m, hsteps, hm, rfl, rfl⟩ := h
  have hrun := Production.runs_read (.call .storedDefinition) True.intro limit
    (Token.significant (tokenize text))
  obtain ⟨r, hr, hfaults⟩ := Moment.runs_of_steps hsteps hrun
  obtain ⟨d, hd, herror, hplace, he⟩ := hm.exists_error hr
  refine ⟨d.map (Landmarks.ofTokens (tokenize text)).span, ?_, herror, ?_,
    he.imp id (List.mem_map_of_mem ·)⟩
  · rw [reported]
    exact List.mem_map_of_mem (List.mem_reverse.mpr (hfaults hd))
  · rw [Diagnostic.map, hplace]

/-- Where a class stops and has no `end`, it has looked for one. -/
theorem Parse.exists_lacksEnd {limit : Nat} {text : String} {n : Located}
    (hn : n ∈ (Located.root (ofProduction (.call .storedDefinition) limit text).tree).nodes)
    (hk : n.kind = .longClassSpecifier) (he : ∀ c ∈ n.tokenChildren, c.kind ≠ .endKw) :
    (∃ before, LacksEnd limit text
      (((Token.nextFrom text n.stop).map (·.span)).getD (.point (width text.toList))) before) ∧
      (Token.nextFrom text n.stop).map (·.kind) ≠ some .endKw := by
  have hrun := Production.runs_read (.call .storedDefinition) True.intro limit
    (Token.significant (tokenize text))
  have hmeets : (Production.call .storedDefinition).Meets .ending
      ((Reading.start (Token.significant (tokenize text))).look ⟨.topLevel, [], 0, limit⟩) := nofun
  have hstart : Relation.ReflTransGen Moment.Step (.whole limit text) (.whole limit text) := .refl
  have hended := hrun.ended hmeets hstart (fun t ht => (List.mem_filter.mp ht).2) rfl True.intro
  have hstrip := strip_tree_ofProduction Production.readsAll_storedDefinition limit text
  obtain ⟨k, cs, -, hroot, -⟩ := Production.readsAll_storedDefinition.exists_root limit text
  rw [hroot] at hended
  rw [hroot, List.head?_cons, Option.getD_some] at hstrip
  have htext := (covers_storedDefinition limit text).leaves
  generalize (ofProduction (.call .storedDefinition) limit text).tree = t at hn hstrip htext
  obtain ⟨before, after, hleaves, hstop, m, hsteps, hm, hindex⟩ :=
    Located.stops_of_ended (Tree.ended_of_strip t 0 (hstrip ▸ hended.1)) hn hk he
  rw [htext] at hleaves
  rw [hstop, Token.nextFrom_eq hleaves]
  refine ⟨⟨_, m, hsteps, hm, ?_, rfl⟩, mt (Token.kind_getElem?_landmarks text (by decide)).mp ?_⟩
  · rw [hindex]
    exact (Landmarks.span_eq text _).symm
  · have hleads : (Reading.start (Token.significant (tokenize text))).Leads m.reading :=
      Moment.leads_of_steps hsteps
    rw [← hindex, ← Reading.ahead_of_leads_start hleads]
    exact hm.ahead

/-- Nothing but an `end` may be expected where an `end` is missing. -/
theorem Parse.expected_of_missingEnd {limit : Nat} {text : String} {d : Diagnostic Span}
    (hd : d ∈ reported (.call .storedDefinition) limit text) (hc : d.code = .missingEnd) :
    d.expected = [.endKw] := by
  have hrun := Production.runs_read (.call .storedDefinition) True.intro limit
    (Token.significant (tokenize text))
  have hmeets : (Production.call .storedDefinition).Meets .ending
      ((Reading.start (Token.significant (tokenize text))).look ⟨.topLevel, [], 0, limit⟩) := nofun
  rw [reported] at hd
  obtain ⟨e, he, rfl⟩ := List.mem_map.mp hd
  have hdemand := (hrun.demanded (fun _ => id) Nonterminal.ending_production hmeets).forall_faults
    (fun _ h => nomatch h) e (List.mem_reverse.mp he)
  exact hdemand.2.elim fun _ h => h hc

/-- What a truthful error has found at a place where no `end` comes is what comes there. -/
theorem Diagnostic.Truthful.found_eq {d : Diagnostic Span} {text : String} (h : d.Truthful text)
    {next : Option PlacedToken} (hn : ∀ t ∈ next, t ∈ Token.landmarks text)
    (hp : d.place = (next.map (·.span)).getD (.point (width text.toList)))
    (he : next.map (·.kind) ≠ some .endKw) : d.found = next.map (·.kind) := by
  cases next with
  | none => exact h.nothing.mpr hp
  | some t =>
    have hplaced : ∀ u ∈ Token.landmarks text, u ∈ Token.place (tokenize text) :=
      fun u hu => (List.mem_filter.mp hu).1
    have ht := hplaced t (hn t rfl)
    have hpoint : d.place ≠ .point (width text.toList) := fun hq =>
      absurd (congrArg Span.start (hp.symm.trans hq)) (Nat.ne_of_lt (Landmarks.start_lt_width ht))
    obtain ⟨before, u, after, hl, hu, hfound⟩ := h.something hpoint
    obtain rfl : t = u := by
      refine Token.start_place_inj ht (hplaced u ?_) (congrArg Span.start (hp.symm.trans hu))
      exact hl ▸ List.mem_append_right _ List.mem_cons_self
    exact hfound.resolve_right fun ⟨hend, _⟩ => he (congrArg some hend)

/-- A diagnostic of a parse stands where something stops and no `end` comes. -/
structure Parse.Stops (p : Parse) (text : String) (offset : Nat) (d : Diagnostic Span) : Prop where
  reported : d ∈ p.faults
  error : d.isError = true
  /-- It is at the next significant token, or at the end of the text. -/
  place : d.place = ((Token.nextFrom text offset).map (·.span)).getD (.point (width text.toList))
  /-- It has found that token, or nothing at the end of the text. -/
  found : d.found = (Token.nextFrom text offset).map (·.kind)
  found_ne : d.found ≠ some .endKw
  surprise : ∀ k ∈ d.expected, d.found ≠ some k
  /-- A class has looked for its `end` there. -/
  sought : ∃ before, LacksEnd ParseOptions.standard.limit text d.place before
  /-- It expects an `end`, unless it is about something else and had been reported before any class
  looked for its `end` there. -/
  named : .endKw ∈ d.expected ∨ d.code ≠ .missingEnd ∧
    ∀ before, LacksEnd ParseOptions.standard.limit text d.place before → d ∈ before
  /-- No other diagnostic is at the place. -/
  alone : ∀ e ∈ p.faults, e.place.start = d.place.start → e = d

/-- Where a long class specifier without an `end` stops there is exactly one diagnostic, and it is
an error. It expects an `end`, unless another error had been reported there before any class looked
for its `end`: of two errors at one place the first is kept. -/
theorem missing_end_reported (text : String) {n : Located}
    (hn : n ∈ (Located.root (parse text).tree).nodes) (hk : n.kind = .longClassSpecifier)
    (he : ∀ c ∈ n.tokenChildren, c.kind ≠ .endKw) :
    ∃ d, (parse text).Stops text n.stop d := by
  obtain ⟨hsought, hnext⟩ := Parse.exists_lacksEnd hn hk he
  obtain ⟨before, hlacks⟩ := hsought
  obtain ⟨d, hd, herror, hplace, -⟩ := hlacks.exists_error
  have hmem := Parse.mem_faults_of_mem_reported hd
  have hlexical := Parse.isLexical_of_mem_reported (p := .call .storedDefinition) True.intro
    True.intro hd
  have htruthful := Parse.truthful_storedDefinition _ text d hmem herror hlexical
  have hfound := htruthful.found_eq (fun t ht => List.mem_of_find?_eq_some ht) hplace hnext
  have halone : ∀ e ∈ (parse text).faults, e.place.start = d.place.start → e = d := by
    have hdistinct : ((parse text).faults.map (·.place.start)).Nodup :=
      List.pairwise_map.mpr
        ((Parse.exact_storedDefinition _ text).increasing.imp fun h => Nat.ne_of_lt h)
    exact fun e he hs => List.inj_on_of_nodup_map hdistinct he hmem hs
  refine ⟨d, hmem, herror, hplace, hfound, hfound ▸ hnext, fun k hk h => ?_,
    ⟨before, hplace ▸ hlacks⟩, ?_, halone⟩
  · obtain ⟨-, hexpected⟩ := htruthful.surprise k hk h
    rw [hexpected, List.mem_singleton] at hk
    exact hnext (hfound.symm.trans (hk ▸ h))
  · by_cases hend : .endKw ∈ d.expected
    · exact .inl hend
    refine .inr ⟨fun hc => hend (by simp [Parse.expected_of_missingEnd hd hc]), fun before h => ?_⟩
    obtain ⟨e, he, -, hp, hexpected | hb⟩ := h.exists_error
    · have heq := halone e (Parse.mem_faults_of_mem_reported he) (congrArg Span.start hp)
      exact absurd (by simp [hexpected]) (heq ▸ hend)
    · exact halone e (Parse.mem_faults_of_mem_reported he) (congrArg Span.start hp) ▸ hb

/-- A class that the text leaves open. -/
theorem missing_end_reported_open :
    ∃ n ∈ (Located.root (parse "model M").tree).nodes, n.kind = .longClassSpecifier ∧
      (∀ c ∈ n.tokenChildren, c.kind ≠ .endKw) ∧
      ∃ d, (parse "model M").Stops "model M" n.stop d := by
  have hclass : ∃ n ∈ (Located.root (parse "model M").tree).nodes,
      n.kind = .longClassSpecifier ∧ ∀ c ∈ n.tokenChildren, c.kind ≠ .endKw := by
    decide +kernel
  obtain ⟨n, hn, hk, he⟩ := hclass
  exact ⟨n, hn, hk, he, missing_end_reported "model M" hn hk he⟩

/-- The class lacks its `end`, but nothing expects one: the `;` before it is missing at the same
place and is reported first. -/
theorem missing_end_unnamed :
    ∃ n ∈ (Located.root (parse "model M Real x").tree).nodes, n.kind = .longClassSpecifier ∧
      (∀ c ∈ n.tokenChildren, c.kind ≠ .endKw) ∧
      ∀ d ∈ (parse "model M Real x").faults, .endKw ∉ d.expected := by
  have hclass : ∃ n ∈ (Located.root (parse "model M Real x").tree).nodes,
      n.kind = .longClassSpecifier ∧ ∀ c ∈ n.tokenChildren, c.kind ≠ .endKw := by
    decide +kernel
  have hfaults : ∀ d ∈ lexicalFaults (tokenize "model M Real x") ++
      Parse.reported (.call .storedDefinition) ParseOptions.standard.limit "model M Real x",
      .endKw ∉ d.expected := by
    decide +kernel
  obtain ⟨n, hn, hk, he⟩ := hclass
  exact ⟨n, hn, hk, he, fun d hd => hfaults d (List.mem_mergeSort.mp hd)⟩

end Modelica
