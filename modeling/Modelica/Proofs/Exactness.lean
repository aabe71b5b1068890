import Mathlib.Data.List.Nodup
import Modelica.Proofs.Checks
import Modelica.Proofs.Trivia

/-!
# Diagnostics are exact

No two diagnostics of a parse start at the same offset, each bad token has one, and all others are
at significant tokens or at the end of the text.

* `Reading.Exact`: diagnostics are at places further and further on, and a warning is behind;
* `Runs.exact`: every run keeps to that;
* `Parse.exact_ofProduction`: what follows for the spans;
* `parses_exact`: the statement for a parse, a bounded parse and a fragment.
-/

namespace Modelica

/-- The diagnostics are at different places, the last one first. One at the place reached is an
error, so an error that is reported there a second time is not kept. -/
structure Reading.Exact (r : Reading) : Prop where
  descending : r.faults.Pairwise fun d e => e.place < d.place
  reached : ∀ d ∈ r.faults, d.place ≤ r.index
  here : ∀ d ∈ r.faults, d.place = r.index → d.severity = .error

namespace Reading

variable {r : Reading} {d : Diagnostic Spot}

theorem exact_start (tokens : List Token) : (start tokens).Exact :=
  ⟨.nil, fun _ h => (nomatch h), fun _ h => nomatch h⟩

/-- Where the last diagnostic is behind, all of them are. -/
theorem Exact.behind (h : r.Exact) (hl : ∀ last ∈ r.faults.head?, last.place ≠ r.index) :
    ∀ e ∈ r.faults, e.place < r.index := by
  obtain ⟨hd, hr, -⟩ := h
  revert hd hr hl
  cases r.faults with
  | nil => exact fun _ _ _ _ he => nomatch he
  | cons last rest =>
    intro hl hd hr
    have hlast := Nat.lt_of_le_of_ne (hr last (by simp)) (hl last rfl)
    exact List.forall_mem_cons.mpr ⟨hlast, fun e he =>
      Nat.lt_trans (List.rel_of_pairwise_cons hd he) hlast⟩

theorem pairwise_report (hd : r.faults.Pairwise fun d e => e.place < d.place)
    (hb : ∀ e ∈ r.faults, e.place < r.index) (hp : d.place = r.index) :
    (r.report d).faults.Pairwise (fun d e => e.place < d.place) ∧
      ∀ e ∈ (r.report d).faults, e.place ≤ r.index := by
  rcases r.report_eq d with he | ⟨he, -⟩ <;> rw [he]
  · exact ⟨hd, fun e he => Nat.le_of_lt (hb e he)⟩
  · exact ⟨hd.cons fun e he => hp ▸ hb e he,
      List.forall_mem_cons.mpr ⟨Nat.le_of_eq hp, fun e he => Nat.le_of_lt (hb e he)⟩⟩

theorem Exact.report (h : r.Exact) (hp : d.place = r.index) (hs : d.severity = .error) :
    (r.report d).Exact := by
  rcases r.report_eq d with he | ⟨he, hlast⟩ <;> rw [he]
  · exact h
  have hb := h.behind fun last hm hi => hlast last hm
    ⟨hi.trans hp.symm, (h.here last (List.mem_of_mem_head? hm) hi).trans hs.symm⟩
  refine ⟨h.descending.cons fun e he => hp ▸ hb e he,
    List.forall_mem_cons.mpr ⟨Nat.le_of_eq hp, h.reached⟩,
    List.forall_mem_cons.mpr ⟨fun _ => hs, h.here⟩⟩

/-- A token that is read leaves all diagnostics behind. -/
theorem behind_shift (hr : ∀ d ∈ r.faults, d.place ≤ r.index) (hn : r.ahead ≠ []) :
    ∀ d ∈ r.shift.faults, d.place < r.shift.index := by
  obtain ⟨t, ts, ha⟩ := List.exists_cons_of_ne_nil hn
  rw [shift_cons ha]
  exact fun d hd => Nat.lt_succ_of_le (hr d hd)

theorem exact_of_behind (hd : r.faults.Pairwise fun d e => e.place < d.place)
    (hb : ∀ d ∈ r.faults, d.place < r.index) : r.Exact :=
  ⟨hd, fun d hm => Nat.le_of_lt (hb d hm), fun d hm he => absurd he (Nat.ne_of_lt (hb d hm))⟩

theorem exact_shift_of_ne_nil (hd : r.faults.Pairwise fun d e => e.place < d.place)
    (hr : ∀ d ∈ r.faults, d.place ≤ r.index) (hn : r.ahead ≠ []) : r.shift.Exact :=
  exact_of_behind (by simpa using hd) (behind_shift hr hn)

theorem Exact.shift (h : r.Exact) : r.shift.Exact := by
  by_cases hn : r.ahead = []
  · rwa [shift_nil hn]
  · exact exact_shift_of_ne_nil h.descending h.reached hn

end Reading

namespace Runs

variable {allowed : Diagnostic Spot → Prop} {task : Task} {env : Surroundings} {r r' : Reading}

/-- The end of a class warns about a name just after it has read `end` and just before it reads the
name, so nothing else is reported there. -/
theorem exact_classEnd {name : Option String} {opened : Spot}
    (h : Runs allowed (.of (Grammar.classEnd name opened)) env r r') (hr : r.Exact) : r'.Exact := by
  replace h := runs_look.mp h
  split at h
  · rename_i he
    have hn : r.ahead ≠ [] := Lookahead.ahead_ne_nil_of_sees he (by decide)
    obtain ⟨m, hm, h⟩ := runs_seq_cons.mp h
    rw [runs_shift.mp hm] at h
    have hb := Reading.behind_shift hr.reached hn
    replace h := runs_look.mp h
    split at h
    · rename_i hi
      have hn' : r.shift.ahead ≠ [] := Lookahead.ahead_ne_nil_of_sees hi (by decide)
      obtain ⟨w, hw, h⟩ := runs_seq_cons.mp h
      obtain ⟨x, hx, h⟩ := runs_seq_cons.mp h
      rw [runs_seq_nil.mp h, runs_shift.mp hx]
      have hd : r.shift.faults.Pairwise fun d e => e.place < d.place := by simpa using hr.descending
      have hs : r.shift.shift.Exact :=
        Reading.exact_shift_of_ne_nil hd (fun d hd => Nat.le_of_lt (hb d hd)) hn'
      split at hw
      · split at hw
        · rwa [runs_done.mp hw]
        · obtain ⟨-, rfl⟩ := runs_report.mp hw
          obtain ⟨hd, hr⟩ := Reading.pairwise_report hd hb
            (d := Grammar.endNameMismatch (r.shift.look env) _ opened) rfl
          exact Reading.exact_shift_of_ne_nil hd (by simpa using hr) (by simpa using hn')
      · rwa [runs_done.mp hw]
    · replace h := runs_look.mp h
      obtain ⟨-, rfl⟩ := runs_report.mp h
      exact hr.shift.report rfl rfl
  · obtain ⟨-, rfl⟩ := runs_report.mp h
    exact hr.report rfl rfl

/-- Reports at the place reached keep diagnostics at places further and further on. -/
theorem exact (h : Runs allowed task env r r') (ht : task.Meets .prompt (r.look env))
    (hr : r.Exact) : r'.Exact := by
  induction h with
  | done | stop _ => exact hr
  | andThen _ _ ihp ihq => exact ihq (ht.2 _ _) (ihp ht.1 hr)
  | shift => exact hr.shift
  | group _ ih =>
    obtain ⟨hd, hi, he⟩ := ih ht ⟨hr.1, hr.2, hr.3⟩
    exact ⟨hd, hi, he⟩
  | wrap _ ih =>
    obtain ⟨hd, hi, he⟩ := ih ht.2 hr
    exact ⟨hd, hi, he⟩
  | @look next env r r' h ih =>
    by_cases hw : Demand.prompt.whole (.look next)
    · obtain ⟨name, opened, he⟩ := hw
      exact (he ▸ Runs.look h).exact_classEnd hr
    · exact ih (ht.2 hw) hr
  | many _ ih => exact ih ht hr
  | turn hc _ _ ihi ihr => exact ihr (fun _ _ => ht _ _) (ihi ((ht _ _).2 hc _) hr)
  | @call rule _ _ _ _ ih => exact ih (rule.prompt_production _) hr
  | report _ => exact hr.report ht.1 ht.2
  | inContext _ ih | opening _ ih => exact ih ht hr
  | within _ _ ih => exact ih ht.1 hr
  | beyond _ _ ih => exact ih ht.2 hr

end Runs

/-! ## Spans -/

namespace Token

theorem width_concat_cons (t : Token) (ts : List Token) :
    Modelica.width (concat (t :: ts)).toList = t.width + Modelica.width (concat ts).toList := by
  rw [concat_cons, String.toList_append, width_append, width]

theorem stop_placeFrom (offset : Nat) (position : Position) (ts : List Token) :
    ((placeFrom offset position ts).getLast?.map (·.span.stop)).getD offset =
      offset + Modelica.width (concat ts).toList := by
  induction ts generalizing offset position with
  | nil => rfl
  | cons t ts ih =>
    have h := ih (offset + t.width) (position.advance t.text)
    cases ts with
    | nil => simp [placeFrom, concat, width]
    | cons u us =>
      -- With tokens left, the default does not matter.
      have hs :
          (placeFrom (offset + t.width) (position.advance t.text) (u :: us)).getLast?.isSome := by
        simp [placeFrom]
      obtain ⟨last, hlast⟩ := Option.isSome_iff_exists.mp hs
      rw [hlast] at h
      rw [placeFrom, List.getLast?_cons_of_ne_nil (by simp [placeFrom]), hlast,
        width_concat_cons, ← Nat.add_assoc]
      exact h

/-- Some tokens, placed where others stop. -/
theorem placeFrom_append (offset : Nat) (position : Position) (ts us : List Token) :
    ∃ position', placeFrom offset position (ts ++ us) = placeFrom offset position ts ++
      placeFrom (offset + Modelica.width (concat ts).toList) position' us := by
  induction ts generalizing offset position with
  | nil => exact ⟨position, rfl⟩
  | cons t ts ih =>
    obtain ⟨position', h⟩ := ih (offset + t.width) (position.advance t.text)
    refine ⟨position', ?_⟩
    rw [List.cons_append, placeFrom, h, width_concat_cons, ← Nat.add_assoc]
    rfl

/-- The tokens of a text start at different offsets. -/
theorem pairwise_start_place (text : String) :
    (place (tokenize text)).Pairwise fun p q => p.span.start < q.span.start :=
  (placeFrom_pairwise 0 .origin (tokenize text)).imp_of_mem fun hp _ h =>
    Nat.lt_of_lt_of_le (placeFrom_start_lt_stop (fun _ ht => cut_width_pos ht) hp) h

theorem start_place_inj {text : String} {p q : PlacedToken} (hp : p ∈ place (tokenize text))
    (hq : q ∈ place (tokenize text)) (h : p.span.start = q.span.start) : p = q := by
  have hn : ((place (tokenize text)).map (·.span.start)).Nodup :=
    List.pairwise_map.mpr ((pairwise_start_place text).imp Nat.ne_of_lt)
  exact List.inj_on_of_nodup_map hn hp hq h

end Token

namespace Landmarks

theorem stop_ofTokens (text : String) : (ofTokens (tokenize text)).stop = width text.toList := by
  have h := Token.stop_placeFrom 0 .origin (tokenize text)
  rw [concat_tokenize, Nat.zero_add] at h
  exact h

/-- No token starts at the end of its text. -/
theorem start_lt_width {text : String} {t : PlacedToken} (ht : t ∈ Token.place (tokenize text)) :
    t.span.start < width text.toList := by
  have hw : ∀ p ∈ Token.place (tokenize text), p.span.start < p.span.stop :=
    fun p => Token.placeFrom_start_lt_stop fun t ht => Token.cut_width_pos ht
  rw [← stop_ofTokens]
  exact Nat.lt_of_lt_of_le (hw t ht) (stop_le_last (Token.placeFrom_pairwise 0 .origin _) hw ht)

/-- A place is a significant token or the end of the text. -/
theorem span_ofTokens (text : String) (i : Spot) :
    (∃ t ∈ Token.place (tokenize text), t.isSignificant = true ∧
      (ofTokens (tokenize text)).span i = t.span) ∨
    (ofTokens (tokenize text)).span i = .point (width text.toList) := by
  rw [← stop_ofTokens]
  unfold span
  cases h : (ofTokens (tokenize text)).spans[i]? with
  | none => exact .inr rfl
  | some s =>
    obtain ⟨t, ht, rfl⟩ := List.mem_map.mp (List.mem_of_getElem? h)
    exact .inl ⟨t, List.mem_filter.mp ht |>.1, List.mem_filter.mp ht |>.2, rfl⟩

/-- No place of a text is past its end. -/
theorem start_span_le_width (text : String) (i : Spot) :
    ((ofTokens (tokenize text)).span i).start ≤ width text.toList := by
  rcases span_ofTokens text i with ⟨t, ht, -, hspan⟩ | hspan <;> rw [hspan]
  · exact Nat.le_of_lt (start_lt_width ht)
  · exact Nat.le_refl _

end Landmarks

/-- No two diagnostics start at one offset. Each bad token has a lexical one, which says what is
wrong with it and stands at it, and every other diagnostic, with all that it relates to, is at a
significant token or at the end of the text. -/
structure Parse.Exact (p : Parse) (text : String) : Prop where
  increasing : p.faults.Pairwise fun d e => d.place.start < e.place.start
  lexical : p.faults.filter (·.code.isLexical) =
    ((Token.place (tokenize text)).filter (·.kind == .error)).map fun t =>
      .ofCode (Token.causeOf t.text.toList) t.span
  placed : ∀ d ∈ p.faults, d.code.isLexical = false →
    ∀ span ∈ d.place :: d.related.map (·.place),
      (∃ t ∈ Token.place (tokenize text), t.isSignificant = true ∧ span = t.span) ∨
        span = .point (width text.toList)

theorem lexicalFaults_eq (tokens : List Token) : lexicalFaults tokens =
    ((Token.place tokens).filter (·.kind == .error)).map fun t =>
      .ofCode (Token.causeOf t.text.toList) t.span := by
  unfold lexicalFaults
  induction Token.place tokens with
  | nil => rfl
  | cons t ts ih =>
    by_cases ht : t.kind = .error <;> simp_all [Token.fault?]

namespace Parse

variable {p : Production}

/-- The diagnostics of a reading, in the order of their reports. -/
def reported (p : Production) (limit : Nat) (text : String) : List (Diagnostic Span) :=
  (p.read limit (Token.significant (tokenize text))).faults.reverse.map
    (Diagnostic.map (Landmarks.ofTokens (tokenize text)).span)

/-- Spans start in the order of their tokens, so reports further on start further on. -/
theorem pairwise_reported (ht : p.Tame) (hm : ∀ v, p.Meets .prompt v) (limit : Nat)
    (text : String) :
    (reported p limit text).Pairwise fun d e => d.place.start < e.place.start := by
  have hrun := p.runs_read ht limit (Token.significant (tokenize text))
  have hx := hrun.exact (hm _) (Reading.exact_start _)
  have hl := hrun.leads.2
  refine List.pairwise_map.mpr ((List.pairwise_reverse.mpr hx.descending).imp_of_mem ?_)
  intro d e _ he (hde : d.place < e.place)
  refine Landmarks.start_span_lt (Landmarks.ordered_ofTokens text) ?_ hde
  have hr := hx.reached e (List.mem_reverse.mp he)
  rw [Landmarks.length_spans_ofTokens]
  have hi : (p.read limit (Token.significant (tokenize text))).index ≤
      (Token.significant (tokenize text)).length := Nat.le_of_add_left_le (Nat.le_of_eq hl)
  exact Nat.lt_of_lt_of_le hde (Nat.le_trans hr hi)

theorem pairwise_lexical (text : String) :
    (lexicalFaults (tokenize text)).Pairwise fun d e => d.place.start < e.place.start := by
  rw [lexicalFaults_eq]
  exact List.pairwise_map.mpr ((Token.pairwise_start_place text).filter _)

/-- A bad token is neither significant nor at the end of the text. -/
theorem start_ne_of_mem {limit : Nat} {text : String} {d e : Diagnostic Span}
    (hd : d ∈ lexicalFaults (tokenize text)) (he : e ∈ reported p limit text) :
    d.place.start ≠ e.place.start := by
  rw [lexicalFaults_eq] at hd
  obtain ⟨t, ht, rfl⟩ := List.mem_map.mp hd
  obtain ⟨c, -, rfl⟩ := List.mem_map.mp he
  obtain ⟨hm, hk⟩ := List.mem_filter.mp ht
  intro hs
  simp only [Diagnostic.ofCode, Diagnostic.map] at hs
  rcases Landmarks.span_ofTokens text c.place with ⟨u, hu, hsig, hspan⟩ | hspan <;>
    rw [hspan] at hs
  · cases Token.start_place_inj hm hu hs
    simp [Token.isSignificant, Kind.isSignificant, beq_iff_eq.mp hk] at hsig
  · exact absurd hs (Nat.ne_of_lt (Landmarks.start_lt_width hm))

/-- The grammar leaves the lexical codes to the bad tokens. -/
theorem isLexical_of_mem_reported (ht : p.Tame) (hr : p.Reports Code.Grammatical) {limit : Nat}
    {text : String} {d : Diagnostic Span} (hd : d ∈ reported p limit text) :
    d.code.isLexical = false := by
  obtain ⟨c, hc, rfl⟩ := List.mem_map.mp hd
  have hrun := (p.runs_read ht limit (Token.significant (tokenize text))).grammatical hr
  exact (Code.grammatical_iff _).mp <|
    hrun.forall_faults (fun _ h => nomatch h) c (List.mem_reverse.mp hc)

/-- A production whose diagnostics are at the place reached gives an exact parse. -/
theorem exact_ofProduction (ht : p.Tame) (hr : p.Reports Code.Grammatical)
    (hm : ∀ v, p.Meets .prompt v) (limit : Nat) (text : String) :
    (ofProduction p limit text).Exact text := by
  have hf : (ofProduction p limit text).faults =
    inOrder (lexicalFaults (tokenize text) ++ reported p limit text) := rfl
  constructor
  · have hs : (ofProduction p limit text).faults.Pairwise fun d e =>
        d.place.start ≤ e.place.start := pairwise_inOrder _
    have hn : (ofProduction p limit text).faults.Pairwise fun d e =>
        d.place.start ≠ e.place.start := by
      rw [hf]
      refine ((List.mergeSort_perm _ _).pairwise_iff fun h => Ne.symm h).mpr ?_
      refine List.pairwise_append.mpr ⟨(pairwise_lexical text).imp Nat.ne_of_lt,
        (pairwise_reported ht hm limit text).imp Nat.ne_of_lt,
        fun d hd e he => start_ne_of_mem hd he⟩
    exact hs.imp₂ (fun _ _ => Nat.lt_of_le_of_ne) hn
  · have hg : (reported p limit text).filter (·.code.isLexical) = [] := by
      refine List.filter_eq_nil_iff.mpr fun d hd => ?_
      simp [isLexical_of_mem_reported ht hr hd]
    have hl : (lexicalFaults (tokenize text)).filter (·.code.isLexical) =
        lexicalFaults (tokenize text) :=
      List.filter_eq_self.mpr fun d hd => isLexical_of_mem_lexicalFaults hd
    rw [hf, filter_inOrder, List.filter_append, hg, hl, List.append_nil, ← lexicalFaults_eq]
    exact List.mergeSort_of_pairwise <| (pairwise_lexical text).imp fun h => by
      simpa using Nat.le_of_lt h
  · intro d hd hc span hs
    rw [hf] at hd
    rcases List.mem_append.mp (List.mem_mergeSort.mp hd) with hd | hd
    · rw [isLexical_of_mem_lexicalFaults hd] at hc
      cases hc
    · obtain ⟨c, -, rfl⟩ := List.mem_map.mp hd
      obtain ⟨i, rfl⟩ : ∃ i, span = (Landmarks.ofTokens (tokenize text)).span i := by
        rcases List.mem_cons.mp hs with rfl | hs
        · exact ⟨_, rfl⟩
        · obtain ⟨place, hp, rfl⟩ := List.mem_map.mp hs
          obtain ⟨related, -, rfl⟩ := List.mem_map.mp hp
          exact ⟨_, rfl⟩
      exact Landmarks.span_ofTokens text i

end Parse

/-- The tree that becomes the root has no part in what is asked of the diagnostics. -/
theorem Parse.Exact.of_faults {p q : Parse} {text : String} (h : p.Exact text)
    (he : q.faults = p.faults) : q.Exact text :=
  ⟨he ▸ h.increasing, he ▸ h.lexical, he ▸ h.placed⟩

theorem FragmentRule.reports_scratch (rule : FragmentRule) :
    rule.scratch.Reports Code.Grammatical := by
  cases rule <;> simp [scratch, production, startingWith]

theorem Parse.exact_storedDefinition (limit : Nat) (text : String) :
    (ofProduction (.call .storedDefinition) limit text).Exact text :=
  exact_ofProduction (p := .call .storedDefinition) True.intro True.intro
    (fun _ => True.intro) limit
    text

theorem Parse.exact_scratch (rule : FragmentRule) (limit : Nat) (text : String) :
    (ofProduction rule.scratch limit text).Exact text :=
  exact_ofProduction rule.tame_scratch rule.reports_scratch rule.prompt_scratch limit text

/-- The diagnostics of every parse are exact: of a whole text within any bound on nesting, and of
any fragment, also within any bound. -/
theorem parses_exact (text : String) :
    (parse text).Exact text ∧
      (∀ limit, ∃ p, parseWith ⟨limit, false⟩ text = .ok p ∧ p.Exact text) ∧
      ∀ rule : FragmentRule, (parseFragment rule text).parse.Exact text ∧
        ∀ limit, (Parse.ofProduction rule.scratch limit text).Exact text := by
  refine ⟨Parse.exact_storedDefinition _ text, fun limit => ?_, fun rule => ⟨?_, fun limit => ?_⟩⟩
  · exact ⟨_, rfl, Parse.exact_storedDefinition limit text⟩
  · exact (Parse.exact_scratch rule _ text).of_faults (parseFragment_faults rule text)
  · exact Parse.exact_scratch rule limit text

end Modelica
