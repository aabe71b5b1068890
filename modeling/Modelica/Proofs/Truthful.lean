import Modelica.Proofs.Exactness

/-!
# Errors tell what comes

Every error of the grammar says what stands at its place: the kind of the token, or nothing at the
end of the text. It does not expect what it has found. Only the two diagnostics about the ends of
blocks that `Diagnostic.Tells` names differ.
-/

namespace Modelica

/-- If it is an error, the diagnostic is at a place that is read on the way from `start`, and tells
what comes there. -/
def Reading.Learns (start : Reading) (d : Diagnostic Spot) : Prop :=
  d.isError = true → ∃ m env, start.Leads m ∧ d.place = m.index ∧ d.Tells (m.look env)

def Task.Tells : Task → Lookahead → Prop
  | of p, v => p.Tells v
  | rest continues item _, v => (Production.many continues item).Tells v

namespace Runs

variable {allowed : Diagnostic Spot → Prop} {task : Task} {env : Surroundings} {r r' : Reading}

theorem halts {p : Production} (h : Runs allowed (.of p) env r r') : p.Halts (r'.look env) := by
  cases p with
  | many => exact (runs_many.mp h).test_eq_false
  | _ => trivial

/-- The errors of a run tell what comes at their places. -/
theorem telling {start : Reading} (h : Runs allowed task env r r') (ht : task.Tells (r.look env))
    (hs : start.Leads r) : Runs start.Learns task env r r' := by
  induction h with
  | done => exact .done
  | andThen hp _ ihp ihq =>
    exact .andThen (ihp ht.1 hs) (ihq (ht.2 _ _ hp.halts) (hs.trans hp.leads))
  | shift => exact .shift
  | group _ ih => exact .group (ih ht hs)
  | wrap _ ih => exact .wrap (ih ht hs)
  | look _ ih => exact .look (ih ht hs)
  | many _ ih => exact .many (ih ht hs)
  | stop hc => exact .stop hc
  | turn hc hi _ ihi ihr =>
    exact .turn hc (ihi (ht _ _ hc _) hs) (ihr (fun _ _ => ht _ _) (hs.trans hi.leads))
  | call _ ih => exact .call (ih Nonterminal.tells_production hs)
  | @report fault env r _ => exact .report fun he => ⟨r, env, hs, ht he⟩
  | inContext _ ih => exact .inContext (ih ht hs)
  | opening _ ih => exact .opening (ih ht hs)
  | within hd _ ih => exact .within hd (ih ht.1 hs)
  | beyond hd _ ih => exact .beyond hd (ih ht.2 hs)

end Runs

/-- What is ahead in the middle of a list of tokens. -/
theorem Reading.ahead_of_leads_start {tokens : List Token} {r : Reading}
    (h : (start tokens).Leads r) : r.ahead = tokens.drop r.index := by
  obtain ⟨hs, hl⟩ := h
  rw [List.suffix_iff_eq_drop.mp hs]
  simp only [start] at hl ⊢
  congr 1
  omega

/-- The significant tokens of a text where they stand. -/
def Token.landmarks (text : String) : List PlacedToken :=
  (place (tokenize text)).filter (·.isSignificant)

theorem Token.map_filter_placeFrom (offset : Nat) (position : Position) (ts : List Token) :
    ((placeFrom offset position ts).filter (·.isSignificant)).map PlacedToken.toToken =
      significant ts := by
  conv => rhs; rw [← map_placeFrom offset position ts, significant, List.filter_map]
  rfl

theorem Token.map_landmarks (text : String) :
    (landmarks text).map PlacedToken.toToken = significant (tokenize text) :=
  map_filter_placeFrom 0 .origin (tokenize text)

theorem Landmarks.span_eq (text : String) (i : Spot) : (ofTokens (tokenize text)).span i =
    ((Token.landmarks text)[i]?.map (·.span)).getD (.point (width text.toList)) := by
  rw [← stop_ofTokens, ← List.getElem?_map]
  rfl

/-- What an error of the grammar says of the text. -/
structure Diagnostic.Truthful (d : Diagnostic Span) (text : String) : Prop where
  /-- Nothing is found at the end of the text and only there. -/
  nothing : d.found = none ↔ d.place = .point (width text.toList)
  /-- Elsewhere it is the token at the place that is found. What complains about the keyword of a
  block end stands at the `end` and has found the keyword. -/
  something : d.place ≠ .point (width text.toList) → ∃ before t after,
    Token.landmarks text = before ++ t :: after ∧ d.place = t.span ∧
      (d.found = some t.kind ∨
        t.kind = .endKw ∧ d.code = .mismatchedEnd ∧ ∃ u rest keyword, after = u :: rest ∧
          d.found = some u.kind ∧ u.kind ∈ Kind.blockKeywords ∧ d.expected = [keyword] ∧
          u.kind ≠ keyword)
  /-- What is found is not expected, unless an `end` is missing and the `end` that comes is left for
  something around. -/
  surprise : ∀ k ∈ d.expected, d.found = some k → d.code = .missingEnd ∧ d.expected = [.endKw]

/-- What is reported at the end of the text has found nothing. -/
theorem Diagnostic.Tells.truthful_at_end {d : Diagnostic Span} {text : String} {v : Lookahead}
    (ht : d.Tells v) (ha : v.ahead = []) (hp : d.place = .point (width text.toList)) :
    d.Truthful text := by
  have hk : v.kind = .endOfInput := by rw [Lookahead.kind, ha]; rfl
  have hf : d.found = none := by
    cases ht with
    | next hf _ => simpa [Lookahead.found, Lookahead.atEnd, Lookahead.sees, hk] using hf
    | claimed _ _ _ h | mismatched _ _ _ _ _ h => cases hk.symm.trans h
  refine ⟨iff_of_true hf hp, fun h => absurd hp h, fun _ _ h => ?_⟩
  cases hf.symm.trans h

/-- What is reported at a token has found it, or the keyword after it. -/
theorem Diagnostic.Tells.truthful_at_token {d : Diagnostic Span} {text : String} {v : Lookahead}
    {before after : List PlacedToken} {t : PlacedToken} (ht : d.Tells v)
    (hl : Token.landmarks text = before ++ t :: after)
    (ha : v.ahead = t.toToken :: after.map (·.toToken)) (hp : d.place = t.span) :
    d.Truthful text := by
  have hk : v.kind = t.kind := by rw [Lookahead.kind, ha]; rfl
  have hmem : t ∈ Token.place (tokenize text) :=
    (List.mem_filter.mp (hl ▸ List.mem_append_right before List.mem_cons_self)).1
  have hn : t.kind ≠ .endOfInput := fun he => by
    have hm : t.toToken ∈ tokenize text := by
      rw [← Token.map_placeFrom 0 .origin (tokenize text)]
      exact List.mem_map_of_mem hmem
    exact absurd (he ▸ kind_mem_tokens hm) (by decide)
  have hpoint : d.place ≠ .point (width text.toList) := fun he =>
    absurd (congrArg Span.start (hp.symm.trans he)) (Nat.ne_of_lt (Landmarks.start_lt_width hmem))
  cases ht with
  | next hf he =>
    have hfound : d.found = some t.kind := hf.trans (Production.found_of_kind hk hn)
    exact ⟨iff_of_false (by simp [hfound]) hpoint,
      fun _ => ⟨before, t, after, hl, hp, .inl hfound⟩, fun k hm h => absurd h (he k hm)⟩
  | claimed hc he hf hend =>
    exact ⟨iff_of_false (by simp [hf]) hpoint,
      fun _ => ⟨before, t, after, hl, hp, .inl (by rw [hf, ← hk, hend])⟩, fun _ _ _ => ⟨hc, he⟩⟩
  | mismatched hc he hf hne hmem hend =>
    cases after with
    | nil =>
      simp [Lookahead.nth, Token.kindAt, ha, Token.headKind, Kind.blockKeywords] at hmem
    | cons u rest =>
      have hu : v.nth 1 = u.kind := by rw [Lookahead.nth, Token.kindAt, ha]; rfl
      rw [hu] at hf hne hmem
      refine ⟨iff_of_false (by simp [hf]) hpoint, fun _ => ⟨before, t, _, hl, hp, .inr ?_⟩, ?_⟩
      · exact ⟨hk.symm.trans hend, hc, u, rest, _, rfl, hf, hmem, he, hne⟩
      · intro k hk h
        rw [he, List.mem_singleton] at hk
        exact absurd (Option.some.inj (hf.symm.trans h)) (hk ▸ hne)

/-- What tells the tokens ahead is truthful about the text. -/
theorem Diagnostic.truthful_map_span {text : String} {d : Diagnostic Spot} {v : Lookahead}
    (ha : v.ahead = (Token.significant (tokenize text)).drop v.index) (hp : d.place = v.index)
    (ht : d.Tells v) : (d.map (Landmarks.ofTokens (tokenize text)).span).Truthful text := by
  have hspan := Landmarks.span_eq text v.index
  rw [← Token.map_landmarks, ← List.map_drop] at ha
  have ht' : (d.map (Landmarks.ofTokens (tokenize text)).span).Tells v := by
    cases ht with
    | next hf he => exact .next hf he
    | claimed hc he hf hend => exact .claimed hc he hf hend
    | mismatched hc he hf hne hm hend => exact .mismatched hc he hf hne hm hend
  by_cases hi : v.index < (Token.landmarks text).length
  · rw [List.getElem?_eq_getElem hi] at hspan
    rw [List.drop_eq_getElem_cons hi] at ha
    have hl := (List.take_append_drop v.index (Token.landmarks text)).symm
    rw [List.drop_eq_getElem_cons hi] at hl
    exact ht'.truthful_at_token hl ha (by rw [Diagnostic.map, hp, hspan]; rfl)
  · have hle := Nat.le_of_not_lt hi
    rw [List.getElem?_eq_none hle] at hspan
    rw [List.drop_eq_nil_of_le hle] at ha
    exact ht'.truthful_at_end ha (by rw [Diagnostic.map, hp, hspan]; rfl)

/-- The errors of the grammar are truthful. -/
def Parse.Truthful (p : Parse) (text : String) : Prop :=
  ∀ d ∈ p.faults, d.isError = true → d.code.isLexical = false → d.Truthful text

namespace Parse

theorem mem_faults_of_mem_reported {p : Production} {limit : Nat} {text : String}
    {d : Diagnostic Span} (h : d ∈ reported p limit text) :
    d ∈ (ofProduction p limit text).faults :=
  List.mem_mergeSort.mpr (List.mem_append_right _ h)

theorem truthful_ofProduction {p : Production} (ht : p.Tame) (hp : ∀ v, p.Tells v) (limit : Nat)
    (text : String) : (ofProduction p limit text).Truthful text := by
  intro d hd he hl
  rcases isLexical_or_reported hd with hl' | ⟨e, hm, rfl⟩
  · rw [hl] at hl'
    cases hl'
  have hrun := p.runs_read ht limit (Token.significant (tokenize text))
  obtain ⟨m, env, hs, hi, htells⟩ := (hrun.telling (hp _) (.refl _)).forall_faults
    (fun _ h => nomatch h) e hm he
  exact Diagnostic.truthful_map_span (Reading.ahead_of_leads_start hs) hi htells

theorem truthful_storedDefinition (limit : Nat) (text : String) :
    (ofProduction (.call .storedDefinition) limit text).Truthful text :=
  truthful_ofProduction (p := .call .storedDefinition) True.intro (fun _ => True.intro) limit text

theorem truthful_scratch (rule : FragmentRule) (limit : Nat) (text : String) :
    (ofProduction rule.scratch limit text).Truthful text :=
  truthful_ofProduction rule.tame_scratch rule.tells_scratch limit text

end Parse

/-- The errors of every parse are truthful: of a whole text within any bound on nesting, and of any
fragment, also within any bound. -/
theorem parses_tell (text : String) :
    (parse text).Truthful text ∧
      (∀ limit, ∃ p, parseWith ⟨limit, false⟩ text = .ok p ∧ p.Truthful text) ∧
      ∀ rule : FragmentRule, (parseFragment rule text).parse.Truthful text ∧
        ∀ limit, (Parse.ofProduction rule.scratch limit text).Truthful text := by
  refine ⟨Parse.truthful_storedDefinition _ text, fun limit => ?_, fun rule =>
    ⟨?_, fun limit => ?_⟩⟩
  · exact ⟨_, rfl, Parse.truthful_storedDefinition limit text⟩
  · intro d hd
    exact Parse.truthful_scratch rule _ text d (parseFragment_faults rule text ▸ hd)
  · exact Parse.truthful_scratch rule limit text

/-- The first `if` ends with `end for`: the diagnostic stands at the `end` and has found the `for`.
The second lacks its `end`: the diagnostic expects the `end` that it has found. -/
theorem block_ends_mistold :
    (∃ d ∈ (parse "model M equation if a then b = c; end for; if a then end M;").faults,
      d.isError = true ∧ d.code.isLexical = false ∧
        ∃ t ∈ Token.landmarks "model M equation if a then b = c; end for; if a then end M;",
          d.place = t.span ∧ d.found ≠ some t.kind) ∧
    ∃ d ∈ (parse "model M equation if a then b = c; end for; if a then end M;").faults,
      d.isError = true ∧ d.code.isLexical = false ∧ ∃ k ∈ d.expected, d.found = some k := by
  constructor
  · refine Exists.imp (fun d => And.imp_left Parse.mem_faults_of_mem_reported) ?_
    decide +kernel
  · refine Exists.imp (fun d => And.imp_left Parse.mem_faults_of_mem_reported) ?_
    decide +kernel

end Modelica
