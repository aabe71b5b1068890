import Modelica.Parse
import Modelica.Proofs.Termination

/-!
# What nests too deep

Beyond the bound on levels an item of a body is skipped up to its `;`, not through it. The next
item then starts at that `;` and reads nothing, and an item that reads nothing costs all tokens
that are left. So a section whose first item nests too deep takes the rest of the text in.
-/

namespace Modelica

open Production

namespace Token

/-- The tokens that end what is skipped. -/
def endsNested (k : Kind) : Bool := closesGroup k || k == .semicolon

theorem headKind_drop_nestedExtent (depth : Nat) (ts : List Token)
    (h : ts.drop (nestedExtent depth ts) ≠ []) :
    endsNested (headKind (ts.drop (nestedExtent depth ts))) = true := by
  induction ts generalizing depth with
  | nil => simp at h
  | cons t ts ih =>
    unfold nestedExtent at h ⊢
    split at h
    · rename_i ho
      simp only [ho, ↓reduceIte, Nat.add_comm 1, List.drop_succ_cons] at h ⊢
      exact ih _ h
    · rename_i ho
      split at h
      · rename_i hc
        cases depth with
        | zero => simp [ho, hc, headKind, endsNested]
        | succ d =>
          simp only [ho, hc, ↓reduceIte, Nat.add_comm 1, List.drop_succ_cons] at h ⊢
          exact ih _ h
      · rename_i hc
        split at h
        · rename_i hs
          obtain ⟨hk, rfl⟩ := hs
          simp [hk, headKind, endsNested, opensGroup, closesGroup]
        · rename_i hs
          simp only [ho, hc, hs, ↓reduceIte, Nat.add_comm 1, List.drop_succ_cons] at h ⊢
          exact ih _ h

/-- Nothing more is skipped from there. -/
theorem nestedExtent_eq_zero {ts : List Token} (h : endsNested (headKind ts) = true) :
    nestedExtent 0 ts = 0 := by
  cases ts with
  | nil => rfl
  | cons t ts =>
    simp only [endsNested, headKind, Bool.or_eq_true, beq_iff_eq] at h
    have ho : opensGroup t.kind = false := by
      rcases h with h | h
      · cases hk : t.kind <;> simp [closesGroup, hk] at h <;> rfl
      · rw [h]; rfl
    unfold nestedExtent
    rw [if_neg (by simp [ho])]
    split
    · rfl
    · rename_i hc
      have hs : t.kind = .semicolon := h.resolve_left hc
      simp [hs]

end Token

namespace Lookahead

/-- Such a token ends no body and starts no block. -/
theorem bodyEnds_eq_false {v : Lookahead} (h : Token.endsNested v.kind = true)
    (category : Category) : v.bodyEnds category = false := by
  have hcases : v.kind = .rParen ∨ v.kind = .rBracket ∨ v.kind = .rBrace ∨ v.kind = .semicolon := by
    simp only [Token.endsNested, Bool.or_eq_true, beq_iff_eq] at h
    rcases h with h | h
    · cases hk : v.kind <;> simp [Token.closesGroup, hk] at h <;> simp
    · simp [h]
  rcases hcases with h | h | h | h <;>
    simp [bodyEnds, atSectionBoundary, isClauseKeyword, clauseOwner?, h]

end Lookahead

/-- An item of a repetition, and what is done where it reads nothing. -/
def Production.checked (p : Production) : Production :=
  look fun start => andThen p <| look fun v =>
    if v.index = start.index ∧ !v.atEnd then
      skipUntil .unexpectedToken
        ("unexpected " ++ v.kind.displayName ++ " " ++ v.context.description) []
    else done

theorem Production.repeatUntil_eq (stop : Lookahead → Bool) (p : Production) :
    repeatUntil stop p = many (fun v => !v.atEnd && !stop v) fun _ => p.checked := rfl

namespace Runs

variable {allowed : Diagnostic Spot → Prop} {env : Surroundings} {r r' m : Reading}
variable {p : Production}

theorem ahead_of_shifts {n : Nat} (h : Runs allowed (.of (shifts n)) env r r') :
    r'.ahead = r.ahead.drop n := by
  induction n generalizing r with
  | zero => rw [runs_done.mp h, List.drop_zero]
  | succ n ih =>
    obtain ⟨m, hs, hm⟩ := runs_andThen.mp h
    rw [ih hm, runs_shift.mp hs]
    cases ha : r.ahead with
    | nil => rw [Reading.shift_nil ha, ha, List.drop_nil, List.drop_nil]
    | cons t ts => rw [Reading.shift_cons ha, List.drop_succ_cons]

/-- With nothing to stop at, skipping goes to the end of the input. -/
theorem atEnd_of_skipUntil {code : Code} {message : String}
    (h : Runs allowed (.of (skipUntil code message [])) env r r') :
    (r'.look env).atEnd = true := by
  obtain ⟨m, -, hm⟩ := runs_andThen.mp h
  replace hm := runs_look.mp hm
  split at hm
  · rename_i he
    rw [runs_done.mp hm]
    exact he
  · obtain ⟨w, hw, rfl⟩ := runs_node.mp hm
    obtain ⟨x, -, hx⟩ := runs_seq_cons.mp hw
    have hstop : (!(w.look env).atEnd && !(w.look env).seesAny []) = false :=
      (runs_many.mp hx).test_eq_false
    have he : (w.look env).atEnd = true := by simpa [Lookahead.seesAny] using hstop
    exact he

/-- A turn that reads nothing ends at the end of the input. -/
theorem cases_of_checked (h : Runs allowed (.of p.checked) env r m) :
    ∃ w, Runs allowed (.of p) env r w ∧
      ((m.look env).atEnd = true ∨ (m = w ∧
        (w.ahead.length = r.ahead.length → (r.look env).atEnd = true))) := by
  obtain ⟨w, hw, hskip⟩ := runs_andThen.mp (runs_look.mp h)
  refine ⟨w, hw, ?_⟩
  replace hskip := runs_look.mp hskip
  split at hskip
  · exact .inl (atEnd_of_skipUntil hskip)
  · rename_i hn
    refine .inr ⟨runs_done.mp hskip, fun hl => ?_⟩
    have hlook : w.look env = r.look env := hw.leads.look_eq hl
    rw [hlook] at hn
    simpa using hn

/-- At the end of the input a repetition has no further turn. -/
theorem eq_of_rest_atEnd {stop : Lookahead → Bool} {item : Option Lookahead → Production}
    {before : Option Lookahead}
    (h : Runs allowed (.rest (fun v => !v.atEnd && !stop v) item before) env r r')
    (he : (r.look env).atEnd = true) : r' = r := by
  cases h with
  | stop _ => rfl
  | turn hc => simp [he] at hc

/-- Where an item reads nothing, all that is left is lost. -/
theorem atEnd_of_stall {stop : Lookahead → Bool} {before : Option Lookahead}
    (h : Runs allowed (.rest (fun v => !v.atEnd && !stop v) (fun _ => p.checked) before) env r r')
    (hp : ∀ m, Runs allowed (.of p) env r m → m.ahead.length = r.ahead.length)
    (hs : stop (r.look env) = false) : (r'.look env).atEnd = true := by
  cases h with
  | stop hc => simpa [hs] using hc
  | turn hc hi hr =>
    rename_i m
    obtain ⟨w, hw, he | ⟨rfl, hn⟩⟩ := cases_of_checked hi
    · rw [eq_of_rest_atEnd hr he]
      exact he
    · have he := hn (hp _ hw)
      simp [he] at hc

theorem ahead_of_skipNested (h : Runs allowed (.of skipNested) env r r') :
    r'.ahead = r.ahead.drop (Token.nestedExtent 0 r.ahead) := by
  obtain ⟨m, hf, hm⟩ := runs_andThen.mp h
  obtain ⟨-, rfl⟩ := runs_report.mp (runs_look.mp hf)
  obtain ⟨w, hw, rfl⟩ := runs_node.mp (runs_look.mp hm)
  have hd := ahead_of_shifts hw
  simpa [Reading.look] using hd

theorem ahead_of_item_beyond {family : Family} (hd : env.limit ≤ env.depth)
    (h : Runs allowed (.of (.call (.item family))) env r r') :
    r'.ahead = r.ahead.drop (Token.nestedExtent 0 r.ahead) := by
  have hitem : ∀ q, Runs allowed (.of (deeper q)) env r r' →
      r'.ahead = r.ahead.drop (Token.nestedExtent 0 r.ahead) := by
    intro q hq
    cases hq with
    | within hl _ => omega
    | beyond _ hs => exact ahead_of_skipNested hs
  replace h := runs_call.mp h
  cases family with
  | equations => exact hitem _ (runs_call.mp h)
  | statements => exact hitem _ (runs_call.mp h)

/-- The repetition of items that are skipped goes to the end of the input. -/
theorem atEnd_of_skipped {stop : Lookahead → Bool} (place : Lookahead → Prop)
    (hp : ∀ r m, place (r.look env) → Runs allowed (.of p) env r m →
      m.ahead = r.ahead.drop (Token.nestedExtent 0 r.ahead))
    (hends : ∀ v : Lookahead, Token.endsNested v.kind = true → place v ∧ stop v = false)
    (h : Runs allowed (.of (repeatUntil stop p)) env r r') (hplace : place (r.look env))
    (hs : stop (r.look env) = false) : (r'.look env).atEnd = true := by
  replace h := runs_many.mp (repeatUntil_eq stop p ▸ h)
  cases h with
  | stop hc => simpa [hs] using hc
  | turn hc hi hr =>
    rename_i m
    obtain ⟨w, hw, he | ⟨rfl, -⟩⟩ := cases_of_checked hi
    · rw [eq_of_rest_atEnd hr he]
      exact he
    · have ha := hp r m hplace hw
      by_cases hn : m.ahead = []
      · have he : (m.look env).atEnd = true := by
          simp [Reading.look, Lookahead.atEnd, Lookahead.sees, Lookahead.kind, hn, Token.headKind]
        rw [eq_of_rest_atEnd hr he]
        exact he
      · -- The first item has stopped before a `;` or a bracket, where the next one reads nothing.
        have hk : Token.endsNested (m.look env).kind = true := by
          have := Token.headKind_drop_nestedExtent 0 r.ahead (ha ▸ hn)
          simpa [Reading.look, Lookahead.kind, ha] using this
        have hz : Token.nestedExtent 0 m.ahead = 0 := Token.nestedExtent_eq_zero hk
        refine atEnd_of_stall hr (fun w hw => ?_) (hends _ hk).2
        rw [hp m w (hends _ hk).1 hw, hz, List.drop_zero]

end Runs

theorem Lookahead.atBlockEnd_eq_false {v : Lookahead} {category : Category}
    (h : v.bodyEnds category = false) : v.atBlockEnd = false := by
  cases hb : v.atBlockEnd with
  | false => rfl
  | true =>
    have he : v.kind = .endKw := by
      simp only [atBlockEnd, Bool.and_eq_true, sees, beq_iff_eq] at hb
      exact hb.1
    simp [bodyEnds, atSectionBoundary, he] at h

/-- Where no equation or statement may be read any more, the body of a block and a section take
in all that is left of the text, unless they end at once. -/
theorem items_take_rest {family : Family} {env : Surroundings} {r r' : Reading}
    (hd : env.limit ≤ env.depth)
    (h : Runs anyReport (.of (.call (.body family))) env r r' ∨
      Runs anyReport (.of (.call (.sectionBody family))) env r r')
    (hs : (r.look env).bodyEnds family.category = false) : (r'.look env).atEnd = true := by
  have hends : ∀ v : Lookahead, Token.endsNested v.kind = true →
      v.bodyEnds family.category = false := fun v hv => Lookahead.bodyEnds_eq_false hv _
  rcases h with h | h
  · refine Runs.atEnd_of_skipped (fun _ => True) (fun r m _ hm => ?_) (fun v hv => ?_)
      (runs_call.mp h) trivial hs
    · exact Runs.ahead_of_item_beyond hd hm
    · exact ⟨trivial, hends v hv⟩
  · refine Runs.atEnd_of_skipped (fun v => v.bodyEnds family.category = false)
      (fun r m hr hm => ?_) (fun v hv => ?_) (runs_call.mp h) hs ?_
    · replace hm := runs_look.mp hm
      rw [if_neg (by simp [Lookahead.atBlockEnd_eq_false hr])] at hm
      exact Runs.ahead_of_item_beyond hd hm
    · exact ⟨hends v hv, by simp [hends v hv]⟩
    · simp [hs]

/-- The second equation goes the way of the first. -/
theorem items_take_rest_section :
    (((Production.call (.sectionBody .equations)).read 0
      (Token.significant (tokenize "a = b; c = d;"))).look ⟨.topLevel, [], 0, 0⟩).atEnd = true :=
  items_take_rest (Nat.le_refl 0)
    (.inr (Production.runs_read (.call (.sectionBody .equations)) True.intro 0 _))
    (by decide +kernel)

/-- The texts of the class definition clauses of a parse. -/
def Parse.classTexts (p : Parse) : List String :=
  (p.tree.children.filter (·.kind == .classDefinitionClause)).map Tree.text

/-- Both texts are well-formed, the second within the bound, but after the first one the class of
the second is not found. -/
theorem parseWith_loses_class :
    (parse "model A equation a = b; end A;").ok = true ∧
      ∃ p q, parseWith ⟨1, false⟩ "model B end B;" = .ok p ∧ p.ok = true ∧
        parseWith ⟨1, false⟩
          ("model A equation a = b; end A;" ++ "\n" ++ "model B end B;") = .ok q ∧
        ¬ p.classTexts <:+ q.classTexts := by
  refine ⟨by decide +kernel, _, _, rfl, by decide +kernel, rfl, ?_⟩
  decide +kernel

end Modelica
