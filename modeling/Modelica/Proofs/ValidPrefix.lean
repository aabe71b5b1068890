import Modelica.Proofs.BlockEnds
import Modelica.Proofs.Joints
import Modelica.Proofs.Parts
import Modelica.Proofs.TwinRules

/-!
# A valid prefix is never reinterpreted

A text without errors keeps its tree and its diagnostics when more comes after a line break. Such a
text ends where a clause does, so its clauses are read alike in front of whatever comes next
(`Runs.storedDefinition_nil`, `Runs.storedDefinition_more`), and what is reported later is reported
from the first of the new tokens on (`Runs.onward`). `extends_of_prolongs` carries both over from
tokens to the bytes of the two texts.
-/

namespace Modelica

open Token (headKind)

/-- What there is to do looks onward from token `n`. -/
def Task.Onward (n : Spot) : Task → Prop
  | of p => p.Onward n
  | rest _ item _ => ∀ before, (item before).Onward n

namespace Reading

/-- From `r` to `r'` nothing is reported before token `n`, and no warning relates to anything
further on than itself. -/
def Onward (n : Spot) (r r' : Reading) : Prop :=
  ∃ later, r'.faults = later ++ r.faults ∧ ∀ d ∈ later, n ≤ d.place ∧
    (d.isError = true ∨ ∀ related ∈ d.related, related.place ≤ d.place)

variable {n k : Spot} {r m r' : Reading}

theorem Onward.of_eq (h : r'.faults = r.faults) : Onward n r r' := ⟨[], h, List.forall_mem_nil _⟩

theorem Onward.trans (h : Onward n r m) (h' : Onward n m r') : Onward n r r' := by
  obtain ⟨as, ha, has⟩ := h
  obtain ⟨bs, hb, hbs⟩ := h'
  exact ⟨bs ++ as, by rw [hb, ha, List.append_assoc], List.forall_mem_append.mpr ⟨hbs, has⟩⟩

theorem Onward.mono (h : Onward k r r') (hn : n ≤ k) : Onward n r r' := by
  obtain ⟨later, hlater, hall⟩ := h
  exact ⟨later, hlater, fun d hd => ⟨hn.trans (hall d hd).1, (hall d hd).2⟩⟩

end Reading

/-- A run reports nothing at what has been read before. -/
theorem Runs.onward {allowed : Diagnostic Spot → Prop} {task : Task} {env : Surroundings}
    {r r' : Reading} {n : Spot} (h : Runs allowed task env r r') (ht : task.Onward n)
    (hn : n ≤ r.index) : r.Onward n r' := by
  induction h generalizing n with
  | done | stop _ => exact .of_eq rfl
  | andThen hp _ ihp ihq => exact (ihp ht.1 hn).trans (ihq ht.2 (hn.trans hp.leads.index_le))
  | shift => exact .of_eq (Reading.shift_faults _)
  | group _ ih | wrap _ ih | many _ ih | inContext _ ih | opening _ ih => exact ih ht hn
  | look _ ih => exact (ih (ht _ hn) (Nat.le_refl _)).mono hn
  | turn _ hi _ ihi ihr => exact (ihi (ht _) hn).trans (ihr ht (hn.trans hi.leads.index_le))
  | @call rule _ _ _ _ ih => exact ih (rule.onward_production n) hn
  | @report fault env r hf =>
    rcases r.report_eq fault with he | ⟨he, -⟩ <;> rw [he]
    · exact .of_eq rfl
    · exact ⟨[fault], rfl, List.forall_mem_singleton.mpr ht⟩
  | within _ _ ih => exact ih ht.1 hn
  | beyond _ _ ih => exact ih ht.2 hn

/-! ## Runs on a prefix -/

section

variable {allowed : Diagnostic Spot → Prop} {s : Setting} {env : Surroundings}
variable {r r' q m : Reading}

/-- If each turn is matched by one in the larger text, then at the end of the text a repetition goes
on in the larger text from where it has come to. -/
theorem Runs.rest_in_setting {continues : Lookahead → Bool} {item : Option Lookahead → Production}
    (hstep : ∀ {before r r' q}, continues (r.look env) = true →
      Runs noError (.of (item before)) env r r' → (r.ahead ≠ [] → s.Bounds r.ahead) → s.Sets r q →
        continues (q.look env) = true ∧
          ∀ before, ∃ q', Runs noError (.of (item before)) env q q' ∧ s.Sets r' q')
    {before before' : Option Lookahead} (h : Runs noError (.rest continues item before) env r r')
    (hb : r.ahead ≠ [] → s.Bounds r.ahead) (hq : s.Sets r q)
    (h' : Runs allowed (.rest continues item before') env q m) (hn : ∀ d, noError d → allowed d) :
    ∃ q' before, s.Sets r' q' ∧ Runs allowed (.rest continues item before) env q' m := by
  generalize htask : Task.rest continues item before = task at h
  induction h generalizing before before' q with
  | stop _ => exact ⟨q, before', hq, h'⟩
  | turn hc hi _ _ ihr =>
    cases htask
    obtain ⟨hc', hmatch⟩ := hstep hc hi hb hq
    obtain ⟨x, hx, hsets⟩ := hmatch before'
    cases h' with
    | stop hn => exact absurd hc' (by simp [hn])
    | turn _ hi' hr' =>
      obtain rfl := hi'.determined (hx.mono hn)
      refine ihr hstep (fun hm => ?_) hsets hr' rfl
      have hs := hi.leads.1
      exact (hb fun hr => hm (List.suffix_nil.mp (hr ▸ hs))).of_suffix hs hm
  | _ => cases htask

/-- A clause at the top level is read alike in a larger text. -/
theorem Runs.clause_in_setting {rule : Nonterminal} (h : Runs noError (.of (.call rule)) env r r')
    (hmay : ∀ stops, rule.mayEnd stops = true) (hb : s.Bounds r.ahead) (hq : s.Sets r q) :
    ∃ q', Runs noError (.of (.call rule)) env q q' ∧ s.Sets r' q' := by
  have htwin : (Production.call rule).Twin s true 0 (.call rule) :=
    Production.twin_call.mpr fun _ => hmay _
  exact h.in_setting htwin (fun _ => hb) (.inr rfl) hq ⟨rfl, Nat.le_refl _⟩

end

open Production

/-- What a stored definition reads over and over. -/
def Grammar.clauseOrError (_ : Option Lookahead) : Production :=
  look fun v =>
    if v.sees .finalKw || v.atClassDefinition then call .classDefinitionClause
    else skipUntil .unexpectedToken
      ("expected " ++ Context.expectation .topLevel ++ ", found " ++ v.kind.displayName)
      (Context.recovery .topLevel)

section

variable {allowed : Diagnostic Spot → Prop} {s : Setting} {env : Surroundings} {ts : List Token}
variable {r r' q : Reading}

/-- A stored definition is a `within` clause, if there is one, and then all clauses. -/
theorem runs_storedDefinition : Runs allowed (.of (.call .storedDefinition)) env (.start ts) r' ↔
    ∃ w m, Runs allowed (.of (.before .withinKw (.call .withinClause))) env (.start ts) w ∧
      Runs allowed (.rest (!·.atEnd) Grammar.clauseOrError none) env w m ∧
        r' = { m with built := [.node .storedDefinition m.built.reverse] } := by
  constructor
  · intro h
    obtain ⟨m, hm, rfl⟩ := runs_node.mp (runs_call.mp h)
    obtain ⟨w, hw, hrest⟩ := runs_seq_cons.mp hm
    exact ⟨w, m, hw, runs_many.mp hrest, rfl⟩
  · rintro ⟨w, m, hw, hrest, rfl⟩
    exact runs_call.mpr (runs_node.mpr ⟨m, runs_seq_cons.mpr ⟨w, hw, .many hrest⟩, rfl⟩)

/-- A `within` clause, if there is one, is read alike in a larger text. -/
theorem Runs.withinClause_in_setting {after : List Token} {w : Reading}
    (h : Runs noError (.of (.before .withinKw (.call .withinClause))) env (.start ts) w)
    (hts : ts ≠ []) (hb : Setting.Bounds ⟨0, after⟩ ts) :
    ∃ q, Runs noError (.of (.before .withinKw (.call .withinClause))) env (.start (ts ++ after)) q ∧
      Setting.Sets ⟨0, after⟩ w q := by
  have hq : Setting.Sets ⟨0, after⟩ (.start ts) (.start (ts ++ after)) := ⟨rfl, rfl, rfl, rfl⟩
  have hwithin : env.Within env := ⟨rfl, Nat.le_refl _⟩
  obtain ⟨v, hv, hv'⟩ := hq.look hwithin hts hb
  have hsees : ((Reading.start (ts ++ after)).look env).sees .withinKw =
      ((Reading.start ts).look env).sees .withinKw := by
    rw [hv', Setting.Place.outer_sees, hv]
  replace h := runs_look.mp h
  split at h
  · rename_i hclause
    obtain ⟨q, hrun, hsets⟩ := h.clause_in_setting (fun _ => rfl) hb hq
    exact ⟨q, .look (by rwa [if_pos (hsees.trans hclause)]), hsets⟩
  · rw [runs_done.mp h]
    exact ⟨_, .look (by rw [if_neg (by rwa [hsees])]; exact .done), hq⟩

/-- A clause that is read without errors is there to be read in a larger text, too. -/
theorem Runs.clauseOrError_in_setting {before : Option Lookahead}
    (hc : (!(r.look env).atEnd) = true)
    (h : Runs noError (.of (Grammar.clauseOrError before)) env r r')
    (hb : r.ahead ≠ [] → s.Bounds r.ahead) (hq : s.Sets r q) :
    (!(q.look env).atEnd) = true ∧
      ∀ before, ∃ q',
        Runs noError (.of (Grammar.clauseOrError before)) env q q' ∧ s.Sets r' q' := by
  have hr : r.ahead ≠ [] := fun hr => by
    simp [Reading.look, hr] at hc
  have hwithin : env.Within env := ⟨rfl, Nat.le_refl _⟩
  obtain ⟨v, hv, hv'⟩ := hq.look hwithin hr (hb hr)
  refine ⟨by rw [hv', Setting.Place.outer_atEnd, hv, hc], fun _ => ?_⟩
  replace h := runs_look.mp h
  rw [← hv] at h
  split at h
  · rename_i hclass
    obtain ⟨q', hq', hsets⟩ := h.clause_in_setting (fun _ => rfl) (hb hr) hq
    refine ⟨q', .look ?_, hsets⟩
    rw [hv', Setting.Place.outer_sees, Setting.Place.outer_atClassDefinition, if_pos hclass]
    exact hq'
  · exact absurd (hopeless_skipUntil _) h.not_fails

/-- A text without tokens is before whatever comes after it. -/
theorem Runs.storedDefinition_nil {after : List Token}
    (h : Runs noError (.of (.call .storedDefinition)) env (.start []) r)
    (h' : Runs anyReport (.of (.call .storedDefinition)) env (.start after) r') :
    ∃ cs more, r.built = [.node .storedDefinition cs] ∧
      r'.built = [.node .storedDefinition (cs ++ more)] ∧ r.Onward 0 r' := by
  have hall := h'.onward True.intro (Nat.le_refl 0)
  obtain ⟨_, _, -, -, rfl⟩ := runs_storedDefinition.mp h'
  have hr : r = { Reading.start [] with built := [.node .storedDefinition []] } :=
    h.determined (runs_storedDefinition.mpr
      ⟨_, _, .look (by exact .done), .stop rfl, rfl⟩)
  subst hr
  exact ⟨[], _, rfl, rfl, hall⟩

end

/-- A stored definition that is read without errors is read alike where more comes after it, and
nothing is reported in it for what comes after. -/
theorem Runs.storedDefinition_more {limit : Nat} {ts after : List Token} {r r' : Reading}
    (h : Runs noError (.of (.call .storedDefinition)) ⟨.topLevel, [], 0, limit⟩ (.start ts) r)
    (hr : r.ahead = [])
    (h' : Runs anyReport (.of (.call .storedDefinition)) ⟨.topLevel, [], 0, limit⟩
      (.start (ts ++ after)) r') :
    ∃ cs more, r.built = [.node .storedDefinition cs] ∧
      r'.built = [.node .storedDefinition (cs ++ more)] ∧ r.Onward ts.length r' := by
  by_cases hts : ts = []
  · subst hts
    exact Runs.storedDefinition_nil h h'
  have hbounds : Setting.Bounds ⟨0, after⟩ ts := by
    obtain ⟨us, -, -, hd⟩ := h.derives_storedDefinition hr
    exact .inl (hd.endsItem rfl hts)
  obtain ⟨w, m, hw, hrest, rfl⟩ := runs_storedDefinition.mp h
  obtain ⟨w', m', hw', hrest', rfl⟩ := runs_storedDefinition.mp h'
  obtain ⟨x, hx, hsets⟩ := hw.withinClause_in_setting hts hbounds
  obtain rfl := hw'.determined (hx.mono fun _ _ => trivial)
  obtain ⟨q, before, hm, hmore⟩ := hrest.rest_in_setting Runs.clauseOrError_in_setting
    (fun hne => hbounds.of_suffix hw.leads.1 hne) hsets hrest' fun _ _ => trivial
  have hindex : m.index = ts.length := by
    have hm : m.ahead = [] := hr
    have hleads := (hw.leads.trans hrest.leads).2
    simpa [hm, Reading.start] using hleads
  have hfaults : q.faults = m.faults := by
    rw [hm.faults]
    exact (List.map_congr_left fun d _ => by simp [Diagnostic.map]).trans (List.map_id _)
  obtain ⟨more, hbuilt⟩ := hmore.built_suffix (by simp [Task.Sheltered, Grammar.clauseOrError])
  refine ⟨m.built.reverse, more.reverse, rfl, ?_, ?_⟩
  · rw [← hbuilt, hm.built, List.reverse_append]
  · have hafter : q.Onward ts.length m' :=
      hmore.onward (Nonterminal.storedDefinition.onward_production ts.length).2
        (by rw [hm.index, hindex]; rfl)
    unfold Reading.Onward at hafter ⊢
    rwa [hfaults] at hafter

/-- The root over a text without errors ends where its last token does. -/
theorem Derives.lastEndsInLeaf_storedDefinition {ends : Kind → Prop} {n : Nat} {ts : List Token}
    {us : List Tree} {k : Kind}
    (h : Derives ends (.rule .storedDefinition) n ts [.node .storedDefinition us] k) :
    us = [] ∨ Tree.lastEndsInLeaf us = true := by
  cases derives_rule.mp h with
  | node hd =>
    by_cases hus : us = []
    · exact .inl hus
    · exact .inr (hd.endsInLeaf rfl hus)

/-! ## The tokens of a longer text -/

namespace Token

/-- A longer text has the tokens of a text up to trivia at its end; trivia that reach over the end
come next, and then there are others. -/
structure Prolongs (text longer : String) (ts trail : List Token) (bridge : Token)
    (others : List Token) : Prop where
  text_tokens : tokenize text = ts ++ trail
  longer_tokens : tokenize longer = ts ++ bridge :: others
  trail_gap : significant trail = []
  bridge_gap : bridge.isSignificant = false
  bridge_good : bridge.kind ≠ .error
  reaches : Modelica.width (concat trail).toList < bridge.width

section

variable {text longer : String} {ts trail others : List Token} {bridge : Token}

/-- A line end after a text without bad tokens. -/
theorem prolongs_newline (hgood : ∀ t ∈ tokenize text, t.kind ≠ .error) (x : String) :
    ∃ ts trail bridge others, Prolongs text (text ++ "\n" ++ x) ts trail bridge others := by
  obtain ⟨ts, w, -, htext, hlonger⟩ := cut_append_blank (c := '\n') rfl hgood (.inl rfl)
  have hchars : (text ++ "\n" ++ x).toList = text.toList ++ '\n' :: x.toList := by simp
  have htokens := hlonger x.toList
  rw [← hchars] at htokens
  refine ⟨ts, blanks w, _, _, htext, htokens, significant_blanks w, rfl, nofun, ?_⟩
  rw [concat_blanks, width, String.toList_ofList, width_append]
  exact Nat.lt_add_of_pos_right (Nat.add_pos_left (Char.utf8Size_pos _) _)

namespace Prolongs

variable (h : Prolongs text longer ts trail bridge others)

include h

theorem significant_text : significant (tokenize text) = significant ts := by
  rw [h.text_tokens, significant_append, h.trail_gap, List.append_nil]

theorem significant_longer :
    significant (tokenize longer) = significant ts ++ significant others := by
  rw [h.longer_tokens, significant_append]
  simp [significant, h.bridge_gap]

theorem width_text : Modelica.width text.toList =
    Modelica.width (concat ts).toList + Modelica.width (concat trail).toList := by
  rw [← concat_tokenize text, h.text_tokens, concat_append, String.toList_append, width_append]

/-- What reaches over the end is followed by tokens past the end. -/
theorem place_longer : ∃ placed later, place (tokenize longer) = place ts ++ placed :: later ∧
    placed.toToken = bridge ∧ ∀ t ∈ later, Modelica.width text.toList < t.span.start := by
  obtain ⟨position, hplace⟩ := placeFrom_append 0 .origin ts (bridge :: others)
  rw [← h.longer_tokens] at hplace
  refine ⟨_, _, hplace, rfl, fun t ht => Nat.lt_of_lt_of_le ?_ (placeFrom_start_le ht)⟩
  rw [h.width_text, Nat.zero_add]
  exact Nat.add_lt_add_left h.reaches _

/-- The tokens of the text that the grammar reads are where they are in the longer one. -/
theorem spans_longer : ∃ later, (Landmarks.ofTokens (tokenize longer)).spans =
    (Landmarks.ofTokens (tokenize text)).spans ++ later ∧
      ∀ s ∈ later, Modelica.width text.toList < s.start := by
  obtain ⟨placed, later, hplace, rfl, hlater⟩ := h.place_longer
  refine ⟨(later.filter (·.isSignificant)).map (·.span), ?_, fun s hs => ?_⟩
  · have htrail : ∀ position, (placeFrom (0 + Modelica.width (concat ts).toList) position
        trail).filter (·.isSignificant) = [] := fun position => by
      refine List.filter_eq_nil_iff.mpr fun t ht => ?_
      have hm : t.toToken ∈ trail := by
        rw [← map_placeFrom _ position trail]
        exact List.mem_map_of_mem ht
      exact List.filter_eq_nil_iff.mp h.trail_gap t.toToken hm
    obtain ⟨position, htext⟩ := placeFrom_append 0 .origin ts trail
    rw [← h.text_tokens, ← place, ← place] at htext
    have hover : (placed :: later).filter (·.isSignificant) = later.filter (·.isSignificant) :=
      List.filter_cons_of_neg (Bool.eq_false_iff.mp h.bridge_gap)
    simp only [Landmarks.ofTokens, hplace, htext, List.filter_append, htrail, hover,
      List.append_nil, List.map_append]
  · obtain ⟨t, ht, rfl⟩ := List.mem_map.mp hs
    exact hlater t (List.mem_filter.mp ht).1

/-- A place in the text is at the same offsets in the longer one. -/
theorem span_eq {i : Spot} (hi : i < (significant ts).length) :
    (Landmarks.ofTokens (tokenize longer)).span i =
      (Landmarks.ofTokens (tokenize text)).span i := by
  obtain ⟨later, hspans, -⟩ := h.spans_longer
  rw [← h.significant_text, ← Landmarks.length_spans_ofTokens] at hi
  rw [Landmarks.span, Landmarks.span, hspans, List.getElem?_append_left hi,
    List.getElem?_eq_getElem hi, Option.getD_some, Option.getD_some]

/-- A place further on is past the end of the text. -/
theorem lt_start_span {i : Spot} (hi : (significant ts).length ≤ i)
    (hwidth : Modelica.width text.toList < Modelica.width longer.toList) :
    Modelica.width text.toList < ((Landmarks.ofTokens (tokenize longer)).span i).start := by
  obtain ⟨later, hspans, hlater⟩ := h.spans_longer
  rw [← h.significant_text, ← Landmarks.length_spans_ofTokens] at hi
  rw [Landmarks.span, hspans, List.getElem?_append_right hi, Landmarks.stop_ofTokens]
  cases hs : later[i - (Landmarks.ofTokens (tokenize text)).spans.length]? with
  | none => exact hwidth
  | some s => exact hlater s (List.mem_of_getElem? hs)

/-- Bad tokens are past the end of the text. -/
theorem lt_start_lexical (hgood : ∀ t ∈ tokenize text, t.kind ≠ .error) :
    ∀ d ∈ lexicalFaults (tokenize longer), Modelica.width text.toList < d.place.start := by
  obtain ⟨placed, later, hplace, rfl, hlater⟩ := h.place_longer
  intro d hd
  rw [lexicalFaults_eq, hplace] at hd
  obtain ⟨t, ht, rfl⟩ := List.mem_map.mp hd
  obtain ⟨hm, herror⟩ := List.mem_filter.mp ht
  have hbad : t.kind = .error := eq_of_beq herror
  rcases List.mem_append.mp hm with hm | hm
  · refine absurd hbad (hgood t.toToken ?_)
    rw [h.text_tokens, ← map_placeFrom 0 .origin ts]
    exact List.mem_append_left _ (List.mem_map_of_mem hm)
  · rcases List.mem_cons.mp hm with rfl | hm
    · exact absurd hbad h.bridge_good
    · exact hlater t hm

end Prolongs

end

end Token

/-! ## Trees and diagnostics -/

/-- The nodes of a tree over some tokens stay as they are when more trees and tokens come after. -/
theorem Located.nodeChildren_weave_prefix {k : Kind} {cs more : List Tree}
    {ts trail post : List Token} (hgood : ∀ t ∈ ts ++ trail, t.kind ≠ .error)
    (hs : Token.significant ts = Tree.leavesOf cs)
    (hend : cs = [] ∨ Tree.lastEndsInLeaf cs = true) :
    (root (Tree.weave (ts ++ trail) (.node k cs))).nodeChildren <+:
      (root (Tree.weave (ts ++ post) (.node k (cs ++ more)))).nodeChildren := by
  have hwoven : ∀ us, (Tree.weaveAll (ts ++ us) cs).1 = (Tree.weaveAll ts cs).1 := fun us => by
    rw [Tree.weaveAll_more ts us [] cs (by rw [hs, List.append_nil]) (.inr hend)]
  have hgap := Tree.isLeaf_of_mem_gap (Tree.error_free_of_suffix hgood (Tree.weaveAll_suffix _ cs))
  simp only [root, Tree.weave, nodeChildren, children, Tree.children, Tree.weaveAll_append,
    row_append, List.append_assoc, List.filter_append, hwoven, filter_row_eq_nil hgap]
  rw [List.append_nil]
  exact List.prefix_append _ _

/-- A diagnostic of the text says the same about the longer one. -/
theorem Token.Prolongs.map_span {text longer : String} {ts trail others : List Token}
    {bridge : Token}
    (h : Prolongs text longer ts trail bridge others) {d : Diagnostic Spot}
    (hplace : d.place < (significant ts).length)
    (hrelated : ∀ related ∈ d.related, related.place < (significant ts).length) :
    d.map (Landmarks.ofTokens (tokenize longer)).span =
      d.map (Landmarks.ofTokens (tokenize text)).span := by
  have hr : ∀ related ∈ d.related,
      Related.mk related.message ((Landmarks.ofTokens (tokenize longer)).span related.place) =
        ⟨related.message, (Landmarks.ofTokens (tokenize text)).span related.place⟩ :=
    fun related hr => by rw [h.span_eq (hrelated related hr)]
  rw [Diagnostic.map, Diagnostic.map, h.span_eq hplace, List.map_congr_left hr]

/-- Reports at the tokens of the text are its diagnostics in the longer text, too, and those at
other tokens, with those of bad tokens, are past its end. -/
theorem Token.Prolongs.faults_longer {text longer : String} {ts trail others : List Token}
    {bridge : Token} (h : Prolongs text longer ts trail bridge others)
    (hgood : ∀ t ∈ tokenize text, t.kind ≠ .error)
    (hwidth : Modelica.width text.toList < Modelica.width longer.toList)
    {faults faults' later : List (Diagnostic Spot)}
    (hplaces : ∀ d ∈ faults, d.place < (significant ts).length ∧
      ∀ related ∈ d.related, related.place < (significant ts).length)
    (hfaults : faults' = later ++ faults)
    (hlater : ∀ d ∈ later, (significant ts).length ≤ d.place) :
    ∃ more, inOrder (lexicalFaults (tokenize longer) ++ faults'.reverse.map
        (Diagnostic.map (Landmarks.ofTokens (tokenize longer)).span)) =
      inOrder (faults.reverse.map (Diagnostic.map (Landmarks.ofTokens (tokenize text)).span)) ++
        more ∧ ∀ d ∈ more, Modelica.width text.toList < d.place.start := by
  have hsame : faults.reverse.map (Diagnostic.map (Landmarks.ofTokens (tokenize longer)).span) =
      faults.reverse.map (Diagnostic.map (Landmarks.ofTokens (tokenize text)).span) :=
    List.map_congr_left fun d hd =>
      let ⟨hplace, hrelated⟩ := hplaces d (List.mem_reverse.mp hd)
      h.map_span hplace hrelated
  have hlexical := h.lt_start_lexical hgood
  have hold : ∀ d ∈ faults.reverse.map (Diagnostic.map (Landmarks.ofTokens (tokenize text)).span),
      d.place.start ≤ Modelica.width text.toList := fun d hd => by
    obtain ⟨e, -, rfl⟩ := List.mem_map.mp hd
    exact Landmarks.start_span_le_width text e.place
  have hpast : ∀ d ∈ later.reverse.map
      (Diagnostic.map (Landmarks.ofTokens (tokenize longer)).span),
        Modelica.width text.toList < d.place.start := fun d hd => by
    obtain ⟨e, he, rfl⟩ := List.mem_map.mp hd
    exact h.lt_start_span (hlater e (List.mem_reverse.mp he)) hwidth
  rw [hfaults, List.reverse_append, List.map_append, hsame,
    inOrder_append_later hlexical hold hpast]
  refine ⟨_, rfl, fun d hd => ?_⟩
  rcases List.mem_append.mp (List.mem_mergeSort.mp hd) with hd | hd
  · exact hlexical d hd
  · exact hpast d hd

namespace Parse

/-- The warnings of a text without errors are at its tokens, with all that they relate to. -/
theorem places_of_ok {limit : Nat} {text : String}
    (h : (ofProduction (.call .storedDefinition) limit text).ok = true) :
    ∀ d ∈ (Production.read (.call .storedDefinition) limit
        (Token.significant (tokenize text))).faults,
      d.place < (Token.significant (tokenize text)).length ∧
        ∀ related ∈ d.related, related.place < (Token.significant (tokenize text)).length := by
  have hclean := (clean_of_ok h).2
  obtain ⟨hrun, hend⟩ := runs_of_ok h
  generalize Token.significant (tokenize text) = tokens at hclean hrun hend ⊢
  generalize Production.read (.call .storedDefinition) limit tokens = r at hclean hrun hend ⊢
  intro d hd
  have hindex : r.index = tokens.length := by
    have hleads : r.ahead.length + r.index = tokens.length := hrun.leads.2
    rwa [hend, List.length_nil, Nat.zero_add] at hleads
  have hexact := hrun.exact True.intro (Reading.exact_start _)
  have hwarning : ¬ d.severity = .error := by simpa [Diagnostic.isError] using hclean d hd
  have hplace : d.place < tokens.length := by
    rw [← hindex]
    exact Nat.lt_of_le_of_ne (hexact.reached d hd) fun he => hwarning (hexact.here d hd he)
  obtain ⟨later, hfaults, hall⟩ := hrun.onward (n := 0) True.intro (Nat.le_refl 0)
  have hfaults : r.faults = later := hfaults.trans (List.append_nil later)
  have hrelated := (hall d (hfaults ▸ hd)).2
  exact ⟨hplace, fun related hr =>
    Nat.lt_of_le_of_lt (hrelated.resolve_left (by simp [hclean d hd]) related hr) hplace⟩

/-- What a text without errors has built stays in front of what is built for a longer text, its
warnings stay where they are, and everything else that is reported is past its end. -/
theorem extends_of_prolongs {limit : Nat} {text longer : String} {ts trail others : List Token}
    {bridge : Token} (h : Token.Prolongs text longer ts trail bridge others)
    (hok : (ofProduction (.call .storedDefinition) limit text).ok = true)
    (hwidth : width text.toList < width longer.toList) :
    (Located.root (ofProduction (.call .storedDefinition) limit text).tree).nodeChildren <+:
        (Located.root (ofProduction (.call .storedDefinition) limit longer).tree).nodeChildren ∧
      ∃ more, (ofProduction (.call .storedDefinition) limit longer).faults =
          (ofProduction (.call .storedDefinition) limit text).faults ++ more ∧
        ∀ d ∈ more, width text.toList < d.place.start := by
  have hgood := (clean_of_ok hok).1
  obtain ⟨hrun, hend⟩ := runs_of_ok hok
  have hplaces := places_of_ok hok
  have hrun' := Production.runs_read (.call .storedDefinition) trivial limit
    (Token.significant (tokenize longer))
  simp only [ofProduction, lexicalFaults_eq_nil hgood, List.nil_append]
  rw [h.significant_text] at hrun hend hplaces ⊢
  rw [h.significant_longer] at hrun' ⊢
  generalize Production.read (.call .storedDefinition) limit (Token.significant ts) = r
    at hrun hend hplaces ⊢
  generalize Production.read (.call .storedDefinition) limit
    (Token.significant ts ++ Token.significant others) = r' at hrun' ⊢
  obtain ⟨cs, hbuilt, hleaves, hd⟩ := hrun.derives_storedDefinition hend
  obtain ⟨cs', more, hcs, hbuilt', later, hlater, honward⟩ := hrun.storedDefinition_more hend hrun'
  obtain rfl : cs = cs' := by simpa [hbuilt] using hcs
  refine ⟨?_, ?_⟩
  · rw [hbuilt, hbuilt', List.head?_cons, List.head?_cons, Option.getD_some, Option.getD_some,
      h.longer_tokens]
    rw [h.text_tokens] at hgood ⊢
    exact Located.nodeChildren_weave_prefix hgood hleaves.symm hd.lastEndsInLeaf_storedDefinition
  · exact h.faults_longer hgood hwidth hplaces hlater fun d hd => (honward d hd).1

end Parse

/-- **A valid prefix is never reinterpreted.** Whatever comes after a text without errors and a line
end, the nodes below the root are those of the text, at the same offsets, and then others. The
diagnostics of the text come first and are unchanged; all others start after its end. -/
theorem parse_prefix_settled {text : String} (h : (parse text).ok = true) (x : String) :
    (Located.root (parse text).tree).nodeChildren <+:
        (Located.root (parse (text ++ "\n" ++ x)).tree).nodeChildren ∧
      ∃ more, (parse (text ++ "\n" ++ x)).faults = (parse text).faults ++ more ∧
        ∀ d ∈ more, width text.toList < d.place.start := by
  obtain ⟨ts, trail, bridge, others, hprolongs⟩ := Token.prolongs_newline (Parse.clean_of_ok h).1 x
  refine Parse.extends_of_prolongs hprolongs h ?_
  rw [String.toList_append, String.toList_append, List.append_assoc, width_append]
  exact Nat.lt_add_of_pos_right (Nat.add_pos_left (Char.utf8Size_pos _) _)

/-- A class without its name at its end, which is a warning, before one that breaks off. -/
theorem parse_prefix_settled_warning :
    (parse "model A end B;").ok = true ∧
      (Located.root (parse "model A end B;").tree).nodeChildren <+:
        (Located.root (parse ("model A end B;" ++ "\n" ++ "model (")).tree).nodeChildren ∧
      ∃ more, (parse ("model A end B;" ++ "\n" ++ "model (")).faults =
          (parse "model A end B;").faults ++ more ∧
        ∀ d ∈ more, width "model A end B;".toList < d.place.start := by
  have hok : (parse "model A end B;").ok = true := by decide +kernel
  exact ⟨hok, parse_prefix_settled hok "model ("⟩

end Modelica
