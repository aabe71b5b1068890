import Modelica.Proofs.Lossless
import Modelica.Proofs.Places

/-!
# Trivia never changes a parse

The grammar reads significant tokens only, so two texts that have the same ones get the same tree
and the same diagnostics, up to where the tokens stand.

* `Tree.strip_weave`: without trivia and bad tokens a woven tree is the one that was read;
* `Parse.grammarFaults_ofProduction`: the diagnostics of the grammar are those of the reading, in
  the order of the tokens;
* `parseWith_congr_significant`: the statement for two texts.
-/

namespace Modelica

namespace Tree

/-- An `error` node that holds one bad token and nothing else. -/
def isBadToken : Tree → Bool
  | node .error [leaf t] => t.kind == .error
  | _ => false

mutual

/-- A tree without trivia and without the nodes around bad tokens. -/
def strip : Tree → Tree
  | leaf t => leaf t
  | node k cs => node k (stripAll cs)

def stripAll : List Tree → List Tree
  | [] => []
  | c :: cs => if c.isTriviaLeaf || c.isBadToken then stripAll cs else c.strip :: stripAll cs

end

theorem stripAll_append (cs ds : List Tree) : stripAll (cs ++ ds) = stripAll cs ++ stripAll ds := by
  induction cs with
  | nil => rfl
  | cons c cs ih =>
    simp only [List.cons_append, stripAll, ih]
    split <;> rfl

theorem stripAll_append_cons {before after cs : List Tree} {k : Kind}
    (h : (node k cs).isBadToken = false) : stripAll (before ++ node k cs :: after) =
      stripAll before ++ node k (stripAll cs) :: stripAll after := by
  rw [stripAll_append, stripAll, if_neg (by simp [h, isTriviaLeaf])]
  rfl

theorem isBadToken_of_ne {k : Kind} (h : k ≠ .error) (cs : List Tree) :
    (node k cs).isBadToken = false := by
  unfold isBadToken
  split
  · rename_i he
    cases he
    exact absurd rfl h
  · rfl

/-- A gap leaves nothing behind. -/
theorem stripAll_gap (ts : List Token) : stripAll (gap ts) = [] := by
  have h : ∀ us : List Token, (∀ u ∈ us, u.isSignificant = false) →
      stripAll (us.map ofGapToken) = [] := by
    intro us hu
    induction us with
    | nil => rfl
    | cons u us ih =>
      have hs := hu u (by simp)
      rw [List.map_cons, stripAll, if_pos, ih fun v hv => hu v (by simp [hv])]
      unfold ofGapToken
      split
      · simp [isBadToken, *]
      · rename_i hk
        have ht : u.isTrivia = true := by
          simpa [Token.isTrivia, Token.isSignificant, Kind.isSignificant, hk] using hs
        simp [isTriviaLeaf, ht]
  exact h _ fun u hu => by simpa using List.mem_takeWhile_imp hu

theorem kind_ne_error_of_significant {t : Token} (h : t.isSignificant = true) :
    t.kind ≠ .error := by
  intro he
  simp [Token.isSignificant, Kind.isSignificant, he] at h

theorem isTriviaLeaf_leaf {t : Token} (h : t.isSignificant = true) :
    (leaf t).isTriviaLeaf = false := by
  simp only [Token.isSignificant, Kind.isSignificant, Bool.and_eq_true, Bool.not_eq_true'] at h
  exact h.1

/-- Among the children of a node no bad token stands bare. -/
def Wrapped (cs : List Tree) : Prop := ∀ t, leaf t ∈ cs → t.kind ≠ .error

theorem isBadToken_node {k : Kind} {cs : List Tree} (h : Wrapped cs) :
    (node k cs).isBadToken = false := by
  unfold isBadToken
  split
  · rename_i t he
    cases he
    simpa using h t (by simp)
  · rfl

theorem wrapped_append {cs ds : List Tree} (hc : Wrapped cs) (hd : Wrapped ds) :
    Wrapped (cs ++ ds) := by
  intro t ht
  exact (List.mem_append.mp ht).elim (hc t) (hd t)

theorem wrapped_gap (ts : List Token) : Wrapped (gap ts) := by
  intro t ht
  obtain ⟨u, -, hu⟩ := List.mem_map.mp ht
  unfold ofGapToken at hu
  split at hu
  · cases hu
  · cases hu
    assumption

theorem wrapped_weaveChild (ts : List Token) {c : Tree}
    (h : ∀ t ∈ c.leaves, t.isSignificant = true) : Wrapped (weaveChild ts c).1 := by
  cases c with
  | leaf t =>
    refine wrapped_append (wrapped_gap ts) fun u hu => ?_
    cases List.mem_singleton.mp hu
    exact kind_ne_error_of_significant (h t (by simp))
  | node k cs =>
    have hn : ∀ ds, Wrapped [node k ds] := fun ds t ht => by simp at ht
    unfold weaveChild
    by_cases he : (afterGap ts).isEmpty
    · simpa [he] using hn _
    · simpa [he] using wrapped_append (wrapped_gap ts) (hn _)

theorem wrapped_weaveAll (ts : List Token) {cs : List Tree}
    (h : ∀ t ∈ leavesOf cs, t.isSignificant = true) : Wrapped (weaveAll ts cs).1 := by
  induction cs generalizing ts with
  | nil => intro t ht; cases ht
  | cons c cs ih =>
    simp only [leavesOf_cons, List.mem_append] at h
    exact wrapped_append (wrapped_weaveChild ts fun t ht => h t (.inl ht))
      (ih _ fun t ht => h t (.inr ht))

mutual

/-- What weaving puts before and into a tree is what stripping takes out. -/
theorem stripAll_weaveChild (ts : List Token) :
    (c : Tree) → (∀ t ∈ c.leaves, t.isSignificant = true) →
      stripAll (weaveChild ts c).1 = [c]
  | leaf t, h => by
    have ht := h t (by simp)
    simp [weaveChild, stripAll_append, stripAll_gap, stripAll, isTriviaLeaf_leaf ht, isBadToken,
      strip]
  | node k cs, h => by
    have hn : ∀ us, stripAll [node k (weaveAll us cs).1] = [node k cs] := fun us => by
      simp [stripAll, isTriviaLeaf, isBadToken_node (wrapped_weaveAll us h), strip,
        stripAll_weaveAll us cs h]
    unfold weaveChild
    by_cases he : (afterGap ts).isEmpty
    · simpa [he] using hn ts
    · simpa [he, stripAll_append, stripAll_gap] using hn (afterGap ts)

theorem stripAll_weaveAll (ts : List Token) :
    (cs : List Tree) → (∀ t ∈ leavesOf cs, t.isSignificant = true) →
      stripAll (weaveAll ts cs).1 = cs
  | [], _ => rfl
  | c :: cs, h => by
    simp only [leavesOf_cons, List.mem_append] at h
    simp only [weaveAll, stripAll_append, stripAll_weaveChild ts c fun t ht => h t (.inl ht),
      stripAll_weaveAll _ cs fun t ht => h t (.inr ht), List.cons_append, List.nil_append]

end

/-- Stripping takes out of a woven tree all that weaving put in. -/
theorem strip_weave (ts : List Token) {t : Tree}
    (h : ∀ u ∈ t.leaves, u.isSignificant = true) : (weave ts t).strip = t := by
  cases t with
  | leaf t => rfl
  | node k cs =>
    simp only [weave, strip, stripAll_append, stripAll_gap, stripAll_weaveAll ts cs h,
      List.append_nil]

end Tree

namespace Runs

/-- The grammar leaves the lexical codes to the bad tokens. -/
theorem grammatical {task : Task} {env : Surroundings} {r r' : Reading}
    (h : Runs anyReport task env r r')
    (ht : match task with
      | .of p => p.Reports Code.Grammatical
      | .rest continues item _ => (Production.many continues item).Reports Code.Grammatical) :
    Runs (·.code.Grammatical) task env r r' := by
  induction h with
  | done => exact .done
  | andThen _ _ ihp ihq => exact .andThen (ihp ht.1) (ihq ht.2)
  | shift => exact .shift
  | group _ ih => exact .group (ih ht)
  | wrap _ ih => exact .wrap (ih ht)
  | look _ ih => exact .look (ih (ht _))
  | many _ ih => exact .many (ih ht)
  | stop hc => exact .stop hc
  | turn hc _ _ ihi ihr => exact .turn hc (ihi (ht _)) (ihr ht)
  | @call rule _ _ _ _ ih => exact .call (ih rule.orderly.reports)
  | report _ => exact .report ht
  | inContext _ ih => exact .inContext (ih ht)
  | opening _ ih => exact .opening (ih ht)
  | within hd _ ih => exact .within hd (ih ht.1)
  | beyond hd _ ih => exact .beyond hd (ih ht.2)

end Runs

theorem isLexical_causeOf (cs : List Char) : (Token.causeOf cs).isLexical = true := by
  cases cs with
  | nil => rfl
  | cons c cs =>
    unfold Token.causeOf
    repeat' split
    all_goals rfl

theorem isLexical_of_mem_lexicalFaults {tokens : List Token} {d : Diagnostic Span}
    (h : d ∈ lexicalFaults tokens) : d.code.isLexical = true := by
  obtain ⟨t, -, ht⟩ := List.mem_filterMap.mp h
  obtain ⟨code, hc, rfl⟩ := Option.map_eq_some_iff.mp ht
  unfold Token.fault? at hc
  split at hc
  · cases hc
    exact isLexical_causeOf _
  · cases hc

namespace Parse

/-- A diagnostic is about a bad token, or the grammar has reported it. -/
theorem isLexical_or_reported {p : Production} {limit : Nat} {text : String} {d : Diagnostic Span}
    (h : d ∈ (ofProduction p limit text).faults) : d.code.isLexical = true ∨
      ∃ e ∈ (p.read limit (Token.significant (tokenize text))).faults,
        d = e.map (Landmarks.ofTokens (tokenize text)).span := by
  rcases List.mem_append.mp (List.mem_mergeSort.mp h) with hl | hg
  · exact .inl (isLexical_of_mem_lexicalFaults hl)
  · obtain ⟨e, he, rfl⟩ := List.mem_map.mp hg
    exact .inr ⟨e, List.mem_reverse.mp he, rfl⟩

/-- The diagnostics that are not about bad tokens. -/
def grammarFaults (p : Parse) : List (Diagnostic Span) := p.faults.filter (!·.code.isLexical)

/-- What the grammar reports, at token indices and in their order. -/
def spotFaults (p : Production) (limit : Nat) (tokens : List Token) : List (Diagnostic Spot) :=
  inTokenOrder tokens.length (p.read limit tokens).faults.reverse

theorem grammarFaults_ofProduction {p : Production} (ht : p.Tame)
    (hr : p.Reports Code.Grammatical) (limit : Nat) (text : String) :
    (ofProduction p limit text).grammarFaults =
      (spotFaults p limit (Token.significant (tokenize text))).map
        (Diagnostic.map (Landmarks.ofTokens (tokenize text)).span) := by
  have hf : ∀ d ∈ (p.read limit (Token.significant (tokenize text))).faults,
      d.code.isLexical = false := fun d hd => by
    refine (Code.grammatical_iff _).mp
      (((p.runs_read ht limit _).grammatical hr).forall_faults ?_ d hd)
    exact fun _ h => nomatch h
  have ho := Landmarks.ordered_ofTokens text
  simp only [grammarFaults, ofProduction, spotFaults]
  rw [filter_inOrder, List.filter_append, ← Landmarks.length_spans_ofTokens,
    ← inOrder_map_span ho, List.filter_eq_nil_iff.mpr, List.filter_eq_self.mpr, List.nil_append]
  · intro d hd
    obtain ⟨e, he, rfl⟩ := List.mem_map.mp hd
    simpa [Diagnostic.map] using hf e (List.mem_reverse.mp he)
  · intro d hd
    simp [isLexical_of_mem_lexicalFaults hd]

/-- Without trivia and bad tokens the tree of a parse is the one that was read. -/
theorem strip_tree_ofProduction {p : Production} (hp : p.ReadsAll) (limit : Nat) (text : String) :
    (ofProduction p limit text).tree.strip =
      (p.read limit (Token.significant (tokenize text))).built.head?.getD (.node .error []) := by
  obtain ⟨k, cs, -, hb, hl⟩ := hp.exists_root limit text
  simp only [ofProduction, hb, List.head?_cons, Option.getD_some]
  refine Tree.strip_weave _ fun u hu => ?_
  have hm : u ∈ Token.significant (tokenize text) := hl ▸ hu
  exact (List.mem_filter.mp hm).2

end Parse

/-- Two texts with the same significant tokens have the same tree without trivia and bad tokens,
within any bound on nesting, and their diagnostics but for those of bad tokens are the same ones,
each at the span that its token has in the text. -/
theorem parseWith_congr_significant {a b : String}
    (h : Token.significant (tokenize a) = Token.significant (tokenize b)) (limit : Nat) :
    ∃ p q, parseWith ⟨limit, false⟩ a = .ok p ∧ parseWith ⟨limit, false⟩ b = .ok q ∧
      p.tree.strip = q.tree.strip ∧
      ∃ faults : List (Diagnostic Spot),
        p.grammarFaults = faults.map (.map (Landmarks.ofTokens (tokenize a)).span) ∧
        q.grammarFaults = faults.map (.map (Landmarks.ofTokens (tokenize b)).span) := by
  have hall := Production.readsAll_storedDefinition
  have hr : (Production.call .storedDefinition).Reports Code.Grammatical := True.intro
  refine ⟨_, _, rfl, rfl, ?_, Parse.spotFaults (.call .storedDefinition) limit
    (Token.significant (tokenize a)), ?_, ?_⟩
  · rw [Parse.strip_tree_ofProduction hall, Parse.strip_tree_ofProduction hall, h]
  · exact Parse.grammarFaults_ofProduction hall.tame hr limit a
  · rw [h]
    exact Parse.grammarFaults_ofProduction hall.tame hr limit b

/-- A comment and a bad character before the `;` change nothing else. -/
theorem parseWith_congr_comment :
    Token.significant (tokenize "end;") = Token.significant (tokenize "end /* A */ ?;") ∧
    ∃ p q, parseWith ⟨256, false⟩ "end;" = .ok p ∧
      parseWith ⟨256, false⟩ "end /* A */ ?;" = .ok q ∧ p.tree.strip = q.tree.strip ∧
      ∃ faults : List (Diagnostic Spot),
        p.grammarFaults = faults.map (.map (Landmarks.ofTokens (tokenize "end;")).span) ∧
        q.grammarFaults = faults.map (.map (Landmarks.ofTokens (tokenize "end /* A */ ?;")).span) :=
  ⟨by decide +kernel, parseWith_congr_significant (by decide +kernel) 256⟩

end Modelica
