import Modelica.Proofs.Enclosures
import Modelica.Proofs.Joints
import Modelica.Proofs.Parts
import Modelica.Proofs.Roots

/-!
# A fragment in place

A text that a rule reads on its own may also stand where a source text has room for that rule
(`Enclosure`). Both readings give the same tree, though the rule is called at another depth, in
another context and before other tokens, and though a fragment gets its root from a scratch node.

* `Token.Encloses`: a blank before the text and a line end after it keep its tokens as they are;
* `Enclosure.takes`: what the rule reads on its own it reads in its place;
* `Tree.trim_weave`: what is left of the root of a fragment without the trivia at both ends;
* `parseFragment_in_place`: the statement for texts.
-/

namespace Modelica

open Token (headKind)

namespace Token

open Pattern Modelica.Tree

/-- A text is cut into `lead`, `mid` and `trail`, where `lead` and `trail` are gaps. The larger text
that has it between `opening` and `closing` is cut into `front`, `mid` and `back`. -/
structure Encloses (opensFile : Bool) (opening closing text : List Char)
    (lead mid trail front back : List Token) : Prop where
  inner : cut opensFile 0 text = lead ++ mid ++ trail
  outer : cut opensFile 0 (opening ++ text ++ closing) = front ++ mid ++ back
  lead_gap : significant lead = []
  trail_gap : significant trail = []
  afterGap_mid : afterGap mid = mid
  significant_front : significant front = significant (cut opensFile 0 opening)
  significant_back : significant back = significant (cut false 0 closing)
  concat_front : (concat front).toList = opening ++ (concat lead).toList
  good : ∀ t ∈ front ++ mid ++ back, t.kind ≠ .error

section

variable {cs x w : List Char} {c d : Char}

/-- Blanks at the start of a text are a token of their own. -/
theorem cut_dropWhile (cs : List Char) :
    cut false 0 cs = blanks (cs.takeWhile isBlank) ++ cut false 0 (cs.dropWhile isBlank) := by
  cases cs with
  | nil => rfl
  | cons e rest =>
    by_cases he : isBlank e = true
    · have h := @cut_blanks false rest e [] nofun he
      rw [List.nil_append] at h
      simp [h, he, blanks]
    · simp [he, blanks]

/-- The gap that a list of tokens starts with. -/
def leading (ts : List Token) : List Token := ts.takeWhile (!·.isSignificant)

theorem leading_append_afterGap (ts : List Token) : leading ts ++ afterGap ts = ts :=
  List.takeWhile_append_dropWhile

theorem significant_leading (ts : List Token) : significant (leading ts) = [] :=
  List.filter_eq_nil_iff.mpr fun t ht => by simpa using List.mem_takeWhile_imp ht

/-- A text at the start of a larger one. -/
theorem encloses_start {opensFile : Bool} (hd : isLineEnd d = true)
    (hgood : ∀ t ∈ cut opensFile 0 cs, t.kind ≠ .error)
    (hclosing : ∀ t ∈ cut false 0 (d :: x), t.kind ≠ .error) :
    ∃ lead mid trail back, Encloses opensFile [] (d :: x) cs lead mid trail lead back := by
  have hblank : isBlank d = true := by
    simp only [isLineEnd, Bool.or_eq_true] at hd
    simp only [isBlank, Bool.or_eq_true]
    tauto
  obtain ⟨ts, w, -, hts, hjoin⟩ := cut_append_blank hblank hgood (.inl hd)
  have hcut := @cut_blanks false x d [] (by simp) hblank
  rw [List.nil_append] at hcut
  rw [hcut] at hclosing
  refine ⟨leading ts, afterGap ts, blanks w,
    ⟨.whitespace, String.ofList (w ++ d :: x.takeWhile isBlank)⟩ ::
      cut false 0 (x.dropWhile isBlank),
    ?_, ?_, significant_leading ts, significant_blanks w, afterGap_afterGap ts,
    significant_leading ts, ?_, rfl, fun t ht => ?_⟩
  · rw [leading_append_afterGap, hts]
  · rw [leading_append_afterGap]
    exact hjoin x
  · rw [hcut]
    rfl
  · rw [leading_append_afterGap] at ht
    obtain ht | rfl | ht := List.mem_append.mp ht |>.imp_right List.mem_cons.mp
    · exact hgood t (hts ▸ List.mem_append_left _ ht)
    · simp
    · exact hclosing t (List.mem_cons_of_mem _ ht)

/-- A text between two blanks. -/
theorem encloses_between {o : List Char} (hc : isBlank c = true) (hd : isLineEnd d = true)
    (hopening : ∀ t ∈ cut true 0 o, t.kind ≠ .error ∧ t.kind ≠ .lineComment)
    (hgood : ∀ t ∈ cut true 0 cs, t.kind ≠ .error) (hmark : cs.head? ≠ some byteOrderMark)
    (hsignificant : significant (cut true 0 cs) ≠ [])
    (hclosing : ∀ t ∈ cut false 0 (d :: x), t.kind ≠ .error) :
    ∃ lead mid trail front back,
      Encloses true (o ++ [c]) (d :: x) cs lead mid trail front back := by
  have hcs : cut true 0 cs = _ := (cut_of_no_mark hmark).trans (cut_dropWhile cs)
  obtain ⟨ts, w, hw, hts, hjoin⟩ := cut_append_blank hc (fun t ht => (hopening t ht).1)
    (.inr fun t ht => (hopening t ht).2)
  have hgood' : ∀ t ∈ cut false 0 (cs.dropWhile isBlank), t.kind ≠ .error := fun t ht =>
    hgood t (hcs ▸ List.mem_append_right _ ht)
  obtain ⟨lead, mid, trail, back, h⟩ := encloses_start hd hgood' hclosing
  have hne : cs.dropWhile isBlank ≠ [] := fun he => by
    rw [hcs, he, significant_append, significant_blanks] at hsignificant
    exact hsignificant rfl
  have hdrop : (cs ++ d :: x).dropWhile isBlank = cs.dropWhile isBlank ++ d :: x := by
    rw [List.dropWhile_append, if_neg (by simpa using hne)]
  have htake : (cs ++ d :: x).takeWhile isBlank = cs.takeWhile isBlank := by
    have hlength : (cs.takeWhile isBlank).length ≠ cs.length := fun he =>
      hne (List.dropWhile_eq_nil_iff.mpr fun e he' => List.mem_takeWhile_imp
        (((List.takeWhile_prefix _).eq_of_length he).symm ▸ he'))
    rw [List.takeWhile_append, if_neg hlength]
  have houter := hjoin (cs ++ d :: x)
  have hinner : cut false 0 (cs.dropWhile isBlank ++ d :: x) = lead ++ mid ++ back := h.outer
  rw [hdrop, htake, hinner] at houter
  have hopen : concat (cut true 0 o) = String.ofList o := by simpa using concat_cut true 0 o
  have hfront : significant (cut true 0 (o ++ [c])) = significant (cut true 0 o) := by
    rw [hjoin [], hts, significant_append, significant_append, significant_blanks]
    rfl
  refine ⟨blanks (cs.takeWhile isBlank) ++ lead, mid, trail,
    ts ++ ⟨.whitespace, String.ofList (w ++ c :: cs.takeWhile isBlank)⟩ :: lead, back,
    ?_, ?_, ?_, h.trail_gap, h.afterGap_mid, ?_, h.significant_back, ?_, fun t ht => ?_⟩
  · rw [hcs, h.inner]
    simp
  · simpa using houter
  · rw [significant_append, significant_blanks, h.lead_gap, List.nil_append]
  · rw [hfront, hts, significant_append, significant_append, significant_blanks]
    exact congrArg (_ ++ ·) h.lead_gap
  · rw [hts, concat_append] at hopen
    have hchars := congrArg String.toList hopen
    rw [String.toList_append, concat_blanks, String.toList_ofList] at hchars
    simp only [concat_append, concat_cons, String.toList_append, concat_blanks,
      String.toList_ofList, ← hchars]
    simp
  · simp only [List.append_assoc, List.cons_append, List.mem_append, List.mem_cons] at ht
    rcases ht with ht | rfl | ht
    · exact (hopening t (hts ▸ List.mem_append_left _ ht)).1
    · simp
    · exact h.good t (by simpa using ht)

end

namespace Encloses

variable {opensFile : Bool} {opening closing text : List Char}
variable {lead mid trail front back : List Token}

theorem significant_mid (h : Encloses opensFile opening closing text lead mid trail front back) :
    significant mid = significant (cut opensFile 0 text) := by
  simp [h.inner, significant_append, h.lead_gap, h.trail_gap]

theorem significant_outer (h : Encloses opensFile opening closing text lead mid trail front back) :
    significant (front ++ mid ++ back) =
      significant (cut opensFile 0 opening) ++ significant (cut opensFile 0 text) ++
        significant (cut false 0 closing) := by
  rw [significant_append, significant_append, h.significant_front, h.significant_mid,
    h.significant_back]

theorem afterGap_mid_append
    (h : Encloses opensFile opening closing text lead mid trail front back)
    (hne : significant (cut opensFile 0 text) ≠ []) (ts : List Token) :
    afterGap (mid ++ ts) = mid ++ ts := by
  rw [← h.significant_mid, Ne, ← afterGap_eq_nil_iff] at hne
  rw [afterGap_more hne, h.afterGap_mid]

theorem leading_inner (h : Encloses opensFile opening closing text lead mid trail front back)
    (hne : significant (cut opensFile 0 text) ≠ []) : leading (cut opensFile 0 text) = lead := by
  have hall : ∀ t ∈ lead, (!t.isSignificant) = true := fun t ht => by
    simpa using List.filter_eq_nil_iff.mp h.lead_gap t ht
  have hmid : leading (mid ++ trail) = [] := by
    have hsplit := leading_append_afterGap (mid ++ trail)
    rw [h.afterGap_mid_append hne] at hsplit
    exact List.append_left_eq_self.mp hsplit
  rw [h.inner, List.append_assoc, leading, List.takeWhile_append_of_pos hall, ← leading, hmid,
    List.append_nil]

end Encloses

end Token

/-! ## Places for a fragment -/

/-- A place for a fragment in a source text. -/
inductive Enclosure where
  | expression | equation | statement | element | classDefinition
  deriving DecidableEq, Inhabited

namespace Enclosure

/-- The rule of the fragments that go there. -/
def rule : Enclosure → FragmentRule
  | expression => .expression
  | equation => .equation
  | statement => .statement
  | element => .element
  | classDefinition => .classDefinition

/-- The text before the fragment. -/
def opening : Enclosure → String
  | expression => "model M equation y = "
  | equation => "model M equation "
  | statement => "function f algorithm "
  | element => "model M "
  | classDefinition => ""

/-- The text after the fragment. -/
def closing : Enclosure → String
  | expression => "\n; end M;"
  | equation | element => "\nend M;"
  | statement => "\nend f;"
  | classDefinition => "\n;"

/-- The bound on nesting: the standard one, and a level for each class and equation around the
fragment. -/
def limit : Enclosure → Nat
  | expression => 258
  | equation | statement | element => 257
  | classDefinition => 256

/-- The way from the root to the node of the fragment. -/
def path : Enclosure → List Nat
  | expression => [0, 0, 1, 0, 0, 1]
  | equation | statement | element => [0, 0, 1, 0, 0]
  | classDefinition => [0, 0]

/-- The rule of the grammar that is called. -/
def nonterminal : Enclosure → Nonterminal
  | expression => .expression
  | equation => .equation
  | statement => .statement
  | element => .element
  | classDefinition => .classDefinition

def context : Enclosure → Context
  | equation => .equationSection
  | statement => .algorithmSection
  | _ => .topLevel

/-- The significant tokens of the opening. -/
def front : Enclosure → List Token
  | expression => [⟨.modelKw, "model"⟩, ⟨.ident, "M"⟩, ⟨.equationKw, "equation"⟩, ⟨.ident, "y"⟩,
      ⟨.equals, "="⟩]
  | equation => [⟨.modelKw, "model"⟩, ⟨.ident, "M"⟩, ⟨.equationKw, "equation"⟩]
  | statement => [⟨.functionKw, "function"⟩, ⟨.ident, "f"⟩, ⟨.algorithmKw, "algorithm"⟩]
  | element => [⟨.modelKw, "model"⟩, ⟨.ident, "M"⟩]
  | classDefinition => []

/-- The significant tokens of the closing. -/
def back : Enclosure → List Token
  | expression => [⟨.semicolon, ";"⟩, ⟨.endKw, "end"⟩, ⟨.ident, "M"⟩, ⟨.semicolon, ";"⟩]
  | equation | element => [⟨.endKw, "end"⟩, ⟨.ident, "M"⟩, ⟨.semicolon, ";"⟩]
  | statement => [⟨.endKw, "end"⟩, ⟨.ident, "f"⟩, ⟨.semicolon, ";"⟩]
  | classDefinition => [⟨.semicolon, ";"⟩]

/-- The class around the node of a fragment. -/
def enclosingClass (u : Tree) : Enclosure → Tree
  | expression => Grammar.classTree ⟨.modelKw, "model"⟩ ⟨.ident, "M"⟩ [.node .equationSection [
      .leaf ⟨.equationKw, "equation"⟩, .node .simpleEquation [
        Grammar.nameTree ⟨.ident, "y"⟩, .leaf ⟨.equals, "="⟩, u, .leaf ⟨.semicolon, ";"⟩]]]
  | equation => Grammar.classTree ⟨.modelKw, "model"⟩ ⟨.ident, "M"⟩ [
      .node .equationSection [.leaf ⟨.equationKw, "equation"⟩, u]]
  | statement => Grammar.classTree ⟨.functionKw, "function"⟩ ⟨.ident, "f"⟩ [
      .node .algorithmSection [.leaf ⟨.algorithmKw, "algorithm"⟩, u]]
  | element => Grammar.classTree ⟨.modelKw, "model"⟩ ⟨.ident, "M"⟩ [.node .initialElementList [u]]
  | classDefinition => u

/-- The children of the root over the node of a fragment. -/
def enclosing (e : Enclosure) (u : Tree) : List Tree :=
  [.node .classDefinitionClause [e.enclosingClass u, .leaf ⟨.semicolon, ";"⟩]]

/-- What stands in the body of a class. -/
theorem part_class {part u : Tree} {path : List Nat} {before : List Token} (keyword name : Token)
    (hu : u.isLeaf = false) (h : Tree.Part part path before u) :
    Tree.Part part (1 :: 0 :: path) (keyword :: name :: before)
      (Grammar.classTree keyword name [u]) :=
  .inside (a := [.node .classPrefixes [.leaf keyword]]) (b := []) rfl
    (.inside (a := [.leaf name]) (b := [.leaf ⟨.endKw, "end"⟩, .leaf name]) hu h)

/-- The fragment stands in the class around it, if there is one, where its path leads. -/
theorem part_enclosingClass (e : Enclosure) (he : e ≠ .classDefinition) (part : Tree) :
    Tree.Part part (e.path.drop 2) e.front (e.enclosingClass part) := by
  cases e
  case expression =>
    exact part_class _ _ rfl (.inside (a := [.leaf ⟨.equationKw, "equation"⟩]) (b := []) rfl
      (.here (a := [Grammar.nameTree ⟨.ident, "y"⟩, .leaf ⟨.equals, "="⟩])
        (b := [.leaf ⟨.semicolon, ";"⟩])))
  case equation =>
    exact part_class _ _ rfl (.here (a := [.leaf ⟨.equationKw, "equation"⟩]) (b := []))
  case statement =>
    exact part_class _ _ rfl (.here (a := [.leaf ⟨.algorithmKw, "algorithm"⟩]) (b := []))
  case element => exact part_class _ _ rfl (.here (a := []) (b := []))
  case classDefinition => exact absurd rfl he

theorem part (e : Enclosure) {k : Kind} {cs : List Tree} :
    Tree.Part (.node k cs) e.path e.front (.node .storedDefinition (e.enclosing (.node k cs))) := by
  by_cases he : e = .classDefinition
  · subst he
    exact .inside (a := []) (b := []) rfl (.here (a := []) (b := [.leaf ⟨.semicolon, ";"⟩]))
  · have hpath : e.path = 0 :: 0 :: e.path.drop 2 := by cases e <;> rfl
    have hleaf : (e.enclosingClass (.node k cs)).isLeaf = false := by cases e <;> rfl
    rw [hpath]
    exact .inside (a := []) (b := []) rfl (.inside (a := []) (b := [.leaf ⟨.semicolon, ";"⟩]) hleaf
      (e.part_enclosingClass he _))

open Production Grammar

theorem derives (e : Enclosure) {env : Surroundings} {ts : List Token} {r : Reading}
    (h : Runs noError (.of (.call e.nonterminal)) env (.start ts) r) (hr : r.ahead = []) :
    Derives endGuarded (.rule e.nonterminal) (env.limit - env.depth) ts r.built.reverse
      .endOfInput := by
  obtain ⟨us, vs, hts, hb, hd⟩ := h.spells (by cases e <;> trivial)
  obtain rfl : ts = us := by simpa [Reading.start, hr] using hts
  rw [hb, hr] at *
  rw [Reading.start, List.append_nil, List.reverse_reverse]
  exact hd

/-- The rule reads the fragment as `u` wherever a text has room for it. -/
def Reads (e : Enclosure) (ts : List Token) (u : Tree) : Prop :=
  ∀ {env : Surroundings} {after : List Token} {q : Reading},
    e.nonterminal.mayEnd (headKind after == .semicolon) = true →
      Token.EndsItem ts ∨ headKind after = .semicolon →
        Surroundings.Within ⟨e.context, [], 0, ParseOptions.standard.limit⟩ env →
          q.ahead = ts ++ after → (call e.nonterminal).Takes true env q [u] after

/-- The text around the fragment is read as a stored definition with `u` in its place. -/
def TakesAround (e : Enclosure) (ts : List Token) (u : Tree) : Prop :=
  (call .storedDefinition).Takes true ⟨.topLevel, [], 0, e.limit⟩
    (.start (e.front ++ ts ++ e.back)) [.node .storedDefinition (e.enclosing u)] []

section

variable {ts : List Token} {u : Tree}

theorem takesAround_expression (h : expression.Reads ts u) : expression.TakesAround ts u := by
  have hequation : ∀ m : Reading,
      m.ahead = ⟨.ident, "y"⟩ :: ⟨.equals, "="⟩ :: (ts ++ back .expression) →
        (call (.item .equations)).Takes true ⟨.equationSection, [], 1, 258⟩ m
          [.node .simpleEquation [nameTree ⟨.ident, "y"⟩, .leaf ⟨.equals, "="⟩, u,
            .leaf ⟨.semicolon, ";"⟩]] (back .equation) :=
    fun m hm => takes_equation (by decide) rfl rfl rfl
      (fun m hm => h rfl (.inr rfl) ⟨rfl, by decide⟩ hm) hm
  have htokens : expression.front ++ ts ++ expression.back = classTokens ⟨.modelKw, "model"⟩
      ⟨.ident, "M"⟩ (sectionKeyword .equations :: ⟨.ident, "y"⟩ :: ⟨.equals, "="⟩ ::
        (ts ++ [⟨.semicolon, ";"⟩])) := by
    simp [classTokens, front, back, sectionKeyword]
  rw [TakesAround, htokens]
  refine takes_sectionText (by decide) (.inl rfl) rfl (List.cons_ne_nil _ _) (fun v hv => ?_)
    fun m hm => hequation m (by simpa [back] using hm)
  have hk : v.kind = .ident := by rw [Lookahead.kind, hv]; rfl
  exact ⟨by simp [Lookahead.atEnd, Lookahead.sees, hk], by simp [Lookahead.atSectionBoundary, hk],
    by simp [hk, isClauseKeyword, clauseOwner?]⟩

/-- One item, the only one of its section in the only section of a class. -/
theorem takes_onlyItem (family : Family) {limit n : Nat} {keyword name : Token} {k : Kind}
    {vs : List Tree} (hl : 1 ≤ limit)
    (hkeyword : keyword.kind = .modelKw ∨ keyword.kind = .functionKw) (hname : name.kind = .ident)
    (hd : Derives endGuarded (.rule (.item family)) n ts vs k) (hend : headKind ts ≠ .endKw)
    (hitem : ∀ m : Reading, m.ahead = ts ++ [⟨.endKw, "end"⟩, name, ⟨.semicolon, ";"⟩] →
      (call (.item family)).Takes true ⟨sectionContext family, [], 1, limit⟩ m [u]
        [⟨.endKw, "end"⟩, name, ⟨.semicolon, ";"⟩]) :
    (call .storedDefinition).Takes true ⟨.topLevel, [], 0, limit⟩
      (.start (classTokens keyword name (sectionKeyword family :: ts)))
      [.node .storedDefinition [.node .classDefinitionClause [
        classTree keyword name
          [.node (sectionKind family) [.leaf (sectionKeyword family), u]],
        .leaf ⟨.semicolon, ";"⟩]]] [] :=
  takes_sectionText hl hkeyword hname (hd.ne_nil rfl)
    (fun _ hv => not_ends_of_starts hd hend hv) hitem

theorem takesAround_element (h : element.Reads ts u) (hends : Token.EndsItem ts)
    (hstart : headKind ts ∈ Kind.elementStart) (hne : ts ≠ []) : element.TakesAround ts u := by
  have hkind : ∀ v : Lookahead, v.ahead = ts ++ element.back → v.kind ∈ Kind.elementStart :=
    fun v hv => by
      obtain ⟨t, us, rfl⟩ := List.exists_cons_of_ne_nil hne
      rw [Lookahead.kind, hv]
      exact hstart
  have hclass : headKind (ts ++ element.back) ∉ [.equals, .string] := fun hm =>
    absurd (hkind ⟨_, 0, .topLevel, []⟩ rfl) (by
      rcases List.mem_pair.mp hm with hk | hk <;> simp only [Lookahead.kind, hk] <;> decide)
  have hbody : ∀ m : Reading, m.ahead = ts ++ element.back →
      (call .classBody).Takes true ⟨.classBody, [], 1, 257⟩ m [.node .initialElementList [u]]
        element.back := fun m hm => by
    refine takes_elements rfl (fun v hv => not_boundary_of_kind (hkind v (hv.trans hm)) (by decide))
      (fun m' hm' => h rfl (.inl hends) ⟨rfl, by decide⟩ (hm'.trans hm)) ?_
    rw [hm, List.length_append]
    exact Nat.lt_add_of_pos_left (List.length_pos_iff.mpr hne)
  exact takes_classText (by decide) (.inl rfl) rfl hclass hbody

theorem takesAround_classDefinition (h : classDefinition.Reads ts u)
    (hstart : headKind ts ∈ Kind.classStart) (hne : ts ≠ []) :
    classDefinition.TakesAround ts u := by
  have hclass : ∀ m : Reading, m.ahead = ts ++ classDefinition.back →
      (call .classDefinition).Takes true ⟨.topLevel, [], 0, 256⟩ m [u] classDefinition.back :=
    fun m hm => h rfl (.inr rfl) ⟨rfl, by decide⟩ hm
  refine takes_storedDefinition ?_ hclass rfl
  obtain ⟨t, us, rfl⟩ := List.exists_cons_of_ne_nil hne
  exact hstart

end

/-- What reads the fragment on its own reads it in its place, and the text around it as well. -/
theorem takes (e : Enclosure) {ts : List Token} {u : Tree} {r : Reading}
    (h : Runs noError (.of (.call e.nonterminal)) ⟨e.context, [], 0, ParseOptions.standard.limit⟩
      (.start ts) r) (hr : r.ahead = []) (hb : r.built = [u])
    (hend : e = .equation → headKind ts ≠ .endKw) : e.TakesAround ts u := by
  have hd := e.derives h hr
  have hne : ts ≠ [] := hd.ne_nil (by cases e <;> rfl)
  have hstart : headKind ts ∈ e.nonterminal.first true := by
    obtain ⟨t, us, rfl⟩ := List.exists_cons_of_ne_nil hne
    exact (hd.starts (.inl rfl)).first t us rfl
  have hreads : e.Reads ts u := fun hmay hafter hwithin hq => by
    simpa [hb] using h.takes_in_setting hr hmay hafter hwithin hq
  cases e with
  | expression => exact takesAround_expression hreads
  | equation =>
    refine takes_onlyItem .equations (by decide) (.inl rfl) rfl (.rule hd) (hend rfl) fun m hm => ?_
    exact takes_call (hreads rfl (.inl (hd.endsItem rfl hne)) ⟨rfl, by decide⟩ hm)
  | statement =>
    have hnotEnd : headKind ts ≠ .endKw := fun hk => by
      rw [hk] at hstart
      exact absurd hstart (by decide)
    refine takes_onlyItem .statements (by decide) (.inr rfl) rfl (.rule hd) hnotEnd fun m hm => ?_
    exact takes_call (hreads rfl (.inl (hd.endsItem rfl hne)) ⟨rfl, by decide⟩ hm)
  | element => exact takesAround_element hreads (hd.endsItem rfl hne) hstart hne
  | classDefinition => exact takesAround_classDefinition hreads hstart hne

end Enclosure

/-! ## Without the trivia at both ends -/

namespace Tree

/-- A tree without the trivia at the two ends of its children. -/
def trim : Tree → Tree
  | leaf t => leaf t
  | node k cs => node k ((cs.dropWhile isTriviaLeaf).rdropWhile isTriviaLeaf)

theorem trim_append {k : Kind} {as cs bs : List Tree} (ha : ∀ c ∈ as, c.isTriviaLeaf = true)
    (hb : ∀ c ∈ bs, c.isTriviaLeaf = true) (hcs : cs ≠ [])
    (hstart : cs.dropWhile isTriviaLeaf = cs) (hstop : cs.rdropWhile isTriviaLeaf = cs) :
    (node k (as ++ cs ++ bs)).trim = node k cs := by
  have hdrop : (as ++ cs ++ bs).dropWhile isTriviaLeaf = cs ++ bs := by
    rw [List.append_assoc, List.dropWhile_append_of_pos ha, List.dropWhile_append, hstart,
      if_neg (by simpa using hcs)]
  have hreverse : ∀ c ∈ bs.reverse, c.isTriviaLeaf = true := fun c hc =>
    hb c (List.mem_reverse.mp hc)
  have hrdrop : (cs ++ bs).rdropWhile isTriviaLeaf = cs := by
    rw [List.rdropWhile, List.reverse_append, List.dropWhile_append_of_pos hreverse]
    exact hstop
  rw [trim, hdrop, hrdrop]

/-- A child is woven to a tree that is no trivia, after the gap before it. -/
theorem weaveChild_eq (ts : List Token) (c : Tree) (hc : ∀ t ∈ c.leaves, t.isSignificant = true) :
    ∃ before d, (weaveChild ts c).1 = before ++ [d] ∧ d.isTriviaLeaf = false ∧
      (gap ts = [] → before = []) := by
  cases c with
  | leaf t =>
    have ht : t.kind.isSignificant = true := hc t List.mem_cons_self
    refine ⟨gap ts, leaf t, rfl, ?_, id⟩
    simp only [Kind.isSignificant, Bool.and_eq_true, Bool.not_eq_true'] at ht
    simp [isTriviaLeaf, Token.isTrivia, ht]
  | node k cs =>
    by_cases he : afterGap ts = []
    · exact ⟨[], node k (weaveAll ts cs).1, by simp [weaveChild, he], rfl, fun _ => rfl⟩
    · exact ⟨gap ts, node k (weaveAll (afterGap ts) cs).1, by simp [weaveChild, he], rfl, id⟩

/-- What is woven first or last is no trivia, but for the gap before it. -/
theorem weaveAll_ends {ts : List Token} {cs : List Tree} (hgap : gap ts = [])
    (hleaves : ∀ t ∈ leavesOf cs, t.isSignificant = true) :
    (weaveAll ts cs).1.dropWhile isTriviaLeaf = (weaveAll ts cs).1 ∧
      (weaveAll ts cs).1.rdropWhile isTriviaLeaf = (weaveAll ts cs).1 := by
  constructor
  · cases cs with
    | nil => rfl
    | cons c cs =>
      obtain ⟨before, d, hw, hd, hbefore⟩ := weaveChild_eq ts c fun t ht =>
        hleaves t (by simp [ht])
      simp [weaveAll, hw, hbefore hgap, hd]
  · rcases List.eq_nil_or_concat cs with rfl | ⟨cs, c, rfl⟩
    · rfl
    · obtain ⟨before, d, hw, hd, -⟩ := weaveChild_eq (weaveAll ts cs).2 c fun t ht =>
        hleaves t (by simp [ht])
      rw [List.concat_eq_append, weaveAll_append]
      simp only [weaveAll, hw, List.append_nil, ← List.append_assoc]
      exact List.rdropWhile_concat_neg _ _ _ (by simp [hd])

/-- A tree over a text without bad tokens, without the trivia at both ends. -/
theorem trim_weave {lead mid trail : List Token} {k : Kind} {cs : List Tree}
    (hlead : Token.significant lead = []) (htrail : Token.significant trail = [])
    (hmid : afterGap mid = mid) (hgood : ∀ t ∈ lead ++ mid ++ trail, t.kind ≠ .error)
    (hleaves : leavesOf cs = Token.significant (lead ++ mid ++ trail))
    (hend : lastEndsInLeaf cs = true) :
    (weave (lead ++ mid ++ trail) (node k cs)).trim = node k (weaveAll mid cs).1 := by
  have hne : mid ≠ [] := by
    rintro rfl
    simp only [List.append_nil, Token.significant_append, hlead, htrail] at hleaves
    exact leavesOf_ne_nil cs hend hleaves
  have hfirst : afterGap mid ≠ [] := by rwa [hmid]
  have hmore : afterGap (mid ++ trail) = mid ++ trail := by rw [afterGap_more hfirst, hmid]
  have hall : afterGap (lead ++ mid ++ trail) = mid ++ trail := by
    rw [List.append_assoc, afterGap, List.dropWhile_append_of_pos]
    · exact hmore
    · exact fun t ht => by simpa using List.filter_eq_nil_iff.mp hlead t ht
  have hsignificant : Token.significant mid = leavesOf cs ++ [] := by
    simp [hleaves, Token.significant_append, hlead, htrail]
  have htrivia : ∀ us : List Token, (∀ t ∈ us, t.kind ≠ .error) →
      ∀ c ∈ gap us, c.isTriviaLeaf = true := fun us h =>
    isTriviaLeaf_gap.mpr fun t ht => h t ((List.takeWhile_prefix _).subset ht)
  have hleft : ∀ t ∈ (weaveAll mid cs).2 ++ trail, t.kind ≠ .error := fun t ht => by
    refine hgood t ?_
    rcases List.mem_append.mp ht with ht | ht
    · exact List.mem_append_left _ (List.mem_append_right _ ((weaveAll_suffix mid cs).subset ht))
    · exact List.mem_append_right _ ht
  have hcs : cs ≠ [] := by
    rintro rfl
    cases hend
  have hgap : gap mid = [] := by rw [← hmid, gap_afterGap]
  obtain ⟨hstart, hstop⟩ := weaveAll_ends hgap fun t ht => (List.mem_filter.mp (hleaves ▸ ht)).2
  have hwoven : (weaveAll mid cs).1 ≠ [] := fun he => by
    obtain ⟨hw, hs⟩ := leavesOf_weaveAll mid [] cs hsignificant
    rw [he, leavesOf_nil, List.nil_append] at hw
    rw [hw, hsignificant, List.append_nil] at hs
    exact leavesOf_ne_nil cs hend hs
  rw [weave, weaveAll_afterGap hcs (by rw [hall]; simp [hne]), hall,
    weaveAll_more mid trail [] cs hsignificant (.inr (.inr hend))]
  exact trim_append (htrivia _ hgood) (htrivia _ hleft) hwoven hstart hstop

end Tree

/-! ## In place -/

/-- A text that is read as a stored definition is parsed without errors. -/
theorem Parse.ofProduction_of_takes {limit : Nat} {text : String} {root : Tree}
    (hgood : ∀ t ∈ tokenize text, t.kind ≠ .error)
    (h : (Production.call .storedDefinition).Takes true ⟨.topLevel, [], 0, limit⟩
      (.start (Token.significant (tokenize text))) [root] []) :
    let p := ofProduction (.call .storedDefinition) limit text
    p.ok = true ∧ p.tree = Tree.weave (tokenize text) root ∧
      root.leaves = Token.significant (tokenize text) := by
  obtain ⟨r, hrun, hahead, hbuilt⟩ := h
  replace hbuilt : r.built = [root] := hbuilt rfl
  obtain ⟨hread, hclean⟩ := Runs.read_eq (p := .call .storedDefinition) trivial hrun
  refine ⟨ok_of_clean hgood (hread.symm ▸ hclean), ?_, ?_⟩
  · simp only [ofProduction, hread, hbuilt, List.head?_cons, Option.getD_some]
  · simpa [Reading.tokens, hbuilt, hahead, Reading.start] using hrun.leaves

namespace Enclosure

/-- The enclosing text, cut. -/
theorem encloses (e : Enclosure) {text : String}
    (hgood : ∀ t ∈ tokenize text, t.kind ≠ .error)
    (hmark : text.toList.head? ≠ some Pattern.byteOrderMark)
    (hsignificant : Token.significant (tokenize text) ≠ []) :
    ∃ lead mid trail front back,
      Token.Encloses true e.opening.toList e.closing.toList text.toList
        lead mid trail front back := by
  cases e with
  | classDefinition =>
    obtain ⟨lead, mid, trail, back, h⟩ := Token.encloses_start (d := '\n') (x := [';']) rfl hgood
      (by decide +kernel)
    exact ⟨lead, mid, trail, lead, back, h⟩
  | expression =>
    exact Token.encloses_between (o := "model M equation y =".toList) rfl rfl (by decide +kernel)
      hgood
      hmark hsignificant (by decide +kernel)
  | equation =>
    exact Token.encloses_between (o := "model M equation".toList) rfl rfl (by decide +kernel) hgood
      hmark hsignificant (by decide +kernel)
  | statement =>
    exact Token.encloses_between (o := "function f algorithm".toList) rfl rfl (by decide +kernel)
      hgood
      hmark hsignificant (by decide +kernel)
  | element =>
    exact Token.encloses_between (o := "model M".toList) rfl rfl (by decide +kernel) hgood
      hmark hsignificant (by decide +kernel)

theorem significant_opening (e : Enclosure) :
    Token.significant (Token.cut true 0 e.opening.toList) = e.front := by
  cases e <;> decide +kernel

theorem significant_closing (e : Enclosure) :
    Token.significant (Token.cut false 0 e.closing.toList) = e.back := by
  cases e <;> decide +kernel

/-- A fragment for this place, read without errors, is one node. -/
theorem exists_node (e : Enclosure) {text : String}
    (hok : (parseFragment e.rule text).parse.ok = true) :
    ∃ r k cs, Runs noError (.of (.call e.nonterminal))
        ⟨e.context, [], 0, ParseOptions.standard.limit⟩
        (.start (Token.significant (tokenize text))) r ∧ r.ahead = [] ∧ r.built = [.node k cs] ∧
      (parseFragment e.rule text).parse.tree = Tree.weave (tokenize text) (.node k cs) ∧
      Tree.leavesOf cs = Token.significant (tokenize text) := by
  obtain ⟨hgood, hr, hahead⟩ := runs_of_parseFragment hok
  obtain ⟨k, cs, hwhole⟩ := hr.exists_whole hahead
  have hcall : Runs noError (.of (.call e.nonterminal))
      ⟨e.context, [], 0, ParseOptions.standard.limit⟩
      (.start (Token.significant (tokenize text))) (e.rule.reading text) := by
    cases e with
    | equation | statement => exact runs_inContext.mp hr
    | _ => exact hr
  exact ⟨_, k, cs, hcall, hahead, hwhole.built,
    (parseFragment_of_whole hwhole (Token.edgesGood_of_forall hgood)).1, hwhole.leavesOf_eq⟩

end Enclosure

/-- **A fragment parses as it does in place.** When a rule reads a text without errors, the text
between an opening and a closing is read without errors too, with a bound that leaves room for the
levels around it. Where the fragment is expected, this larger text has the root of the fragment
without the trivia at its ends. It stands behind the opening and the trivia that the fragment starts
with. A byte-order mark is one only at the start of a file, and an `end` at the start of an equation
would belong to the class around it. -/
theorem parseFragment_in_place (e : Enclosure) {text : String}
    (hmark : text.toList.head? ≠ some Pattern.byteOrderMark)
    (hend : e = .equation → headKind (Token.significant (tokenize text)) ≠ .endKw)
    (hok : (parseFragment e.rule text).parse.ok = true) :
    ∃ p, parseWith ⟨e.limit, false⟩ (e.opening ++ text ++ e.closing) = .ok p ∧ p.ok = true ∧
      (Located.root p.tree).follow e.path = some
        ⟨width e.opening.toList + width (Token.concat (Token.leading (tokenize text))).toList,
          (parseFragment e.rule text).parse.tree.trim⟩ := by
  have hgood := (runs_of_parseFragment hok).1
  obtain ⟨r, k, cs, hcall, hahead, hb, htree, hleaves⟩ := e.exists_node hok
  have hd := e.derives hcall hahead
  rw [hb, List.reverse_singleton] at hd
  have hne : Token.significant (tokenize text) ≠ [] := hd.ne_nil (by cases e <;> rfl)
  have hleaf : Tree.lastEndsInLeaf [.node k cs] = true :=
    hd.endsInLeaf (by cases e <;> rfl) (List.cons_ne_nil _ _)
  obtain ⟨lead, mid, trail, front, back, h⟩ := e.encloses hgood hmark hne
  have htokens : tokenize text = lead ++ mid ++ trail := h.inner
  have hlarger : tokenize (e.opening ++ text ++ e.closing) = front ++ mid ++ back := by
    rw [tokenize, String.toList_append, String.toList_append]
    exact h.outer
  have hsignificant : Token.significant (tokenize (e.opening ++ text ++ e.closing)) =
      e.front ++ Token.significant (tokenize text) ++ e.back := by
    rw [hlarger, h.significant_outer, e.significant_opening, e.significant_closing]
    rfl
  -- The fragment is `mid` without the trivia around it.
  have htrim : (parseFragment e.rule text).parse.tree.trim = .node k (Tree.weaveAll mid cs).1 := by
    rw [htree, htokens]
    rw [htokens] at hgood hleaves
    exact Tree.trim_weave h.lead_gap h.trail_gap h.afterGap_mid hgood hleaves hleaf
  -- The enclosing text has the same node over `mid`.
  have htakes := e.takes hcall hahead hb hend
  rw [Enclosure.TakesAround, ← hsignificant] at htakes
  obtain ⟨hok', htree', hleaves'⟩ :=
    Parse.ofProduction_of_takes (by rw [hlarger]; exact h.good) htakes
  have hpart : Tree.Part (.node k cs) e.path (Token.significant front)
      (.node .storedDefinition (e.enclosing (.node k cs))) := by
    rw [h.significant_front, e.significant_opening]
    exact e.part
  have hmore : Tree.weaveAll (mid ++ back) cs = _ := Tree.weaveAll_more mid back [] cs
    (by rw [h.significant_mid, hleaves, List.append_nil]; rfl) (.inr (.inr hleaf))
  refine ⟨_, rfl, hok', ?_⟩
  rw [hlarger, List.append_assoc] at htree' hleaves'
  rw [htree', htrim, Located.follow_weave hpart (by rwa [hleaves]) (by simpa using h.good)
    (h.afterGap_mid_append hne back) hleaves', hmore, h.concat_front, width_append,
    ← h.leading_inner hne]
  rfl

/-- An equation between two gaps. -/
theorem parseFragment_in_place_equation :
    " x = 2 * y; // twice".toList.head? ≠ some Pattern.byteOrderMark ∧
      headKind (Token.significant (tokenize " x = 2 * y; // twice")) ≠ .endKw ∧
      (parseFragment .equation " x = 2 * y; // twice").parse.ok = true ∧
      ∃ p, parseWith ⟨257, false⟩ ("model M equation " ++ " x = 2 * y; // twice" ++ "\nend M;") =
          .ok p ∧ p.ok = true ∧
        (Located.root p.tree).follow [0, 0, 1, 0, 0] =
          some ⟨18, (parseFragment .equation " x = 2 * y; // twice").parse.tree.trim⟩ := by
  have hmark : " x = 2 * y; // twice".toList.head? ≠ some Pattern.byteOrderMark := by decide +kernel
  have hend : headKind (Token.significant (tokenize " x = 2 * y; // twice")) ≠ .endKw := by
    decide +kernel
  have hok : (parseFragment .equation " x = 2 * y; // twice").parse.ok = true := by decide +kernel
  have hplace : width Enclosure.equation.opening.toList +
      width (Token.concat (Token.leading (tokenize " x = 2 * y; // twice"))).toList = 18 := by
    decide +kernel
  have h := parseFragment_in_place .equation hmark (fun _ => hend) hok
  rw [hplace] at h
  simp only [Enclosure.opening, Enclosure.closing, Enclosure.limit, Enclosure.path,
    Enclosure.rule] at h
  exact ⟨hmark, hend, hok, h⟩

end Modelica
