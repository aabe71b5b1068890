import Modelica.Proofs.Equations

/-!
# Blocks are read as they are written down

One lemma for each block, for its clauses and for its end. Within a block it is known behind each
part that the block is the innermost open one (`Stop.inBlock`); so a clause that comes next is one
of its own, and the body before it ends there.
-/

namespace Modelica.Grammar

open Production Token

variable {ends : Kind → Prop} {family : Family}

/-- A clause of the innermost open block attaches to it. -/
theorem clauseAttaches_of_head {v : Lookahead} {category : Category} {construct : Construct}
    (hb : v.constructs.head? = some ⟨construct, category⟩)
    (ho : clauseOwner? v.kind = some construct) : v.clauseAttaches category = true := by
  obtain ⟨outer, hs⟩ := List.head?_eq_some_iff.mp hb
  simp [Lookahead.clauseAttaches, Lookahead.clauseResolution, isClauseKeyword, resolveClause,
    findOwner, ho, hs]

theorem bodyEnds_of_clauseAttaches {v : Lookahead} {category : Category}
    (h : v.clauseAttaches category = true) : v.bodyEnds category = true := by
  simp only [Lookahead.clauseAttaches, Bool.and_eq_true, beq_iff_eq] at h
  simp [Lookahead.bodyEnds, h.1, h.2]

theorem bodyEnds_of_end {v : Lookahead} {category : Category} (h : v.kind = .endKw) :
    v.bodyEnds category = true := by
  simp [Lookahead.bodyEnds, Lookahead.atSectionBoundary, h]

/-- In a block, a body ends before the clauses of the block and before an `end`. -/
theorem bodyEnd_of_inBlock {construct : Construct} {ks : List Kind}
    (hks : ∀ k ∈ ks, k = .endKw ∨ clauseOwner? k = some construct)
    {constructs : List OpenConstruct} {rest : List Token}
    (h : (Stop.inBlock ⟨construct, family.category⟩ ks).Holds constructs rest) :
    (Stop.bodyEnd family).Holds constructs rest := by
  obtain ⟨hb, hk⟩ := h
  show (Lookahead.mk rest 0 .topLevel constructs).bodyEnds family.category = true
  rcases hks _ hk with hend | howner
  · exact bodyEnds_of_end hend
  · exact bodyEnds_of_clauseAttaches (clauseAttaches_of_head hb howner)

/-- What may come first in a part of a block may come first after what stands before it. -/
theorem fits_inBlock {inner : Bool} {block : OpenConstruct} {ks ls : List Kind} {f : Form}
    (h : f.clears inner ks.contains ls.contains = true) :
    Fits ends inner (.inBlock block ks) f (.inBlock block ls) := by
  intro he constructs n ts us rest hd ⟨hb, hk⟩
  have hfits : (Stop.only ks).Holds constructs (ts ++ rest) :=
    fits_of_clears h he hd (List.contains_iff_mem.mpr hk)
  exact ⟨hb, List.contains_iff_mem.mp hfits⟩

theorem fails_missingBlockEnd {keyword : Kind} {opened : Spot} {v : Lookahead} :
    (missingBlockEnd keyword opened).Fails v := rfl

theorem reads_finishBlock {construct : Construct} {opened : Spot} :
    (finishBlock construct opened).Reads (.blockEnd construct.endKeyword) ends false anywhere
      .any := by
  have hread : (seq [shifts 2, seq [call .comment, expect .semicolon]]).Reads
      (.blockEnd construct.endKeyword) ends false
      (fun ts => kindAt ts 0 = .endKw ∧ kindAt ts 1 = construct.endKeyword) .any :=
    reads_assoc (reads_andThen
      (reads_shifts_two (by decide) (by cases construct <;> decide) fun _ h => h)
      reads_itemEnd fits_any)
  have hblock : finishBlock construct opened = look fun v =>
      if v.sees .endKw && v.nth 1 == construct.endKeyword then
        seq [shifts 2, seq [call .comment, expect .semicolon]]
      else if !v.sees .endKw || endClaimedOutside v then
        missingBlockEnd construct.endKeyword opened
      else seq [
        report { Diagnostic.ofCode .mismatchedEnd v.index with
          message := "expected `end " ++ keywordText construct.endKeyword ++ "`, found `end " ++
            keywordText (v.nth 1) ++ "`",
          expected := [construct.endKeyword], found := some (v.nth 1),
          related := [⟨"`" ++ keywordText construct.endKeyword ++ "` opened here", opened⟩] },
        shifts 2,
        seq [call .comment, expect .semicolon]] := by
    refine congrArg look (funext fun v => ?_)
    by_cases hend : v.sees .endKw = true
    · by_cases hkey : v.nth 1 = construct.endKeyword
      · simp [hend, hkey]
      · simp [hend, hkey]
    · simp [hend]
  rw [hblock]
  refine reads_guard_test hread (fun v h => ?_) (fun he v n ts us rest hd ha => ?_) fun v => ?_
  · simp only [Bool.and_eq_true, beq_iff_eq, Lookahead.sees] at h
    exact h
  · obtain ⟨t, _, _, rfl, -, ht, hd⟩ := hd.of_leaf_seq
    obtain ⟨u, _, _, rfl, -, hu, -⟩ := hd.of_leaf_seq
    simp [Lookahead.sees, Lookahead.kind, Lookahead.nth, kindAt, headKind, ha, ht, hu]
  · split
    · exact fails_missingBlockEnd
    · exact rfl

theorem reads_call_body : (call (.body family)).Reads (.rule (.body family)) ends false anywhere
    (.bodyEnd family) :=
  reads_call (fun _ _ => trivial) nofun

theorem isRead_elseIfClause : (Nonterminal.elseIfClause family).IsRead ends :=
  reads_node
    (reads_condition (fun _ h => h) (by decide) (by decide) (by decide) reads_call_body)

theorem isRead_elseClause : (Nonterminal.elseClause family).IsRead ends :=
  reads_node
    (reads_seq_cons (reads_shift (fun _ h => List.mem_singleton.mpr h) (by decide))
      reads_call_body fits_any)

theorem isRead_elseWhenClause : (Nonterminal.elseWhenClause family).IsRead ends :=
  reads_node
    (reads_condition (fun _ h => h) (by decide) (by decide) (by decide) reads_call_body)

/-- The clauses of the innermost block that start with one keyword. -/
theorem reads_clauses {construct : Construct} {rule : Nonterminal} {k : Kind} {ks : List Kind}
    (hk : ∀ l ∈ k :: ks, l = .endKw ∨ clauseOwner? l = some construct) (hnot : k ∉ ks)
    (hend : k ≠ .endKw)
    (hs : rule.Stops = .bodyEnd family) (hr : ∀ ts, headKind ts = k → rule.Expects ts)
    (ho : (Form.rule rule).opens false [k] = true) :
    (many (fun v => v.sees k && v.clauseAttaches family.category) fun _ => call rule).Reads
      (.many (.rule rule)) ends false anywhere (.inBlock ⟨construct, family.category⟩ ks) := by
  have hcall : (call rule).Reads (.rule rule) ends false (atOneOf [k])
      (.inBlock ⟨construct, family.category⟩ (k :: ks)) := by
    have h : (call rule).Reads (.rule rule) ends false (atOneOf [k]) rule.Stops :=
      reads_call (fun _ h => hr _ (List.mem_singleton.mp h)) nofun
    exact h.mono (fun _ => id) fun _ _ h => hs ▸ bodyEnd_of_inBlock hk h
  refine reads_many hcall (fun v h => ?_) (fun he v n ts us rest hd ha hstop => ?_) (fun v h => ?_)
    (fits_inBlock ?_)
  · have hsees := ((Bool.and_eq_true _ _).mp h).1
    exact List.mem_singleton.mpr (beq_iff_eq.mp hsees)
  · have hkind : v.kind = k := by
      rw [Lookahead.kind, ha]
      exact List.mem_singleton.mp (headKind_of_opens he ho hd rest)
    have howner : clauseOwner? v.kind = some construct :=
      hkind ▸ (hk k List.mem_cons_self).resolve_left hend
    simp [Lookahead.sees, hkind, clauseAttaches_of_head hstop.1 howner]
  · have hne : v.kind ≠ k := fun he => hnot (he ▸ h.2)
    simp [Lookahead.sees, hne]
  · simp only [Form.opens, Bool.and_eq_true, List.all_eq_true] at ho
    simp only [Form.clears, Form.first, Form.nullable, Bool.and_eq_true, List.all_eq_true,
      Bool.not_true, Bool.false_or]
    refine ⟨fun l hl => ?_, fun l _ => ?_⟩
    · have := ho.2 l hl
      simp_all
    · cases hc : ks.contains l <;> simp_all

/-- An `else` clause is the last one: a clause after it is an error. -/
theorem reads_elseClause {ks : List Kind} (hks : ∀ k ∈ ks, k = .endKw) :
    (look fun v =>
      if v.sees .elseKw && v.clauseAttaches family.category then seq [
        call (.elseClause family),
        many (·.clauseAttaches family.category) fun _ => clauseAfterElse family]
      else done).Reads (.opt (.rule (.elseClause family))) ends false anywhere
      (.inBlock ⟨.ifBlock, family.category⟩ ks) := by
  have hcall : (call (.elseClause family)).Reads (.rule (.elseClause family)) ends false
      (atOneOf [.elseKw]) (.bodyEnd family) :=
    reads_call (fun _ h => List.mem_singleton.mp h) nofun
  have hnone : (many (·.clauseAttaches family.category) fun _ => clauseAfterElse family).Reads
      .empty ends false anywhere (.inBlock ⟨.ifBlock, family.category⟩ ks) := by
    refine reads_many_fails (fun v => fails_seq_cons fails_fault) fun v h => ?_
    have hk : v.kind = .endKw := hks _ h.2
    simp [Lookahead.clauseAttaches, hk, isClauseKeyword, clauseOwner?]
  have hclause : (seq [call (.elseClause family),
        many (·.clauseAttaches family.category) fun _ => clauseAfterElse family]).Reads
      (.rule (.elseClause family)) ends false (atOneOf [.elseKw])
      (.inBlock ⟨.ifBlock, family.category⟩ ks) := by
    refine (reads_andThen hcall hnone ?_).map (fun hd => ?_) fun hh => ?_
    · intro he constructs n ts us rest hd hafter
      cases hd
      exact bodyEnd_of_inBlock (fun k hk => .inl (hks k hk)) hafter
    · cases hd with
      | seq hf hnil =>
        cases hnil
        simpa using hf
    · exact ⟨_, _, [], [], by simp, by simp, hh, rfl, rfl⟩
  refine reads_ite hclause reads_done (fun v h _ => ?_) (fun _ _ h => h)
    (fun he v n ts us rest hd ha hstop => ?_) fun he v n ts us rest hd ha hstop => ?_
  · have hsees := ((Bool.and_eq_true _ _).mp h).1
    exact List.mem_singleton.mpr (beq_iff_eq.mp hsees)
  · have hkind : v.kind = .elseKw := by
      rw [Lookahead.kind, ha]
      exact List.mem_singleton.mp (headKind_of_opens he (by cases family <;> decide) hd rest)
    have hattach : v.clauseAttaches family.category = true :=
      clauseAttaches_of_head hstop.1 (by rw [hkind]; rfl)
    simp [Lookahead.sees, hkind, hattach]
  · cases hd
    have hk : v.kind = .endKw := by
      rw [Lookahead.kind, ha]
      exact hks _ hstop.2
    simp [Lookahead.sees, hk]

/-- The part of a block between its head and its end, with the block open. -/
theorem reads_blockBody {construct : Construct} {p : Production} {f : Form}
    (hp : p.Reads f ends false anywhere (.inBlock ⟨construct, family.category⟩ [.endKw])) :
    (opening ⟨construct, family.category⟩ p).Reads f ends false anywhere (.only [.endKw]) :=
  reads_opening hp fun _ _ h => ⟨rfl, List.contains_iff_mem.mp h⟩

theorem isRead_ifBlock : (Nonterminal.ifBlock family).IsRead ends := by
  have hbody : (call (.body family)).Reads (.rule (.body family)) ends false anywhere
      (.inBlock ⟨.ifBlock, family.category⟩ [.elseifKw, .elseKw, .endKw]) :=
    reads_call_body.mono (fun _ => id) fun _ _ => bodyEnd_of_inBlock (by decide)
  have hclauses : (many (fun v => v.sees .elseifKw && v.clauseAttaches family.category)
        fun _ => call (.elseIfClause family)).Reads
          (.many (.rule (.elseIfClause family))) ends false
      anywhere (.inBlock ⟨.ifBlock, family.category⟩ [.elseKw, .endKw]) :=
    reads_clauses (by decide) (by decide) (by decide) rfl (fun _ => id)
      (by cases family <;> decide)
  have hparts : (seq [
        call (.body family),
        many (fun v => v.sees .elseifKw && v.clauseAttaches family.category)
          fun _ => call (.elseIfClause family),
        look fun v =>
          if v.sees .elseKw && v.clauseAttaches family.category then seq [
            call (.elseClause family),
            many (·.clauseAttaches family.category) fun _ => clauseAfterElse family]
          else done]).Reads
      (.sequence [
        .rule (.body family), .many (.rule (.elseIfClause family)),
        .opt (.rule (.elseClause family))])
      ends false anywhere (.inBlock ⟨.ifBlock, family.category⟩ [.endKw]) :=
    reads_seq_cons hbody
      (reads_seq_cons hclauses (reads_elseClause (by decide))
        (fits_inBlock (by cases family <;> decide)))
      (fits_inBlock (by cases family <;> decide))
  exact reads_look fun start => reads_node
    (reads_condition (fun _ h => h) (by decide) (by decide) (by decide)
      (reads_seq_cons (reads_blockBody hparts) reads_finishBlock (fits_of_first rfl)))

theorem isRead_whenBlock : (Nonterminal.whenBlock family).IsRead ends := by
  have hbody : (call (.body family)).Reads (.rule (.body family)) ends false anywhere
      (.inBlock ⟨.whenBlock, family.category⟩ [.elsewhenKw, .endKw]) :=
    reads_call_body.mono (fun _ => id) fun _ _ => bodyEnd_of_inBlock (by decide)
  have hclauses : (many (fun v => v.sees .elsewhenKw && v.clauseAttaches family.category)
        fun _ => call (.elseWhenClause family)).Reads (.many (.rule (.elseWhenClause family))) ends
      false anywhere (.inBlock ⟨.whenBlock, family.category⟩ [.endKw]) :=
    reads_clauses (by decide) (by decide) (by decide) rfl (fun _ => id)
      (by cases family <;> decide)
  have hparts : (seq [
        call (.body family),
        many (fun v => v.sees .elsewhenKw && v.clauseAttaches family.category)
          fun _ => call (.elseWhenClause family)]).Reads
      (.sequence [.rule (.body family), .many (.rule (.elseWhenClause family))])
      ends false anywhere (.inBlock ⟨.whenBlock, family.category⟩ [.endKw]) :=
    reads_andThen hbody hclauses (fits_inBlock (by cases family <;> decide))
  exact reads_look fun start => reads_node
    (reads_condition (fun _ h => h) (by decide) (by decide) (by decide)
      (reads_seq_cons (reads_blockBody hparts) reads_finishBlock (fits_of_first rfl)))

/-- The body of a loop. -/
theorem reads_loopBody {construct : Construct} :
    (opening ⟨construct, family.category⟩ (call (.body family))).Reads (.rule (.body family)) ends
      false anywhere (.only [.endKw]) :=
  reads_blockBody (reads_call_body.mono (fun _ => id) fun _ _ =>
    bodyEnd_of_inBlock (by cases construct <;> decide))

theorem isRead_forBlock : (Nonterminal.forBlock family).IsRead ends := by
  have hindices : (separated .comma (call .forIndex)).Reads (.separated .comma (.rule .forIndex))
      ends false anywhere (.kind fun x =>
        !(Kind.inKw :: Kind.afterExpression).contains x && !([Kind.comma].contains x)) :=
    reads_separated (by decide) (reads_call (fun _ _ => trivial) nofun) (by decide)
  exact reads_look fun start => reads_node
    (reads_seq_cons (reads_shift (fun _ h => List.mem_singleton.mpr h) (by decide))
      (reads_seq_cons hindices
        (reads_seq_cons (reads_expect (by decide))
          (reads_seq_cons reads_loopBody reads_finishBlock (fits_of_first rfl))
          fits_any)
        (fits_of_first rfl))
      fits_any)

theorem isRead_whileBlock : Nonterminal.whileBlock.IsRead ends := by
  have hbody : (opening ⟨.whileBlock, .statement⟩ (call (.body .statements))).Reads
      (.rule (.body .statements)) ends false anywhere (.only [.endKw]) :=
    @reads_loopBody ends .statements .whileBlock
  exact reads_look fun start => reads_node
    (reads_condition (fun _ h => h) (by decide) (by decide) (by decide)
      (reads_seq_cons hbody reads_finishBlock (fits_of_first rfl)))

end Modelica.Grammar
