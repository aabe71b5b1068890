import Modelica.Proofs.Acceptance
import Modelica.Proofs.Checks

/-!
# Raising the bound on levels

A level that may not be entered is reported as an error, and nothing else depends on the bound. So a
run without errors has entered every level it came to, and goes the same way under a higher bound.
-/

namespace Modelica

open Production

/-- A run without errors does the same under a higher bound. -/
theorem Runs.raise {task : Task} {env : Surroundings} {r r' : Reading} {limit : Nat}
    (h : Runs noError task env r r') (ht : task.Refuses) (hl : env.limit ≤ limit) :
    Runs noError task { env with limit } r r' := by
  induction h with
  | done => exact .done
  | andThen _ _ ihp ihq => exact .andThen (ihp ht.1 hl) (ihq ht.2 hl)
  | shift => exact .shift
  | group _ ih => exact .group (ih ht hl)
  | wrap _ ih => exact .wrap (ih ht hl)
  | look _ ih => exact .look (ih (ht _) hl)
  | many _ ih => exact .many (ih ht hl)
  | stop hc => exact .stop hc
  | turn hc _ _ ihi ihr => exact .turn hc (ihi (ht _) hl) (ihr ht hl)
  | call _ ih => exact .call (ih (Nonterminal.refuses_production _) hl)
  | report hf => exact .report hf
  | inContext _ ih => exact .inContext (ih ht hl)
  | opening _ ih => exact .opening (ih ht hl)
  | within hd _ ih => exact .within (hd.trans hl) (ih ht.1 hl)
  | beyond _ hq =>
    -- the level was refused, so an error was certain
    exact absurd (ht.2 _) hq.not_fails

/-- What is read without errors is read alike under a higher bound. -/
theorem Production.read_raise {p : Production} (hp : p.Tame) (ht : p.Refuses) {n limit : Nat}
    (hn : n ≤ limit) {tokens : List Token} (hc : (p.read n tokens).Clean) :
    p.read limit tokens = p.read n tokens :=
  have hr := p.runs_of_clean hp hc
  (Runs.read_eq hp (hr.raise ht hn)).1

/-- The clause that a text starts with is read without errors where the whole text is. -/
theorem Production.clean_within {n : Nat} {tokens : List Token}
    (hc : (Production.read (.call .storedDefinition) n tokens).Clean) :
    ((before .withinKw (call .withinClause)).read n tokens).Clean := by
  have hr := runs_of_clean (.call .storedDefinition) trivial hc
  obtain ⟨m, hm, -⟩ := runs_node.mp (runs_call.mp hr)
  obtain ⟨w, hw, -⟩ := runs_seq_cons.mp hm
  have hstart : Runs noError (.of (before .withinKw (call .withinClause)))
      ⟨.topLevel, [], 0, n⟩ (.start tokens) w := hw
  obtain ⟨hread, hclean⟩ := Runs.read_eq (by simp [before, Tame]) hstart
  rwa [hread]

/-- **Raising the bound never changes a clean parse.** What parses without errors within a bound
gives the same tree and the same diagnostics within every higher one. -/
theorem parseWith_raise {options : ParseOptions} {limit : Nat} (hl : options.limit ≤ limit)
    {text : String} {p : Parse} (h : parseWith options text = .ok p) (hok : p.ok = true) :
    parseWith { options with limit } text = .ok p := by
  unfold parseWith at h ⊢
  split at h
  · cases h
  · rename_i hstop
    cases h
    have hc := (Parse.clean_of_ok hok).2
    have hwithin : afterWithin limit text = afterWithin options.limit text := by
      rw [afterWithin, afterWithin, read_raise (by simp [before, Tame]) (by simp [before]) hl
        (clean_within hc)]
    have hread := read_raise (p := .call .storedDefinition) trivial trivial hl hc
    rw [hwithin, if_neg hstop, Parse.ofProduction, hread]
    rfl

/-- A class with an equation needs three levels, so no bound from three on shows. -/
theorem parseWith_raise_equation :
    3 ≤ 256 ∧ ∃ p, parseWith ⟨3, false⟩ "model M equation a = b; end M;" = .ok p ∧ p.ok = true ∧
      parseWith ⟨256, false⟩ "model M equation a = b; end M;" = .ok p := by
  have hl : (⟨3, false⟩ : ParseOptions).limit ≤ 256 := by decide
  have hok : (Parse.ofProduction (.call .storedDefinition) 3 "model M equation a = b; end M;").ok =
      true := by decide +kernel
  exact ⟨hl, _, rfl, hok, parseWith_raise hl rfl hok⟩

end Modelica
