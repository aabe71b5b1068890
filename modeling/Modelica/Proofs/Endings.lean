import Modelica.Proofs.Demands

/-!
# Where classes end

The last thing in a long class specifier is to look for its `end`. `Demand.ending` asks this of the
rules.
-/

namespace Modelica

/-- The last thing that the production does is to look for the `end` of a class. -/
def Production.EndsClass : Production → Prop
  | andThen _ q => q.EndsClass
  | look next =>
    (∃ name opened, look next = Grammar.classEnd name opened) ∨ ∀ v, (next v).EndsClass
  | _ => False

namespace Demand

/-- Long class specifiers end where the `end` of a class is looked for, and where an `end` is said
to be missing it is said to be expected. -/
def ending : Demand where
  look _ := True
  report _ d := d.code = .missingEnd → d.expected = [.endKw]
  call _ rule := rule ≠ .keywordStatement .longClassSpecifier
  wrap kind _ p := kind = .longClassSpecifier → p.EndsClass
  whole _ := False

@[simp] theorem ending_report {v : Lookahead} {d : Diagnostic Spot} :
    ending.report v d ↔ (d.code = .missingEnd → d.expected = [.endKw]) := Iff.rfl

@[simp] theorem ending_look {v : Lookahead} : ending.look v := True.intro

@[simp] theorem ending_call {v : Lookahead} {rule : Nonterminal} :
    ending.call v rule ↔ rule ≠ .keywordStatement .longClassSpecifier := Iff.rfl

@[simp] theorem ending_wrap {kind : Kind} {v : Lookahead} {p : Production} :
    ending.wrap kind v p ↔ (kind = .longClassSpecifier → p.EndsClass) := Iff.rfl

@[simp] theorem ending_whole {p : Production} : ¬ ending.whole p := id

end Demand

end Modelica
