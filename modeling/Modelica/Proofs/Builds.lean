import Modelica.Proofs.Builder
import Modelica.Routine.Rules

/-!
# Runs of routines

`Builds` says what the calls of a routine do to the builder. A call that trips has no rule, so a
routine that is built to its end has tripped nowhere.
-/

namespace Modelica

/-- `Builds keeps p b value b'`: the calls of `p` take the builder from `b` to `b'` and end with
`value`, and every rule that is called on the way stands in `keeps` with what it was called on. -/
inductive Builds (keeps : Builder → Builder → Prop) :
    {α : Type} → Routine α → Builder → α → Builder → Prop
  | ret {α : Type} {value : α} {b} : Builds keeps (.ret value) b value b
  | act {α β : Type} {action : Action β} {next : β → Routine α} {value b x m b'} :
      action.apply b = some (x, m) → Builds keeps (next x) m value b' →
      Builds keeps (.act action next) b value b'
  | call {α : Type} {rule} {next : Unit → Routine α} {value b m b'} :
      Builds keeps rule.routine b () m → keeps b m → Builds keeps (next ()) m value b' →
      Builds keeps (.call rule next) b value b'
  | turn {α σ : Type} {vars vars' : σ} {turn} {next : σ → Routine α} {value b m b'} :
      Builds keeps (turn vars) b (.yield vars') m →
      Builds keeps (.loop vars' turn next) m value b' →
      Builds keeps (.loop vars turn next) b value b'
  | stop {α σ : Type} {vars vars' : σ} {turn} {next : σ → Routine α} {value b m b'} :
      Builds keeps (turn vars) b (.done vars') m → Builds keeps (next vars') m value b' →
      Builds keeps (.loop vars turn next) b value b'

variable {keeps keeps' : Builder → Builder → Prop} {α β : Type} {b b' : Builder}

/-- A routine ends in one way at most. -/
theorem Builds.determined {p : Routine α} {x y : α} {b'' : Builder} (h : Builds keeps p b x b')
    (h' : Builds keeps' p b y b'') : x = y ∧ b' = b'' := by
  induction h generalizing b'' with
  | ret => cases h'; exact ⟨rfl, rfl⟩
  | act ha _ ih =>
    cases h' with
    | act ha' hn =>
      cases ha.symm.trans ha'
      exact ih hn
  | call _ _ _ ihr ihn =>
    cases h' with
    | call hr _ hn =>
      obtain ⟨-, rfl⟩ := ihr hr
      exact ihn hn
  | turn _ _ iht ihn =>
    cases h' with
    | turn ht hn =>
      obtain ⟨he, rfl⟩ := iht ht
      cases he
      exact ihn hn
    | stop ht => cases (iht ht).1
  | stop _ _ iht ihn =>
    cases h' with
    | turn ht => cases (iht ht).1
    | stop ht hn =>
      obtain ⟨he, rfl⟩ := iht ht
      cases he
      exact ihn hn

namespace Routine

instance : LawfulMonad Routine := .mk' Routine
  (fun p => by
    change p.bind ret = p
    induction p with
    | ret => rfl
    | act _ _ ih | call _ _ ih | loop _ _ _ _ ih => simp [bind, ih])
  (fun _ _ => rfl)
  (fun p f g => by
    change (p.bind f).bind g = p.bind fun x => (f x).bind g
    induction p with
    | ret => rfl
    | act _ _ ih | call _ _ ih | loop _ _ _ _ ih => simp [bind, ih])

@[simp] theorem act_bind {γ : Type} (action : Action γ) (next : γ → Routine α) (f : α → Routine β) :
    act action next >>= f = act action fun x => next x >>= f := rfl

@[simp] theorem call_bind (rule : Nonterminal) (next : Unit → Routine α) (f : α → Routine β) :
    call rule next >>= f = call rule fun x => next x >>= f := rfl

@[simp] theorem loop_bind {σ : Type} (vars : σ) (turn : σ → Routine (ForInStep σ))
    (next : σ → Routine α) (f : α → Routine β) :
    loop vars turn next >>= f = loop vars turn fun s => next s >>= f := rfl

@[simp] theorem ite_bind {c : Prop} [Decidable c] {p q : Routine α} {f : α → Routine β} :
    (if c then p else q) >>= f = if c then p >>= f else q >>= f := by
  split <;> rfl

@[simp] theorem ite_eq_false {c : Bool} {p q : Routine α} :
    (if c = false then p else q) = if c = true then q else p := by
  cases c <;> rfl

end Routine

theorem Builds.bind {p : Routine α} {f : α → Routine β} {x : α} {y : β} {m : Builder}
    (h : Builds keeps p b x m) (hf : Builds keeps (f x) m y b') :
    Builds keeps (p >>= f) b y b' := by
  induction h with
  | ret => exact hf
  | act ha _ ih => exact .act ha (ih hf)
  | call hr hk _ _ ih => exact .call hr hk (ih hf)
  | turn ht _ _ ih => exact .turn ht (ih hf)
  | stop ht _ _ ih => exact .stop ht (ih hf)

theorem builds_bind {p : Routine α} {f : α → Routine β} {y : β} :
    Builds keeps (p >>= f) b y b' ↔
      ∃ x m, Builds keeps p b x m ∧ Builds keeps (f x) m y b' := by
  refine ⟨fun h => ?_, fun ⟨x, m, h, hf⟩ => h.bind hf⟩
  generalize hq : p >>= f = q at h
  induction h generalizing p with
  | ret =>
    cases p with
    | ret x => exact ⟨x, _, .ret, by rw [show f x = _ from hq]; exact .ret⟩
    | _ => cases hq
  | act ha hn ih =>
    cases p with
    | ret x => exact ⟨x, _, .ret, by rw [show f x = _ from hq]; exact .act ha hn⟩
    | act =>
      cases hq
      obtain ⟨x, m, hp, hf⟩ := ih rfl
      exact ⟨x, m, .act ha hp, hf⟩
    | _ => cases hq
  | call hr hk hn _ ih =>
    cases p with
    | ret x => exact ⟨x, _, .ret, by rw [show f x = _ from hq]; exact .call hr hk hn⟩
    | call =>
      cases hq
      obtain ⟨x, m, hp, hf⟩ := ih rfl
      exact ⟨x, m, .call hr hk hp, hf⟩
    | _ => cases hq
  | turn ht hn _ ih =>
    cases p with
    | ret x => exact ⟨x, _, .ret, by rw [show f x = _ from hq]; exact .turn ht hn⟩
    | loop _ _ next =>
      cases hq
      obtain ⟨x, m, hp, hf⟩ := ih (p := .loop _ _ next) (Routine.loop_bind _ _ _ f)
      exact ⟨x, m, .turn ht hp, hf⟩
    | _ => cases hq
  | stop ht hn _ ih =>
    cases p with
    | ret x => exact ⟨x, _, .ret, by rw [show f x = _ from hq]; exact .stop ht hn⟩
    | loop =>
      cases hq
      obtain ⟨x, m, hp, hf⟩ := ih rfl
      exact ⟨x, m, .stop ht hp, hf⟩
    | _ => cases hq

/-- Who looks goes on with what lies ahead. -/
theorem builds_look {f : Lookahead → Routine α} {x : α} :
    Builds keeps (Routine.look >>= f) b x b' ↔ Builds keeps (f b.look) b x b' :=
  ⟨fun h => by cases h with | act ha hn => cases ha; exact hn, fun h => .act rfl h⟩

end Modelica
