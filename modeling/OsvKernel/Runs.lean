import Mathlib

/-! Finite runs of a guarded partial step function. An operation that the guard
refuses, or on which the step has no next state, does not extend a run. -/
namespace Runs
open Option

-- The literals of the small index types that runs are over.
instance neZeroOne : NeZero 1 := ⟨by decide⟩
instance neZeroTwo : NeZero 2 := ⟨by decide⟩
instance neZeroThree : NeZero 3 := ⟨by decide⟩
instance neZeroFour : NeZero 4 := ⟨by decide⟩
instance neZeroSix : NeZero 6 := ⟨by decide⟩

variable {σ ω : Type} {step : σ → ω → Option σ} {start : σ → Prop}

inductive Reach (step : σ → ω → Option σ) (ok : σ → ω → Prop) (start : σ → Prop) : σ → Prop where
  | init {s} (first : start s) : Reach step ok start s
  | next {s t o} (before : Reach step ok start s) (allowed : ok s o) (taken : step s o = some t) :
      Reach step ok start t

lemma invariant {ok : σ → ω → Prop} {P : σ → Prop}
    (base : ∀ s, start s → P s)
    (keep : ∀ s o t, P s → ok s o → step s o = some t → P t)
    {s : σ} (reach : Reach step ok start s) : P s := by
  induction reach with
  | init first => exact base _ first
  | next before allowed taken ih => exact keep _ _ _ ih allowed taken

def after (step : σ → ω → Option σ) (s : σ) (o : ω) : σ := (step s o).getD s

variable {s t : σ} {step : σ → ω → Option σ} {ok : σ → ω → Prop} {os : List ω} {start : σ → Prop}

lemma afterTaken {o : ω} (ok : (step s o).isSome = true) :
    step s o = some (after step s o) := by
  obtain ⟨t,taken⟩ := isSome_iff_exists.mp ok
  rw [after,taken]
  rfl

def replay (step : σ → ω → Option σ) : σ → List ω → Option σ
  | s,[] => some s
  | s,o::os => (step s o).bind fun t => replay step t os

lemma reachAllowed (reach : Reach step ok start s) (allowed : ∀ o ∈ os, ∀ s, ok s o) (taken : replay step s os = some t) :
    Reach step ok start t := by
  induction os generalizing s with
  | nil => exact some.inj taken ▸ reach
  | cons o os ih =>
    obtain ⟨next,first,rest⟩ := bind_eq_some_iff.mp taken
    exact ih (reach.next (allowed o List.mem_cons_self s) first) (fun p mem => allowed p (List.mem_cons_of_mem o mem)) rest

def played (step : σ → ω → Option σ) (s : σ) (os : List ω) : σ := (replay step s os).getD s

lemma reachPlayed (os : List ω)
    (first : start s) (allowed : ∀ o ∈ os, ∀ s, ok s o) (taken : (replay step s os).isSome = true) :
    Reach step ok start (played step s os) := by
  obtain ⟨t,taken⟩ := isSome_iff_exists.mp taken
  rw [played,taken]
  exact reachAllowed (.init first) allowed taken

def guarded (step : σ → ω → Option σ) (ok : σ → ω → Prop) [∀ s o, Decidable (ok s o)] (s : σ) (o : ω) : Option σ :=
  if ok s o then step s o else none

lemma reachGuarded [∀ s o, Decidable (ok s o)] (reach : Reach step ok start s)
    (taken : replay (guarded step ok) s os = some t) : Reach step ok start t := by
  induction os generalizing s with
  | nil => exact some.inj taken ▸ reach
  | cons o os ih =>
    obtain ⟨next,first,rest⟩ := bind_eq_some_iff.mp taken
    obtain ⟨allowed,first⟩ := ite_none_right_eq_some.mp first
    exact ih (reach.next allowed first) rest

lemma replayGuarded [∀ s o, Decidable (ok s o)]
    (taken : replay (guarded step ok) s os = some t) : replay step s os = some t := by
  induction os generalizing s with
  | nil => exact taken
  | cons o os ih =>
    obtain ⟨u,first,rest⟩ := bind_eq_some_iff.mp taken
    have here : step s o = some u := (ite_none_right_eq_some.mp first).2
    rw [replay,here]
    exact ih rest

def final (step : σ → ω → Option σ) (ok : σ → ω → Prop) [∀ s o, Decidable (ok s o)] (s : σ) (os : List ω) : σ :=
  (replay (guarded step ok) s os).getD s

lemma reachFinal [∀ s o, Decidable (ok s o)] (os : List ω) (first : start s)
    (taken : (replay (guarded step ok) s os).isSome = true) : Reach step ok start (final step ok s os) := by
  obtain ⟨t,taken⟩ := isSome_iff_exists.mp taken
  rw [final,taken]
  exact reachGuarded (.init first) taken

end Runs
