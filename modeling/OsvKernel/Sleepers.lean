import Mathlib

/-! Waiting for a condition that others make true and announce later: whoever sleeps has reason to, or an
announcement is on its way. -/
namespace Sleepers
open Function

variable {C K : Type} {asleep waking ok ok' : K → Prop} {calls : C → K}

def Covered (asleep waking ok : K → Prop) (calls : C → K) : Prop :=
  ∀ c, asleep (calls c) → ok (calls c) ∨ ∃ d, waking (calls d)

lemma Covered.set [DecidableEq C] (covered : Covered asleep waking ok calls) {c : C} {x : K} (quiet : ¬waking (calls c))
    (own : asleep x → ok' x) (stays : ∀ k, asleep k → ok k → ok' k) :
    Covered asleep waking ok' (update calls c x) := by
  intro d sleeps
  rw [update_apply] at sleeps ⊢
  split at sleeps
  next same =>
    rw [if_pos same]
    exact .inl (own sleeps)
  rename_i other
  rw [if_neg other]
  rcases covered d sleeps with fine | ⟨e,wakes⟩
  · exact .inl (stays _ sleeps fine)
  refine .inr ⟨e,?_⟩
  have apart : e ≠ c := fun same => quiet (same ▸ wakes)
  rwa [update_of_ne apart]

lemma Covered.announced [DecidableEq C] (calls : C → K) {c : C} {x : K} (wakes : waking x) :
    Covered asleep waking ok (update calls c x) :=
  fun _ _ => .inr ⟨c,by rwa [update_self]⟩

lemma Covered.awake (none : ∀ c, ¬asleep (calls c)) : Covered asleep waking ok calls :=
  fun c sleeps => absurd sleeps (none c)

lemma Covered.map (covered : Covered asleep waking ok calls) (f : K → K) (same : ∀ k, asleep (f k) → asleep k ∧ f k = k)
    (kept : ∀ k, waking k → waking (f k)) : Covered asleep waking ok fun c => f (calls c) := by
  intro c sleeps
  obtain ⟨before,fixed⟩ := same _ sleeps
  rcases covered c before with fine | ⟨d,wakes⟩
  · exact .inl (fixed.symm.subst fine)
  · exact .inr ⟨d,kept _ wakes⟩

end Sleepers
