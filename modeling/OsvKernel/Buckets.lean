import Mathlib

/-! A family of lists indexed by keys and read as one list, bucket after bucket.
Adding to or erasing from one bucket is adding to or erasing from the whole, up
to the order. -/
namespace Buckets
open List Function

variable {κ α : Type} [DecidableEq κ]

variable {f : κ → List α} {k : κ} {keys : List κ}

lemma flatMapUpdateOff {b : List α} (off : k ∉ keys) :
    keys.flatMap (update f k b) = keys.flatMap f := by
  induction keys with
  | nil => rfl
  | cons key keys ih =>
    obtain ⟨ne,rest⟩ := not_or.mp (mt mem_cons.mpr off)
    have same : update f k b key = f key := update_of_ne (Ne.symm ne) _ _
    simp only [flatMap_cons,same,ih rest]

lemma flatMapPush (x : α) (nodup : keys.Nodup) (mem : k ∈ keys) :
    (keys.flatMap (update f k (x::f k))).Perm (x::keys.flatMap f) := by
  induction keys with
  | nil => simp at mem
  | cons key keys ih => ?_
  obtain ⟨fresh,nodup⟩ := nodup_cons.mp nodup
  simp only [flatMap_cons]
  by_cases same : key = k
  · subst key
    rw [update_self,flatMapUpdateOff fresh,cons_append]
  have inside : k ∈ keys := by
    rcases mem_cons.mp mem with eq | rest
    · exact absurd eq.symm same
    exact rest
  rw [update_of_ne same]
  exact ((ih nodup inside).append_left (f key)).trans perm_middle

lemma flatMapErase [DecidableEq α] {x : α}
    (nodup : keys.Nodup) (mem : k ∈ keys) (here : x ∈ f k) :
    (keys.flatMap f).Perm (x::keys.flatMap (update f k ((f k).erase x))) := by
  have push := flatMapPush (f := update f k ((f k).erase x)) x nodup mem
  refine List.Perm.trans ?_ push
  refine List.Perm.flatMap_left _ (fun key _ => ?_)
  by_cases same : key = k
  · subst key
    simpa using perm_cons_erase here
  · simp [update_of_ne same]

lemma sumUpdate {β : Type} {f : κ → β} (g : β → Nat) (b : β)
    (nodup : keys.Nodup) (mem : k ∈ keys) :
    (keys.map (fun key => g (update f k b key))).sum + g (f k) = (keys.map (fun key => g (f key))).sum + g b := by
  induction keys with
  | nil => simp at mem
  | cons key keys ih => ?_
  obtain ⟨fresh,nodup⟩ := nodup_cons.mp nodup
  simp only [map_cons,sum_cons]
  by_cases same : key = k
  · subst key
    have rest : keys.map (fun key => g (update f k b key)) = keys.map (fun key => g (f key)) := by
      refine map_congr_left (fun other there => ?_)
      have ne : other ≠ k := fun eq => fresh (eq ▸ there)
      rw [update_of_ne ne]
    rw [rest,update_self]
    omega
  have inside : k ∈ keys := by
    rcases mem_cons.mp mem with eq | rest
    · exact absurd eq.symm same
    exact rest
  have rest := ih nodup inside
  rw [update_of_ne same]
  omega

end Buckets
