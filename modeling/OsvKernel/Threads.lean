import Mathlib

/-! A quantity each thread has a share of. A step of one thread changes one share, so
the total moves by the difference; a handover changes two. -/
namespace OsvKernel
open Function Finset

section
variable {T : Type} [Fintype T]

def total (f : T → Nat) : Nat := ∑ t, f t

variable {f g : T → Nat} {t u : T}

lemma totalSame (same : ∀ v, g v = f v) : total g = total f := sum_congr rfl fun v _ => same v

lemma totalLe (le : ∀ v, f v ≤ g v) : total f ≤ total g := sum_le_sum fun v _ => le v

lemma totalZero (zero : ∀ t, f t = 0) : total f = 0 := sum_eq_zero fun v _ => zero v

lemma totalPos (pos : 0 < total f) : ∃ t, 0 < f t := by
  by_contra none
  have zero := totalZero fun v => Nat.eq_zero_of_not_pos fun some => none ⟨v,some⟩
  omega

lemma leTotal (f : T → Nat) (t : T) : f t ≤ total f :=
  single_le_sum (fun _ _ => Nat.zero_le _) (mem_univ t)

lemma totalLeCard (le : ∀ v, f v ≤ 1) : total f ≤ Fintype.card T :=
  (totalLe le).trans (card_eq_sum_ones univ).ge

lemma totalFull (le : ∀ v, f v ≤ 1) (full : total f = Fintype.card T) (v : T) : f v = 1 := by
  have sum := full.trans (card_eq_sum_ones univ)
  exact (sum_eq_sum_iff_of_le fun v _ => le v).mp sum v (mem_univ v)

variable [DecidableEq T]

lemma totalSplit (f : T → Nat) (t : T) : total f = f t + ∑ v ∈ univ.erase t, f v :=
  (add_sum_erase univ f (mem_univ t)).symm

lemma totalMove (same : ∀ v, v ≠ t → g v = f v) : total g + f t = total f + g t := by
  have rest : ∑ v ∈ univ.erase t, g v = ∑ v ∈ univ.erase t, f v :=
    sum_congr rfl fun v mem => same v (ne_of_mem_erase mem)
  rw [totalSplit f t,totalSplit g t,rest]
  omega

lemma totalUpdate (f : T → Nat) (t : T) (n : Nat) : total (update f t n) + f t = total f + n := by
  have moved := @totalMove T _ f (update f t n) t _ fun v other => update_of_ne other _ _
  rwa [update_self] at moved

lemma totalPair (ne : t ≠ u) (same : ∀ v, v ≠ t → v ≠ u → g v = f v) : total g + f t + f u = total f + g t + g u := by
  have first := @totalMove T _ f (update f t (g t)) t _ fun v other => update_of_ne other _ _
  have second := @totalMove T _ (update f t (g t)) g u _ fun v other => by
    by_cases here : v = t
    · rw [here,update_self]
    · rw [update_of_ne here,same v here other]
  rw [update_self] at first
  rw [update_of_ne ne.symm] at second
  omega

lemma pairLeTotal (f : T → Nat) (ne : t ≠ u) : f t + f u ≤ total f := by
  have le : f u ≤ ∑ v ∈ univ.erase t, f v :=
    single_le_sum (fun _ _ => Nat.zero_le _) (mem_erase.mpr ⟨ne.symm,mem_univ u⟩)
  rw [totalSplit f t]
  omega

end
end OsvKernel
