import Mathlib
/-! The leading bit at which one number rises above another. -/
namespace OsvKernel.Leading
open Nat

def Leads (b x y : Nat) : Prop := x / 2^(b+1) = y / 2^(b+1) ∧ y / 2^b < x / 2^b

variable {b c x y z : Nat}

lemma divSame (below : b ≤ c) (same : x / 2^b = y / 2^b) : x / 2^c = y / 2^c := by
  obtain ⟨d,rfl⟩ := Nat.exists_eq_add_of_le below
  rw [pow_add,← Nat.div_div_eq_div_mul,← Nat.div_div_eq_div_mul,same]

lemma ltOfDiv (below : x / 2^b < y / 2^b) : x < y := by
  by_contra above
  exact Nat.not_le.mpr below (Nat.div_le_div_right (Nat.le_of_not_lt above))

lemma leadsXor (below : y < x) : Leads (Nat.log2 (x ^^^ y)) x y := by
  have differ : x ^^^ y ≠ 0 := fun same => by
    have equal := Nat.xor_eq_zero_iff.mp same
    omega
  obtain ⟨low,high⟩ := (log2_eq_iff differ).mp rfl
  have agree : x / 2^(log2 (x ^^^ y) + 1) = y / 2^(log2 (x ^^^ y) + 1) := by
    apply Nat.xor_eq_zero_iff.mp
    rw [← xor_div_two_pow,div_eq_of_lt high]
  have part : x / 2^(log2 (x ^^^ y)) ≠ y / 2^(log2 (x ^^^ y)) := fun same => by
    have none := Nat.xor_eq_zero_iff.mpr same
    rw [← xor_div_two_pow] at none
    exact absurd (Nat.div_pos low (Nat.two_pow_pos _)) (by omega)
  have order : y / 2^(log2 (x ^^^ y)) ≤ x / 2^(log2 (x ^^^ y)) :=
    Nat.div_le_div_right (Nat.le_of_lt below)
  exact ⟨agree,by omega⟩

lemma Leads.order (first : Leads b x y) (second : Leads c z y) (below : b < c) : x < z := by
  have same := divSame below first.1
  exact ltOfDiv (same ▸ second.2)

lemma Leads.unique (first : Leads b x y) (second : Leads c x y) : b = c := by
  rcases lt_trichotomy b c with below | same | above
  · exact absurd (first.order second below) (lt_irrefl x)
  · exact same
  · exact absurd (second.order first above) (lt_irrefl x)

lemma Leads.keep (far : Leads b x y) (near : Leads c z y) (below : c < b) : Leads b x z := by
  have same := divSame below near.1
  have agree : z / 2^(b+1) = y / 2^(b+1) := divSame (by omega) near.1
  exact ⟨far.1.trans agree.symm,by rw [same]; exact far.2⟩

lemma Leads.share (first : Leads b x y) (second : Leads b z y) (below : z < x) : ∃ c, c < b ∧ Leads c x z := by
  refine ⟨_,?_,leadsXor below⟩
  have leads := leadsXor below
  by_contra above
  have half : ∀ n : Nat, n / 2^(b+1) = n / 2^b / 2 := fun n => by
    rw [pow_succ,Nat.div_div_eq_div_mul]
  have agree : x / 2^b = z / 2^b := by
    have fx := first.1
    have fz := second.1
    have lx := first.2
    have lz := second.2
    rw [half,half] at fx fz
    omega
  have same := divSame (Nat.le_of_not_lt above) agree
  exact absurd leads.2 (by omega)

end OsvKernel.Leading
