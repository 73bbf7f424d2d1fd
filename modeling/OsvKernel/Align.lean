import Mathlib

/-! align_up and align_down of include/osv/align.hh on 64-bit words. For a power
of two below 2^64 the mask rounds down to a multiple; rounding up first adds
alignment - 1, and that sum wraps. -/
namespace OsvKernel
open Nat BitVec

def alignDown (n alignment : Nat) : Nat :=
  (BitVec.ofNat 64 n &&& ~~~(BitVec.ofNat 64 alignment - 1)).toNat

def alignUp (n alignment : Nat) : Nat := alignDown (n + alignment - 1) alignment

lemma maskBit {k : Nat} (hk : k < 64) (i : Nat) :
    (~~~(BitVec.ofNat 64 (2^k) - 1)).getLsbD i = (decide (i < 64) && !decide (i < k)) := by
  have lt : 2^k < 2^64 := Nat.pow_lt_pow_right (by decide) hk
  have pos := Nat.two_pow_pos k
  have low : BitVec.ofNat 64 (2^k) - 1 = BitVec.ofNat 64 (2^k - 1) := by
    apply eq_of_toNat_eq
    rw [toNat_sub]
    simp only [toNat_ofNat,mod_eq_of_lt lt,mod_eq_of_lt (show 2^k - 1 < 2^64 by omega)]
    have one : (1 : BitVec 64).toNat = 1 := rfl
    rw [one]
    omega
  rw [low,getLsbD_not,getLsbD_ofNat,testBit_two_pow_sub_one]
  rcases lt_or_ge i 64 with inside | out
  · simp [inside]
  · simp [not_lt.mpr out]

lemma alignDownPow {n k : Nat} (hk : k < 64) : alignDown n (2^k) = 2^k * (n % 2^64 / 2^k) := by
  apply eq_of_testBit_eq
  intro i
  rw [alignDown,BitVec.testBit_toNat,BitVec.getLsbD_and,maskBit hk,BitVec.getLsbD_ofNat,
    testBit_two_pow_mul,testBit_div_two_pow,testBit_mod_two_pow]
  rcases lt_or_ge i k with low | high
  · simp [low,not_le.mpr low]
  have same : i - k + k = i := by omega
  rw [same]
  simp only [ge_iff_le,high,not_lt.mpr high,decide_true,decide_false,Bool.not_false,Bool.and_true,Bool.true_and]
  rcases lt_or_ge i 64 with inside | out
  · simp [inside]
  · simp [not_lt.mpr out]

lemma alignDownEq {n k : Nat} (hk : k < 64) (lt : n < 2^64) : alignDown n (2^k) = n - n % 2^k := by
  have split := div_add_mod n (2^k)
  rw [alignDownPow hk,mod_eq_of_lt lt]
  omega

lemma alignUpEq {n k : Nat} (hk : k < 64) (lt : n + 2^k - 1 < 2^64) :
    alignUp n (2^k) = (n + 2^k - 1) - (n + 2^k - 1) % 2^k := alignDownEq hk lt

lemma alignUpBounds {n k : Nat} (hk : k < 64) (lt : n + 2^k - 1 < 2^64) :
    n ≤ alignUp n (2^k) ∧ alignUp n (2^k) < n + 2^k ∧ alignUp n (2^k) % 2^k = 0 := by
  have pos := Nat.two_pow_pos k
  have small := mod_lt (n + 2^k - 1) pos
  have split := div_add_mod (n + 2^k - 1) (2^k)
  have up := alignUpEq hk lt
  have multiple : alignUp n (2^k) = 2^k * ((n + 2^k - 1) / 2^k) := by omega
  refine ⟨by omega,by omega,?_⟩
  rw [multiple]
  exact mul_mod_right _ _

lemma orMask (n k : Nat) : n ||| (2^k - 1) = 2^k*(n / 2^k) + (2^k - 1) := by
  have low : 2^k - 1 < 2^k := Nat.sub_lt (Nat.two_pow_pos k) (by decide)
  apply eq_of_testBit_eq
  intro i
  rw [testBit_or,testBit_two_pow_mul_add _ low,testBit_two_pow_sub_one,testBit_div_two_pow]
  rcases lt_or_ge i k with below | above
  · simp [below]
  · simp [Nat.not_lt.mpr above,Nat.sub_add_cancel above]

end OsvKernel
