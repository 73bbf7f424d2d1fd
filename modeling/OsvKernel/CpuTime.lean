import Mathlib

/-! The cpu time estimator of core/sched.cc: two times in one 64-bit word, each without its low 10 and its high 22
bits. Times are the 64-bit counts of their durations. -/
namespace OsvKernel.CpuTime
open Nat

def cputimeShift : Nat := 10

def cputimeEstimatorSet (runningSince totalCpuTime : BitVec 64) : BitVec 64 :=
  let rs : BitVec 32 := (runningSince.sshiftRight cputimeShift).setWidth 32
  let tc : BitVec 32 := (totalCpuTime.sshiftRight cputimeShift).setWidth 32
  rs.setWidth 64 ||| tc.setWidth 64 <<< 32

def ho : BitVec 64 := BitVec.allOnes 64 &&& ~~~(BitVec.allOnes 64 >>> (64 - 32 - cputimeShift))

-- get() does this to the saved bits of either time.
def recover (saved ref : BitVec 64) : BitVec 64 :=
  let high := ref &&& ho
  (if ref &&& ~~~ho < saved then high - 1 <<< (32 + cputimeShift) else high) ||| saved

def cputimeEstimatorGet (e now totalCpuTime : BitVec 64) : BitVec 64 × BitVec 64 :=
  let rs := (e.setWidth 32).setWidth 64 <<< cputimeShift
  let tc := (e >>> 32) <<< cputimeShift
  (recover rs now,recover tc totalCpuTime)

variable {x saved ref : BitVec 64}

-- The bits of a time that its half of the word keeps.
def kept (x : BitVec 64) : Nat := x.toNat / 2^10 % 2^32 * 2^10

lemma halfNat (low : x.toNat < 2^63) : ((x.sshiftRight cputimeShift).setWidth 32).toNat = x.toNat / 2^10 % 2^32 := by
  rw [BitVec.sshiftRight_eq_of_msb_false (BitVec.msb_eq_false_iff_two_mul_lt.mpr (by omega)),BitVec.toNat_setWidth,
    BitVec.toNat_ushiftRight,shiftRight_eq_div_pow]
  rfl

lemma packNat (a b : BitVec 32) : (a.setWidth 64 ||| b.setWidth 64 <<< 32).toNat = 2^32 * b.toNat + a.toNat := by
  have small : b.toNat * 2^32 < 2^64 := by have := b.isLt; omega
  rw [BitVec.toNat_or,BitVec.toNat_shiftLeft,BitVec.toNat_setWidth_of_le (by decide),BitVec.toNat_setWidth_of_le (by decide),
    Nat.shiftLeft_eq,Nat.mod_eq_of_lt small,Nat.or_comm,Nat.mul_comm,← Nat.two_pow_add_eq_or_of_lt a.isLt]

lemma maskNat {mask : BitVec 64} (k : Nat) (bits : ∀ i < 64, mask.getLsbD i = decide (k ≤ i)) :
    (x &&& mask).toNat = x.toNat / 2^k * 2^k := by
  have same : x &&& mask = (x >>> k) <<< k := by
    refine BitVec.eq_of_getLsbD_eq fun i lt => ?_
    rw [BitVec.getLsbD_and,bits i lt,BitVec.getLsbD_shiftLeft,BitVec.getLsbD_ushiftRight]
    by_cases above : k ≤ i
    · simp [above,lt,not_lt.mpr above]
    · simp [above,not_le.mp above]
  rw [same,BitVec.toNat_shiftLeft,BitVec.toNat_ushiftRight,shiftRight_eq_div_pow,shiftLeft_eq]
  exact mod_eq_of_lt (lt_of_le_of_lt (div_mul_le_self _ _) x.isLt)

lemma lowNat : (ref &&& ~~~ho).toNat = ref.toNat % 2^42 := by
  rw [show ~~~ho = BitVec.ofNat 64 (2^42 - 1) by decide,BitVec.toNat_and,BitVec.toNat_ofNat,
    mod_eq_of_lt (by decide),and_two_pow_sub_one_eq_mod]

lemma recoverNat (bits : saved.toNat = kept x) (later : x.toNat ≤ ref.toNat) (near : ref.toNat - x.toNat ≤ 2^42 - 1024) :
    (recover saved ref).toNat = x.toNat / 2^10 * 2^10 := by
  have bound := ref.isLt
  have short : saved.toNat < 2^42 := by
    rw [bits,kept]
    omega
  -- The reference has left the window of x exactly if its low part is below the saved one.
  have window : ∀ high : BitVec 64, high.toNat = 2^42 * (x.toNat / 2^42) → (high ||| saved).toNat = x.toNat / 2^10 * 2^10 := by
    intro high same
    rw [BitVec.toNat_or,same,← two_pow_add_eq_or_of_lt short,bits,kept]
    omega
  have highNat : (ref &&& ho).toNat = ref.toNat / 2^42 * 2^42 := maskNat 42 (by decide)
  dsimp only [recover]
  rw [kept] at bits
  split
  next borrow =>
    rw [BitVec.lt_def,lowNat,bits] at borrow
    refine window _ ?_
    rw [BitVec.toNat_sub,highNat]
    change (2^64 - 2^42 + _) % 2^64 = _
    omega
  next same =>
    rw [BitVec.lt_def,lowNat,bits] at same
    refine window _ ?_
    rw [highNat]
    omega

theorem timesRecovered {rs tc now ref : BitVec 64} (nowLow : now.toNat < 2^63) (refLow : ref.toNat < 2^63)
    (nowLater : rs.toNat ≤ now.toNat) (nowNear : now.toNat - rs.toNat ≤ 2^42 - 1024)
    (refLater : tc.toNat ≤ ref.toNat) (refNear : ref.toNat - tc.toNat ≤ 2^42 - 1024) :
    cputimeEstimatorGet (cputimeEstimatorSet rs tc) now ref = (rs &&& ~~~1023#64,tc &&& ~~~1023#64) := by
  have word := packNat ((rs.sshiftRight cputimeShift).setWidth 32) ((tc.sshiftRight cputimeShift).setWidth 32)
  rw [halfNat (by omega),halfNat (by omega)] at word
  have first : ((((cputimeEstimatorSet rs tc).setWidth 32).setWidth 64) <<< cputimeShift).toNat = kept rs := by
    rw [BitVec.toNat_shiftLeft,BitVec.toNat_setWidth_of_le (by decide),BitVec.toNat_setWidth,cputimeEstimatorSet,word,
      shiftLeft_eq,kept,cputimeShift]
    omega
  have second : ((cputimeEstimatorSet rs tc >>> 32) <<< cputimeShift).toNat = kept tc := by
    rw [BitVec.toNat_shiftLeft,BitVec.toNat_ushiftRight,cputimeEstimatorSet,word,shiftRight_eq_div_pow,
      shiftLeft_eq,kept,cputimeShift]
    omega
  refine Prod.ext (BitVec.eq_of_toNat_eq ?_) (BitVec.eq_of_toNat_eq ?_)
  · exact (recoverNat first nowLater nowNear).trans (maskNat 10 (by decide)).symm
  · exact (recoverNat second refLater refNear).trans (maskNat 10 (by decide)).symm

-- Both times have crossed a window of 2^42 since they were saved.
theorem timesRecoveredBorrow :
    cputimeEstimatorGet (cputimeEstimatorSet 0x3fffffffff9#64 0x7ffffffffff#64) 0x40000000007#64 0x80000000000#64 =
      (0x3fffffffc00#64,0x7fffffffc00#64) :=
  timesRecovered (by decide) (by decide) (by decide) (by decide) (by decide) (by decide)

end OsvKernel.CpuTime
