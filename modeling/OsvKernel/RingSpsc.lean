import Mathlib

/-! ring_spsc with MaxSize = 2^k: _begin and _end run freely over 32 bits and are masked to an index. -/
namespace OsvKernel.RingSpsc
open Function

structure Ring (α : Type) where
  ring : Nat → α
  (begin_ end_ : BitVec 32)

inductive Op (α : Type)
  | push (element : α)
  | pop

inductive Result (α : Type)
  | pushed (ok : Bool)
  | popped (element : Option α)
  deriving DecidableEq

variable {α : Type} {k : Nat} {r : Ring α} {l : List α}

def index (k : Nat) (counter : BitVec 32) : Nat := (counter &&& BitVec.ofNat 32 (2^k - 1)).toNat
def size (r : Ring α) : BitVec 32 := r.end_ - r.begin_

def step (k : Nat) (r : Ring α) : Op α → Result α × Ring α
  | .push element =>
    if (size r).toNat ≥ 2^k then (.pushed false,r)
    else (.pushed true,{ r with ring := update r.ring (index k r.end_) element, end_ := r.end_ + 1 })
  | .pop =>
    if r.begin_ = r.end_ then (.popped none,r)
    else (.popped (some (r.ring (index k r.begin_))),{ r with begin_ := r.begin_ + 1 })

/-- A queue of at most n elements. -/
def fifoStep (n : Nat) (l : List α) : Op α → Result α × List α
  | .push element => if l.length < n then (.pushed true,l ++ [element]) else (.pushed false,l)
  | .pop => (.popped l.head?,l.tail)

def run {σ : Type} (step : σ → Op α → Result α × σ) (s : σ) : List (Op α) → List (Result α)
  | [] => []
  | o::os => (step s o).1::run step (step s o).2 os

/-- b is _begin as it would run without the bound of 32 bits. -/
structure Holds (k : Nat) (r : Ring α) (l : List α) (b : Nat) : Prop where
  first : r.begin_ = BitVec.ofNat 32 b
  last : r.end_ = BitVec.ofNat 32 (b + l.length)
  few : l.length ≤ 2^k
  kept : ∀ i x, l[i]? = some x → r.ring ((b + i) % 2^k) = x

lemma below (small : k < 32) : 2^k < 2^32 := Nat.pow_lt_pow_right (by decide) small

lemma indexOf (small : k < 32) (b : Nat) : index k (BitVec.ofNat 32 b) = b % 2^k := by
  have mask : (2^k - 1) % 2^32 = 2^k - 1 := Nat.mod_eq_of_lt (by have := below small; omega)
  rw [index,BitVec.toNat_and,BitVec.toNat_ofNat,BitVec.toNat_ofNat,mask,Nat.and_two_pow_sub_one_eq_mod]
  exact Nat.mod_mod_of_dvd b (Nat.pow_dvd_pow 2 small.le)

lemma Holds.size {b : Nat} (small : k < 32) (holds : Holds k r l b) : (size r).toNat = l.length := by
  have below := below small
  have few := holds.few
  rw [RingSpsc.size,holds.first,holds.last]
  bv_omega

lemma Holds.step {b : Nat} (small : k < 32) (holds : Holds k r l b) (o : Op α) :
    (step k r o).1 = (fifoStep (2^k) l o).1 ∧ ∃ b, Holds k (step k r o).2 (fifoStep (2^k) l o).2 b := by
  have size := holds.size small
  obtain ⟨first,last,few,kept⟩ := holds
  cases o with
  | push element =>
    simp only [RingSpsc.step,fifoStep,size]
    by_cases full : l.length ≥ 2^k
    · rw [if_pos full,if_neg (Nat.not_lt.mpr full)]
      exact ⟨rfl,b,first,last,few,kept⟩
    rw [if_neg full,if_pos (Nat.lt_of_not_le full)]
    refine ⟨rfl,b,first,?_,by rw [List.length_append]; exact Nat.lt_of_not_le full,fun i x there => ?_⟩
    · simp [last,BitVec.ofNat_add,BitVec.add_assoc]
    dsimp only
    rw [last,indexOf small]
    rcases Nat.lt_trichotomy i l.length with old | rfl | beyond
    · rw [List.getElem?_append_left old] at there
      -- i and the length are both below 2^k, so their slots differ
      rw [update_of_ne (fun same => ?_),kept i x there]
      have := Nat.ModEq.add_left_cancel' b same
      rw [Nat.ModEq,Nat.mod_eq_of_lt (by omega),Nat.mod_eq_of_lt (by omega)] at this
      omega
    · rw [update_self]
      simpa using there
    · rw [List.getElem?_eq_none (by rw [List.length_append]; exact beyond)] at there
      cases there
  | pop =>
    simp only [RingSpsc.step,fifoStep]
    cases l with
    | nil =>
      have same : r.begin_ = r.end_ := by rw [first,last]; rfl
      rw [if_pos same]
      exact ⟨rfl,b,first,last,few,kept⟩
    | cons x rest =>
      have other : r.begin_ ≠ r.end_ := by
        intro same
        rw [RingSpsc.size,same] at size
        simp at size
      have front : r.ring (b % 2^k) = x := kept 0 x rfl
      rw [if_neg other,first,indexOf small,front]
      refine ⟨rfl,b + 1,by simp [BitVec.ofNat_add],?_,Nat.le_of_succ_le few,fun i y there => ?_⟩
      · rw [last,List.length_cons,Nat.add_right_comm,Nat.add_assoc]
        rfl
      rw [Nat.add_assoc,Nat.add_comm 1]
      exact kept (i + 1) y there

theorem ringIsFifo (small : k < 32) (empty : r.begin_ = r.end_) (os : List (Op α)) :
    run (step k) r os = run (fifoStep (2^k)) [] os := by
  have holds : ∃ b, Holds k r [] b := ⟨r.begin_.toNat,by simp,by simp [empty],by simp,nofun⟩
  clear empty
  generalize [] = l at holds ⊢
  induction os generalizing r l with
  | nil => rfl
  | cons o os ih =>
    obtain ⟨b,holds⟩ := holds
    obtain ⟨same,next⟩ := holds.step small o
    rw [run,run,same,ih _ next]

theorem ringIsFifoWrap : run (step 1) ⟨fun _ => 0,-1,-1⟩ [.push 5,.push 6,.push 7,.pop,.pop,.pop] =
    [.pushed true,.pushed true,.pushed false,.popped (some 5),.popped (some 6),.popped none] :=
  ringIsFifo (by decide) rfl _

end OsvKernel.RingSpsc
