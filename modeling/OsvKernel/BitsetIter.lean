import Mathlib
/-! Bit sets of one machine word and the walk over their set bits. -/
namespace OsvKernel.BitsetIter
open List BitVec

abbrev Bitset := BitVec 64

def countLeadingZeros (value : Bitset) : Nat := value.clz.toNat
def countLeadingZerosLong (value : Bitset) : Nat := value.clz.toNat - 1
def countTrailingZeros (value : Bitset) : Nat := value.ctz.toNat
def getFirstSet (bitset : Bitset) : Nat := countTrailingZeros bitset
def getLastSet (bitset : Bitset) : Nat := 64 - 1 - countLeadingZeros bitset

def assign (bitset : Bitset) (i : Nat) (value : Bool) : Bitset :=
  if value then bitset ||| BitVec.twoPow 64 i else bitset &&& ~~~BitVec.twoPow 64 i

structure SetIterator where
  bitset : Bitset
  index : Int
  deriving DecidableEq, Repr

def advance (it : SetIterator) : SetIterator :=
  if it.bitset = 0 then { it with index := -1 } else
    let shift := getFirstSet it.bitset + 1
    ⟨it.bitset >>> shift,it.index + shift⟩

def first (bitset : Bitset) (offset : Nat) : SetIterator := advance ⟨bitset >>> offset,offset - 1⟩

def visited : Nat → SetIterator → List Nat
  | 0, _ => []
  | fuel+1, it => if it.index = -1 then [] else it.index.toNat :: visited fuel (advance it)

def forEachSet (bitset : Bitset) (offset : Nat) : List Nat := visited 65 (first bitset offset)

variable {bitset value : Bitset} {i offset : Nat}

lemma getLsbDAssign {j : Nat} {value : Bool} (inside : i < 64) :
    (assign bitset i value).getLsbD j = if j = i then value else bitset.getLsbD j := by
  by_cases same : j = i
  · subst j
    cases value <;> simp [assign,inside]
  have other : i ≠ j := fun eq => same eq.symm
  cases value
  · by_cases bound : j < 64
    · simp [assign,same,bound]
    · simp [assign,same,bound,getLsbD_of_ge bitset j (Nat.le_of_not_lt bound)]
  · simp [assign,getLsbD_twoPow,same,other]

lemma clzBelow (some : value ≠ 0) : value.clz.toNat < 64 := by
  have below := clz_lt_iff_ne_zero.mpr some
  exact lt_def.mp below

lemma countLeadingZerosLog (some : value ≠ 0) : countLeadingZeros value + Nat.log2 value.toNat = 63 := by
  have below := clzBelow some
  have nonzero : value.toNat ≠ 0 := fun zero => some (eq_of_toNat_eq zero)
  have low := two_pow_sub_clz_le_toNat_of_ne_zero (by decide) some
  have high := @BitVec.toNat_lt_two_pow_sub_clz 64 value
  have log : Nat.log2 value.toNat = 63 - value.clz.toNat := by
    refine (Nat.log2_eq_iff nonzero).mpr ⟨low,?_⟩
    have shift : 63 - value.clz.toNat + 1 = 64 - value.clz.toNat := by omega
    rw [shift]
    exact high
  unfold countLeadingZeros
  omega

lemma getLastSetBit (some : bitset ≠ 0) : bitset.getLsbD (getLastSet bitset) = true :=
  getLsbD_true_clz_of_ne_zero (by decide) some

lemma getLastSetAbove (bit : bitset.getLsbD i = true) : i ≤ getLastSet bitset := by
  by_contra above
  have high := @BitVec.toNat_lt_two_pow_sub_clz 64 bitset
  have low : bitset.toNat < 2^i :=
    Nat.lt_of_lt_of_le high (Nat.pow_le_pow_right (by decide) (by
      unfold getLastSet countLeadingZeros at above
      omega))
  rw [getLsbD,Nat.testBit_lt_two_pow low] at bit
  exact absurd bit (by decide)

lemma zeroShift (zero : bitset >>> offset = 0) (above : offset ≤ i) : bitset.getLsbD i = false := by
  have bit := congrArg (fun b => getLsbD b (i - offset)) zero
  rw [show i = offset + (i - offset) from by omega]
  simpa [getLsbD_ushiftRight] using bit

lemma advanceSpec (bitset : Bitset) (offset : Nat) :
    ((∀ i, offset ≤ i → bitset.getLsbD i = false) ∧ (first bitset offset).index = -1) ∨
    ∃ i, offset ≤ i ∧ i < 64 ∧ bitset.getLsbD i = true ∧ (∀ j, offset ≤ j → j < i → bitset.getLsbD j = false) ∧
      first bitset offset = ⟨bitset >>> (i + 1),i⟩ := by
  by_cases zero : bitset >>> offset = 0
  · exact .inl ⟨fun i above => zeroShift zero above,by simp [first,advance,zero]⟩
  right
  have bit := getLsbD_true_ctz_of_ne_zero zero
  rw [getLsbD_ushiftRight] at bit
  refine ⟨offset + (bitset >>> offset).ctz.toNat,by omega,?_,bit,?_,?_⟩
  · by_contra above
    rw [getLsbD_of_ge bitset _ (Nat.le_of_not_lt above)] at bit
    exact absurd bit (by decide)
  · intro j above below
    have none := @BitVec.getLsbD_false_of_lt_ctz 64 (j - offset) (bitset >>> offset) (by omega)
    rw [getLsbD_ushiftRight,show offset + (j - offset) = j from by omega] at none
    exact none
  unfold first advance
  rw [if_neg zero]
  simp only [getFirstSet,countTrailingZeros,SetIterator.mk.injEq]
  constructor
  · rw [← shiftRight_add]
    rfl
  push_cast
  omega

lemma visitedSpec (bitset : Bitset) : ∀ (fuel offset : Nat), 64 < fuel + offset →
    (∀ i, i ∈ visited fuel (first bitset offset) ↔ offset ≤ i ∧ bitset.getLsbD i = true) ∧
      (visited fuel (first bitset offset)).Nodup := by
  intro fuel
  induction fuel with
  | zero =>
    intro offset enough
    refine ⟨fun i => ⟨fun gone => absurd gone not_mem_nil,fun inside => ?_⟩,nodup_nil⟩
    rw [getLsbD_of_ge bitset i (by omega)] at inside
    exact absurd inside.2 (by decide)
  | succ fuel ih => ?_
  intro offset enough
  rcases advanceSpec bitset offset with ⟨none,last⟩ | ⟨i,above,inside,bit,skipped,found⟩
  · simp only [visited,last,if_true]
    refine ⟨fun i => ⟨fun gone => absurd gone not_mem_nil,fun inside => ?_⟩,nodup_nil⟩
    rw [none i inside.1] at inside
    exact absurd inside.2 (by decide)
  have next : advance ⟨bitset >>> (i + 1),i⟩ = first bitset (i + 1) := by
    unfold first
    push_cast
    rw [add_sub_cancel_right]
  obtain ⟨members,nodup⟩ := ih (i + 1) (by omega)
  rw [found]
  simp only [visited,next]
  rw [if_neg (by omega)]
  simp only [Int.toNat_natCast]
  constructor
  · intro j
    rw [mem_cons,members]
    constructor
    · rintro (same | ⟨later,set⟩)
      · exact same ▸ ⟨above,bit⟩
      · exact ⟨by omega,set⟩
    rintro ⟨later,set⟩
    by_cases low : j < i
    · rw [skipped j later low] at set
      exact absurd set (by decide)
    by_cases same : j = i
    · exact .inl same
    · exact .inr ⟨by omega,set⟩
  refine nodup_cons.mpr ⟨fun again => ?_,nodup⟩
  have later := ((members i).mp again).1
  omega

lemma memForEachSet : i ∈ forEachSet bitset offset ↔ offset ≤ i ∧ bitset.getLsbD i = true :=
  (visitedSpec bitset 65 offset (by omega)).1 i

lemma forEachSetNodup (bitset : Bitset) (offset : Nat) : (forEachSet bitset offset).Nodup :=
  (visitedSpec bitset 65 offset (by omega)).2

set_option maxRecDepth 20000

example : forEachSet 0b101101 1 = [2,3,5] := by decide

end OsvKernel.BitsetIter
