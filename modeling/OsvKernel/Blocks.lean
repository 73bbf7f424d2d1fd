import Mathlib

/-! Families of half-open blocks of naturals, counted pointwise. A family is a
list; how often a point is covered does not depend on the order of the list, so
splitting, joining and moving blocks are additive identities on the count, and
"covered at most once" is pairwise disjointness. -/
namespace Blocks
open List

structure Block where
  start : Nat
  len : Nat
  deriving DecidableEq, Repr

def Block.stop (b : Block) : Nat := b.start + b.len

def Block.Has (b : Block) (q : Nat) : Prop := b.start ≤ q ∧ q < b.start + b.len
instance (b : Block) (q : Nat) : Decidable (b.Has q) :=
  inferInstanceAs (Decidable (b.start ≤ q ∧ q < b.start + b.len))

def Apart (a b : Block) : Prop := ∀ q, ¬ (a.Has q ∧ b.Has q)
def hits (b : Block) (q : Nat) : Nat := if b.Has q then 1 else 0
def cover (bs : List Block) (q : Nat) : Nat := (bs.map (fun b => hits b q)).sum

lemma hitsEq (b : Block) (q : Nat) :
    hits b q = if b.start ≤ q ∧ q < b.start + b.len then 1 else 0 := rfl

variable {b : Block} {q n : Nat} {as bs : List Block}

lemma hitsOfHas (h : b.Has q) : hits b q = 1 := if_pos h

lemma hitsOfNot (h : ¬ b.Has q) : hits b q = 0 := if_neg h

lemma hasMk {start len : Nat} : Block.Has ⟨start,len⟩ q ↔ start ≤ q ∧ q < start + len := Iff.rfl

lemma startHas (pos : 0 < b.len) : b.Has b.start := ⟨Nat.le_refl _,by omega⟩

lemma lastHas (pos : 0 < b.len) : b.Has (b.start + b.len - 1) := ⟨by omega,by omega⟩

lemma hitsSplit (start m n q : Nat) : hits ⟨start,m+n⟩ q = hits ⟨start,m⟩ q + hits ⟨start+m,n⟩ q := by
  rw [hitsEq,hitsEq,hitsEq]
  dsimp only
  split <;> split <;> split <;> omega

@[simp] lemma coverNil (q : Nat) : cover [] q = 0 := rfl

@[simp] lemma coverCons (b : Block) (bs : List Block) (q : Nat) :
    cover (b::bs) q = hits b q + cover bs q := by simp [cover]

@[simp] lemma coverAppend (as bs : List Block) (q : Nat) : cover (as++bs) q = cover as q + cover bs q := by simp [cover]

lemma coverPerm (h : as.Perm bs) (q : Nat) : cover as q = cover bs q :=
  (h.map _).sum_eq

lemma coverErase (mem : b ∈ bs) (q : Nat) : hits b q + cover (bs.erase b) q = cover bs q := by
  rw [← coverCons]
  exact (coverPerm (perm_cons_erase mem) q).symm

lemma hitsLeCover (mem : b ∈ bs) (q : Nat) : hits b q ≤ cover bs q := by
  have h := coverErase mem q
  omega

lemma coverOfMem (mem : b ∈ bs) (has : b.Has q) : 1 ≤ cover bs q := by
  have h := hitsLeCover mem q
  rwa [hitsOfHas has] at h

lemma memOfCover (h : 0 < cover bs q) : ∃ b ∈ bs, b.Has q := by
  induction bs with
  | nil => simp at h
  | cons b bs ih => ?_
  by_cases has : b.Has q
  · exact ⟨b,.head _,has⟩
  rw [coverCons,hitsOfNot has,Nat.zero_add] at h
  obtain ⟨c,mem,hc⟩ := ih h
  exact ⟨c,.tail _ mem,hc⟩

lemma pairwiseApart (once : ∀ q, cover bs q ≤ 1) : bs.Pairwise Apart := by
  induction bs with
  | nil => exact Pairwise.nil
  | cons b bs ih => ?_
  refine pairwise_cons.mpr ⟨?_,ih (fun q => ?_)⟩
  · intro c mem q both
    have bound := once q
    have one := hitsOfHas both.1
    have two := coverOfMem mem both.2
    rw [coverCons] at bound
    omega
  have bound := once q
  rw [coverCons] at bound
  omega

def total (bs : List Block) : Nat := (bs.map Block.len).sum

@[simp] lemma totalCons (b : Block) (bs : List Block) : total (b::bs) = b.len + total bs := by simp [total]

lemma sumHits (inside : b.stop ≤ n) : ((range n).map (hits b)).sum = b.len := by
  induction n generalizing b with
  | zero =>
    unfold Block.stop at inside
    simp only [range_zero,map_nil,sum_nil]
    omega
  | succ n ih => ?_
  rw [range_succ,map_append,sum_append,map_cons,map_nil,sum_singleton]
  unfold Block.stop at inside ih
  rcases Nat.lt_or_ge n b.start with below | above
  · have empty : b.len = 0 := by omega
    have off : hits b n = 0 := hitsOfNot (fun has => by have := has.1; omega)
    have none : ((range n).map (hits b)).sum = 0 := by
      refine sum_eq_zero (fun x mem => ?_)
      obtain ⟨q,_,rfl⟩ := mem_map.mp mem
      exact hitsOfNot (fun has => by have := has.1; have := has.2; omega)
    omega
  rcases Nat.lt_or_ge n (b.start + b.len) with last | out
  · have shorter := ih (b := ⟨b.start,b.len-1⟩) (by dsimp only; omega)
    have on : hits b n = 1 := hitsOfHas ⟨above,last⟩
    have same : (range n).map (hits b) = (range n).map (hits ⟨b.start,b.len-1⟩) := by
      refine map_congr_left (fun q mem => ?_)
      have low := mem_range.mp mem
      rw [hitsEq,hitsEq]
      dsimp only
      split <;> split <;> omega
    rw [same,shorter,on]
    dsimp only
    omega
  have off : hits b n = 0 := hitsOfNot (fun has => by have := has.2; omega)
  rw [ih out,off]
  omega

lemma totalEqSum (inside : ∀ b ∈ bs, b.stop ≤ n) : total bs = ((range n).map (cover bs)).sum := by
  induction bs with
  | nil =>
    refine (sum_eq_zero (fun x mem => ?_)).symm
    obtain ⟨q,_,rfl⟩ := mem_map.mp mem
    rfl
  | cons b bs ih => ?_
  have rest := ih (fun c mem => inside c (.tail _ mem))
  have own := sumHits (inside b (.head _))
  have both : cover (b::bs) = fun q => hits b q + cover bs q := funext (coverCons b bs)
  rw [totalCons,both,sum_map_add,own,rest]

lemma totalLe (inside : ∀ b ∈ bs, b.stop ≤ n) (once : ∀ q, cover bs q ≤ 1) : total bs ≤ n := by
  rw [totalEqSum inside]
  have bound : ((range n).map (cover bs)).sum ≤ ((range n).map (cover bs)).length • 1 := by
    refine sum_le_card_nsmul _ _ (fun x mem => ?_)
    obtain ⟨q,_,rfl⟩ := mem_map.mp mem
    exact once q
  simpa using bound

lemma totalOfCover (same : ∀ q, cover as q = cover bs q) : total as = total bs := by
  have bound : ∀ b ∈ as ++ bs, b.stop ≤ ((as ++ bs).map Block.stop).sum := fun b mem =>
    single_le_sum (by simp) _ (mem_map_of_mem mem)
  rw [totalEqSum (fun b mem => bound b (mem_append_left _ mem)),
    totalEqSum (fun b mem => bound b (mem_append_right _ mem)),funext same]

end Blocks
