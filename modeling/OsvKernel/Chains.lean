import Mathlib

/-! Singly linked lists whose links live in a memory: from a head one can follow
the links through exactly the cells of a list. Memory outside of those cells does
not matter. -/
namespace Chains
open List Function

inductive Linked {α : Type} (next : α → Option α) : Option α → List α → Prop where
  | nil : Linked next none []
  | cons {a l} (rest : Linked next (next a) l) : Linked next (some a) (a::l)

variable {α : Type} {next other : α → Option α} {head : Option α} {l : List α} {a : α} {pre rest : List α}

lemma Linked.frame (linked : Linked next head l) (same : ∀ a ∈ l, other a = next a) : Linked other head l := by
  induction linked with
  | nil => exact .nil
  | @cons a l rest ih => ?_
  have first := same a (.head _)
  have after := ih (fun b mem => same b (.tail _ mem))
  rw [← first] at after
  exact .cons after

lemma Linked.write [DecidableEq α] (linked : Linked next head l) (off : a ∉ l) (value : Option α) :
    Linked (update next a value) head l := by
  refine linked.frame (fun b mem => update_of_ne ?_ _ _)
  rintro rfl
  exact off mem

lemma Linked.push [DecidableEq α] (linked : Linked next head l) (off : a ∉ l) :
    Linked (update next a head) (some a) (a::l) := by
  refine .cons ?_
  rw [update_self]
  exact linked.write off head

lemma Linked.headSome (linked : Linked next (some a) l) : ∃ rest, l = a::rest ∧ Linked next (next a) rest := by
  cases linked with
  | cons rest => exact ⟨_,rfl,rest⟩

lemma Linked.headNone (linked : Linked next none l) : l = [] := by
  cases linked with
  | nil => rfl

lemma Linked.noneIff (linked : Linked next head l) : head = none ↔ l = [] := by
  cases linked with
  | nil | cons rest => simp

lemma Linked.headEq (linked : Linked next head l) : head = l.head? := by
  cases linked with
  | nil | cons rest => rfl

lemma Linked.unique {k : List α} (linked : Linked next head l) (other : Linked next head k) : k = l := by
  induction linked generalizing k with
  | nil => exact other.headNone
  | cons rest ih =>
    obtain ⟨tail,rfl,after⟩ := other.headSome
    rw [ih after]

lemma Linked.after (linked : Linked next head (pre ++ a::rest)) : Linked next (next a) rest := by
  induction pre generalizing head with
  | nil => cases linked with | cons tail => exact tail
  | cons b pre ih => cases linked with | cons tail => exact ih tail

lemma Linked.snoc [DecidableEq α] {pre : List α} {z : α} (linked : Linked next head (pre ++ [z]))
    (nodup : (pre ++ [z]).Nodup) (off : a ∉ pre ++ [z]) (last : next a = none) :
    Linked (update next z (some a)) head (pre ++ [z,a]) := by
  induction pre generalizing head with
  | nil =>
    cases linked with
    | cons tail => ?_
    have ne : a ≠ z := fun same => off (same ▸ (.head _))
    refine .cons ?_
    rw [update_self]
    refine .cons ?_
    rw [update_of_ne ne,last]
    exact .nil
  | cons b pre ih =>
    cases linked with
    | cons tail => ?_
    obtain ⟨fresh,rest⟩ := nodup_cons.mp nodup
    have ne : b ≠ z := fun same => fresh (same ▸ mem_append_right _ (.head _))
    refine .cons ?_
    rw [update_of_ne ne]
    exact ih tail rest fun mem => off (.tail _ mem)

lemma Linked.cut [DecidableEq α] {p : α} (linked : Linked next head (pre ++ p::a::rest))
    (nodup : (pre ++ p::a::rest).Nodup) : Linked (update next p (next a)) head (pre ++ p::rest) := by
  induction pre generalizing head with
  | nil =>
    have after : Linked next (next a) rest := @Linked.after α next head a [p] rest linked
    cases linked with
    | cons tail =>
      refine .cons ?_
      rw [update_self]
      exact after.write (fun mem => (nodup_cons.mp nodup).1 (.tail _ mem)) _
  | cons b pre ih => ?_
  cases linked with
  | cons tail => ?_
  obtain ⟨fresh,rest⟩ := nodup_cons.mp nodup
  have ne : b ≠ p := fun same => fresh (same ▸ mem_append_right _ (.head _))
  refine .cons ?_
  rw [update_of_ne ne]
  exact ih tail rest

end Chains
