import OsvKernel.Chains

/-! A queue as a singly linked list with a pointer to its first and one to its last cell,
both null when it is empty. -/
namespace Chains
open List Function

structure Fifo (α : Type) where
  oldest : Option α
  newest : Option α
  next : α → Option α

section
variable {α : Type} [DecidableEq α]

def Fifo.append (f : Fifo α) (x : α) : Option (Fifo α) :=
  match f.oldest,f.newest with
  | none,_ => some {f with oldest := some x, newest := some x}
  | some _,some newest => some {f with next := Function.update f.next newest (some x), newest := some x}
  | some _,none => none

def Fifo.drop (f : Fifo α) (first : α) : Fifo α :=
  {f with oldest := f.next first, newest := if f.next first = none then none else f.newest}

structure Queued (f : Fifo α) (l : List α) : Prop where
  linked : Linked f.next f.oldest l
  last : f.newest = l.getLast?
  nodup : l.Nodup

variable {f : Fifo α} {l rest : List α} {x : α}

omit [DecidableEq α] in
lemma Queued.empty (oldest : f.oldest = none) (newest : f.newest = none) : Queued f [] :=
  ⟨oldest ▸ .nil,newest,nodup_nil⟩

omit [DecidableEq α] in
lemma Queued.oldestEq (queued : Queued f l) : f.oldest = l.head? := queued.linked.headEq

lemma Queued.write (queued : Queued f l) (off : x ∉ l) (value : Option α) :
    Queued {f with next := update f.next x value} l :=
  ⟨queued.linked.write off value,queued.last,queued.nodup⟩

lemma Queued.append (queued : Queued f l) (off : x ∉ l) (ends : f.next x = none) :
    ∃ g, f.append x = some g ∧ Queued g (l ++ [x]) ∧ ∀ y, y ∉ l → g.next y = f.next y := by
  have longer : (l ++ [x]).Nodup :=
    List.Nodup.append queued.nodup (nodup_singleton x) (disjoint_singleton.mpr off)
  rcases eq_nil_or_concat l with rfl | ⟨pre,z,rfl⟩
  · refine ⟨{f with oldest := some x, newest := some x},?_,⟨?_,rfl,longer⟩,fun y _ => rfl⟩
    · rw [Fifo.append,queued.oldestEq]
      rfl
    · refine .cons ?_
      rw [ends]
      exact .nil
  rw [concat_eq_append] at queued off longer ⊢
  have newest : f.newest = some z := by simpa using queued.last
  obtain ⟨first,oldest⟩ : ∃ first, f.oldest = some first := by
    rw [queued.oldestEq]
    cases pre with
    | nil => exact ⟨z,rfl⟩
    | cons a pre => exact ⟨a,rfl⟩
  refine ⟨{f with next := update f.next z (some x), newest := some x},?_,⟨?_,by simp,longer⟩,?_⟩
  · rw [Fifo.append,oldest,newest]
  · rw [append_assoc]
    exact queued.linked.snoc queued.nodup off ends
  intro y away
  exact update_of_ne (fun same : y = z => away (same ▸ mem_append_right _ mem_cons_self)) _ _

omit [DecidableEq α] in
lemma Queued.drop (queued : Queued f (x::rest)) : Queued (f.drop x) rest := by
  have behind : Linked f.next (f.next x) rest := @Linked.after α f.next f.oldest x [] rest queued.linked
  refine ⟨behind,?_,(nodup_cons.mp queued.nodup).2⟩
  change (if f.next x = none then none else f.newest) = rest.getLast?
  rw [behind.headEq,queued.last]
  cases rest with
  | nil => rfl
  | cons a rest => simp

end
end Chains
