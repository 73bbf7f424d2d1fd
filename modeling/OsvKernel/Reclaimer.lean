import Mathlib

/-! reclaimer_waiters::wake_waiters: the space of each free page range is given out to the waiters in turn, without
allocating it. `Visit` records what the inner loop saw of a waiter. -/
namespace OsvKernel.Reclaimer
open List

structure WaitNode where
  owner : Nat
  bytes : Nat
  deriving DecidableEq

structure Visit where
  node : WaitNode
  room : Nat
  woke : Bool

def visit : Nat → List WaitNode → List Visit
  | _,[] => []
  | room,wr::rest =>
    if room ≥ wr.bytes then ⟨wr,room,true⟩::visit (room - wr.bytes) rest
    else ⟨wr,room,false⟩::visit room rest

def woken (vs : List Visit) : List WaitNode := (vs.filter Visit.woke).map Visit.node
def kept (vs : List Visit) : List WaitNode := (vs.filter fun v => !v.woke).map Visit.node

structure Result where
  visits : List (Nat × List Visit)
  waiters : List WaitNode
  woken : Bool

def forEach (flag : Bool) (waiters : List WaitNode) : List Nat → Result
  | [] => ⟨[],waiters,flag⟩
  | size::ranges =>
    if waiters = [] then ⟨[],[],true⟩
    else
      let vs := visit size waiters
      let r := forEach (flag || !(woken vs).isEmpty) (kept vs) ranges
      { r with visits := (size,vs)::r.visits }

-- `ranges` are the sizes of the free ranges, in the order of for_each.
def wakeWaiters (ranges : List Nat) (waiters : List WaitNode) : Result := forEach false waiters ranges

structure Woken (ranges : List Nat) (waiters : List WaitNode) (r : Result) : Prop where
  once : ((r.visits.flatMap fun v => woken v.2) ++ r.waiters).Perm waiters
  within : ∀ v ∈ r.visits, ((woken v.2).map WaitNode.bytes).sum ≤ v.1
  ranged : (r.visits.map Prod.fst).IsPrefix ranges
  left : r.waiters ≠ [] → r.visits.map Prod.fst = ranges
  large : ∀ v ∈ r.visits, r.waiters.Sublist ((v.2.filter fun u => u.room < u.node.bytes).map Visit.node)
  answer : r.woken = false → waiters ≠ [] ∧ r.waiters = waiters

variable {waiters : List WaitNode} {ranges : List Nat} {flag : Bool} {room : Nat}

lemma visitPerm : (woken (visit room waiters) ++ kept (visit room waiters)).Perm waiters := by
  induction waiters generalizing room with
  | nil => exact .nil
  | cons wr rest ih => ?_
  unfold visit
  split
  · exact ih.cons wr
  · exact perm_middle.trans (ih.cons wr)

lemma visitWithin : ((woken (visit room waiters)).map WaitNode.bytes).sum ≤ room := by
  induction waiters generalizing room with
  | nil => exact Nat.zero_le _
  | cons wr rest ih => ?_
  unfold visit
  split
  · have := @ih (room - wr.bytes)
    simp only [woken,filter_cons_of_pos,map_cons,sum_cons] at this ⊢
    omega
  · exact ih

lemma keptLarge : kept (visit room waiters) =
    ((visit room waiters).filter fun u => u.room < u.node.bytes).map Visit.node := by
  induction waiters generalizing room with
  | nil => rfl
  | cons wr rest ih => ?_
  unfold visit
  split
  · next fits =>
    rw [filter_cons_of_neg (by simpa using fits),← ih]
    rfl
  next more =>
  rw [filter_cons_of_pos (by simpa using more),map_cons,← ih]
  rfl

lemma keptSublist : (kept (visit room waiters)).Sublist waiters := by
  induction waiters generalizing room with
  | nil => exact .slnil
  | cons wr rest ih => ?_
  unfold visit
  split
  · exact ih.cons wr
  · exact ih.cons_cons wr

lemma keptAll (none_ : woken (visit room waiters) = []) : kept (visit room waiters) = waiters := by
  have perm := @visitPerm waiters room
  rw [none_,nil_append] at perm
  exact keptSublist.eq_of_length perm.length_eq

lemma leftSublist : (forEach flag waiters ranges).waiters.Sublist waiters := by
  induction ranges generalizing flag waiters with
  | nil => exact Sublist.refl _
  | cons size ranges ih => ?_
  unfold forEach
  split
  · exact nil_sublist _
  · exact ih.trans keptSublist

lemma forEachAnswer (no : (forEach flag waiters ranges).woken = false) :
    flag = false ∧ (forEach flag waiters ranges).waiters = waiters ∧ (ranges ≠ [] → waiters ≠ []) := by
  induction ranges generalizing flag waiters with
  | nil => exact ⟨no,rfl,fun off => absurd rfl off⟩
  | cons size ranges ih => ?_
  unfold forEach at no ⊢
  split at no
  · cases no
  next some_ =>
  rw [if_neg some_]
  obtain ⟨flags,same,-⟩ := ih no
  obtain ⟨off,none_⟩ := Bool.or_eq_false_iff.mp flags
  exact ⟨off,same.trans (keptAll (by simpa using none_)),fun _ => some_⟩

lemma forEachPerm :
    (((forEach flag waiters ranges).visits.flatMap fun v => woken v.2) ++ (forEach flag waiters ranges).waiters).Perm
      waiters := by
  induction ranges generalizing flag waiters with
  | nil => exact Perm.refl _
  | cons size ranges ih => ?_
  unfold forEach
  split
  · next none_ => rw [none_]; exact .nil
  rw [flatMap_cons,append_assoc]
  exact (ih.append_left _).trans visitPerm

lemma forEachVisits : ∀ v ∈ (forEach flag waiters ranges).visits, ((woken v.2).map WaitNode.bytes).sum ≤ v.1 ∧
    (forEach flag waiters ranges).waiters.Sublist ((v.2.filter fun u => u.room < u.node.bytes).map Visit.node) := by
  induction ranges generalizing flag waiters with
  | nil => exact nofun
  | cons size ranges ih => ?_
  unfold forEach
  split
  · exact nofun
  intro v mem
  rcases mem_cons.mp mem with rfl | later
  · exact ⟨visitWithin,keptLarge ▸ leftSublist⟩
  · exact ih v later

lemma forEachRanged : ((forEach flag waiters ranges).visits.map Prod.fst).IsPrefix ranges ∧
    ((forEach flag waiters ranges).waiters ≠ [] → (forEach flag waiters ranges).visits.map Prod.fst = ranges) := by
  induction ranges generalizing flag waiters with
  | nil => exact ⟨prefix_rfl,fun _ => rfl⟩
  | cons size ranges ih => ?_
  unfold forEach
  split
  · exact ⟨ nil_prefix,fun left => absurd rfl left⟩
  · exact ⟨(prefix_cons_inj size).mpr ih.1,fun left => congrArg (size::·) (ih.2 left)⟩

theorem wakeWaitersWakes (ranges : List Nat) (waiters : List WaitNode) :
    Woken ranges waiters (wakeWaiters ranges waiters) ↔ ranges ≠ [] ∨ waiters ≠ [] := by
  constructor
  · intro ok
    by_contra none_
    obtain ⟨rfl,rfl⟩ : ranges = [] ∧ waiters = [] := by simpa using none_
    exact (ok.answer rfl).1 rfl
  intro some_
  refine ⟨forEachPerm,fun v mem => (forEachVisits v mem).1,forEachRanged.1,forEachRanged.2,fun v mem => (forEachVisits v mem).2,fun no => ?_⟩
  obtain ⟨-,same,nonempty⟩ := forEachAnswer no
  exact ⟨some_.elim nonempty id,same⟩

theorem nobodyToWake : (wakeWaiters [] []).woken = false ∧ ¬ Woken [] [] (wakeWaiters [] []) :=
  ⟨rfl,fun ok => (ok.answer rfl).1 rfl⟩

end OsvKernel.Reclaimer
