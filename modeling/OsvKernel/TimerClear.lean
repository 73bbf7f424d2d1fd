import OsvKernel.TimerExpiry

/-! clear() of timer_set, and what the bits of _non_empty_buckets and the results of insert() say. -/
namespace OsvKernel.TimerSet
open BitsetIter List Runs Function

variable {T : Type} {timeout : T → Int} {s : State T}

def clear (s : State T) : State T :=
  {s with
    buckets := (forEachSet s.nonEmptyBuckets 0).foldl (fun buckets i => update buckets i []) s.buckets
    expired := []}

def Marked (s : State T) : Prop :=
  (isEmpty s = true ↔ ∀ t, ¬Active s t) ∧ ∀ i, s.nonEmptyBuckets.getLsbD i = true ↔ s.buckets i ≠ []

lemma clearBuckets (l : List Nat) (buckets : Nat → List T) (i : Nat) :
    l.foldl (fun buckets i => update buckets i []) buckets i = if i ∈ l then [] else buckets i := by
  induction l generalizing buckets with
  | nil => rfl
  | cons k l ih =>
    rw [foldl_cons,ih]
    by_cases same : i = k
    · simp [same]
    · simp [same,update_of_ne]

lemma Filed.marked (filed : Filed timeout s) : Marked s := by
  refine ⟨?_,filed.marks⟩
  have none : isEmpty s = true ↔ ∀ i, s.buckets i = [] := by
    unfold isEmpty
    rw [beq_iff_eq]
    constructor
    · intro zero i
      by_contra some
      have bit := (filed.marks i).mpr some
      rw [zero] at bit
      simp at bit
    intro none
    refine BitVec.eq_of_getLsbD_eq fun i _ => ?_
    change _ = (0#64).getLsbD i
    rw [BitVec.getLsbD_zero,Bool.eq_false_iff]
    exact fun bit => (filed.marks i).mp bit (none i)
  rw [none]
  simp only [filed.active,not_exists]
  exact ⟨fun none t i inside => by simp [none i] at inside,fun none i => eq_nil_iff_forall_not_mem.mpr fun t => none t i⟩

lemma Filed.cleared (filed : Filed timeout s) (i : Nat) : (clear s).buckets i = [] := by
  change (forEachSet s.nonEmptyBuckets 0).foldl (fun buckets i => update buckets i []) s.buckets i = []
  rw [clearBuckets]
  split
  · rfl
  rename_i off
  by_contra some
  exact off (memForEachSet.mpr ⟨Nat.zero_le i,(filed.marks i).mpr some⟩)

lemma Filed.clear (filed : Filed timeout s) (none : ∀ t, ¬Active s t) : Filed timeout (clear s) := by
  have same : (TimerSet.clear s).buckets = s.buckets := by
    funext i
    rw [filed.cleared,eq_nil_iff_forall_not_mem.mpr fun t inside => none t (filed.active.mpr ⟨i,inside⟩)]
  have kept : TimerSet.clear s = {s with expired := []} := by
    rw [← same]
    rfl
  rw [kept]
  exact {filed with expiredOnce := nodup_nil, apart := fun _ _ _ => not_mem_nil}

variable [DecidableEq T]

inductive Call (T : Type) where
  | op (op : Op T)
  | clear

def call (s : Timers T) : Call T → Option (Timers T)
  | .op op => step s op
  | .clear => some {s with set := clear s.set}

def Documented (s : Timers T) : Call T → Prop
  | .op op => Allowed s op
  | .clear => True

def Idle (s : Timers T) : Call T → Prop
  | .op op => Allowed s op
  | .clear => ∀ t, ¬Active s.set t

theorem setMarked {s : Timers T} (reach : Reach call Idle Start s) :
    Marked s.set ∧ (Marked (clear s.set) ↔ ∀ t, ¬Active s.set t) ∧ ∀ timer timestamp, Allowed s (.insert timer timestamp) →
        (((insert (update s.timeout timer timestamp) s.set timer).2 = true ↔ timestamp < getNextTimeout s.set) ↔
          ¬(s.set.next ≤ timestamp ∧ timestamp < s.set.last)) := by
  have filed : Filed s.timeout s.set := by
    refine invariant (P := fun s : Timers T => Filed s.timeout s.set) ?_ ?_ reach
    · intro s first
      rw [show s.set = make from first]
      exact makeFiled
    rintro s (op | _) t filed allowed taken
    · obtain ⟨next,step,filed',-⟩ := stepEffect filed op allowed
      cases step.symm.trans taken
      exact filed'
    cases taken
    exact filed.clear allowed
  refine ⟨filed.marked,⟨fun marked t active => ?_,fun none => (filed.clear none).marked⟩,fun timer timestamp _ => ?_⟩
  · obtain ⟨i,inside⟩ := filed.active.mp active
    have bit := (filed.marks i).mpr (ne_nil_of_mem inside)
    exact (marked.2 i).mp bit (filed.cleared i)
  have early := @insertNext T (update s.timeout timer timestamp) s.set timer
  rw [update_self] at early
  unfold getNextTimeout
  rcases early with ⟨less,-,returned⟩ | ⟨more,-,returned⟩ <;> simp only [returned] <;> grind

instance (s : Timers (Fin 4)) (c : Call (Fin 4)) : Decidable (Documented s c) := by
  cases c <;> unfold Documented <;> infer_instance

instance (s : Timers (Fin 4)) (c : Call (Fin 4)) : Decidable (Idle s c) := by
  cases c <;> unfold Idle <;> infer_instance

lemma startsMade : Start (⟨make,fun _ => 0⟩ : Timers (Fin 4)) := rfl

def overdueRun : List (Call (Fin 4)) := [.op (.expire 10),.clear,.op (.insert 0 3)]

set_option maxRecDepth 20000

theorem setMarkedOverdue : Marked (final call Idle ⟨make,fun _ => 0⟩ overdueRun).set :=
  (setMarked (reachFinal overdueRun startsMade (by decide))).1

-- clear() leaves the bit of the timer; and 5 is before the next timeout 10, but not before the overdue 3.
theorem setNotMarked :
    let s := final call Documented ⟨make,fun _ => 0⟩ overdueRun
    let u := final call Documented ⟨make,fun _ => 0⟩ (overdueRun ++ [.clear])
    Reach call Documented Start s ∧ Allowed s (.insert 1 5) ∧ (insert (update s.timeout 1 5) s.set 1).2 = false ∧
      getNextTimeout s.set = 10 ∧ Reach call Documented Start u ∧ isEmpty u.set = false ∧ ∀ t, ¬Active u.set t :=
  ⟨reachFinal _ startsMade (by decide),by decide,by decide,by decide,
    reachFinal _ startsMade (by decide),by decide,by decide⟩

end OsvKernel.TimerSet
