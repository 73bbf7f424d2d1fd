import Mathlib

/-! How thread::thread (core/sched.cc) picks an id. An id that is assigned is also the next value of
_s_idgen and a key of thread_map. -/
namespace OsvKernel.ThreadId
open Option

inductive Outcome where
  | assigned (id : Nat)
  | abort
  deriving DecidableEq

section
variable (tidMax : Nat) (findById : Nat → Bool)

def advance (tid : Nat) : Nat :=
  let tid := (tid + 1) % 2^64
  if tid > tidMax then 1 else tid

-- Where the loop stops, with a bound on its rounds.
def loop (ttid : Nat) : Nat → Nat → Option Nat
  | 0,_ => none
  | n+1,tid =>
    let tid := advance tidMax tid
    if findById tid = false then some tid
    else if tid ≠ ttid then loop ttid n tid
    else some tid

def allocate (idgen rounds : Nat) : Option Outcome :=
  (loop tidMax findById idgen rounds idgen).map fun tid => if tid = idgen then .abort else .assigned tid

def Valid (id : Nat) : Prop := 1 ≤ id ∧ id ≤ tidMax
  deriving Decidable

def Outcome.Right : Outcome → Prop
  | .assigned id => Valid tidMax id ∧ findById id = false
  | .abort => ∀ id, Valid tidMax id → findById id = true

def Allocates (idgen : Nat) : Prop := ∃ rounds o, allocate tidMax findById idgen rounds = some o ∧ o.Right tidMax findById
def gap (tid target : Nat) : Nat := if tid < target then target - tid else tidMax - tid + target

end

variable {tidMax idgen tid target n r : Nat} {findById : Nat → Bool}

lemma advanceValid (some_ : 1 ≤ tidMax) (small : tidMax < 2^32) (fits : tid + 1 < 2^64) : Valid tidMax (advance tidMax tid) := by
  unfold advance Valid
  dsimp only
  split <;> omega

lemma advanceGap (small : tidMax < 2^32) (fits : tid + 1 < 2^64) (valid : Valid tidMax target) :
    advance tidMax tid = target ∧ gap tidMax tid target = 1 ∨
      advance tidMax tid ≠ target ∧ gap tidMax (advance tidMax tid) target + 1 = gap tidMax tid target := by
  unfold Valid at valid
  unfold advance gap
  dsimp only
  split <;> split <;> split <;> omega

section
variable (some_ : 1 ≤ tidMax) (small : tidMax < 2^32) (fits : tid + 1 < 2^64)
include some_ small fits

lemma loopStops (stopped : loop tidMax findById idgen n tid = some r) :
    Valid tidMax r ∧ (findById r = true → r = idgen) := by
  induction n generalizing tid with
  | zero => cases stopped
  | succ n ih => ?_
  have valid := advanceValid some_ small fits
  unfold loop at stopped
  dsimp only at stopped
  split at stopped
  next free =>
    cases stopped
    exact ⟨valid,fun used => absurd (free.symm.trans used) Bool.false_ne_true⟩
  split at stopped
  · exact ih (by have := valid.2; omega) stopped
  rename_i back
  cases stopped
  exact ⟨valid,fun _ => Decidable.not_not.mp back⟩

-- A free id is found before the loop is back where it started.
lemma loopEnds (valid : Valid tidMax target) (stops : findById target = false ∨ target = idgen) :
    ∃ r, loop tidMax findById idgen (gap tidMax tid target) tid = some r ∧
      (Valid tidMax idgen → gap tidMax tid target < gap tidMax tid idgen → r ≠ idgen) := by
  generalize rounds : gap tidMax tid target = n
  induction n generalizing tid with
  | zero =>
    rcases advanceGap small fits valid with ⟨-,one⟩ | ⟨-,step⟩ <;> omega
  | succ n ih => ?_
  have far : Valid tidMax idgen → n + 1 < gap tidMax tid idgen →
    advance tidMax tid ≠ idgen ∧ n < gap tidMax (advance tidMax tid) idgen := by
    intro start before
    rcases advanceGap small fits start with ⟨-,one⟩ | ⟨other,far⟩
    · omega
    exact ⟨other,by omega⟩
  dsimp only [loop]
  split
  · exact ⟨_,rfl,fun start before => (far start before).1⟩
  rename_i used
  split
  next more =>
    rcases advanceGap small fits valid with ⟨rfl,-⟩ | ⟨-,step⟩
    · exact absurd stops (not_or.mpr ⟨used,more⟩)
    have := (advanceValid some_ small fits).2
    obtain ⟨r,stopped,away⟩ := @ih (advance tidMax tid) (by omega) (by omega)
    exact ⟨r,stopped,fun start before => away start (far start before).2⟩
  · exact ⟨_,rfl,fun start before => (far start before).1⟩

end

theorem idsAllocated (some_ : 1 ≤ tidMax) (small : tidMax < 2^32) (fits : idgen + 1 < 2^64) :
    Allocates tidMax findById idgen ↔ (∃ id, Valid tidMax id ∧ id ≠ idgen ∧ findById id = false) ∨
        Valid tidMax idgen ∧ ∀ id, Valid tidMax id → findById id = true := by
  constructor
  · rintro ⟨rounds,o,returned,right⟩
    obtain ⟨r,stopped,rfl⟩ := map_eq_some_iff.mp returned
    obtain ⟨valid,used⟩ := loopStops some_ small fits stopped
    split at right
    next back => exact .inr ⟨back ▸ valid,right⟩
    next other => exact .inl ⟨r,valid,other,right.2⟩
  rintro (⟨id,valid,other,free⟩ | ⟨valid,full⟩)
  · obtain ⟨r,stopped,away⟩ := loopEnds some_ small fits valid (.inl free)
    obtain ⟨inside,used⟩ := loopStops some_ small fits stopped
    have elsewhere : r ≠ idgen := by
      by_cases start : Valid tidMax idgen
      · refine away start ?_
        unfold Valid at valid start
        unfold gap
        split <;> split <;> omega
      · exact fun same => start (same ▸ inside)
    refine ⟨gap tidMax idgen id,.assigned r,?_,inside,Bool.eq_false_iff.mpr fun there => elsewhere (used there)⟩
    rw [allocate,stopped,map_some,if_neg elsewhere]
  obtain ⟨r,stopped,-⟩ := loopEnds some_ small fits valid (.inr rfl)
  obtain ⟨inside,used⟩ := loopStops some_ small fits stopped
  refine ⟨gap tidMax idgen idgen,.abort,?_,full⟩
  rw [allocate,stopped,map_some,if_pos (used (full r inside))]

theorem idsAllocatedWrapped : Allocates 3 (fun id => id ≠ 1) 2 ∧ allocate 3 (fun id => id ≠ 1) 2 2 = some (.assigned 1) :=
  ⟨(idsAllocated (by decide) (by decide) (by decide)).mpr (.inl ⟨1,by decide,by decide,rfl⟩),rfl⟩

-- The last id is free again and no other one is; all ids are in use and none was assigned here.
theorem idsNotAllocated : allocate 3 (fun id => id ≠ 2) 2 3 = some .abort ∧ ¬ Allocates 3 (fun id => id ≠ 2) 2 ∧
    ∀ rounds, allocate 3 (fun _ => true) 0 rounds = none := by
  refine ⟨rfl,?_,fun rounds => ?_⟩
  · rintro ⟨rounds,o,returned,right⟩
    obtain ⟨r,stopped,rfl⟩ := map_eq_some_iff.mp returned
    have used := (loopStops (by decide) (by decide) (by decide) stopped).2
    have back : r = 2 := Decidable.byContradiction fun other => other (used (decide_eq_true other))
    rw [if_pos back] at right
    exact absurd (right 2 (by decide)) (by decide)
  rw [allocate,map_eq_none_iff]
  rcases stopped : loop 3 (fun _ => true) 0 rounds 0 with _ | r
  · rfl
  obtain ⟨valid,used⟩ := loopStops (by decide) (by decide) (by decide) stopped
  exact absurd (used rfl ▸ valid) (by decide)

end OsvKernel.ThreadId
