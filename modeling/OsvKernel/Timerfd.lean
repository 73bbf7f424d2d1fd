import OsvKernel.Alarm
import OsvKernel.Runs

/-! A timerfd: set, read, poll and get, each one critical section, and the wake-up thread. A zero time means none.
base, total and last record the expiration given to the last set, the sum of the values read since, and the time
of the last of these reads. -/
namespace OsvKernel.Timerfd
open Option Runs Int
open Alarm (Worker s64 s64Fits)

def u64 (x : Int) : Int := x % 2 ^ 64

structure State where
  now : Int
  expiration : Int
  interval : Int
  wakeupDue : Int
  worker : Worker Int
  failed : Bool
  base : Int
  total : Nat
  last : Option Int
  deriving DecidableEq

def set (s : State) (expiration interval : Int) : State :=
  { s with
    expiration := expiration, interval := interval, wakeupDue := expiration, worker := s.worker.wake,
    base := expiration, total := 0, last := none }

def readable (s : State) : Bool := !(s.expiration = 0 ∨ s.wakeupDue ≠ 0)
def count (s : State) : Int := u64 ((s64 (s.now - s.expiration)).tdiv s.interval)

def get (s : State) : Int × Int :=
  if s.expiration ≠ 0 ∧ s.wakeupDue = 0 then
    (if s.interval = 0 then 0 else s64 (s.expiration + (count s + 1) * s.interval),s.interval)
  else (s.expiration,s.interval)

def read (s : State) : Option State :=
  if readable s then
    if s.interval = 0 then some { s with expiration := 0, total := s.total + 1, last := some s.now }
    else if s.expiration ≤ s.now then
      let next := s64 (s.expiration + (count s + 1) * s.interval)
      some { s with
        expiration := next, wakeupDue := next, worker := s.worker.wake,
        total := s.total + (u64 (1 + count s)).toNat, last := some s.now }
    else some { s with failed := true }
  else none

def wakeup (s : State) : Option State :=
  if s.worker.runnable then
    let due := if s.worker.fired then 0 else s.wakeupDue
    some { s with wakeupDue := due, worker := .wait (if due ≠ 0 then some due else none) }
  else none

inductive Action
  | tick (n : Nat)
  | set (expiration interval : Int)
  | read
  | poll
  | get
  | fire
  | wakeup

def step (s : State) : Action → Option State
  | .tick n => some { s with now := s.now + n }
  | .set expiration interval => some (set s expiration interval)
  | .read => read s
  | .poll => some s
  | .get => some s
  | .fire => (s.worker.fire s.now).map fun worker => { s with worker := worker }
  | .wakeup => wakeup s

def start (now : Nat) : State := ⟨now,0,0,0,⟨none,false,true⟩,false,0,0,none⟩

/-- A thread that finds its timer expired finds a due time that has come, or none; the times fit. -/
def ok (s : State) : Action → Prop
  | .wakeup => s.worker.fired = true → s.wakeupDue = 0 ∨ s.wakeupDue ≤ s.now
  | .read => 0 < s.interval → s.now - s.expiration < 2 ^ 63 ∧ s.now + s.interval < 2 ^ 63
  | _ => True

instance (s : State) : ∀ a, Decidable (ok s a)
  | .wakeup => inferInstanceAs (Decidable (s.worker.fired = true → s.wakeupDue = 0 ∨ s.wakeupDue ≤ s.now))
  | .read => inferInstanceAs (Decidable (0 < s.interval → s.now - s.expiration < 2 ^ 63 ∧ s.now + s.interval < 2 ^ 63))
  | .tick _ | .set _ _ | .poll | .get | .fire => .isTrue trivial

/-! The invariant. -/

structure Inv (s : State) : Prop where
  clock : 0 ≤ s.now
  due : s.wakeupDue ≠ 0 → s.wakeupDue = s.expiration
  reached : readable s = true → s.expiration ≤ s.now
  asserted : s.failed = false
  schedule : 0 < s.interval → s.expiration = s.base + s.total * s.interval
  last : 0 < s.interval → ∀ t ∈ s.last, t < s.expiration ∧ s.expiration ≤ t + s.interval

lemma u64Fits {x : Int} (low : 0 ≤ x) (high : x < 2 ^ 64) : u64 x = x := emod_eq_of_lt low high

variable {s t : State}

lemma readableIff : readable s = true ↔ s.expiration ≠ 0 ∧ s.wakeupDue = 0 := by
  simp [readable]

lemma countExact (interval : 0 < s.interval) (reached : s.expiration ≤ s.now) (fits : s.now - s.expiration < 2 ^ 63) :
    count s = (s.now - s.expiration) / s.interval := by
  have low : 0 ≤ s.now - s.expiration := by omega
  rw [count,s64Fits (by omega) fits,tdiv_eq_ediv_of_nonneg low]
  refine u64Fits (ediv_nonneg low interval.le) ?_
  have le := ediv_le_self s.interval low
  omega

lemma nextExact (clock : 0 ≤ s.now) (interval : 0 < s.interval) (reached : s.expiration ≤ s.now)
    (fits : s.now - s.expiration < 2 ^ 63 ∧ s.now + s.interval < 2 ^ 63) :
    s64 (s.expiration + (count s + 1) * s.interval) = s.expiration + (count s + 1) * s.interval ∧
      s.now < s.expiration + (count s + 1) * s.interval ∧
      s.expiration + (count s + 1) * s.interval ≤ s.now + s.interval := by
  have below := Int.ediv_mul_le (s.now - s.expiration) interval.ne'
  have above := lt_ediv_add_one_mul_self (s.now - s.expiration) interval
  rw [← countExact interval reached fits.1] at below above
  rw [add_mul,one_mul] at above ⊢
  refine ⟨s64Fits ?_ ?_,?_,?_⟩
  all_goals omega

lemma Inv.read (inv : Inv s) (allowed : ok s .read) (taken : read s = some t) : Inv t := by
  obtain ⟨may,taken⟩ := ite_none_right_eq_some.mp taken
  have reached := inv.reached may
  split at taken
  next none =>
    cases taken
    have due := (readableIff.mp may).2
    refine ⟨inv.clock,fun later => absurd due later,fun may => absurd rfl (readableIff.mp may).1,inv.asserted,?_,?_⟩
    all_goals exact fun interval => absurd none interval.ne'
  cases taken
  refine ⟨inv.clock,fun _ => rfl,?_,inv.asserted,?_,?_⟩
  · intro may
    obtain ⟨one,two⟩ := readableIff.mp may
    exact absurd two one
  · intro positive
    have interval : 0 < s.interval := positive
    obtain ⟨exact_,_,_⟩ := nextExact inv.clock interval reached (allowed interval)
    have schedule := inv.schedule interval
    have nonneg : 0 ≤ count s := emod_nonneg _ (by decide)
    have ret : u64 (1 + count s) = 1 + count s := by
      refine u64Fits (by omega) ?_
      have le := ediv_le_self s.interval (show 0 ≤ s.now - s.expiration by omega)
      rw [← countExact interval reached (allowed interval).1] at le
      have fits := (allowed interval).1
      omega
    dsimp only
    rw [exact_,ret,Nat.cast_add,toNat_of_nonneg (by omega),schedule]
    ring
  intro interval time there
  cases there
  obtain ⟨exact_,after,before⟩ := nextExact inv.clock interval reached (allowed interval)
  dsimp only
  rw [exact_]
  exact ⟨after,before⟩

lemma Inv.wakeup (inv : Inv s) (allowed : ok s .wakeup) (taken : wakeup s = some t) : Inv t := by
  obtain ⟨_,eq⟩ := ite_none_right_eq_some.mp taken
  cases eq
  refine ⟨inv.clock,?_,?_,inv.asserted,inv.schedule,inv.last⟩
  · dsimp only
    split
    · exact fun later => absurd rfl later
    · exact inv.due
  intro may
  obtain ⟨some,none⟩ := readableIff.mp may
  dsimp only at some none ⊢
  split at none
  next fired =>
    by_cases due : s.wakeupDue = 0
    · exact inv.reached (readableIff.mpr ⟨some,due⟩)
    rw [← inv.due due]
    exact (allowed fired).resolve_left due
  · exact inv.reached (readableIff.mpr ⟨some,none⟩)

lemma Inv.step (inv : Inv s) {a : Action} (allowed : ok s a) (taken : step s a = some t) : Inv t := by
  cases a with
  | tick n => ?_
  | set expiration interval =>
    cases taken
    refine ⟨inv.clock,fun _ => rfl,fun may => ?_,inv.asserted,fun _ => ?_,fun _ => nofun⟩
    · obtain ⟨one,two⟩ := readableIff.mp may
      exact absurd two one
    · simp [Timerfd.set]
  | read => exact inv.read allowed taken
  | poll | get =>
    cases taken
    exact inv
  | fire =>
    obtain ⟨worker,_,rfl⟩ := map_eq_some_iff.mp taken
    exact ⟨inv.clock,inv.due,inv.reached,inv.asserted,inv.schedule,inv.last⟩
  | wakeup => exact inv.wakeup allowed taken
  cases taken
  refine ⟨?_,inv.due,fun may => ?_,inv.asserted,inv.schedule,inv.last⟩
  · have := inv.clock
    dsimp only
    omega
  have := inv.reached may
  dsimp only
  omega

/-- No early report, no failed assertion, and as many expirations read as there were. -/
structure Sound (s : State) : Prop where
  reached : readable s = true → s.expiration ≤ s.now
  asserted : s.failed = false
  counted : 0 < s.interval → ∀ t ∈ s.last, ∀ k : Nat, k < s.total ↔ s.base + k * s.interval ≤ t

lemma Inv.counted (inv : Inv s) (interval : 0 < s.interval) {time : Int} (there : time ∈ s.last) (k : Nat) :
    k < s.total ↔ s.base + k * s.interval ≤ time := by
  obtain ⟨after,before⟩ := inv.last interval time there
  have schedule := inv.schedule interval
  constructor
  · intro lt
    have le : ((k : Int) + 1) * s.interval ≤ s.total * s.interval :=
      Int.mul_le_mul_of_nonneg_right (by omega) interval.le
    rw [add_mul,one_mul] at le
    omega
  intro le
  by_contra ge
  have more : (s.total : Int) * s.interval ≤ k * s.interval :=
    Int.mul_le_mul_of_nonneg_right (by omega) interval.le
  omega

theorem timerfdSound {now : Nat} (reach : Reach step ok (· = start now) s) : Sound s := by
  have inv : Inv s := by
    refine invariant (P := Inv) ?_ (fun _ _ _ inv allowed taken => inv.step allowed taken) reach
    rintro _ rfl
    exact ⟨natCast_nonneg now,fun later => absurd rfl later,fun may => absurd rfl (readableIff.mp may).1,rfl,
      fun _ => rfl,fun _ => nofun⟩
  exact ⟨inv.reached,inv.asserted,fun interval _ there k => inv.counted interval there k⟩

def twice : List Action := [.set 100 10,.wakeup,.tick 125,.fire,.wakeup,.read,.wakeup,.tick 20,.fire,.wakeup,.read]

theorem timerfdSoundTwice : (final step ok (start 0) twice).total = 5 ∧ Sound (final step ok (start 0) twice) := by
  have reach : Reach step ok (· = start 0) (final step ok (start 0) twice) :=
    reachFinal twice rfl rfl
  exact ⟨rfl,timerfdSound reach⟩

def setLate : List Action := [.set 100 10,.wakeup,.tick 100,.fire,.set 500 10,.wakeup]

theorem reportedEarly : Reach step (fun _ _ => True) (· = start 0) (played step (start 0) (setLate ++ [.read])) ∧
      readable (played step (start 0) setLate) = true ∧
      (played step (start 0) setLate).now < (played step (start 0) setLate).expiration ∧
      (played step (start 0) (setLate ++ [.read])).failed = true :=
  ⟨reachPlayed _ rfl (fun _ _ _ => trivial) rfl,rfl,by decide,rfl⟩

end OsvKernel.Timerfd
