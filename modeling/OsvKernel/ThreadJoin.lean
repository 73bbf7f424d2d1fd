import OsvKernel.Runs

/-! The end of a thread in core/sched.cc: complete() by the thread, destroy() by the next
thread on its CPU, detach() by one thread, and join() by one thread or, once the thread is
on the zombie list, by the reaper. One atomic access a step. -/
namespace OsvKernel.ThreadJoin
open Option Runs

inductive Status where
  | unstarted
  | running
  | terminating
  | terminated
  deriving DecidableEq

inductive DetachState where
  | attached
  | attachedComplete
  | detached
  deriving DecidableEq

inductive Joiner where
  | joiner
  | self
  deriving DecidableEq

inductive Complete where
  | notYet
  | zombie
  | store
  | hand
  | done
  deriving DecidableEq

inductive Detach where
  | notCalled
  | exchange
  | zombie
  | done
  deriving DecidableEq

inductive Destroy where
  | notYet
  | start
  | exchange
  | store
  | wakeWith
  | wake
  | done
  deriving DecidableEq

inductive Join where
  | notCalled
  | exchange
  | prepare
  | test
  | asleep
  | returned
  deriving DecidableEq

inductive Sleep where
  | running
  | waiting
  | waking
  deriving DecidableEq

/-- The fields of the thread and where each call is. born: the thread was made detached.
adds counts add_zombie(), wakes the wake-ups of the joiner. -/
structure State where
  st : Status
  joiner : Option Joiner
  detachState : DetachState
  attrDetached : Bool
  born : Bool
  complete : Complete
  destroy : Destroy
  detach : Detach
  join : Join
  sleep : Sleep
  adds : Nat
  wakes : Nat
  failed : Bool
  deriving DecidableEq

inductive Act where
  | complete
  | destroy
  | detach
  | join
  | reap
  deriving DecidableEq

def State.addZombie (s : State) : State := {s with adds := s.adds + 1, failed := s.failed || !s.attrDetached}

def stepComplete (s : State) : Option State :=
  match s.complete with
  | .notYet =>
    if s.st = .running then
      match s.detachState with
      | .attached => some {s with detachState := .attachedComplete, complete := .store}
      | .attachedComplete => some {s with complete := .store}
      | .detached => some {s with complete := .zombie}
    else none
  | .zombie => some {s.addZombie with complete := .store}
  | .store => some {s with st := .terminating, complete := .hand}
  -- terminating_thread = this
  | .hand => some {s with complete := .done, destroy := .start}
  | .done => none

def stepDestroy (s : State) : Option State :=
  match s.destroy with
  | .notYet => none
  | .start => some {s with destroy := .exchange, failed := s.failed || s.st ≠ .terminating}
  | .exchange =>
    if s.joiner = none then some {s with joiner := some .self, destroy := .store}
    else some {s with destroy := .wakeWith}
  | .store => some {s with st := .terminated, destroy := .done}
  | .wakeWith => some {s with st := .terminated, destroy := .wake}
  | .wake =>
    some {s with destroy := .done, wakes := s.wakes + 1, sleep := if s.sleep = .waiting then .waking else s.sleep}
  | .done => none

def stepDetach (s : State) : Option State :=
  match s.detach with
  | .notCalled => some {s with attrDetached := true, detach := .exchange}
  | .exchange =>
    match s.detachState with
    | .attached => some {s with detachState := .detached, detach := .done}
    | .attachedComplete => some {s with detach := .zombie}
    | .detached => some {s with detach := .done}
  | .zombie => some {s.addZombie with detach := .done}
  | .done => none

def stepJoin (s : State) : Option State :=
  match s.join with
  | .notCalled => some {s with join := if s.st = .unstarted then .returned else .exchange}
  | .exchange =>
    if s.joiner = none then some {s with joiner := some .joiner, join := .prepare}
    else some {s with join := .returned}
  | .prepare => some {s with sleep := .waiting, join := .test}
  | .test =>
    if s.st = .terminated then some {s with sleep := .running, join := .returned} else some {s with join := .asleep}
  | .asleep => if s.sleep = .waking then some {s with sleep := .running, join := .prepare} else none
  | .returned => none

/-- Of join() and detach() only one is called on a thread; a detached one is joined by the reaper. -/
def step (s : State) : Act → Option State
  | .complete => stepComplete s
  | .destroy => stepDestroy s
  | .detach => if s.detach ≠ .notCalled ∨ s.born = true ∨ s.join = .notCalled then stepDetach s else none
  | .join => if s.join ≠ .notCalled ∨ (s.born = false ∧ s.detach = .notCalled) then stepJoin s else none
  | .reap => if s.join = .notCalled ∧ 0 < s.adds then stepJoin s else none

def initial (st : Status) (born : Bool) : State where
  st := st
  joiner := none
  detachState := if born then .detached else .attached
  attrDetached := born
  born := born
  complete := .notYet
  destroy := .notYet
  detach := .notCalled
  join := .notCalled
  sleep := .running
  adds := 0
  wakes := 0
  failed := false

def Reachable (s : State) : Prop :=
  Runs.Reach step (fun _ _ => True) (fun s => ∃ st born, (st = .unstarted ∨ st = .running) ∧ s = initial st born) s

def State.isDetached (s : State) : Bool := s.born || s.detach = .zombie || s.detach = .done
def State.isComplete (s : State) : Bool := s.complete ≠ .notYet

def State.pending (s : State) : Nat :=
  (if s.complete = .zombie then 1 else 0) + if s.detach = .zombie then 1 else 0

def State.released (s : State) : Bool :=
  s.destroy = .store || s.destroy = .wakeWith || s.destroy = .wake || s.destroy = .done

structure Zombie (s : State) : Prop where
  attached : s.detachState = .attached → s.isComplete = false ∧ s.isDetached = false
  complete : s.detachState = .attachedComplete → s.isComplete = true ∧ s.born = false ∧ s.complete ≠ .zombie
  detached : s.detachState = .detached → s.isDetached = true ∧ s.detach ≠ .zombie
  marked : s.isDetached = true ∨ s.detach = .exchange → s.attrDetached = true
  counted : s.adds + s.pending = if s.isDetached && s.isComplete then 1 else 0

structure Wait (s : State) : Prop where
  early : s.complete = .notYet ∨ s.complete = .zombie ∨ s.complete = .store ∨ s.complete = .hand → s.destroy = .notYet
  live : s.complete = .notYet → s.st = .unstarted ∨ s.st = .running
  begun : s.complete ≠ .notYet → s.st ≠ .unstarted
  going : s.complete = .zombie ∨ s.complete = .store → s.st = .running
  handed : s.complete = .hand → s.st = .terminating
  ending : s.complete = .done → s.destroy ≠ .notYet
  dying : s.destroy = .start ∨ s.destroy = .exchange ∨ s.destroy = .store ∨ s.destroy = .wakeWith → s.st = .terminating
  dead : s.destroy = .wake ∨ s.destroy = .done → s.st = .terminated
  free : s.joiner = none → s.released = false ∧
    (s.join = .notCalled ∨ s.join = .exchange ∨ (s.join = .returned ∧ s.st = .unstarted))
  lost : s.joiner = some .self → (s.destroy = .store ∨ s.destroy = .done) ∧ s.wakes = 0 ∧
    (s.join = .notCalled ∨ s.join = .exchange ∨ s.join = .returned)
  won : s.joiner = some .joiner → s.destroy ≠ .store ∧ s.wakes = (if s.destroy = .done then 1 else 0) ∧
    (s.join = .prepare ∨ s.join = .test ∨ s.join = .asleep ∨ (s.join = .returned ∧ s.st = .terminated))
  quiet : s.joiner = none → s.wakes = 0
  awake : s.join = .asleep → s.sleep = .waiting → s.destroy ≠ .done

open State

lemma joinerCases (s : State) : s.joiner = none ∨ s.joiner = some .self ∨ s.joiner = some .joiner := by
  rcases s.joiner with _ | _ | _
  · exact .inl rfl
  · exact .inr (.inr rfl)
  · exact .inr (.inl rfl)

/-! The two compare-and-swaps on _detach_state: the second one adds the zombie. -/

section
variable {s s' : State}

lemma completeZombie (inv : Zombie s) (taken : stepComplete s = some s') : Zombie s' := by
  obtain ⟨attached,complete,detached,marked,counted⟩ := inv
  rw [stepComplete.eq_def] at taken
  constructor <;> grind [isComplete,isDetached,pending,addZombie]

lemma detachZombie (inv : Zombie s) (taken : stepDetach s = some s') : Zombie s' := by
  obtain ⟨attached,complete,detached,marked,counted⟩ := inv
  rw [stepDetach.eq_def] at taken
  constructor <;> grind [isComplete,isDetached,pending,addZombie]

structure Apart (s s' : State) : Prop where
  detachState : s'.detachState = s.detachState
  attrDetached : s'.attrDetached = s.attrDetached
  born : s'.born = s.born
  complete : s'.complete = s.complete
  detach : s'.detach = s.detach
  adds : s'.adds = s.adds

lemma Zombie.apart (inv : Zombie s) (apart : Apart s s') : Zombie s' := by
  obtain ⟨detachState,attrDetached,born,complete,detach,adds⟩ := apart
  refine ⟨?_,?_,?_,?_,?_⟩
  · simpa only [isComplete,isDetached,detachState,born,complete,detach] using inv.attached
  · simpa only [isComplete,detachState,born,complete] using inv.complete
  · simpa only [isDetached,detachState,born,detach] using inv.detached
  · simpa only [isDetached,attrDetached,born,detach] using inv.marked
  have same : s'.pending = s.pending ∧ s'.isDetached = s.isDetached ∧ s'.isComplete = s.isComplete := by
    simp only [pending,isDetached,isComplete,born,complete,detach,and_self]
  rw [adds,same.1,same.2.1,same.2.2]
  exact inv.counted

lemma destroyApart (taken : stepDestroy s = some s') : Apart s s' := by
  rw [stepDestroy.eq_def] at taken
  constructor <;> grind

lemma joinApart (taken : stepJoin s = some s') : Apart s s' := by
  rw [stepJoin.eq_def] at taken
  constructor <;> grind

/-! The two compare-and-swaps on _joiner: the first one decides whether join() waits. -/

lemma completeWait (inv : Wait s) (taken : stepComplete s = some s') : Wait s' := by
  rw [stepComplete.eq_def] at taken
  cases inv
  constructor <;> grind [released,addZombie]

lemma destroyWait (inv : Wait s) (taken : stepDestroy s = some s') : Wait s' := by
  have who := joinerCases s
  cases inv
  cases pc : s.destroy <;> simp only [stepDestroy,pc] at taken <;> constructor <;> grind [released]

lemma joinWait (inv : Wait s) (taken : stepJoin s = some s') : Wait s' := by
  rw [stepJoin.eq_def] at taken
  cases inv
  constructor <;> grind [released]

lemma detachWait (inv : Wait s) (taken : stepDetach s = some s') : Wait s' := by
  rw [stepDetach.eq_def] at taken
  cases inv
  constructor <;> grind [released,addZombie]

/-! The assertions. -/

lemma completeFine (zombie : Zombie s) (fine : s.failed = false) (taken : stepComplete s = some s') :
    s'.failed = false := by
  cases pc : s.complete with
  | zombie =>
    rw [stepComplete,pc] at taken
    have marked : s.attrDetached = true := by
      refine zombie.marked (.inl ?_)
      have counted := zombie.counted
      by_contra none
      simp [pending,pc,none] at counted
    simp [← some.inj taken,addZombie,fine,marked]
  | _ => grind [stepComplete]

lemma detachFine (zombie : Zombie s) (fine : s.failed = false) (taken : stepDetach s = some s') : s'.failed = false := by
  cases pc : s.detach with
  | zombie =>
    rw [stepDetach,pc] at taken
    have marked : s.attrDetached = true := zombie.marked (.inl (by simp [isDetached,pc]))
    simp [← some.inj taken,addZombie,fine,marked]
  | _ => grind [stepDetach]

lemma destroyFine (wait : Wait s) (fine : s.failed = false) (taken : stepDestroy s = some s') : s'.failed = false := by
  cases pc : s.destroy with
  | start =>
    rw [stepDestroy,pc] at taken
    simp [← some.inj taken,fine,wait.dying (.inl pc)]
  | _ => grind [stepDestroy]

lemma joinFine (fine : s.failed = false) (taken : stepJoin s = some s') : s'.failed = false := by
  grind [stepJoin]

end

structure Inv (s : State) : Prop where
  zombie : Zombie s
  wait : Wait s
  fine : s.failed = false

lemma stepInv {s s' : State} {act : Act} (inv : Inv s) (taken : step s act = some s') : Inv s' := by
  obtain ⟨zombie,wait,fine⟩ := inv
  have joined : stepJoin s = some s' → Inv s' := fun taken =>
    ⟨zombie.apart (joinApart taken),joinWait wait taken,joinFine fine taken⟩
  cases act
  case complete => exact ⟨completeZombie zombie taken,completeWait wait taken,completeFine zombie fine taken⟩
  case destroy => exact ⟨zombie.apart (destroyApart taken),destroyWait wait taken,destroyFine wait fine taken⟩
  case join | reap => exact joined (ite_none_right_eq_some.mp taken).2
  obtain ⟨-,taken⟩ := ite_none_right_eq_some.mp taken
  exact ⟨detachZombie zombie taken,detachWait wait taken,detachFine zombie fine taken⟩

lemma initialInv {st : Status} {born : Bool} (alive : st = .unstarted ∨ st = .running) : Inv (initial st born) := by
  refine ⟨?_,?_,rfl⟩
  · constructor <;> cases born <;> simp [initial,isComplete,isDetached,pending]
  · constructor <;> simp [initial,released,alive]

lemma reachableInv {s : State} (reach : Reachable s) : Inv s := by
  refine invariant ?_ (fun s act s' inv _ taken => stepInv inv taken) reach
  rintro s ⟨st,born,alive,rfl⟩
  exact initialInv alive

lemma deadOnly {s : State} (wait : Wait s) (dead : s.st = .terminated) : s.destroy = .wake ∨ s.destroy = .done := by
  cases pc : s.complete
  case notYet => rcases wait.live pc with alive | alive <;> cases alive.symm.trans dead
  case zombie => cases (wait.going (.inl pc)).symm.trans dead
  case store => cases (wait.going (.inr pc)).symm.trans dead
  case hand => cases (wait.handed pc).symm.trans dead
  have begun := wait.ending pc
  have dying := wait.dying
  rw [dead] at dying
  cases place : s.destroy <;> simp [place] at begun dying ⊢

structure Ends (s : State) : Prop where
  returns : s.join = .returned → s.released = true ∨ s.st = .unstarted
  waited : s.join = .returned → s.joiner = some .joiner → s.st = .terminated
  once : s.joiner = some .joiner → s.destroy = .done → s.wakes = 1
  never : s.joiner ≠ some .joiner → s.wakes = 0
  stored : s.destroy = .wake → s.st = .terminated
  heard : s.join = .asleep → s.sleep = .waiting → s.destroy ≠ .done
  zombie : s.pending = 0 → s.adds = if s.isDetached && s.isComplete then 1 else 0
  atMost : s.adds ≤ 1
  fine : s.failed = false

theorem threadEnds {s : State} (reach : Reachable s) : Ends s := by
  obtain ⟨zombie,wait,fine⟩ := reachableInv reach
  have who := joinerCases s
  have counted := zombie.counted
  refine ⟨fun returned => ?_,fun returned first => ?_,fun first done => ?_,fun other => ?_,fun pc => wait.dead (.inl pc),
    wait.awake,fun none => ?_,?_,fine⟩
  · rcases who with free | lost | won
    · rcases (wait.free free).2 with pc | pc | ⟨-,early⟩
      · cases returned.symm.trans pc
      · cases returned.symm.trans pc
      · exact .inr early
    · left
      rcases (wait.lost lost).1 with pc | pc <;> simp [released,pc]
    · rcases (wait.won won).2.2 with pc | pc | pc | ⟨-,dead⟩
      · cases returned.symm.trans pc
      · cases returned.symm.trans pc
      · cases returned.symm.trans pc
      · left
        rcases deadOnly wait dead with pc | pc <;> simp [released,pc]
  · rcases (wait.won first).2.2 with pc | pc | pc | ⟨-,dead⟩
    · cases returned.symm.trans pc
    · cases returned.symm.trans pc
    · cases returned.symm.trans pc
    · exact dead
  · rw [(wait.won first).2.1,if_pos done]
  · rcases who with free | lost | won
    · exact wait.quiet free
    · exact (wait.lost lost).2.1
    · exact absurd won other
  · omega
  split at counted <;> omega

def joinedRun : List Act :=
  [.join,.join,.complete,.complete,.complete,.join,.join,.destroy,.destroy,.destroy,.destroy]

lemma joinedReachable : Reachable (final step (fun _ _ => True) (initial .running false) joinedRun) :=
  reachFinal joinedRun ⟨.running,false,.inr rfl,rfl⟩ (by decide)

theorem threadEndsJoined :
    let s := final step (fun _ _ => True) (initial .running false) joinedRun
    s.join = .asleep ∧ s.sleep = .waking ∧ s.wakes = 1 ∧ s.adds = 0 := by
  have ends := threadEnds joinedReachable
  exact ⟨by decide,by decide,ends.once (by decide) (by decide),ends.zombie (by decide)⟩

end OsvKernel.ThreadJoin
