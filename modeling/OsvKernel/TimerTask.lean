import OsvKernel.Runs

/-! timer_task and the workers of the CPUs (core/async.cc). A step ends at each access to data that
others change without the mutex of the timer_task: the state of a percpu_timer_task, the queue of
released ones, and the timers of a worker under its preempt_lock. What the mutex protects changes
with the step before or after. Time is left out: any queued task may expire. -/
namespace OsvKernel.TimerTask
open Function

inductive TaskState where
  | active
  | firing
  | released
  deriving DecidableEq, Repr

structure Percpu (C M : Type) where
  worker : C
  state : TaskState
  master : Option M
  queued : Bool
  reg : Nat
  deriving DecidableEq, Repr

structure Timer (T L : Type) where
  lock : L
  active : Option T
  registrations : List T
  terminating : Bool
  deriving DecidableEq, Repr

inductive Thread (U C : Type) where
  | user (u : U)
  | worker (c : C)
  deriving DecidableEq, Repr

inductive Call (M T : Type) where
  | idle (result : Option Bool)
  | freeing (t : T) (next : Call M T)
  | borrowing (m : M) (pending : Bool)
  | borrowed (m : M) (pending : Bool) (t : T)
  | inserting (m : M) (pending : Bool) (t : T)
  | revoking (m : M) (rest : List T)
  | draining (m : M)
  | waiting (m : M) (woken : Bool)
  deriving DecidableEq, Repr

inductive Work (M T L : Type) where
  | loop
  | popped (t : T) (n : Nat)
  | claiming (t : T) (n : Nat)
  | firing (t : T) (m : M) (n : Nat)
  | calling (t : T) (m : M) (n : Nat)
  | returned (t : T) (m : M) (n : Nat)
  | freed (t : T) (l : L)
  deriving DecidableEq, Repr

/-- timer m is none where no timer_task exists, task t where no percpu_timer_task does. regs counts
the registrations, ran lists those whose callback was called and superseded those that a cancel()
or a reschedule() has found pending. failed: an assertion of the worker has failed, a list was
asked for what it does not hold, or an object was used that does not exist. -/
structure State (U C M T L : Type) where
  task : T → Option (Percpu C M)
  timer : M → Option (Timer T L)
  timers : C → List T
  released : C → List T
  owner : L → Option (Thread U C)
  call : Thread U C → Call M T
  work : C → Work M T L
  regs : Nat
  ran : List Nat
  superseded : List Nat
  failed : Bool

def Work.locked : Work M T L → Bool
  | .popped _ _ => true
  | .claiming _ _ => true
  | _ => false

def Work.outside : Work M T L → Bool
  | .loop => true
  | .calling _ _ _ => true
  | _ => false

def Call.isIdle : Call M T → Bool
  | .idle _ => true
  | _ => false

variable {U C M T L : Type} [DecidableEq U] [DecidableEq C] [DecidableEq M] [DecidableEq T] [DecidableEq L]

namespace State

def fail (s : State U C M T L) : State U C M T L := {s with failed := true}

def go (s : State U C M T L) (θ : Thread U C) (next : Call M T) : State U C M T L :=
  {s with call := update s.call θ next}

def goWork (s : State U C M T L) (c : C) (next : Work M T L) : State U C M T L :=
  {s with work := update s.work c next}

def setTask (s : State U C M T L) (t : T) (p : Percpu C M) : State U C M T L :=
  {s with task := update s.task t (some p)}

def setTimer (s : State U C M T L) (m : M) (tm : Timer T L) : State U C M T L :=
  {s with timer := update s.timer m (some tm)}

def setOwner (s : State U C M T L) (l : L) (θ : Option (Thread U C)) : State U C M T L :=
  {s with owner := update s.owner l θ}

def outside (s : State U C M T L) (θ : Thread U C) : Bool :=
  (s.call θ).isIdle && match θ with
    | .user _ => true
    | .worker c => (s.work c).outside

def wakeAll (s : State U C M T L) (m : M) : State U C M T L :=
  {s with call := fun θ =>
    match s.call θ with
    | .waiting m' woken => .waiting m' (woken || m' = m)
    | k => k}

def erase (s : State U C M T L) (m : M) (tm : Timer T L) (t : T) : State U C M T L :=
  if t ∈ tm.registrations then s.setTimer m {tm with registrations := tm.registrations.erase t} else s.fail

def freeRegistration (s : State U C M T L) (m : M) (tm : Timer T L) (t : T) : State U C M T L :=
  if tm.registrations.erase t = [] then (s.erase m tm t).wakeAll m else s.erase m tm t

def free (s : State U C M T L) (t : T) : State U C M T L :=
  match s.task t with
  | none => s.fail
  | some p => {s with released := update s.released p.worker (t::s.released p.worker)}

def cancel (s : State U C M T L) (θ : Thread U C) (m : M) (tm : Timer T L) (next : Bool → Call M T) : State U C M T L :=
  match tm.active with
  | none => s.go θ (next false)
  | some t =>
    match s.task t with
    | none => s.fail
    | some p =>
      let gone := {s with superseded := p.reg::s.superseded}
      if p.state = .active then
        ((gone.setTask t {p with state := .released}).freeRegistration m {tm with active := none} t).go θ
          (.freeing t (next true))
      else (gone.setTimer m {tm with active := none}).go θ (next true)

def reuse (s : State U C M T L) (c : C) (t : T) : State U C M T L :=
  match s.task t with
  | none => s.fail
  | some p =>
    let popped := {s with released := update s.released c ((s.released c).erase t)}
    if p.queued then
      if t ∈ s.timers c then
        {popped.setTask t {p with queued := false} with timers := update s.timers c ((s.timers c).erase t)}
      else s.fail
    else popped

def allocate (s : State U C M T L) (c : C) (t : T) : State U C M T L :=
  s.setTask t {worker := c,state := .active,master := none,queued := false,reg := 0}

def register (s : State U C M T L) (m : M) (tm : Timer T L) (t : T) (p : Percpu C M) : State U C M T L :=
  {(s.setTask t {p with master := some m,state := .active,reg := s.regs}).setTimer m
    {tm with active := some t,registrations := t::tm.registrations} with regs := s.regs + 1}

def insert (s : State U C M T L) (t : T) (p : Percpu C M) : State U C M T L :=
  if p.queued then s.fail else
  {s.setTask t {p with queued := true} with timers := update s.timers p.worker (t::s.timers p.worker)}

def revoke (s : State U C M T L) (θ : Thread U C) (m : M) (tm : Timer T L) (t : T) (rest : List T) :
    State U C M T L :=
  match s.task t with
  | none => s.fail
  | some p =>
    if p.state = .active then
      ((s.setTask t {p with state := .released}).erase m tm t).go θ (.freeing t (.revoking m rest))
    else s.go θ (.revoking m rest)

def drain (s : State U C M T L) (θ : Thread U C) (m : M) (tm : Timer T L) : State U C M T L :=
  if tm.registrations = [] then {s with timer := update s.timer m none}.go θ (.idle none)
  else (s.setOwner tm.lock none).go θ (.waiting m false)

def pop (s : State U C M T L) (c : C) (t : T) : State U C M T L :=
  match s.task t with
  | none => s.fail
  | some p =>
    if p.queued then
      {s.setTask t {p with queued := false} with timers := update s.timers c ((s.timers c).erase t)}.goWork c
        (.popped t p.reg)
    else s.fail

def claim (s : State U C M T L) (c : C) (t : T) (n : Nat) : State U C M T L :=
  match s.task t with
  | none => s.fail
  | some p =>
    match p.state,p.master with
    | .active,some m => (s.setTask t {p with state := .firing}).goWork c (.firing t m n)
    | .active,none => s.fail
    | .firing,_ => s.fail
    | .released,_ => s.goWork c .loop

def enter (s : State U C M T L) (c : C) (t : T) (m : M) (n : Nat) (tm : Timer T L) : State U C M T L :=
  if tm.active = some t then
    {s.setTimer m {tm with active := none} with ran := n::s.ran}.goWork c (.calling t m n)
  else (s.setOwner tm.lock (some (.worker c))).goWork c (.returned t m n)

def finish (s : State U C M T L) (c : C) (t : T) (m : M) (tm : Timer T L) : State U C M T L :=
  match s.task t with
  | none => s.fail
  | some p => ((s.setTask t {p with state := .released}).freeRegistration m tm t).goWork c (.freed t tm.lock)

end State

inductive Act (U C M T L : Type) where
  | construct (θ : Thread U C) (m : M) (l : L)
  | lock (θ : Thread U C) (l : L)
  | unlock (θ : Thread U C) (l : L)
  | cancel (θ : Thread U C) (m : M)
  | reschedule (θ : Thread U C) (m : M)
  | destroy (θ : Thread U C) (m : M)
  | free (θ : Thread U C)
  | borrow (θ : Thread U C) (c : C) (t : T)
  | register (θ : Thread U C)
  | insert (θ : Thread U C)
  | revoke (θ : Thread U C)
  | drain (θ : Thread U C)
  | wake (θ : Thread U C)
  | pop (c : C) (t : T)
  | check (c : C)
  | claim (c : C)
  | enter (c : C)
  | leave (c : C)
  | finish (c : C)
  | push (c : C)

/-- The methods are called with the mutex held and not during the destructor, as they assert. -/
def step (s : State U C M T L) (act : Act U C M T L) : Option (State U C M T L) :=
  if s.failed then none else
  match act with
  | .construct θ m l =>
    if s.outside θ ∧ s.timer m = none then
      some (s.setTimer m {lock := l,active := none,registrations := [],terminating := false})
    else none
  | .lock θ l => if s.outside θ ∧ s.owner l = none then some (s.setOwner l (some θ)) else none
  | .unlock θ l => if s.outside θ ∧ s.owner l = some θ then some (s.setOwner l none) else none
  | .cancel θ m =>
    match s.timer m with
    | none => none
    | some tm =>
      if s.outside θ ∧ s.owner tm.lock = some θ ∧ tm.terminating = false then
        some (s.cancel θ m tm fun pending => .idle (some pending))
      else none
  | .reschedule θ m =>
    match s.timer m with
    | none => none
    | some tm =>
      if s.outside θ ∧ s.owner tm.lock = some θ ∧ tm.terminating = false then
        some (s.cancel θ m tm fun pending => .borrowing m pending)
      else none
  | .destroy θ m =>
    match s.timer m with
    | none => none
    | some tm =>
      if s.outside θ ∧ s.owner tm.lock = some θ ∧ tm.terminating = false then
        some ((s.setTimer m {tm with active := none,terminating := true}).go θ (.revoking m tm.registrations))
      else none
  | .free θ =>
    match s.call θ with
    | .freeing t next => some ((s.free t).go θ next)
    | _ => none
  | .borrow θ c t =>
    match s.call θ with
    | .borrowing m pending =>
      if (s.work c).locked then none
      else if t ∈ s.released c then some ((s.reuse c t).go θ (.borrowed m pending t))
      else if s.released c = [] ∧ s.task t = none then some ((s.allocate c t).go θ (.borrowed m pending t))
      else none
    | _ => none
  | .register θ =>
    match s.call θ with
    | .borrowed m pending t =>
      match s.timer m,s.task t with
      | some tm,some p => some ((s.register m tm t p).go θ (.inserting m pending t))
      | _,_ => some s.fail
    | _ => none
  | .insert θ =>
    match s.call θ with
    | .inserting _ pending t =>
      match s.task t with
      | some p => if (s.work p.worker).locked then none else some ((s.insert t p).go θ (.idle (some pending)))
      | none => some s.fail
    | _ => none
  | .revoke θ =>
    match s.call θ with
    | .revoking m [] => some (s.go θ (.draining m))
    | .revoking m (t::rest) =>
      match s.timer m with
      | some tm => some (s.revoke θ m tm t rest)
      | none => some s.fail
    | _ => none
  | .drain θ =>
    match s.call θ with
    | .draining m =>
      match s.timer m with
      | some tm => some (s.drain θ m tm)
      | none => some s.fail
    | _ => none
  | .wake θ =>
    match s.call θ with
    | .waiting m true =>
      match s.timer m with
      | some tm => if s.owner tm.lock = none then some ((s.setOwner tm.lock (some θ)).go θ (.draining m)) else none
      | none => some s.fail
    | _ => none
  | .pop c t =>
    if s.work c = .loop ∧ (s.call (.worker c)).isIdle ∧ t ∈ s.timers c then some (s.pop c t) else none
  | .check c =>
    match s.work c with
    | .popped t n =>
      match s.task t with
      | some p => some (s.goWork c (if p.state = .released then .loop else .claiming t n))
      | none => some s.fail
    | _ => none
  | .claim c =>
    match s.work c with
    | .claiming t n => some (s.claim c t n)
    | _ => none
  | .enter c =>
    match s.work c with
    | .firing t m n =>
      match s.timer m with
      | some tm => if s.owner tm.lock = none then some (s.enter c t m n tm) else none
      | none => some s.fail
    | _ => none
  | .leave c =>
    match s.work c with
    | .calling t m n =>
      match s.timer m with
      | some tm =>
        if (s.call (.worker c)).isIdle ∧ s.owner tm.lock = none then
          some ((s.setOwner tm.lock (some (.worker c))).goWork c (.returned t m n))
        else none
      | none => some s.fail
    | _ => none
  | .finish c =>
    match s.work c with
    | .returned t m _ =>
      match s.timer m with
      | some tm => some (s.finish c t m tm)
      | none => some s.fail
    | _ => none
  | .push c =>
    match s.work c with
    | .freed t l => some (((s.free t).setOwner l none).goWork c .loop)
    | _ => none

end OsvKernel.TimerTask
