import OsvKernel.Runs
import OsvKernel.Threads

/-! lockfree::mutex of core/lfmutex.cc over the queue of lockfree/queue-mpsc.hh, one
atomic access a step. A thread has at most one wait_record at a time, so records are
named by their threads. The sequence number does not wrap. -/
namespace OsvKernel.LfMutex
open Function

inductive Caller (T : Type) where
  | lock
  | send (record : T) (nested : Bool)
  | unlock

inductive Pc (T : Type) where
  | idle
  | held
  | parked
  | sent
  | storeOwner
  | lockOwner (nested : Bool)
  | lockUncount
  | pushLoad (c : Caller T)
  | pushCas (c : Caller T) (old : Option T)
  | loadHandoff (c : Caller T)
  | emptyPop (c : Caller T) (seen : Nat)
  | emptyPush (c : Caller T) (seen : Nat)
  | casHandoff (c : Caller T) (seen : Nat)
  | popTest (c : Caller T)
  | popTake (c : Caller T)
  | popExchange (c : Caller T)
  | popReverse (c : Caller T) (r : List T)
  | popped (c : Caller T) (other : Option T)
  | wake (c : Caller T) (other : T)
  | lockWait
  | unlockDepth
  | unlockOwner
  | unlockCount
  | publish
  | tryOwner (nested : Bool)
  | tryHandoff
  | tryCas (seen : Nat)
  | tryCount

/-- The mutex, where each thread is, and for the current wait_record of each thread
whether its thread pointer was cleared and how often it was popped and woken. -/
structure State (T : Type) where
  count : Int
  owner : Option T
  depth : BitVec 32
  pushlist : List T
  poplist : List T
  handoff : Nat
  sequence : Nat
  pc : T → Pc T
  woken : T → Bool
  pops : T → Nat
  wakes : T → Nat

def initial (T : Type) : State T where
  count := 0
  owner := none
  depth := 0
  pushlist := []
  poplist := []
  handoff := 0
  sequence := 0
  pc _ := .idle
  woken _ := false
  pops _ := 0
  wakes _ := 0

def Caller.item {T : Type} (t : T) : Caller T → T
  | .send record _ => record
  | _ => t

def Caller.leave {T : Type} : Caller T → Pc T
  | .lock => .lockWait
  | .send _ true => .held
  | .send _ false => .idle
  | .unlock => .idle

section
variable {T : Type} [DecidableEq T]

def State.thread (s : State T) (record : T) : Option T := if s.woken record then none else some record
def State.goto (s : State T) (t : T) (pc : Pc T) : State T := {s with pc := update s.pc t pc}

def State.newRecord (s : State T) (t : T) : State T :=
  {s with
    woken := update s.woken t false
    pops := update s.pops t 0
    wakes := update s.wakes t 0}

def State.take (s : State T) (t : T) (c : Caller T) (record : T) : State T :=
  {s with
    pc := update s.pc t (.popped c (some record))
    pops := update s.pops record (s.pops record + 1)}

def asserts (s : State T) (t : T) : Bool :=
  match s.pc t with
  | .held => s.owner = some t
  | .unlockDepth => s.depth ≠ 0
  | .popped .lock (some other) => if s.thread other = some t then other = t else s.thread t = some t
  | .popped .lock none => false
  | .popped (.send ..) other => other.isSome
  | .popped .unlock (some other) => s.thread other ≠ some t
  | .wake _ other => (s.thread other).isSome
  | _ => true

def run (s : State T) (t : T) : Option (State T) :=
  match s.pc t with
  | .idle => none
  | .held => none
  | .parked => none
  | .sent => if s.woken t then some (s.goto t .storeOwner) else none
  | .lockWait => if s.woken t then some (s.goto t .storeOwner) else none
  | .storeOwner => some {s.goto t .held with owner := some t, depth := 1}
  | .lockOwner _ =>
    if s.owner = some t then some (s.goto t .lockUncount)
    else some ((s.newRecord t).goto t (.pushLoad .lock))
  | .lockUncount => some {s.goto t .held with count := s.count - 1, depth := s.depth + 1}
  | .pushLoad c => some (s.goto t (.pushCas c s.pushlist.head?))
  | .pushCas c old =>
    if s.pushlist.head? = old then
      some {s.goto t (.loadHandoff c) with pushlist := c.item t::s.pushlist}
    else some (s.goto t (.pushCas c s.pushlist.head?))
  | .loadHandoff c => some (s.goto t (if s.handoff = 0 then c.leave else .emptyPop c s.handoff))
  | .emptyPop c seen => some (s.goto t (if s.poplist = [] then .emptyPush c seen else .casHandoff c seen))
  | .emptyPush c seen => some (s.goto t (if s.pushlist = [] then c.leave else .casHandoff c seen))
  | .casHandoff c seen =>
    if s.handoff = seen then some {s.goto t (.popTest c) with handoff := 0}
    else some (s.goto t c.leave)
  | .popTest c => some (s.goto t (if s.poplist = [] then .popExchange c else .popTake c))
  | .popTake c =>
    match s.poplist with
    | [] => none
    | record::rest => some {s.take t c record with poplist := rest}
  | .popExchange c =>
    if s.pushlist = [] then some (s.goto t (.popped c none))
    else some {s.goto t (.popReverse c s.pushlist) with pushlist := []}
  | .popReverse c r =>
    match r with
    | [] => none
    | [record] => some (s.take t c record)
    | record::next::r => some {s.goto t (.popReverse c (next::r)) with poplist := record::s.poplist}
  | .popped c other =>
    match c,other with
    | .unlock,none => some (s.goto t .publish)
    | _,none => none
    | .lock,some other => some (s.goto t (if s.thread other = some t then .storeOwner else .wake .lock other))
    | c,some other => some (s.goto t (.wake c other))
  | .wake c other =>
    some {s.goto t c.leave with
      woken := update s.woken other true
      wakes := update s.wakes other (s.wakes other + 1)}
  | .unlockDepth =>
    some {s.goto t (if s.depth - 1 = 0 then .unlockOwner else .held) with depth := s.depth - 1}
  | .unlockOwner => some {s.goto t .unlockCount with owner := none}
  | .unlockCount =>
    some {s.goto t (if s.count = 1 then .idle else .popTest .unlock) with count := s.count - 1}
  | .publish =>
    some {s.goto t (.emptyPop .unlock (s.sequence + 1)) with
      sequence := s.sequence + 1
      handoff := s.sequence + 1}
  | .tryOwner _ =>
    if s.owner = some t then some {s.goto t .held with depth := s.depth + 1}
    else some (s.goto t .tryHandoff)
  | .tryHandoff => some (s.goto t (if s.handoff = 0 then .idle else .tryCas s.handoff))
  | .tryCas seen =>
    if s.handoff = seen then some {s.goto t .tryCount with handoff := 0}
    else some (s.goto t .idle)
  | .tryCount => some {s.goto t .storeOwner with count := s.count + 1}

inductive Act (T : Type) where
  | run (t : T)
  | spurious (t : T)
  | lock (t : T)
  | tryLock (t : T)
  | unlock (t : T)
  | park (t : T)
  | sendLock (t record : T)

def outside : Pc T → Option Bool
  | .idle => some false
  | .held => some true
  | _ => none

def step (s : State T) : Act T → Option (State T)
  | .run t => if asserts s t then run s t else none
  | .spurious t =>
    match s.pc t with
    | .pushCas c _ => some (s.goto t (.pushCas c s.pushlist.head?))
    | _ => none
  | .lock t =>
    match outside (s.pc t) with
    | none => none
    | some nested =>
      some {s.goto t (if s.count = 0 then .storeOwner else .lockOwner nested) with count := s.count + 1}
  | .tryLock t =>
    match outside (s.pc t) with
    | none => none
    | some nested =>
      if s.count = 0 then some {s.goto t .storeOwner with count := 1}
      else some (s.goto t (.tryOwner nested))
  | .unlock t =>
    match s.pc t with
    | .held => if asserts s t then some (s.goto t .unlockDepth) else none
    | _ => none
  | .park t =>
    match s.pc t with
    | .idle => some ((s.newRecord t).goto t .parked)
    | _ => none
  | .sendLock t record =>
    match outside (s.pc t),s.pc record with
    | some nested,.parked =>
      let c := Caller.send record nested
      some {(s.goto record .sent).goto t (if s.count = 0 then .wake c record else .pushLoad c) with
        count := s.count + 1}
    | _,_ => none

def Reachable (s : State T) : Prop := Runs.Reach step (fun _ _ => True) (· = initial T) s

end
end OsvKernel.LfMutex
