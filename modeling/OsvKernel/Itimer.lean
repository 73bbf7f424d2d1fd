import OsvKernel.Alarm
import OsvKernel.Runs

/-! An interval timer: set, get, cancel_this_thread and the loop of the alarm thread, each critical section one step.
A zero due time means no alarm. sent records each signal with what was set when it was sent; value is the due time
that the last set asked for, until a signal is sent at or after it. -/
namespace OsvKernel.Itimer
open Option Runs
open Alarm (Worker s64 s64Fits)

structure Timeval where
  sec : Int
  usec : Int
  deriving DecidableEq

structure Itimerval where
  interval : Timeval
  value : Timeval
  deriving DecidableEq

def Timeval.nanos (tv : Timeval) : Int := tv.sec * 1000000000 + tv.usec * 1000
def fillTv (d : Int) : Timeval := ⟨d.tdiv 1000000000,(d.tmod 1000000000).tdiv 1000⟩

structure Signal (T : Type) where
  time : Int
  due : Int
  owner : Option T
  deriving DecidableEq

/-- looping: the alarm thread is on its way to the lock at the top of its loop. crashed: it has interrupted a null
owner. -/
structure State (T : Type) where
  now : Int
  due : Int
  interval : Int
  owner : Option T
  started : Bool
  worker : Worker Int
  looping : Bool
  crashed : Bool
  sent : List (Signal T)
  value : Option Int
  deriving DecidableEq

inductive Action (T : Type)
  | tick (n : Nat)
  | set (t : T) (new : Option Itimerval)
  | alarm (t : T) (seconds : BitVec 32)
  | get
  | cancelThisThread (t : T)
  | fire
  | arm
  | work (ignored : Bool)

variable {T : Type}

def cancel (s : State T) : State T :=
  { s with due := 0, interval := 0, owner := none, worker := s.worker.wake, value := none }

def setInterval (s : State T) (tv : Timeval) : State T := { s with interval := s64 tv.nanos }

def setValue (s : State T) (t : T) (tv : Timeval) : State T :=
  { s with
    started := true, due := s64 (s.now + tv.nanos), owner := some t, worker := s.worker.wake,
    value := some (s.now + tv.nanos) }

def getInterval (s : State T) : Timeval := fillTv s.interval
def getValue (s : State T) : Timeval := if s.due = 0 then ⟨0,0⟩ else fillTv (s64 (s.due - s.now))
def get (s : State T) : Itimerval := ⟨getInterval s,getValue s⟩

def set (s : State T) (t : T) : Option Itimerval → Option (Itimerval × State T)
  | none => none
  | some new =>
    let cleared := cancel s
    some (get s,if new.value.sec ≠ 0 ∨ new.value.usec ≠ 0 then setValue (setInterval cleared new.interval) t new.value
      else cleared)

def alarm (s : State T) (t : T) (seconds : BitVec 32) : Option (BitVec 32 × State T) :=
  (set s t (some ⟨⟨0,0⟩,⟨seconds.toNat,0⟩⟩)).map fun (old,s) =>
    let ret := BitVec.ofInt 32 old.value.sec
    (if ret = 0 ∧ old.value.usec ≠ 0 ∨ 500000 ≤ old.value.usec then ret + 1 else ret,s)

def cancelThisThread [DecidableEq T] (s : State T) (t : T) : State T := if s.owner = some t then cancel s else s

def arm (s : State T) : Option (State T) :=
  if s.started ∧ s.looping then some { s with worker := .wait (if s.due ≠ 0 then some s.due else none), looping := false }
  else none

def work (s : State T) (ignored : Bool) : Option (State T) :=
  if s.looping then none
  else if s.worker.fired then
    some { s with
      due := if s.interval ≠ 0 then s64 (s.now + s.interval) else 0
      worker := .wait none
      looping := true
      crashed := s.crashed || !ignored && s.owner.isNone
      sent := ⟨s.now,s.due,s.owner⟩::s.sent
      value := s.value.filter (s.now < ·) }
  else if s.worker.woken then some { s with worker := .wait none, looping := true }
  else none

def step [DecidableEq T] (s : State T) : Action T → Option (State T)
  | .tick n => some { s with now := s.now + n }
  | .set t new => (set s t new).map Prod.snd
  | .alarm t seconds => (alarm s t seconds).map Prod.snd
  | .get => some s
  | .cancelThisThread t => some (cancelThisThread s t)
  | .fire => (s.worker.fire s.now).map fun worker => { s with worker := worker }
  | .arm => arm s
  | .work ignored => work s ignored

def start (now : Nat) : State T := ⟨now,0,0,none,false,.wait none,true,false,[],none⟩

def Fits (s : State T) (tv : Timeval) : Prop :=
  tv = ⟨0,0⟩ ∨ s.now + tv.nanos ≠ 0 ∧ -2 ^ 63 ≤ s.now + tv.nanos ∧ s.now + tv.nanos < 2 ^ 63
  deriving Decidable

/-- An alarm thread that finds its timer expired finds an alarm whose time has come. -/
def ok (s : State T) : Action T → Prop
  | .set _ new => ∀ v ∈ new, Fits s v.value
  | .alarm _ seconds => Fits s ⟨seconds.toNat,0⟩
  | .work _ => s.worker.fired = true → s.due ≠ 0 ∧ s.due ≤ s.now
  | _ => True

instance (s : State T) : ∀ a, Decidable (ok s a)
  | .set _ new => inferInstanceAs (Decidable (∀ v ∈ new, Fits s v.value))
  | .alarm _ seconds => inferInstanceAs (Decidable (Fits s ⟨seconds.toNat,0⟩))
  | .work _ => inferInstanceAs (Decidable (s.worker.fired = true → s.due ≠ 0 ∧ s.due ≤ s.now))
  | .tick _ | .get | .cancelThisThread _ | .fire | .arm => .isTrue trivial

/-- A signal is sent for the alarm that is set, at or after its time, to an owner; a value that is set stays. -/
structure Sound (s : State T) : Prop where
  sent : ∀ x ∈ s.sent, x.due ≠ 0 ∧ x.due ≤ x.time ∧ x.owner.isSome = true
  kept : ∀ v ∈ s.value, s.due = v
  alive : s.crashed = false

structure Inv (s : State T) : Prop extends Sound s where
  owned : s.due ≠ 0 → s.owner.isSome = true

variable {s r : State T}

lemma Inv.cancel (inv : Inv s) : Inv (cancel s) := ⟨⟨inv.sent,nofun,inv.alive⟩,fun due => absurd rfl due⟩

lemma Inv.set (inv : Inv s) {t : T} {new : Option Itimerval} {old : Itimerval} (fits : ∀ v ∈ new, Fits s v.value)
    (taken : set s t new = some (old,r)) : Inv r := by
  rcases new with _ | new
  · exact nomatch taken
  cases taken
  split
  next given =>
    refine ⟨⟨inv.sent,?_,inv.alive⟩,fun _ => rfl⟩
    intro v there
    cases there
    rcases fits new rfl with zero | ⟨_,low,high⟩
    · rw [zero] at given
      simp at given
    · exact s64Fits low high
  · exact inv.cancel

lemma Inv.work (inv : Inv s) {ignored : Bool} (due : s.worker.fired = true → s.due ≠ 0 ∧ s.due ≤ s.now)
    (taken : work s ignored = some r) : Inv r := by
  obtain ⟨_,taken⟩ := ite_none_left_eq_some.mp taken
  split at taken
  next fired =>
    cases taken
    obtain ⟨set,come⟩ := due fired
    have owned := inv.owned set
    refine ⟨⟨List.forall_mem_cons.mpr ⟨⟨set,come,owned⟩,inv.sent⟩,?_,?_⟩,fun _ => owned⟩
    · -- the value, if it is still waited for, is the due time that has come
      intro v there
      obtain ⟨pending,later⟩ := mem_filter_iff.mp there
      have same := inv.kept v pending
      have := of_decide_eq_true later
      omega
    have some : s.owner.isNone = false := by rw [← not_isSome,owned]; rfl
    rw [inv.alive,some,Bool.and_false]
    rfl
  obtain ⟨_,eq⟩ := ite_none_right_eq_some.mp taken
  cases eq
  exact ⟨⟨inv.sent,inv.kept,inv.alive⟩,inv.owned⟩

variable [DecidableEq T]

lemma Inv.step (inv : Inv s) {a : Action T} (allowed : ok s a) (taken : step s a = some r) : Inv r := by
  cases a with
  | tick n =>
    cases taken
    exact ⟨⟨inv.sent,inv.kept,inv.alive⟩,inv.owned⟩
  | set t new =>
    obtain ⟨⟨old,_⟩,done,rfl⟩ := map_eq_some_iff.mp taken
    exact inv.set allowed done
  | alarm t seconds =>
    have taken : (alarm s t seconds).map Prod.snd = some r := taken
    obtain ⟨_,rang,rfl⟩ := map_eq_some_iff.mp taken
    obtain ⟨⟨old,_⟩,done,rfl⟩ := map_eq_some_iff.mp rang
    refine inv.set ?_ done
    intro v there
    cases there
    exact allowed
  | get =>
    cases taken
    exact inv
  | cancelThisThread t =>
    cases taken
    unfold cancelThisThread
    split
    · exact inv.cancel
    · exact inv
  | fire =>
    obtain ⟨worker,_,rfl⟩ := map_eq_some_iff.mp taken
    exact ⟨⟨inv.sent,inv.kept,inv.alive⟩,inv.owned⟩
  | arm =>
    obtain ⟨_,eq⟩ := ite_none_right_eq_some.mp taken
    cases eq
    exact ⟨⟨inv.sent,inv.kept,inv.alive⟩,inv.owned⟩
  | work ignored => exact inv.work allowed taken

theorem itimerSound {now : Nat} (reach : Reach step ok (· = start now) s) : Sound s := by
  have inv : Inv s := by
    refine invariant (P := Inv) ?_ (fun _ _ _ inv allowed taken => inv.step allowed taken) reach
    rintro _ rfl
    exact ⟨⟨nofun,nofun,rfl⟩,fun due => absurd rfl due⟩
  exact inv.toSound

def short : Itimerval := ⟨⟨0,2⟩,⟨0,1⟩⟩

def periodic : List (Action Bool) :=
  [.set true (some short),.arm,.tick 1000,.fire,.work false,.arm,.tick 2000,.fire,.work false,.arm,.alarm false 5,
    .work false,.arm]

theorem itimerSoundPeriodic :
    ((final step ok (start 1) periodic).sent.length,(final step ok (start 1) periodic).value) =
        (2,some 5000003001) ∧
      Sound (final step ok (start 1) periodic) := by
  have reach : Reach step ok (· = start 1) (final step ok (start 1) periodic) :=
    reachFinal periodic rfl rfl
  exact ⟨rfl,itimerSound reach⟩

def expired : List (Action Bool) := [.set true (some short),.arm,.tick 1000,.fire]

theorem supersededSent : Reach step (fun _ _ => True) (· = start 1)
        (played step (start 1) (expired ++ [.cancelThisThread true,.work false])) ∧
      Reach step (fun _ _ => True) (· = start 1) (played step (start 1) (expired ++ [.alarm true 5,.work false])) ∧
      (played step (start 1) (expired ++ [.cancelThisThread true,.work false])).sent = [⟨1001,0,none⟩] ∧
      (played step (start 1) (expired ++ [.cancelThisThread true,.work false])).crashed = true ∧
      (played step (start 1) (expired ++ [.alarm true 5,.work false])).sent = [⟨1001,5000001001,some true⟩] ∧
      (played step (start 1) (expired ++ [.alarm true 5,.work false])).value = some 5000001001 ∧
      (played step (start 1) (expired ++ [.alarm true 5,.work false])).due = 0 :=
  ⟨reachPlayed _ rfl (fun _ _ _ => trivial) rfl,
    reachPlayed _ rfl (fun _ _ _ => trivial) rfl,rfl,rfl,
    rfl,rfl,rfl⟩

end OsvKernel.Itimer
