import OsvKernel.TimerExpiry

/-! timer_base, its clients and timer_list on one CPU (core/sched.cc). The calls run with
interrupts off; fired() is cut where it hands a timer to timer_fired(), which wakes a thread,
does nothing, or sets a timer. -/
namespace OsvKernel.TimerList
open List
open TimerSet (maxTimestamp getNextTimeout Active Filed InRange)
open Function

inductive TimerState where
  | free
  | armed
  | expired
  deriving DecidableEq, Repr

/-- last is _last of timer_list; event is the time the clock event was programmed for, none
once it has fired. firing: fired() has expired timers and not yet returned. -/
structure State (K T : Type) where
  set : TimerSet.State T
  last : Int
  event : Option Int
  firing : Bool
  state : T → TimerState
  time : T → Int
  activeTimers : K → List T
  timersNeedReload : K → Bool

def armedFor (event : Option Int) : Int := event.getD maxTimestamp

inductive Act (K T : Type) where
  | set (t : T) (time : Int)
  | cancel (t : T)
  | reset (t : T) (time : Int)
  | suspend (k : K)
  | resume (k : K)
  | fired (now : Int)
  | expire
  | finish (now : Int)

section
variable {K T : Type} [DecidableEq K] [DecidableEq T]

def rearm (s : State K T) : State K T :=
  let t := getNextTimeout s.set
  if t < s.last then {s with last := t, event := some t} else s

def enlist (s : State K T) (t : T) : State K T :=
  let inserted := TimerSet.insert s.time s.set t
  let s := {s with set := inserted.1}
  if inserted.2 then rearm s else s

def pushActive (client : T → K) (s : State K T) (t : T) : State K T :=
  {s with
    activeTimers := update s.activeTimers (client t) (s.activeTimers (client t) ++ [t])
    state := update s.state t .armed}

def eraseActive (client : T → K) (s : State K T) (t : T) : State K T :=
  {s with activeTimers := update s.activeTimers (client t) ((s.activeTimers (client t)).erase t)}

def setTimer (client : T → K) (s : State K T) (t : T) (time : Int) : State K T :=
  let s := pushActive client s t
  enlist {s with time := update s.time t time} t

def cancel (client : T → K) (s : State K T) (t : T) : State K T :=
  if s.state t = .free then s else
    let s := if s.state t = .armed then
      {eraseActive client s t with set := TimerSet.remove s.time s.set t} else s
    {s with state := update s.state t .free}

def reset (client : T → K) (s : State K T) (t : T) (time : Int) : State K T :=
  let s := if s.state t = .armed then {s with set := TimerSet.remove s.time s.set t} else pushActive client s t
  enlist {s with time := update s.time t time} t

def suspend (s : State K T) (k : K) : Option (State K T) :=
  if s.timersNeedReload k then some s
  else if ∀ t ∈ s.activeTimers k, s.state t = .armed then
    some {s with
      timersNeedReload := update s.timersNeedReload k true
      set := (s.activeTimers k).foldl (TimerSet.remove s.time) s.set}
  else none

def insertAll (time : T → Int) (set : TimerSet.State T) (timers : List T) : TimerSet.State T × Bool :=
  timers.foldl (fun acc t =>
    let inserted := TimerSet.insert time acc.1 t
    (inserted.1,acc.2 || inserted.2)) (set,false)

def enlistAll (s : State K T) (timers : List T) : State K T :=
  let inserted := insertAll s.time s.set timers
  let s := {s with set := inserted.1}
  if inserted.2 then rearm s else s

def resume (s : State K T) (k : K) : Option (State K T) :=
  if s.timersNeedReload k = false then some s
  else if ∀ t ∈ s.activeTimers k, s.state t = .armed then
    some (enlistAll {s with timersNeedReload := update s.timersNeedReload k false} (s.activeTimers k))
  else none

def again (s : State K T) (now : Int) : Option (State K T) :=
  (TimerSet.expire s.time s.set now).map fun set => {s with last := maxTimestamp, set := set, firing := true}

def fired (s : State K T) (now : Int) : Option (State K T) := again {s with event := none} now

def expire (client : T → K) (s : State K T) : Option (State K T) :=
  let popped := TimerSet.popExpired s.set
  popped.2.bind fun t =>
    if s.state t = .armed then
      some (eraseActive client {s with set := popped.1, state := update s.state t .expired} t)
    else none

def finish (s : State K T) (now : Int) : Option (State K T) :=
  if TimerSet.isEmpty s.set then some {s with firing := false} else
    let t := getNextTimeout s.set
    if t ≤ now then again s now else some {s with last := t, event := some t, firing := false}

def step (client : T → K) (s : State K T) : Act K T → Option (State K T)
  | .set t time => some (setTimer client s t time)
  | .cancel t => some (cancel client s t)
  | .reset t time => some (reset client s t time)
  | .suspend k => suspend s k
  | .resume k => resume s k
  | .fired now => fired s now
  | .expire => expire client s
  | .finish now => finish s now

/-- A timer is set when it is not armed, and a client whose timers are suspended does not run.
The clock does not go back. While fired() runs, only timer_fired() sets timers. -/
def Allowed (client : T → K) (s : State K T) : Act K T → Prop
  | .set t time => s.state t ≠ .armed ∧ s.timersNeedReload (client t) = false ∧ InRange time
  | .cancel t => s.firing = false ∧ (s.state t = .armed → s.timersNeedReload (client t) = false)
  | .reset t time => s.firing = false ∧ s.timersNeedReload (client t) = false ∧ InRange time
  | .suspend _ => s.firing = false
  | .resume _ => s.firing = false
  | .fired now => s.firing = false ∧ s.set.last ≤ now ∧ InRange now
  | .expire => s.firing = true ∧ s.set.expired ≠ []
  | .finish now => s.firing = true ∧ s.set.expired = [] ∧ s.set.last ≤ now ∧ InRange now

end

section
variable {K T : Type}

structure Kept (client : T → K) (absent : T → Prop) (s : State K T) : Prop where
  filed : Filed s.time s.set
  listed : ∀ k t, t ∈ s.activeTimers k ↔ s.state t = .armed ∧ client t = k
  listedOnce : ∀ k, (s.activeTimers k).Nodup
  held : ∀ t, Active s.set t ∨ t ∈ s.set.expired ↔ s.state t = .armed ∧ ¬absent t
  times : ∀ t, s.state t = .armed → s.time t ≤ maxTimestamp
  due : ∀ t, s.state t = .expired ∨ t ∈ s.set.expired → s.time t ≤ s.set.last

structure Programmed (s : State K T) : Prop where
  event : armedFor s.event ≤ s.last
  top : s.last ≤ maxTimestamp
  idle : s.firing = false → s.set.expired = [] ∧ s.last ≤ getNextTimeout s.set
  busy : s.firing = true → (∀ t, ¬Active s.set t) → getNextTimeout s.set = maxTimestamp

def Suspended (client : T → K) (s : State K T) (t : T) : Prop := s.timersNeedReload (client t) = true

structure Inv (client : T → K) (s : State K T) : Prop where
  kept : Kept client (Suspended client s) s
  programmed : Programmed s

variable {client : T → K} {absent : T → Prop} {s : State K T} {absent' : T → Prop}

lemma Kept.iff (kept : Kept client absent s)
    (same : ∀ t, s.state t = .armed → (absent t ↔ absent' t)) : Kept client absent' s :=
  {kept with held := fun t => (kept.held t).trans (and_congr_right fun armed => not_congr (same t armed))}

variable {t : T} {l : List T} {set : TimerSet.State T} {now : Int}

lemma Kept.out (kept : Kept client absent s) (gone : absent t ∨ s.state t ≠ .armed) :
    ¬Active s.set t ∧ t ∉ s.set.expired := by
  have none : ¬(Active s.set t ∨ t ∈ s.set.expired) := by
    rw [kept.held]
    rintro ⟨armed,present⟩
    exact gone.elim present fun other => other armed
  exact not_or.mp none

lemma Kept.rearm (kept : Kept client absent s) : Kept client absent (rearm s) := by
  dsimp only [TimerList.rearm]
  split
  · exact ⟨kept.filed,kept.listed,kept.listedOnce,kept.held,kept.times,kept.due⟩
  · exact kept

lemma rearmProgrammed (event : armedFor s.event ≤ s.last) (top : s.last ≤ maxTimestamp)
    (idle : s.firing = false → s.set.expired = [])
    (busy : s.firing = true → (∀ t, ¬Active s.set t) → getNextTimeout s.set = maxTimestamp) :
    Programmed (rearm s) := by
  dsimp only [rearm]
  split
  next earlier => exact ⟨Int.le_refl _,Int.le_trans (Int.le_of_lt earlier) top,fun quiet => ⟨idle quiet,Int.le_refl _⟩,busy⟩
  · exact ⟨event,top,fun quiet => ⟨idle quiet,by omega⟩,busy⟩

structure InsertedAll (time : T → Int) (set set' : TimerSet.State T) (first : Bool) (l : List T) : Prop where
  filed : Filed time set'
  active : ∀ x, Active set' x ↔ Active set x ∨ x ∈ l
  expired : set'.expired = set.expired
  last : set'.last = set.last
  next : first = false → set'.next = set.next

lemma insertedAll {time : T → Int} (filed : Filed time set)
    (nodup : l.Nodup)
    (fresh : ∀ t ∈ l, ¬Active set t ∧ t ∉ set.expired ∧ time t ≤ maxTimestamp) (b : Bool) :
    let after := l.foldl (fun acc t =>
      let inserted := TimerSet.insert time acc.1 t
      (inserted.1,acc.2 || inserted.2)) (set,b)
    InsertedAll time set after.1 after.2 l ∧ (after.2 = false → b = false) := by
  induction l generalizing set b with
  | nil => exact ⟨⟨filed,by simp,rfl,rfl,fun _ => rfl⟩,id⟩
  | cons t l ih => ?_
  obtain ⟨apart,nodup⟩ := nodup_cons.mp nodup
  obtain ⟨free,out,high⟩ := fresh t (.head _)
  have active := fun x => @TimerSet.insertActive T time set t x filed free out high
  obtain ⟨last,expired⟩ := @TimerSet.insertFrame T time set t
  have rest := fun u (here : u ∈ l) => fresh u (.tail t here)
  obtain ⟨tail,flag⟩ := ih (filed.insert free out high) nodup (fun u here => by
    rw [active,expired]
    refine ⟨?_,(rest u here).2⟩
    rintro (old | rfl)
    · exact (rest u here).1 old
    · exact apart here) (b || (TimerSet.insert time set t).2)
  refine ⟨⟨tail.filed,fun x => ?_,tail.expired.trans expired,tail.last.trans last,fun none => ?_⟩,fun none => ?_⟩
  · refine (tail.active x).trans ?_
    rw [active,mem_cons,or_assoc]
  · have same := (Bool.or_eq_false_iff.mp (flag none)).2
    refine (tail.next none).trans ?_
    rcases @TimerSet.insertNext T time set t with ⟨-,-,lowered⟩ | ⟨-,next,-⟩
    · rw [lowered] at same
      exact absurd same (by decide)
    · exact next
  · exact (Bool.or_eq_false_iff.mp (flag none)).1

section
variable (kept : Kept client absent s) (nodup : l.Nodup) (armed : ∀ t ∈ l, s.state t = .armed) (gone : ∀ t ∈ l, absent t)
include kept nodup armed gone

lemma Kept.insertedAll : InsertedAll s.time s.set (insertAll s.time s.set l).1 (insertAll s.time s.set l).2 l := by
  refine (TimerList.insertedAll kept.filed nodup (fun t here => ?_) false).1
  obtain ⟨free,out⟩ := kept.out (.inl (gone t here))
  exact ⟨free,out,kept.times t (armed t here)⟩

lemma Kept.enlistAll : Kept client (fun x => absent x ∧ x ∉ l) (enlistAll s l) := by
  have all := kept.insertedAll nodup armed gone
  have base : Kept client (fun x => absent x ∧ x ∉ l) {s with set := (insertAll s.time s.set l).1} := by
    constructor
    case filed => exact all.filed
    case listed => exact kept.listed
    case listedOnce => exact kept.listedOnce
    case held =>
      intro x
      dsimp only
      rw [all.active,all.expired,or_right_comm,kept.held]
      constructor
      · rintro (⟨here,present⟩ | inside)
        · exact ⟨here,fun both => present both.1⟩
        · exact ⟨armed x inside,fun both => both.2 inside⟩
      rintro ⟨here,present⟩
      by_cases inside : x ∈ l
      · exact .inr inside
      · exact .inl ⟨here,fun lost => present ⟨lost,inside⟩⟩
    case times => exact kept.times
    case due =>
      intro x old
      dsimp only at old ⊢
      rw [all.expired] at old
      rw [all.last]
      exact kept.due x old
  dsimp only [TimerList.enlistAll]
  split
  · exact base.rearm
  · exact base

end

lemma Programmed.enlistAll (programmed : Programmed s) (kept : Kept client absent s) (nodup : l.Nodup)
    (armed : ∀ t ∈ l, s.state t = .armed) (gone : ∀ t ∈ l, absent t) : Programmed (enlistAll s l) := by
  have all := kept.insertedAll nodup armed gone
  have busy : s.firing = true → (∀ t, ¬Active (insertAll s.time s.set l).1 t) →
      getNextTimeout (insertAll s.time s.set l).1 = maxTimestamp := by
    intro busy none
    cases l with
    | nil => exact programmed.busy busy none
    | cons t l => exact absurd ((all.active t).mpr (.inr (.head _))) (none t)
  dsimp only [TimerList.enlistAll]
  split
  · exact rearmProgrammed programmed.event programmed.top (fun quiet => all.expired.trans (programmed.idle quiet).1) busy
  rename_i first
  refine ⟨programmed.event,programmed.top,fun quiet => ⟨all.expired.trans (programmed.idle quiet).1,?_⟩,busy⟩
  unfold getNextTimeout
  rw [all.next (Bool.eq_false_of_not_eq_true first),all.last]
  exact (programmed.idle quiet).2

lemma enlistAllFrame (l : List T) : (enlistAll s l).state = s.state ∧
    (enlistAll s l).timersNeedReload = s.timersNeedReload := by
  unfold enlistAll rearm
  dsimp only
  split
  · split <;> exact ⟨rfl,rfl⟩
  · exact ⟨rfl,rfl⟩

lemma enlistSingle (t : T) : enlist s t = enlistAll s [t] := rfl

lemma Kept.expired (kept : Kept client absent s)
    (order : s.set.last ≤ now) (filed : Filed s.time set) (expires : TimerSet.Expires s.time s.set set now) :
    Kept client absent {s with last := maxTimestamp, set := set, firing := true} := by
  constructor
  case filed => exact filed
  case listed => exact kept.listed
  case listedOnce => exact kept.listedOnce
  case held =>
    intro x
    dsimp only
    rw [expires.active,expires.expired,← kept.held]
    rcases Int.lt_or_le now (s.time x) with later | due
    · have early : ¬s.time x ≤ now := by omega
      simp only [later,early,and_true,and_false,or_false]
    have past : ¬now < s.time x := by omega
    simp only [due,past,and_true,and_false,false_or]
    exact or_comm
  case times => exact kept.times
  intro x old
  dsimp only at old ⊢
  rw [expires.expired] at old
  rw [expires.last]
  rcases old with old | old | ⟨-,due⟩
  · exact Int.le_trans (kept.due x (.inl old)) order
  · exact Int.le_trans (kept.due x (.inr old)) order
  · exact due

lemma Kept.again {now : Int} (kept : Kept client (Suspended client s) s) (top : armedFor s.event ≤ maxTimestamp)
    (order : s.set.last ≤ now) (range : InRange now) :
    ∃ s', again s now = some s' ∧ Inv client s' ∧ s'.state = s.state := by
  obtain ⟨set,run,filed,expires⟩ := TimerSet.expireSpec kept.filed order range.2
  refine ⟨{s with last := maxTimestamp, set := set, firing := true},?_,⟨kept.expired order filed expires,?_⟩,rfl⟩
  · unfold TimerList.again
    rw [run]
    rfl
  refine ⟨top,Int.le_refl _, fun quiet => Bool.noConfusion quiet,fun _ none => ?_⟩
  rcases expires.least with ⟨-,next⟩ | ⟨⟨x,active,-⟩,-⟩
  · exact next
  · exact absurd active (none x)

lemma Inv.active (inv : Inv client s) (quiet : s.firing = false) (armed : s.state t = .armed)
    (here : s.timersNeedReload (client t) = false) : Active s.set t := by
  have present : ¬Suspended client s t := by
    unfold Suspended
    rw [here]
    decide
  rcases (inv.kept.held t).mpr ⟨armed,present⟩ with active | expired
  · exact active
  rw [(inv.programmed.idle quiet).1] at expired
  exact absurd expired not_mem_nil

lemma Filed.noneActive {time : T → Int} (filed : Filed time set)
    (empty : TimerSet.isEmpty set = true) (t : T) : ¬Active set t := by
  rintro ⟨i,-,inside⟩
  have bit := (filed.marks i).mpr (ne_nil_of_mem inside)
  rw [show set.nonEmptyBuckets = 0 from beq_iff_eq.mp empty] at bit
  simp at bit

lemma Inv.finish (inv : Inv client s) (firing : s.firing = true) (done : s.set.expired = [])
    (order : s.set.last ≤ now) (range : InRange now) :
    ∃ s', finish s now = some s' ∧ Inv client s' ∧ s'.state = s.state := by
  have kept := inv.kept
  have programmed := inv.programmed
  unfold TimerList.finish
  split
  next empty =>
    refine ⟨_,rfl,⟨⟨kept.filed,kept.listed,kept.listedOnce,kept.held,kept.times,kept.due⟩,
      programmed.event,programmed.top,fun _ => ⟨done,?_⟩,fun busy => Bool.noConfusion busy⟩,rfl⟩
    have next := programmed.busy firing (Filed.noneActive kept.filed empty)
    exact Int.le_trans programmed.top (Int.le_of_eq next.symm)
  dsimp only
  split
  · exact kept.again (Int.le_trans programmed.event programmed.top) order range
  refine ⟨_,rfl,⟨⟨kept.filed,kept.listed,kept.listedOnce,kept.held,kept.times,kept.due⟩,
    Int.le_refl _,?_,fun _ => ⟨done,Int.le_refl _⟩,fun busy => Bool.noConfusion busy⟩,rfl⟩
  exact Int.max_le.mpr ⟨kept.filed.late,kept.filed.nextMax⟩

end

section
variable {K T : Type} [DecidableEq T]
variable {client : T → K} {absent : T → Prop} {s : State K T}

structure RemovedAll (time : T → Int) (set set' : TimerSet.State T) (l : List T) : Prop where
  filed : Filed time set'
  active : ∀ x, Active set' x ↔ Active set x ∧ x ∉ l
  expired : set'.expired = set.expired
  last : set'.last = set.last
  next : set'.next = set.next

variable {l : List T} {t : T} {time : Int} {act : Act K T} {s' : State K T} {k : K}

lemma removedAll {time : T → Int} {set : TimerSet.State T} (filed : Filed time set)
    (nodup : l.Nodup) (active : ∀ t ∈ l, Active set t) :
    RemovedAll time set (l.foldl (TimerSet.remove time) set) l := by
  induction l generalizing set with
  | nil => exact ⟨filed,by simp,rfl,rfl,rfl⟩
  | cons t l ih => ?_
  obtain ⟨apart,nodup⟩ := nodup_cons.mp nodup
  have here := active t (.head _)
  have left := fun x => @TimerSet.removeActive T time set _ t x filed here
  have tail := ih (filed.remove here) nodup fun u inside => by
    rw [left]
    refine ⟨active u (.tail t inside),?_⟩
    rintro rfl
    exact apart inside
  refine ⟨tail.filed,fun x => ?_,tail.expired,tail.last,tail.next⟩
  refine (tail.active x).trans ?_
  rw [left,mem_cons,not_or,and_assoc]

lemma Kept.removeAll (kept : Kept client absent s) (nodup : l.Nodup) (active : ∀ t ∈ l, Active s.set t) :
    Kept client (fun x => absent x ∨ x ∈ l) {s with set := l.foldl (TimerSet.remove s.time) s.set} := by
  have all := removedAll kept.filed nodup active
  constructor
  case filed => exact all.filed
  case listed => exact kept.listed
  case listedOnce => exact kept.listedOnce
  case held =>
    intro x
    dsimp only
    rw [all.active,all.expired,not_or,← and_assoc,← kept.held]
    constructor
    · rintro (⟨here,out⟩ | expired)
      · exact ⟨.inl here,out⟩
      · refine ⟨.inr expired,fun inside => ?_⟩
        obtain ⟨i,-,bucket⟩ := active x inside
        exact kept.filed.apart i x bucket expired
    rintro ⟨here | expired,out⟩
    · exact .inl ⟨here,out⟩
    · exact .inr expired
  case times => exact kept.times
  case due =>
    intro x old
    dsimp only at old ⊢
    rw [all.expired] at old
    rw [all.last]
    exact kept.due x old

lemma Programmed.removeAll (programmed : Programmed s) (kept : Kept client absent s) (nodup : l.Nodup)
    (active : ∀ t ∈ l, Active s.set t) (quiet : s.firing = false) :
    Programmed {s with set := l.foldl (TimerSet.remove s.time) s.set} := by
  have all := removedAll kept.filed nodup active
  refine ⟨programmed.event,programmed.top,fun _ => ⟨all.expired.trans (programmed.idle quiet).1,?_⟩,
    fun busy => absurd (quiet.symm.trans busy) (by decide)⟩
  unfold getNextTimeout
  rw [all.last,all.next]
  exact (programmed.idle quiet).2

variable [DecidableEq K]

lemma Kept.release {t : T} {next : TimerState} (kept : Kept client absent s)
    (out : ¬Active s.set t ∧ t ∉ s.set.expired) (other : next ≠ .armed)
    (due : next = .expired → s.time t ≤ s.set.last) (same : ∀ x, x ≠ t → (absent x ↔ absent' x)) :
    Kept client absent' {eraseActive client s t with state := update s.state t next} := by
  constructor
  case filed => exact kept.filed
  case listed =>
    intro k x
    change x ∈ update s.activeTimers (client t) ((s.activeTimers (client t)).erase t) k ↔
      update s.state t next x = .armed ∧ client x = k
    have list : x ∈ update s.activeTimers (client t) ((s.activeTimers (client t)).erase t) k ↔
        x ≠ t ∧ x ∈ s.activeTimers k := by
      by_cases key : k = client t
      · subst k
        rw [update_self,(kept.listedOnce _).mem_erase_iff]
      rw [update_of_ne key]
      refine ⟨fun inside => ⟨?_,inside⟩,And.right⟩
      rintro rfl
      exact key ((kept.listed k x).mp inside).2.symm
    rw [list,kept.listed]
    by_cases eq : x = t
    · subst x
      rw [update_self]
      exact iff_of_false (fun both => both.1 rfl) fun both => other both.1
    rw [update_of_ne eq]
    exact and_iff_right eq
  case listedOnce =>
    intro k
    change (update s.activeTimers (client t) ((s.activeTimers (client t)).erase t) k).Nodup
    by_cases key : k = client t
    · subst k
      rw [update_self]
      exact (kept.listedOnce _).erase t
    rw [update_of_ne key]
    exact kept.listedOnce k
  case held =>
    intro x
    change Active s.set x ∨ x ∈ s.set.expired ↔ update s.state t next x = .armed ∧ _
    by_cases eq : x = t
    · subst x
      rw [update_self]
      exact iff_of_false (not_or.mpr out) fun both => other both.1
    · rw [update_of_ne eq,kept.held,same x eq]
  case times =>
    intro x armed
    change update s.state t next x = .armed at armed
    by_cases eq : x = t
    · subst x
      rw [update_self] at armed
      exact absurd armed other
    rw [update_of_ne eq] at armed
    exact kept.times x armed
  intro x old
  change update s.state t next x = .expired ∨ x ∈ s.set.expired at old
  change s.time x ≤ s.set.last
  by_cases eq : x = t
  · subst x
    rw [update_self] at old
    exact old.elim due fun inside => absurd inside out.2
  rw [update_of_ne eq] at old
  exact kept.due x old

lemma Kept.arm (kept : Kept client absent s) (free : s.state t ≠ .armed) (high : time ≤ maxTimestamp) :
    Kept client (fun x => absent x ∨ x = t)
      {pushActive client s t with time := update s.time t time} := by
  have out := kept.out (.inr free)
  constructor
  case filed =>
    refine kept.filed.congr fun i x inside => update_of_ne ?_ _ _
    rintro rfl
    exact out.1 (kept.filed.active.mpr ⟨i,inside⟩)
  case listed =>
    intro k x
    change x ∈ update s.activeTimers (client t) (s.activeTimers (client t) ++ [t]) k ↔
      update s.state t .armed x = .armed ∧ client x = k
    have list : x ∈ update s.activeTimers (client t) (s.activeTimers (client t) ++ [t]) k ↔
        x ∈ s.activeTimers k ∨ x = t ∧ client t = k := by
      by_cases key : k = client t
      · subst k
        simp
      rw [update_of_ne key]
      exact ⟨.inl,Or.rec id fun both => absurd both.2.symm key⟩
    rw [list,kept.listed]
    by_cases eq : x = t
    · subst x
      simp [free]
    rw [update_of_ne eq]
    simp [eq]
  case listedOnce =>
    intro k
    change (update s.activeTimers (client t) (s.activeTimers (client t) ++ [t]) k).Nodup
    by_cases key : k = client t
    · subst k
      rw [update_self]
      refine (kept.listedOnce _).append (nodup_singleton t) fun x inside single => free ?_
      exact ((kept.listed _ _).mp (mem_singleton.mp single ▸ inside)).1
    rw [update_of_ne key]
    exact kept.listedOnce k
  case held =>
    intro x
    change Active s.set x ∨ x ∈ s.set.expired ↔ update s.state t .armed x = .armed ∧ _
    by_cases eq : x = t
    · subst x
      exact iff_of_false (not_or.mpr out) fun both => both.2 (.inr rfl)
    rw [update_of_ne eq,kept.held]
    simp only [eq,or_false]
  case times =>
    intro x armed
    change update s.time t time x ≤ maxTimestamp
    change update s.state t .armed x = .armed at armed
    by_cases eq : x = t
    · subst x
      rw [update_self]
      exact high
    rw [update_of_ne eq] at armed ⊢
    exact kept.times x armed
  intro x old
  change update s.time t time x ≤ s.set.last
  change update s.state t .armed x = .expired ∨ x ∈ s.set.expired at old
  by_cases eq : x = t
  · subst x
    rw [update_self] at old
    exact old.elim TimerState.noConfusion fun inside => absurd inside out.2
  rw [update_of_ne eq] at old ⊢
  exact kept.due x old

lemma Kept.retime (kept : Kept client absent s) (armed : s.state t = .armed)
    (gone : absent t) (high : time ≤ maxTimestamp) :
    Kept client absent {s with time := update s.time t time} := by
  have out := kept.out (.inl gone)
  constructor
  case filed =>
    refine kept.filed.congr fun i x inside => update_of_ne ?_ _ _
    rintro rfl
    exact out.1 (kept.filed.active.mpr ⟨i,inside⟩)
  case listed => exact kept.listed
  case listedOnce => exact kept.listedOnce
  case held => exact kept.held
  case times =>
    intro x here
    change update s.time t time x ≤ maxTimestamp
    by_cases eq : x = t
    · subst x
      rw [update_self]
      exact high
    rw [update_of_ne eq]
    exact kept.times x here
  intro x old
  change update s.time t time x ≤ s.set.last
  by_cases eq : x = t
  · subst x
    refine old.elim (fun wrong => ?_) fun inside => absurd inside out.2
    exact TimerState.noConfusion (armed.symm.trans wrong)
  rw [update_of_ne eq]
  exact kept.due x old

structure Traced (s s' : State K T) (act : Act K T) : Prop where
  fires : ∀ t, s'.state t = .expired → s.state t ≠ .expired → s.state t = .armed ∧ s.time t ≤ s.set.last
  stays : ∀ t, s.state t = .free → s'.state t ≠ .free → ∃ time, act = .set t time ∨ act = .reset t time
  cancels : ∀ t, act = .cancel t → s'.state t = .free

lemma Traced.same (state : s'.state = s.state) (other : ∀ t, act ≠ .cancel t) : Traced s s' act := by
  refine ⟨fun t now before => ?_,fun t free now => ?_,fun t cancels => absurd cancels (other t)⟩
  · rw [state] at now
    exact absurd now before
  rw [state] at now
  exact absurd free now

lemma Traced.update {next : TimerState}
    (state : s'.state = update s.state t next)
    (fires : next = .expired → s.state t = .armed ∧ s.time t ≤ s.set.last)
    (stays : s.state t = .free → next ≠ .free → ∃ time, act = .set t time ∨ act = .reset t time)
    (cancels : ∀ x, act = .cancel x → x = t ∧ next = .free) : Traced s s' act := by
  refine ⟨fun x now before => ?_,fun x free now => ?_,fun x same => ?_⟩
  · rw [state] at now
    by_cases eq : x = t
    · subst x
      rw [update_self] at now
      exact fires now
    rw [update_of_ne eq] at now
    exact absurd now before
  · rw [state] at now
    by_cases eq : x = t
    · subst x
      rw [update_self] at now
      exact stays free now
    rw [update_of_ne eq] at now
    exact absurd free now
  obtain ⟨rfl,free⟩ := cancels x same
  rw [state,update_self,free]

lemma Inv.enlist (kept : Kept client (fun x => Suspended client s x ∨ x = t) s) (programmed : Programmed s)
    (armed : s.state t = .armed) (here : s.timersNeedReload (client t) = false) : Inv client (enlist s t) := by
  have each : ∀ x ∈ [t], x = t := fun x single => mem_singleton.mp single
  have allArmed : ∀ x ∈ [t], s.state x = .armed := fun x single => each x single ▸ armed
  have allGone : ∀ x ∈ [t], Suspended client s x ∨ x = t := fun x single => .inr (each x single)
  rw [enlistSingle]
  refine ⟨?_,programmed.enlistAll kept (nodup_singleton t) allArmed allGone⟩
  refine (kept.enlistAll (nodup_singleton t) allArmed allGone).iff fun x _ => ?_
  unfold Suspended
  rw [(enlistAllFrame [t]).2,mem_singleton]
  constructor
  · rintro ⟨reload | same,other⟩
    · exact reload
    · exact absurd same other
  intro reload
  refine ⟨.inl reload,?_⟩
  rintro rfl
  rw [here] at reload
  exact absurd reload (by decide)

lemma Inv.arm (inv : Inv client s) (free : s.state t ≠ .armed)
    (here : s.timersNeedReload (client t) = false) (high : time ≤ maxTimestamp) :
    Inv client (setTimer client s t time) := by
  have programmed := inv.programmed
  refine Inv.enlist (inv.kept.arm free high) ?_ (update_self ..) here
  exact ⟨programmed.event,programmed.top,programmed.idle,programmed.busy⟩

lemma armState (s : State K T) (t : T) (time : Int) : (setTimer client s t time).state = update s.state t .armed :=
  (enlistAllFrame [t]).1

lemma resetFree (free : s.state t ≠ .armed) : reset client s t time = setTimer client s t time := by
  unfold reset setTimer
  rw [if_neg free]

lemma resetArmed (armed : s.state t = .armed) : reset client s t time =
    TimerList.enlist {s with set := [t].foldl (TimerSet.remove s.time) s.set, time := update s.time t time} t := by
  unfold reset
  rw [if_pos armed]
  rfl

lemma Inv.reset (inv : Inv client s) (quiet : s.firing = false)
    (here : s.timersNeedReload (client t) = false) (high : time ≤ maxTimestamp) :
    Inv client (reset client s t time) ∧ (reset client s t time).state = update s.state t .armed := by
  by_cases armed : s.state t = .armed
  · rw [resetArmed armed]
    have active : ∀ x ∈ [t], Active s.set x := fun x single =>
      mem_singleton.mp single ▸ inv.active quiet armed here
    have kept := (inv.kept.removeAll (nodup_singleton t) active).iff
      fun x _ => or_congr_right (mem_singleton (a := x) (b := t))
    have programmed := inv.programmed.removeAll inv.kept (nodup_singleton t) active quiet
    refine ⟨Inv.enlist (kept.retime armed (.inr rfl) high) ?_ armed here,?_⟩
    · exact ⟨programmed.event,programmed.top,programmed.idle,programmed.busy⟩
    refine (enlistAllFrame [t]).1.trans ?_
    exact (update_eq_self_iff.mpr armed.symm).symm
  rw [resetFree armed]
  exact ⟨inv.arm armed here high,armState s t time⟩

lemma eraseActiveSelf (out : t ∉ s.activeTimers (client t)) : eraseActive client s t = s := by
  unfold eraseActive
  rw [erase_of_not_mem out,update_eq_self]

lemma Inv.cancel (inv : Inv client s) (quiet : s.firing = false)
    (here : s.state t = .armed → s.timersNeedReload (client t) = false) :
    Inv client (cancel client s t) ∧ (cancel client s t).state = update s.state t .free := by
  have programmed := inv.programmed
  unfold TimerList.cancel
  split
  next free => exact ⟨inv,(update_eq_self_iff.mpr free.symm).symm⟩
  dsimp only
  split
  next armed =>
    have active : ∀ x ∈ [t], Active s.set x := fun x single =>
      mem_singleton.mp single ▸ inv.active quiet armed (here armed)
    have kept := inv.kept.removeAll (nodup_singleton t) active
    have left := inv.programmed.removeAll inv.kept (nodup_singleton t) active quiet
    refine ⟨⟨?_,left.event,left.top,left.idle,left.busy⟩,rfl⟩
    refine kept.release (kept.out (.inl (.inr (.head _)))) (by decide) TimerState.noConfusion ?_
    intro x other
    exact or_iff_left fun single => other (mem_singleton.mp single)
  next free =>
    have out : t ∉ s.activeTimers (client t) := fun inside => free ((inv.kept.listed _ t).mp inside).1
    have kept := @Kept.release K T _ client _ s _ _ t .free inv.kept (inv.kept.out (.inr free)) (by decide)
      TimerState.noConfusion fun x _ => Iff.rfl
    rw [eraseActiveSelf out] at kept
    exact ⟨⟨kept,programmed.event,programmed.top,programmed.idle,programmed.busy⟩,rfl⟩

lemma Inv.suspend (inv : Inv client s) (quiet : s.firing = false) :
    ∃ s', suspend s k = some s' ∧ Inv client s' ∧ s'.state = s.state := by
  unfold TimerList.suspend
  split
  · exact ⟨s,rfl,inv,rfl⟩
  rename_i running
  have armed : ∀ t ∈ s.activeTimers k, s.state t = .armed := fun t inside => ((inv.kept.listed k t).mp inside).1
  have active : ∀ t ∈ s.activeTimers k, Active s.set t := by
    intro t inside
    obtain ⟨armed,owner⟩ := (inv.kept.listed k t).mp inside
    exact inv.active quiet armed (owner ▸ Bool.eq_false_of_not_eq_true running)
  rw [if_pos armed]
  have kept := inv.kept.removeAll (inv.kept.listedOnce k) active
  have left := inv.programmed.removeAll inv.kept (inv.kept.listedOnce k) active quiet
  refine ⟨_,rfl,⟨?_,left.event,left.top,left.idle,left.busy⟩,rfl⟩
  have moved := @Kept.iff K T client _ _ (fun t => update s.timersNeedReload k true (client t) = true)
    kept fun t armed => ?_
  · exact ⟨moved.filed,moved.listed,moved.listedOnce,moved.held,moved.times,moved.due⟩
  dsimp only at armed ⊢
  rw [inv.kept.listed]
  by_cases owner : client t = k
  · rw [owner,update_self]
    exact iff_of_true (.inr ⟨armed,rfl⟩) rfl
  rw [update_of_ne owner]
  exact or_iff_left fun both => owner both.2

lemma Inv.resume (inv : Inv client s) : ∃ s', resume s k = some s' ∧ Inv client s' ∧ s'.state = s.state := by
  unfold TimerList.resume
  split
  · exact ⟨s,rfl,inv,rfl⟩
  rename_i waiting
  have armed : ∀ t ∈ s.activeTimers k, s.state t = .armed := fun t inside => ((inv.kept.listed k t).mp inside).1
  have gone : ∀ t ∈ s.activeTimers k, Suspended client s t := by
    intro t inside
    unfold Suspended
    rw [((inv.kept.listed k t).mp inside).2]
    exact Bool.eq_true_of_not_eq_false waiting
  rw [if_pos armed]
  have kept := inv.kept
  have base : Kept client (Suspended client s)
      {s with timersNeedReload := update s.timersNeedReload k false} :=
    ⟨kept.filed,kept.listed,kept.listedOnce,kept.held,kept.times,kept.due⟩
  have programmed : Programmed {s with timersNeedReload := update s.timersNeedReload k false} :=
    ⟨inv.programmed.event,inv.programmed.top,inv.programmed.idle,inv.programmed.busy⟩
  refine ⟨_,rfl,⟨?_,programmed.enlistAll base (kept.listedOnce k) armed gone⟩,(enlistAllFrame _).1⟩
  refine (base.enlistAll (kept.listedOnce k) armed gone).iff fun t here => ?_
  rw [(enlistAllFrame _).1] at here
  unfold Suspended
  rw [(enlistAllFrame _).2,kept.listed]
  dsimp only at here ⊢
  by_cases owner : client t = k
  · rw [owner,update_self]
    exact iff_of_false (fun both => both.2 ⟨here,rfl⟩) (by decide)
  rw [update_of_ne owner]
  exact and_iff_left fun both => owner both.2

lemma Kept.popped {rest : List T} (kept : Kept client absent s) (list : s.set.expired = t::rest) :
    Kept client (fun x => absent x ∨ x = t) {s with set := {s.set with expired := rest}} := by
  have inside : t ∈ s.set.expired := list ▸ (.head _)
  have later : ∀ x ∈ rest, x ∈ s.set.expired := fun x here => list ▸ mem_cons_of_mem t here
  have once := kept.filed.expiredOnce
  rw [list] at once
  constructor
  case filed =>
    exact {kept.filed with
      expiredOnce := (nodup_cons.mp once).2
      apart := fun i x bucket here => kept.filed.apart i x bucket (later x here)}
  case listed => exact kept.listed
  case listedOnce => exact kept.listedOnce
  case held =>
    intro x
    change Active s.set x ∨ x ∈ rest ↔ _
    by_cases eq : x = t
    · subst x
      refine iff_of_false (not_or.mpr ⟨?_,(nodup_cons.mp once).1⟩) fun both => both.2 (.inr rfl)
      rintro ⟨i,-,bucket⟩
      exact kept.filed.apart i t bucket inside
    have held := kept.held x
    rw [list,mem_cons,or_iff_right eq] at held
    simpa only [eq,or_false] using held
  case times => exact kept.times
  case due => exact fun x old => kept.due x (old.imp_right (later x))

lemma Inv.expire (inv : Inv client s) (firing : s.firing = true) (nonempty : s.set.expired ≠ []) :
    ∃ s' t, expire client s = some s' ∧ Inv client s' ∧ s.state t = .armed ∧ s.time t ≤ s.set.last ∧
      s'.state = update s.state t .expired := by
  obtain ⟨t,rest,list⟩ := exists_cons_of_ne_nil nonempty
  have inside : t ∈ s.set.expired := list ▸ (.head _)
  have armed := ((inv.kept.held t).mp (.inr inside)).1
  have due := inv.kept.due t (.inr inside)
  have kept := inv.kept.popped list
  refine ⟨eraseActive client
    {s with set := {s.set with expired := rest}, state := update s.state t .expired} t,t,?_,⟨?_,?_⟩,armed,due,rfl⟩
  · unfold TimerList.expire TimerSet.popExpired
    rw [list]
    exact if_pos armed
  · refine kept.release (kept.out (.inl (.inr rfl))) (by decide) (fun _ => due) fun x other => ?_
    exact or_iff_left other
  exact ⟨inv.programmed.event,inv.programmed.top,fun quiet => Bool.noConfusion (firing.symm.trans quiet),
    inv.programmed.busy⟩

lemma Inv.step (inv : Inv client s) (allowed : Allowed client s act) :
    ∃ s', step client s act = some s' ∧ Inv client s' ∧ Traced s s' act := by
  cases act with
  | set t time =>
    obtain ⟨free,here,range⟩ := allowed
    exact ⟨_,rfl,inv.arm free here range.2,.update (armState s t time) nofun (fun _ _ => ⟨time,.inl rfl⟩) nofun⟩
  | cancel t =>
    obtain ⟨inv',state⟩ := inv.cancel allowed.1 allowed.2
    refine ⟨_,rfl,inv',.update state nofun (fun _ other => absurd rfl other) fun x same => ?_⟩
    cases same
    exact ⟨rfl,rfl⟩
  | reset t time =>
    obtain ⟨quiet,here,range⟩ := allowed
    obtain ⟨inv',state⟩ := inv.reset quiet here range.2
    exact ⟨_,rfl,inv',.update state nofun (fun _ _ => ⟨time,.inr rfl⟩) nofun⟩
  | suspend k =>
    obtain ⟨s',run,inv',state⟩ := inv.suspend allowed
    exact ⟨s',run,inv',.same state nofun⟩
  | resume k =>
    obtain ⟨s',run,inv',state⟩ := inv.resume
    exact ⟨s',run,inv',.same state nofun⟩
  | fired now =>
    obtain ⟨-,order,range⟩ := allowed
    have kept := inv.kept
    have unset : Kept client (Suspended client s) {s with event := none} :=
      ⟨kept.filed,kept.listed,kept.listedOnce,kept.held,kept.times,kept.due⟩
    obtain ⟨s',run,inv',state⟩ := @Kept.again K T client {s with event := none} now unset (Int.le_refl _) order range
    exact ⟨s',run,inv',.same state nofun⟩
  | expire =>
    obtain ⟨s',t,run,inv',armed,due,state⟩ := inv.expire allowed.1 allowed.2
    refine ⟨s',run,inv',.update state (fun _ => ⟨armed,due⟩) (fun free _ => ?_) nofun⟩
    exact TimerState.noConfusion (armed.symm.trans free)
  | finish now =>
    obtain ⟨firing,done,order,range⟩ := allowed
    obtain ⟨s',run,inv',state⟩ := inv.finish firing done order range
    exact ⟨s',run,inv',.same state nofun⟩

/-- No timer yet, and no event. -/
structure Start (s : State K T) : Prop where
  set : s.set = TimerSet.make
  last : s.last = maxTimestamp
  event : s.event = none
  firing : s.firing = false
  state : ∀ t, s.state t = .free
  activeTimers : ∀ k, s.activeTimers k = []

def Reachable (client : T → K) : State K T → Prop := Runs.Reach (step client) (Allowed client) Start

lemma Start.inv (start : Start s) : Inv client s := by
  have none : ∀ t, ¬Active s.set t ∧ t ∉ s.set.expired := by
    intro t
    rw [start.set]
    exact ⟨fun ⟨_,_,inside⟩ => not_mem_nil inside,not_mem_nil⟩
  have free : ∀ t, s.state t ≠ .armed := by
    intro t
    rw [start.state t]
    decide
  refine ⟨⟨?_,fun k t => ?_,fun k => ?_,fun t => ?_,fun t armed => absurd armed (free t),fun t old => ?_⟩,
    ?_,Int.le_of_eq start.last,fun _ => ?_,fun busy => Bool.noConfusion (start.firing.symm.trans busy)⟩
  · rw [start.set]
    exact TimerSet.makeFiled
  · rw [start.activeTimers]
    exact iff_of_false not_mem_nil fun both => free t both.1
  · rw [start.activeTimers]
    exact nodup_nil
  · exact iff_of_false (not_or.mpr (none t)) fun both => free t both.1
  · rw [start.state t] at old
    exact old.elim TimerState.noConfusion fun inside => absurd inside (none t).2
  · rw [start.event,start.last]
    exact Int.le_refl _
  rw [start.set,start.last]
  exact ⟨rfl,Int.le_max_right ..⟩

/-- What holds of the timers and the event in every state. -/
structure Sound (client : T → K) (s : State K T) : Prop where
  event : s.firing = false → ∀ t, Active s.set t → armedFor s.event ≤ max (s.time t) s.set.last
  listed : ∀ k t, t ∈ s.activeTimers k ↔ s.state t = .armed ∧ client t = k
  due : ∀ t, s.state t = .expired → s.time t ≤ s.set.last
  silent : ∀ t, s.state t ≠ .armed → ¬Active s.set t ∧ t ∉ s.set.expired

lemma Inv.sound (inv : Inv client s) : Sound client s where
  event := by
    rintro quiet t ⟨i,-,inside⟩
    have low := inv.kept.filed.nextLow i t inside
    have last := (inv.programmed.idle quiet).2
    have event := inv.programmed.event
    unfold getNextTimeout at last
    omega
  listed := inv.kept.listed
  due t old := inv.kept.due t (.inl old)
  silent t free := inv.kept.out (.inr free)

theorem timersArmed (reach : Reachable client s) :
    Sound client s ∧ ∀ act, Allowed client s act → ∃ s', step client s act = some s' ∧ Traced s s' act := by
  have inv : Inv client s := by
    refine @Runs.invariant _ _ _ _ _ (Inv client) (fun s start => Start.inv start) ?_ s reach
    intro s act s' inv allowed taken
    obtain ⟨next,run,inv',-⟩ := inv.step allowed
    rw [taken] at run
    exact Option.some.inj run ▸ inv'
  refine ⟨inv.sound,fun act allowed => ?_⟩
  obtain ⟨s',run,-,traced⟩ := inv.step allowed
  exact ⟨s',run,traced⟩

end

def owner (t : Fin 3) : Fin 2 := if t = 2 then 1 else 0

instance (s : State (Fin 2) (Fin 3)) (act : Act (Fin 2) (Fin 3)) : Decidable (Allowed owner s act) := by
  cases act <;> unfold Allowed <;> infer_instance

def blank : State (Fin 2) (Fin 3) :=
  ⟨TimerSet.make,maxTimestamp,none,false,fun _ => .free,fun _ => 0,fun _ => [],fun _ => false⟩

def staleRun : List (Act (Fin 2) (Fin 3)) :=
  [.set 0 10,.set 1 20,.set 2 30,.cancel 0,.suspend 0,.fired 12,.finish 12,.resume 0]

lemma staleReachable : Reachable owner (Runs.final (step owner) (Allowed owner) blank staleRun) :=
  Runs.reachFinal staleRun (⟨rfl,rfl,rfl,rfl,fun _ => rfl,fun _ => rfl⟩ : Start blank) rfl

set_option maxRecDepth 20000

theorem timersArmedStale :
    let s := Runs.final (step owner) (Allowed owner) blank staleRun
    s.event = some 20 ∧ armedFor s.event ≤ max (s.time 1) s.set.last ∧
      ∃ s', step owner s (.fired 25) = some s' ∧ Traced s s' (.fired 25) := by
  obtain ⟨sound,calls⟩ := timersArmed staleReachable
  exact ⟨by decide,sound.event (by decide) 1 (by decide),calls (.fired 25) (by decide)⟩

end OsvKernel.TimerList
