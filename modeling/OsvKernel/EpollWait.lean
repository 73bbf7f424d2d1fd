import OsvKernel.EpollReg

/-! Activity of one epoll file: wake, wake_in_rcu and the threads in wait. A critical section under
_activity_lock or f_lock is one step, and so are the push to the ring and the wake() of the ring's owner that
follows it. The wait queue is taken at its contract. pending records the keys that were woken and have since
neither been reported nor been found inactive. -/
namespace OsvKernel.EpollWait
open List Option Runs
open EpollReg (Key Event processActivity Registered)

structure Request where
  blocking : Bool
  maxevents : Nat
  expired : Bool
  deriving DecidableEq

inductive Thread (F : Type)
  | outside
  /-- Asleep in wait_for. -/
  | asleep (r : Request)
  /-- Made runnable there; queued: by wake_all, so that it need not look at the other conditions. -/
  | woken (r : Request) (queued : Bool)
  /-- The lock is dropped and keys have been moved out. -/
  | processing (r : Request) (keys : List (Key F))
  /-- After process_activity, before the lock is taken again. -/
  | back (r : Request) (keys : List (Key F)) (nr : Nat)
  deriving DecidableEq

structure State (F T : Type) where
  reg : EpollReg.State F
  ring : List (Key F)
  activity : List (Key F)
  overflow : Bool
  owner : Option T
  threads : T → Thread F
  calls : Nat
  pending : List (Key F)

section
variable {F T : Type}

def ringSize : Nat := 512

def Thread.wake : Thread F → Thread F
  | .asleep r => .woken r true
  | .woken r _ => .woken r true
  | thread => thread

def Thread.keys : Thread F → List (Key F)
  | .processing _ keys => keys
  | .back _ keys _ => keys
  | _ => []

def wakeAll (s : State F T) : State F T := { s with threads := fun t => (s.threads t).wake }

variable [DecidableEq F] [DecidableEq T]

def flushActivityRing (e : F) (s : State F T) : State F T :=
  let s := { s with activity := s.ring ∪ s.activity, ring := [] }
  let s := if s.overflow then { s with overflow := false, activity := (s.reg.maps e).map Prod.fst ∪ s.activity } else s
  wakeAll s

def setThread (s : State F T) (t : T) (thread : Thread F) : State F T :=
  { s with threads := Function.update s.threads t thread }

def take (e : F) (s : State F T) (t : T) (r : Request) : State F T :=
  let s := flushActivityRing e s
  setThread { s with activity := [] } t (.processing r s.activity)

def ready (s : State F T) (r : Request) : Bool := r.expired || !s.activity.isEmpty || !s.ring.isEmpty || s.overflow

def waitLoop (e : F) (s : State F T) (t : T) (r : Request) : State F T :=
  if r.blocking then
    if ready s r then take e { s with owner := none } t r else setThread { s with owner := some t } t (.asleep r)
  else take e s t r

def resume (e : F) (s : State F T) (t : T) : Option (State F T) :=
  match s.threads t with
  | .woken r queued =>
    if queued || ready s r then some (take e { s with owner := none } t r) else some (setThread s t (.asleep r))
  | _ => none

def process (e : F) (s : State F T) (t : T) (poll : F → UInt32 → UInt32) : Option (State F T) :=
  match s.threads t with
  | .processing r keys =>
    let k := processActivity poll e r.maxevents keys 0 s.reg
    some (setThread { s with reg := k.state, pending := s.pending.filter (· ∉ k.looked) } t
      (.back r k.activity k.events.length))
  | _ => none

def moveBack (s : State F T) (keys : List (Key F)) : State F T :=
  { s with activity := if s.activity.isEmpty then keys else keys ∪ s.activity }

def finish (e : F) (s : State F T) (t : T) : Option (State F T) :=
  match s.threads t with
  | .back r keys nr =>
    let s := moveBack s keys
    if r.blocking ∧ ¬r.expired ∧ nr = 0 then some (waitLoop e s t r) else some (setThread s t .outside)
  | _ => none

def Thread.fire : Thread F → Option (Thread F)
  | .asleep r => if r.blocking then some (.woken { r with expired := true } false) else none
  | .woken r queued => if r.blocking then some (.woken { r with expired := true } queued) else none
  | .processing r keys => if r.blocking then some (.processing { r with expired := true } keys) else none
  | .back r keys nr => if r.blocking then some (.back { r with expired := true } keys nr) else none
  | .outside => none

def expire (s : State F T) (t : T) : Option (State F T) := (s.threads t).fire.map (setThread s t)

def wakeOwner (s : State F T) : Option (State F T) :=
  if s.calls = 0 then none
  else
    let s := { s with calls := s.calls - 1 }
    match s.owner with
    | none => some s
    | some u =>
      match s.threads u with
      | .asleep r => some (setThread s u (.woken r false))
      | _ => some s

inductive Action (F T : Type)
  /-- wake where the push succeeds. -/
  | push (key : Key F)
  /-- wake after a push that failed. -/
  | insert (key : Key F)
  | wakeInRcu (key : Key F)
  | wakeOwner
  | wait (t : T) (blocking : Bool) (maxevents : Nat)
  | expire (t : T)
  | run (t : T)
  | process (t : T) (poll : F → UInt32 → UInt32)
  | finish (t : T)

def step (e : F) (s : State F T) : Action F T → Option (State F T)
  | .push key =>
    if s.ring.length < ringSize then
      some { s with ring := s.ring ++ [key], calls := s.calls + 1, pending := key::s.pending }
    else none
  | .insert key =>
    let s := { s with pending := key::s.pending }
    if key ∈ s.activity then some s else some (wakeAll { s with activity := key::s.activity })
  | .wakeInRcu key =>
    let s := { s with calls := s.calls + 1, pending := key::s.pending }
    if s.ring.length < ringSize then some { s with ring := s.ring ++ [key] } else some { s with overflow := true }
  | .wakeOwner => wakeOwner s
  | .wait t blocking maxevents =>
    if s.threads t = .outside ∧ 0 < maxevents then some (waitLoop e s t ⟨blocking,maxevents,false⟩) else none
  | .expire t => expire s t
  | .run t => resume e s t
  | .process t poll => process e s t poll
  | .finish t => finish e s t

/-- Any registrations, no activity and nobody in wait. -/
def Start (s : State F T) : Prop :=
  s.ring = [] ∧ s.activity = [] ∧ s.overflow = false ∧ s.owner = none ∧ (∀ t, s.threads t = .outside) ∧ s.calls = 0 ∧
    s.pending = []

/-! Nothing woken is forgotten. -/

def Held (s : State F T) (key : Key F) : Prop :=
  key ∈ s.ring ∨ key ∈ s.activity ∨ s.overflow = true ∨ ∃ t, key ∈ (s.threads t).keys

def Kept (e : F) (s : State F T) : Prop := ∀ key ∈ s.pending, Registered s.reg e key → Held s key

def HeldElse (t : T) (s : State F T) (key : Key F) : Prop :=
  key ∈ s.ring ∨ key ∈ s.activity ∨ s.overflow = true ∨ ∃ u, u ≠ t ∧ key ∈ (s.threads u).keys

variable {s u : State F T} {e : F} {t : T} {key : Key F} {r : Request}

lemma setThreads (s : State F T) (t : T) (thread : Thread F) (v : T) :
    (setThread s t thread).threads v = if v = t then thread else s.threads v :=
  Function.update_apply s.threads t thread v

lemma keysWake (thread : Thread F) : thread.wake.keys = thread.keys := by
  cases thread <;> rfl

lemma HeldElse.set (held : HeldElse t s key) (thread : Thread F) : Held (setThread s t thread) key := by
  refine Or.imp_right (.imp_right (.imp_right ?_)) held
  rintro ⟨v,apart,other⟩
  refine ⟨v,?_⟩
  rwa [setThreads,if_neg apart]

lemma flushed (e : F) (s : State F T) (key : Key F) : key ∈ (flushActivityRing e s).activity ↔
      key ∈ s.ring ∨ key ∈ s.activity ∨ s.overflow = true ∧ Registered s.reg e key := by
  dsimp only [flushActivityRing]
  split
  next overflown =>
    simp only [wakeAll,mem_union_iff,overflown,true_and,Registered]
    tauto
  next none => simp only [wakeAll,mem_union_iff,none,Bool.false_eq_true,false_and,or_false]

lemma takeThreads (e : F) (s : State F T) (t : T) (r : Request) (v : T) : (take e s t r).threads v =
      if v = t then .processing r (flushActivityRing e s).activity else (s.threads v).wake := by
  have flush : (flushActivityRing e s).threads = fun v => (s.threads v).wake := by
    dsimp only [flushActivityRing]
    split <;> rfl
  rw [take,setThreads]
  dsimp only
  rw [flush]

lemma HeldElse.take (held : HeldElse t s key) (registered : Registered s.reg e key) : Held (take e s t r) key := by
  have mine : key ∈ (flushActivityRing e s).activity → Held (EpollWait.take e s t r) key := by
    intro mem
    refine .inr (.inr (.inr ⟨t,?_⟩))
    rwa [takeThreads,if_pos rfl]
  rcases held with ring | active | overflown | ⟨v,apart,other⟩
  · exact mine ((flushed e s key).mpr (.inl ring))
  · exact mine ((flushed e s key).mpr (.inr (.inl active)))
  · exact mine ((flushed e s key).mpr (.inr (.inr ⟨overflown,registered⟩)))
  refine .inr (.inr (.inr ⟨v,?_⟩))
  rwa [takeThreads,if_neg apart,keysWake]

lemma HeldElse.waitLoop (held : HeldElse t s key) (registered : Registered s.reg e key) : Held (waitLoop e s t r) key := by
  unfold EpollWait.waitLoop
  split
  · split
    · exact HeldElse.take (s := { s with owner := none }) held registered
    · exact HeldElse.set (s := { s with owner := some t }) held _
  · exact held.take registered

lemma Held.apart (held : Held s key) (none : (s.threads t).keys = []) : HeldElse t s key := by
  refine Or.imp_right (.imp_right (.imp_right ?_)) held
  rintro ⟨v,other⟩
  refine ⟨v,?_,other⟩
  rintro rfl
  rw [none] at other
  cases other

variable {thread new old : Thread F} {poll : F → UInt32 → UInt32} {a : Action F T}

lemma Held.set (held : Held s key) (same : (s.threads t).keys = thread.keys) : Held (setThread s t thread) key := by
  refine Or.imp_right (.imp_right (.imp_right ?_)) held
  rintro ⟨v,other⟩
  refine ⟨v,?_⟩
  rw [setThreads]
  split
  next here => rwa [← same,← here]
  · exact other

lemma takeReg (e : F) (s : State F T) (t : T) (r : Request) :
    (take e s t r).reg = s.reg ∧ (take e s t r).pending = s.pending := by
  unfold take flushActivityRing
  dsimp only
  split <;> exact ⟨rfl,rfl⟩

lemma waitLoopReg (e : F) (s : State F T) (t : T) (r : Request) :
    (waitLoop e s t r).reg = s.reg ∧ (waitLoop e s t r).pending = s.pending := by
  unfold waitLoop
  split
  · split
    · exact takeReg e _ t r
    · exact ⟨rfl,rfl⟩
  · exact takeReg e s t r

section
variable (kept : ∀ key ∈ s.pending, Registered s.reg e key → HeldElse t s key)
include kept

lemma Kept.waitLoop : Kept e (waitLoop e s t r) := by
  obtain ⟨reg,pending⟩ := waitLoopReg e s t r
  intro key mem registered
  rw [pending] at mem
  rw [reg] at registered
  exact (kept key mem registered).waitLoop registered

lemma Kept.take : Kept e (take e s t r) := by
  obtain ⟨reg,pending⟩ := takeReg e s t r
  intro key mem registered
  rw [pending] at mem
  rw [reg] at registered
  exact (kept key mem registered).take registered

end

lemma Kept.set (kept : Kept e s) (same : (s.threads t).keys = thread.keys) : Kept e (setThread s t thread) :=
  fun key mem registered => (kept key mem registered).set same

lemma Held.wakeAll (held : Held s key) : Held (wakeAll s) key := by
  refine Or.imp_right (.imp_right (.imp_right ?_)) held
  rintro ⟨v,other⟩
  exact ⟨v,by rwa [EpollWait.wakeAll,keysWake]⟩

lemma fireKeys (fires : old.fire = some new) : old.keys = new.keys := by
  cases old with
  | outside => cases fires
  | _ =>
    obtain ⟨_,eq⟩ := ite_none_right_eq_some.mp fires
    cases eq
    rfl

lemma Kept.expire (kept : Kept e s) (taken : expire s t = some u) : Kept e u := by
  obtain ⟨thread,fires,rfl⟩ := map_eq_some_iff.mp taken
  exact kept.set (fireKeys fires)

lemma Kept.resume (kept : Kept e s) (taken : resume e s t = some u) : Kept e u := by
  unfold EpollWait.resume at taken
  split at taken
  swap
  · cases taken
  rename_i r queued at_
  have none : (s.threads t).keys = [] := by rw [at_]; rfl
  split at taken
  · cases taken
    exact Kept.take (s := { s with owner := Option.none }) fun key mem registered =>
      (show Held { s with owner := Option.none } key from kept key mem registered).apart none
  cases taken
  exact kept.set none

lemma Kept.process (kept : Kept e s) (taken : process e s t poll = some u) : Kept e u := by
  unfold EpollWait.process at taken
  split at taken
  swap
  · cases taken
  rename_i r keys at_
  cases taken
  intro key mem registered
  obtain ⟨old,unseen⟩ := mem_filter.mp mem
  have unseen : key ∉ (processActivity poll e r.maxevents keys 0 s.reg).looked := by simpa using unseen
  have before := (EpollReg.processRegistered poll e r.maxevents keys 0 s.reg e key).mp registered
  refine Or.imp_right (.imp_right (.imp_right ?_)) (kept key old before)
  rintro ⟨v,other⟩
  refine ⟨v,?_⟩
  rw [setThreads]
  split
  next here =>
    rw [here,at_] at other
    exact (EpollReg.processSplits poll e r.maxevents keys 0 s.reg other).resolve_right unseen
  · exact other

lemma moveBackActivity (s : State F T) (keys : List (Key F)) (key : Key F) :
    key ∈ (moveBack s keys).activity ↔ key ∈ keys ∨ key ∈ s.activity := by
  dsimp only [moveBack]
  split
  next empty =>
    rw [List.isEmpty_iff.mp empty]
    simp
  · exact mem_union_iff

lemma Kept.finish (kept : Kept e s) (taken : finish e s t = some u) : Kept e u := by
  unfold EpollWait.finish at taken
  split at taken
  swap
  · cases taken
  rename_i r keys nr at_
  have moved : ∀ key ∈ (moveBack s keys).pending, Registered (moveBack s keys).reg e key →
    HeldElse t (moveBack s keys) key := by
    intro key mem registered
    rcases kept key mem registered with ring | active | overflown | ⟨v,other⟩
    · exact .inl ring
    · exact .inr (.inl ((moveBackActivity s keys key).mpr (.inr active)))
    · exact .inr (.inr (.inl overflown))
    by_cases here : v = t
    · rw [here,at_] at other
      exact .inr (.inl ((moveBackActivity s keys key).mpr (.inl other)))
    · exact .inr (.inr (.inr ⟨v,here,other⟩))
  dsimp only at taken
  split at taken
  · cases taken
    exact Kept.waitLoop moved
  cases taken
  exact fun key mem registered => (moved key mem registered).set _

lemma Kept.wakeOwner (kept : Kept e s) (taken : wakeOwner s = some u) : Kept e u := by
  obtain ⟨_,taken⟩ := ite_none_left_eq_some.mp taken
  dsimp only at taken
  split at taken
  · cases taken
    exact kept
  split at taken
  next at_ =>
    cases taken
    exact Kept.set (s := { s with calls := s.calls - 1 }) kept (by dsimp only at at_ ⊢; rw [at_]; rfl)
  cases taken
  exact kept

lemma Kept.step (kept : Kept e s) (taken : step e s a = some u) : Kept e u := by
  cases a <;> simp only [step] at taken
  case wakeOwner => exact kept.wakeOwner taken
  case expire => exact kept.expire taken
  case run => exact kept.resume taken
  case process => exact kept.process taken
  case finish => exact kept.finish taken
  all_goals split at taken <;> cases taken
  case push.isTrue | wakeInRcu.isTrue =>
    intro other mem registered
    rcases mem_cons.mp mem with rfl | old
    · exact .inl (mem_append_right _ (mem_singleton_self _))
    · exact (kept other old registered).imp (mem_append_left _) id
  case insert.isTrue there =>
    intro other mem registered
    rcases mem_cons.mp mem with rfl | old
    · exact .inr (.inl there)
    · exact kept other old registered
  case insert.isFalse key _ =>
    intro other mem registered
    apply Held.wakeAll
    rcases mem_cons.mp mem with rfl | old
    · exact .inr (.inl (.head _))
    · exact (kept other old registered).imp id (Or.imp (.tail key) id)
  case wakeInRcu.isFalse => exact fun _ _ _ => .inr (.inr (.inl rfl))
  case wait.isTrue t _ _ free =>
    have none : (s.threads t).keys = [] := by rw [free.1]; rfl
    exact Kept.waitLoop fun key mem registered => (kept key mem registered).apart none

/-! Nobody sleeps beside a key without being woken. -/

def Thread.IsAsleep : Thread F → Prop
  | .asleep _ => True
  | _ => False

def Thread.IsWoken : Thread F → Prop
  | .woken _ _ => True
  | _ => False

def Thread.IsQueued : Thread F → Prop
  | .asleep _ => True
  | .woken _ queued => queued = false
  | _ => False

def Waiting (s : State F T) : Prop := s.ring ≠ [] ∨ s.activity ≠ [] ∨ s.overflow = true

structure Watched (s : State F T) : Prop where
  owned : ∀ t, (s.threads t).IsQueued → ∃ v, s.owner = some v ∧ ((s.threads v).IsAsleep ∨ (s.threads v).IsWoken)
  announced : Waiting s → ∀ t, (s.threads t).IsAsleep → 0 < s.calls ∨ ∃ v, (s.threads v).IsWoken

/-- Keys are put back beside a sleeping thread only if another one is awake for them. -/
def ok (s : State F T) : Action F T → Prop
  | .finish t => (s.threads t).keys ≠ [] → ∀ v, (s.threads v).IsAsleep → ∃ w, (s.threads w).IsWoken
  | _ => True

lemma wakeQueued (thread : Thread F) : ¬thread.wake.IsQueued := by
  cases thread <;> simp [Thread.wake,Thread.IsQueued]

lemma queuedAsleep (asleep : thread.IsAsleep) : thread.IsQueued := by
  cases thread <;> trivial

lemma watchedQuiet (none : ∀ t, ¬(s.threads t).IsQueued) : Watched s :=
  ⟨fun t queued => absurd queued (none t),fun _ t asleep => absurd (queuedAsleep asleep) (none t)⟩

lemma watchedTake (e : F) (s : State F T) (t : T) (r : Request) : Watched (take e s t r) := by
  refine watchedQuiet fun v queued => ?_
  rw [takeThreads] at queued
  split at queued
  · exact queued
  · exact wakeQueued _ queued

lemma readyWaiting (none : ready s r = false) : ¬Waiting s := by
  simp only [ready,Bool.or_eq_false_iff,Bool.not_eq_false',List.isEmpty_iff] at none
  obtain ⟨⟨⟨_,activity⟩,ring⟩,overflow⟩ := none
  rintro (h | h | h)
  · exact h ring
  · exact h activity
  · cases overflow.symm.trans h

lemma watchedLoop (e : F) (s : State F T) (t : T) (r : Request) : Watched (waitLoop e s t r) := by
  unfold waitLoop
  split
  swap
  · exact watchedTake e s t r
  split
  · exact watchedTake e _ t r
  rename_i none
  refine ⟨fun v _ => ⟨t,rfl,.inl ?_⟩,fun waiting => absurd waiting ?_⟩
  · rw [setThreads,if_pos rfl]
    trivial
  · exact readyWaiting (s := { s with owner := some t }) (Bool.eq_false_iff.mpr none)

structure Rouses (old new : Thread F) : Prop where
  queued : new.IsQueued → old.IsQueued
  inside : old.IsAsleep ∨ old.IsWoken → new.IsAsleep ∨ new.IsWoken
  asleep : new.IsAsleep → old.IsAsleep
  woken : old.IsWoken → new.IsWoken

lemma Watched.set (watched : Watched s) (rouses : Rouses (s.threads t) thread) : Watched (setThread s t thread) := by
  have queued : ∀ v, ((setThread s t thread).threads v).IsQueued → (s.threads v).IsQueued := by
    intro v queued
    rw [setThreads] at queued
    split at queued
    next here => exact here ▸ rouses.queued queued
    · exact queued
  have asleep : ∀ v, ((setThread s t thread).threads v).IsAsleep → (s.threads v).IsAsleep := by
    intro v asleep
    rw [setThreads] at asleep
    split at asleep
    next here => exact here ▸ rouses.asleep asleep
    · exact asleep
  refine ⟨fun v on => ?_,fun waiting v sleeps => ?_⟩
  · obtain ⟨w,owner,inside⟩ := watched.owned v (queued v on)
    refine ⟨w,owner,?_⟩
    rw [setThreads]
    split
    next here => exact rouses.inside (here ▸ inside)
    · exact inside
  refine (watched.announced waiting v (asleep v sleeps)).imp id ?_
  rintro ⟨w,woken⟩
  refine ⟨w,?_⟩
  rw [setThreads]
  split
  next here => exact rouses.woken (here ▸ woken)
  · exact woken

lemma fireRouses (fires : old.fire = some new) : Rouses old new := by
  cases old
  case outside => cases fires
  all_goals
    obtain ⟨_,eq⟩ := ite_none_right_eq_some.mp fires
    cases eq
  case asleep => exact ⟨fun _ => trivial,fun _ => .inr trivial,nofun,nofun⟩
  case woken => exact ⟨id,fun _ => .inr trivial,nofun,id⟩
  all_goals exact ⟨id,id,id,id⟩

lemma Watched.expire (watched : Watched s) (taken : expire s t = some u) : Watched u := by
  obtain ⟨thread,fires,rfl⟩ := map_eq_some_iff.mp taken
  exact watched.set (fireRouses fires)

lemma Watched.resume (watched : Watched s) (taken : resume e s t = some u) : Watched u := by
  unfold EpollWait.resume at taken
  split at taken
  swap
  · cases taken
  rename_i r queued at_
  split at taken
  · cases taken
    exact watchedTake e _ t r
  rename_i none
  cases taken
  rw [Bool.or_eq_true,not_or,Bool.not_eq_true,Bool.not_eq_true] at none
  have self : (s.threads t).IsQueued := by
    rw [at_]
    exact none.1
  refine ⟨fun v _ => ?_,fun waiting => absurd waiting (readyWaiting none.2)⟩
  obtain ⟨w,owner,inside⟩ := watched.owned t self
  refine ⟨w,owner,?_⟩
  rw [setThreads]
  split
  · exact .inl trivial
  · exact inside

lemma Watched.process (watched : Watched s) (taken : process e s t poll = some u) : Watched u := by
  unfold EpollWait.process at taken
  split at taken
  swap
  · cases taken
  rename_i r keys at_
  cases taken
  have same : ∀ reg pending, Watched { s with reg := reg, pending := pending } :=
    fun _ _ => ⟨watched.owned,watched.announced⟩
  refine (same _ _).set ?_
  dsimp only
  rw [at_]
  exact ⟨id,id,id,id⟩

lemma Watched.finish (watched : Watched s) (allowed : ok s (.finish t)) (taken : finish e s t = some u) : Watched u := by
  unfold EpollWait.finish at taken
  split at taken
  swap
  · cases taken
  rename_i r keys nr at_
  dsimp only at taken
  split at taken
  · cases taken
    exact watchedLoop e _ t r
  cases taken
  have moved : Watched (moveBack s keys) := by
    refine ⟨watched.owned,fun waiting v asleep => ?_⟩
    by_cases none : keys = []
    · refine watched.announced ?_ v asleep
      refine waiting.imp id (Or.imp (fun active empty => active ?_) id)
      simp [moveBack,none,empty]
    · exact .inr (allowed (by rw [at_]; exact none) v asleep)
  refine moved.set ?_
  rw [show (moveBack s keys).threads = s.threads from rfl,at_]
  exact ⟨id,id,id,id⟩

lemma watchedAwake {v : T} (owner : s.owner = some v) (woken : (s.threads v).IsWoken) : Watched s :=
  ⟨fun _ _ => ⟨v,owner,.inr woken⟩,fun _ _ _ => .inr ⟨v,woken⟩⟩

lemma Watched.wakeOwner (watched : Watched s) (taken : wakeOwner s = some u) : Watched u := by
  obtain ⟨_,taken⟩ := ite_none_left_eq_some.mp taken
  dsimp only at taken
  split at taken
  next none =>
    cases taken
    refine watchedQuiet fun v queued => ?_
    obtain ⟨w,owner,_⟩ := watched.owned v queued
    cases none.symm.trans owner
  rename_i v owner
  split at taken
  · cases taken
    refine watchedAwake owner ?_
    rw [setThreads,if_pos rfl]
    trivial
  rename_i awake
  cases taken
  by_cases somebody : ∃ t, (s.threads t).IsQueued
  swap
  · exact watchedQuiet fun t queued => somebody ⟨t,queued⟩
  obtain ⟨t,queued⟩ := somebody
  obtain ⟨w,also,inside⟩ := watched.owned t queued
  cases owner.symm.trans also
  refine watchedAwake owner (inside.resolve_left fun asleep => ?_)
  cases eq : s.threads v with
  | asleep r => exact awake r eq
  | _ =>
    rw [eq] at asleep
    exact asleep.elim

lemma Watched.step (watched : Watched s) (allowed : ok s a) (taken : step e s a = some u) : Watched u := by
  cases a <;> simp only [step] at taken
  case wakeOwner => exact watched.wakeOwner taken
  case expire => exact watched.expire taken
  case run => exact watched.resume taken
  case process => exact watched.process taken
  case finish => exact watched.finish allowed taken
  all_goals split at taken <;> cases taken
  case insert.isTrue => exact ⟨watched.owned,watched.announced⟩
  case insert.isFalse => exact watchedQuiet fun v => wakeQueued _
  case wait.isTrue t _ _ _ => exact watchedLoop e s t _
  all_goals exact ⟨watched.owned,fun _ _ _ => .inl (Nat.succ_pos _)⟩

lemma resumeLooks {queued : Bool} (woken : s.threads t = .woken r queued) (waiting : Waiting s) :
    ∃ u keys, step e s (.run t) = some u ∧ u.threads t = .processing r keys ∧
      ∀ key, key ∈ s.ring ∨ key ∈ s.activity → key ∈ keys := by
  have isReady : ready s r = true := by
    by_contra none
    exact readyWaiting (Bool.eq_false_iff.mpr none) waiting
  refine ⟨take e { s with owner := none } t r,(flushActivityRing e { s with owner := none }).activity,?_,?_,?_⟩
  · simp only [step,resume,woken,isReady,Bool.or_true,if_true]
  · rw [takeThreads,if_pos rfl]
  intro key there
  exact (flushed e _ key).mpr (there.imp id .inl)

def Looks (e : F) (s : State F T) : Prop :=
  (0 < s.calls ∧ ∃ v, s.owner = some v ∧ (s.threads v).IsAsleep) ∨
    ∃ v r queued, s.threads v = .woken r queued ∧
      ∃ u keys, step e s (.run v) = some u ∧ u.threads v = .processing r keys ∧
        ∀ key, key ∈ s.ring ∨ key ∈ s.activity → key ∈ keys

lemma Watched.looks (watched : Watched s) (waiting : Waiting s) (asleep : (s.threads t).IsAsleep) : Looks e s := by
  have woken : ∀ v, (s.threads v).IsWoken → Looks e s := by
    intro v woken
    cases eq : s.threads v with
    | woken r queued => exact .inr ⟨v,r,queued,eq,resumeLooks eq waiting⟩
    | _ =>
      rw [eq] at woken
      exact woken.elim
  rcases watched.announced waiting t asleep with calls | ⟨v,awake⟩
  · obtain ⟨v,owner,sleeps | awake⟩ := watched.owned t (queuedAsleep asleep)
    · exact .inl ⟨calls,v,owner,sleeps⟩
    · exact woken v awake
  · exact woken v awake

theorem noLostEvent (e : F) : (∀ s : State F T, Reach (step e) (fun _ _ => True) Start s → Kept e s) ∧
    ∀ s : State F T, Reach (step e) ok Start s → Waiting s → ∀ t, (s.threads t).IsAsleep → Looks e s := by
  constructor
  · intro s reach
    refine invariant (P := Kept e) ?_ (fun _ _ _ kept _ taken => kept.step taken) reach
    rintro s ⟨_,_,_,_,_,_,none⟩ key mem
    rw [none] at mem
    cases mem
  intro s reach waiting t asleep
  refine Watched.looks (invariant (P := Watched) ?_ (fun _ _ _ watched allowed taken => watched.step allowed taken)
    reach) waiting asleep
  rintro s ⟨_,_,_,_,outside,_,_⟩
  refine watchedQuiet fun v queued => ?_
  rw [outside v] at queued
  exact queued

end

/-! Two threads. -/

def begin : State (Fin 2) (Fin 2) :=
  ⟨⟨fun _ => .opened,fun _ => [(⟨5,1⟩,⟨1,0⟩),(⟨6,1⟩,⟨1,0⟩)],fun _ => []⟩,[],[],false,none,fun _ => .outside,0,[]⟩

def busy : List (Action (Fin 2) (Fin 2)) :=
  [.wait 0 true 1,.push ⟨5,1⟩,.wakeOwner,.push ⟨6,1⟩,.wakeOwner,.run 0,.wait 1 true 1]

def leave : List (Action (Fin 2) (Fin 2)) := busy ++ [.process 0 fun _ _ => 1,.finish 0]
def after (run : List (Action (Fin 2) (Fin 2))) : State (Fin 2) (Fin 2) := Runs.played (step 0) begin run

lemma beginStart : Start begin := ⟨rfl,rfl,rfl,rfl,fun _ => rfl,rfl,rfl⟩

theorem noLostEventSecond : Looks 0 (after (busy ++ [.push ⟨5,1⟩])) := by
  have reach : Reach (step 0) ok Start (after (busy ++ [.push ⟨5,1⟩])) := by
    refine reachPlayed _ beginStart ?_ rfl
    intro o mem s
    simp only [busy,cons_append,nil_append,mem_cons,not_mem_nil,or_false] at mem
    rcases mem with rfl | rfl | rfl | rfl | rfl | rfl | rfl | rfl
    all_goals trivial
  have waiting : Waiting (after (busy ++ [.push ⟨5,1⟩])) := .inl (by decide)
  have asleep : (after (busy ++ [.push ⟨5,1⟩])).threads 1 = .asleep ⟨true,1,false⟩ := rfl
  exact (noLostEvent 0).2 _ reach waiting 1 (by rw [asleep]; trivial)

theorem keysPutBack : Reach (step 0) (fun _ _ => True) Start (after leave) ∧ (after leave).activity = [⟨5,1⟩,⟨6,1⟩] ∧
      (after leave).threads 1 = .asleep ⟨true,1,false⟩ ∧ ¬Looks 0 (after leave) := by
  have reach : Reach (step 0) (fun _ _ => True) Start (after leave) :=
    reachPlayed _ beginStart (fun _ _ _ => trivial) rfl
  have quiet : (after leave).calls = 0 := rfl
  have one : (after leave).threads 1 = .asleep ⟨true,1,false⟩ := rfl
  have zero : (after leave).threads 0 = .outside := rfl
  refine ⟨reach,rfl,one,?_⟩
  rintro (⟨calls,_⟩ | ⟨v,r,queued,woken,_⟩)
  · omega
  match v with
  | 0 => cases zero.symm.trans woken
  | 1 => cases one.symm.trans woken

end OsvKernel.EpollWait
