import OsvKernel.Runs

/-! Threads between run queues, queues of incoming wakeups and CPUs (core/sched.cc). Each atomic
access to a status, and each access of another CPU to _cpu, is a step of its own. What a CPU
does to its own run queue with interrupts off goes with the access next to it. -/
namespace OsvKernel.Scheduler
open List Option Runs
open Function (update update_apply update_comm update_eq_self update_eq_self_iff update_idem update_of_ne update_self)

inductive Status where
  | unstarted
  | prestarted
  | waiting
  | sendingLock
  | running
  | queued
  | waking
  | terminating
  | terminated
  deriving DecidableEq, Repr

/-- Where a call of wake() or a helper of pin(thread*, cpu*) is. own: the helper has stored the
status waking itself. -/
inductive Phase (T C : Type) where
  | idle
  | claimed (t : T)
  | aimed (t : T) (c : C)
  | marking (c : C)
  | pretend (t : T) (target : C)
  | choose (t : T) (target : C) (own : Bool)
  | move (t : T) (target : C) (own : Bool)
  | recheck (t : T) (own : Bool)
  | rewake (t : T)
  deriving DecidableEq, Repr

/-- incoming c i is incoming_wakeups[i] of CPU c. work c holds the bits that
handle_incoming_wakeups() on c has fetched and not yet dealt with. -/
structure State (T C W : Type) where
  status : T → Status
  cpu : T → C
  current : C → T
  runqueue : C → List T
  incoming : C → C → List T
  mask : C → C → Bool
  work : C → Option (C → Bool)
  phase : W → Phase T C

inductive Act (T C W : Type) where
  | prestart (t : T)
  | early (t : T)
  | start (t : T) (c : C)
  | prepareWait (c : C)
  | stopWait (c : C)
  | complete (c : C)
  | destroy (t : T)
  | wakeLock (t : T)
  | keepLock (t : T)
  | unsafeStop (t : T)
  | wake (w : W) (t : T) (lock : Bool)
  | discard (w : W)
  | readCpu (w : W)
  | push (w : W)
  | mark (w : W)
  | poll (c : C)
  | take (c i : C)
  | done (c i : C)
  | leave (c : C)
  | switch (c : C) (n : T)
  | migrate (w : W) (t : T) (min : C)
  | pinSelf (c target : C)
  | pin (w : W) (t : T) (target : C)
  | pretend (w : W)
  | choose (w : W)
  | move (w : W)
  | recheck (w : W)

section
variable {T C W : Type} [DecidableEq T] [DecidableEq C] [DecidableEq W]

def transit (s : State T C W) (t : T) (old next : Status) : Option (State T C W) :=
  if s.status t = old then some {s with status := update s.status t next} else none

def setPhase (s : State T C W) (w : W) (phase : Phase T C) : State T C W :=
  {s with phase := update s.phase w phase}

def enqueue (s : State T C W) (c : C) (t : T) : State T C W :=
  {s with runqueue := update s.runqueue c (t::s.runqueue c)}

def dequeue (s : State T C W) (c : C) (t : T) : State T C W :=
  {s with runqueue := update s.runqueue c ((s.runqueue c).erase t)}

def pushBack (s : State T C W) (c i : C) (t : T) : State T C W :=
  {s with incoming := update s.incoming c (update (s.incoming c) i (s.incoming c i ++ [t]))}

def popFront (s : State T C W) (c i : C) : State T C W :=
  {s with incoming := update s.incoming c (update (s.incoming c) i (s.incoming c i).tail)}

def wake (s : State T C W) (w : W) (t : T) (lock : Bool) : Option (State T C W) :=
  if (s.phase w = .idle ∨ s.phase w = .rewake t) ∧
      (s.status t = .waiting ∨ lock = true ∧ s.status t = .sendingLock) then
    some (setPhase {s with status := update s.status t .waking} w (.claimed t))
  else none

def discard (s : State T C W) (w : W) : Option (State T C W) :=
  match s.phase w with
  | .rewake t => if s.status t = .waiting then none else some (setPhase s w .idle)
  | _ => none

def readCpu (s : State T C W) (w : W) : Option (State T C W) :=
  match s.phase w with
  | .claimed t => some (setPhase s w (.aimed t (s.cpu t)))
  | _ => none

def push (home : W → C) (s : State T C W) (w : W) : Option (State T C W) :=
  match s.phase w with
  | .aimed t c => some (setPhase (pushBack s c (home w) t) w (.marking c))
  | _ => none

def mark (home : W → C) (s : State T C W) (w : W) : Option (State T C W) :=
  match s.phase w with
  | .marking c =>
    some (setPhase {s with mask := update s.mask c (update (s.mask c) (home w) true)} w .idle)
  | _ => none

def poll (s : State T C W) (c : C) : Option (State T C W) :=
  if s.work c = none then
    some {s with work := update s.work c (some (s.mask c)), mask := update s.mask c fun _ => false}
  else none

def take (s : State T C W) (c i : C) : Option (State T C W) :=
  if (s.work c).any (fun work => work i) then
    match s.incoming c i with
    | [] => none
    | t::_ =>
      let s := popFront s c i
      if t = s.current c then some {s with status := update s.status t .running}
      else if s.cpu t ≠ c then some s
      else some (enqueue {s with status := update s.status t .queued} c t)
  else none

def done (s : State T C W) (c i : C) : Option (State T C W) :=
  match s.work c,s.incoming c i with
  | some work,[] => some {s with work := update s.work c (some (update work i false))}
  | _,_ => none

def leave (s : State T C W) (c : C) : Option (State T C W) :=
  if s.work c = none then none else some {s with work := update s.work c none}

def switch (s : State T C W) (c : C) (n : T) : Option (State T C W) :=
  if s.work c = none then none else
    let p := s.current c
    if s.status p ≠ .queued ∧ n ∈ s.runqueue c ∧ s.status n = .queued ∧ n ≠ p then
      let s := {s with work := update s.work c none}
      let s := if s.status p = .running then
        enqueue {s with status := update s.status p .queued} c p else s
      let s := dequeue s c n
      some {s with status := update s.status n .running, current := update s.current c n}
    else none

def migrate (home : W → C) (s : State T C W) (w : W) (t : T) (min : C) : Option (State T C W) :=
  if s.phase w = .idle ∧ min ≠ home w ∧ t ∈ s.runqueue (home w) ∧ s.status t = .queued then
    let s := dequeue s (home w) t
    let s := {s with status := update s.status t .waking, cpu := update s.cpu t min}
    some (setPhase (pushBack s min (home w) t) w (.marking min))
  else none

def pinSelf (s : State T C W) (c target : C) : Option (State T C W) :=
  if target ≠ c then transit {s with cpu := update s.cpu (s.current c) target} (s.current c) .running .waiting
  else none

def pin (home : W → C) (s : State T C W) (w : W) (t : T) (target : C) : Option (State T C W) :=
  if s.phase w = .idle ∧ s.cpu t = home w ∧ s.current (home w) ≠ t ∧ target ≠ home w then
    some (setPhase s w (if s.status t = .waiting then .pretend t target else .choose t target false))
  else none

def pretend (s : State T C W) (w : W) : Option (State T C W) :=
  match s.phase w with
  | .pretend t target =>
    some (setPhase {s with status := update s.status t .waking} w (.choose t target true))
  | _ => none

def choose (home : W → C) (s : State T C W) (w : W) : Option (State T C W) :=
  match s.phase w with
  | .choose t target own =>
    match s.status t with
    | .prestarted | .sendingLock | .waking => some (setPhase s w (.move t target own))
    | .queued =>
      let s := dequeue s (home w) t
      some (setPhase {s with
        cpu := update s.cpu t target
        status := update s.status t .waiting} w (.rewake t))
    | _ => some (setPhase s w .idle)
  | _ => none

def move (s : State T C W) (w : W) : Option (State T C W) :=
  match s.phase w with
  | .move t target own => some (setPhase {s with cpu := update s.cpu t target} w (.recheck t own))
  | _ => none

def recheck (s : State T C W) (w : W) : Option (State T C W) :=
  match s.phase w with
  | .recheck t _ =>
    if s.status t = .waking then
      some (setPhase {s with status := update s.status t .waiting} w (.rewake t))
    else some (setPhase s w .idle)
  | _ => none

def step (home : W → C) (s : State T C W) : Act T C W → Option (State T C W)
  | .prestart t => transit s t .unstarted .prestarted
  | .early t => transit s t .prestarted .unstarted
  | .start t c => transit {s with cpu := update s.cpu t c} t .unstarted .waiting
  | .prepareWait c => transit s (s.current c) .running .waiting
  | .stopWait c => transit s (s.current c) .waiting .running
  | .complete c => transit s (s.current c) .running .terminating
  | .destroy t => transit s t .terminating .terminated
  | .wakeLock t => transit s t .waiting .sendingLock
  | .keepLock t => transit s t .sendingLock .waiting
  | .unsafeStop t => transit s t .waiting .terminated
  | .wake w t lock => wake s w t lock
  | .discard w => discard s w
  | .readCpu w => readCpu s w
  | .push w => push home s w
  | .mark w => mark home s w
  | .poll c => poll s c
  | .take c i => take s c i
  | .done c i => done s c i
  | .leave c => leave s c
  | .switch c n => switch s c n
  | .migrate w t min => migrate home s w t min
  | .pinSelf c target => pinSelf s c target
  | .pin w t target => pin home s w t target
  | .pretend w => pretend s w
  | .choose w => choose home s w
  | .move w => move s w
  | .recheck w => recheck s w

def pins : Phase T C → Option T
  | .pretend t _ => some t
  | .choose t _ _ => some t
  | .move t _ _ => some t
  | _ => none

def Quiet (home : W → C) (s : State T C W) (c : C) : Prop := ∀ w, home w = c → pins (s.phase w) = none
def Handled (s : State T C W) (c : C) : Prop := ∀ work ∈ s.work c, ∀ i, work i = false
def Leaving (s : State T C W) (t : T) : Prop := ∃ c, s.current c = t ∧ s.cpu t ≠ c

/-- What the CPU does with interrupts off excludes a helper there; _cpu of a thread is not set
before its start(), so only a started thread is pinned. A thread in pin(cpu*) does not call
stop_wait(). -/
def Allowed (home : W → C) (s : State T C W) : Act T C W → Prop
  | .stopWait c => s.cpu (s.current c) = c
  | .poll c | .take c _ | .done c _ => Quiet home s c
  | .leave c | .switch c _ => Quiet home s c ∧ Handled s c
  | .migrate w _ _ => Quiet home s (home w)
  | .pin w t _ => Quiet home s (home w) ∧ s.status t ≠ .unstarted ∧ s.status t ≠ .prestarted
  | _ => True

/-- The helper does not meet a thread that someone else has set to waking, nobody changes the
status between its load and its store, and nobody finds a thread that is leaving its CPU. -/
def Clear (s : State T C W) : Act T C W → Prop
  | .wake _ t _ | .wakeLock t | .unsafeStop t | .pin _ t _ => ¬Leaving s t
  | .pretend w => ∀ t ∈ pins (s.phase w), s.status t = .waiting
  | .move w => ∀ t target own, s.phase w = .move t target own → s.status t = .waking → own = true
  | .recheck w => ∀ t own, s.phase w = .recheck t own → s.status t = .waking → own = true
  | _ => True

end

inductive Place (C W : Type) where
  | nowhere
  | run (c : C)
  | inc (c i : C)
  | wake (w : W)

section
variable {T C W : Type}

def Place.Fits : Place C W → Status → Prop
  | .nowhere,status => status ≠ .queued ∧ status ≠ .waking
  | .run _,status => status = .queued
  | .inc _ _,status => status = .waking
  | .wake _,status => status = .waking

def Place.On : Place C W → C → Prop
  | .run c,cpu => cpu = c
  | .inc c _,cpu => cpu = c
  | _,_ => True

def Holds : Phase T C → T → Prop
  | .claimed u,t => u = t
  | .aimed u _,t => u = t
  | .choose u _ own,t => own = true ∧ u = t
  | .move u _ own,t => own = true ∧ u = t
  | .recheck u own,t => own = true ∧ u = t
  | _,_ => False

structure Links (s : State T C W) (place : T → Place C W) : Prop where
  run : ∀ c t, t ∈ s.runqueue c ↔ place t = .run c
  inc : ∀ c i t, t ∈ s.incoming c i ↔ place t = .inc c i
  wake : ∀ w t, Holds (s.phase w) t ↔ place t = .wake w
  runOnce : ∀ c, (s.runqueue c).Nodup
  incOnce : ∀ c i, (s.incoming c i).Nodup

structure Facts (home : W → C) (s : State T C W) (place : T → Place C W) : Prop where
  fits : ∀ t, (place t).Fits (s.status t)
  on : ∀ t, (place t).On (s.cpu t)
  aimed : ∀ w t c, s.phase w = .aimed t c → s.cpu t = c
  current : ∀ c, s.cpu (s.current c) = c ∨ s.status (s.current c) = .waiting
  currentOnce : ∀ c c', s.current c = s.current c' → c = c'
  started : ∀ c, s.status (s.current c) ≠ .unstarted ∧ s.status (s.current c) ≠ .prestarted ∧
    s.status (s.current c) ≠ .queued
  running : ∀ t, s.status t = .running → s.current (s.cpu t) = t
  pinned : ∀ w t, pins (s.phase w) = some t → s.cpu t = home w ∧ (∀ c, s.current c ≠ t) ∧
    s.status t ≠ .unstarted ∧ s.status t ≠ .prestarted
  moving : ∀ w t target own, s.phase w = .move t target own → s.status t ≠ .queued
  alone : ∀ w w' t t', pins (s.phase w) = some t → pins (s.phase w') = some t' → home w = home w' → w = w'

variable {home : W → C} {s s' : State T C W} {place : T → Place C W} {t : T}

variable {phase : Phase T C} {next q : Place C W} {w : W} {c i target : C} {n : T}

open Place

lemma Holds.only {u : T} (first : Holds phase t) (second : Holds phase u) : u = t := by
  cases phase <;> simp only [Holds] at first second <;> grind

variable [DecidableEq T]

lemma placeOther (old : place t ≠ q) (other : next ≠ q) (u : T) : update place t next u = q ↔ place u = q := by
  by_cases same : u = t
  · subst u
    rw [update_self]
    exact iff_of_false other old
  · rw [update_of_ne same]

lemma placeSelf (u : T) : update place t next u = next ↔ u = t ∨ place u = next := by
  by_cases same : u = t
  · subst u
    rw [update_self]
    exact iff_of_true rfl (.inl rfl)
  · rw [update_of_ne same,or_iff_right same]

lemma placeLeft (other : next ≠ q) (u : T) : update place t next u = q ↔ u ≠ t ∧ place u = q := by
  by_cases same : u = t
  · subst u
    rw [update_self]
    exact iff_of_false other fun both => both.1 rfl
  · rw [update_of_ne same,and_iff_right same]

lemma placeMoves {r : Place C W} (was : place t = .nowhere ∨ place t = q) (now : next = .nowhere ∨ next = q)
    (other : r ≠ q) (some : r ≠ .nowhere) (u : T) : update place t next u = r ↔ place u = r :=
  placeOther (fun same => was.elim (some <| same.symm.trans ·) (other <| same.symm.trans ·))
    (fun same => now.elim (some <| same.symm.trans ·) (other <| same.symm.trans ·)) u

lemma Links.toPhase [DecidableEq W] (links : Links s place) (was : place t = .nowhere ∨ place t = .wake w)
    (now : next = .nowhere ∨ next = .wake w) (here : ∀ u, Holds phase u ↔ update place t next u = .wake w) :
    Links {s with phase := update s.phase w phase} (update place t next) := by
  refine {links with run := fun c u => ?_, inc := fun c i u => ?_, wake := fun w' u => ?_}
  · exact (links.run c u).trans (placeMoves was now (by simp) (by simp) u).symm
  · exact (links.inc c i u).trans (placeMoves was now (by simp) (by simp) u).symm
  by_cases same : w' = w
  · subst w'
    simp only [update_self]
    exact here u
  simp only [update_of_ne same]
  rw [placeMoves was now (by simpa using same) (by simp)]
  exact links.wake w' u

lemma Links.toWake [DecidableEq W] (links : Links s place) (out : place t = .nowhere)
    (none : ∀ u, ¬Holds (s.phase w) u) (holds : ∀ u, Holds phase u ↔ u = t) :
    Links {s with phase := update s.phase w phase} (update place t (.wake w)) := by
  refine links.toPhase (.inl out) (.inr rfl) fun u => ?_
  rw [holds,placeSelf,← links.wake,or_iff_left (none u)]

lemma Links.fromWake [DecidableEq W] (links : Links s place) (phase : Phase T C) (held : place t = .wake w)
    (none : ∀ u, ¬Holds phase u) :
    Links {s with phase := update s.phase w phase} (update place t .nowhere) := by
  refine links.toPhase (.inr held) (.inl rfl) fun u => ?_
  rw [placeLeft (by simp),← links.wake]
  exact iff_of_false (none u) fun both => both.1 (((links.wake w t).mpr held).only both.2)

lemma Links.rephase [DecidableEq W] (links : Links s place) (w : W) (phase : Phase T C)
    (same : ∀ u, Holds phase u ↔ Holds (s.phase w) u) :
    Links {s with phase := update s.phase w phase} place := by
  refine {links with wake := fun w' u => ?_}
  by_cases eq : w' = w
  · subst w'
    simp only [update_self]
    rw [same,links.wake]
  simp only [update_of_ne eq]
  exact links.wake w' u

variable [DecidableEq C]

lemma Links.toQueue (links : Links s place) {queue : List T} (was : place t = .nowhere ∨ place t = .run c)
    (now : next = .nowhere ∨ next = .run c) (here : ∀ u, u ∈ queue ↔ update place t next u = .run c) (once : queue.Nodup) :
    Links {s with runqueue := update s.runqueue c queue} (update place t next) := by
  refine {links with run := fun k u => ?_, inc := fun k i u => ?_, wake := fun w u => ?_, runOnce := fun k => ?_}
  · change u ∈ update s.runqueue c queue k ↔ _
    by_cases same : k = c
    · subst k
      rw [update_self]
      exact here u
    · rw [update_of_ne same,placeMoves was now (by simpa using same) (by simp),links.run]
  · exact (links.inc k i u).trans (placeMoves was now (by simp) (by simp) u).symm
  · exact (links.wake w u).trans (placeMoves was now (by simp) (by simp) u).symm
  change (update s.runqueue c queue k).Nodup
  by_cases same : k = c
  · subst k
    rw [update_self]
    exact once
  rw [update_of_ne same]
  exact links.runOnce k

lemma Links.toRun (links : Links s place) (out : place t = .nowhere) :
    Links (enqueue s c t) (update place t (.run c)) := by
  have fresh : t ∉ s.runqueue c := by
    rw [links.run,out]
    simp
  refine links.toQueue (.inl out) (.inr rfl) (fun u => ?_) (nodup_cons.mpr ⟨fresh,links.runOnce c⟩)
  rw [placeSelf,mem_cons,links.run]

lemma Links.fromRun (links : Links s place) (held : place t = .run c) :
    Links (dequeue s c t) (update place t .nowhere) := by
  refine links.toQueue (.inr held) (.inl rfl) (fun u => ?_) ((links.runOnce c).erase t)
  rw [placeLeft (by simp),(links.runOnce c).mem_erase_iff,links.run]

lemma incomingUpdate {k j : C} (q : List T) :
    update s.incoming c (update (s.incoming c) i q) k j = if k = c ∧ j = i then q else s.incoming k j := by
  by_cases same : k = c
  · subst k
    by_cases eq : j = i
    · subst j
      simp
    · simp [eq]
  · simp [same]

lemma Links.toIncoming (links : Links s place) {queue : List T} (was : place t = .nowhere ∨ place t = .inc c i)
    (now : next = .nowhere ∨ next = .inc c i) (here : ∀ u, u ∈ queue ↔ update place t next u = .inc c i) (once : queue.Nodup) :
    Links {s with incoming := update s.incoming c (update (s.incoming c) i queue)} (update place t next) := by
  refine {links with run := fun k u => ?_, inc := fun k j u => ?_, wake := fun w u => ?_, incOnce := fun k j => ?_}
  · exact (links.run k u).trans (placeMoves was now (by simp) (by simp) u).symm
  · dsimp only
    rw [incomingUpdate]
    split
    next same =>
      rw [same.1,same.2]
      exact here u
    next other => rw [placeMoves was now (by simpa using other) (by simp),links.inc]
  · exact (links.wake w u).trans (placeMoves was now (by simp) (by simp) u).symm
  dsimp only
  rw [incomingUpdate]
  split
  · exact once
  · exact links.incOnce k j

lemma Links.toInc (links : Links s place) (c i : C) (out : place t = .nowhere) :
    Links (pushBack s c i t) (update place t (.inc c i)) := by
  have fresh : t ∉ s.incoming c i := by
    rw [links.inc,out]
    simp
  refine links.toIncoming (.inl out) (.inr rfl) (fun u => ?_) ?_
  · rw [placeSelf,mem_append,mem_singleton,links.inc,or_comm]
  refine (links.incOnce c i).append (nodup_singleton t) fun u inside single => fresh ?_
  exact mem_singleton.mp single ▸ inside

lemma Links.fromInc {rest : List T} (links : Links s place) (front : s.incoming c i = t::rest) :
    Links (popFront s c i) (update place t .nowhere) := by
  have held : place t = .inc c i := (links.inc c i t).mp (front ▸ mem_cons_self)
  have once := links.incOnce c i
  rw [front] at once
  refine links.toIncoming (.inr held) (.inl rfl) (fun u => ?_) (links.incOnce c i).tail
  rw [placeLeft (by simp),← links.inc,front,tail_cons,mem_cons]
  refine ⟨fun inside => ⟨?_,.inr inside⟩,fun both => both.2.resolve_left both.1⟩
  rintro rfl
  exact (nodup_cons.mp once).1 inside

lemma Facts.nowhere (facts : Facts home s place) (free : s.status t ≠ .queued ∧ s.status t ≠ .waking) :
    place t = .nowhere := by
  have fits := facts.fits t
  rcases at' : place t with _ | c | ⟨c,i⟩ | w
  · rfl
  · rw [at'] at fits
    exact absurd fits free.1
  · rw [at'] at fits
    exact absurd fits free.2
  rw [at'] at fits
  exact absurd fits free.2

lemma Facts.queued (facts : Facts home s place) (status : s.status t = .queued) : place t = .run (s.cpu t) := by
  have fits := facts.fits t
  have on := facts.on t
  rw [status] at fits
  cases at' : place t <;> rw [at'] at fits on
  case nowhere => exact absurd rfl fits.1
  case run => exact congrArg _ on.symm
  case inc | wake => exact Status.noConfusion fits

def Still (s : State T C W) (t : T) : Prop := (∀ w c, s.phase w ≠ .aimed t c) ∧ ∀ w, pins (s.phase w) ≠ some t

lemma Facts.settled (facts : Facts home s place) (stays : s.status t ≠ .waiting ∨ ¬Leaving s t) (k : C)
    (current : s.current k = t) : s.cpu t = k := by
  rcases stays with other | stays
  · have here := facts.current k
    rw [current] at here
    exact here.resolve_right other
  by_contra away
  exact stays ⟨k,current,away⟩

lemma Facts.set (facts : Facts home s place) (status : Status) (c : C) (next : Place C W)
    (fits : next.Fits status) (on : next.On c) (still : c = s.cpu t ∨ Still s t)
    (here : ∀ k, s.current k = t → c = k ∨ status = .waiting) (runs : status = .running → s.current c = t)
    (fresh : status = .unstarted ∨ status = .prestarted → s.status t = .unstarted ∨ s.status t = .prestarted)
    (queued : status = .queued → (∀ k, s.current k ≠ t) ∧ ∀ w target own, s.phase w ≠ .move t target own) :
    Facts home {s with status := update s.status t status, cpu := update s.cpu t c}
      (update place t next) := by
  unfold Still at still
  constructor <;> simp only [update_apply]
  case fits => grind [facts.fits]
  case on => grind [facts.on]
  case aimed => grind [facts.aimed]
  case current => grind [facts.current]
  case currentOnce => exact facts.currentOnce
  case started => grind [facts.started]
  case running => grind [facts.running]
  case pinned => grind [facts.pinned]
  case moving => grind [facts.moving]
  case alone => exact facts.alone

lemma Facts.rephase [DecidableEq W] (facts : Facts home s place) (w : W) (phase : Phase T C)
    (aimed : ∀ u c, phase = .aimed u c → s.cpu u = c)
    (moving : ∀ u target own, phase = .move u target own → s.status u ≠ .queued)
    (pinned : pins phase = none ∨ pins phase = pins (s.phase w) ∨
      Quiet home s (home w) ∧ ∀ u, pins phase = some u → s.cpu u = home w ∧ (∀ c, s.current c ≠ u) ∧
        s.status u ≠ .unstarted ∧ s.status u ≠ .prestarted) :
    Facts home {s with phase := update s.phase w phase} place := by
  constructor <;> simp only [update_apply]
  case fits => exact facts.fits
  case on => exact facts.on
  case aimed => grind [facts.aimed]
  case current => exact facts.current
  case currentOnce => exact facts.currentOnce
  case started => exact facts.started
  case running => exact facts.running
  case pinned => grind [facts.pinned]
  case moving => grind [facts.moving]
  case alone => grind [facts.alone,Quiet]

lemma Links.of (links : Links s place) (run : s'.runqueue = s.runqueue) (inc : s'.incoming = s.incoming)
    (phase : s'.phase = s.phase) : Links s' place := by
  constructor
  case run => exact run ▸ links.run
  case inc => exact inc ▸ links.inc
  case wake => exact phase ▸ links.wake
  case runOnce => exact run ▸ links.runOnce
  case incOnce => exact inc ▸ links.incOnce

lemma Facts.of (facts : Facts home s place) (status : s'.status = s.status) (cpu : s'.cpu = s.cpu)
    (current : s'.current = s.current) (phase : s'.phase = s.phase) : Facts home s' place := by
  obtain ⟨_,_,_,_,_,_,_,_⟩ := s
  obtain ⟨_,_,_,_,_,_,_,_⟩ := s'
  cases status
  cases cpu
  cases current
  cases phase
  exact ⟨facts.fits,facts.on,facts.aimed,facts.current,facts.currentOnce,facts.started,facts.running,facts.pinned,facts.moving,facts.alone⟩

lemma Facts.setStatus (facts : Facts home s place) (status : Status) (next : Place C W)
    (fits : next.Fits status) (on : next.On (s.cpu t)) (here : ∀ k, s.current k = t → s.cpu t = k ∨ status = .waiting)
    (runs : status = .running → s.current (s.cpu t) = t)
    (fresh : status = .unstarted ∨ status = .prestarted → s.status t = .unstarted ∨ s.status t = .prestarted)
    (queued : status = .queued → (∀ k, s.current k ≠ t) ∧ ∀ w target own, s.phase w ≠ .move t target own) :
    Facts home {s with status := update s.status t status} (update place t next) := by
  have all := facts.set status (s.cpu t) next fits on (.inl rfl) here runs fresh queued
  rw [update_eq_self] at all
  exact all

lemma Facts.setPlace (facts : Facts home s place) (next : Place C W) (fits : next.Fits (s.status t))
    (on : next.On (s.cpu t)) : Facts home s (update place t next) := by
  refine {facts with fits := fun u => ?_, on := fun u => ?_} <;> by_cases same : u = t
  · subst u
    rw [update_self]
    exact fits
  · rw [update_of_ne same]
    exact facts.fits u
  · subst u
    rw [update_self]
    exact on
  rw [update_of_ne same]
  exact facts.on u

structure Inv (home : W → C) (s : State T C W) (place : T → Place C W) : Prop where
  links : Links s place
  facts : Facts home s place

lemma placeStays (out : place t = .nowhere) : update place t .nowhere = place :=
  update_eq_self_iff.mpr out.symm

lemma Inv.transit {old next : Status} (inv : Inv home s place) (taken : transit s t old next = some s')
    (loose : old ≠ .queued ∧ old ≠ .waking) (loose' : next ≠ .queued ∧ next ≠ .waking)
    (stays : old ≠ .waiting ∨ ¬Leaving s t)
    (fresh : next = .unstarted ∨ next = .prestarted → old = .unstarted ∨ old = .prestarted)
    (runs : next = .running → s.current (s.cpu t) = t) : Inv home s' place := by
  obtain ⟨here,taken⟩ := ite_none_right_eq_some.mp taken
  cases taken
  have out := inv.facts.nowhere (by rw [here]; exact loose)
  have facts := @Facts.setStatus T C W home s place t _ _ inv.facts next .nowhere loose' trivial
    (fun k current => .inl (inv.facts.settled (by rw [here]; exact stays) k current)) runs
    (by rw [here]; exact fresh) fun queued => absurd queued loose'.1
  rw [placeStays out] at facts
  exact ⟨inv.links.of rfl rfl rfl,facts⟩

lemma Links.notAimed (links : Links s place) (other : place t ≠ .wake w) : s.phase w ≠ .aimed t c := by
  intro aimed
  refine other ((links.wake w t).mp ?_)
  rw [aimed]
  rfl

lemma Inv.settle (inv : Inv home s place) (loose : s.status t ≠ .queued ∧ s.status t ≠ .waking)
    (free : ∀ w, pins (s.phase w) ≠ some t) :
    Inv home {s with cpu := update s.cpu t c, status := update s.status t .waiting} place := by
  have out := inv.facts.nowhere loose
  have still : Still s t := ⟨fun w k => inv.links.notAimed (by simp [out]),free⟩
  have facts := inv.facts.set .waiting c .nowhere ⟨by decide,by decide⟩ trivial (.inr still) (fun _ _ => .inr rfl)
    nofun nofun nofun
  rw [placeStays out] at facts
  exact ⟨inv.links.of rfl rfl rfl,facts⟩

lemma Inv.start (inv : Inv home s place) (here : s.status t = .unstarted) :
    Inv home {s with cpu := update s.cpu t c, status := update s.status t .waiting} place :=
  inv.settle (by rw [here]; decide) fun w pinned => (inv.facts.pinned w t pinned).2.2.1 here

lemma Inv.pinSelf (inv : Inv home s place) (taken : pinSelf s c target = some s') : Inv home s' place := by
  obtain ⟨-,taken⟩ := ite_none_right_eq_some.mp taken
  obtain ⟨runs,taken⟩ := ite_none_right_eq_some.mp taken
  cases taken
  change s.status (s.current c) = .running at runs
  exact inv.settle (by rw [runs]; decide) fun w pinned => (inv.facts.pinned w _ pinned).2.1 c rfl

variable [DecidableEq W] {w : W}

section
variable (inv : Inv home s place)
include inv

lemma Inv.claim (waits : s.status t = .waiting ∨ s.status t = .sendingLock) (stays : ¬Leaving s t)
    (none : ∀ u, ¬Holds (s.phase w) u) (holds : ∀ u, Holds phase u ↔ u = t)
    (aimed : ∀ u c, phase ≠ .aimed u c) (moving : ∀ u target own, phase ≠ .move u target own)
    (pinned : pins phase = .none ∨ pins phase = pins (s.phase w)) :
    Inv home {s with status := update s.status t .waking, phase := update s.phase w phase}
      (update place t (.wake w)) := by
  have out := inv.facts.nowhere (by rcases waits with here | here <;> rw [here] <;> decide)
  have facts := @Facts.setStatus T C W home s place t _ _ inv.facts .waking (.wake w) rfl trivial
    (fun k current => .inl (inv.facts.settled (.inr stays) k current)) nofun nofun nofun
  refine ⟨(inv.links.toWake out none holds).of rfl rfl rfl,facts.rephase w phase ?_ ?_ ?_⟩
  · exact fun u c same => absurd same (aimed u c)
  · exact fun u target own same => absurd same (moving u target own)
  · exact pinned.imp_right .inl

lemma Inv.wake {lock : Bool} (stays : ¬Leaving s t) (taken : wake s w t lock = some s') :
    ∃ place', Inv home s' place' := by
  obtain ⟨⟨phase,waits⟩,taken⟩ := ite_none_right_eq_some.mp taken
  cases taken
  have none : ∀ u, ¬Holds (s.phase w) u := by rcases phase with phase | phase <;> rw [phase] <;> exact fun _ => id
  exact ⟨_,inv.claim (waits.imp_right And.right) stays none (fun u => eq_comm) nofun nofun (.inl rfl)⟩

lemma Inv.rephase (w : W) (phase : Phase T C) (holds : ∀ u, Holds phase u ↔ Holds (s.phase w) u)
    (aimed : ∀ u c, phase = .aimed u c → s.cpu u = c)
    (moving : ∀ u target own, phase = .move u target own → s.status u ≠ .queued)
    (pinned : pins phase = none ∨ pins phase = pins (s.phase w) ∨
      Quiet home s (home w) ∧ ∀ u, pins phase = some u → s.cpu u = home w ∧ (∀ c, s.current c ≠ u) ∧
        s.status u ≠ .unstarted ∧ s.status u ≠ .prestarted) : Inv home (setPhase s w phase) place :=
  ⟨inv.links.rephase w phase holds,inv.facts.rephase w phase aimed moving pinned⟩

lemma Inv.discard (taken : discard s w = some s') : Inv home s' place := by
  unfold Scheduler.discard at taken
  split at taken
  next t phase =>
    obtain ⟨-,taken⟩ := ite_none_left_eq_some.mp taken
    cases taken
    exact inv.rephase w _ (by rw [phase]; exact fun _ => Iff.rfl) nofun nofun (.inl rfl)
  · cases taken

lemma Inv.readCpu (taken : readCpu s w = some s') : Inv home s' place := by
  unfold Scheduler.readCpu at taken
  split at taken
  next t phase =>
    cases taken
    refine inv.rephase w _ (by rw [phase]; exact fun _ => Iff.rfl) (fun u c same => ?_) nofun (.inl rfl)
    cases same
    rfl
  · cases taken

lemma Inv.push (taken : push home s w = some s') : ∃ place', Inv home s' place' := by
  unfold Scheduler.push at taken
  split at taken
  swap
  · cases taken
  rename_i t c phase
  cases taken
  have held := (inv.links.wake w t).mp (by rw [phase]; rfl)
  have waking : s.status t = .waking := by
    have fits := inv.facts.fits t
    rw [held] at fits
    exact fits
  have links := (inv.links.fromWake (.marking c) held fun _ => id).toInc c (home w) (update_self ..)
  rw [update_idem] at links
  have facts := inv.facts.setPlace (t := t) (.inc c (home w)) waking (inv.facts.aimed w t c phase)
  exact ⟨_,links.of rfl rfl rfl,(facts.rephase w (.marking c) nofun nofun (.inl rfl)).of rfl rfl rfl rfl⟩

lemma Inv.mark (taken : mark home s w = some s') : Inv home s' place := by
  unfold Scheduler.mark at taken
  split at taken
  next c phase =>
    cases taken
    have next := inv.rephase w .idle (by rw [phase]; exact fun _ => Iff.rfl) nofun nofun (.inl rfl)
    exact ⟨next.links.of rfl rfl rfl,next.facts.of rfl rfl rfl rfl⟩
  · cases taken

lemma Inv.take (quiet : Quiet home s c) (taken : take s c i = some s') : ∃ place', Inv home s' place' := by
  obtain ⟨-,taken⟩ := ite_none_right_eq_some.mp taken
  split at taken
  · cases taken
  rename_i t rest front
  have held : place t = .inc c i := (inv.links.inc c i t).mp (front ▸ mem_cons_self)
  have here : s.cpu t = c := by
    have on := inv.facts.on t
    rw [held] at on
    exact on
  have settled : ∀ k, s.current k = t → s.cpu t = k := by
    have fits := inv.facts.fits t
    rw [held] at fits
    exact inv.facts.settled (.inl (by rw [show s.status t = _ from fits]; decide))
  have links := inv.links.fromInc front
  dsimp only at taken
  split at taken
  next runs =>
    cases taken
    have facts := inv.facts.setStatus (t := t) .running .nowhere ⟨by decide,by decide⟩ trivial
      (fun k current => .inl (settled k current)) (fun _ => by rw [here]; exact runs.symm) nofun nofun
    exact ⟨_,links.of rfl rfl rfl,facts.of rfl rfl rfl rfl⟩
  rename_i waits
  split at taken
  · exact absurd here ‹_›
  cases taken
  have runs := links.toRun (c := c) (update_self ..)
  rw [update_idem] at runs
  have facts := inv.facts.setStatus (t := t) .queued (.run c) rfl here
    (fun k current => .inl (settled k current)) nofun nofun fun _ => ?_
  · exact ⟨_,runs.of rfl rfl rfl,facts.of rfl rfl rfl rfl⟩
  refine ⟨fun k current => ?_,fun w target own moving => ?_⟩
  · have same := settled k current
    rw [here] at same
    exact waits (same ▸ current.symm)
  have pinned := inv.facts.pinned w t (by rw [moving]; rfl)
  have none := quiet w (pinned.1.symm.trans here)
  rw [moving] at none
  cases none

lemma Inv.migrate {min : C} (quiet : Quiet home s (home w))
    (taken : migrate home s w t min = some s') : ∃ place', Inv home s' place' := by
  obtain ⟨⟨phase,-,inside,-⟩,taken⟩ := ite_none_right_eq_some.mp taken
  cases taken
  have held := (inv.links.run _ t).mp inside
  have queued : s.status t = .queued := by
    have fits := inv.facts.fits t
    rw [held] at fits
    exact fits
  have here : s.cpu t = home w := by
    have on := inv.facts.on t
    rw [held] at on
    exact on
  have still : Still s t := by
    refine ⟨fun w' k => inv.links.notAimed (by simp [held]),fun w' pinned => ?_⟩
    have none := quiet w' ((inv.facts.pinned w' t pinned).1.symm.trans here)
    rw [pinned] at none
    cases none
  have away : ∀ k, s.current k ≠ t := fun k current => (inv.facts.started k).2.2 (current ▸ queued)
  have links := (inv.links.fromRun held).toInc min (home w) (update_self ..)
  rw [update_idem] at links
  have facts := inv.facts.set .waking min (.inc min (home w)) rfl rfl (.inr still)
    (fun k current => absurd current (away k)) nofun nofun nofun
  have next := links.rephase w (.marking min) (by
    change ∀ u, _ ↔ Holds (s.phase w) u
    rw [phase]
    exact fun _ => Iff.rfl)
  exact ⟨_,next.of rfl rfl rfl,(facts.rephase w (.marking min) nofun nofun (.inl rfl)).of rfl rfl rfl rfl⟩

lemma Inv.pin (quiet : Quiet home s (home w))
    (started : s.status t ≠ .unstarted ∧ s.status t ≠ .prestarted) (stays : ¬Leaving s t)
    (taken : pin home s w t target = some s') : Inv home s' place := by
  obtain ⟨⟨phase,here,other,-⟩,taken⟩ := ite_none_right_eq_some.mp taken
  cases taken
  refine inv.rephase w _ (fun u => ?_) (fun u c same => ?_) (fun u k own same => ?_) (.inr (.inr ⟨quiet,fun u same => ?_⟩))
  · rw [phase]
    split <;> simp [Holds]
  · split at same <;> cases same
  · split at same <;> cases same
  have eq : u = t := by split at same <;> exact (some.inj same).symm
  refine eq ▸ ⟨here,fun c current => other ?_,started⟩
  have same := inv.facts.settled (.inr stays) c current
  rw [here] at same
  exact same ▸ current

lemma Inv.pretend (clear : ∀ t ∈ pins (s.phase w), s.status t = .waiting)
    (taken : pretend s w = some s') : ∃ place', Inv home s' place' := by
  unfold Scheduler.pretend at taken
  split at taken
  swap
  · cases taken
  rename_i t target phase
  cases taken
  have none : ∀ u, ¬Holds (s.phase w) u := by
    rw [phase]
    exact fun _ => id
  have same : pins (s.phase w) = some t := by rw [phase]; rfl
  have stays : ¬Leaving s t := fun ⟨c,current,_⟩ => (inv.facts.pinned w t same).2.1 c current
  exact ⟨_,inv.claim (.inl (clear t same)) stays none (fun u => by simp [Holds,eq_comm]) nofun nofun (.inr same.symm)⟩

lemma Inv.waking (held : Holds (s.phase w) t) : s.status t = .waking := by
  have fits := inv.facts.fits t
  rw [(inv.links.wake w t).mp held] at fits
  exact fits

lemma Inv.still (pinned : pins (s.phase w) = some t) (unpins : pins phase = none) (aimed : ∀ c, phase ≠ .aimed t c)
    (others : ∀ w', w' ≠ w → place t ≠ .wake w') : Still (setPhase s w phase) t := by
  obtain ⟨here,-⟩ := inv.facts.pinned w t pinned
  refine ⟨fun w' c => ?_,fun w' again => ?_⟩
  · change update s.phase w phase w' ≠ _
    by_cases eq : w' = w
    · subst w'
      rw [update_self]
      exact aimed c
    rw [update_of_ne eq]
    exact inv.links.notAimed (others w' eq)
  change pins (update s.phase w phase w') = some t at again
  by_cases eq : w' = w
  · subst w'
    rw [update_self,unpins] at again
    cases again
  rw [update_of_ne eq] at again
  have there := (inv.facts.pinned w' t again).1
  exact eq (inv.facts.alone w' w t t again pinned (there.symm.trans here))

lemma Inv.choose (taken : choose home s w = some s') : ∃ place', Inv home s' place' := by
  unfold Scheduler.choose at taken
  split at taken
  swap
  · cases taken
  rename_i t target own phase
  have pinned : pins (s.phase w) = some t := by rw [phase]; rfl
  have goes : s.status t ≠ .queued → Inv home (setPhase s w (.move t target own)) place := by
    intro other
    refine inv.rephase w _ (by rw [phase]; exact fun _ => Iff.rfl) nofun (fun u k b same => ?_) (.inr (.inl pinned.symm))
    cases same
    exact other
  -- a helper that stored waking itself finds it again
  have mine : s.status t ≠ .waking → ∀ u, ¬Holds (s.phase w) u := by
    intro other u held
    rw [phase] at held
    refine other (inv.waking (w := w) ?_)
    rw [phase]
    exact ⟨held.1,rfl⟩
  split at taken
  · cases taken
    exact ⟨_,goes (by simp [*])⟩
  · cases taken
    exact ⟨_,goes (by simp [*])⟩
  · cases taken
    exact ⟨_,goes (by simp [*])⟩
  next queued =>
    cases taken
    have none := mine (by simp [queued])
    have next := inv.rephase w (.rewake t) (fun u => iff_of_false id (none u)) nofun nofun (.inl rfl)
    have held := inv.facts.queued queued
    rw [(inv.facts.pinned w t pinned).1] at held
    have still : Still (setPhase s w (.rewake t)) t := inv.still pinned rfl nofun (by simp [held])
    have facts := next.facts.set .waiting target .nowhere ⟨by decide,by decide⟩ trivial (.inr still)
      (fun _ _ => .inr rfl) nofun nofun nofun
    exact ⟨_,(next.links.fromRun held).of rfl rfl rfl,facts.of rfl rfl rfl rfl⟩
  next notWaking _ =>
    cases taken
    exact ⟨_,inv.rephase w .idle (fun u => iff_of_false id (mine notWaking u)) nofun nofun (.inl rfl)⟩

lemma Inv.move (clear : ∀ t target own, s.phase w = .move t target own → s.status t = .waking → own = true)
    (taken : move s w = some s') : Inv home s' place := by
  unfold Scheduler.move at taken
  split at taken
  swap
  · cases taken
  rename_i t target own phase
  cases taken
  have pinned : pins (s.phase w) = some t := by rw [phase]; rfl
  have next := inv.rephase w (.recheck t own) (by rw [phase]; exact fun _ => Iff.rfl) nofun nofun (.inl rfl)
  have fits := inv.facts.fits t
  have held : place t = .nowhere ∨ place t = .wake w := by
    cases at' : place t <;> rw [at'] at fits
    case nowhere => exact .inl rfl
    case run => exact absurd fits (inv.facts.moving w t target own phase)
    all_goals
      right
      rw [← at']
      refine (inv.links.wake w t).mp ?_
      rw [phase]
      exact ⟨clear t target own phase fits,rfl⟩
  have still : Still (setPhase s w (.recheck t own)) t :=
    inv.still pinned rfl nofun fun w' other => by
      rcases held with held | held <;> rw [held]
      · exact nofun
      · exact fun same => other (wake.inj same).symm
  have on : (place t).On target := by rcases held with held | held <;> rw [held] <;> trivial
  have away := (inv.facts.pinned w t pinned).2.1
  have facts := next.facts.set (s.status t) target (place t) fits on (.inr still)
    (fun k current => absurd current (away k)) (fun runs => absurd (inv.facts.running t runs) (away _)) id
    (fun queued => absurd queued (inv.facts.moving w t target own phase))
  have status : update s.status t (s.status t) = s.status := update_eq_self ..
  rw [update_eq_self] at facts
  exact ⟨next.links.of rfl rfl rfl,facts.of status.symm rfl rfl rfl⟩

lemma Inv.recheck (clear : ∀ t own, s.phase w = .recheck t own → s.status t = .waking → own = true)
    (taken : recheck s w = some s') : ∃ place', Inv home s' place' := by
  unfold Scheduler.recheck at taken
  split at taken
  swap
  · cases taken
  rename_i t own phase
  split at taken
  swap
  next other =>
    cases taken
    refine ⟨_,inv.rephase w .idle (fun u => iff_of_false id fun held => other ?_) nofun nofun (.inl rfl)⟩
    rw [phase] at held
    refine inv.waking (w := w) ?_
    rw [phase]
    exact ⟨held.1,rfl⟩
  rename_i waking
  cases taken
  have held : place t = .wake w := by
    refine (inv.links.wake w t).mp ?_
    rw [phase]
    exact ⟨clear t own phase waking,rfl⟩
  have facts := inv.facts.setStatus (t := t) .waiting .nowhere ⟨by decide,by decide⟩ trivial
    (fun _ _ => .inr rfl) nofun nofun nofun
  exact ⟨_,(inv.links.fromWake (.rewake t) held fun _ => id).of rfl rfl rfl,
    facts.rephase w (.rewake t) nofun nofun (.inl rfl)⟩

end

lemma Facts.dispatch (facts : Facts home s place) (quiet : Quiet home s c)
    (held : place n = .run c) (stopped : s.status (s.current c) ≠ .running) :
    Facts home {s with status := update s.status n .running, current := update s.current c n}
      (update place n .nowhere) := by
  have here : s.cpu n = c := by
    have on := facts.on n
    rw [held] at on
    exact on
  have queued : s.status n = .queued := by
    have fits := facts.fits n
    rw [held] at fits
    exact fits
  constructor <;> simp only [update_apply]
  case fits => grind [facts.fits,Fits]
  case on => grind [facts.on,On]
  case aimed => exact facts.aimed
  case current => grind [facts.current]
  case currentOnce => grind [facts.currentOnce,facts.started]
  case started => grind [facts.started]
  case running => grind [facts.running]
  case pinned => grind [facts.pinned,Quiet]
  case moving => grind [facts.moving]
  case alone => exact facts.alone

lemma Facts.preempt (facts : Facts home s place) (quiet : Quiet home s c)
    (held : place n = .run c) (runs : s.status (s.current c) = .running) (other : n ≠ s.current c) :
    Facts home {s with
      status := update (update s.status (s.current c) .queued) n .running
      current := update s.current c n}
      (update (update place (s.current c) (.run c)) n .nowhere) := by
  have here := facts.settled (.inl (by rw [runs]; decide)) c rfl
  have out := facts.nowhere (by rw [runs]; decide)
  have stopped := facts.setStatus (t := s.current c) .waiting .nowhere ⟨by decide,by decide⟩ trivial
    (fun _ _ => .inr rfl) nofun nofun nofun
  rw [placeStays out] at stopped
  have switched := stopped.dispatch (c := c) (n := n) quiet held (by simp)
  have away : ∀ k, update s.current c n k ≠ s.current c := by
    intro k current
    by_cases same : k = c
    · subst k
      rw [update_self] at current
      exact other current
    rw [update_of_ne same] at current
    exact same (facts.currentOnce k c current)
  have queued := switched.setStatus (t := s.current c) .queued (.run c) rfl here
    (fun k current => absurd current (away k)) nofun nofun fun _ => ?_
  · have status : update (update (update s.status (s.current c) .waiting) n .running)
        (s.current c) .queued = update (update s.status (s.current c) .queued) n .running := by
      rw [update_comm other,update_idem]
    rw [update_comm other (.nowhere : Place C W) (.run c) place] at queued
    exact queued.of status.symm rfl rfl rfl
  refine ⟨away,fun w target own moving => ?_⟩
  have pinned := (facts.pinned w (s.current c) (by rw [show s.phase w = _ from moving]; rfl)).1
  have none := quiet w (pinned.symm.trans here)
  rw [show s.phase w = _ from moving] at none
  cases none

lemma Inv.switch (inv : Inv home s place) (quiet : Quiet home s c)
    (taken : switch s c n = some s') : ∃ place', Inv home s' place' := by
  obtain ⟨-,taken⟩ := ite_none_left_eq_some.mp taken
  obtain ⟨⟨-,inside,-,other⟩,taken⟩ := ite_none_right_eq_some.mp taken
  have held := (inv.links.run c n).mp inside
  cases taken
  by_cases runs : s.status (s.current c) = .running
  · have out := inv.facts.nowhere (by rw [runs]; decide)
    have links := (inv.links.toRun (c := c) out).fromRun (t := n) (c := c) (by rw [update_of_ne other]; exact held)
    refine ⟨_,links.of ?_ ?_ ?_,(inv.facts.preempt quiet held runs other).of ?_ ?_ ?_ ?_⟩ <;> simp only [runs,if_true] <;> rfl
  refine ⟨_,(inv.links.fromRun held).of ?_ ?_ ?_,(inv.facts.dispatch quiet held runs).of ?_ ?_ ?_ ?_⟩ <;>
    simp only [runs,if_false] <;> rfl

lemma Inv.step {act : Act T C W} (inv : Inv home s place) (allowed : Allowed home s act) (clear : Clear s act)
    (taken : step home s act = some s') : ∃ place', Inv home s' place' := by
  cases act with
  | prestart t => exact ⟨place,inv.transit taken (by decide) (by decide) (.inl (by decide)) (fun _ => .inl rfl) nofun⟩
  | early t => exact ⟨place,inv.transit taken (by decide) (by decide) (.inl (by decide)) (fun _ => .inr rfl) nofun⟩
  | start t c =>
    obtain ⟨here,taken⟩ := ite_none_right_eq_some.mp taken
    cases taken
    exact ⟨place,inv.start here⟩
  | prepareWait _ | complete _ | destroy _ | keepLock _ =>
    exact ⟨place,inv.transit taken (by decide) (by decide) (.inl (by decide)) nofun nofun⟩
  | stopWait c =>
    have here := allowed
    refine ⟨place,inv.transit taken (by decide) (by decide) (.inr ?_) nofun fun _ => by rw [here]⟩
    rintro ⟨k,current,away⟩
    exact away (here.trans (inv.facts.currentOnce c k current.symm))
  | wakeLock _ | unsafeStop _ => exact ⟨place,inv.transit taken (by decide) (by decide) (.inr clear) nofun nofun⟩
  | wake w t lock => exact inv.wake clear taken
  | discard w => exact ⟨place,inv.discard taken⟩
  | readCpu w => exact ⟨place,inv.readCpu taken⟩
  | push w => exact inv.push taken
  | mark w => exact ⟨place,inv.mark taken⟩
  | poll c =>
    obtain ⟨-,taken⟩ := ite_none_right_eq_some.mp taken
    cases taken
    exact ⟨place,inv.links.of rfl rfl rfl,inv.facts.of rfl rfl rfl rfl⟩
  | take c i => exact inv.take allowed taken
  | done c i =>
    change done s c i = some s' at taken
    unfold done at taken
    split at taken <;> cases taken
    exact ⟨place,inv.links.of rfl rfl rfl,inv.facts.of rfl rfl rfl rfl⟩
  | leave c =>
    obtain ⟨-,taken⟩ := ite_none_left_eq_some.mp taken
    cases taken
    exact ⟨place,inv.links.of rfl rfl rfl,inv.facts.of rfl rfl rfl rfl⟩
  | switch c n => exact inv.switch allowed.1 taken
  | migrate w t min => exact inv.migrate allowed taken
  | pinSelf c target => exact ⟨place,inv.pinSelf taken⟩
  | pin w t target => exact ⟨place,inv.pin allowed.1 allowed.2 clear taken⟩
  | pretend w => exact inv.pretend clear taken
  | choose w => exact inv.choose taken
  | move w => exact ⟨place,inv.move clear taken⟩
  | recheck w => exact inv.recheck clear taken

/-- Every CPU runs a thread of its own; the other threads are not started. -/
structure Start (s : State T C W) : Prop where
  runqueue : ∀ c, s.runqueue c = []
  incoming : ∀ c i, s.incoming c i = []
  phase : ∀ w, s.phase w = .idle
  current : ∀ c, s.cpu (s.current c) = c ∧ s.status (s.current c) = .running
  others : ∀ t, (∀ c, s.current c ≠ t) → s.status t = .unstarted ∨ s.status t = .prestarted

lemma Start.inv (start : Start s) : Inv home s fun _ => .nowhere := by
  have known : ∀ t, (∃ c, s.current c = t) ∨ s.status t = .unstarted ∨ s.status t = .prestarted := by
    intro t
    by_cases runs : ∃ c, s.current c = t
    · exact .inl runs
    · exact .inr (start.others t fun c same => runs ⟨c,same⟩)
  have idle := start.phase
  refine ⟨⟨?_,?_,?_,?_,?_⟩,?_⟩
  · simp [start.runqueue]
  · simp [start.incoming]
  · simp [idle,Holds]
  · simp [start.runqueue]
  · simp [start.incoming]
  constructor
  case fits =>
    intro t
    rcases known t with ⟨c,rfl⟩ | old | old
    · exact ⟨by simp [(start.current c).2],by simp [(start.current c).2]⟩
    · exact ⟨by simp [old],by simp [old]⟩
    · exact ⟨by simp [old],by simp [old]⟩
  case on => exact fun _ => trivial
  case aimed => simp [idle]
  case current => exact fun c => .inl (start.current c).1
  case currentOnce =>
    intro c c' same
    have here := (start.current c).1
    rw [same,(start.current c').1] at here
    exact here.symm
  case started => simp [fun c => (start.current c).2]
  case running =>
    intro t runs
    rcases known t with ⟨c,rfl⟩ | old | old
    · rw [(start.current c).1]
    · exact Status.noConfusion (runs.symm.trans old)
    · exact Status.noConfusion (runs.symm.trans old)
  case pinned => simp [idle,pins]
  case moving => simp [idle]
  case alone => simp [idle,pins]

def Reachable (home : W → C) : State T C W → Prop :=
  Runs.Reach (step home) (fun s act => Allowed home s act ∧ Clear s act) Start

/-- A thread is in one run queue or in one queue of incoming wakeups, and current on one CPU. It
is current and in a queue of incoming wakeups only there and when it was woken before it was
switched out. -/
structure Sound (s : State T C W) : Prop where
  runqueue : ∀ t c c', t ∈ s.runqueue c → t ∈ s.runqueue c' → c = c'
  incoming : ∀ t c i c' i', t ∈ s.incoming c i → t ∈ s.incoming c' i' → c = c' ∧ i = i'
  once : (∀ c, (s.runqueue c).Nodup) ∧ ∀ c i, (s.incoming c i).Nodup
  current : ∀ c c', s.current c = s.current c' → c = c'
  apart : ∀ t c, t ∈ s.runqueue c → (∀ c' i, t ∉ s.incoming c' i) ∧ ∀ c', s.current c' ≠ t
  woken : ∀ c c' i, s.current c ∈ s.incoming c' i → c' = c ∧ s.status (s.current c) = .waking
  queued : ∀ t, s.status t = .queued → t ∈ s.runqueue (s.cpu t)
  waking : ∀ t, s.status t = .waking → (∃ i, t ∈ s.incoming (s.cpu t) i) ∨
    ∃ w, Holds (s.phase w) t ∧ ∀ c, s.phase w = .aimed t c → s.cpu t = c

lemma Inv.sound (inv : Inv home s place) : Sound s where
  runqueue t c c' first second := by
    rw [inv.links.run] at first second
    exact run.inj (first.symm.trans second)
  incoming t c i c' i' first second := by
    rw [inv.links.inc] at first second
    exact inc.inj (first.symm.trans second)
  once := ⟨inv.links.runOnce,inv.links.incOnce⟩
  current := inv.facts.currentOnce
  apart t c inside := by
    have held := (inv.links.run c t).mp inside
    have fits := inv.facts.fits t
    rw [held] at fits
    refine ⟨fun c' i other => ?_,fun c' runs => ?_⟩
    · rw [inv.links.inc,held] at other
      cases other
    · exact (inv.facts.started c').2.2 (runs ▸ fits)
  woken c c' i inside := by
    have held := (inv.links.inc c' i _).mp inside
    have fits := inv.facts.fits (s.current c)
    have on := inv.facts.on (s.current c)
    rw [held] at fits on
    have here := inv.facts.settled (.inl (by rw [show s.status (s.current c) = _ from fits]; decide)) c rfl
    exact ⟨on.symm.trans here,fits⟩
  queued t status := (inv.links.run _ t).mpr (inv.facts.queued status)
  waking t status := by
    have fits := inv.facts.fits t
    have on := inv.facts.on t
    rw [status] at fits
    cases at' : place t <;> rw [at'] at fits on
    case nowhere => exact absurd rfl fits.2
    case run => exact Status.noConfusion fits
    case inc c i =>
      refine .inl ⟨i,(inv.links.inc _ i t).mpr ?_⟩
      rw [at',show s.cpu t = c from on]
    case wake w => exact .inr ⟨w,(inv.links.wake w t).mpr at',fun c => inv.facts.aimed w t c⟩

theorem threadsPlaced (reach : Reachable home s) : Sound s := by
  obtain ⟨place,inv⟩ : ∃ place, Inv home s place := by
    refine @invariant _ _ _ _ _ (fun s => ∃ place, Inv home s place) (fun s start => ⟨_,start.inv⟩) ?_ s reach
    rintro s act s' ⟨place,inv⟩ ⟨allowed,clear⟩ taken
    exact inv.step allowed clear taken
  exact inv.sound

end

instance (s : State (Fin 3) (Fin 2) (Fin 2)) (act : Act (Fin 3) (Fin 2) (Fin 2)) :
    Decidable (Allowed id s act ∧ Clear s act) := by
  cases act <;> unfold Allowed Clear <;> unfold Quiet Handled Leaving <;> infer_instance

def twoCpus : State (Fin 3) (Fin 2) (Fin 2) where
  status t := if t = 2 then .unstarted else .running
  cpu t := if t = 1 then 1 else 0
  current c := if c = 1 then 1 else 0
  runqueue _ := []
  incoming _ _ := []
  mask _ _ := false
  work _ := none
  phase _ := .idle

lemma twoCpusStart : Start twoCpus := by
  constructor <;> decide

def pinRun : List (Act (Fin 3) (Fin 2) (Fin 2)) :=
  [.start 2 0,.wake 1 2 false,.readCpu 1,.push 1,.mark 1,.poll 0,.take 0 1,.done 0 1,.leave 0,
    .pin 0 2 1,.choose 0,.wake 0 2 false,.readCpu 0,.push 0]

lemma pinReachable : Reachable id (final (step id) (fun s act => Allowed id s act ∧ Clear s act) twoCpus pinRun) :=
  reachFinal pinRun twoCpusStart (by decide)

theorem threadsPlacedPinned :
    let s := Runs.final (step id) (fun s act => Allowed id s act ∧ Clear s act) twoCpus pinRun
    s.cpu 2 = 1 ∧ s.status 2 = .waking ∧ 2 ∈ s.incoming 1 0 ∧ Sound s :=
  ⟨by decide,by decide,by decide,threadsPlaced pinReachable⟩

def wokenRun : List (Act (Fin 3) (Fin 2) (Fin 2)) := [.prepareWait 0,.wake 1 0 false,.readCpu 1,.push 1]

theorem currentAndIncoming :
    let s := Runs.final (step id) (fun s act => Allowed id s act ∧ Clear s act) twoCpus wokenRun
    Reachable id s ∧ s.current 0 = 0 ∧ 0 ∈ s.incoming 0 1 :=
  ⟨reachFinal wokenRun twoCpusStart (by decide),by decide,by decide⟩

end OsvKernel.Scheduler
