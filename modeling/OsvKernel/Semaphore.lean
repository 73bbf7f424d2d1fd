import OsvKernel.Runs

/-! The counting semaphore of core/semaphore.cc. Every operation runs under _mtx; a thread
that blocks in wait() has one wait_record, named by the thread. -/
namespace OsvKernel.Semaphore
open List Function Option Nat Runs

/-- _val, _waiters and the wait records. inside: the thread is blocked in wait(). The rest
is history: the result of a thread's last call and the units it was given, and the totals. -/
structure State (T : Type) where
  val : Nat
  waiters : List T
  owner : T → Bool
  units : T → Nat
  tmr : T → Bool
  inside : T → Bool
  result : T → Option Bool
  took : T → Nat
  posted : Nat
  granted : Nat

inductive Op (T : Type) where
  | post (units : Nat)
  | wait (t : T) (units : Nat) (tmr : Bool)
  | resume (t : T) (expired : Bool)
  | trywait (t : T) (units : Nat)

def State.new (T : Type) (val : Nat) : State T where
  val := val
  waiters := []
  owner _ := false
  units _ := 0
  tmr _ := false
  inside _ := false
  result _ := none
  took _ := 0
  posted := 0
  granted := 0

section
variable {T : Type} [DecidableEq T]

def State.grant (s : State T) (t : T) (units : Nat) : State T :=
  {s with
    val := s.val - units
    took := update s.took t units
    granted := s.granted + units}

def State.begin (s : State T) (t : T) : State T :=
  {s with took := update s.took t 0, result := update s.result t none}

def State.finish (s : State T) (t : T) (ok : Bool) : State T :=
  {s with inside := update s.inside t false, result := update s.result t (some ok)}

def State.hand (s : State T) (wr : T) : State T :=
  {s.grant wr (s.units wr) with
    owner := update s.owner wr false
    waiters := s.waiters.erase wr}

def pass (s : State T) : List T → State T
  | [] => s
  | wr::rest =>
    if 0 < s.val then
      if s.units wr ≤ s.val then pass (s.hand wr) rest else pass s rest
    else s

def postUnlocked (s : State T) (units : Nat) : State T :=
  pass {s with val := (s.val + units) % 2^32, posted := s.posted + units} s.waiters

def wait (s : State T) (t : T) (units : Nat) (tmr : Bool) : State T × Option Bool :=
  if units ≤ s.val then (((s.begin t).grant t units).finish t true,some true)
  else
    ({s.begin t with
      owner := update s.owner t true
      units := update s.units t units
      tmr := update s.tmr t tmr
      inside := update s.inside t true
      waiters := s.waiters ++ [t]},none)

def resume (s : State T) (t : T) (expired : Bool) : State T :=
  if s.tmr t && expired || !s.owner t then
    if s.owner t then {s.finish t false with waiters := s.waiters.erase t} else s.finish t true
  else s

def trywait (s : State T) (t : T) (units : Nat) : State T × Bool :=
  if units < s.val then (((s.begin t).grant t units).finish t true,true)
  else ((s.begin t).finish t false,false)

def step (s : State T) : Op T → Option (State T)
  | .post units => some (postUnlocked s units)
  | .wait t units tmr => some (wait s t units tmr).1
  | .resume t expired => some (resume s t expired)
  | .trywait t units => some (trywait s t units).1

/-- The counter does not overflow, and a thread is in one call at a time. -/
def Allowed (s : State T) : Op T → Prop
  | .post units => s.val + units < 2^32
  | .wait t _ _ => s.inside t = false
  | .resume t _ => s.inside t = true
  | .trywait t _ => s.inside t = false

def Reachable (val : Nat) (s : State T) : Prop := Runs.Reach step Allowed (fun s => s = State.new T val) s

instance (s : State T) (op : Op T) : Decidable (Allowed s op) := by
  cases op <;> unfold Allowed <;> infer_instance

structure Passing (val : Nat) (s : State T) (rest : List T) : Prop where
  conserved : val + s.posted = s.val + s.granted
  nodup : s.waiters.Nodup
  ahead : rest.Nodup
  among : ∀ t ∈ rest, t ∈ s.waiters
  large : ∀ t ∈ s.waiters, t ∉ rest → s.val < s.units t
  positive : ∀ t ∈ s.waiters, 0 < s.units t
  queued : ∀ t, t ∈ s.waiters ↔ s.inside t = true ∧ s.owner t = true
  running : ∀ t, s.inside t = true → s.result t = none
  nothing : ∀ t ∈ s.waiters, s.took t = 0
  timedOut : ∀ t, s.result t = some false → s.took t = 0

variable {rest : List T} {s : State T} {val units : Nat} {wr t : T}

open State

lemma Passing.skip (inv : Passing val s (wr::rest)) (more : s.val < s.units wr) : Passing val s rest where
  __ := inv
  ahead := (nodup_cons.mp inv.ahead).2
  among t mem := inv.among t (.tail _ mem)
  large t mem off := by
    by_cases here : t = wr
    · exact here ▸ more
    · exact inv.large t mem (by simp [here,off])

lemma Passing.hand (inv : Passing val s (wr::rest)) (fits : s.units wr ≤ s.val) : Passing val (s.hand wr) rest := by
  obtain ⟨fresh,ahead⟩ := nodup_cons.mp inv.ahead
  have here : wr ∈ s.waiters := inv.among wr (.head _)
  have left : ∀ t, t ∈ (s.hand wr).waiters ↔ t ≠ wr ∧ t ∈ s.waiters := fun t => inv.nodup.mem_erase_iff
  refine
    { conserved := ?_, nodup := inv.nodup.erase wr, ahead := ahead, among := ?_, large := ?_, positive := ?_,
      queued := ?_, running := inv.running, nothing := ?_, timedOut := ?_ }
  · have before := inv.conserved
    change val + s.posted = (s.val - s.units wr) + (s.granted + s.units wr)
    omega
  · intro t mem
    exact (left t).mpr ⟨fun same => fresh (same ▸ mem),inv.among t (.tail _ mem)⟩
  · intro t mem off
    obtain ⟨ne,mem⟩ := (left t).mp mem
    have before := inv.large t mem (by simp [ne,off])
    exact Nat.lt_of_le_of_lt (Nat.sub_le ..) before
  · intro t mem
    exact inv.positive t ((left t).mp mem).2
  · intro t
    rw [left t,inv.queued t]
    by_cases same : t = wr
    · simp [same,State.hand]
    · simp [same,State.hand,State.grant]
  · intro t mem
    obtain ⟨ne,mem⟩ := (left t).mp mem
    exact (update_of_ne ne _ _).trans (inv.nothing t mem)
  intro t out
  have ne : t ≠ wr := by
    rintro rfl
    have none := inv.running t ((inv.queued t).mp here).1
    cases none.symm.trans out
  exact (update_of_ne ne _ _).trans (inv.timedOut t out)

omit [DecidableEq T] in
lemma Passing.stop (inv : Passing val s rest) (zero : s.val = 0) : Passing val s [] where
  __ := inv
  ahead := nodup_nil
  among t mem := by cases mem
  large t mem _ := zero ▸ inv.positive t mem

lemma passInv (inv : Passing val s rest) : Passing val (pass s rest) [] := by
  induction rest generalizing s with
  | nil => exact inv
  | cons wr rest ih => ?_
  rw [pass]
  split
  · split
    next fits => exact ih (inv.hand fits)
    next more => exact ih (inv.skip (Nat.lt_of_not_le more))
  next none => exact inv.stop (Nat.eq_zero_of_not_pos none)

lemma postInv (inv : Passing val s []) (room : s.val + units < 2^32) : Passing val (postUnlocked s units) [] := by
  refine passInv
    { inv with conserved := ?_, ahead := inv.nodup, among := fun t mem => mem, large := fun t mem off => absurd mem off }
  have before := inv.conserved
  change val + (s.posted + units) = (s.val + units) % 2^32 + s.granted
  omega

omit [DecidableEq T] in
lemma outside {u : T} (inv : Passing val s rest)
    (out : s.inside t = false) (mem : u ∈ s.waiters) : u ≠ t := by
  rintro rfl
  simp [((inv.queued u).mp mem).1] at out

lemma takeInv {val : Nat} {s : State T} {t : T} {units : Nat} {ok : Bool} (inv : Passing val s [])
    (out : s.inside t = false) (fits : units ≤ s.val) (honest : ok = false → units = 0) :
    Passing val (((s.begin t).grant t units).finish t ok) [] := by
  refine
    { conserved := ?_, nodup := inv.nodup, ahead := inv.ahead, among := inv.among, large := ?_, positive := inv.positive,
      queued := ?_, running := ?_, nothing := ?_, timedOut := ?_ }
  · have before := inv.conserved
    change val + s.posted = (s.val - units) + (s.granted + units)
    omega
  · intro u mem off
    exact Nat.lt_of_le_of_lt (Nat.sub_le ..) (inv.large u mem off)
  · intro u
    by_cases same : u = t
    · have off : u ∉ s.waiters := fun mem => outside inv out mem same
      simp [finish,grant,begin,same ▸ off,same]
    · simpa [finish,grant,begin,same] using inv.queued u
  · intro u
    by_cases same : u = t
    · simp [finish,same]
    · simpa [finish,grant,begin,same] using inv.running u
  · intro u mem
    have ne := outside inv out mem
    simpa [finish,grant,begin,ne] using inv.nothing u mem
  intro u
  by_cases same : u = t
  · simpa [finish,grant,begin,same] using honest
  · simpa [finish,grant,begin,same] using inv.timedOut u

lemma waitInv {val : Nat} {s : State T} {t : T} {units : Nat} {tmr : Bool} (inv : Passing val s [])
    (out : s.inside t = false) : Passing val (wait s t units tmr).1 [] := by
  rw [wait]
  split
  next fits => exact takeInv inv out fits (by simp)
  rename_i more
  refine
    { conserved := inv.conserved, nodup := ?_, ahead := inv.ahead, among := by simp, large := ?_, positive := ?_,
      queued := ?_, running := ?_, nothing := ?_, timedOut := ?_ }
  · refine List.Nodup.append inv.nodup (nodup_singleton t) (disjoint_singleton.mpr fun mem => ?_)
    exact outside inv out mem rfl
  · intro u mem _
    rcases mem_append.mp mem with old | new
    · have ne := outside inv out old
      simpa [begin,ne] using inv.large u old (by simp)
    have same := mem_singleton.mp new
    simpa [begin,same] using more
  · intro u mem
    rcases mem_append.mp mem with old | new
    · have ne := outside inv out old
      simpa [begin,ne] using inv.positive u old
    have same := mem_singleton.mp new
    have asked : 0 < units := by omega
    simpa [begin,same] using asked
  · intro u
    by_cases same : u = t
    · simp [same]
    · simpa [begin,same] using inv.queued u
  · intro u
    by_cases same : u = t
    · simp [begin,same]
    · simpa [begin,same] using inv.running u
  · intro u mem
    by_cases same : u = t
    · simp [begin,same]
    have old : u ∈ s.waiters := by simpa [same] using mem
    simpa [begin,same] using inv.nothing u old
  intro u
  by_cases same : u = t
  · simp [begin,same]
  · simpa [begin,same] using inv.timedOut u

lemma resumeInv {expired : Bool} (inv : Passing val s [])
    (inside : s.inside t = true) : Passing val (resume s t expired) [] := by
  rw [resume]
  split
  swap
  · exact inv
  cases owner : s.owner t
  case false =>
    refine { inv with queued := ?_, running := ?_, timedOut := ?_ }
    · intro u
      by_cases same : u = t
      · have off : u ∉ s.waiters := fun mem => by simp [same ▸ ((inv.queued u).mp mem).2] at owner
        simp [finish,same ▸ off,same]
      · simpa [finish,same] using inv.queued u
    · intro u
      by_cases same : u = t
      · simp [finish,same]
      · simpa [finish,same] using inv.running u
    intro u
    by_cases same : u = t
    · simp [finish,same]
    · simpa [finish,same] using inv.timedOut u
  have here : t ∈ s.waiters := (inv.queued t).mpr ⟨inside,owner⟩
  have left : ∀ u, u ∈ s.waiters.erase t ↔ u ≠ t ∧ u ∈ s.waiters := fun u => inv.nodup.mem_erase_iff
  simp only [if_true]
  refine
    { conserved := inv.conserved, nodup := inv.nodup.erase t, ahead := inv.ahead, among := by simp,
      large := fun u mem => inv.large u ((left u).mp mem).2, positive := fun u mem => inv.positive u ((left u).mp mem).2,
      queued := ?_, running := ?_, nothing := fun u mem => inv.nothing u ((left u).mp mem).2, timedOut := ?_ }
  · intro u
    rw [left u,inv.queued u]
    by_cases same : u = t
    · simp [finish,same]
    · simp [finish,same]
  · intro u
    by_cases same : u = t
    · simp [finish,same]
    · simpa [finish,same] using inv.running u
  intro u
  by_cases same : u = t
  · exact fun _ => same ▸ inv.nothing t here
  · simpa [finish,same] using inv.timedOut u

lemma trywaitInv (inv : Passing val s []) (out : s.inside t = false) : Passing val (trywait s t units).1 [] := by
  rw [trywait]
  split
  next less => exact takeInv inv out (Nat.le_of_lt less) (by simp)
  have none := @takeInv T _ val s t 0 false inv out (zero_le _) fun _ => rfl
  have same : (s.begin t).grant t 0 = s.begin t := by simp [grant,begin]
  rwa [same] at none

lemma stepInv {s' : State T} {op : Op T} (inv : Passing val s []) (allowed : Allowed s op)
    (taken : step s op = some s') : Passing val s' [] := by
  cases op with
  | post units => exact some.inj taken ▸ postInv inv allowed
  | wait t units tmr => exact some.inj taken ▸ waitInv inv allowed
  | resume t expired => exact some.inj taken ▸ resumeInv inv allowed
  | trywait t units => exact some.inj taken ▸ trywaitInv inv allowed

lemma reachableInv (reach : Reachable val s) : Passing val s [] := by
  refine invariant ?_ (fun s op s' inv allowed taken => stepInv inv allowed taken) reach
  rintro s rfl
  exact ⟨rfl,nodup_nil,nodup_nil,by simp,by simp [new],by simp [new],by simp [new],
    by simp [new],by simp [new],by simp [new]⟩

lemma trywaitAgrees (s : State T) (t : T) (units : Nat) :
    ((trywait s t units).2 = true ↔ units ≤ s.val) ↔ units ≠ s.val := by
  rw [trywait]
  split
  next less => simp [Nat.le_of_lt less,Nat.ne_of_lt less]
  simp
  omega

theorem unitsConserved {val : Nat} {s : State T} (reach : Reachable val s) :
    val + s.posted = s.val + s.granted ∧ (∀ t ∈ s.waiters, s.val < s.units t) ∧
      (∀ t, s.result t = some false → s.took t = 0) ∧
      (∀ t units tmr, (wait s t units tmr).2 = some true ↔ units ≤ s.val) ∧
      ∀ t units, ((trywait s t units).2 = true ↔ units ≤ s.val) ↔ units ≠ s.val := by
  have inv := reachableInv reach
  refine ⟨inv.conserved,fun t mem => inv.large t mem (by simp),inv.timedOut,fun t units tmr => ?_,trywaitAgrees s⟩
  rw [wait]
  split
  next fits => simpa using fits
  next more => simpa using more

end

def servedRun : List (Op Nat) := [.wait 0 3 true,.wait 1 2 false,.post 1,.post 1,.resume 0 true,.resume 1 false]

lemma servedReachable : Reachable 0 (final step Allowed (State.new Nat 0) servedRun) :=
  reachFinal servedRun rfl rfl

theorem unitsConservedServed :
    let s := final step Allowed (State.new Nat 0) servedRun
    s.result 0 = some false ∧ s.result 1 = some true ∧ s.took 0 = 0 ∧ 0 + s.posted = s.val + s.granted := by
  obtain ⟨conserved,-,timedOut,-⟩ := unitsConserved servedReachable
  exact ⟨rfl,rfl,timedOut 0 rfl,conserved⟩

theorem trywaitRefusesLastUnit :
    Reachable 1 (State.new Nat 1) ∧ 1 ≤ (State.new Nat 1).val ∧ (trywait (State.new Nat 1) 0 1).2 = false ∧
      (wait (State.new Nat 1) 0 1 false).2 = some true :=
  ⟨.init rfl,by decide,rfl,rfl⟩

end OsvKernel.Semaphore
