import OsvKernel.Runs
import OsvKernel.Threads

/-! The read-write lock of core/rwlock.cc. A section under _mtx is one step. A thread that
waits is in one of the two wait queues until a wake-up takes it out; then it has still to
get _mtx and test the lock again. -/
namespace OsvKernel.RwLock
open List Function Option Runs

/-- Where a thread is: outside, between the two halves of downgrade(), in a wait queue, or
taken out of it and before the next test. -/
inductive Pc where
  | idle
  | downgraded
  | readWait
  | readWoken
  | writeWait
  | writeWoken
  deriving DecidableEq

/-- The lock, where the threads are and how many read and write locks each one holds. -/
structure State (T : Type) where
  readers : Nat
  wowner : Option T
  wrecurse : Nat
  readWaiters : List T
  writeWaiters : List T
  pc : T → Pc
  reads : T → Nat
  writes : T → Nat
  failed : Bool

inductive Op (T : Type) where
  | rlock (t : T)
  | tryRlock (t : T)
  | runlock (t : T)
  | tryUpgrade (t : T)
  | wlock (t : T)
  | tryWlock (t : T)
  | wunlock (t : T)
  | downgrade (t : T)
  | retest (t : T)

def initial (T : Type) : State T where
  readers := 0
  wowner := none
  wrecurse := 0
  readWaiters := []
  writeWaiters := []
  pc _ := .idle
  reads _ := 0
  writes _ := 0
  failed := false

section
variable {T : Type} [DecidableEq T]

def readLockable (s : State T) : Bool := s.wowner.isNone && s.writeWaiters.isEmpty
def writeLockable (s : State T) (t : T) : Bool := s.wowner = some t || (s.readers = 0 && s.wowner.isNone)
def State.crash (s : State T) : State T := {s with failed := true}

def takeRead (s : State T) (t : T) : State T :=
  {s with
    readers := (s.readers + 1) % 2^32
    reads := update s.reads t (s.reads t + 1)
    pc := update s.pc t .idle}

def takeWrite (s : State T) (t : T) : State T :=
  {s with
    wrecurse := if s.wowner = some t then (s.wrecurse + 1) % 2^32 else s.wrecurse
    wowner := some t
    writes := update s.writes t (s.writes t + 1)
    pc := update s.pc t .idle}

def testRead (s : State T) (t : T) : State T :=
  if readLockable s then takeRead s t
  else {s with readWaiters := s.readWaiters ++ [t], pc := update s.pc t .readWait}

def testWrite (s : State T) (t : T) : State T :=
  if writeLockable s t then takeWrite s t
  else {s with writeWaiters := s.writeWaiters ++ [t], pc := update s.pc t .writeWait}

def tryRlock (s : State T) (t : T) : State T × Bool :=
  if readLockable s then (takeRead s t,true) else (s,false)

def tryWlock (s : State T) (t : T) : State T × Bool :=
  if writeLockable s t then (takeWrite s t,true) else (s,false)

def wakeWriter (s : State T) : State T :=
  match s.writeWaiters with
  | [] => s
  | w::rest => {s with writeWaiters := rest, pc := update s.pc w .writeWoken}

def wakeReaders (s : State T) : State T :=
  {s with readWaiters := [], pc := fun t => if t ∈ s.readWaiters then .readWoken else s.pc t}

def runlock (s : State T) (t : T) : State T :=
  if s.wowner.isSome || s.readers = 0 then s.crash
  else
    let s := {s with readers := s.readers - 1, reads := update s.reads t (s.reads t - 1)}
    if s.readers = 0 then wakeWriter s else s

def tryUpgrade (s : State T) (t : T) : State T × Bool :=
  if s.readers = 1 && s.writeWaiters.isEmpty then
    if s.wowner.isSome then (s.crash,false)
    else
      ({s with
        readers := 0
        wowner := some t
        reads := update s.reads t (s.reads t - 1)
        writes := update s.writes t (s.writes t + 1)},true)
  else (s,false)

def dropWrite (s : State T) (t : T) : State T :=
  {s with
    wrecurse := if 0 < s.wrecurse then s.wrecurse - 1 else s.wrecurse
    wowner := if 0 < s.wrecurse then s.wowner else none
    writes := update s.writes t (s.writes t - 1)}

def wunlock (s : State T) (t : T) : State T :=
  if s.wowner ≠ some t then s.crash
  else
    let s := dropWrite s t
    if s.writeWaiters = [] then wakeReaders s else wakeWriter s

def unwind (t : T) : Nat → State T → Option (State T)
  | 0,_ => none
  | n+1,s => if s.wrecurse ≠ 0 then unwind t n (wunlock s t) else some (wunlock s t)

def downgrade (s : State T) (t : T) : Option (State T) :=
  if s.wowner ≠ some t then some s.crash
  else (unwind t (s.wrecurse + 1) s).map fun s => {s with pc := update s.pc t .downgraded}

def perform (s : State T) : Op T → Option (State T)
  | .rlock t => if s.pc t = .idle ∨ s.pc t = .downgraded then some (testRead s t) else none
  | .tryRlock t => if s.pc t = .idle then some (tryRlock s t).1 else none
  | .runlock t => if s.pc t = .idle then some (runlock s t) else none
  | .tryUpgrade t => if s.pc t = .idle then some (tryUpgrade s t).1 else none
  | .wlock t => if s.pc t = .idle then some (testWrite s t) else none
  | .tryWlock t => if s.pc t = .idle then some (tryWlock s t).1 else none
  | .wunlock t => if s.pc t = .idle then some (wunlock s t) else none
  | .downgrade t => if s.pc t = .idle then downgrade s t else none
  | .retest t =>
    if s.pc t = .readWoken then some (testRead s t)
    else if s.pc t = .writeWoken then some (testWrite s t)
    else none

def step (s : State T) (op : Op T) : Option (State T) := if s.failed then none else perform s op

/-- A thread gives back only what it holds. -/
def Allowed (s : State T) : Op T → Prop
  | .runlock t => 0 < s.reads t
  | .tryUpgrade t => 0 < s.reads t
  | .wunlock t => 0 < s.writes t
  | .downgrade t => 0 < s.writes t
  | _ => True

instance (s : State T) (op : Op T) : Decidable (Allowed s op) := by
  cases op <;> unfold Allowed <;> infer_instance

variable [Fintype T]

def Counted (s : State T) : Prop := total s.reads < 2^32 ∧ ∀ t, s.writes t ≤ 2^32
  deriving Decidable

def Counting (s : State T) (op : Op T) : Prop := Allowed s op ∧ ∀ s' ∈ step s op, Counted s'
  deriving Decidable

def Reachable (s : State T) : Prop := Runs.Reach step Counting (fun s => s = initial T) s

/-! The counters. -/

structure Counters (s : State T) : Prop where
  readers : s.readers = total s.reads
  fits : s.readers < 2^32
  exclusive : s.wowner ≠ none → s.readers = 0
  owner : ∀ t, s.wowner = some t → s.writes t = s.wrecurse + 1
  others : ∀ t, s.wowner ≠ some t → s.writes t = 0
  free : s.wowner = none → s.wrecurse = 0

/-! The queues. A free lock that a writer waits for, and a lock without owner that a reader
waits for, have a writer on its way. -/

structure Queues (s : State T) : Prop where
  readNodup : s.readWaiters.Nodup
  writeNodup : s.writeWaiters.Nodup
  readers : ∀ t, t ∈ s.readWaiters ↔ s.pc t = .readWait
  writers : ∀ t, t ∈ s.writeWaiters ↔ s.pc t = .writeWait
  writeWoken : s.wowner = none → s.readers = 0 → s.writeWaiters ≠ [] → ∃ t, s.pc t = .writeWoken
  readWoken : s.wowner = none → s.readWaiters ≠ [] → s.writeWaiters ≠ [] ∨ ∃ t, s.pc t = .writeWoken

/-- What the owner excludes, what it has nested, and that no waiter of a free lock is left. -/
structure Sound (s : State T) : Prop where
  fine : s.failed = false
  owned : ∀ t, 0 < s.writes t → s.wowner = some t
  excludes : ∀ t, s.wowner = some t → (∀ u, s.reads u = 0) ∧ ∀ u, u ≠ t → s.writes u = 0
  nested : ∀ t, s.wowner = some t → s.wrecurse + 1 = s.writes t
  onTheWay : s.readers = 0 → s.wowner = none → (s.readWaiters ≠ [] ∨ s.writeWaiters ≠ []) →
    ∃ t, s.pc t = .readWoken ∨ s.pc t = .writeWoken

structure Inv (s : State T) : Prop where
  fine : s.failed = false
  counters : Counters s
  queues : Queues s

/-! A wait queue has the threads at one place. -/

def Lists (pc : T → Pc) (wait : Pc) (l : List T) : Prop := ∀ t, t ∈ l ↔ pc t = wait

section
omit [Fintype T]
variable {pc : T → Pc} {wait p : Pc} {l : List T} {t : T}

lemma Lists.keep (lists : Lists pc wait l) (before : pc t ≠ wait) (after : p ≠ wait) : Lists (update pc t p) wait l := by
  intro u
  by_cases same : u = t
  · subst same
    simp [after,lists u,before]
  rw [update_of_ne same]
  exact lists u

lemma Lists.append (lists : Lists pc wait l) : Lists (update pc t wait) wait (l ++ [t]) := by
  intro u
  by_cases same : u = t
  · simp [same]
  · simp [same,lists u]

lemma Lists.drop (lists : Lists pc wait (t::l)) (nodup : (t::l).Nodup) (after : p ≠ wait) :
    Lists (update pc t p) wait l := by
  intro u
  by_cases same : u = t
  · subst same
    simp [after,(nodup_cons.mp nodup).1]
  rw [update_of_ne same,← lists u]
  simp [same]

omit [DecidableEq T] in
lemma appendNodup (lists : Lists pc wait l) (nodup : l.Nodup) (out : pc t ≠ wait) : (l ++ [t]).Nodup :=
  List.Nodup.append nodup (nodup_singleton t) (disjoint_singleton.mpr fun mem => out ((lists t).mp mem))

end

variable {s : State T} {t : T}

omit [Fintype T] in
lemma stillWoken {p : Pc} (elsewhere : s.pc t ≠ .writeWoken) (woken : ∃ u, s.pc u = .writeWoken) :
    ∃ u, update s.pc t p u = .writeWoken := by
  obtain ⟨u,woken⟩ := woken
  have ne : u ≠ t := fun same => elsewhere (same ▸ woken)
  exact ⟨u,by rwa [update_of_ne ne]⟩

/-! Taking the lock. -/

lemma takeReadInv (inv : Inv s) (lockable : readLockable s = true) (read : s.pc t ≠ .readWait)
    (write : s.pc t ≠ .writeWait) (woken : s.pc t ≠ .writeWoken) (counted : Counted (takeRead s t)) :
    Inv (takeRead s t) := by
  obtain ⟨none,empty⟩ : s.wowner = none ∧ s.writeWaiters = [] := by simpa [readLockable] using lockable
  have more := totalUpdate s.reads t (s.reads t + 1)
  have counters := inv.counters
  have queues := inv.queues
  have below : total (update s.reads t (s.reads t + 1)) < 2^32 := counted.1
  have readers := counters.readers
  have next : (s.readers + 1) % 2^32 = total (update s.reads t (s.reads t + 1)) := by rw [Nat.mod_eq_of_lt] <;> omega
  refine ⟨inv.fine,⟨next,Nat.mod_lt _ (by decide),fun some => absurd none some,counters.owner,counters.others,counters.free⟩,
    ⟨queues.readNodup,queues.writeNodup,Lists.keep queues.readers read nofun,Lists.keep queues.writers write nofun,
      fun _ _ some => absurd empty some,fun _ some => ?_⟩⟩
  rcases queues.readWoken none some with waits | coming
  · exact absurd empty waits
  exact .inr (stillWoken woken coming)

lemma takeWriteInv (inv : Inv s) (lockable : writeLockable s t = true) (read : s.pc t ≠ .readWait)
    (write : s.pc t ≠ .writeWait) (counted : Counted (takeWrite s t)) : Inv (takeWrite s t) := by
  have counters := inv.counters
  have queues := inv.queues
  have below : update s.writes t (s.writes t + 1) t ≤ 2^32 := counted.2 t
  rw [update_self] at below
  have cases : s.wowner = some t ∨ (s.readers = 0 ∧ s.wowner = none) := by simpa [writeLockable] using lockable
  have zero : s.readers = 0 := by
    rcases cases with mine | free
    · exact counters.exclusive (by simp [mine])
    · exact free.1
  refine ⟨inv.fine,⟨counters.readers,counters.fits,fun _ => zero,fun u mine => ?_,fun u other => ?_,nofun⟩,
    ⟨queues.readNodup,queues.writeNodup,Lists.keep queues.readers read nofun,Lists.keep queues.writers write nofun,nofun,nofun⟩⟩
  · obtain rfl := some.inj mine
    change update s.writes t (s.writes t + 1) t = (if s.wowner = some t then _ else _) + 1
    rw [update_self]
    rcases cases with mine | ⟨-,none⟩
    · have nested := counters.owner t mine
      rw [if_pos mine,Nat.mod_eq_of_lt] <;> omega
    have nested := counters.others t (by simp [none])
    have fresh := counters.free none
    rw [if_neg (by simp [none])]
    omega
  have ne : u ≠ t := fun same => other (same ▸ rfl)
  change update s.writes t (s.writes t + 1) u = 0
  rw [update_of_ne ne]
  refine counters.others u fun theirs => ?_
  rcases cases with mine | ⟨-,none⟩
  · exact ne (some.inj (theirs.symm.trans mine))
  · cases theirs.symm.trans none

lemma testReadInv (inv : Inv s) (read : s.pc t ≠ .readWait) (write : s.pc t ≠ .writeWait)
    (woken : s.pc t ≠ .writeWoken) (counted : Counted (testRead s t)) : Inv (testRead s t) := by
  have queues := inv.queues
  rw [testRead] at counted ⊢
  cases lockable : readLockable s
  case true =>
    rw [lockable,if_pos rfl] at counted
    exact takeReadInv inv lockable read write woken counted
  refine ⟨inv.fine,{ inv.counters with },
    ⟨appendNodup queues.readers queues.readNodup read,queues.writeNodup,Lists.append queues.readers,
      Lists.keep queues.writers write nofun,fun free zero some => stillWoken woken (queues.writeWoken free zero some),
      fun free _ => .inl fun empty => ?_⟩⟩
  have free : s.wowner = none := free
  have empty : s.writeWaiters = [] := empty
  simp [readLockable,free,empty] at lockable

lemma testWriteInv (inv : Inv s) (read : s.pc t ≠ .readWait) (write : s.pc t ≠ .writeWait)
    (counted : Counted (testWrite s t)) : Inv (testWrite s t) := by
  have queues := inv.queues
  rw [testWrite] at counted ⊢
  cases lockable : writeLockable s t
  case true =>
    rw [lockable,if_pos rfl] at counted
    exact takeWriteInv inv lockable read write counted
  refine ⟨inv.fine,{ inv.counters with },
    ⟨queues.readNodup,appendNodup queues.writers queues.writeNodup write,Lists.keep queues.readers read nofun,
      Lists.append queues.writers,fun free zero _ => ?_,fun _ _ => .inl (by simp)⟩⟩
  have free : s.wowner = none := free
  have zero : s.readers = 0 := zero
  simp [writeLockable,free,zero] at lockable

/-! Giving the lock back. -/

lemma wakeWriterInv (fine : s.failed = false) (counters : Counters s) (readNodup : s.readWaiters.Nodup)
    (writeNodup : s.writeWaiters.Nodup) (readers : Lists s.pc .readWait s.readWaiters)
    (writers : Lists s.pc .writeWait s.writeWaiters)
    (readWoken : s.wowner = none → s.readWaiters ≠ [] → s.writeWaiters ≠ [] ∨ ∃ t, s.pc t = .writeWoken) :
    Inv (wakeWriter s) := by
  rw [wakeWriter]
  rcases queue : s.writeWaiters with _ | ⟨w,rest⟩
  · exact ⟨fine,counters,⟨readNodup,writeNodup,readers,writers,fun _ _ some => absurd queue some,readWoken⟩⟩
  rw [queue] at writeNodup writers
  have waits := (writers w).mp mem_cons_self
  have woken : ∃ t, update s.pc w .writeWoken t = .writeWoken := ⟨w,update_self ..⟩
  exact ⟨fine,{ counters with },⟨readNodup,(nodup_cons.mp writeNodup).2,
    Lists.keep readers (by simp [waits]) nofun,Lists.drop writers writeNodup nofun,fun _ _ _ => woken,fun _ _ => .inr woken⟩⟩

lemma wakeReadersInv (fine : s.failed = false) (counters : Counters s) (empty : s.writeWaiters = [])
    (readers : Lists s.pc .readWait s.readWaiters) (writers : Lists s.pc .writeWait s.writeWaiters) :
    Inv (wakeReaders s) := by
  have moved : ∀ t, (wakeReaders s).pc t = if t ∈ s.readWaiters then .readWoken else s.pc t := fun _ => rfl
  refine ⟨fine,{ counters with },⟨nodup_nil,empty ▸ nodup_nil,fun t => ?_,fun t => ?_,
    fun _ _ some => absurd empty some,fun _ some => absurd rfl some⟩⟩
  · rw [moved t]
    split
    · simp [wakeReaders]
    next out => simpa [wakeReaders] using fun waits => out ((readers t).mpr waits)
  rw [moved t]
  split
  next mem =>
    have elsewhere := (readers t).mp mem
    have off : t ∉ s.writeWaiters := fun here => by cases elsewhere.symm.trans ((writers t).mp here)
    simpa [wakeReaders] using off
  · exact writers t

lemma runlockInv (inv : Inv s) (holds : 0 < s.reads t) : Inv (runlock s t) := by
  have counters := inv.counters
  have queues := inv.queues
  have some := leTotal s.reads t
  have less := totalUpdate s.reads t (s.reads t - 1)
  have readers := counters.readers
  have fits := counters.fits
  have free : s.wowner = none := by
    by_contra owned
    have zero := counters.exclusive owned
    omega
  have positive : s.readers ≠ 0 := by omega
  let s' : State T := {s with readers := s.readers - 1, reads := update s.reads t (s.reads t - 1)}
  have counters' : Counters s' := by
    refine ⟨?_,?_,fun owned => absurd free owned,counters.owner,counters.others,counters.free⟩
    · change s.readers - 1 = total (update s.reads t (s.reads t - 1))
      omega
    change s.readers - 1 < 2^32
    omega
  rw [runlock,if_neg (by simp [free,positive])]
  change Inv (if s'.readers = 0 then wakeWriter s' else s')
  split
  · exact wakeWriterInv inv.fine counters' queues.readNodup queues.writeNodup queues.readers queues.writers queues.readWoken
  next more => exact ⟨inv.fine,counters',{ queues with writeWoken := fun _ zero => absurd zero more }⟩

lemma tryUpgradeInv (inv : Inv s) (holds : 0 < s.reads t) : Inv (tryUpgrade s t).1 := by
  have counters := inv.counters
  rw [tryUpgrade]
  split
  swap
  · exact inv
  rename_i alone
  obtain ⟨one,-⟩ : s.readers = 1 ∧ s.writeWaiters = [] := by simpa using alone
  have free : s.wowner = none := by
    by_contra owned
    have zero := counters.exclusive owned
    omega
  have less := totalUpdate s.reads t (s.reads t - 1)
  have readers := counters.readers
  have none := counters.others t (by simp [free])
  have fresh := counters.free free
  rw [if_neg (by simp [free])]
  refine ⟨inv.fine,⟨?_,Nat.two_pow_pos 32,fun _ => rfl,fun u mine => ?_,fun u other => ?_,nofun⟩,
    { inv.queues with writeWoken := nofun, readWoken := nofun }⟩
  · change 0 = total (update s.reads t (s.reads t - 1))
    omega
  · obtain rfl := some.inj mine
    change update s.writes t (s.writes t + 1) t = s.wrecurse + 1
    rw [update_self]
    omega
  have ne : u ≠ t := fun same => other (same ▸ rfl)
  change update s.writes t (s.writes t + 1) u = 0
  rw [update_of_ne ne]
  exact counters.others u (by simp [free])

lemma dropWriteCounters (counters : Counters s) (mine : s.wowner = some t) : Counters (dropWrite s t) := by
  have nested := counters.owner t mine
  have zero := counters.exclusive (by simp [mine])
  have others : ∀ u, u ≠ t → s.writes u = 0 :=
    fun u ne => counters.others u fun theirs => ne (some.inj (theirs.symm.trans mine))
  refine ⟨counters.readers,counters.fits,fun _ => zero,fun u owner => ?_,fun u other => ?_,fun free => ?_⟩
  · change (if 0 < s.wrecurse then s.wowner else none) = some u at owner
    change update s.writes t (s.writes t - 1) u = (if 0 < s.wrecurse then s.wrecurse - 1 else s.wrecurse) + 1
    split at owner
    next deeper =>
      obtain rfl := some.inj (mine.symm.trans owner)
      rw [update_self,if_pos deeper]
      omega
    · cases owner
  · change (if 0 < s.wrecurse then s.wowner else none) ≠ some u at other
    change update s.writes t (s.writes t - 1) u = 0
    by_cases same : u = t
    · subst same
      have last : ¬0 < s.wrecurse := fun deeper => other (by rw [if_pos deeper,mine])
      rw [update_self]
      omega
    rw [update_of_ne same]
    exact others u same
  change (if 0 < s.wrecurse then s.wowner else none) = none at free
  change (if 0 < s.wrecurse then s.wrecurse - 1 else s.wrecurse) = 0
  split at free
  · cases mine.symm.trans free
  rename_i last
  rw [if_neg last]
  omega

lemma wunlockInv (inv : Inv s) (mine : s.wowner = some t) : Inv (wunlock s t) := by
  have queues := inv.queues
  have counters := dropWriteCounters inv.counters mine
  rw [wunlock,if_neg (by simp [mine])]
  dsimp only
  split
  next empty => exact wakeReadersInv inv.fine counters empty queues.readers queues.writers
  rename_i some
  exact wakeWriterInv inv.fine counters queues.readNodup queues.writeNodup queues.readers queues.writers
    fun _ _ => .inl some

lemma wunlockSpec (inv : Inv s) (mine : s.wowner = some t) :
    (wunlock s t).wrecurse = (if 0 < s.wrecurse then s.wrecurse - 1 else s.wrecurse) ∧
      (wunlock s t).wowner = (if 0 < s.wrecurse then s.wowner else none) ∧
      (s.pc t = .idle → (wunlock s t).pc t = .idle) := by
  have queues := inv.queues
  rw [wunlock,if_neg (by simp [mine])]
  dsimp only
  split
  · refine ⟨rfl,rfl,fun idle => ?_⟩
    have off : t ∉ s.readWaiters := fun mem => by cases idle.symm.trans ((queues.readers t).mp mem)
    exact (if_neg off).trans idle
  rw [wakeWriter]
  split
  · exact ⟨rfl,rfl,id⟩
  rename_i w rest queue
  refine ⟨rfl,rfl,fun idle => ?_⟩
  have waits := (queues.writers w).mp (by
    change w ∈ (dropWrite s t).writeWaiters
    rw [queue]
    exact mem_cons_self)
  have ne : t ≠ w := fun same => by cases idle.symm.trans (same ▸ waits)
  exact (update_of_ne ne _ _).trans idle

lemma unwindInv (n : Nat) (inv : Inv s) (mine : s.wowner = some t) (depth : s.wrecurse = n)
    (idle : s.pc t = .idle) : ∃ s', unwind t (n+1) s = some s' ∧ Inv s' ∧ s'.pc t = .idle := by
  induction n generalizing s with
  | zero =>
    refine ⟨wunlock s t,?_,wunlockInv inv mine,(wunlockSpec inv mine).2.2 idle⟩
    rw [unwind,if_neg (by simp [depth])]
  | succ n ih => ?_
  obtain ⟨less,owner,stays⟩ := wunlockSpec inv mine
  have deeper : 0 < s.wrecurse := by omega
  rw [if_pos deeper] at less owner
  obtain ⟨s',done,inv',idle'⟩ := ih (wunlockInv inv mine) (owner.trans mine) (by omega) (stays idle)
  refine ⟨s',?_,inv',idle'⟩
  rw [unwind,if_pos (by omega)]
  exact done

lemma downgradeInv (inv : Inv s) (mine : s.wowner = some t) (idle : s.pc t = .idle) :
    ∃ s', downgrade s t = some s' ∧ Inv s' := by
  obtain ⟨s',done,inv',idle'⟩ := unwindInv s.wrecurse inv mine rfl idle
  have queues := inv'.queues
  refine ⟨{s' with pc := update s'.pc t .downgraded},?_,inv'.fine,{ inv'.counters with },
    ⟨queues.readNodup,queues.writeNodup,Lists.keep queues.readers (by simp [idle']) nofun,
      Lists.keep queues.writers (by simp [idle']) nofun,?_,?_⟩⟩
  · rw [downgrade,if_neg (by simp [mine]),done]
    rfl
  · exact fun free zero some => stillWoken (by simp [idle']) (queues.writeWoken free zero some)
  · exact fun free some => (queues.readWoken free some).imp_right (stillWoken (by simp [idle']))

lemma ownerOfWrites (inv : Inv s) (holds : 0 < s.writes t) : s.wowner = some t := by
  by_contra other
  have none := inv.counters.others t other
  omega

lemma stepInv {s' : State T} {op : Op T} (inv : Inv s) (allowed : Allowed s op) (counted : Counted s')
    (taken : step s op = some s') : Inv s' := by
  rw [step,inv.fine,if_neg Bool.false_ne_true] at taken
  cases op <;> simp only [perform] at taken <;> split at taken <;> try cases taken
  case rlock.isTrue pc => rcases pc with pc | pc <;> exact testReadInv inv (by simp [pc]) (by simp [pc]) (by simp [pc]) counted
  case tryRlock.isTrue pc =>
    rw [tryRlock] at counted ⊢
    split at counted
    next lockable =>
      rw [if_pos lockable]
      exact takeReadInv inv lockable (by simp [pc]) (by simp [pc]) (by simp [pc]) counted
    rename_i taken
    rw [if_neg taken]
    exact inv
  case runlock.isTrue => exact runlockInv inv allowed
  case tryUpgrade.isTrue => exact tryUpgradeInv inv allowed
  case wlock.isTrue pc => exact testWriteInv inv (by simp [pc]) (by simp [pc]) counted
  case tryWlock.isTrue pc =>
    rw [tryWlock] at counted ⊢
    split at counted
    next lockable =>
      rw [if_pos lockable]
      exact takeWriteInv inv lockable (by simp [pc]) (by simp [pc]) counted
    rename_i taken
    rw [if_neg taken]
    exact inv
  case wunlock.isTrue => exact wunlockInv inv (ownerOfWrites inv allowed)
  case downgrade.isTrue pc =>
    obtain ⟨last,done,inv'⟩ := downgradeInv inv (ownerOfWrites inv allowed) pc
    cases done.symm.trans taken
    exact inv'
  case retest.isTrue pc => exact testReadInv inv (by simp [pc]) (by simp [pc]) (by simp [pc]) counted
  case retest.isFalse =>
    obtain ⟨pc,taken⟩ := ite_none_right_eq_some.mp taken
    cases taken
    exact testWriteInv inv (by simp [pc]) (by simp [pc]) counted

lemma reachableInv (reach : Reachable s) : Inv s := by
  refine invariant ?_ (fun s op s' inv ok taken => stepInv inv ok.1 (ok.2 s' taken) taken) reach
  rintro s rfl
  refine ⟨rfl,⟨(totalZero fun _ => rfl).symm,Nat.two_pow_pos 32,nofun,nofun,fun _ _ => rfl,fun _ => rfl⟩,
    ⟨nodup_nil,nodup_nil,fun t => ?_,fun t => ?_,fun _ _ some => absurd rfl some,fun _ some => absurd rfl some⟩⟩
  · simp [initial]
  · simp [initial]

theorem lockSound {s : State T} (reach : Reachable s) : Sound s := by
  have inv := reachableInv reach
  have counters := inv.counters
  refine ⟨inv.fine,fun t holds => ownerOfWrites inv holds,fun t mine => ⟨fun u => ?_,fun u ne => ?_⟩,
    fun t mine => (counters.owner t mine).symm,fun zero free waits => ?_⟩
  · have none := counters.exclusive (by simp [mine])
    have held := leTotal s.reads u
    have all := counters.readers
    omega
  · exact counters.others u fun theirs => ne (some.inj (theirs.symm.trans mine))
  have writer : s.writeWaiters ≠ [] ∨ ∃ t, s.pc t = .writeWoken := by
    rcases waits with readers | writers
    · exact inv.queues.readWoken free readers
    · exact .inl writers
  rcases writer with queued | ⟨t,woken⟩
  · obtain ⟨t,woken⟩ := inv.queues.writeWoken free zero queued
    exact ⟨t,.inr woken⟩
  · exact ⟨t,.inr woken⟩

end

def handoverRun : List (Op (Fin 3)) := [.wlock 0,.wlock 0,.wunlock 0,.wlock 1,.wlock 2,.wunlock 0]

lemma handoverReachable : Reachable (final step Counting (initial (Fin 3)) handoverRun) :=
  reachFinal handoverRun rfl rfl

theorem lockSoundHandover :
    let s := Runs.final step Counting (initial (Fin 3)) handoverRun
    s.readers = 0 ∧ s.wowner = none ∧ s.writeWaiters = [2] ∧ ∃ t, s.pc t = .readWoken ∨ s.pc t = .writeWoken :=
  ⟨rfl,rfl,rfl,
    (lockSound handoverReachable).onTheWay rfl rfl (.inr (by decide))⟩

def readTimes (n : Nat) : State (Fin 2) :=
  {initial (Fin 2) with readers := n % 2^32, reads := update (fun _ => 0) 0 n}

lemma readTimesReachable (n : Nat) : Reach step Allowed (fun s => s = initial (Fin 2)) (readTimes n) := by
  induction n with
  | zero =>
    refine .init ?_
    rw [readTimes,Nat.zero_mod,update_eq_self_iff.mpr rfl]
    rfl
  | succ n ih => ?_
  have taken : step (readTimes n) (.rlock 0) = some (takeRead (readTimes n) 0) := rfl
  have same : takeRead (readTimes n) 0 = readTimes (n+1) := by simp [takeRead,readTimes,initial,update_idem,Nat.add_mod]
  have allowed : Allowed (readTimes n) (.rlock 0) := trivial
  exact same ▸ ih.next allowed taken

theorem countersWrap :
    ∃ s : State (Fin 2), Runs.Reach step Allowed (fun s => s = initial (Fin 2)) s ∧ s.wowner = some 1 ∧ 0 < s.reads 0 := by
  have zero : (readTimes (2^32)).readers = 0 := Nat.mod_self (2^32)
  have lockable : writeLockable (readTimes (2^32)) 1 = true := by
    rw [writeLockable,zero]
    rfl
  have tested : step (readTimes (2^32)) (.wlock 1) = some (testWrite (readTimes (2^32)) 1) := rfl
  rw [testWrite,if_pos lockable] at tested
  have allowed : Allowed (readTimes (2^32)) (.wlock 1) := trivial
  exact ⟨_,(readTimesReachable (2^32)).next allowed tested,rfl,Nat.two_pow_pos 32⟩

end OsvKernel.RwLock
