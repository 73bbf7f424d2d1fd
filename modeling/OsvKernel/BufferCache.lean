import OsvKernel.Locks
import OsvKernel.Runs

/-! The buffer cache of fs/vfs/vfs_bio.cc, with I/O that succeeds. A section under bio_lock is one step; so is
waiting for a buffer, which takes b_lock and gives it back at once. An ASSERT that fails halts the system, and so does
mutex_unlock of a b_lock that another thread owns. -/
namespace OsvKernel.BufferCache
open List Function Option Bool Runs

structure Buf (T D : Type) where
  busy : Bool
  delwri : Bool
  inval : Bool
  read : Bool
  done : Bool
  dev : D
  blkno : Int
  lock : Option (T × Nat)
  unwritten : Bool

inductive Stage where
  | fill
  | filled
  | check
  | clear
  | io
  | done
  | delay
  | leave
  | release
  deriving DecidableEq

/-- own goes back into getblk afterwards if retry is there. -/
inductive Pc (D : Type) (N : Nat) where
  | idle
  | get (dev : D) (blkno : Int) (read : Bool)
  | busy (bp : Fin N) (dev : D) (blkno : Int) (read : Bool)
  | own (bp : Fin N) (stage : Stage) (retry : Option (D × Int × Bool))
  | sync
  | syncBusy (bp : Fin N)

structure State (T D : Type) (N : Nat) where
  buf : Fin N → Buf T D
  free : List (Fin N)
  sem : Nat
  pc : T → Pc D N
  halted : Bool

inductive Op (T D : Type) (N : Nat) where
  | getblk (t : T) (dev : D) (blkno : Int)
  | bread (t : T) (dev : D) (blkno : Int)
  | bwrite (t : T) (bp : Fin N)
  | bdwrite (t : T) (bp : Fin N)
  | brelse (t : T) (bp : Fin N)
  | bflush (t : T) (bp : Fin N)
  | bioSync (t : T)
  | binval (t : T) (dev : D)
  | run (t : T)

def unlocked {T : Type} : Option (T × Nat) → Option (T × Nat)
  | some (t,n+2) => some (t,n + 1)
  | _ => none

section
variable {T D : Type} {N : Nat} [DecidableEq T] [DecidableEq D]

namespace State

def goto (s : State T D N) (t : T) (pc : Pc D N) : State T D N := { s with pc := update s.pc t pc }
def set (s : State T D N) (bp : Fin N) (b : Buf T D) : State T D N := { s with buf := update s.buf bp b }
def halt (s : State T D N) : State T D N := { s with halted := true }

end State

def incore (s : State T D N) (dev : D) (blkno : Int) : Option (Fin N) :=
  (List.finRange N).find? fun bp => (s.buf bp).blkno = blkno ∧ (s.buf bp).dev = dev ∧ (s.buf bp).inval = false

def freed (b : Buf T D) : Buf T D := { b with busy := false, lock := unlocked b.lock }

def Holds (s : State T D N) (t : T) (bp : Fin N) : Prop := ((s.buf bp).lock).map Prod.fst = some t

instance (s : State T D N) (t : T) (bp : Fin N) : Decidable (Holds s t bp) := inferInstanceAs (Decidable (_ = _))

-- B_BUSY is off when mutex_unlock checks the owner.
def released (s : State T D N) (t : T) (bp : Fin N) : State T D N :=
  let b := s.buf bp
  if Holds s t bp then
    { s.set bp (freed b) with
      free := if b.inval then bp::s.free else s.free ++ [bp]
      sem := s.sem + 1 }
  else (s.set bp { b with busy := false }).halt

def cleared (b : Buf T D) : Buf T D := { b with read := false, done := false, delwri := false }
def written (b : Buf T D) : Buf T D := { cleared b with done := true, unwritten := false }

def bwriteLocked (s : State T D N) (t : T) (bp : Fin N) : State T D N :=
  if (s.buf bp).busy then released (s.set bp (written (s.buf bp))) t bp else s.halt

def gotten (bp : Fin N) (read : Bool) : Pc D N := if read then .own bp .fill none else .idle

def getblk (s : State T D N) (t : T) (dev : D) (blkno : Int) (read : Bool) : Option (State T D N) :=
  match incore s dev blkno with
  | some bp =>
    let b := s.buf bp
    if b.busy then some (s.goto t (.busy bp dev blkno read))
    else if s.sem = 0 then none
    else (Locks.acquire t b.lock).map fun l =>
      ({ s.set bp { b with busy := true, lock := l } with free := s.free.erase bp, sem := s.sem - 1 }).goto t (gotten bp read)
  | none =>
    if s.sem = 0 then none
    else match s.free with
      | [] => none
      | bp::rest =>
        let b := s.buf bp
        let s := { s with free := rest, sem := s.sem - 1 }
        if b.delwri then some (s.goto t (.own bp .check (some (dev,blkno,read))))
        else (Locks.acquire t b.lock).map fun l =>
          (s.set bp ⟨true,false,false,false,false,dev,blkno,l,b.unwritten⟩).goto t (gotten bp read)

def flushed (s : State T D N) (t : T) (bp : Fin N) : State T D N :=
  if (s.buf bp).delwri then bwriteLocked s t bp else if (s.buf bp).busy then released s t bp else s

def invalidate (s : State T D N) (t : T) (bp : Fin N) : State T D N :=
  let u := flushed s t bp
  if u.halted then u
  else u.set bp { u.buf bp with busy := false, delwri := false, inval := true, read := false, done := false }

def binval (s : State T D N) (t : T) (dev : D) : List (Fin N) → State T D N
  | [] => s
  | bp::rest =>
    if s.halted then s
    else if (s.buf bp).dev = dev then binval (invalidate s t bp) t dev rest
    else binval s t dev rest

def bioSync (s : State T D N) (t : T) : List (Fin N) → State T D N
  | [] => s.goto t .idle
  | bp::rest =>
    if (s.buf bp).busy then s.goto t (.syncBusy bp)
    else if (s.buf bp).delwri then
      let u := bwriteLocked s t bp
      if u.halted then u else bioSync u t rest
    else bioSync s t rest

def passes (t : T) (lock : Option (T × Nat)) : Bool := (Locks.acquire t lock).isSome

def own (s : State T D N) (t : T) (bp : Fin N) (retry : Option (D × Int × Bool)) : Stage → State T D N
  | .fill => s.goto t (.own bp .filled retry)
  | .filled => (s.set bp { s.buf bp with inval := false, read := true, done := true }).goto t .idle
  | .check => if (s.buf bp).busy then s.goto t (.own bp .clear retry) else s.halt
  | .clear => (s.set bp (cleared (s.buf bp))).goto t (.own bp .io retry)
  | .io => (s.set bp { s.buf bp with unwritten := false }).goto t (.own bp .done retry)
  | .done => (s.set bp { s.buf bp with done := true }).goto t (.own bp .leave retry)
  | .delay => (s.set bp { s.buf bp with delwri := true, done := false, unwritten := true }).goto t (.own bp .leave retry)
  | .leave => if (s.buf bp).busy then s.goto t (.own bp .release retry) else s.halt
  | .release => (released s t bp).goto t (match retry with
    | none => .idle
    | some (dev,blkno,read) => .get dev blkno read)

def run (s : State T D N) (t : T) : Pc D N → Option (State T D N)
  | .idle => none
  | .get dev blkno read => getblk s t dev blkno read
  | .busy bp dev blkno read => if passes t (s.buf bp).lock then some (s.goto t (.get dev blkno read)) else none
  | .own bp stage retry => some (own s t bp retry stage)
  | .sync => some (bioSync s t (List.finRange N))
  | .syncBusy bp => if passes t (s.buf bp).lock then some (s.goto t .sync) else none

def isIdle : Pc D N → Bool
  | .idle => true
  | _ => false

def call (s : State T D N) : Op T D N → Option (State T D N)
  | .getblk t dev blkno => if isIdle (s.pc t) then some (s.goto t (.get dev blkno false)) else none
  | .bread t dev blkno => if isIdle (s.pc t) then some (s.goto t (.get dev blkno true)) else none
  | .bwrite t bp => if isIdle (s.pc t) then some (s.goto t (.own bp .check none)) else none
  | .bdwrite t bp => if isIdle (s.pc t) then some (s.goto t (.own bp .delay none)) else none
  | .brelse t bp => if isIdle (s.pc t) then some (s.goto t (.own bp .leave none)) else none
  | .bflush t bp =>
    if isIdle (s.pc t) then
      if (s.buf bp).delwri then some (bwriteLocked s t bp) else some s
    else none
  | .bioSync t => if isIdle (s.pc t) then some (s.goto t .sync) else none
  | .binval t dev => if isIdle (s.pc t) then some (binval s t dev (List.finRange N)) else none
  | .run t => run s t (s.pc t)

def step (s : State T D N) (op : Op T D N) : Option (State T D N) := if s.halted then none else call s op

/-- bio_init. -/
def Start (s : State T D N) : Prop :=
  s.free = List.finRange N ∧ s.sem = N ∧ (∀ t, s.pc t = .idle) ∧ s.halted = false ∧
  ∀ bp, (s.buf bp).busy = false ∧ (s.buf bp).delwri = false ∧ (s.buf bp).inval = true ∧ (s.buf bp).lock = none ∧
    (s.buf bp).unwritten = false

/-- Callers write and release only buffers they hold. -/
def Legal (s : State T D N) : Op T D N → Prop
  | .bwrite t bp => Holds s t bp
  | .bdwrite t bp => Holds s t bp
  | .brelse t bp => Holds s t bp
  | _ => True

structure Sound (s : State T D N) : Prop where
  free : ∀ bp, bp ∈ s.free ↔ (s.buf bp).busy = false
  sem : s.sem = s.free.length
  lock : ∀ bp, (s.buf bp).lock ≠ none ↔ (s.buf bp).busy = true
  single : ∀ a b, (s.buf a).inval = false → (s.buf b).inval = false → (s.buf a).dev = (s.buf b).dev →
    (s.buf a).blkno = (s.buf b).blkno → a = b
  nodup : s.free.Nodup

def TakesClean (s : State T D N) : Pc D N → Prop
  | .get dev blkno _ => incore s dev blkno = none → ∀ bp ∈ s.free.head?, (s.buf bp).delwri = false
  | _ => True

def Spares (s : State T D N) : Op T D N → Prop
  | .run t => TakesClean s (s.pc t)
  | _ => True

def Careful (s : State T D N) (op : Op T D N) : Prop := Legal s op ∧ Spares s op

structure Inv (s : State T D N) : Prop where
  free : ∀ bp, bp ∈ s.free ↔ (s.buf bp).busy = false
  sem : s.sem = s.free.length
  nodup : s.free.Nodup
  held : ∀ bp, (s.buf bp).busy = true → (s.buf bp).inval = false ∧ ∃ t, (s.buf bp).lock = some (t,1)
  open_ : ∀ bp, (s.buf bp).busy = false → (s.buf bp).lock = none
  single : ∀ a b, (s.buf a).inval = false → (s.buf b).inval = false → (s.buf a).dev = (s.buf b).dev →
    (s.buf a).blkno = (s.buf b).blkno → a = b
  owns : ∀ t bp stage retry, s.pc t = .own bp stage retry → (s.buf bp).lock = some (t,1) ∧ retry = none
  dirty : ∀ bp, (s.buf bp).unwritten = true → (s.buf bp).delwri = true ∨ ∃ t, s.pc t = .own bp .io none

variable {s u : State T D N} {t : T} {bp c : Fin N} {b : Buf T D} {pc : Pc D N}

lemma Inv.busy (inv : Inv s) (lock : (s.buf bp).lock = some (t,1)) : (s.buf bp).busy = true := by
  cases busy : (s.buf bp).busy with
  | true => rfl
  | false => cases (inv.open_ bp busy).symm.trans lock

lemma Inv.holds (inv : Inv s) (holds : Holds s t bp) : (s.buf bp).lock = some (t,1) := by
  cases busy : (s.buf bp).busy
  case false =>
    rw [Holds,inv.open_ bp busy] at holds
    cases holds
  obtain ⟨_,r,lock⟩ := inv.held bp busy
  rw [Holds,lock] at holds
  cases holds
  exact lock

lemma Inv.moves (inv : Inv s) (io : ∀ c retry, s.pc t ≠ .own c .io retry)
    (owns : ∀ bp stage retry, pc = .own bp stage retry → (s.buf bp).lock = some (t,1) ∧ retry = none) : Inv (s.goto t pc) := by
  refine ⟨inv.free,inv.sem,inv.nodup,inv.held,inv.open_,inv.single,fun r bp stage retry here => ?_,fun bp dirty => ?_⟩
  · simp only [State.goto,update_apply] at here
    split at here
    next same => exact same ▸ owns bp stage retry here
    next => exact inv.owns r bp stage retry here
  refine (inv.dirty bp dirty).imp_right fun ⟨r,here⟩ => ⟨r,?_⟩
  have other : r ≠ t := fun same => io bp none (same ▸ here)
  exact (update_of_ne other _ _).trans here

lemma Inv.changes (inv : Inv s) (mine : (s.buf bp).lock = none ∨ (s.buf bp).lock = some (t,1))
    (io : ∀ c retry, s.pc t = .own c .io retry → c = bp)
    (bufs : u.buf = update s.buf bp b) (pcs : u.pc = update s.pc t pc)
    (free : ∀ c, c ∈ u.free ↔ (c ∈ s.free ∧ c ≠ bp) ∨ (c = bp ∧ b.busy = false)) (sem : u.sem = u.free.length)
    (nodup : u.free.Nodup) (held : b.busy = true → b.inval = false ∧ b.lock = some (t,1)) (open_ : b.busy = false → b.lock = none)
    (key : b.inval = false → ((s.buf bp).inval = false ∧ b.dev = (s.buf bp).dev ∧ b.blkno = (s.buf bp).blkno) ∨
      ∀ c, (s.buf c).inval = false → (s.buf c).dev = b.dev → (s.buf c).blkno = b.blkno → False)
    (owns : ∀ c stage retry, pc = .own c stage retry → c = bp ∧ b.busy = true ∧ retry = none)
    (dirty : b.unwritten = true → b.delwri = true ∨ pc = .own bp .io none) : Inv u := by
  have self : u.buf bp = b := by rw [bufs,update_self]
  have other : ∀ c, c ≠ bp → u.buf c = s.buf c := fun c ne => by rw [bufs,update_of_ne ne]
  -- two valid buffers of one block, one of which has changed
  have alone : ∀ c, c ≠ bp → b.inval = false → (s.buf c).inval = false → b.dev = (s.buf c).dev → b.blkno = (s.buf c).blkno →
    False := fun c ne valid also dev blkno => by
    rcases key valid with ⟨was,sameDev,sameBlk⟩ | new
    · exact ne (inv.single c bp also was (dev.symm.trans sameDev) (blkno.symm.trans sameBlk))
    · exact new c also dev.symm blkno.symm
  refine ⟨fun c => ?_,sem,nodup,fun c => ?_,fun c => ?_,fun x y => ?_,fun r c stage retry here => ?_,fun c => ?_⟩
  · rw [free]
    by_cases same : c = bp
    · subst same
      rw [self]
      exact ⟨fun h => h.elim (fun both => absurd rfl both.2) And.right,fun h => .inr ⟨rfl,h⟩⟩
    rw [other c same,← inv.free]
    exact ⟨fun h => h.elim And.left fun both => absurd both.1 same,fun h => .inl ⟨h,same⟩⟩
  · by_cases same : c = bp
    · subst same
      rw [self]
      exact fun busy => ⟨(held busy).1,t,(held busy).2⟩
    · rw [other c same]
      exact inv.held c
  · by_cases same : c = bp
    · subst same
      rw [self]
      exact open_
    · rw [other c same]
      exact inv.open_ c
  · by_cases first : x = bp
    · by_cases second : y = bp
      · exact fun _ _ _ _ => first.trans second.symm
      · subst first
        rw [self,other y second]
        exact fun valid also dev blkno => (alone y second valid also dev blkno).elim
    · by_cases second : y = bp
      · subst second
        rw [self,other x first]
        exact fun also valid dev blkno => (alone x first valid also dev.symm blkno.symm).elim
      · rw [other x first,other y second]
        exact inv.single x y
  · rw [pcs,update_apply] at here
    split at here
    next same =>
      obtain ⟨eq,busy,none⟩ := owns c stage retry here
      subst eq
      rw [self,same]
      exact ⟨(held busy).2,none⟩
    rename_i ne
    obtain ⟨lock,none⟩ := inv.owns r c stage retry here
    have off : c ≠ bp := fun same => by
      subst same
      rcases mine with free | mine
      · cases free.symm.trans lock
      exact ne (congrArg Prod.fst (some.inj (lock.symm.trans mine)))
    rw [other c off]
    exact ⟨lock,none⟩
  by_cases same : c = bp
  · subst same
    rw [self]
    refine fun unwritten => (dirty unwritten).imp_right fun eq => ⟨t,?_⟩
    rw [pcs,update_self,eq]
  rw [other c same]
  refine fun unwritten => (inv.dirty c unwritten).imp_right fun ⟨r,here⟩ => ⟨r,?_⟩
  have ne : r ≠ t := fun eq => same (io c none (eq ▸ here))
  rw [pcs,update_of_ne ne]
  exact here

section
variable (inv : Inv s) (lock : (s.buf bp).lock = some (t,1)) (io : ∀ c retry, s.pc t = .own c .io retry → c = bp)
include inv lock io

lemma Inv.flags
    (busy : b.busy = (s.buf bp).busy) (same : b.lock = (s.buf bp).lock) (valid : b.inval = false ∨ b.inval = (s.buf bp).inval)
    (dev : b.dev = (s.buf bp).dev) (blkno : b.blkno = (s.buf bp).blkno)
    (owns : ∀ c stage retry, pc = .own c stage retry → c = bp ∧ retry = none)
    (dirty : b.unwritten = true → b.delwri = true ∨ pc = .own bp .io none) : Inv ((s.set bp b).goto t pc) := by
  have now := inv.busy lock
  have known := (inv.held bp now).1
  have set := busy.trans now
  refine inv.changes (.inr lock) io rfl rfl (fun c => ?_) inv.sem inv.nodup (fun _ => ⟨?_,same.trans lock⟩)
    (fun free => nomatch free.symm.trans set) (fun _ => .inl ⟨known,dev,blkno⟩)
    (fun c stage retry here => ⟨(owns c stage retry here).1,set,(owns c stage retry here).2⟩) dirty
  · refine ⟨fun mem => .inl ⟨mem,fun eq => ?_⟩,fun h => h.elim And.left fun both => nomatch both.2.symm.trans set⟩
    subst eq
    cases ((inv.free c).mp mem).symm.trans now
  · exact valid.elim id fun eq => eq.trans known

lemma Inv.returns (bufs : u.buf = update s.buf bp b) (pcs : u.pc = update s.pc t pc)
    (free : u.free = bp::s.free ∨ u.free = s.free ++ [bp]) (sem : u.sem = s.sem + 1) (idle : b.busy = false) (unlocked : b.lock = none)
    (dev : b.dev = (s.buf bp).dev) (blkno : b.blkno = (s.buf bp).blkno)
    (owns : ∀ c stage retry, pc ≠ .own c stage retry) (dirty : b.unwritten = true → b.delwri = true) : Inv u := by
  have now := inv.busy lock
  have off : bp ∉ s.free := fun mem => nomatch ((inv.free bp).mp mem).symm.trans now
  have mems : ∀ c, c ∈ u.free ↔ c = bp ∨ c ∈ s.free := fun c => by
    rcases free with eq | eq
    · rw [eq,mem_cons]
    rw [eq,mem_append,mem_singleton]
    exact Or.comm
  refine inv.changes (.inr lock) io bufs pcs (fun c => ?_) ?_ ?_ (fun busy => nomatch busy.symm.trans idle) (fun _ => unlocked)
    (fun _ => .inl ⟨(inv.held bp now).1,dev,blkno⟩) (fun c stage retry here => absurd here (owns c stage retry))
    fun unwritten => .inl (dirty unwritten)
  · rw [mems]
    refine ⟨fun h => ?_,fun h => h.elim (fun both => .inr both.1) fun both => .inl both.1⟩
    rcases h with eq | mem
    · exact .inr ⟨eq,idle⟩
    · exact .inl ⟨mem,fun eq => off (eq ▸ mem)⟩
  · rw [sem,inv.sem]
    rcases free with eq | eq
    · rw [eq,length_cons]
    · rw [eq,length_append,length_singleton]
  rcases free with eq | eq
  · rw [eq]
    exact nodup_cons.mpr ⟨off,inv.nodup⟩
  rw [eq]
  refine nodup_append.mpr ⟨inv.nodup,nodup_cons.mpr ⟨nofun,nodup_nil⟩,fun a mem c single => ?_⟩
  exact fun same => off (mem_singleton.mp single ▸ same ▸ mem)

end

variable {dev : D} {retry : Option (D × Int × Bool)} {stage : Stage} {op : Op T D N}

lemma Inv.getblk {blkno : Int} {read : Bool} (inv : Inv s) (here : s.pc t = .get dev blkno read)
    (spares : incore s dev blkno = none → ∀ bp ∈ s.free.head?, (s.buf bp).delwri = false)
    (taken : BufferCache.getblk s t dev blkno read = some u) : Inv u := by
  have io : ∀ c retry, s.pc t ≠ .own c .io retry := fun c retry at_ => nomatch here.symm.trans at_
  have owns : ∀ (bp c : Fin N) stage retry, (gotten bp read : Pc D N) = .own c stage retry → c = bp ∧ retry = none :=
    fun bp c stage retry eq => by
      unfold gotten at eq
      split at eq
      · cases eq
        exact ⟨rfl,rfl⟩
      · cases eq
  unfold BufferCache.getblk at taken
  split at taken
  next bp found =>
    simp only at taken
    split at taken
    next =>
      cases taken
      exact inv.moves io nofun
    rename_i free
    have idle := eq_false_iff.mpr free
    have mem := (inv.free bp).mpr idle
    have unlocked := inv.open_ bp idle
    split at taken
    · cases taken
    rename_i some
    obtain ⟨l,locked,rfl⟩ := map_eq_some_iff.mp taken
    rw [unlocked] at locked
    cases locked
    have valid : (s.buf bp).inval = false := by
      have test := find?_some found
      simp only [decide_eq_true_eq] at test
      exact test.2.2
    refine inv.changes (t := t) (.inl unlocked) (fun c retry at_ => absurd at_ (io c retry)) rfl rfl (fun c => ?_) ?_
      (inv.nodup.erase bp) (fun _ => ⟨valid,rfl⟩) nofun (fun _ => .inl ⟨valid,rfl,rfl⟩)
      (fun c stage retry eq => ⟨(owns bp c stage retry eq).1,rfl,(owns bp c stage retry eq).2⟩) fun dirty => ?_
    · change c ∈ s.free.erase bp ↔ _
      rw [inv.nodup.mem_erase_iff]
      exact ⟨fun both => .inl ⟨both.2,both.1⟩,fun h => h.elim (fun both => ⟨both.2,both.1⟩) fun both => nomatch both.2⟩
    · change s.sem - 1 = (s.free.erase bp).length
      rw [length_erase_of_mem mem,inv.sem]
    refine (inv.dirty bp dirty).imp_right fun ⟨r,at_⟩ => ?_
    cases unlocked.symm.trans (inv.owns r bp _ _ at_).1
  rename_i absent
  split at taken
  · cases taken
  split at taken
  · cases taken
  rename_i bp rest list
  have clean := spares absent bp (by rw [list]; rfl)
  have idle : (s.buf bp).busy = false := (inv.free bp).mp (list ▸ mem_cons_self)
  have unlocked := inv.open_ bp idle
  have nodup := inv.nodup
  rw [list] at nodup
  simp only [clean,false_eq_true,if_false] at taken
  obtain ⟨l,locked,rfl⟩ := map_eq_some_iff.mp taken
  rw [unlocked] at locked
  cases locked
  refine inv.changes (t := t) (.inl unlocked) (fun c retry at_ => absurd at_ (io c retry)) rfl rfl (fun c => ?_) ?_
    (nodup_cons.mp nodup).2 (fun _ => ⟨rfl,rfl⟩) nofun (fun _ => .inr fun c valid sameDev sameBlk => ?_)
    (fun c stage retry eq => ⟨(owns bp c stage retry eq).1,rfl,(owns bp c stage retry eq).2⟩) fun dirty => ?_
  · change c ∈ rest ↔ _
    rw [list,mem_cons]
    refine ⟨fun mem => .inl ⟨.inr mem,fun eq => (nodup_cons.mp nodup).1 (eq ▸ mem)⟩,fun h => ?_⟩
    rcases h with ⟨mem,ne⟩ | ⟨_,busy⟩
    · exact mem.resolve_left ne
    · cases busy
  · change s.sem - 1 = rest.length
    rw [inv.sem,list,length_cons,Nat.add_sub_cancel]
  · have test := find?_eq_none.mp absent c (mem_finRange c)
    simp only [decide_eq_true_eq] at test
    exact test ⟨sameBlk,sameDev,valid⟩
  rcases inv.dirty bp dirty with delwri | ⟨r,at_⟩
  · cases clean.symm.trans delwri
  cases unlocked.symm.trans (inv.owns r bp _ _ at_).1

lemma Inv.halts (inv : Inv s) : Inv s.halt :=
  ⟨inv.free,inv.sem,inv.nodup,inv.held,inv.open_,inv.single,inv.owns,inv.dirty⟩

lemma releasedHeld (lock : (s.buf bp).lock = some (t,1)) : released s t bp = { s.set bp (freed (s.buf bp)) with
    free := if (s.buf bp).inval then bp::s.free else s.free ++ [bp]
    sem := s.sem + 1 } := if_pos (by rw [Holds,lock]; rfl)

lemma Inv.own (inv : Inv s) (here : s.pc t = .own bp stage retry) : Inv (own s t bp retry stage) := by
  obtain ⟨lock,none⟩ := inv.owns t bp stage retry here
  subst none
  have busy := inv.busy lock
  have mine : ∀ c retry, s.pc t = .own c .io retry → c = bp := fun c retry at_ => by
    rw [here] at at_
    cases at_
    rfl
  have next : ∀ stage, ∀ c stage' retry, (Pc.own bp stage none : Pc D N) = .own c stage' retry → c = bp ∧ retry = none :=
    fun stage c stage' retry eq => by
      cases eq
      exact ⟨rfl,rfl⟩
  have goes : stage ≠ .io → ∀ stage', Inv (s.goto t (.own bp stage' none)) := fun ne stage' => by
    refine inv.moves (fun c retry at_ => ?_) fun c stage retry eq => ?_
    · rw [here] at at_
      cases at_
      exact ne rfl
    obtain ⟨rfl,rfl⟩ := next stage' c stage retry eq
    exact ⟨lock,rfl⟩
  -- outside of the write itself a delayed write is marked
  have marked : stage ≠ .io → (s.buf bp).unwritten = true → (s.buf bp).delwri = true := fun ne dirty => by
    rcases inv.dirty bp dirty with delwri | ⟨r,at_⟩
    · exact delwri
    have same : r = t := congrArg Prod.fst (some.inj ((inv.owns r bp _ _ at_).1.symm.trans lock))
    rw [same,here] at at_
    cases at_
    exact absurd rfl ne
  cases stage with
  | fill => exact goes nofun _
  | filled => exact inv.flags lock mine rfl rfl (.inl rfl) rfl rfl nofun fun dirty => .inl (marked nofun dirty)
  | check | leave =>
    simp only [own,busy,if_true]
    exact goes nofun _
  | clear => exact inv.flags lock mine rfl rfl (.inr rfl) rfl rfl (next _) fun _ => .inr rfl
  | io => exact inv.flags lock mine rfl rfl (.inr rfl) rfl rfl (next _) nofun
  | done => exact inv.flags lock mine rfl rfl (.inr rfl) rfl rfl (next _) fun dirty => .inl (marked nofun dirty)
  | delay => exact inv.flags lock mine rfl rfl (.inr rfl) rfl rfl (next _) fun _ => .inl rfl
  | release =>
    rw [own,releasedHeld lock]
    refine inv.returns lock mine rfl rfl (ite_eq_or_eq _ _ _) rfl rfl ?_ rfl rfl nofun (marked nofun)
    simp only [freed,lock]
    rfl

/-- What bwrite and brelse leave of a buffer that was in use. -/
structure Given (s u : State T D N) (bp : Fin N) : Prop where
  inv : Inv u
  pc : u.pc = s.pc
  busy : (u.buf bp).busy = false
  unwritten : (u.buf bp).unwritten = false

-- A thread that gives back a buffer of another one is halted by mutex_unlock.
lemma Inv.given (inv : Inv s) (idle : s.pc t = .idle) (lock : b.lock = (s.buf bp).lock) (dev : b.dev = (s.buf bp).dev)
    (blkno : b.blkno = (s.buf bp).blkno) (clean : b.unwritten = false) :
    (released (s.set bp b) t bp).halted = true ∨ Given s (released (s.set bp b) t bp) bp := by
  have self : (s.set bp b).buf bp = b := update_self _ _ _
  by_cases holds : Holds (s.set bp b) t bp
  swap
  · refine .inl ?_
    rw [released,if_neg holds]
    rfl
  rw [Holds,self,lock] at holds
  have mine := inv.holds holds
  have pcs : s.pc = update s.pc t .idle := by rw [← idle,update_eq_self]
  rw [releasedHeld (by rw [self,lock,mine])]
  refine .inr ⟨inv.returns (t := t) (b := freed b) mine (fun c retry at_ => nomatch idle.symm.trans at_) ?_ pcs ?_ rfl rfl ?_ dev blkno nofun ?_,
    rfl,?_,?_⟩
  · simp only [State.set,update_self,update_idem]
  · exact ite_eq_or_eq _ _ _
  · simp only [freed,lock,mine]
    rfl
  · exact fun dirty => nomatch clean.symm.trans dirty
  · simp [State.set,freed]
  · simpa [State.set,freed] using clean

lemma Inv.bwriteLocked (inv : Inv s) (idle : s.pc t = .idle) :
    (BufferCache.bwriteLocked s t bp).halted = true ∨ Given s (BufferCache.bwriteLocked s t bp) bp := by
  unfold BufferCache.bwriteLocked
  split
  · exact inv.given idle rfl rfl rfl rfl
  · exact .inl rfl

lemma Inv.clean (inv : Inv s) (idle : s.pc t = .idle) (clean : (s.buf bp).delwri = false)
    (mine : (s.buf bp).busy = true → Holds s t bp) : (s.buf bp).unwritten = false := by
  refine eq_false_iff.mpr fun dirty => ?_
  rcases inv.dirty bp dirty with delwri | ⟨r,at_⟩
  · cases clean.symm.trans delwri
  have lock := (inv.owns r bp _ _ at_).1
  have same : r = t := congrArg Prod.fst (some.inj (lock.symm.trans (inv.holds (mine (inv.busy lock)))))
  rw [same,idle] at at_
  cases at_

lemma Inv.released (inv : Inv s) (idle : s.pc t = .idle) (clean : (s.buf bp).delwri = false) :
    (released s t bp).halted = true ∨ Given s (released s t bp) bp := by
  by_cases holds : Holds s t bp
  · have same : s.set bp (s.buf bp) = s := by simp only [State.set,update_eq_self]
    have given := inv.given (b := s.buf bp) idle rfl rfl rfl (inv.clean idle clean fun _ => holds)
    rwa [same] at given
  · refine .inl ?_
    rw [BufferCache.released,if_neg holds]
    rfl

lemma Given.invalid (given : Given s u bp) (idle : s.pc t = .idle) :
    Inv (u.set bp { u.buf bp with busy := false, delwri := false, inval := true, read := false, done := false }) := by
  have idle : u.pc t = .idle := given.pc ▸ idle
  have pcs : u.pc = update u.pc t .idle := by rw [← idle,update_eq_self]
  have unlocked := given.inv.open_ bp given.busy
  refine given.inv.changes (.inl unlocked) (fun c retry at_ => nomatch idle.symm.trans at_) rfl pcs (fun c => ?_) given.inv.sem
    given.inv.nodup nofun (fun _ => unlocked) nofun nofun fun dirty => nomatch given.unwritten.symm.trans dirty
  have mem := (given.inv.free bp).mpr given.busy
  refine ⟨fun inside => ?_,fun h => h.elim And.left fun both => both.1 ▸ mem⟩
  by_cases here : c = bp
  · exact .inr ⟨here,rfl⟩
  · exact .inl ⟨inside,here⟩

lemma Inv.flushed (inv : Inv s) (bp : Fin N) (idle : s.pc t = .idle) :
    (BufferCache.flushed s t bp).halted = true ∨ Given s (BufferCache.flushed s t bp) bp := by
  unfold BufferCache.flushed
  split
  · exact inv.bwriteLocked idle
  next delwri =>
  have clean := eq_false_iff.mpr delwri
  split
  · exact inv.released idle clean
  next free => exact .inr ⟨inv,rfl,eq_false_iff.mpr free,inv.clean idle clean fun busy => absurd busy free⟩

lemma Inv.invalidate (inv : Inv s) (bp : Fin N) (idle : s.pc t = .idle) : (BufferCache.invalidate s t bp).halted = true ∨
    Inv (BufferCache.invalidate s t bp) ∧ (BufferCache.invalidate s t bp).pc = s.pc := by
  unfold BufferCache.invalidate
  dsimp only
  split
  next halted => exact .inl halted
  next ran =>
  rcases inv.flushed bp idle with halted | given
  · exact absurd halted ran
  · exact .inr ⟨given.invalid idle,given.pc⟩

lemma Inv.binval (l : List (Fin N)) (inv : Inv s) (idle : s.pc t = .idle) :
    (BufferCache.binval s t dev l).halted = true ∨ Inv (BufferCache.binval s t dev l) := by
  induction l generalizing s with
  | nil => exact .inr inv
  | cons bp rest ih => ?_
  unfold BufferCache.binval
  split
  next halted => exact .inl halted
  split
  swap
  · exact ih inv idle
  rcases inv.invalidate bp idle with halted | ⟨next,pc⟩
  · refine .inl ?_
    cases rest with
    | nil => exact halted
    | cons => rwa [BufferCache.binval,if_pos halted]
  · exact ih next (pc ▸ idle)

lemma Inv.bioSync (l : List (Fin N)) (inv : Inv s) (at_ : s.pc t = .sync) :
    Inv (BufferCache.bioSync s t l) ∧ (BufferCache.bioSync s t l).buf = s.buf := by
  have moves : ∀ pc : Pc D N, (∀ bp stage retry, pc ≠ .own bp stage retry) → Inv (s.goto t pc) := fun pc out =>
    inv.moves (fun c retry also => nomatch at_.symm.trans also) fun bp stage retry eq => absurd eq (out bp stage retry)
  induction l with
  | nil => exact ⟨moves .idle nofun,rfl⟩
  | cons bp rest ih => ?_
  unfold BufferCache.bioSync
  split
  · exact ⟨moves _ nofun,rfl⟩
  rename_i free
  split
  · have fails : BufferCache.bwriteLocked s t bp = s.halt := if_neg free
    rw [fails]
    exact ⟨inv.halts,rfl⟩
  · exact ih

lemma idleEq (idle : isIdle pc = true) : pc = .idle := by
  cases pc <;> first | rfl | cases idle

lemma Inv.enters (inv : Inv s) (idle : isIdle (s.pc t) = true)
    (owns : ∀ bp stage retry, pc = .own bp stage retry → (s.buf bp).lock = some (t,1) ∧ retry = none) : Inv (s.goto t pc) :=
  inv.moves (fun _ _ at_ => nomatch (idleEq idle).symm.trans at_) owns

lemma Inv.runs (inv : Inv s) (spares : Spares s (.run t)) (taken : run s t (s.pc t) = some u) : Inv u := by
  simp only [Spares] at spares
  generalize here : s.pc t = pc at taken spares
  cases pc with
  | idle => cases taken
  | get dev blkno read => exact inv.getblk here spares taken
  | busy _ _ _ _ | syncBusy _ =>
    obtain ⟨_,taken⟩ := ite_none_right_eq_some.mp taken
    cases taken
    exact inv.moves (fun _ _ at_ => nomatch here.symm.trans at_) nofun
  | own bp stage retry => exact some.inj taken ▸ inv.own here
  | sync => exact some.inj taken ▸ (inv.bioSync _ here).1

lemma Inv.step (inv : Inv s) (ok : Careful s op) (taken : BufferCache.step s op = some u) : u.halted = true ∨ Inv u := by
  obtain ⟨legal,spares⟩ := ok
  obtain ⟨_,taken⟩ := ite_none_left_eq_some.mp taken
  have holder : ∀ {t : T} {bp : Fin N} (stage : Stage), Holds s t bp → ∀ c stage' retry,
    (Pc.own bp stage none : Pc D N) = .own c stage' retry → (s.buf c).lock = some (t,1) ∧ retry = none :=
    fun stage holds c stage' retry eq => by
      cases eq
      exact ⟨inv.holds holds,rfl⟩
  cases op
  case run t => exact .inr (inv.runs spares taken)
  all_goals obtain ⟨idle,taken⟩ := ite_none_right_eq_some.mp taken
  case bflush t bp =>
    split at taken
    next => exact some.inj taken ▸ (inv.bwriteLocked (idleEq idle)).imp_right Given.inv
    next => exact .inr (some.inj taken ▸ inv)
  all_goals cases taken
  case binval => exact inv.binval _ (idleEq idle)
  case getblk | bread | bioSync => exact .inr (inv.enters idle nofun)
  all_goals exact .inr (inv.enters idle (holder _ legal))

/-! Which steps give a buffer to another block. -/

lemma Start.inv (start : Start s) : Inv s := by
  obtain ⟨free,sem,pcs,_,bufs⟩ := start
  refine ⟨fun bp => ?_,?_,?_,fun bp busy => ?_,fun bp _ => (bufs bp).2.2.2.1,fun a _ valid => ?_,fun t bp stage retry at_ => ?_,
    fun bp dirty => ?_⟩
  · rw [free]
    exact ⟨fun _ => (bufs bp).1,fun _ => mem_finRange bp⟩
  · rw [sem,free,length_finRange]
  · rw [free]
    exact nodup_finRange N
  · cases (bufs bp).1.symm.trans busy
  · cases (bufs a).2.2.1.symm.trans valid
  · cases (pcs t).symm.trans at_
  · cases (bufs bp).2.2.2.2.symm.trans dirty

lemma Inv.sound (inv : Inv s) : Sound s := by
  refine ⟨inv.free,inv.sem,fun bp => ?_,inv.single,inv.nodup⟩
  cases busy : (s.buf bp).busy
  case false =>
    rw [inv.open_ bp busy]
    exact ⟨fun some => absurd rfl some,nofun⟩
  obtain ⟨_,t,lock⟩ := inv.held bp busy
  rw [lock]
  exact ⟨fun _ => rfl,fun _ => nofun⟩

instance (s : State T D N) : ∀ op, Decidable (Legal s op)
  | .bwrite t bp => inferInstanceAs (Decidable (Holds s t bp))
  | .bdwrite t bp => inferInstanceAs (Decidable (Holds s t bp))
  | .brelse t bp => inferInstanceAs (Decidable (Holds s t bp))
  | .getblk _ _ _ => .isTrue trivial
  | .bread _ _ _ => .isTrue trivial
  | .bflush _ _ => .isTrue trivial
  | .bioSync _ => .isTrue trivial
  | .binval _ _ => .isTrue trivial
  | .run _ => .isTrue trivial

instance (s : State T D N) : ∀ pc, Decidable (TakesClean s pc)
  | .get dev blkno _ =>
    inferInstanceAs (Decidable (incore s dev blkno = none → ∀ bp ∈ s.free.head?, (s.buf bp).delwri = false))
  | .idle => .isTrue trivial
  | .busy _ _ _ _ => .isTrue trivial
  | .own _ _ _ => .isTrue trivial
  | .sync => .isTrue trivial
  | .syncBusy _ => .isTrue trivial

instance (s : State T D N) : ∀ op, Decidable (Spares s op)
  | .bflush _ _ => .isTrue trivial
  | .binval _ _ => .isTrue trivial
  | .run t => inferInstanceAs (Decidable (TakesClean s (s.pc t)))
  | .getblk _ _ _ => .isTrue trivial
  | .bread _ _ _ => .isTrue trivial
  | .bwrite _ _ => .isTrue trivial
  | .bdwrite _ _ => .isTrue trivial
  | .brelse _ _ => .isTrue trivial
  | .bioSync _ => .isTrue trivial

instance (s : State T D N) (op : Op T D N) : Decidable (Careful s op) := inferInstanceAs (Decidable (_ ∧ _))

def runs (t : T) (n : Nat) : List (Op T D N) := List.replicate n (.run t)

end
end OsvKernel.BufferCache
