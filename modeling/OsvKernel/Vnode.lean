import OsvKernel.Calls
import OsvKernel.Locks
import OsvKernel.Runs
import OsvKernel.Words

/-! The vnode table of fs/vfs/vfs_vnode.cc. A section under VNODE_LOCK is one step, except in vget, which may
wait for v_lock with VNODE_LOCK held. A thread in VOP_INACTIVE may make further calls. -/
namespace OsvKernel.Vnode
open List Function Option Runs Words

inductive Frame (V : Type) where
  | lock (v : V)
  | got (v : V)
  | unlock (v : V)
  | dying (v : V) (locked : Bool)
  | inactive (v : V) (locked : Bool)

/-- own, made, inactive and deleted are history. -/
structure State (T V : Type) where
  table : Nat → List V
  refcnt : V → Int
  mount : V → Nat
  ino : V → Nat
  vnodeLock : Option T
  vLock : V → Option (T × Nat)
  stack : T → List (Frame V)
  own : T → V → Nat
  made : V → Bool
  inactive : V → Nat
  deleted : V → Nat

inductive Op (T V : Type) where
  | vget (t : T) (mp ino : Nat) (new : V) (ok : Bool)
  | vref (t : T) (v : V)
  | vrele (t : T) (v : V)
  | vput (t : T) (v : V)
  | vnLock (t : T) (v : V)
  | vnUnlock (t : T) (v : V)
  | run (t : T)
  | hand (t u : T) (v : V)

def vnHash (mp ino : Nat) : Nat := (ino ^^^ mp) % 32

def Frame.busy {V : Type} : Frame V → Bool
  | .inactive _ _ => true
  | _ => false

def Frame.carried {V : Type} : Frame V → Option V
  | .lock v => some v
  | .got v => some v
  | _ => none

open State Frame

lemma busyCarried {V : Type} (x : Frame V) (busy : x.busy = true) : x.carried = none := by
  cases x <;> first | rfl | cases busy

def kind (V : Type) : Calls.Kind (Frame V) V := ⟨Frame.busy,Frame.carried,busyCarried⟩

section
variable {T V : Type} [DecidableEq T] [DecidableEq V]

def vnLookup (s : State T V) (mp ino : Nat) : Option V :=
  (s.table (vnHash mp ino)).find? fun v => s.mount v = mp ∧ s.ino v = ino

namespace State

def goto (s : State T V) (t : T) (stack : List (Frame V)) : State T V :=
  { s with stack := update s.stack t stack }

def push (s : State T V) (t : T) (x : Frame V) : State T V := s.goto t (x::s.stack t)

def refer (s : State T V) (t : T) (v : V) (n : Nat) : State T V :=
  { s with own := update s.own t (update (s.own t) v n) }

def take (s : State T V) (t : T) (v : V) : State T V := s.refer t v (s.own t v + 1)
def give (s : State T V) (t : T) (v : V) : State T V := s.refer t v (s.own t v - 1)
def setCount (s : State T V) (v : V) (n : Int) : State T V := { s with refcnt := update s.refcnt v n }
def setLock (s : State T V) (v : V) (l : Option (T × Nat)) : State T V := { s with vLock := update s.vLock v l }

end State

def raise (s : State T V) (t : T) (v : V) : State T V := (s.setCount v (int32 (s.refcnt v + 1))).take t v
def lower (s : State T V) (t : T) (v : V) : State T V := (s.setCount v (int32 (s.refcnt v - 1))).give t v

def insert (s : State T V) (t : T) (mp ino : Nat) (v : V) : State T V :=
  let s := ((s.setCount v 1).take t v).setLock v (some (t,1))
  { s with
    mount := update s.mount v mp
    ino := update s.ino v ino
    made := update s.made v true
    table := update s.table (vnHash mp ino) (v::s.table (vnHash mp ino)) }

def remove (s : State T V) (v : V) : State T V :=
  let h := vnHash (s.mount v) (s.ino v)
  { s with table := update s.table h ((s.table h).erase v) }

def vget (s : State T V) (t : T) (mp ino : Nat) (new : V) (ok : Bool) : Option (State T V) :=
  match vnLookup s mp ino with
  | some v => some ({ raise s t v with vnodeLock := some t }.push t (.lock v))
  | none =>
    if s.made new then none
    else if ok then some ((insert s t mp ino new).push t (.got new))
    else some s

def vput (s : State T V) (t : T) (v : V) : State T V :=
  let s := lower s t v
  if 0 < s.refcnt v then s.push t (.unlock v) else (remove s v).push t (.dying v true)

def vrele (s : State T V) (t : T) (v : V) : State T V :=
  let s := lower s t v
  if 0 < s.refcnt v then s else (remove s v).push t (.dying v false)

def run (s : State T V) (t : T) : Frame V → List (Frame V) → Option (State T V)
  | .lock v,rest => (Locks.acquire t (s.vLock v)).map fun l => { s.setLock v l with vnodeLock := none }.goto t (.got v::rest)
  | .got _,rest => some (s.goto t rest)
  | .unlock v,rest => some ((s.setLock v (Locks.release t (s.vLock v))).goto t rest)
  | .dying v locked,rest =>
    some ({ s with inactive := update s.inactive v (s.inactive v + 1) }.goto t (.inactive v locked::rest))
  | .inactive v locked,rest =>
    let s := s.setLock v (if locked then Locks.release t (s.vLock v) else s.vLock v)
    some ({ s with deleted := update s.deleted v (s.deleted v + 1) }.goto t rest)

def step (s : State T V) : Op T V → Option (State T V)
  | .vget t mp ino new ok => if (kind V).ready (s.stack t) ∧ s.vnodeLock = none then vget s t mp ino new ok else none
  | .vref t v => if (kind V).ready (s.stack t) ∧ s.vnodeLock = none then some (raise s t v) else none
  | .vrele t v => if (kind V).ready (s.stack t) ∧ s.vnodeLock = none then some (vrele s t v) else none
  | .vput t v => if (kind V).ready (s.stack t) ∧ s.vnodeLock = none then some (vput s t v) else none
  | .vnLock t v => if (kind V).ready (s.stack t) then (Locks.acquire t (s.vLock v)).map (s.setLock v) else none
  | .vnUnlock t v => if (kind V).ready (s.stack t) then some (s.setLock v (Locks.release t (s.vLock v))) else none
  | .run t =>
    match s.stack t with
    | [] => none
    | x::rest => run s t x rest
  | .hand t u v => if (kind V).ready (s.stack t) then some ((s.give t v).take u v) else none

def Holds (s : State T V) (t : T) (v : V) : Prop := (s.vLock v).map Prod.fst = some t

variable [Fintype T]

def outstanding (s : State T V) (v : V) : Nat := total fun t => s.own t v

/-- Threads release only what they hold; vref and vn_lock are for a vnode somebody has a reference to. -/
def Legal (s : State T V) : Op T V → Prop
  | .vref _ v => 0 < outstanding s v
  | .vrele t v => 0 < s.own t v
  | .vput t v => 0 < s.own t v ∧ Holds s t v
  | .vnLock _ v => 0 < outstanding s v
  | .vnUnlock t v => Holds s t v
  | .hand t _ v => 0 < s.own t v
  | _ => True

def Bounded (s : State T V) (op : Op T V) : Prop := Legal s op ∧ ∀ u ∈ step s op, ∀ v, outstanding u v < 2^31

def Start (s : State T V) : Prop :=
  (∀ h, s.table h = []) ∧ (∀ t, s.stack t = [] ∧ ∀ v, s.own t v = 0) ∧
  ∀ v, s.refcnt v = 0 ∧ s.made v = false ∧ s.inactive v = 0 ∧ s.deleted v = 0

def Frame.before : Frame V → Option V
  | .dying v _ => some v
  | _ => none

def Frame.undone : Frame V → Option V
  | .dying v _ => some v
  | .inactive v _ => some v
  | _ => none

def Releasing (s : State T V) (v : V) : Prop := ∃ t, ∃ x ∈ s.stack t, x.undone = some v

structure Sound (s : State T V) : Prop where
  single : ∀ h k v w, v ∈ s.table h → w ∈ s.table k → s.mount v = s.mount w → s.ino v = s.ino w → h = k ∧ v = w
  nodup : ∀ h, (s.table h).Nodup
  tabled : ∀ v, (∃ h, v ∈ s.table h) ↔ 0 < s.refcnt v
  counted : ∀ v, s.refcnt v = outstanding s v
  once : ∀ v, s.inactive v ≤ 1 ∧ s.deleted v ≤ s.inactive v
  late : ∀ v, 0 < s.inactive v → outstanding s v = 0
  done : ∀ v, s.made v = true → outstanding s v = 0 → ¬ Releasing s v → s.inactive v = 1 ∧ s.deleted v = 1
  got : ∀ t v rest, s.stack t = .got v::rest → 0 < s.refcnt v ∧ s.inactive v = 0 ∧ ¬ Releasing s v

/-! The invariant. -/

def dead (s : State T V) (v : V) : Nat := if s.made v = true ∧ outstanding s v = 0 then 1 else 0
def inFront (s : State T V) (v : V) : Nat := total fun t => (s.stack t).countP fun x => x.before = some v
def unfinished (s : State T V) (v : V) : Nat := total fun t => (s.stack t).countP fun x => x.undone = some v

structure Inv (s : State T V) : Prop where
  unmade : ∀ v, s.made v = false → outstanding s v = 0
  count : ∀ v, s.refcnt v = outstanding s v
  few : ∀ v, outstanding s v < 2^31
  listed : ∀ h v, v ∈ s.table h ↔ h = vnHash (s.mount v) (s.ino v) ∧ 0 < outstanding s v
  nodup : ∀ h, (s.table h).Nodup
  unique : ∀ v w, 0 < outstanding s v → 0 < outstanding s w → s.mount v = s.mount w → s.ino v = s.ino w → v = w
  inactive : ∀ v, s.inactive v + inFront s v = dead s v
  deleted : ∀ v, s.deleted v + unfinished s v = dead s v
  frames : ∀ t, (kind V).Carries (s.own t) (s.stack t)

variable {s u : State T V} {t : T} {v w : V} {rest : List (Frame V)} {x y : Frame V}

lemma outstandingRaise : outstanding (raise s t v) w = outstanding s w + if w = v then 1 else 0 := by
  have move := Calls.totalRefer s.own t v w (s.own t v + 1)
  change outstanding (raise s t v) w + _ = outstanding s w + _ at move
  split at move <;> simp_all only [if_true,if_false] <;> omega

lemma outstandingLower (mine : 0 < s.own t v) :
    outstanding (lower s t v) w + (if w = v then 1 else 0) = outstanding s w := by
  have move := Calls.totalRefer s.own t v w (s.own t v - 1)
  change outstanding (lower s t v) w + _ = outstanding s w + _ at move
  split at move <;> simp_all only [if_true,if_false] <;> omega

lemma Inv.recount (inv : Inv s) {d : Int} (count : u.refcnt = update s.refcnt v (int32 (s.refcnt v + d)))
    (out : ∀ w, (outstanding u w : Int) = outstanding s w + if w = v then d else 0) (few : ∀ w, outstanding u w < 2^31)
    (w : V) : u.refcnt w = outstanding u w := by
  have bound := few w
  rw [count,update_apply,out,inv.count,inv.count]
  split
  next same =>
    subst same
    have now := out w
    rw [if_pos rfl] at now
    exact int32Small (by omega) (by omega)
  next => omega

lemma Inv.raiseCount (inv : Inv s) (few : ∀ w, outstanding (raise s t v) w < 2^31) (w : V) :
    (raise s t v).refcnt w = outstanding (raise s t v) w :=
  inv.recount rfl (fun w => by rw [outstandingRaise]; split <;> rfl) few w

lemma Inv.lowerCount (inv : Inv s) (mine : 0 < s.own t v) (w : V) :
    (lower s t v).refcnt w = outstanding (lower s t v) w := by
  refine inv.recount (d := -1) rfl (fun w => ?_) (fun w => ?_) w <;> have now := @outstandingLower T V _ _ _ s t v w mine
  · split at now <;> simp_all only [if_true,if_false] <;> omega
  · exact Nat.lt_of_le_of_lt (by omega) (inv.few w)

def releasing (V : Type) : Calls.Kind (Frame V) V where
  busy x := x.undone.isSome
  carried := Frame.carried
  free x busy := by cases x <;> first | rfl | exact nomatch busy

lemma beforeReleasing (v : V) (x : Frame V) (mine : decide (x.before = some v) = true) : (releasing V).busy x = true := by
  cases x <;> first | rfl | cases of_decide_eq_true mine

lemma undoneReleasing (v : V) (x : Frame V) (mine : decide (x.undone = some v) = true) : (releasing V).busy x = true := by
  cases x <;> first | rfl | cases of_decide_eq_true mine

lemma busyReleasing (x : Frame V) (busy : x.busy = true) : (releasing V).busy x = true := by
  cases x <;> first | rfl | cases busy

/-- u has the references of x and is s otherwise, up to the stack of t. -/
structure Like (s x u : State T V) (t : T) : Prop where
  others : ∀ r, r ≠ t → u.stack r = s.stack r
  own : u.own = x.own
  count : u.refcnt = x.refcnt
  same : (u.table,u.mount,u.ino,u.made,u.inactive,u.deleted) = (s.table,s.mount,s.ino,s.made,s.inactive,s.deleted)

lemma Inv.plain (inv : Inv s) (before : (releasing V).Over rest (s.stack t))
    (after : (releasing V).Tops (u.own t) rest (u.stack t)) (busy : ∀ y ∈ rest, y.busy = true)
    (others : ∀ r, r ≠ t → u.stack r = s.stack r ∧ ∀ w, s.own r w ≤ u.own r w)
    (table : u.table = s.table) (mount : u.mount = s.mount) (ino : u.ino = s.ino) (made : u.made = s.made)
    (inactive : u.inactive = s.inactive) (deleted : u.deleted = s.deleted)
    (count : ∀ w, u.refcnt w = outstanding u w) (few : ∀ w, outstanding u w < 2^31)
    (positive : ∀ w, 0 < outstanding u w ↔ 0 < outstanding s w) : Inv u := by
  have dead : ∀ w, dead u w = dead s w := fun w => by
    have same : outstanding u w = 0 ↔ outstanding s w = 0 := by
      have := positive w
      omega
    simp [dead,made,same]
  have counts : ∀ (p : Frame V → Bool), (∀ x, p x = true → (releasing V).busy x = true) →
    ∀ r, (u.stack r).countP p = (s.stack r).countP p := fun p only r => by
    by_cases mine : r = t
    · subst mine
      exact (after.over.count only).trans (before.count only).symm
    · rw [(others r mine).1]
  refine ⟨fun w fresh => ?_,count,few,fun h w => ?_,table ▸ inv.nodup,fun v w here there => ?_,fun w => ?_,fun w => ?_,
    fun r => ?_⟩
  · have none := inv.unmade w (made ▸ fresh)
    have := positive w
    omega
  · rw [table,mount,ino,positive]
    exact inv.listed h w
  · rw [mount,ino]
    exact inv.unique v w ((positive v).mp here) ((positive w).mp there)
  · rw [inactive,dead,inFront,totalSame (counts _ (beforeReleasing w))]
    exact inv.inactive w
  · rw [deleted,dead,unfinished,totalSame (counts _ (undoneReleasing w))]
    exact inv.deleted w
  by_cases mine : r = t
  · subst mine
    have tops : (kind V).Tops (u.own r) rest (u.stack r) := after.mono busyReleasing rfl
    exact tops.carries busy
  rw [(others r mine).1]
  exact (inv.frames r).grow (others r mine).2

variable {stack : List (Frame V)} {i mp : Nat}

lemma countTop (p : Frame V → Option V) (mine : p x = some v) :
    (x::rest).countP (fun y => p y = some w) = rest.countP (fun y => p y = some w) + if w = v then 1 else 0 := by
  rw [countP_cons,mine]
  simp [some.injEq,decide_eq_true_eq,eq_comm (a := v)]

section
variable (inv : Inv s)
include inv

lemma Inv.turn (here : u.stack = update s.stack t stack)
    (carries : (kind V).Carries (u.own t) stack) (others : ∀ r, r ≠ t → u.own r = s.own r)
    (unmade : ∀ w, u.made w = false → outstanding u w = 0) (count : ∀ w, u.refcnt w = outstanding u w)
    (few : ∀ w, outstanding u w < 2^31)
    (listed : ∀ h w, w ∈ u.table h ↔ h = vnHash (u.mount w) (u.ino w) ∧ 0 < outstanding u w)
    (nodup : ∀ h, (u.table h).Nodup)
    (unique : ∀ v w, 0 < outstanding u v → 0 < outstanding u w → u.mount v = u.mount w → u.ino v = u.ino w → v = w)
    (inactive : ∀ w, u.inactive w + stack.countP (fun x => x.before = some w) + dead s w =
      s.inactive w + (s.stack t).countP (fun x => x.before = some w) + dead u w)
    (deleted : ∀ w, u.deleted w + stack.countP (fun x => x.undone = some w) + dead s w =
      s.deleted w + (s.stack t).countP (fun x => x.undone = some w) + dead u w) : Inv u := by
  refine ⟨unmade,count,few,listed,nodup,unique,fun w => ?_,fun w => ?_,fun r => ?_⟩
  · have moved := Calls.totalStack s.stack t stack fun x => x.before = some w
    have now := inactive w
    have was := inv.inactive w
    unfold inFront at was ⊢
    rw [here]
    omega
  · have moved := Calls.totalStack s.stack t stack fun x => x.undone = some w
    have now := deleted w
    have was := inv.deleted w
    unfold unfinished at was ⊢
    rw [here]
    omega
  by_cases mine : r = t
  · subst mine
    rw [here,update_self]
    exact carries
  rw [here,update_of_ne mine,others r mine]
  exact inv.frames r

lemma Inv.inserted (free : (kind V).ready (s.stack t) = true) (fresh : s.made v = false)
    (absent : vnLookup s mp i = none) (eq : u = (insert s t mp i v).push t (.got v))
    (few : ∀ w, outstanding u w < 2^31) : Inv u := by
  have zero := inv.unmade v fresh
  have out : ∀ w, outstanding u w = outstanding s w + if w = v then 1 else 0 := fun w => by
    rw [eq]
    exact @outstandingRaise T V _ _ _ s t v w
  have made : ∀ w, u.made w = if w = v then true else s.made w := fun w => eq ▸ update_apply _ _ _ _
  have count : ∀ w, u.refcnt w = if w = v then 1 else s.refcnt w := fun w => eq ▸ update_apply _ _ _ _
  have mount : ∀ w, u.mount w = if w = v then mp else s.mount w := fun w => eq ▸ update_apply _ _ _ _
  have ino : ∀ w, u.ino w = if w = v then i else s.ino w := fun w => eq ▸ update_apply _ _ _ _
  have table : ∀ h, u.table h = if h = vnHash mp i then v::s.table (vnHash mp i) else s.table h :=
    fun h => eq ▸ update_apply _ _ _ _
  have unlisted : ∀ h, v ∉ s.table h := fun h mem => by
    have := ((inv.listed h v).mp mem).2
    omega
  have missing : ∀ w, 0 < outstanding s w → s.mount w = mp → s.ino w = i → False := fun w here there same => by
    have listed := (inv.listed _ w).mpr ⟨by rw [there,same],here⟩
    have unlike := List.find?_eq_none.mp absent w listed
    simp only [decide_eq_true_eq] at unlike
    exact unlike ⟨there,same⟩
  have alive : ∀ w, dead u w = dead s w := fun w => by
    simp only [dead,made,out]
    by_cases same : w = v
    · subst same
      simp only [if_true,fresh]
      rw [if_neg (by omega),if_neg (fun both => nomatch both.1)]
    · simp [if_neg same]
  have own : u.own t v = s.own t v + 1 := by
    rw [eq]
    simp [State.push,State.goto,insert,State.take,State.refer,State.setCount,State.setLock,update_self]
  have here : u.stack = update s.stack t (.got v::s.stack t) := by
    rw [eq]
    rfl
  refine inv.turn here ⟨?_,(inv.frames t).busy free⟩ (fun r ne => by rw [eq]; exact update_of_ne ne _ _) (fun w unmade => ?_)
    (fun w => ?_) few (fun h w => ?_) (fun h => ?_) (fun a b => ?_) (fun w => ?_) fun w => ?_
  · intro r carried
    cases carried
    omega
  · rw [made] at unmade
    split at unmade
    · cases unmade
    next other => rw [out,if_neg other,inv.unmade w unmade]
  · rw [count,out]
    split
    next same => rw [same,zero]; rfl
    next => rw [inv.count]; rfl
  · have listed := inv.listed h w
    have absent := unlisted h
    rw [table,mount,ino,out]
    by_cases same : w = v
    · subst same
      by_cases bucket : h = vnHash mp i <;> simp [bucket,absent]
    by_cases bucket : h = vnHash mp i
    · subst bucket
      simpa [same] using listed
    · simpa [same,bucket] using listed
  · rw [table]
    split
    next => exact nodup_cons.mpr ⟨unlisted _,inv.nodup _⟩
    next => exact inv.nodup h
  · rw [out,out,mount,mount,ino,ino]
    intro here there
    by_cases first : a = v <;> by_cases second : b = v
    · exact fun _ _ => first.trans second.symm
    · simp only [if_pos first,if_neg second] at here there ⊢
      exact fun m i => (missing b (by omega) m.symm i.symm).elim
    · simp only [if_neg first,if_pos second] at here there ⊢
      exact fun m i => (missing a (by omega) m i).elim
    simp only [if_neg first,if_neg second] at here there ⊢
    exact inv.unique a b (by omega) (by omega)
  · have same : u.inactive = s.inactive := eq ▸ rfl
    rw [same,alive,countP_cons_of_neg (by simp [before])]
  have same : u.deleted = s.deleted := eq ▸ rfl
  rw [same,alive,countP_cons_of_neg (by simp [undone])]

lemma Inv.last (free : (kind V).ready (s.stack t) = true) (mine : 0 < s.own t v) {locked : Bool}
    (none : ¬ 0 < (lower s t v).refcnt v) (eq : u = (remove (lower s t v) v).push t (.dying v locked)) : Inv u := by
  have out : ∀ w, outstanding u w + (if w = v then 1 else 0) = outstanding s w := fun w => by
    rw [eq]
    exact @outstandingLower T V _ _ _ s t v w mine
  have count : ∀ w, u.refcnt w = outstanding u w := by
    rw [eq]
    exact inv.lowerCount mine
  have zero : outstanding u v = 0 := by
    have same : (lower s t v).refcnt v = u.refcnt v := eq ▸ rfl
    have := count v
    omega
  have one : outstanding s v = 1 := by
    have := out v
    rw [if_pos rfl] at this
    omega
  have made : u.made = s.made := eq ▸ rfl
  have mount : u.mount = s.mount := eq ▸ rfl
  have ino : u.ino = s.ino := eq ▸ rfl
  have table : ∀ h, u.table h = (s.table h).erase v := fun h => by
    have updated : u.table h = if h = vnHash (s.mount v) (s.ino v) then (s.table (vnHash (s.mount v) (s.ino v))).erase v
      else s.table h := eq ▸ update_apply _ _ _ _
    rw [updated]
    split
    next same => rw [same]
    next other => exact (erase_of_not_mem fun mem => other ((inv.listed h v).mp mem).1).symm
  have known : s.made v = true := by
    cases fresh : s.made v
    case true => rfl
    have := inv.unmade v fresh
    omega
  have dies : ∀ w, dead u w = dead s w + if w = v then 1 else 0 := fun w => by
    have now := out w
    by_cases same : w = v
    · subst same
      rw [dead,dead,made,if_pos ⟨known,zero⟩,if_neg (by omega),if_pos rfl]
    rw [if_neg same] at now ⊢
    simp [dead,made,← now]
  have here : u.stack = update s.stack t (.dying v locked::s.stack t) := by
    rw [eq]
    rfl
  refine inv.turn here ⟨nofun,(inv.frames t).busy free⟩
    (fun r ne => by rw [eq]; exact update_of_ne ne _ _) (fun w unmade => ?_)
    count (fun w => ?_) (fun h w => ?_) (fun h => ?_) (fun a b here there => ?_) (fun w => ?_) fun w => ?_
  · have := inv.unmade w (made ▸ unmade)
    have := out w
    omega
  · have := inv.few w
    have := out w
    omega
  · have now := out w
    rw [table,(inv.nodup h).mem_erase_iff,inv.listed,mount,ino]
    by_cases same : w = v
    · subst same
      rw [zero]
      exact ⟨fun both => (both.1 rfl).elim,fun both => (Nat.lt_irrefl _ both.2).elim⟩
    rw [if_neg same] at now
    rw [← now]
    exact ⟨And.right,fun both => ⟨same,both⟩⟩
  · rw [table]
    exact (inv.nodup h).erase v
  · rw [mount,ino]
    have := out a
    have := out b
    exact inv.unique a b (by omega) (by omega)
  · have same : u.inactive = s.inactive := eq ▸ rfl
    rw [same,dies,countTop before (v := v) rfl]
    omega
  have same : u.deleted = s.deleted := eq ▸ rfl
  rw [same,dies,countTop undone (v := v) rfl]
  omega

lemma Inv.moves (here : u.stack = update s.stack t stack)
    (carries : (kind V).Carries (s.own t) stack) (own : u.own = s.own) (made : u.made = s.made) (count : u.refcnt = s.refcnt)
    (table : u.table = s.table) (mount : u.mount = s.mount) (ino : u.ino = s.ino)
    (inactive : ∀ w, u.inactive w + stack.countP (fun x => x.before = some w) =
      s.inactive w + (s.stack t).countP fun x => x.before = some w)
    (deleted : ∀ w, u.deleted w + stack.countP (fun x => x.undone = some w) =
      s.deleted w + (s.stack t).countP fun x => x.undone = some w) : Inv u := by
  have out : ∀ w, outstanding u w = outstanding s w := fun w => by rw [outstanding,own,outstanding]
  have same : ∀ w, dead u w = dead s w := fun w => by rw [dead,made,out,dead]
  refine inv.turn here (own ▸ carries) (fun r _ => own ▸ rfl) (fun w => ?_) (fun w => ?_) (fun w => ?_) (fun h w => ?_)
    (table ▸ inv.nodup) (fun a b => ?_) (fun w => ?_) fun w => ?_
  · rw [made,out]
    exact inv.unmade w
  · rw [count,out]
    exact inv.count w
  · rw [out]
    exact inv.few w
  · rw [table,mount,ino,out]
    exact inv.listed h w
  · rw [out,out,mount,ino]
    exact inv.unique a b
  · rw [inactive,same]
  · rw [deleted,same]

lemma Inv.like {x : State T V} (like : Like s x u t) (before : (releasing V).Over rest (s.stack t))
    (after : (releasing V).Tops (u.own t) rest (u.stack t)) (busy : ∀ y ∈ rest, y.busy = true)
    (more : ∀ r, r ≠ t → ∀ w, s.own r w ≤ x.own r w) (count : ∀ w, x.refcnt w = outstanding x w)
    (few : ∀ w, outstanding x w < 2^31) (positive : ∀ w, 0 < outstanding x w ↔ 0 < outstanding s w) : Inv u := by
  obtain ⟨others,own,counts,same⟩ := like
  have out : ∀ w, outstanding u w = outstanding x w := fun w => by rw [outstanding,own,outstanding]
  simp only [Prod.mk.injEq] at same
  obtain ⟨table,mount,ino,made,inactive,deleted⟩ := same
  refine inv.plain before after busy (fun r ne => ⟨others r ne,fun w => own ▸ more r ne w⟩) table mount ino made
    inactive deleted (fun w => ?_) (fun w => ?_) fun w => ?_
  · rw [counts,out]
    exact count w
  · rw [out]
    exact few w
  rw [out]
  exact positive w

lemma Inv.quiet (before : (releasing V).Over rest (s.stack t)) (after : (releasing V).Tops (s.own t) rest (u.stack t))
    (busy : ∀ y ∈ rest, y.busy = true) (like : Like s s u t) : Inv u :=
  inv.like like before (like.own ▸ after) busy (fun _ _ _ => Nat.le_refl _) inv.count inv.few fun _ => Iff.rfl

lemma Inv.runs (here : s.stack t = x::rest) (taken : run s t x rest = some u) : Inv u := by
  have busy : ∀ y ∈ rest, y.busy = true := by
    have frames := inv.frames t
    rw [here] at frames
    exact frames.2
  have carried : ∀ w ∈ x.carried, 0 < s.own t w := by
    have frames := inv.frames t
    rw [here] at frames
    exact frames.1
  have others : ∀ (stack : List (Frame V)) r, r ≠ t → update s.stack t stack r = s.stack r :=
    fun _ _ ne => update_of_ne ne _ _
  cases x with
  | lock v =>
    obtain ⟨l,_,rfl⟩ := map_eq_some_iff.mp taken
    exact inv.quiet (.inr ⟨_,here,rfl⟩) (.inr ⟨.got v,update_self _ _ _,rfl,carried⟩) busy ⟨others _,rfl,rfl,rfl⟩
  | got _ | unlock _ =>
    cases taken
    exact inv.quiet (.inr ⟨_,here,rfl⟩) (.inl (update_self _ _ _)) busy ⟨others _,rfl,rfl,rfl⟩
  | dying v locked =>
    cases taken
    refine inv.moves (t := t) rfl ⟨nofun,busy⟩ rfl rfl rfl rfl rfl rfl (fun w => ?_) fun w => ?_
    · rw [here,countP_cons_of_neg (by simp [before]),countTop before (v := v) rfl]
      simp only [goto,update_apply]
      split
      next same =>
        subst same
        omega
      next => omega
    rw [here,countTop undone (v := v) rfl,countTop undone (v := v) rfl]
    rfl
  | inactive v locked => ?_
  cases taken
  refine inv.moves (t := t) rfl (Calls.Kind.carriesBusy busy) rfl rfl rfl rfl rfl rfl (fun w => ?_) fun w => ?_
  · rw [here,countP_cons_of_neg (by simp [before])]
    rfl
  rw [here,countTop undone (v := v) rfl]
  simp only [goto,setLock,update_apply]
  split
  next same =>
    subst same
    omega
  next => omega

section
variable (free : (kind V).ready (s.stack t) = true)
include free

lemma Inv.raises (alive : 0 < outstanding s v) (after : (releasing V).Tops (u.own t) (s.stack t) (u.stack t))
    (like : Like s (raise s t v) u t) (few : ∀ w, outstanding (raise s t v) w < 2^31) : Inv u := by
  refine inv.like like (.inl rfl) after ((inv.frames t).busy free) (fun r ne w => ?_) (inv.raiseCount few) few fun w => ?_
  · exact Nat.le_of_eq (congrFun (update_of_ne ne _ _).symm w)
  rw [outstandingRaise]
  split
  next same =>
    subst same
    omega
  next => omega

lemma Inv.lowers (mine : 0 < s.own t v) (more : 0 < (lower s t v).refcnt v)
    (after : (releasing V).Tops (u.own t) (s.stack t) (u.stack t)) (like : Like s (lower s t v) u t) : Inv u := by
  have left : ∀ w, outstanding (lower s t v) w + (if w = v then 1 else 0) = outstanding s w := fun w =>
    outstandingLower mine
  refine inv.like like (.inl rfl) after ((inv.frames t).busy free) (fun r ne w => ?_) (inv.lowerCount mine) (fun w => ?_) fun w => ?_
  · exact Nat.le_of_eq (congrFun (update_of_ne ne _ _).symm w)
  · have := left w
    have := inv.few w
    omega
  have now := left w
  split at now
  next same =>
    subst same
    have := inv.lowerCount mine w
    omega
  next => omega

lemma Inv.hands (mine : 0 < s.own t v) (r : T) : Inv ((s.give t v).take r v) := by
  have out : ∀ w, outstanding ((s.give t v).take r v) w = outstanding s w := fun w => by
    have given := Calls.totalRefer s.own t v w (s.own t v - 1)
    have taken := Calls.totalRefer (s.give t v).own r v w ((s.give t v).own r v + 1)
    change outstanding (s.give t v) w + _ = outstanding s w + _ at given
    change outstanding ((s.give t v).take r v) w + _ = outstanding (s.give t v) w + _ at taken
    split at given <;> simp_all only [if_true,if_false] <;> omega
  refine inv.plain (u := (s.give t v).take r v) (t := t) (.inl rfl) (.inl rfl) ((inv.frames t).busy free)
    (fun q ne => ⟨rfl,fun w => ?_⟩) rfl rfl rfl rfl rfl rfl (fun w => ?_) (fun w => ?_) fun w => ?_
  · simp only [State.take,State.give,State.refer,update_apply]
    grind
  · rw [out]
    exact inv.count w
  · rw [out]
    exact inv.few w
  · rw [out]

end

lemma Inv.lookup (found : vnLookup s mp i = some v) : 0 < outstanding s v :=
  ((inv.listed _ v).mp (mem_of_find?_eq_some found)).2

lemma Inv.releases (free : (kind V).ready (s.stack t) = true) (mine : 0 < s.own t v) :
    Inv (vrele s t v) ∧ Inv (vput s t v) := by
  have others : ∀ (stack : List (Frame V)) r, r ≠ t → update s.stack t stack r = s.stack r :=
    fun _ _ ne => update_of_ne ne _ _
  simp only [vrele,vput]
  by_cases more : 0 < (lower s t v).refcnt v
  · rw [if_pos more,if_pos more]
    refine ⟨?_,?_⟩
    · exact inv.lowers free mine more (.inl rfl) ⟨fun _ _ => rfl,rfl,rfl,rfl⟩
    · exact inv.lowers free mine more (.inr ⟨.unlock v,update_self _ _ _,rfl,nofun⟩) ⟨others _,rfl,rfl,rfl⟩
  rw [if_neg more,if_neg more]
  exact ⟨inv.last free mine more rfl,inv.last free mine more rfl⟩

lemma Inv.step {op : Op T V} (ok : Bounded s op) (taken : step s op = some u) : Inv u := by
  obtain ⟨legal,bound⟩ := ok
  have few := bound u taken
  have others : ∀ (t : T) (stack : List (Frame V)) r, r ≠ t → update s.stack t stack r = s.stack r :=
    fun _ _ _ ne => update_of_ne ne _ _
  cases op with
  | vget t mp i new ok => ?_
  | vref t v =>
    obtain ⟨⟨free,_⟩,taken⟩ := ite_none_right_eq_some.mp taken
    cases taken
    exact inv.raises free legal (.inl rfl) ⟨fun _ _ => rfl,rfl,rfl,rfl⟩ few
  | vrele t v =>
    obtain ⟨⟨free,_⟩,taken⟩ := ite_none_right_eq_some.mp taken
    exact some.inj taken ▸ (inv.releases free legal).1
  | vput t v =>
    obtain ⟨⟨free,_⟩,taken⟩ := ite_none_right_eq_some.mp taken
    exact some.inj taken ▸ (inv.releases free legal.1).2
  | vnLock t v =>
    obtain ⟨free,taken⟩ := ite_none_right_eq_some.mp taken
    obtain ⟨l,_,rfl⟩ := map_eq_some_iff.mp taken
    exact inv.quiet (t := t) (.inl rfl) (.inl rfl) ((inv.frames t).busy free) ⟨fun _ _ => rfl,rfl,rfl,rfl⟩
  | vnUnlock t v =>
    obtain ⟨free,taken⟩ := ite_none_right_eq_some.mp taken
    cases taken
    exact inv.quiet (t := t) (.inl rfl) (.inl rfl) ((inv.frames t).busy free) ⟨fun _ _ => rfl,rfl,rfl,rfl⟩
  | run t =>
    simp only [Vnode.step] at taken
    split at taken
    · cases taken
    next x rest here => exact inv.runs here taken
  | hand t r v =>
    obtain ⟨free,taken⟩ := ite_none_right_eq_some.mp taken
    exact some.inj taken ▸ inv.hands free legal r
  obtain ⟨⟨free,_⟩,taken⟩ := ite_none_right_eq_some.mp taken
  simp only [vget] at taken
  split at taken
  next v found =>
    cases taken
    have own : (raise s t v).own t v = s.own t v + 1 := by
      simp [raise,State.take,State.refer,State.setCount,update_self]
    refine inv.raises free (inv.lookup found) (.inr ⟨.lock v,update_self _ _ _,rfl,fun w carried => ?_⟩)
      ⟨others t _,rfl,rfl,rfl⟩ few
    cases carried
    change 0 < (raise s t v).own t v
    omega
  next absent =>
    split at taken
    · cases taken
    rename_i fresh
    split at taken
    · exact inv.inserted free (Bool.eq_false_iff.mpr fresh) absent (some.inj taken).symm few
    · exact some.inj taken ▸ inv

end

lemma Start.inv (start : Start s) : Inv s := by
  obtain ⟨tables,threads,vnodes⟩ := start
  have zero : ∀ w, outstanding s w = 0 := fun w => totalZero fun r => (threads r).2 w
  have alive : ∀ w, dead s w = 0 := fun w => if_neg fun both => nomatch both.1.symm.trans (vnodes w).2.1
  refine ⟨fun w _ => zero w,fun w => ?_,fun w => ?_,fun h w => ?_,fun h => ?_,fun v _ pos => ?_,fun w => ?_,fun w => ?_,
    fun r => ?_⟩
  · rw [zero,(vnodes w).1]
    rfl
  · rw [zero]
    decide
  · rw [tables,zero]
    exact ⟨nofun,fun both => nomatch both.2⟩
  · rw [tables]
    exact .nil
  · rw [zero] at pos
    cases pos
  · rw [alive,(vnodes w).2.2.1,inFront,totalZero fun r => by rw [(threads r).1]; rfl]
  · rw [alive,(vnodes w).2.2.2,unfinished,totalZero fun r => by rw [(threads r).1]; rfl]
  rw [(threads r).1]
  trivial

lemma notReleasing (done : ¬ Releasing s v) : unfinished s v = 0 :=
  totalZero fun r => countP_eq_zero.mpr fun x mem mine => done ⟨r,x,mem,of_decide_eq_true mine⟩

lemma releasingUnfinished (held : Releasing s v) : 0 < unfinished s v := by
  obtain ⟨r,x,mem,mine⟩ := held
  have here : 0 < (s.stack r).countP fun x => x.undone = some v := countP_pos_iff.mpr ⟨x,mem,decide_eq_true mine⟩
  exact Nat.lt_of_lt_of_le here (leTotal (fun r => (s.stack r).countP fun x => x.undone = some v) r)

lemma inFrontUnfinished (s : State T V) (v : V) : inFront s v ≤ unfinished s v := by
  refine totalLe fun r => countP_mono_left fun x _ mine => decide_eq_true ?_
  cases x <;> first | exact of_decide_eq_true mine | cases of_decide_eq_true mine

lemma Inv.sound (inv : Inv s) : Sound s := by
  have alive : ∀ v, 0 < outstanding s v → dead s v = 0 := fun v pos => if_neg fun both => by omega
  have small : ∀ v, dead s v ≤ 1 := fun v => by
    unfold dead
    split <;> omega
  refine ⟨fun h k v w here there mount ino => ?_,inv.nodup,fun v => ?_,inv.count,fun v => ?_,fun v begun => ?_,
    fun v made none done => ?_,fun t v rest here => ?_⟩
  · obtain ⟨bucket,first⟩ := (inv.listed h v).mp here
    obtain ⟨other,second⟩ := (inv.listed k w).mp there
    refine ⟨?_,inv.unique v w first second mount ino⟩
    rw [bucket,other,mount,ino]
  · have count := inv.count v
    refine ⟨fun ⟨h,mem⟩ => ?_,fun pos => ⟨_,(inv.listed _ v).mpr ⟨rfl,by omega⟩⟩⟩
    have := ((inv.listed h v).mp mem).2
    omega
  · have := inv.inactive v
    have := inv.deleted v
    have := inFrontUnfinished s v
    have := small v
    omega
  · by_contra some
    have := alive v (by omega)
    have := inv.inactive v
    omega
  · have dead : dead s v = 1 := if_pos ⟨made,none⟩
    have := notReleasing done
    have := inFrontUnfinished s v
    have := inv.inactive v
    have := inv.deleted v
    omega
  have frames := inv.frames t
  rw [here] at frames
  have mine := frames.1 v rfl
  have := leTotal (fun r => s.own r v) t
  have pos : 0 < outstanding s v := Nat.lt_of_lt_of_le mine this
  have := alive v pos
  have := inv.inactive v
  have := inv.deleted v
  have := inv.count v
  refine ⟨by omega,by omega,fun some => ?_⟩
  have := releasingUnfinished some
  omega

theorem vnodesReleasedOnce (reach : Reach step Bounded Start s) : Sound s := by
  have inv := invariant (P := Inv) (fun _ => Start.inv) (fun _ _ _ inv allowed taken => inv.step allowed taken) reach
  exact inv.sound

instance (s : State T V) (t : T) (v : V) : Decidable (Holds s t v) := by unfold Holds; infer_instance

instance (s : State T V) : ∀ op, Decidable (Legal s op)
  | .vref _ v => inferInstanceAs (Decidable (0 < outstanding s v))
  | .vrele t v => inferInstanceAs (Decidable (0 < s.own t v))
  | .vput t v => inferInstanceAs (Decidable (0 < s.own t v ∧ Holds s t v))
  | .vnLock _ v => inferInstanceAs (Decidable (0 < outstanding s v))
  | .vnUnlock t v => inferInstanceAs (Decidable (Holds s t v))
  | .hand t _ v => inferInstanceAs (Decidable (0 < s.own t v))
  | .vget _ _ _ _ _ => .isTrue trivial
  | .run _ => .isTrue trivial

instance [Fintype V] (s : State T V) (op : Op T V) : Decidable (Bounded s op) :=
  inferInstanceAs (Decidable (_ ∧ ∀ u ∈ Vnode.step s op, ∀ v, outstanding u v < 2^31))

def noVnodes : State T V :=
  ⟨fun _ => [],fun _ => 0,fun _ => 0,fun _ => 0,none,fun _ => none,fun _ => [],fun _ _ => 0,fun _ => false,fun _ => 0,
    fun _ => 0⟩

lemma noVnodesStart : Start (noVnodes : State T V) :=
  ⟨fun _ => rfl,fun _ => ⟨rfl,fun _ => rfl⟩,fun _ => ⟨rfl,rfl,rfl,rfl⟩⟩

def gotAgain : List (Op (Fin 2) (Fin 2)) :=
  [.vget 0 1 7 0 true,.run 0,.vnUnlock 0 0,.vget 1 1 7 1 true,.run 1,.run 1,.vrele 0 0,.vput 1 0,.run 1,.vget 0 1 7 1 true,
    .run 0,.run 1]

theorem vnodesReleasedOnceAgain : Reach step Bounded Start (final step Bounded noVnodes gotAgain) ∧
    Sound (final step Bounded noVnodes gotAgain) ∧
    (final step Bounded noVnodes gotAgain).deleted 0 = 1 ∧
    (final step Bounded noVnodes gotAgain).refcnt 1 = 1 := by
  have reach : Reach step Bounded Start (final step Bounded noVnodes gotAgain) :=
    reachFinal gotAgain noVnodesStart rfl
  exact ⟨reach,vnodesReleasedOnce reach,rfl,rfl⟩

lemma referredReach (k : Nat) : ∃ s : State (Fin 1) (Fin 1), Reach step Legal Start s ∧
    s.stack 0 = [] ∧ s.vnodeLock = none ∧ s.own 0 0 = k + 1 ∧ s.refcnt 0 = int32 (k + 1) := by
  induction k with
  | zero =>
    have reach : Reach step Legal Start
      (final step Legal (noVnodes : State (Fin 1) (Fin 1)) [.vget 0 0 0 0 true,.run 0]) :=
      reachFinal _ noVnodesStart rfl
    exact ⟨_,reach,rfl,rfl,rfl,rfl⟩
  | succ k ih => ?_
  obtain ⟨s,reach,idle,unlocked,own,count⟩ := ih
  have alive : Legal s (.vref 0 0) := Nat.lt_of_lt_of_le (by omega) (leTotal (fun r => s.own r 0) 0)
  have taken : step s (.vref 0 0) = some (raise s 0 0) := by
    simp [step,idle,Calls.Kind.ready,unlocked,and_self]
  refine ⟨raise s 0 0,.next reach alive taken,idle,unlocked,?_,?_⟩
  · simp [raise,State.take,State.refer,State.setCount,update_self,own]
  have next : (raise s 0 0).refcnt 0 = int32 (s.refcnt 0 + 1) := by
    simp [raise,State.take,State.refer,State.setCount,update_self]
  rw [next,count,int32Add]
  rfl

theorem refcntWraps : ∃ s : State (Fin 1) (Fin 1), Reach step Legal Start s ∧
    s.refcnt 0 = -2^31 ∧ outstanding s 0 = 2^31 ∧ ¬ Sound s := by
  obtain ⟨s,reach,_,_,own,count⟩ := referredReach (2^31 - 1)
  have wrapped : s.refcnt 0 = -2^31 := by
    rw [count]
    decide
  have many : outstanding s 0 = 2^31 := by
    have out : outstanding s 0 = s.own 0 0 := by
      simp only [outstanding,total,Fintype.sum_unique]
      rfl
    omega
  refine ⟨s,reach,wrapped,many,fun sound => ?_⟩
  have counted := sound.counted 0
  omega

end
end OsvKernel.Vnode
