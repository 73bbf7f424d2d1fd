import OsvKernel.Runs

/-! Registrations of epoll: the map of every epoll file and the f_epolls list of every file. A null f_epolls is
the empty list. Files are named by F and a name is not used again. The map of a closed epoll file is gone. -/
namespace OsvKernel.EpollReg
open List Function Runs

section
variable {F : Type}

structure Key (F : Type) where
  fd : Nat
  file : F
  deriving DecidableEq

structure Event where
  events : UInt32
  data : UInt64
  deriving DecidableEq

structure EpollPtr (F : Type) where
  epoll : F
  key : Key F
  deriving DecidableEq

def epollet : UInt32 := 0x80000000
def epolloneshot : UInt32 := 0x40000000

inductive Status
  | fresh
  | opened
  | closed
  deriving DecidableEq

structure State (F : Type) where
  status : F → Status
  maps : F → List (Key F × Event)
  epolls : F → List (EpollPtr F)

variable [DecidableEq F]

def find (map : List (Key F × Event)) (key : Key F) : Option Event := (map.find? fun e => e.1 = key).map Prod.snd

def State.setMap (s : State F) (e : F) (map : List (Key F × Event)) : State F :=
  { s with maps := update s.maps e map }

def epollAdd (s : State F) (f : F) (ep : EpollPtr F) : State F :=
  if ep ∈ s.epolls f then s else { s with epolls := update s.epolls f (s.epolls f ++ [ep]) }

def epollDel (s : State F) (f : F) (ep : EpollPtr F) : State F :=
  { s with epolls := update s.epolls f ((s.epolls f).erase ep) }

inductive Ret
  | ok
  | eexist
  | enoent
  deriving DecidableEq

def add (s : State F) (e : F) (key : Key F) (event : Event) : State F × Ret :=
  if (find (s.maps e) key).isSome then (s,.eexist)
  else (epollAdd (s.setMap e ((key,event)::s.maps e)) key.file ⟨e,key⟩,.ok)

def assign (map : List (Key F × Event)) (key : Key F) (event : Event) : List (Key F × Event) :=
  map.map fun e => if e.1 = key then (key,event) else e

def mod (s : State F) (e : F) (key : Key F) (event : Event) : State F × Ret :=
  if (find (s.maps e) key).isSome then (epollAdd (s.setMap e (assign (s.maps e) key event)) key.file ⟨e,key⟩,.ok)
  else (s,.enoent)

def del (s : State F) (e : F) (key : Key F) : State F × Ret :=
  if (find (s.maps e) key).isSome then
    (epollDel (s.setMap e ((s.maps e).filter fun x => x.1 ≠ key)) key.file ⟨e,key⟩,.ok)
  else (s,.enoent)

structure Processed (F : Type) where
  state : State F
  activity : List (Key F)
  events : List Event
  looked : List (Key F)

def activeEvents (poll : F → UInt32 → UInt32) (key : Key F) (evt : Event) : UInt32 :=
  if evt.events ≠ 0 then poll key.file evt.events else 0

def remains (evt : Event) (active : UInt32) : Bool := !(active = 0 ∨ evt.events &&& epollet ≠ 0)

def deliver (e : F) (s : State F) (key : Key F) (evt : Event) (active : UInt32) : State F :=
  let s := if remains evt active then epollAdd s key.file ⟨e,key⟩ else s
  if active ≠ 0 ∧ evt.events &&& epolloneshot ≠ 0 then
    epollDel (s.setMap e (assign (s.maps e) key { evt with events := 0 })) key.file ⟨e,key⟩
  else s

def processActivity (poll : F → UInt32 → UInt32) (e : F) (maxevents : Nat) : List (Key F) → Nat → State F → Processed F
  | [],_,s => ⟨s,[],[],[]⟩
  | key::rest,nr,s =>
    if nr < maxevents then
      match find (s.maps e) key with
      | none =>
        let later := processActivity poll e maxevents rest nr s
        { later with looked := key::later.looked }
      | some evt =>
        let active := activeEvents poll key evt
        let later := processActivity poll e maxevents rest (if active = 0 then nr else nr + 1) (deliver e s key evt active)
        ⟨later.state,if remains evt active then key::later.activity else later.activity,
          if active = 0 then later.events else ⟨active,evt.data⟩::later.events,key::later.looked⟩
    else ⟨s,key::rest,[],[]⟩

def stopSlots (f : F) : Nat → Nat → List (EpollPtr F) → State F → State F
  | 0,_,_,s => s
  | n+1,i,stale,s =>
    match (s.epolls f ++ stale)[i]? with
    | none => s
    | some ep =>
      let t := (del s ep.epoll ep.key).1
      let stale := if (t.epolls f).length < (s.epolls f).length then (s.epolls f).getLast?.toList ++ stale else stale
      stopSlots f n (i + 1) stale t

def stopPolls (s : State F) (f : F) : State F := stopSlots f (s.epolls f).length 0 [] s

def close (s : State F) (e : F) : State F :=
  ((s.maps e).foldl (fun s entry => epollDel s entry.1.file ⟨e,entry.1⟩) s).setMap e []

def drop (s : State F) (f : F) : State F :=
  { close (stopPolls s f) f with status := update s.status f .closed }

inductive Action (F : Type)
  | create (f : F)
  | add (e : F) (key : Key F) (event : Event)
  | mod (e : F) (key : Key F) (event : Event)
  | del (e : F) (key : Key F)
  | wait (e : F) (activity : List (Key F)) (poll : F → UInt32 → UInt32) (maxevents : Nat)
  | drop (f : F)

/-- The calls hold references to the files they name. -/
def step (s : State F) : Action F → Option (State F)
  | .create f => if s.status f = .fresh then some { s with status := update s.status f .opened } else none
  | .add e key event => if s.status e = .opened ∧ s.status key.file = .opened then some (add s e key event).1 else none
  | .mod e key event => if s.status e = .opened ∧ s.status key.file = .opened then some (mod s e key event).1 else none
  | .del e key => if s.status e = .opened ∧ s.status key.file = .opened then some (del s e key).1 else none
  | .wait e activity poll maxevents =>
    if s.status e = .opened then some (processActivity poll e maxevents activity 0 s).state else none
  | .drop f => if s.status f = .opened then some (drop s f) else none

def start : State F := ⟨fun _ => .fresh,fun _ => [],fun _ => []⟩
def Registered (s : State F) (e : F) (key : Key F) : Prop := key ∈ (s.maps e).map Prod.fst

def Armed (s : State F) (f : F) : Prop :=
  (s.epolls f).length ≤ 1 ∧ ∀ e key, Registered s e key → key.file = f → ⟨e,key⟩ ∈ s.epolls f

def ok (s : State F) : Action F → Prop
  | .drop f => Armed s f
  | _ => True

structure Consistent (s : State F) : Prop where
  maps : ∀ f, s.status f = .closed → ∀ e key, Registered s e key → key.file ≠ f
  lists : ∀ e, s.status e = .closed → ∀ f, ∀ ep ∈ s.epolls f, ep.epoll ≠ e

/-! The invariant. -/

structure Inv (s : State F) : Prop where
  listed : ∀ f, ∀ ep ∈ s.epolls f, ep.key.file = f ∧ Registered s ep.epoll ep.key
  mapped : ∀ e key, Registered s e key → s.status e = .opened ∧ s.status key.file = .opened
  nodup : ∀ f, (s.epolls f).Nodup

variable {s : State F} {e f : F} {key : Key F}

open State

lemma Inv.consistent (inv : Inv s) : Consistent s := by
  constructor
  · rintro f closed e key registered rfl
    cases closed.symm.trans (inv.mapped e key registered).2
  rintro e closed f ep mem rfl
  cases closed.symm.trans (inv.mapped _ _ (inv.listed f ep mem).2).1

lemma findRegistered (s : State F) (e : F) (key : Key F) : (find (s.maps e) key).isSome ↔ Registered s e key := by
  unfold find Registered
  rw [Option.isSome_map,List.find?_isSome]
  simp

lemma Inv.epollAdd (inv : Inv s) (registered : Registered s e key) : Inv (epollAdd s key.file ⟨e,key⟩) := by
  unfold EpollReg.epollAdd
  split
  · exact inv
  rename_i new
  refine ⟨fun g ep mem => ?_,inv.mapped,fun g => ?_⟩
  · simp only [update_apply] at mem
    split at mem
    next same =>
      subst same
      rcases mem_append.mp mem with old | last
      · exact inv.listed _ ep old
      cases mem_singleton.mp last
      exact ⟨rfl,registered⟩
    · exact inv.listed g ep mem
  simp only [update_apply]
  split
  · exact nodup_append.mpr ⟨inv.nodup _,nodup_singleton _,by
      rintro a old _ last rfl
      exact new (mem_singleton.mp last ▸ old)⟩
  · exact inv.nodup g

lemma Inv.epollDel (inv : Inv s) (f : F) (ep : EpollPtr F) : Inv (epollDel s f ep) := by
  refine ⟨fun g p mem => ?_,inv.mapped,fun g => ?_⟩
  · simp only [EpollReg.epollDel,update_apply] at mem
    split at mem
    next same =>
      subst same
      exact inv.listed _ p (mem_of_mem_erase mem)
    · exact inv.listed g p mem
  simp only [EpollReg.epollDel,update_apply]
  split
  · exact (inv.nodup _).erase ep
  · exact inv.nodup g

lemma Inv.setMap (inv : Inv s) {map : List (Key F × Event)} (same : map.map Prod.fst = (s.maps e).map Prod.fst) :
    Inv (s.setMap e map) := by
  have keys : ∀ d key, Registered (s.setMap e map) d key ↔ Registered s d key := by
    intro d key
    simp only [Registered,State.setMap,update_apply]
    split
    next here => rw [same,here]
    · rfl
  exact ⟨fun g ep mem => ⟨(inv.listed g ep mem).1,(keys _ _).mpr (inv.listed g ep mem).2⟩,
    fun d key registered => inv.mapped d key ((keys d key).mp registered),inv.nodup⟩

lemma assignKeys (map : List (Key F × Event)) (key : Key F) (event : Event) :
    (assign map key event).map Prod.fst = map.map Prod.fst := by
  rw [assign,map_map]
  apply map_congr_left
  intro entry _
  simp only [Function.comp_apply]
  split
  next same => exact same.symm
  · rfl

lemma Inv.add (inv : Inv s) (event : Event) (live : s.status e = .opened ∧ s.status key.file = .opened) :
    Inv (add s e key event).1 := by
  unfold EpollReg.add
  split
  · exact inv
  have keys : ∀ d other, Registered (s.setMap e ((key,event)::s.maps e)) d other ↔
    Registered s d other ∨ d = e ∧ other = key := by
    intro d other
    simp only [Registered,State.setMap,update_apply]
    split
    next here => simp [here,or_comm]
    next away => simp [away]
  refine Inv.epollAdd ⟨?_,?_,inv.nodup⟩ ((keys e key).mpr (.inr ⟨rfl,rfl⟩))
  · exact fun g ep mem => ⟨(inv.listed g ep mem).1,(keys _ _).mpr (.inl (inv.listed g ep mem).2)⟩
  intro d other registered
  rcases (keys d other).mp registered with old | ⟨rfl,rfl⟩
  · exact inv.mapped d other old
  · exact live

lemma Inv.mod (inv : Inv s) (event : Event) : Inv (mod s e key event).1 := by
  unfold EpollReg.mod
  split
  next found =>
    have keys := assignKeys (s.maps e) key event
    refine (inv.setMap keys).epollAdd ?_
    simpa only [Registered,State.setMap,update_self,keys] using (findRegistered s e key).mp found
  · exact inv

lemma delRegistered (s : State F) (e : F) (key : Key F) (d : F) (other : Key F) :
    Registered (del s e key).1 d other ↔ Registered s d other ∧ ¬(d = e ∧ other = key) := by
  unfold EpollReg.del
  split
  · simp only [Registered,EpollReg.epollDel,setMap,update_apply]
    split
    next here => simp [here,and_comm]
    next away => simp [away]
  rename_i none
  rw [findRegistered] at none
  constructor
  · refine fun registered => ⟨registered,?_⟩
    rintro ⟨rfl,rfl⟩
    exact none registered
  · exact And.left

lemma delStatus (s : State F) (e : F) (key : Key F) : (del s e key).1.status = s.status := by
  unfold EpollReg.del
  split <;> rfl

lemma Inv.del (inv : Inv s) : Inv (del s e key).1 := by
  refine ⟨fun g ep mem => ?_,fun d other registered => ?_,fun g => ?_⟩
  · have old : ep ∈ s.epolls g ∧ (Registered s e key → ¬(ep.epoll = e ∧ ep.key = key)) := by
      simp only [EpollReg.del] at mem
      split at mem
      swap
      next none => exact ⟨mem,fun registered => absurd ((findRegistered s e key).mpr registered) none⟩
      simp only [EpollReg.epollDel,update_apply] at mem
      split at mem
      next same =>
        obtain ⟨apart,mem⟩ := ((inv.nodup _).mem_erase_iff).mp mem
        refine ⟨same ▸ mem,fun _ both => apart ?_⟩
        obtain ⟨rfl,rfl⟩ := both
        rfl
      next other =>
        refine ⟨mem,fun _ both => other ?_⟩
        rw [← both.2,(inv.listed g ep mem).1]
    obtain ⟨file,registered⟩ := inv.listed g ep old.1
    refine ⟨file,(delRegistered s e key _ _).mpr ⟨registered,fun both => old.2 ?_ both⟩⟩
    obtain ⟨rfl,rfl⟩ := both
    exact registered
  · rw [delStatus]
    exact inv.mapped d other ((delRegistered s e key d other).mp registered).1
  unfold EpollReg.del
  split
  · simp only [EpollReg.epollDel,update_apply]
    split
    · exact (inv.nodup _).erase _
    · exact inv.nodup g
  · exact inv.nodup g

lemma Inv.deliver (inv : Inv s) (evt : Event) (active : UInt32) (registered : Registered s e key) :
    Inv (deliver e s key evt active) := by
  have added : Inv (if remains evt active then EpollReg.epollAdd s key.file ⟨e,key⟩ else s) := by
    split
    · exact inv.epollAdd registered
    · exact inv
  dsimp only [EpollReg.deliver]
  split
  · exact (added.setMap (assignKeys _ key _)).epollDel _ _
  · exact added

lemma Inv.processActivity (inv : Inv s) (poll : F → UInt32 → UInt32) (e : F) (maxevents : Nat) (activity : List (Key F))
    (nr : Nat) : Inv (processActivity poll e maxevents activity nr s).state := by
  induction activity generalizing s nr with
  | nil => exact inv
  | cons key rest ih => ?_
  unfold EpollReg.processActivity
  split
  · split
    · exact ih inv nr
    rename_i evt found
    have registered := (findRegistered s e key).mp (Option.isSome_of_eq_some found)
    exact ih (inv.deliver evt _ registered) _
  · exact inv

lemma epollDelMem {ep : EpollPtr F} (inv : Inv s) (g : F) (p : EpollPtr F) :
    ep ∈ (epollDel s g p).epolls f → ep ∈ s.epolls f ∧ (f = g → ep ≠ p) := by
  intro mem
  simp only [epollDel,update_apply] at mem
  split at mem
  next same =>
    obtain ⟨apart,mem⟩ := ((inv.nodup _).mem_erase_iff).mp mem
    exact ⟨same ▸ mem,fun _ => apart⟩
  next other => exact ⟨mem,fun same => absurd same other⟩

lemma deliverRegistered (e : F) (s : State F) (key : Key F) (evt : Event) (active : UInt32) (d : F) (other : Key F) :
    Registered (deliver e s key evt active) d other ↔ Registered s d other := by
  have added : (if remains evt active then epollAdd s key.file ⟨e,key⟩ else s).maps = s.maps := by
    unfold epollAdd
    repeat' split
    all_goals rfl
  dsimp only [deliver]
  split
  · simp only [Registered,epollDel,setMap,update_apply,added]
    split
    next here => rw [assignKeys,here]
    · rfl
  · rw [Registered,added,Registered]

lemma processRegistered (poll : F → UInt32 → UInt32) (e : F) (maxevents : Nat) (activity : List (Key F)) (nr : Nat)
    (s : State F) (d : F) (other : Key F) :
    Registered (processActivity poll e maxevents activity nr s).state d other ↔ Registered s d other := by
  induction activity generalizing s nr with
  | nil => rfl
  | cons key rest ih => ?_
  unfold processActivity
  split
  · split
    · exact ih nr s
    next evt _ => exact (ih _ _).trans (deliverRegistered e s key evt _ d other)
  · rfl

lemma processSplits (poll : F → UInt32 → UInt32) (e : F) (maxevents : Nat) (activity : List (Key F)) (nr : Nat)
    (s : State F) {other : Key F} (mem : other ∈ activity) :
    other ∈ (processActivity poll e maxevents activity nr s).activity ∨
      other ∈ (processActivity poll e maxevents activity nr s).looked := by
  induction activity generalizing s nr with
  | nil => cases mem
  | cons key rest ih => ?_
  unfold processActivity
  split
  swap
  · exact .inl mem
  split
  · rcases mem_cons.mp mem with rfl | later
    · exact .inr mem_cons_self
    · exact (ih nr s later).imp id (mem_cons_of_mem key)
  rename_i evt _
  rcases mem_cons.mp mem with rfl | later
  · exact .inr mem_cons_self
  refine (ih _ (deliver e s key evt (activeEvents poll key evt)) later).imp ?_ (mem_cons_of_mem key)
  intro kept
  dsimp only
  split
  · exact mem_cons_of_mem key kept
  · exact kept

lemma stopPollsOne (s : State F) (f : F) (few : (s.epolls f).length ≤ 1) : stopPolls s f = s ∧ s.epolls f = [] ∨
      ∃ ep, s.epolls f = [ep] ∧ stopPolls s f = (del s ep.epoll ep.key).1 := by
  unfold stopPolls
  match eq : s.epolls f with
  | [] => exact .inl ⟨rfl,rfl⟩
  | [ep] =>
    refine .inr ⟨ep,rfl,?_⟩
    simp [stopSlots,eq]
  | a::b::rest =>
    rw [eq] at few
    simp at few

lemma Armed.stopPolls (armed : Armed s f) (inv : Inv s) : Inv (stopPolls s f) ∧ (stopPolls s f).status = s.status ∧
      ∀ e key, Registered (stopPolls s f) e key → key.file ≠ f := by
  obtain ⟨few,all⟩ := armed
  rcases stopPollsOne s f few with ⟨same,none⟩ | ⟨ep,one,stopped⟩
  · rw [same]
    refine ⟨inv,rfl,fun e key registered file => ?_⟩
    have mem := all e key registered file
    rw [none] at mem
    cases mem
  rw [stopped]
  refine ⟨inv.del,delStatus _ _ _,fun e key registered file => ?_⟩
  obtain ⟨before,other⟩ := (delRegistered s _ _ e key).mp registered
  have mem := all e key before file
  rw [one,mem_singleton] at mem
  subst mem
  exact other ⟨rfl,rfl⟩

lemma Inv.unlist (inv : Inv s) (e : F) (map : List (Key F × Event)) :
    Inv (map.foldl (fun s entry => EpollReg.epollDel s entry.1.file ⟨e,entry.1⟩) s) ∧
      (map.foldl (fun s entry => EpollReg.epollDel s entry.1.file ⟨e,entry.1⟩) s).maps = s.maps ∧
      (∀ f, ∀ ep ∈ (map.foldl (fun s entry => EpollReg.epollDel s entry.1.file ⟨e,entry.1⟩) s).epolls f,
        ep ∈ s.epolls f ∧ ∀ entry ∈ map, f = entry.1.file → ep ≠ ⟨e,entry.1⟩) := by
  induction map generalizing s with
  | nil => exact ⟨inv,rfl,fun f ep mem => ⟨mem,nofun⟩⟩
  | cons first map ih => ?_
  obtain ⟨keeps,maps,lists⟩ := ih (inv.epollDel first.1.file ⟨e,first.1⟩)
  refine ⟨keeps,maps,fun f ep mem => ?_⟩
  obtain ⟨mem,later⟩ := lists f ep mem
  obtain ⟨mem,here⟩ := epollDelMem inv first.1.file ⟨e,first.1⟩ mem
  refine ⟨mem,fun entry listed => ?_⟩
  rcases mem_cons.mp listed with rfl | listed
  · exact here
  · exact later entry listed

lemma Inv.close (inv : Inv s) (e : F) : (∀ f, ∀ ep ∈ (close s e).epolls f, ep ∈ s.epolls f ∧ ep.epoll ≠ e) ∧
      (∀ d key, Registered (close s e) d key ↔ Registered s d key ∧ d ≠ e) ∧ ∀ f, ((close s e).epolls f).Nodup := by
  obtain ⟨keeps,maps,lists⟩ := inv.unlist e (s.maps e)
  refine ⟨fun f ep mem => ?_,fun d key => ?_,keeps.nodup⟩
  · obtain ⟨old,gone⟩ := lists f ep mem
    refine ⟨old,?_⟩
    rintro rfl
    obtain ⟨file,registered⟩ := inv.listed f ep old
    obtain ⟨entry,listed,same⟩ := mem_map.mp registered
    exact gone entry listed (by rw [same,file]) (by rw [same])
  simp only [Registered,EpollReg.close,State.setMap,update_apply,maps]
  split
  next here => simp [here]
  next away => simp [away]

lemma Inv.drop (inv : Inv s) (armed : Armed s f) : Inv (drop s f) := by
  obtain ⟨stopped,status,gone⟩ := armed.stopPolls inv
  obtain ⟨lists,keys,nodup⟩ := stopped.close f
  refine ⟨fun g ep mem => ?_,fun d key registered => ?_,nodup⟩
  · obtain ⟨mem,other⟩ := lists g ep mem
    obtain ⟨file,registered⟩ := stopped.listed g ep mem
    exact ⟨file,(keys _ _).mpr ⟨registered,other⟩⟩
  obtain ⟨registered,other⟩ := (keys d key).mp registered
  have live := stopped.mapped d key registered
  rw [status] at live
  simp only [EpollReg.drop,update_of_ne other,update_of_ne (gone d key registered)]
  exact live

lemma Inv.step (inv : Inv s) {a : Action F} {t : State F} (allowed : ok s a) (taken : step s a = some t) : Inv t := by
  cases a <;> simp only [EpollReg.step] at taken <;> split at taken <;> cases taken
  case create.isTrue f _ =>
    refine ⟨inv.listed,fun e key registered => ?_,inv.nodup⟩
    obtain ⟨one,two⟩ := inv.mapped e key registered
    have opens : ∀ g, s.status g = .opened → update s.status f .opened g = .opened := by
      intro g live
      rw [update_apply,live,ite_self]
    exact ⟨opens _ one,opens _ two⟩
  case add.isTrue event live => exact inv.add event live
  case mod.isTrue event _ => exact inv.mod event
  case del.isTrue => exact inv.del
  case wait.isTrue e activity poll maxevents _ => exact inv.processActivity poll e maxevents activity 0
  case drop.isTrue => exact inv.drop allowed

theorem registrationsAgree (reach : Reach step ok (· = start) s) : Consistent s := by
  refine Inv.consistent (invariant (P := Inv) ?_ (fun _ _ _ inv allowed taken => inv.step allowed taken) reach)
  rintro _ rfl
  exact ⟨nofun,nofun,fun _ => nodup_nil⟩

end

def oneShot : List (Action (Fin 2)) :=
  [.create 0,.create 1,.add 0 ⟨5,1⟩ ⟨0x40000001,0⟩,.wait 0 [⟨5,1⟩] (fun _ _ => 1) 1]

def threeTimes : List (Action (Fin 2)) :=
  [.create 0,.create 1,.add 0 ⟨5,1⟩ ⟨1,0⟩,.add 0 ⟨6,1⟩ ⟨1,0⟩,.add 0 ⟨7,1⟩ ⟨1,0⟩]

def after (run : List (Action (Fin 2))) : State (Fin 2) := Runs.played step start run
def rearm : Action (Fin 2) := .mod 0 ⟨5,1⟩ ⟨0x40000001,0⟩

theorem registrationsAgreeRearmed :
    Registered (after (oneShot ++ [rearm])) 0 ⟨5,1⟩ ∧ Consistent (drop (after (oneShot ++ [rearm])) 1) := by
  let rearmed := after (oneShot ++ [rearm])
  have reach : Reach step ok (· = start) rearmed := by
    refine reachPlayed _ rfl ?_ rfl
    intro o mem s
    simp only [oneShot,rearm,cons_append,nil_append,mem_cons,not_mem_nil,or_false] at mem
    rcases mem with rfl | rfl | rfl | rfl | rfl
    all_goals trivial
  have all : ∀ e, ∀ entry ∈ rearmed.maps e, entry.1.file = 1 → ⟨e,entry.1⟩ ∈ rearmed.epolls 1 := by decide
  have armed : ok rearmed (.drop 1) := by
    refine ⟨by decide,fun e key registered file => ?_⟩
    obtain ⟨entry,mem,rfl⟩ := mem_map.mp registered
    exact all e entry mem file
  have live : rearmed.status 1 = .opened := rfl
  have dropped : step rearmed (.drop 1) = some (drop rearmed 1) := by rw [step,if_pos live]
  have here : Registered rearmed 0 ⟨5,1⟩ := by
    unfold Registered
    decide
  exact ⟨here,registrationsAgree (reach.next armed dropped)⟩

theorem keysStay : (Reach step (fun _ _ => True) (· = start) (after (oneShot ++ [.drop 1])) ∧
      (after (oneShot ++ [.drop 1])).status 1 = .closed ∧ Registered (after (oneShot ++ [.drop 1])) 0 ⟨5,1⟩) ∧
    (Reach step (fun _ _ => True) (· = start) (after (threeTimes ++ [.drop 1])) ∧
      (after (threeTimes ++ [.drop 1])).status 1 = .closed ∧ Registered (after (threeTimes ++ [.drop 1])) 0 ⟨6,1⟩) := by
  have reach : ∀ run, (replay step start run).isSome = true → Reach step (fun _ _ => True) (· = start) (after run) :=
    fun run taken => reachPlayed run rfl (fun _ _ _ => trivial) taken
  refine ⟨⟨reach _ rfl,rfl,?_⟩,reach _ rfl,rfl,?_⟩
  · unfold Registered
    decide
  unfold Registered
  decide

end OsvKernel.EpollReg
