import OsvKernel.Runs
import OsvKernel.Threads

/-! The DHCP worker thread beside one call of _send_and_wait or _send_and_wait_except with wait set and discover as
the function to send with. I is the set of interfaces that _universe maps. -/
namespace OsvKernel.Dhcp
open Function Runs

inductive IfaceState
  | init | discover | request | acknowledge | assigned
  deriving DecidableEq

inductive MessageType
  | discover | offer | request | decline | ack | nak | release | inform
  | leasequery | leaseunassigned | leaseunknown | leaseactive | invalid
  deriving DecidableEq

structure Packet where
  decodes : Bool
  xid : Nat
  messageType : MessageType
  yourIp : Nat
  dhcpServerIp : Nat
  deriving DecidableEq

structure Iface where
  state : IfaceState
  xid : Nat
  clientAddr : Nat
  serverAddr : Nat
  deriving DecidableEq

def ipv4Zero : Nat := 0
def isAssigned (f : Iface) : Bool := f.state = .assigned
def discover (xid : Nat) (_f : Iface) : Iface := ⟨.discover,xid,ipv4Zero,ipv4Zero⟩

def stateDiscover (dm : Packet) (f : Iface) : Iface :=
  if dm.messageType ≠ .offer then f else { f with state := .request }

def stateRequest (dm : Packet) (xid : Nat) (f : Iface) : Iface :=
  match dm.messageType with
  | .ack => { f with state := .acknowledge, clientAddr := dm.yourIp, serverAddr := dm.dhcpServerIp }
  | .nak => discover xid { f with state := .init, clientAddr := ipv4Zero, serverAddr := ipv4Zero }
  | _ => f

def processPacket (dm : Packet) (xid : Nat) (f : Iface) : Iface :=
  if dm.decodes = false then f
  else if dm.xid ≠ f.xid then f
  else match f.state with
    | .discover => stateDiscover dm f
    | .request => stateRequest dm xid f
    | _ => f

def acks (dm : Packet) (f : Iface) : Bool :=
  dm.decodes && dm.xid = f.xid && f.state = .request && dm.messageType = .ack

inductive Worker (I : Type)
  | idle
  | configuring (i : I)
  | handled (i : I)
  | counting (i : I)
  | storing (i : I) (value : Int)
  deriving DecidableEq

inductive Caller (I : Type)
  | sending (rest : List I)
  | excluding (value : Int) (i : I) (rest : List I)
  | waiting
  | looping
  | returned
  deriving DecidableEq

structure Setup (I : Type) where
  members : List I
  distinct : members.Nodup
  complete : ∀ i, i ∈ members
  ifXname : I → String
  interface : Option String

def Setup.excluded {I : Type} (c : Setup I) (i : I) : Bool := c.interface = some (c.ifXname i)

/-- settled records the interfaces that were assigned, or passed over, since the call began. -/
structure State (I : Type) where
  ifaces : I → Iface
  haveIp : Int
  worker : Worker I
  caller : Caller I
  settled : I → Bool

inductive Action (I : Type)
  | receive (rcvif : Option I) (dm : Packet) (xid : Nat)
  | assign
  | test
  | load
  | store
  | send (xid : Nat)
  | subtract
  | wake (expired : Bool)
  | loop

variable {I : Type} [DecidableEq I]

def State.put (s : State I) (i : I) (f : Iface) : State I := { s with ifaces := update s.ifaces i f }
def State.settle (s : State I) (i : I) : State I := { s with settled := update s.settled i true }
def decrement (value : Int) : Int := (value - 1).bmod (2 ^ 32)

def workerStep (s : State I) : Worker I → Action I → Option (State I)
  | .idle,.receive (some i) dm xid =>
    some { s.put i (processPacket dm xid (s.ifaces i)) with
      worker := if acks dm (s.ifaces i) then .configuring i else .handled i }
  | .configuring i,.assign =>
    some { (s.put i { s.ifaces i with state := .assigned }).settle i with worker := .handled i }
  | .handled i,.test => some { s with worker := if isAssigned (s.ifaces i) then .counting i else .idle }
  | .counting i,.load => some { s with worker := .storing i s.haveIp }
  | .storing _ value,.store => some { s with haveIp := decrement value, worker := .idle }
  | _,_ => none

def callerStep (c : Setup I) (s : State I) : Caller I → Action I → Option (State I)
  | .sending [],.send _ => some { s with caller := .waiting }
  | .sending (i::rest),.send xid =>
    if c.excluded i then some { s with caller := .excluding s.haveIp i rest }
    else some { s.put i (discover xid (s.ifaces i)) with caller := .sending rest }
  | .excluding value i rest,.subtract =>
    some { s.settle i with haveIp := decrement value, caller := .sending rest }
  | .waiting,.wake expired => if s.haveIp = 0 ∨ expired then some { s with caller := .looping } else none
  | .looping,.loop => some { s with caller := if s.haveIp = 0 then .returned else .sending c.members }
  | _,_ => none

def Action.ofWorker : Action I → Bool
  | .receive _ _ _ | .assign | .test | .load | .store => true
  | .send _ | .subtract | .wake _ | .loop => false

def step (c : Setup I) (s : State I) (a : Action I) : Option (State I) :=
  if a.ofWorker then workerStep s s.worker a else callerStep c s s.caller a

/-- The call has set have_ip and is about to send for the first time; the worker is between two packets. -/
structure Start (c : Setup I) (s : State I) : Prop where
  haveIp : s.haveIp = (c.members.length : Int).bmod (2 ^ 32)
  caller : s.caller = .sending c.members
  worker : s.worker = .idle
  settled : s.settled = fun _ => false

def Caller.next : Caller I → Option I
  | .sending (i::_) => some i
  | _ => none

/-- No packet for an assigned interface, none that acknowledges the excluded one, and no interface sent to, or passed
over, after it was settled. -/
def ok (c : Setup I) (s : State I) : Action I → Prop
  | .receive (some i) dm _ => isAssigned (s.ifaces i) = false ∧ (c.excluded i && acks dm (s.ifaces i)) = false
  | .send _ => ∀ i ∈ s.caller.next, s.settled i = false
  | _ => True

instance (c : Setup I) (s : State I) : (a : Action I) → Decidable (ok c s a)
  | .receive (some _) _ _ => inferInstanceAs (Decidable (_ ∧ _))
  | .receive none _ _ => .isTrue trivial
  | .send _ => inferInstanceAs (Decidable (∀ i ∈ s.caller.next, s.settled i = false))
  | .assign | .test | .load | .store | .subtract | .wake _ | .loop => .isTrue trivial

def unsettled (s : State I) (i : I) : Nat := if s.settled i then 0 else 1

def pending (s : State I) : Nat :=
  match s.worker with
  | .handled i => if isAssigned (s.ifaces i) then 1 else 0
  | .counting _ | .storing _ _ => 1
  | _ => 0

variable [Fintype I]

def left (s : State I) : Nat := total (unsettled s) + pending s

structure Inv (c : Setup I) (s : State I) : Prop where
  enough : (left s : Int) ≤ s.haveIp
  small : s.haveIp < 2 ^ 31
  settled : ∀ i, s.settled i = true → c.excluded i = false → isAssigned (s.ifaces i) = true
  configuring : ∀ i, s.worker = .configuring i → s.settled i = false ∧ c.excluded i = false
  storing : ∀ i value, s.worker = .storing i value → (left s : Int) ≤ value ∧ value < 2 ^ 31
  excluding : ∀ value i rest, s.caller = .excluding value i rest →
    c.excluded i = true ∧ s.settled i = false ∧ (left s : Int) ≤ value ∧ value < 2 ^ 31

variable {c : Setup I} {s t : State I} {i : I}

variable {dm : Packet} {xid : Nat} {value : Int} {rest : List I} {a : Action I}

lemma processAssigned {f : Iface} (assigned : isAssigned (processPacket dm xid f) = true) :
    isAssigned f = true := by
  unfold processPacket at assigned
  split at assigned
  · exact assigned
  split at assigned
  · exact assigned
  · cases phase : f.state <;> simp_all [isAssigned,stateDiscover,stateRequest,discover] <;> grind

lemma unsettledSettle (fresh : s.settled i = false) (same : t.settled = update s.settled i true) :
    total (unsettled t) + 1 = total (unsettled s) := by
  have moved : total (unsettled t) + unsettled s i = total (unsettled s) + unsettled t i := by
    refine totalMove fun j other => ?_
    rw [unsettled,unsettled,same,update_of_ne other]
  have before : unsettled s i = 1 := by rw [unsettled,fresh]; rfl
  have after : unsettled t i = 0 := by rw [unsettled,same,update_self]; rfl
  omega

lemma leftSettled (same : t.settled = s.settled) (less : pending t ≤ pending s) : left t ≤ left s := by
  have shares : total (unsettled t) = total (unsettled s) := totalSame fun j => by rw [unsettled,unsettled,same]
  unfold left
  omega

lemma decrementPos {n : Nat} (pos : 0 < n) (enough : (n : Int) ≤ value) (small : value < 2 ^ 31) :
    decrement value = value - 1 := by
  unfold decrement
  exact Int.bmod_eq_of_le (by omega) (by omega)

lemma Inv.put (inv : Inv c s) (fresh : s.settled i = true → c.excluded i = true) (f : Iface) :
    ∀ j, s.settled j = true → c.excluded j = false → isAssigned ((s.put i f).ifaces j) = true := by
  intro j done kept
  have other : j ≠ i := fun same => by rw [same] at done kept; simp [fresh done] at kept
  have there : (s.put i f).ifaces j = s.ifaces j := update_of_ne other _ _
  rw [there]
  exact inv.settled j done kept

lemma Inv.unassigned (inv : Inv c s) (fresh : isAssigned (s.ifaces i) = false) (done : s.settled i = true) :
    c.excluded i = true := by
  cases kept : c.excluded i with
  | true => rfl
  | false => rw [inv.settled i done kept] at fresh; cases fresh

structure Quiet (c : Setup I) (s t : State I) : Prop where
  haveIp : t.haveIp = s.haveIp
  settled : t.settled = s.settled
  pending : pending t ≤ pending s
  assigned : ∀ i, s.settled i = true → c.excluded i = false → isAssigned (t.ifaces i) = true
  configuring : ∀ i, t.worker = .configuring i → s.settled i = false ∧ c.excluded i = false
  storing : ∀ i value, t.worker = .storing i value → s.worker = .storing i value ∨ value = s.haveIp
  excluding : ∀ value i rest, t.caller = .excluding value i rest →
    s.caller = .excluding value i rest ∨ c.excluded i = true ∧ s.settled i = false ∧ value = s.haveIp

section
variable (inv : Inv c s)
include inv

lemma Inv.quiet (quiet : Quiet c s t) : Inv c t := by
  have less := leftSettled quiet.settled quiet.pending
  have enough := inv.enough
  have small := inv.small
  constructor
  · rw [quiet.haveIp]; omega
  · rw [quiet.haveIp]; exact small
  · rw [quiet.settled]; exact quiet.assigned
  · rw [quiet.settled]; exact quiet.configuring
  · intro i value held
    rcases quiet.storing i value held with held | rfl
    · have := inv.storing i value held
      omega
    · omega
  intro value i rest held
  rw [quiet.settled]
  rcases quiet.excluding value i rest held with held | ⟨excluded,fresh,rfl⟩
  · obtain ⟨excluded,fresh,bound,fits⟩ := inv.excluding value i rest held
    exact ⟨excluded,fresh,by omega,fits⟩
  · exact ⟨excluded,fresh,by omega,small⟩

lemma Inv.receive (fresh : isAssigned (s.ifaces i) = false) (kept : (c.excluded i && acks dm (s.ifaces i)) = false) :
    Inv c { s.put i (processPacket dm xid (s.ifaces i)) with
      worker := if acks dm (s.ifaces i) then .configuring i else .handled i } := by
  have unassigned : isAssigned (processPacket dm xid (s.ifaces i)) = false :=
    Bool.eq_false_iff.mpr fun assigned => by rw [processAssigned assigned] at fresh; cases fresh
  refine inv.quiet ⟨rfl,rfl,?_,inv.put (inv.unassigned fresh) _,?_,?_,fun _ _ _ held => .inl held⟩
  · cases acked : acks dm (s.ifaces i) <;> simp [pending,State.put,unassigned]
  · intro j configuring
    rcases acked : acks dm (s.ifaces i) with _ | _
    · simp [acked] at configuring
    obtain rfl : i = j := by simpa [acked] using configuring
    rw [acked,Bool.and_true] at kept
    refine ⟨Bool.eq_false_iff.mpr fun done => ?_,kept⟩
    rw [inv.unassigned fresh done] at kept
    cases kept
  intro j value storing
  cases acked : acks dm (s.ifaces i) <;> simp [acked] at storing

lemma Inv.assign (configuring : s.worker = .configuring i) :
    Inv c { (s.put i { s.ifaces i with state := .assigned }).settle i with worker := .handled i } := by
  obtain ⟨fresh,kept⟩ := inv.configuring i configuring
  generalize result : { (s.put i { s.ifaces i with state := .assigned }).settle i with worker := .handled i } = t
  have settled : t.settled = update s.settled i true := by rw [← result]; rfl
  have ifaces : t.ifaces = update s.ifaces i { s.ifaces i with state := .assigned } := by rw [← result]; rfl
  have haveIp : t.haveIp = s.haveIp := by rw [← result]; rfl
  have caller : t.caller = s.caller := by rw [← result]; rfl
  have worker : t.worker = .handled i := by rw [← result]
  have shares := unsettledSettle fresh settled
  have same : left t = left s := by
    have before : pending s = 0 := by simp [pending,configuring]
    have after : pending t = 1 := by simp [pending,worker,ifaces,isAssigned]
    unfold left
    omega
  constructor
  · rw [same,haveIp]; exact inv.enough
  · rw [haveIp]; exact inv.small
  · intro j done other
    by_cases here : j = i
    · rw [here,ifaces,update_self]; rfl
    rw [ifaces,update_of_ne here]
    rw [settled,update_of_ne here] at done
    exact inv.settled j done other
  · intro j held; rw [worker] at held; cases held
  · intro j value held; rw [worker] at held; cases held
  intro value j rest held
  rw [caller] at held
  obtain ⟨excluded,waiting,bound,fits⟩ := inv.excluding value j rest held
  have other : j ≠ i := fun here => by rw [here,kept] at excluded; cases excluded
  rw [settled,update_of_ne other,same]
  exact ⟨excluded,waiting,bound,fits⟩

lemma Inv.store (storing : s.worker = .storing i value) :
    Inv c { s with haveIp := decrement value, worker := .idle } := by
  obtain ⟨bound,fits⟩ := inv.storing i value storing
  generalize result : { s with haveIp := decrement value, worker := .idle } = t
  have before : pending s = 1 := by simp [pending,storing]
  have fewer : left t + 1 = left s := by
    rw [← result]
    change total (unsettled s) + 0 + 1 = total (unsettled s) + pending s
    omega
  have lower : decrement value = value - 1 := decrementPos (Nat.succ_pos _) (fewer ▸ bound) fits
  have haveIp : t.haveIp = value - 1 := by rw [← result]; exact lower
  have worker : t.worker = .idle := by rw [← result]
  constructor
  · omega
  · omega
  · rw [← result]; exact inv.settled
  · intro j held; rw [worker] at held; cases held
  · intro j old held; rw [worker] at held; cases held
  intro old j rest held
  have there : s.caller = .excluding old j rest := by rw [← result] at held; exact held
  obtain ⟨excluded,waiting,bound,fits⟩ := inv.excluding old j rest there
  refine ⟨excluded,?_,by omega,fits⟩
  rw [← result]; exact waiting

lemma Inv.subtract (held : s.caller = .excluding value i rest) :
    Inv c { s.settle i with haveIp := decrement value, caller := .sending rest } := by
  obtain ⟨excluded,fresh,bound,fits⟩ := inv.excluding value i rest held
  generalize result : { s.settle i with haveIp := decrement value, caller := .sending rest } = t
  have settled : t.settled = update s.settled i true := by rw [← result]; rfl
  have ifaces : t.ifaces = s.ifaces := by rw [← result]; rfl
  have worker : t.worker = s.worker := by rw [← result]; rfl
  have caller : t.caller = .sending rest := by rw [← result]
  have shares := unsettledSettle fresh settled
  have fewer : left t + 1 = left s := by
    have same : pending t = pending s := by unfold pending; rw [worker,ifaces]
    unfold left
    omega
  have lower : decrement value = value - 1 := decrementPos (Nat.succ_pos _) (fewer ▸ bound) fits
  have haveIp : t.haveIp = value - 1 := by rw [← result]; exact lower
  constructor
  · omega
  · omega
  · intro j done kept
    have other : j ≠ i := fun here => by rw [here,excluded] at kept; cases kept
    rw [settled,update_of_ne other] at done
    rw [ifaces]
    exact inv.settled j done kept
  · intro j configuring
    rw [worker] at configuring
    obtain ⟨waiting,kept⟩ := inv.configuring j configuring
    have other : j ≠ i := fun here => by rw [here,excluded] at kept; cases kept
    rw [settled,update_of_ne other]
    exact ⟨waiting,kept⟩
  · intro j old storing
    rw [worker] at storing
    have := inv.storing j old storing
    omega
  · intro old j others again; rw [caller] at again; cases again

lemma Inv.send (fresh : s.settled i = false)
    (taken : callerStep c s (.sending (i::rest)) (.send xid) = some t) : Inv c t := by
  rw [Dhcp.callerStep] at taken
  split at taken
  · next excluded =>
    cases taken
    refine inv.quiet ⟨rfl,rfl,Nat.le_refl _,inv.settled,inv.configuring,fun _ _ held => .inl held,?_⟩
    intro value j others held
    cases held
    exact .inr ⟨excluded,fresh,rfl⟩
  cases taken
  have first : s.settled i = true → c.excluded i = true := fun done => by rw [fresh] at done; cases done
  refine inv.quiet ⟨rfl,rfl,?_,inv.put first _,inv.configuring,fun _ _ held => .inl held,nofun⟩
  unfold pending State.put
  cases phase : s.worker with
  | handled j =>
    -- a retry between process_packet and is_assigned takes the count back
    by_cases here : j = i
    · simp [here,isAssigned,discover]
    · simp [update_of_ne here]
  | _ => exact Nat.le_refl _

lemma Inv.workerStep (allowed : ok c s a) (taken : workerStep s s.worker a = some t) : Inv c t := by
  unfold Dhcp.workerStep at taken
  split at taken
  next phase =>
    obtain ⟨fresh,kept⟩ := allowed
    cases taken
    exact inv.receive fresh kept
  next phase => cases taken; exact inv.assign phase
  next i phase =>
    cases taken
    refine inv.quiet ⟨rfl,rfl,?_,inv.settled,?_,?_,fun _ _ _ held => .inl held⟩
    · cases assigned : isAssigned (s.ifaces i) <;> simp [pending,phase,assigned]
    · intro j held; cases assigned : isAssigned (s.ifaces i) <;> simp [assigned] at held
    · intro j value held; cases assigned : isAssigned (s.ifaces i) <;> simp [assigned] at held
  next phase =>
    cases taken
    refine inv.quiet ⟨rfl,rfl,by simp [pending,phase],inv.settled,nofun,?_,fun _ _ _ held => .inl held⟩
    intro j value held
    cases held
    exact .inr rfl
  next phase => cases taken; exact inv.store phase
  · cases taken

lemma Inv.callerStep (allowed : ok c s a) (taken : callerStep c s s.caller a = some t) : Inv c t := by
  unfold Dhcp.callerStep at taken
  split at taken
  · cases taken
    exact inv.quiet ⟨rfl,rfl,Nat.le_refl _,inv.settled,inv.configuring,fun _ _ held => .inl held,nofun⟩
  next i rest xid phase => exact inv.send (allowed i (by rw [phase]; rfl)) taken
  next phase => cases taken; exact inv.subtract phase
  · obtain ⟨-,taken⟩ := Option.ite_none_right_eq_some.mp taken
    cases taken
    exact inv.quiet ⟨rfl,rfl,Nat.le_refl _,inv.settled,inv.configuring,fun _ _ held => .inl held,nofun⟩
  · cases taken
    refine inv.quiet ⟨rfl,rfl,Nat.le_refl _,inv.settled,inv.configuring,fun _ _ held => .inl held,?_⟩
    intro value j others held
    by_cases zero : s.haveIp = 0 <;> simp [zero] at held
  · cases taken

end

lemma Start.inv (start : Start c s) (fits : c.members.length < 2 ^ 31) : Inv c s := by
  have counted : s.haveIp = c.members.length := by rw [start.haveIp]; exact Int.bmod_eq_of_le (by omega) (by omega)
  have whole : total (unsettled s) ≤ c.members.length := by
    have card : c.members.length = Fintype.card I := by
      rw [← List.toFinset_card_of_nodup c.distinct,Finset.card_eq_iff_eq_univ]
      exact Finset.eq_univ_iff_forall.mpr fun i => List.mem_toFinset.mpr (c.complete i)
    rw [card]
    refine totalLeCard fun i => ?_
    unfold unsettled
    split <;> omega
  have bound : left s ≤ c.members.length := by
    have none : pending s = 0 := by simp [pending,start.worker]
    unfold left
    omega
  constructor
  · omega
  · omega
  · intro i done; rw [start.settled] at done; cases done
  · intro i held; rw [start.worker] at held; cases held
  · intro i value held; rw [start.worker] at held; cases held
  · intro value i rest held; rw [start.caller] at held; cases held

lemma Inv.step (inv : Inv c s) (allowed : ok c s a) (taken : step c s a = some t) : Inv c t := by
  unfold Dhcp.step at taken
  split at taken
  · exact inv.workerStep allowed taken
  · exact inv.callerStep allowed taken

structure Returned (c : Setup I) (s : State I) : Prop where
  inv : Inv c s
  all : s.caller = .returned → ∀ i, s.settled i = true

lemma Inv.allSettled (inv : Inv c s) (zero : s.haveIp = 0) (i : I) : s.settled i = true := by
  have enough := inv.enough
  have share := leTotal (unsettled s) i
  cases done : s.settled i
  case true => rfl
  have one : unsettled s i = 1 := by rw [unsettled,done]; rfl
  unfold left at enough
  omega

lemma workerSettled (taken : workerStep s s.worker a = some t) (done : s.settled i = true) : t.settled i = true := by
  cases phase : s.worker <;> cases a <;> rw [phase] at taken
  case configuring.assign j => cases taken; by_cases here : i = j <;> simp [State.settle,State.put,here,done]
  case idle.receive rcvif dm xid => cases rcvif <;> cases taken; exact done
  all_goals cases taken
  all_goals exact done

lemma workerCaller (taken : workerStep s s.worker a = some t) : t.caller = s.caller := by
  cases phase : s.worker <;> cases a <;> rw [phase] at taken
  case idle.receive rcvif dm xid => cases rcvif <;> cases taken; rfl
  all_goals cases taken
  all_goals rfl

lemma callerReturned (taken : callerStep c s s.caller a = some t) (returned : t.caller = .returned) :
    s.haveIp = 0 ∧ t.settled = s.settled := by
  unfold callerStep at taken
  split at taken
  · cases taken; cases returned
  · split at taken <;> cases taken <;> cases returned
  · cases taken; cases returned
  · obtain ⟨-,taken⟩ := Option.ite_none_right_eq_some.mp taken
    cases taken
    cases returned
  · cases taken
    by_cases zero : s.haveIp = 0
    · exact ⟨zero,rfl⟩
    · simp [zero] at returned
  · cases taken

lemma Returned.step (back : Returned c s) (allowed : ok c s a) (taken : step c s a = some t) : Returned c t := by
  refine ⟨back.inv.step allowed taken,fun returned i => ?_⟩
  unfold Dhcp.step at taken
  split at taken
  · exact workerSettled taken (back.all (workerCaller taken ▸ returned) i)
  obtain ⟨zero,same⟩ := callerReturned taken returned
  rw [same]
  exact back.inv.allSettled zero i

theorem returnsAssigned (c : Setup I) (fits : c.members.length < 2 ^ 31) {s : State I}
    (reach : Reach (step c) (ok c) (Start c) s) (returned : s.caller = .returned) (i : I)
    (kept : c.excluded i = false) : isAssigned (s.ifaces i) = true := by
  have back := invariant (P := Returned c)
    (fun s start => ⟨start.inv fits,fun back => by rw [start.caller] at back; cases back⟩)
    (fun s a t back allowed taken => back.step allowed taken) reach
  exact back.inv.settled i (back.all returned i) kept

def offer : Packet := ⟨true,7,.offer,1,2⟩
def ack : Packet := { offer with messageType := .ack }

def three : Setup (Fin 3) where
  members := [0,1,2]
  distinct := by decide
  complete := by decide
  ifXname i := ["eth0","eth1","eth2"].getD i ""
  interface := some "eth1"

def first (c : Setup (Fin 3)) : State (Fin 3) :=
  ⟨fun _ => ⟨.init,0,0,0⟩,c.members.length,.idle,.sending c.members,fun _ => false⟩

def lease (i : Fin 3) : List (Action (Fin 3)) :=
  [.receive (some i) offer 0,.test,.receive (some i) ack 0,.assign,.test,.load,.store]

def threeRun : List (Action (Fin 3)) :=
  [.send 7,.send 0,.subtract,.send 7,.send 0] ++ lease 0 ++ lease 2 ++ [.wake false,.loop]

theorem returnsAssignedThree : (final (step three) (ok three) (first three) threeRun).caller = .returned ∧
      isAssigned ((final (step three) (ok three) (first three) threeRun).ifaces 2) = true := by
  have start : Start three (first three) := ⟨by decide,rfl,rfl,rfl⟩
  have reach : Reach (step three) (ok three) (Start three) (final (step three) (ok three) (first three) threeRun) :=
    reachFinal threeRun start rfl
  have returned : (final (step three) (ok three) (first three) threeRun).caller = .returned := rfl
  exact ⟨returned,returnsAssigned three (by decide) reach returned 2 rfl⟩

def duplicateRun : List (Action (Fin 3)) :=
  [.send 7,.send 0,.subtract,.send 7,.send 0] ++ lease 0 ++
    [.receive (some 0) ack 0,.test,.load,.store,.wake false,.loop]

theorem returnsUnassigned :
    ∃ s : State (Fin 3), Reach (step three) (fun _ _ => True) (Start three) s ∧ s.caller = .returned ∧
      three.excluded 2 = false ∧ (s.ifaces 2).state = .discover := by
  have start : Start three (first three) := ⟨by decide,rfl,rfl,rfl⟩
  refine ⟨played (step three) (first three) duplicateRun,?_,rfl,rfl,rfl⟩
  exact reachPlayed duplicateRun start (fun _ _ _ => trivial) rfl

end OsvKernel.Dhcp
