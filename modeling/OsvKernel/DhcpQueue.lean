import OsvKernel.Dhcp

/-! queue_packet beside the loop of dhcp_worker_fn, a critical section one step. queued and processed record the
packets of queue_packet and of process_packet in the order of the calls. -/
namespace OsvKernel.DhcpQueue
open Function Runs Dhcp

/-- xid is what discover draws when the packet is a refusal. -/
structure Mbuf (I : Type) where
  rcvif : I
  dm : Packet
  xid : Nat
  deriving DecidableEq

structure State (I : Type) where
  rxPackets : List (Mbuf I)
  m : Option (Mbuf I)
  ifaces : I → Iface
  (queued processed : List (Mbuf I))

inductive Op (I : Type)
  | queuePacket (m : Mbuf I)
  | take
  | process

variable {I : Type} [DecidableEq I] {s t : State I} {first : I → Iface}

def sees (f : Iface) (m : Mbuf I) : Iface :=
  { processPacket m.dm m.xid f with
    state := if acks m.dm f then .assigned else (processPacket m.dm m.xid f).state }

def step (s : State I) : Op I → Option (State I)
  | .queuePacket m => some { s with rxPackets := m::s.rxPackets, queued := s.queued ++ [m] }
  | .take =>
    match s.m,s.rxPackets with
    | none,m::rest => some { s with rxPackets := rest, m := some m }
    | _,_ => none
  | .process => s.m.map fun m =>
    { s with
      m := none, ifaces := update s.ifaces m.rcvif (sees (s.ifaces m.rcvif) m), processed := s.processed ++ [m] }

def Start (first : I → Iface) (s : State I) : Prop := s = ⟨[],none,first,[],[]⟩

/-- No packet is queued while another one is pending. -/
def Single (s : State I) : Op I → Prop
  | .queuePacket _ => s.rxPackets = []
  | _ => True

def arrived (i : I) (l : List (Mbuf I)) : List (Mbuf I) := l.filter (·.rcvif = i)

structure Inv (first : I → Iface) (s : State I) : Prop where
  order : s.queued = s.processed ++ s.m.toList ++ s.rxPackets
  seen : ∀ i, s.ifaces i = (arrived i s.processed).foldl sees (first i)

lemma Inv.step {o : Op I} (inv : Inv first s) (allowed : Single s o) (taken : step s o = some t) : Inv first t := by
  obtain ⟨order,seen⟩ := inv
  cases o with
  | queuePacket m =>
    cases taken
    refine ⟨?_,seen⟩
    have empty : s.rxPackets = [] := allowed
    simp [order,empty]
  | take =>
    simp only [DhcpQueue.step] at taken
    split at taken
    next m rest free here =>
      cases taken
      exact ⟨by simp [order,free,here],seen⟩
    · cases taken
  | process =>
    obtain ⟨m,here,taken⟩ := Option.map_eq_some_iff.mp taken
    cases taken
    refine ⟨by simp [order,here],fun i => ?_⟩
    dsimp only [arrived]
    rw [List.filter_append,List.foldl_append,← arrived,← seen i]
    by_cases same : m.rcvif = i
    · subst i
      simp
    · simp [update_of_ne (Ne.symm same),same]

theorem packetsInOrder (reach : Reach step Single (Start first) s) :
    s.queued = s.processed ++ s.m.toList ++ s.rxPackets ∧
    (∀ i, s.ifaces i = (arrived i s.processed).foldl sees (first i)) ∧
    (step s .take = none → step s .process = none → s.processed = s.queued) := by
  have inv : Inv first s := invariant (by rintro s rfl; exact ⟨rfl,fun _ => rfl⟩) (fun _ _ _ inv => inv.step) reach
  refine ⟨inv.order,inv.seen,fun waits rests => ?_⟩
  have free : s.m = none := Option.map_eq_none_iff.mp rests
  simp only [step,free] at waits
  split at waits
  · cases waits
  next none =>
    rw [inv.order,free]
    cases here : s.rxPackets with
    | nil => simp
    | cons m rest => exact absurd here (none m rest rfl)

def mbuf (type : MessageType) : Mbuf Unit := ⟨(),⟨true,7,type,1,2⟩,8⟩
def sent : Unit → Iface := fun _ => ⟨.discover,7,0,0⟩
def run : List (Op Unit) → State Unit := played step ⟨[],none,sent,[],[]⟩

theorem packetsInOrderOffer : (run [.queuePacket (mbuf .offer),.take,.process,.queuePacket (mbuf .ack)]).queued =
    [mbuf .offer] ++ [] ++ [mbuf .ack] :=
  (packetsInOrder (.next (.next (.next (.next (.init rfl) (o := .queuePacket (mbuf .offer)) rfl rfl)
    (o := .take) trivial rfl) (o := .process) trivial rfl) (o := .queuePacket (mbuf .ack)) rfl rfl)).1

theorem packetsReversed :
    let s := run [.queuePacket (mbuf .offer),.queuePacket (mbuf .ack),.take,.process,.take,.process]
    s.queued = [mbuf .offer,mbuf .ack] ∧ s.processed = [mbuf .ack,mbuf .offer] ∧ (s.ifaces ()).state = .request ∧
    (s.queued.foldl sees (sent ())).state = .assigned := by decide

end OsvKernel.DhcpQueue
