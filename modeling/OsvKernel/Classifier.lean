import Mathlib

/-! classify_ipv4_tcp over the bytes from mh_data on, those at and beyond mh_len included. ETHER_HDR_LEN is 14,
sizeof(ip) and sizeof(tcphdr) are 20. -/
namespace OsvKernel.Classifier
open Option

structure Mbuf where
  byte : Nat → BitVec 8
  mhLen : Nat

structure ConnId where
  (srcAddr dstAddr srcPort dstPort : List (BitVec 8))
  deriving DecidableEq

def Mbuf.bytes (m : Mbuf) (start len : Nat) : List (BitVec 8) := (List.range len).map fun i => m.byte (start + i)
def Mbuf.etherType (m : Mbuf) : List (BitVec 8) := m.bytes 12 2
def Mbuf.ipSize (m : Mbuf) : Nat := (m.byte 14 &&& 15).toNat * 4
def Mbuf.ipOff (m : Mbuf) : BitVec 16 := m.byte 20 ++ m.byte 21
def Mbuf.ipP (m : Mbuf) : BitVec 8 := m.byte 23
def ethertypeIp : List (BitVec 8) := [8,0]
def ipprotoTcp : BitVec 8 := 6
def ipDf : BitVec 16 := 0x4000

/-- TH_SYN, TH_FIN and TH_RST. -/
def thOpening : BitVec 8 := 2 ||| 1 ||| 4

/-- Where the TCP header is read, once the checks before it have passed. -/
def tcpHdr (m : Mbuf) : Option Nat :=
  if m.mhLen < 14 + 20 then none
  else if m.etherType ≠ ethertypeIp then none
  else if m.ipSize < 20 then none
  else if m.ipP ≠ ipprotoTcp then none
  else if m.ipOff &&& ~~~ipDf ≠ 0 then none
  else some (14 + m.ipSize)

def connId (m : Mbuf) (h : Nat) : ConnId := ⟨m.bytes 26 4,m.bytes 30 4,m.bytes h 2,m.bytes (h + 2) 2⟩

variable {C : Type} {m n : Mbuf}

def classifyIpv4Tcp (channels : List (ConnId × C)) (m : Mbuf) : Option C :=
  (tcpHdr m).bind fun h =>
    if m.byte (h + 13) &&& thOpening ≠ 0 then none
    else (channels.find? (·.1 = connId m h)).map (·.2)

/-- The TCP header at h lies within mh_len, its options included. -/
def Whole (m : Mbuf) (h : Nat) : Prop := h + max 20 ((m.byte (h + 12) >>> 4).toNat * 4) ≤ m.mhLen

structure Registered (channels : List (ConnId × C)) (m : Mbuf) (c : C) : Prop where
  ip : m.etherType = ethertypeIp
  tcp : m.ipP = ipprotoTcp
  unfragmented : m.ipOff &&& ~~~ipDf = 0
  whole : Whole m (14 + m.ipSize)
  plain : m.byte (14 + m.ipSize + 13) &&& thOpening = 0
  mem : (connId m (14 + m.ipSize),c) ∈ channels

def Agree (m n : Mbuf) : Prop := m.mhLen = n.mhLen ∧ ∀ i < m.mhLen, m.byte i = n.byte i

lemma Agree.bytes (agree : Agree m n) {start len : Nat} (inside : start + len ≤ m.mhLen) :
    m.bytes start len = n.bytes start len :=
  List.map_congr_left fun i mem => agree.2 _ (by have := List.mem_range.mp mem; omega)

lemma Agree.tcpHdr (agree : Agree m n) : tcpHdr m = tcpHdr n := by
  unfold Classifier.tcpHdr
  rw [← agree.1]
  split
  · rfl
  have type : m.etherType = n.etherType := agree.bytes (by omega)
  unfold Mbuf.ipSize Mbuf.ipOff Mbuf.ipP
  rw [type,agree.2 14 (by omega),agree.2 20 (by omega),agree.2 21 (by omega),agree.2 23 (by omega)]

/-- The whole TCP header lies within mh_len, or its flags do and the frame is turned away for them. -/
def Contained (m : Mbuf) : Prop :=
  ∀ h ∈ tcpHdr m, Whole m h ∨ h + 13 < m.mhLen ∧ m.byte (h + 13) &&& thOpening ≠ 0

lemma tcpHdrSome {h : Nat} (here : tcpHdr m = some h) : 34 ≤ m.mhLen ∧ m.etherType = ethertypeIp ∧
    20 ≤ m.ipSize ∧ m.ipP = ipprotoTcp ∧ m.ipOff &&& ~~~ipDf = 0 ∧ h = 14 + m.ipSize := by
  simp only [tcpHdr,ite_none_left_eq_some,Nat.not_lt,not_not,some.injEq] at here
  obtain ⟨long,ip,size,tcp,off,rfl⟩ := here
  exact ⟨long,ip,size,tcp,off,rfl⟩

lemma containedSame (channels : List (ConnId × C)) (agree : Agree m n) (contained : Contained m) :
    classifyIpv4Tcp channels m = classifyIpv4Tcp channels n ∧
    ∀ c, classifyIpv4Tcp channels m = some c → Registered channels m c := by
  unfold classifyIpv4Tcp
  rw [← agree.tcpHdr]
  cases here : tcpHdr m with
  | none => exact ⟨rfl,nofun⟩
  | some h => ?_
  rcases contained h here with inside | ⟨inside,opening⟩
  swap
  · rw [bind_some,bind_some,← agree.2 _ inside,if_pos opening,if_pos opening]
    exact ⟨rfl,nofun⟩
  obtain ⟨long,ip,-,tcp,off,rfl⟩ := tcpHdrSome here
  have reach : 14 + m.ipSize + 20 ≤ m.mhLen := Nat.le_trans (by omega) inside
  have id : connId m (14 + m.ipSize) = connId n (14 + m.ipSize) := by
    unfold connId
    rw [agree.bytes (by omega),agree.bytes (by omega),agree.bytes (by omega),agree.bytes (by omega)]
  refine ⟨?_,fun c found => ?_⟩
  · rw [bind_some,bind_some,agree.2 _ (by omega),id]
  simp only [bind_some,ite_none_left_eq_some,not_not,map_eq_some_iff] at found
  obtain ⟨plain,e,found,rfl⟩ := found
  refine ⟨ip,tcp,off,inside,plain,?_⟩
  have key : e.1 = connId m (14 + m.ipSize) := by simpa using List.find?_some found
  rw [← key]
  exact List.mem_of_find?_eq_some found

lemma classifiedOwn {h : Nat} (here : tcpHdr m = some h) (plain : m.byte (h + 13) &&& thOpening = 0) (c : C) :
    classifyIpv4Tcp [(connId m h,c)] m = some c := by
  simp [classifyIpv4Tcp,here,plain]

theorem classifiedSame [Inhabited C] (m : Mbuf) : (∀ (channels : List (ConnId × C)) (n : Mbuf), Agree m n →
    classifyIpv4Tcp channels m = classifyIpv4Tcp channels n ∧
      ∀ c, classifyIpv4Tcp channels m = some c → Registered channels m c) ↔ Contained m := by
  refine ⟨fun same h (here : tcpHdr m = some h) => ?_,fun contained channels n agree => containedSame channels agree contained⟩
  by_cases plain : m.byte (h + 13) &&& thOpening = 0
  · have own := ((same _ m ⟨rfl,fun _ _ => rfl⟩).2 _ (classifiedOwn here plain default)).whole
    rw [← (tcpHdrSome here).2.2.2.2.2] at own
    exact .inl own
  refine .inr ⟨?_,plain⟩
  by_contra beyond
  -- the flags are not part of the frame, so they may as well be clear
  let n : Mbuf := { m with byte := Function.update m.byte (h + 13) 0 }
  have agree : Agree m n := ⟨rfl,fun i inside => (Function.update_of_ne (by omega) _ _).symm⟩
  have there : tcpHdr n = some h := agree.tcpHdr ▸ here
  have found := classifiedOwn there (by simp [n]) (default : C)
  rw [← (same _ n agree).1] at found
  simp only [classifyIpv4Tcp,here,bind_some,ne_eq,plain,not_false_eq_true,if_true] at found
  cases found

def frame (mhLen : Nat) (flags : BitVec 8) : Mbuf :=
  ⟨fun i => ([(12,8),(14,0x45),(23,6),(47,flags)].lookup i).getD 0,mhLen⟩

def channels : List (ConnId × Unit) := [(⟨[0,0,0,0],[0,0,0,0],[0,0],[0,0]⟩,())]

/-- The frame ends where the TCP header would begin. -/
theorem classifiedBeyond : Agree (frame 34 16) (frame 34 2) ∧
    classifyIpv4Tcp channels (frame 34 16) = some () ∧ classifyIpv4Tcp channels (frame 34 2) = none :=
  ⟨⟨rfl,show ∀ i < 34, _ by decide⟩,rfl,rfl⟩

end OsvKernel.Classifier
