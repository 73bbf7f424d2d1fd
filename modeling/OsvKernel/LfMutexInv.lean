import OsvKernel.LfMutex

/-! The invariants behind the responsibility hand-off. One token is somewhere: with a
thread, in the handoff word, or nowhere because count is zero. Every wait_record is in
exactly one place from the moment it is made until its thread goes on. -/
namespace OsvKernel.LfMutex
open List Bool
open Function (update update_of_ne update_self)

section
variable {T : Type}

def Caller.weight : Caller T → Nat
  | .lock => 1
  | .send _ nested => nested.toNat
  | .unlock => 0

def Caller.nests : Caller T → Nat
  | .send _ nested => nested.toNat
  | _ => 0

def Caller.granted (woken : Bool) : Caller T → Nat
  | .lock => woken.toNat
  | .send _ nested => nested.toNat
  | .unlock => 0

def Caller.isLock : Caller T → Bool
  | .lock => true
  | _ => false

def Caller.unsent : Caller T → List T
  | .send record _ => [record]
  | _ => []

def Pc.caller : Pc T → Option (Caller T)
  | .pushLoad c => some c
  | .pushCas c _ => some c
  | .loadHandoff c => some c
  | .emptyPop c _ => some c
  | .emptyPush c _ => some c
  | .casHandoff c _ => some c
  | .popTest c => some c
  | .popTake c => some c
  | .popExchange c => some c
  | .popReverse c _ => some c
  | .popped c _ => some c
  | .wake c _ => some c
  | _ => none

def Pc.weight : Pc T → Nat
  | .held => 1
  | .sent => 1
  | .storeOwner => 1
  | .lockOwner nested => 1 + nested.toNat
  | .lockUncount => 2
  | .lockWait => 1
  | .unlockDepth => 1
  | .unlockOwner => 1
  | .unlockCount => 1
  | .tryOwner nested => nested.toNat
  | pc => match pc.caller with
    | some c => c.weight
    | none => 0

def Pc.carries (woken : Bool) : Pc T → Nat
  | .held => 1
  | .sent => woken.toNat
  | .storeOwner => 1
  | .lockOwner nested => nested.toNat
  | .lockUncount => 1
  | .popTest c => 1 + c.nests
  | .popTake c => 1 + c.nests
  | .popExchange c => 1 + c.nests
  | .popReverse c _ => 1 + c.nests
  | .popped c _ => 1 + c.nests
  | .wake c _ => 1 + c.nests
  | .lockWait => woken.toNat
  | .unlockDepth => 1
  | .unlockOwner => 1
  | .unlockCount => 1
  | .publish => 1
  | .tryOwner nested => nested.toNat
  | .tryCount => 1
  | pc => match pc.caller with
    | some c => c.granted woken
    | none => 0

def Pc.owns : Pc T → Bool
  | .held => true
  | .lockOwner nested => nested
  | .lockUncount => true
  | .unlockDepth => true
  | .unlockOwner => true
  | .tryOwner nested => nested
  | pc => match pc.caller with
    | some (.send _ nested) => nested
    | _ => false

def Pc.live : Pc T → Bool
  | .parked => true
  | .sent => true
  | .lockWait => true
  | pc => match pc.caller with
    | some .lock => true
    | _ => false

def Pc.fresh : Pc T → Bool
  | .parked => true
  | .pushLoad c => c.isLock
  | .pushCas c _ => c.isLock
  | _ => false

def Pc.care : Pc T → List T
  | .pushLoad c => c.unsent
  | .pushCas c _ => c.unsent
  | .popReverse _ r => r
  | .popped _ other => other.toList
  | .wake _ other => [other]
  | _ => []

def Pc.taken : Pc T → List T
  | .popped _ other => other.toList
  | .wake _ other => [other]
  | _ => []

def Pc.locking : Pc T → Bool
  | .lockWait => true
  | pc => match pc.caller with
    | some .lock => true
    | _ => false

def Pc.checks (handoff : Nat) : Pc T → Bool
  | .loadHandoff _ => true
  | .emptyPop _ seen => seen = handoff
  | .emptyPush _ seen => seen = handoff
  | .casHandoff _ seen => seen = handoff
  | _ => false

def State.flags (s : State T) : Nat := (if s.handoff = 0 then 0 else 1) + (if s.count = 0 then 1 else 0)
def Flags (s s' : State T) (gain loss : Nat) : Prop := s'.flags + loss = s.flags + gain

variable {s s' : State T} {gain loss : Nat} {p : Pc T} {w o : T} {c : Caller T}

open State Pc

lemma flagsSame (handoff : s'.handoff = s.handoff) (count : s'.count = s.count) : Flags s s' 0 0 := by
  simp [Flags,flags,handoff,count]

lemma flagsTaken (published : s.handoff ≠ 0) (taken : s'.handoff = 0) (count : s'.count = s.count) : Flags s s' 0 1 := by
  simp only [Flags,flags,taken,count,published,if_true,if_false]
  omega

lemma flagsPublished (zero : s.handoff = 0) (published : s'.handoff ≠ 0) (count : s'.count = s.count) :
    Flags s s' 1 0 := by
  simp only [Flags,flags,zero,count,published,if_true,if_false]
  omega

lemma flagsBusy (handoff : s'.handoff = s.handoff) (count : s.count ≠ 0) (count' : s'.count ≠ 0) : Flags s s' 0 0 := by
  simp [Flags,flags,handoff,count,count']

lemma flagsFreed (handoff : s'.handoff = s.handoff) (count : s.count ≠ 0) (count' : s'.count = 0) : Flags s s' 1 0 := by
  simp [Flags,flags,handoff,count,count']

lemma flagsAcquired (handoff : s'.handoff = s.handoff) (count : s.count = 0) (count' : s'.count ≠ 0) : Flags s s' 0 1 := by
  simp [Flags,flags,handoff,count,count']

variable [Fintype T]

structure Tokens (s : State T) : Prop where
  token : total (fun t => (s.pc t).carries (s.woken t)) + s.flags = 1
  count : s.count = (total fun t => (s.pc t).weight : Nat)
  owner : ∀ t, s.owner = some t ↔ (s.pc t).owns = true

variable {s s' : State T} {t u : T} {q : Pc T}

lemma Tokens.weightLe (h : Tokens s) (t : T) : ((s.pc t).weight : Int) ≤ s.count := by
  have le := leTotal (fun t => (s.pc t).weight) t
  rw [h.count]
  exact_mod_cast le

lemma Tokens.idle (h : Tokens s) (free : s.count = 0) (t : T) : (s.pc t).carries (s.woken t) = 0 ∧ s.handoff = 0 := by
  have le := leTotal (fun t => (s.pc t).carries (s.woken t)) t
  have token := h.token
  simp only [flags,free,if_true] at token
  split at token
  · exact ⟨by omega,by assumption⟩
  · omega

lemma Tokens.out (h : Tokens s) (published : s.handoff ≠ 0) (t : T) : (s.pc t).carries (s.woken t) = 0 := by
  have le := leTotal (fun t => (s.pc t).carries (s.woken t)) t
  have token := h.token
  simp only [flags,published,if_false] at token
  omega

lemma Tokens.carrier (h : Tokens s) (carries : 0 < (s.pc t).carries (s.woken t)) :
    (s.pc t).carries (s.woken t) = 1 ∧ s.handoff = 0 ∧ s.count ≠ 0 := by
  have le := leTotal (fun t => (s.pc t).carries (s.woken t)) t
  have token := h.token
  unfold flags at token
  split at token <;> split at token <;> omega

variable [DecidableEq T]

lemma Tokens.unique (h : Tokens s) (ht : 0 < (s.pc t).carries (s.woken t)) (hu : 0 < (s.pc u).carries (s.woken u)) :
    t = u := by
  by_contra ne
  have le := pairLeTotal (fun t => (s.pc t).carries (s.woken t)) ne
  have token := h.token
  omega

lemma totalGoto (share : Pc T → T → Nat) (pc : T → Pc T) (t : T) (q : Pc T) :
    total (fun u => share (update pc t q u) u) + share (pc t) t = total (fun u => share (pc u) u) + share q t := by
  have move := @totalMove T _ (fun u => share (pc u) u) (fun u => share (update pc t q u) u) t _ fun u other => by
    rw [update_of_ne other]
  rw [update_self] at move
  exact move

lemma Tokens.move (h : Tokens s) (pc : s'.pc = update s.pc t q)
    (woken : ∀ u, u ≠ t → s'.woken u = s.woken u) (flags : Flags s s' gain loss)
    (token : q.carries (s'.woken t) + gain = (s.pc t).carries (s.woken t) + loss)
    (count : s'.count + (s.pc t).weight = s.count + q.weight)
    (owner : s'.owner = some t ↔ q.owns = true) (others : ∀ u, u ≠ t → (s'.owner = some u ↔ s.owner = some u)) :
    Tokens s' := by
  have sum := h.token
  have weights := h.count
  constructor
  · have moved := @totalMove T _ (fun u => (s.pc u).carries (s.woken u)) (fun u => (s'.pc u).carries (s'.woken u)) t _
      fun u off => by rw [pc,update_of_ne off,woken u off]
    have here : s'.pc t = q := by rw [pc,update_self]
    unfold Flags at flags
    rw [here] at moved
    omega
  · have moved := totalGoto (fun p _ => p.weight) s.pc t q
    rw [pc]
    omega
  · intro u
    rw [pc]
    by_cases same : u = t
    · rw [same,update_self,owner]
    · rw [update_of_ne same,others u same,h.owner]

lemma Tokens.shift (h : Tokens s) (at_ : s.pc t = p) (pc : s'.pc = update s.pc t q)
    (woken : ∀ u, u ≠ t → s'.woken u = s.woken u) (flags : Flags s s' gain loss)
    (token : q.carries (s'.woken t) + gain = p.carries (s.woken t) + loss)
    (count : s'.count + p.weight = s.count + q.weight) (owns : q.owns = p.owns)
    (owner : s'.owner = s.owner) : Tokens s' := by
  refine h.move pc woken flags (by rw [at_]; exact token) (by rw [at_]; exact count) ?_ (fun u _ => by rw [owner])
  rw [owner,owns,← at_]
  exact h.owner t

structure Records (s : State T) : Prop where
  places : ∀ w, s.pushlist.count w + s.poplist.count w + total (fun t => (s.pc t).care.count w) +
    (s.pc w).fresh.toNat + ((s.pc w).live && s.woken w).toNat = (s.pc w).live.toNat
  wakes : ∀ w, (s.pc w).live = true → s.wakes w = (s.woken w).toNat
  popsLe : ∀ w, (s.pc w).live = true → s.pops w ≤ total (fun t => (s.pc t).taken.count w) + (s.woken w).toNat
  popsGe : ∀ w, (s.pc w).locking = true → total (fun t => (s.pc t).taken.count w) + (s.woken w).toNat ≤ s.pops w

lemma takenLeCare (p : Pc T) (w : T) : p.taken.count w ≤ p.care.count w := by
  cases p <;> simp [taken,care]

lemma Records.live (h : Records s) (mem : w ∈ (s.pc t).care) :
    (s.pc w).live = true ∧ s.woken w = false ∧ (s.pc w).fresh = false := by
  have one := count_pos_iff.mpr mem
  have le := leTotal (fun t => (s.pc t).care.count w) t
  have places := h.places w
  have lives := toNat_le (s.pc w).live
  cases live : (s.pc w).live <;> cases woken : s.woken w <;> cases fresh : (s.pc w).fresh <;>
    simp only [live,woken,fresh,Bool.toNat_true,Bool.toNat_false,Bool.and_true,Bool.and_false] at places lives <;>
    first | exact ⟨rfl,rfl,rfl⟩ | omega

lemma careMove (pc : s'.pc = update s.pc t q) (w : T) : total (fun u => (s'.pc u).care.count w) + (s.pc t).care.count w =
      total (fun u => (s.pc u).care.count w) + q.care.count w := by
  rw [pc]
  exact totalGoto (fun p _ => p.care.count w) s.pc t q

lemma takenMove (pc : s'.pc = update s.pc t q) (w : T) :
    total (fun u => (s'.pc u).taken.count w) + (s.pc t).taken.count w =
      total (fun u => (s.pc u).taken.count w) + q.taken.count w := by
  rw [pc]
  exact totalGoto (fun p _ => p.taken.count w) s.pc t q

lemma Records.shift (h : Records s) (pc : s'.pc = update s.pc t q)
    (same : s'.woken = s.woken ∧ s'.wakes = s.wakes) (live : q.live = (s.pc t).live)
    (locking : q.locking = (s.pc t).locking)
    (moved : ∀ w, s'.pushlist.count w + s'.poplist.count w + q.care.count w + (if w = t then q.fresh.toNat else 0) =
      s.pushlist.count w + s.poplist.count w + (s.pc t).care.count w + (if w = t then (s.pc t).fresh.toNat else 0))
    (popped : ∀ w, s'.pops w + (s.pc t).taken.count w = s.pops w + q.taken.count w) : Records s' := by
  have kinds : ∀ u, (s'.pc u).live = (s.pc u).live ∧ (s'.pc u).locking = (s.pc u).locking := by
    intro u
    rw [pc]
    by_cases here : u = t
    · rw [here,update_self]
      exact ⟨live,locking⟩
    rw [update_of_ne here]
    exact ⟨rfl,rfl⟩
  constructor <;> intro w <;> simp only [kinds,same]
  · have places := h.places w
    have care := careMove pc w
    have move := moved w
    by_cases here : w = t
    · have fresh : (s'.pc w).fresh = q.fresh := by rw [pc,here,update_self]
      rw [if_pos here,if_pos here] at move
      rw [fresh]
      subst here
      omega
    have fresh : (s'.pc w).fresh = (s.pc w).fresh := by rw [pc,update_of_ne here]
    rw [if_neg here,if_neg here] at move
    rw [fresh]
    omega
  · exact h.wakes w
  · intro on
    have le := h.popsLe w on
    have taken := takenMove pc w
    have pop := popped w
    omega
  intro on
  have ge := h.popsGe w on
  have taken := takenMove pc w
  have pop := popped w
  omega

lemma Records.renew (h : Records s) (pc : s'.pc = update s.pc t q)
    (lists : s'.pushlist = s.pushlist ∧ s'.poplist = s.poplist)
    (record : s'.woken = update s.woken t false ∧ s'.pops = update s.pops t 0 ∧ s'.wakes = update s.wakes t 0)
    (before : (s.pc t).live = false ∧ (s.pc t).care = [])
    (after : q.live = true ∧ q.fresh = true ∧ q.care = []) : Records s' := by
  have none : ∀ w, q.taken.count w = 0 ∧ (s.pc t).taken.count w = 0 := by
    intro w
    have a := takenLeCare q w
    have b := takenLeCare (s.pc t) w
    rw [after.2.2,count_nil] at a
    rw [before.2,count_nil] at b
    omega
  have places := h.places t
  rw [before.1] at places
  simp only [Bool.false_and,Bool.toNat_false] at places
  have here : s'.pc t = q := by rw [pc,update_self]
  have unwoken : s'.woken t = false := by rw [record.1,update_self]
  have untaken : total (fun u => (s'.pc u).taken.count t) = 0 := by
    have taken := takenMove pc t
    have le := totalLe fun u => takenLeCare (s.pc u) t
    have := none t
    omega
  constructor <;> intro w
  · have care := careMove pc w
    rw [before.2,after.2.2] at care
    by_cases same : w = t
    · subst same
      simp only [here,lists,after,unwoken,Bool.and_false,Bool.toNat_true,Bool.toNat_false]
      omega
    have there : s'.pc w = s.pc w := by rw [pc,update_of_ne same]
    have kept : s'.woken w = s.woken w := by rw [record.1,update_of_ne same]
    have old := h.places w
    rw [there,kept,lists.1,lists.2]
    omega
  · intro live
    by_cases same : w = t
    · rw [same,record.2.2,update_self,unwoken]
      rfl
    rw [record.2.2,record.1,update_of_ne same,update_of_ne same]
    exact h.wakes w (by rwa [pc,update_of_ne same] at live)
  all_goals
    intro on
    by_cases same : w = t
    · rw [same,record.2.1,update_self,untaken,unwoken]
      exact Nat.le_refl 0
    have taken := takenMove pc w
    have := none w
    rw [pc,update_of_ne same] at on
    rw [record.2.1,record.1,update_of_ne same,update_of_ne same]
  · have le := h.popsLe w on
    omega
  have ge := h.popsGe w on
  omega

lemma Records.resume (h : Records s) (pc : s'.pc = update s.pc t q)
    (lists : s'.pushlist = s.pushlist ∧ s'.poplist = s.poplist) (woken : s'.woken = s.woken)
    (history : s'.pops = s.pops ∧ s'.wakes = s.wakes)
    (before : (s.pc t).live = true ∧ 0 < (s.pc t).care.count t + (s.woken t).toNat)
    (others : ∀ w, w ≠ t → (s.pc t).care.count w = 0)
    (after : q.live = false ∧ q.fresh = false ∧ q.locking = false ∧ q.care = []) : Records s' := by
  have none : ∀ w, w ≠ t → q.taken.count w = 0 ∧ (s.pc t).taken.count w = 0 := by
    intro w ne
    have a := takenLeCare q w
    have b := takenLeCare (s.pc t) w
    rw [after.2.2.2,count_nil] at a
    have := others w ne
    omega
  have here : s'.pc t = q := by rw [pc,update_self]
  have dead : ∀ {w}, (s'.pc w).live = true → w ≠ t := by
    rintro w live rfl
    rw [here,after.1] at live
    cases live
  constructor <;> intro w
  · have care := careMove pc w
    have old := h.places w
    rw [after.2.2.2,count_nil] at care
    by_cases same : w = t
    · subst same
      have gone := before.2
      rw [before.1,Bool.true_and,Bool.toNat_true] at old
      simp only [here,lists,after,Bool.false_and,Bool.toNat_false]
      omega
    have there : s'.pc w = s.pc w := by rw [pc,update_of_ne same]
    have zero := others w same
    rw [there,woken,lists.1,lists.2]
    omega
  · intro live
    have ne := dead live
    rw [pc,update_of_ne ne] at live
    rw [history.2,woken]
    exact h.wakes w live
  · intro live
    have ne := dead live
    rw [pc,update_of_ne ne] at live
    have le := h.popsLe w live
    have taken := takenMove pc w
    have := none w ne
    rw [history.1,woken]
    omega
  intro locking
  have ne : w ≠ t := by
    rintro rfl
    rw [here,after.2.2.1] at locking
    cases locking
  rw [pc,update_of_ne ne] at locking
  have ge := h.popsGe w locking
  have taken := takenMove pc w
  have := none w ne
  rw [history.1,woken]
  omega

lemma leaveShape (c : Caller T) (other : T) : c.leave.care = [] ∧ c.leave.taken = [] ∧ c.leave.fresh = false ∧
    c.leave.live = (wake c other).live ∧ c.leave.locking = (wake c other).locking := by
  cases c with
  | send record nested => cases nested <;> exact ⟨rfl,rfl,rfl,rfl,rfl⟩
  | _ => exact ⟨rfl,rfl,rfl,rfl,rfl⟩

lemma Records.wake (h : Records s) (at_ : s.pc t = .wake c o) (ne : o ≠ t) (pc : s'.pc = update s.pc t c.leave)
    (lists : s'.pushlist = s.pushlist ∧ s'.poplist = s.poplist)
    (record : s'.woken = update s.woken o true ∧ s'.wakes = update s.wakes o (s.wakes o + 1))
    (pops : s'.pops = s.pops) : Records s' := by
  obtain ⟨noCare,noTaken,noFresh,live,locking⟩ := leaveShape c o
  have held : o ∈ (s.pc t).care := by rw [at_]; simp [care]
  obtain ⟨lives,asleep,stale⟩ := h.live held
  have kinds : ∀ u, (s'.pc u).live = (s.pc u).live ∧ (s'.pc u).locking = (s.pc u).locking ∧
    (s'.pc u).fresh = (s.pc u).fresh := by
    intro u
    rw [pc]
    by_cases here : u = t
    · rw [here,update_self,at_]
      exact ⟨live,locking,noFresh⟩
    rw [update_of_ne here]
    exact ⟨rfl,rfl,rfl⟩
  have care : ∀ w, total (fun u => (s'.pc u).care.count w) + [o].count w = total (fun u => (s.pc u).care.count w) := by
    intro w
    have move := careMove pc w
    rw [noCare,at_] at move
    exact move
  have stays : ∀ w, total (fun u => (s'.pc u).taken.count w) + (s'.woken w).toNat =
      total (fun u => (s.pc u).taken.count w) + (s.woken w).toNat := by
    intro w
    have moved := takenMove pc w
    rw [noTaken,at_] at moved
    have moved : _ + [o].count w = _ + 0 := moved
    by_cases same : w = o
    · subst same
      rw [count_singleton_self] at moved
      rw [record.1,update_self,asleep]
      exact moved
    rw [count_singleton,if_neg (by simpa using fun eq => same eq.symm)] at moved
    rw [record.1,update_of_ne same]
    omega
  constructor <;> intro w <;> simp only [kinds,lists,pops]
  · have places := h.places w
    have moved := care w
    by_cases same : w = o
    · subst same
      rw [asleep,lives] at places
      simp only [record.1,update_self,lives,count_singleton_self,Bool.and_self,Bool.and_false,
        toNat_true,toNat_false] at places moved ⊢
      omega
    rw [record.1,update_of_ne same]
    rw [count_singleton,if_neg (by simpa using fun eq => same eq.symm)] at moved
    omega
  · intro on
    by_cases same : w = o
    · rw [same,record.1,record.2,update_self,update_self,h.wakes o lives,asleep]
      rfl
    rw [record.1,record.2,update_of_ne same,update_of_ne same]
    exact h.wakes w on
  · intro on
    rw [stays]
    exact h.popsLe w on
  intro on
  rw [stays]
  exact h.popsGe w on

lemma sentPc (ne : t ≠ w) (pc : s'.pc = update (update s.pc w .sent) t q) :
    s'.pc t = q ∧ s'.pc w = .sent ∧ ∀ u, u ≠ t → u ≠ w → s'.pc u = s.pc u := by
  rw [pc]
  refine ⟨update_self ..,by rw [update_of_ne ne.symm,update_self],fun u far off => ?_⟩
  rw [update_of_ne far,update_of_ne off]

lemma Records.send (h : Records s) (parked : s.pc w = .parked) (ne : t ≠ w) (pc : s'.pc = update (update s.pc w .sent) t q)
    (same : s'.pushlist = s.pushlist ∧ s'.poplist = s.poplist ∧ s'.woken = s.woken ∧ s'.wakes = s.wakes ∧ s'.pops = s.pops)
    (before : (s.pc t).live = false ∧ (s.pc t).care = [] ∧ (s.pc t).fresh = false)
    (after : q.live = false ∧ q.care = [w] ∧ q.fresh = false ∧ q.locking = false) : Records s' := by
  obtain ⟨pushSame,popSame,wokenSame,wakesSame,popsSame⟩ := same
  obtain ⟨here,there,rest⟩ := sentPc ne pc
  have care : ∀ x, total (fun u => (s'.pc u).care.count x) = total (fun u => (s.pc u).care.count x) + [w].count x := by
    intro x
    have pair := @totalPair T _ (fun u => (s.pc u).care.count x) (fun u => (s'.pc u).care.count x) t w _ ne
      fun u far off => by rw [rest u far off]
    have sent : (Pc.sent : Pc T).care = [] ∧ (Pc.parked : Pc T).care = [] := ⟨rfl,rfl⟩
    simpa only [here,there,parked,before.2.1,after.2.1,sent,count_nil,Nat.add_zero] using pair
  have taken : ∀ x, total (fun u => (s.pc u).taken.count x) ≤ total (fun u => (s'.pc u).taken.count x) ∧
    (x ≠ w → total (fun u => (s'.pc u).taken.count x) = total (fun u => (s.pc u).taken.count x)) := by
    intro x
    have pair := @totalPair T _ (fun u => (s.pc u).taken.count x) (fun u => (s'.pc u).taken.count x) t w _ ne
      fun u far off => by rw [rest u far off]
    have old := takenLeCare (s.pc t) x
    have new := takenLeCare q x
    rw [before.2.1,count_nil] at old
    rw [after.2.1] at new
    have sent : (Pc.sent : Pc T).taken = [] ∧ (Pc.parked : Pc T).taken = [] := ⟨rfl,rfl⟩
    simp only [here,there,parked,sent,count_nil] at pair
    refine ⟨by omega,fun far => ?_⟩
    rw [count_singleton,if_neg (by simpa using fun eq => far eq.symm)] at new
    omega
  have live : ∀ x, (s'.pc x).live = (s.pc x).live := by
    intro x
    by_cases far : x = t
    · rw [far,here,after.1,before.1]
    by_cases off : x = w
    · rw [off,there,parked]
      rfl
    · rw [rest x far off]
  constructor <;> intro x
  · have places := h.places x
    have moved := care x
    rw [live,pushSame,popSame,wokenSame]
    by_cases off : x = w
    · subst off
      rw [there]
      rw [parked] at places ⊢
      simp only [fresh,count_singleton_self,toNat_true,toNat_false] at places moved ⊢
      omega
    rw [count_singleton,if_neg (by simpa using fun eq => off eq.symm)] at moved
    by_cases far : x = t
    · rw [far,here,after.2.2.1]
      rw [far,before.2.2] at places
      rw [far] at moved
      omega
    rw [rest x far off]
    omega
  · intro on
    rw [live] at on
    rw [wakesSame,wokenSame]
    exact h.wakes x on
  · intro on
    rw [live] at on
    have le := h.popsLe x on
    have more := (taken x).1
    rw [popsSame,wokenSame]
    omega
  intro on
  have off : x ≠ w := by
    rintro rfl
    rw [there] at on
    cases on
  have far : x ≠ t := by
    rintro rfl
    rw [here,after.2.2.2] at on
    cases on
  rw [rest x far off] at on
  have ge := h.popsGe x on
  have equal := (taken x).2 off
  rw [popsSame,wokenSame]
  omega

lemma carriesWoken (live : p.live = true) (stale : p.fresh = false) (none : p.carries false = 0) : p.carries true = 1 := by
  cases p with
  | sent | lockWait => rfl
  | parked => cases stale
  | loadHandoff c | emptyPop c seen | emptyPush c seen | casHandoff c seen => cases c <;> first | rfl | cases live
  | pushLoad c | pushCas c old => cases c with
    | lock => cases stale
    | _ => cases live
  | popTest c | popTake c | popExchange c | popReverse c r | popped c other | wake c other => simp [carries] at none
  | _ => cases live

lemma Tokens.wake (h : Tokens s) (records : Records s) (at_ : s.pc t = .wake c o) (ne : o ≠ t)
    (asleep : c = .lock → s.woken t = false) (pc : s'.pc = update s.pc t c.leave)
    (woken : s'.woken = update s.woken o true)
    (same : s'.count = s.count ∧ s'.handoff = s.handoff ∧ s'.owner = s.owner) : Tokens s' := by
  have carries : 0 < (s.pc t).carries (s.woken t) := by
    rw [at_]
    simp [carries]
  have one := (h.carrier carries).1
  have held : o ∈ (s.pc t).care := by rw [at_]; simp [care]
  obtain ⟨lives,sleeps,stale⟩ := records.live held
  have zero : (s.pc o).carries (s.woken o) = 0 := by
    by_contra some
    exact ne (h.unique (Nat.pos_of_ne_zero some) carries)
  have given : (s.pc o).carries true = 1 := carriesWoken lives stale (by rw [← sleeps]; exact zero)
  have left : c.leave.carries (s.woken t) = 0 ∧ c.leave.weight = (s.pc t).weight ∧ c.leave.owns = (s.pc t).owns := by
    rw [at_] at one ⊢
    cases c with
    | lock => exact ⟨by rw [asleep rfl]; rfl,rfl,rfl⟩
    | send record nested =>
      cases nested with
      | true => cases one
      | false => exact ⟨rfl,rfl,rfl⟩
    | unlock => exact ⟨rfl,rfl,rfl⟩
  obtain ⟨none,weight,owns⟩ := left
  have flags : Flags s s' 0 0 := flagsSame same.2.1 same.1
  have here : s'.pc t = c.leave := by rw [pc,update_self]
  have there : ∀ u, u ≠ t → s'.pc u = s.pc u := fun u off => by rw [pc,update_of_ne off]
  constructor
  · have pair := @totalPair T _ (fun u => (s.pc u).carries (s.woken u)) (fun u => (s'.pc u).carries (s'.woken u)) t o _
      ne.symm fun u far off => by rw [there u far,woken,update_of_ne off]
    simp only [here,there o ne,woken,update_self,update_of_ne ne.symm,none,given,zero,one] at pair
    have token := h.token
    unfold Flags at flags
    simp only [woken]
    omega
  · have moved := totalGoto (fun p _ => p.weight) s.pc t c.leave
    have count := h.count
    rw [same.1,pc]
    omega
  · intro u
    rw [same.2.2,h.owner u]
    by_cases off : u = t
    · rw [off,here,owns]
    · rw [there u off]

lemma Tokens.send (h : Tokens s) (parked : s.pc w = .parked) (asleep : s.woken w = false) (ne : t ≠ w)
    (pc : s'.pc = update (update s.pc w .sent) t q) (woken : s'.woken = s.woken)
    (owner : s'.owner = s.owner) (count : s'.count = s.count + 1)
    (weight : q.weight = (s.pc t).weight) (owns : q.owns = (s.pc t).owns) (flags : Flags s s' gain loss)
    (token : q.carries (s.woken t) + gain = (s.pc t).carries (s.woken t) + loss) : Tokens s' := by
  obtain ⟨here,there,rest⟩ := sentPc ne pc
  constructor
  · have pair := @totalPair T _ (fun u => (s.pc u).carries (s.woken u)) (fun u => (s'.pc u).carries (s'.woken u)) t w _ ne
      fun u far off => by rw [rest u far off,woken]
    have sent : (Pc.sent : Pc T).carries false = 0 ∧ (Pc.parked : Pc T).carries false = 0 := ⟨rfl,rfl⟩
    simp only [here,there,parked,woken,asleep,sent] at pair
    have sum := h.token
    unfold Flags at flags
    simp only [woken]
    omega
  · have pair := @totalPair T _ (fun u => (s.pc u).weight) (fun u => (s'.pc u).weight) t w _ ne
      fun u far off => by rw [rest u far off]
    have sent : (Pc.sent : Pc T).weight = 1 ∧ (Pc.parked : Pc T).weight = 0 := ⟨rfl,rfl⟩
    simp only [here,there,parked,weight,sent] at pair
    have sum := h.count
    omega
  · intro u
    rw [owner,h.owner u]
    by_cases far : u = t
    · rw [far,here,owns]
    by_cases off : u = w
    · rw [off,there,parked]
      rfl
    · rw [rest u far off]

def Seen (s : State T) (seen : Nat) : Prop := seen ≠ 0 ∧ seen ≤ s.sequence

def Knows (s : State T) (t : T) : Pc T → Prop
  | .pushLoad c => c ≠ .unlock
  | .pushCas c _ => c ≠ .unlock
  | .loadHandoff c => c ≠ .unlock
  | .emptyPop _ seen => Seen s seen
  | .emptyPush _ seen => Seen s seen ∧ (s.handoff = seen → s.poplist = [])
  | .casHandoff _ seen => Seen s seen ∧ (s.handoff = seen → s.pushlist ≠ [] ∨ s.poplist ≠ [])
  | .tryCas seen => Seen s seen
  | .popTest c => (c = .lock → s.woken t = false) ∧ (c ≠ .unlock → s.pushlist ≠ [] ∨ s.poplist ≠ [])
  | .popTake c => (c = .lock → s.woken t = false) ∧ s.poplist ≠ []
  | .popExchange c => (c = .lock → s.woken t = false) ∧ s.poplist = [] ∧ (c ≠ .unlock → s.pushlist ≠ [])
  | .popReverse c r => (c = .lock → s.woken t = false) ∧ r ≠ []
  | .popped c other => (c = .lock → s.woken t = false) ∧ (c ≠ .unlock → other ≠ none)
  | .wake c other => (c = .lock → s.woken t = false) ∧ other ≠ t
  | _ => True

structure Protocol (s : State T) : Prop where
  sequence : s.handoff ≤ s.sequence
  knows : ∀ t, Knows s t (s.pc t)
  helper : s.handoff ≠ 0 → s.pushlist ≠ [] ∨ s.poplist ≠ [] → ∃ t, (s.pc t).checks s.handoff = true

lemma Knows.grow (h : Knows s u p) (handoff : s'.handoff = s.handoff)
    (sequence : s'.sequence = s.sequence) (poplist : s'.poplist = s.poplist)
    (pushlist : s.pushlist ≠ [] → s'.pushlist ≠ []) (woken : s'.woken u = s.woken u) : Knows s' u p := by
  cases p <;> simp only [Knows,Seen,handoff,sequence,poplist,woken] at h ⊢
  case casHandoff c seen => exact ⟨h.1,fun same => (h.2 same).imp pushlist id⟩
  case popTest c => exact ⟨h.1,fun c => (h.2 c).imp pushlist id⟩
  case popExchange c => exact ⟨h.1,h.2.1,fun c => pushlist (h.2.2 c)⟩
  all_goals exact h

lemma Knows.away (h : Knows s u p) (none : p.carries (s.woken u) = 0)
    (sequence : s.sequence ≤ s'.sequence) (handoff : ∀ seen, Seen s seen → s'.handoff ≠ seen) : Knows s' u p := by
  have seen : ∀ {k}, Seen s k → Seen s' k := fun h => ⟨h.1,Nat.le_trans h.2 sequence⟩
  cases p with
  | emptyPop c k | tryCas k => exact seen h
  | emptyPush c k | casHandoff c k => exact ⟨seen h.1,fun same => absurd same (handoff k h.1)⟩
  | popTest c | popTake c | popExchange c | popReverse c r | popped c other | wake c other => simp [carries] at none
  | _ => exact h

lemma Protocol.keep (h : Protocol s) (pc : s'.pc = update s.pc t q)
    (same : s'.handoff = s.handoff ∧ s'.sequence = s.sequence ∧ s'.poplist = s.poplist)
    (pushlist : s.pushlist ≠ [] → s'.pushlist ≠ []) (woken : ∀ u, u ≠ t → s'.woken u = s.woken u)
    (here : Knows s' t q)
    (helper : s.handoff ≠ 0 → s'.pushlist ≠ [] ∨ s.poplist ≠ [] →
      q.checks s.handoff = true ∨ (s'.pushlist = s.pushlist ∧ (s.pc t).checks s.handoff = false)) : Protocol s' := by
  obtain ⟨handoff,sequence,poplist⟩ := same
  refine ⟨by rw [handoff,sequence]; exact h.sequence,?_,?_⟩
  · intro u
    rw [pc]
    by_cases off : u = t
    · rw [off,update_self]
      exact here
    rw [update_of_ne off]
    exact (h.knows u).grow handoff sequence poplist pushlist (woken u off)
  intro published full
  rw [handoff] at published ⊢
  rw [poplist] at full
  rcases helper published full with checks | ⟨lists,idle⟩
  · exact ⟨t,by rw [pc,update_self]; exact checks⟩
  rw [lists] at full
  obtain ⟨u,checks⟩ := h.helper published full
  have off : u ≠ t := by
    rintro rfl
    rw [idle] at checks
    cases checks
  exact ⟨u,by rw [pc,update_of_ne off]; exact checks⟩

lemma Protocol.away (h : Protocol s) (pc : s'.pc = update s.pc t q)
    (none : ∀ u, u ≠ t → (s.pc u).carries (s.woken u) = 0) (sequence : s.sequence ≤ s'.sequence)
    (handoff : s'.handoff = 0 ∨ (s'.handoff = s.sequence + 1 ∧ s'.handoff ≤ s'.sequence ∧ q.checks s'.handoff = true))
    (here : Knows s' t q) : Protocol s' := by
  refine ⟨by omega,?_,?_⟩
  · intro u
    rw [pc]
    by_cases off : u = t
    · rw [off,update_self]
      exact here
    rw [update_of_ne off]
    refine (h.knows u).away (none u off) sequence fun seen known => ?_
    have := known.1
    have := known.2
    omega
  intro published full
  rcases handoff with zero | ⟨_,_,checks⟩
  · exact absurd zero published
  exact ⟨t,by rw [pc,update_self]; exact checks⟩

end
end OsvKernel.LfMutex
