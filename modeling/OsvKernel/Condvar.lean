import OsvKernel.Fifo
import OsvKernel.Runs

/-! The condition variable of core/condvar.cc. A section under _m is one step; the loop of
wake_all() runs outside of _m, one send_lock() a step. A thread has one wait_record at a
time, so records are named by their threads. send_lock() gives the record to the mutex,
whose queue uses the same next field and which wakes the record later. -/
namespace OsvKernel.Condvar
open List Option Runs Chains Function

inductive Ret where
  | zero
  | etimedout
  deriving DecidableEq

/-- Where a thread is in wait(): outside, in wr.wait(tmr), before it takes _m after a
timeout, in the second wr.wait(), or about to take the user mutex and return. -/
inductive Pc where
  | idle
  | asleep
  | timedOut
  | taken
  | leaving (ret : Ret)
  deriving DecidableEq

structure Call (M : Type) where
  pc : Pc
  mtx : M
  tmr : Bool
  woken : Bool
  sends : List M
  result : Option (Ret × Bool)

inductive Waker (R M : Type) where
  | idle
  | outer (wr : Option R) (userMutex : Option M)
  | inner (userMutex : Option M) (nextWr prevr r : Option R)

structure State (R V M : Type) extends Fifo R where
  userMutex : Option M
  call : R → Call M
  waker : V → Waker R M
  failed : Bool

inductive Act (R V M : Type) where
  | wait (wr : R) (userMutex : M) (tmr : Bool)
  | look (wr : R) (expired : Bool)
  | unlink (wr : R) (bound : Nat)
  | finish (wr : R)
  | deliver (wr : R)
  | wakeOne (spill : R → Option R)
  | wakeAll (v : V)
  | proceed (v : V) (sameCpu : Bool) (spill : R → Option R)

section
variable {R V M : Type} [DecidableEq R] [DecidableEq V] [DecidableEq M]

def State.set (s : State R V M) (wr : R) (c : Call M) : State R V M :=
  {s with call := update s.call wr c}

def State.goto (s : State R V M) (v : V) (w : Waker R M) : State R V M :=
  {s with waker := update s.waker v w}

def sendLock (s : State R V M) (m : M) (wr : R) (spill : R → Option R) : State R V M :=
  {s with
    next := update s.next wr (spill wr)
    call := update s.call wr {s.call wr with sends := m::(s.call wr).sends}}

def wait (s : State R V M) (wr : R) (userMutex : M) (tmr : Bool) : Option (State R V M) :=
  let s := {s with next := update s.next wr none}.set wr ⟨.asleep,userMutex,tmr,false,[],none⟩
  (s.append wr).bind fun fifo =>
    if s.userMutex.all fun m => m = userMutex then some {s with toFifo := fifo, userMutex := some userMutex}
    else none

def look (s : State R V M) (wr : R) (expired : Bool) : Option (State R V M) :=
  let c := s.call wr
  match c.pc with
  | .asleep =>
    if c.woken then some (s.set wr {c with pc := .leaving .zero})
    else if c.tmr && expired then some (s.set wr {c with pc := .timedOut})
    else none
  | .taken => if c.woken then some (s.set wr {c with pc := .leaving .zero}) else none
  | _ => none

def unlinkNext (f : Fifo R) (wr : R) : Nat → Option R → Option (Fifo R × Bool)
  | 0,_ => none
  | _+1,none => some (f,false)
  | n+1,some p =>
    if f.next p = some wr then
      let f := {f with next := update f.next p (f.next wr)}
      some ({f with newest := if f.next p = none then some p else f.newest},true)
    else unlinkNext f wr n (f.next p)

def unlink (f : Fifo R) (wr : R) (bound : Nat) : Option (Fifo R × Bool) :=
  if f.oldest = some wr then some (f.drop wr,true) else unlinkNext f wr bound f.oldest

def wakeOne (s : State R V M) (spill : R → Option R) : Option (State R V M) :=
  match s.oldest with
  | none => some s
  | some wr =>
    s.userMutex.map fun m =>
      {sendLock {s with toFifo := s.drop wr} m wr spill with
        userMutex := if s.next wr = none then none else s.userMutex}

-- wake_all() returns before it takes _m when it sees oldest null; here it goes on and finds nobody.
def wakeAll (s : State R V M) (v : V) : State R V M :=
  {s.goto v (.outer s.oldest s.userMutex) with userMutex := none, oldest := none, newest := none}

def proceed (s : State R V M) (v : V) (sameCpu : Bool) (spill : R → Option R) : Option (State R V M) :=
  match s.waker v with
  | .idle => some s
  | .outer none _ => some (s.goto v .idle)
  | .outer (some wr) m =>
    if (s.call wr).woken then none
    else m.map fun mutex => (sendLock s mutex wr spill).goto v (.inner m (s.next wr) none (s.next wr))
  | .inner m nextWr _ none => some (s.goto v (.outer nextWr m))
  | .inner m nextWr prevr (some r) =>
    if (s.call r).woken then none
    else if sameCpu then
      m.bind fun mutex =>
        let s' := sendLock s mutex r spill
        if nextWr = some r then some (s'.goto v (.inner m (s.next r) prevr (s.next r)))
        else prevr.map fun p =>
          {s' with next := update s'.next p (s.next r)}.goto v (.inner m nextWr prevr (s.next r))
    else some (s.goto v (.inner m nextWr (some r) (s.next r)))

def State.crash (s : State R V M) : State R V M := {s with failed := true}

def perform (s : State R V M) : Act R V M → Option (State R V M)
  | .wait wr m tmr => if (s.call wr).pc = .idle then some ((wait s wr m tmr).getD s.crash) else none
  | .look wr expired => look s wr expired
  | .unlink wr bound =>
    if (s.call wr).pc = .timedOut then
      (unlink s.toFifo wr bound).map fun (fifo,found) =>
        {s with toFifo := fifo}.set wr {s.call wr with pc := if found then .leaving .etimedout else .taken}
    else none
  | .finish wr =>
    match (s.call wr).pc with
    | .leaving ret => some (s.set wr {s.call wr with pc := .idle, result := some (ret,(s.call wr).woken)})
    | _ => none
  | .deliver wr =>
    if (s.call wr).sends ≠ [] ∧ (s.call wr).woken = false then some (s.set wr {s.call wr with woken := true}) else none
  | .wakeOne spill => some ((wakeOne s spill).getD s.crash)
  | .wakeAll v =>
    match s.waker v with
    | .idle => some (wakeAll s v)
    | _ => none
  | .proceed v sameCpu spill => some ((proceed s v sameCpu spill).getD s.crash)

def step (s : State R V M) (act : Act R V M) : Option (State R V M) := if s.failed then none else perform s act

/-- A waiter that comes while others are queued uses their mutex. -/
def Allowed (s : State R V M) : Act R V M → Prop
  | .wait _ m _ => ∀ q ∈ s.oldest, (s.call q).mtx = m
  | _ => True

/-- No waiter that is alone in the queue removes itself after a timeout. -/
def Clear (s : State R V M) : Act R V M → Prop
  | .unlink wr _ => ¬(s.oldest = some wr ∧ s.next wr = none)
  | _ => True

instance (s : State R V M) (act : Act R V M) : Decidable (Allowed s act) := by
  cases act <;> unfold Allowed <;> infer_instance

instance (s : State R V M) (act : Act R V M) : Decidable (Clear s act) := by
  cases act <;> unfold Clear <;> infer_instance

def Start (s : State R V M) : Prop :=
  s.oldest = none ∧ s.newest = none ∧ s.userMutex = none ∧ s.failed = false ∧ (∀ v, s.waker v = .idle) ∧
    ∀ wr, (s.call wr).pc = .idle ∧ (s.call wr).woken = false ∧ (s.call wr).sends = [] ∧ (s.call wr).result = none

def Reachable (s : State R V M) : Prop := Runs.Reach step (fun s act => Allowed s act ∧ Clear s act) Start s

/-! The invariant. fifo is the queue, held the records wake_all() calls have still to send. -/

def Pc.waits : Pc → Bool
  | .asleep => true
  | .timedOut => true
  | .taken => true
  | _ => false

def Waker.mutex : Waker R M → Option M
  | .idle => none
  | .outer _ m => m
  | .inner m _ _ _ => m

def Waker.Holds (next : R → Option R) : Waker R M → List R → Prop
  | .idle,l => l = []
  | .outer wr _,l => Linked next wr l
  | .inner _ nextWr prevr r,l =>
    ∃ kept rest, l = kept ++ rest ∧ Linked next nextWr l ∧ r = rest.head? ∧ prevr = kept.getLast?

structure Known (c : Call M) (queued listed : Prop) : Prop where
  waits : listed → c.pc.waits = true ∧ c.sends = []
  once : c.sends = [] ∨ c.sends = [c.mtx]
  sent : c.pc.waits = true → ¬listed → c.sends = [c.mtx]
  woken : c.woken = true → c.sends = [c.mtx]
  taken : c.pc = .taken → ¬queued
  zero : c.pc = .leaving .zero → c.woken = true
  etimedout : c.pc = .leaving .etimedout → c.sends = []
  result : ∀ ret received, c.result = some (ret,received) → c.pc = .idle ∧
    (ret = .zero ∧ received = true ∧ c.sends = [c.mtx] ∨ ret = .etimedout ∧ received = false ∧ c.sends = [])

def Listed (fifo : List R) (held : V → List R) (wr : R) : Prop := wr ∈ fifo ∨ ∃ v, wr ∈ held v

structure Inv (s : State R V M) (fifo : List R) (held : V → List R) : Prop where
  queued : Queued s.toFifo fifo
  chain : ∀ v, (s.waker v).Holds s.next (held v)
  nodup : ∀ v, (held v).Nodup
  apart : ∀ v, ∀ wr ∈ held v, wr ∉ fifo
  single : ∀ v w wr, wr ∈ held v → wr ∈ held w → v = w
  known : ∀ wr, Known (s.call wr) (wr ∈ fifo) (Listed fifo held wr)
  mutex : ∀ wr ∈ fifo, s.userMutex = some (s.call wr).mtx
  empty : fifo = [] → s.userMutex = none
  owner : ∀ v, ∀ wr ∈ held v, (s.waker v).mutex = some (s.call wr).mtx
  fine : s.failed = false

variable {l fifo : List R} {w : Waker R M} {c : Call M} {listed queued : Prop} {m : M} {held : V → List R}
  {s s' : State R V M} {wr : R} {f f' : Fifo R} {found : Bool} {n : Nat} {v : V} {act : Act R V M}

lemma Waker.Holds.frame {next other : R → Option R} (holds : w.Holds next l)
    (same : ∀ wr ∈ l, other wr = next wr) : w.Holds other l := by
  rcases w with _ | ⟨wr,m⟩ | ⟨m,nextWr,prevr,r⟩
  · exact holds
  · exact Linked.frame holds same
  obtain ⟨kept,rest,parts,linked,first,last⟩ := holds
  exact ⟨kept,rest,parts,linked.frame same,first,last⟩

lemma Known.congr {queued' listed' : Prop} (known : Known c queued listed)
    (one : queued' ↔ queued) (two : listed' ↔ listed) : Known c queued' listed' := by
  rwa [propext one,propext two]

lemma Known.send (known : Known c queued listed) (here : listed)
    (own : m = c.mtx) : Known {c with sends := m::c.sends} False False := by
  obtain ⟨waits,none⟩ := known.waits here
  have sent : m::c.sends = [c.mtx] := by rw [own,none]
  refine ⟨False.elim,.inr sent,fun _ _ => sent,fun _ => sent,fun _ => id,known.zero,fun leaving => ?_,fun ret received done => ?_⟩
  · have leaving := leaving
    rw [leaving] at waits
    cases waits
  have idle := (known.result ret received done).1
  rw [idle] at waits
  cases waits

lemma Known.timedOut (known : Known c queued listed) (here : listed) :
    Known {c with pc := .leaving .etimedout} False False := by
  obtain ⟨waits,none⟩ := known.waits here
  refine
    { waits := False.elim, once := known.once, sent := nofun, woken := known.woken, taken := nofun, zero := nofun,
      etimedout := fun _ => none, result := fun ret received done => ?_ }
  have idle := (known.result ret received done).1
  rw [idle] at waits
  cases waits

section
variable {s s' : State R V M} {fifo fifo' : List R} {held held' : V → List R} {wr : R} {c : Call M} {pre post : List R}

lemma mtxSame (calls : s'.call = update s.call wr c) (mtx : c.mtx = (s.call wr).mtx) (r : R) :
    (s'.call r).mtx = (s.call r).mtx := by
  rw [calls]
  by_cases here : r = wr
  · rw [here,update_self,mtx]
  · rw [update_of_ne here]

lemma Inv.call (inv : Inv s fifo held) (mtx : c.mtx = (s.call wr).mtx)
    (known : Known c (wr ∈ fifo) (Listed fifo held wr)) : Inv (s.set wr c) fifo held := by
  have same := @mtxSame R V M _ _ _ s (s.set wr c) wr c rfl mtx
  refine { inv with known := fun r => ?_, mutex := fun r mem => ?_, owner := fun v r mem => ?_ }
  · change Known (update s.call wr c r) _ _
    by_cases here : r = wr
    · rw [here,update_self]
      exact known
    rw [update_of_ne here]
    exact inv.known r
  · rw [same]
    exact inv.mutex r mem
  rw [same]
  exact inv.owner v r mem

def Without (wr : R) (l l' : List R) : Prop := ∀ r, r ∈ l' ↔ r ∈ l ∧ r ≠ wr

lemma withoutSame (off : wr ∉ l) : Without wr l l :=
  fun _ => ⟨fun mem => ⟨mem,fun same => off (same ▸ mem)⟩,And.left⟩

lemma withoutMiddle (nodup : (pre ++ wr::post).Nodup) : Without wr (pre ++ wr::post) (pre ++ post) := by
  have fresh := (nodup_middle.mp nodup |> nodup_cons.mp).1
  intro r
  constructor
  · intro mem
    refine ⟨?_,fun same => fresh (same ▸ mem)⟩
    rcases mem_append.mp mem with left | right
    · exact mem_append_left _ left
    · exact mem_append_right _ (.tail _ right)
  rintro ⟨mem,ne⟩
  simpa [ne] using mem

lemma Inv.leave (inv : Inv s fifo held) (queue : Without wr fifo fifo') (wakers : ∀ v, Without wr (held v) (held' v))
    (calls : s'.call = update s.call wr c) (mtx : c.mtx = (s.call wr).mtx) (known : Known c False False)
    (queued : Queued s'.toFifo fifo') (chain : ∀ v, (s'.waker v).Holds s'.next (held' v))
    (nodup : ∀ v, (held' v).Nodup) (owner : ∀ v, (s'.waker v).mutex = (s.waker v).mutex)
    (mutex : fifo' ≠ [] → s'.userMutex = s.userMutex) (empty : fifo' = [] → s'.userMutex = none)
    (fine : s'.failed = s.failed) : Inv s' fifo' held' := by
  have same := mtxSame calls mtx
  have listed : ∀ r, Listed fifo' held' r ↔ Listed fifo held r ∧ r ≠ wr := by
    intro r
    simp only [Listed,queue r,fun v => wakers v r]
    grind
  refine ⟨queued,chain,nodup,fun v r mem => ?_,fun v w r one two => ?_,fun r => ?_,fun r mem => ?_,empty,
    fun v r mem => ?_,fine.trans inv.fine⟩
  · intro inside
    exact inv.apart v r ((wakers v r).mp mem).1 ((queue r).mp inside).1
  · exact inv.single v w r ((wakers v r).mp one).1 ((wakers w r).mp two).1
  · rw [calls]
    by_cases here : r = wr
    · rw [here,update_self]
      refine known.congr ⟨fun mem => ((queue wr).mp mem).2 rfl,False.elim⟩ ⟨fun mem => ((listed wr).mp mem).2 rfl,False.elim⟩
    rw [update_of_ne here]
    refine (inv.known r).congr ⟨fun mem => ((queue r).mp mem).1,fun mem => (queue r).mpr ⟨mem,here⟩⟩
      ⟨fun mem => ((listed r).mp mem).1,fun mem => (listed r).mpr ⟨mem,here⟩⟩
  · rw [mutex (ne_nil_of_mem mem),same]
    exact inv.mutex r ((queue r).mp mem).1
  rw [owner,same]
  exact inv.owner v r ((wakers v r).mp mem).1

end

/-! One lemma a step. -/

lemma waitInv {fifo : List R} {held : V → List R} {wr : R} {m : M} {tmr : Bool}
    (inv : Inv s fifo held) (idle : (s.call wr).pc = .idle) (contract : ∀ q ∈ s.oldest, (s.call q).mtx = m) :
    ∃ s', wait s wr m tmr = some s' ∧ Inv s' (fifo ++ [wr]) held := by
  have out : ¬Listed fifo held wr := by
    intro here
    have waits := ((inv.known wr).waits here).1
    rw [idle] at waits
    cases waits
  have off : wr ∉ fifo := fun mem => out (.inl mem)
  let new : Call M := ⟨.asleep,m,tmr,false,[],none⟩
  let s0 : State R V M := {s with next := update s.next wr none, call := update s.call wr new}
  obtain ⟨fifo1,appended,queued,frame⟩ :=
    @Queued.append R _ s0.toFifo fifo wr (inv.queued.write off none) off (update_self ..)
  have agrees : (s.userMutex.all fun other => other = m) = true := by
    rcases saved : s.userMutex with _ | other
    · rfl
    rcases fifo with _ | ⟨q,rest⟩
    · cases saved.symm.trans (inv.empty rfl)
    have first := contract q inv.queued.oldestEq
    have theirs := inv.mutex q (.head _)
    rw [saved,first] at theirs
    simpa using theirs
  refine ⟨{s0 with toFifo := fifo1, userMutex := some m},?_,?_⟩
  · change (s0.append wr).bind _ = _
    rw [appended]
    exact if_pos agrees
  have ofOther : ∀ r, r ≠ wr → s0.call r = s.call r := fun r ne => update_of_ne ne _ _
  have ofNew : s0.call wr = new := update_self ..
  have listed : ∀ r, r ≠ wr → (Listed (fifo ++ [wr]) held r ↔ Listed fifo held r) := by
    intro r ne
    simp [Listed,ne]
  refine
    { queued := queued, chain := fun v => ?_, nodup := inv.nodup, apart := fun v r mem => ?_, single := inv.single,
      known := fun r => ?_, mutex := fun r mem => ?_, empty := by simp, owner := fun v r mem => ?_, fine := inv.fine }
  · refine (inv.chain v).frame fun r mem => ?_
    have ne : r ≠ wr := fun same => out (.inr ⟨v,same ▸ mem⟩)
    exact (frame r (inv.apart v r mem)).trans (update_of_ne ne _ _)
  · have ne : r ≠ wr := fun same => out (.inr ⟨v,same ▸ mem⟩)
    simp [ne,inv.apart v r mem]
  · change Known (s0.call r) _ _
    by_cases here : r = wr
    · rw [here,ofNew]
      exact ⟨fun _ => ⟨rfl,rfl⟩,.inl rfl,fun _ absent => absurd (.inl (by simp)) absent,nofun,nofun,nofun,nofun,nofun⟩
    rw [ofOther r here]
    exact (inv.known r).congr (by simp [here]) (listed r here)
  · change some m = some (s0.call r).mtx
    by_cases here : r = wr
    · rw [here,ofNew]
    have old : r ∈ fifo := by simpa [here] using mem
    rw [ofOther r here]
    rcases fifo with _ | ⟨q,rest⟩
    · cases old
    have first := contract q inv.queued.oldestEq
    rw [← inv.mutex r old,inv.mutex q mem_cons_self,first]
  have ne : r ≠ wr := fun same => out (.inr ⟨v,same ▸ mem⟩)
  change (s.waker v).mutex = some (s0.call r).mtx
  rw [ofOther r ne]
  exact inv.owner v r mem

lemma lookInv {expired : Bool}
    (inv : Inv s fifo held) (taken : look s wr expired = some s') : Inv s' fifo held := by
  have known := inv.known wr
  have leave : (s.call wr).woken = true → (s.call wr).pc.waits = true →
      Inv (s.set wr {s.call wr with pc := .leaving .zero}) fifo held := by
    intro woken waits
    have sent := known.woken woken
    refine inv.call rfl ⟨fun here => ?_,known.once,nofun,known.woken,nofun,fun _ => woken,nofun,fun ret received done => ?_⟩
    · rw [(known.waits here).2] at sent
      cases sent
    rw [(known.result ret received done).1] at waits
    cases waits
  simp only [look] at taken
  split at taken
  next pc =>
    split at taken
    next woken => exact some.inj taken ▸ leave woken (pc ▸ rfl)
    obtain ⟨-,same⟩ := ite_none_right_eq_some.mp taken
    rw [← some.inj same]
    refine inv.call rfl ⟨fun here => ⟨rfl,(known.waits here).2⟩,known.once,fun _ => known.sent (pc ▸ rfl),known.woken,nofun,nofun,
      nofun,fun ret received done => ?_⟩
    have idle := (known.result ret received done).1
    rw [pc] at idle
    cases idle
  next pc =>
    obtain ⟨woken,same⟩ := ite_none_right_eq_some.mp taken
    exact some.inj same ▸ leave woken (pc ▸ rfl)
  · cases taken

lemma finishInv {ret : Ret} (inv : Inv s fifo held)
    (pc : (s.call wr).pc = .leaving ret) :
    Inv (s.set wr {s.call wr with pc := .idle, result := some (ret,(s.call wr).woken)}) fifo held := by
  have known := inv.known wr
  refine inv.call rfl ⟨fun here => ?_,known.once,nofun,known.woken,nofun,nofun,nofun,fun ret' received done => ⟨rfl,?_⟩⟩
  · have waits := (known.waits here).1
    rw [pc] at waits
    cases waits
  obtain ⟨rfl,rfl⟩ := Prod.mk.inj (some.inj done)
  rcases ret with _ | _
  · have woken := known.zero pc
    exact .inl ⟨rfl,woken,known.woken woken⟩
  have none := known.etimedout pc
  refine .inr ⟨rfl,Bool.eq_false_iff.mpr fun woken => ?_,none⟩
  rw [known.woken woken] at none
  cases none

lemma deliverInv (inv : Inv s fifo held)
    (sent : (s.call wr).sends ≠ []) : Inv (s.set wr {s.call wr with woken := true}) fifo held := by
  have known := inv.known wr
  have one := known.once.resolve_left sent
  exact inv.call rfl ⟨known.waits,known.once,known.sent,fun _ => one,known.taken,fun _ => rfl,known.etimedout,known.result⟩

lemma unlinkNextSpec {before rest : List R} {p : Option R}
    (queued : Queued f fifo) (parts : fifo = before ++ rest) (here : p = rest.head?) (off : rest.head? ≠ some wr)
    (taken : unlinkNext f wr n p = some (f',found)) :
    (found = false ∧ f' = f ∧ wr ∉ rest) ∨
      (found = true ∧ ∃ pre post, fifo = pre ++ wr::post ∧ pre ≠ [] ∧ Queued f' (pre ++ post) ∧
        ∀ r, r ∉ fifo → f'.next r = f.next r) := by
  induction n generalizing before rest p with
  | zero => cases taken
  | succ n ih => ?_
  rcases rest with _ | ⟨q,rest⟩
  · subst here
    cases taken
    exact .inl ⟨rfl,rfl,by simp⟩
  subst here
  have linked := queued.linked
  rw [parts] at linked
  have behind := linked.after.headEq
  rw [head?_cons,unlinkNext] at taken
  split at taken
  swap
  next miss =>
    rw [behind] at miss
    rcases @ih (before ++ [q]) rest _ (by simpa using parts) behind miss taken with ⟨none,same,out⟩ | some
    · refine .inl ⟨none,same,fun mem => ?_⟩
      rcases mem_cons.mp mem with here | later
      · exact off (here ▸ rfl)
      · exact out later
    · exact .inr some
  rename_i hit
  rw [behind] at hit
  obtain ⟨post,rfl⟩ := head?_eq_some_iff.mp hit
  cases taken
  have nodup := queued.nodup
  rw [parts] at nodup
  have cut := linked.cut nodup
  have after := (@Linked.after R f.next f.oldest wr (before ++ [q]) post (by simpa using linked)).headEq
  refine .inr ⟨rfl,before ++ [q],post,by simpa using parts,by simp,⟨by simpa using cut,?_,?_⟩,fun r away => ?_⟩
  · simp only [update_self,after]
    cases post with
    | nil => simp
    | cons a post => simp [queued.last,parts]
  · have moved : (before ++ [q] ++ wr::post).Nodup := by simpa using nodup
    exact (nodup_cons.mp (nodup_middle.mp moved)).2
  refine update_of_ne (fun same : r = q => away ?_) _ _
  rw [same,parts]
  simp

lemma unlinkSpec (queued : Queued f fifo) (taken : unlink f wr n = some (f',found)) :
    (found = false ∧ f' = f ∧ wr ∉ fifo) ∨ (found = true ∧ ∃ pre post, fifo = pre ++ wr::post ∧ Queued f' (pre ++ post) ∧
        ∀ r, r ∉ fifo → f'.next r = f.next r) := by
  have oldest := queued.oldestEq
  rw [unlink] at taken
  split at taken
  next first =>
    rw [oldest] at first
    obtain ⟨post,rfl⟩ := head?_eq_some_iff.mp first
    cases taken
    exact .inr ⟨rfl,[],post,rfl,queued.drop,fun r _ => rfl⟩
  rename_i other
  rw [oldest] at other
  rcases unlinkNextSpec queued (nil_append fifo).symm oldest other taken with none | ⟨some,pre,post,parts,-,rest⟩
  · exact .inl none
  · exact .inr ⟨some,pre,post,parts,rest⟩

lemma unlinkEnds (queued : Queued f fifo) (enough : fifo.length < n) : (unlink f wr n).isSome = true := by
  have search : ∀ (n : Nat) (rest before : List R), fifo = before ++ rest → rest.length < n →
      (unlinkNext f wr n rest.head?).isSome = true := by
    intro n
    induction n with
    | zero => intro rest before _ short; omega
    | succ n ih => ?_
    intro rest before parts short
    rcases rest with _ | ⟨q,rest⟩
    · rfl
    have linked := queued.linked
    rw [parts] at linked
    rw [head?_cons,unlinkNext]
    split
    · rfl
    rw [linked.after.headEq]
    exact ih rest (before ++ [q]) (by simpa using parts) (by simp at short; omega)
  rw [unlink]
  split
  · rfl
  rw [queued.oldestEq]
  exact search n fifo [] rfl enough

lemma unlinkInv
    (inv : Inv s fifo held) (pc : (s.call wr).pc = .timedOut) (clear : ¬(s.oldest = some wr ∧ s.next wr = none))
    (taken : unlink s.toFifo wr n = some (f',found)) :
    ∃ fifo', Inv ({s with toFifo := f'}.set wr
      {s.call wr with pc := if found then .leaving .etimedout else .taken}) fifo' held := by
  have known := inv.known wr
  rcases unlinkSpec inv.queued taken with ⟨rfl,rfl,out⟩ | ⟨rfl,pre,post,parts,queued,frame⟩
  · refine ⟨fifo,inv.call rfl ⟨fun here => ⟨rfl,(known.waits here).2⟩,known.once,fun _ => known.sent (pc ▸ rfl),known.woken,
      fun _ => out,nofun,nofun,fun ret received done => ?_⟩⟩
    have idle := (known.result ret received done).1
    rw [pc] at idle
    cases idle
  have member : wr ∈ fifo := parts ▸ mem_append_right _ (.head _)
  refine ⟨pre ++ post,inv.leave ?_ (fun v => withoutSame fun mem => inv.apart v wr mem member) rfl rfl
    (known.timedOut (.inl member)) queued (fun v => ?_) inv.nodup (fun v => rfl) (fun _ => rfl) (fun none => ?_) rfl⟩
  · rw [parts]
    exact withoutMiddle (parts ▸ inv.queued.nodup)
  · exact (inv.chain v).frame fun r mem => frame r (inv.apart v r mem)
  obtain ⟨rfl,rfl⟩ := append_eq_nil_iff.mp none
  have alone := parts ▸ inv.queued
  exact absurd ⟨alone.oldestEq,(@Linked.after R _ _ wr [] [] alone.linked).headEq⟩ clear

lemma wakeOneInv (spill : R → Option R) (inv : Inv s fifo held) :
    ∃ s' fifo', wakeOne s spill = some s' ∧ Inv s' fifo' held := by
  have oldest := inv.queued.oldestEq
  rcases fifo with _ | ⟨wr,rest⟩
  · refine ⟨s,[],?_,inv⟩
    rw [wakeOne,oldest]
    rfl
  have mutex := inv.mutex wr (.head _)
  have fresh := (nodup_cons.mp inv.queued.nodup).1
  have behind := (@Linked.after R _ _ wr [] rest inv.queued.linked).headEq
  have taken : wakeOne s spill = some {sendLock {s with toFifo := s.drop wr} (s.call wr).mtx wr spill with
      userMutex := if s.next wr = none then none else some (s.call wr).mtx} := by
    rw [wakeOne,oldest,mutex]
    rfl
  refine ⟨_,rest,taken,?_⟩
  refine inv.leave (withoutMiddle (@id ([] ++ wr::rest).Nodup inv.queued.nodup))
    (fun v => withoutSame fun mem => inv.apart v wr mem (.head _)) rfl rfl
    ((inv.known wr).send (.inl (.head _)) rfl) (inv.queued.drop.write fresh _) (fun v => ?_) inv.nodup
    (fun v => rfl) (fun more => ?_) (fun gone => ?_) rfl
  · refine (inv.chain v).frame fun r mem => update_of_ne (fun same : r = wr => ?_) _ _
    exact inv.apart v r mem (same ▸ (.head _))
  · change (if s.next wr = none then none else some _) = s.userMutex
    rw [behind,mutex]
    cases rest with
    | nil => exact absurd rfl more
    | cons a rest => simp
  change (if s.next wr = none then none else some _) = none
  rw [behind,gone]
  rfl

section
variable (inv : Inv s fifo held)
include inv

lemma wakeAllInv (idle : s.waker v = .idle) : Inv (wakeAll s v) [] (update held v fifo) := by
  have none : held v = [] := by
    have chain := inv.chain v
    rwa [idle] at chain
  have mine : ∀ w r, r ∈ update held v fifo w ↔ (w = v ∧ r ∈ fifo) ∨ (w ≠ v ∧ r ∈ held w) := by
    intro w r
    by_cases here : w = v
    · simp [here]
    · simp [here]
  have listed : ∀ r, Listed [] (update held v fifo) r ↔ Listed fifo held r := by
    intro r
    simp only [Listed,mine,not_mem_nil,false_or]
    constructor
    · rintro ⟨w,⟨-,mem⟩ | ⟨-,mem⟩⟩
      · exact .inl mem
      · exact .inr ⟨w,mem⟩
    rintro (mem | ⟨w,mem⟩)
    · exact ⟨v,.inl ⟨rfl,mem⟩⟩
    refine ⟨w,.inr ⟨fun same => ?_,mem⟩⟩
    rw [same,none] at mem
    cases mem
  refine
    { queued := .empty rfl rfl, chain := fun w => ?_, nodup := fun w => ?_, apart := fun w r _ => by simp,
      single := fun w x r one two => ?_, known := fun r => ?_, mutex := nofun, empty := fun _ => rfl,
      owner := fun w r mem => ?_, fine := inv.fine }
  · change (update s.waker v _ w).Holds s.next _
    by_cases here : w = v
    · rw [here,update_self,update_self]
      exact inv.queued.linked
    rw [update_of_ne here,update_of_ne here]
    exact inv.chain w
  · by_cases here : w = v
    · rw [here,update_self]
      exact inv.queued.nodup
    · rw [update_of_ne here]
      exact inv.nodup w
  · rcases (mine w r).mp one with ⟨rfl,left⟩ | ⟨ne,left⟩
    · rcases (mine x r).mp two with ⟨rfl,-⟩ | ⟨-,right⟩
      · rfl
      exact absurd left (inv.apart x r right)
    · rcases (mine x r).mp two with ⟨rfl,right⟩ | ⟨-,right⟩
      · exact absurd right (inv.apart w r left)
      exact inv.single w x r left right
  · have known := inv.known r
    exact { known with
      waits := fun here => known.waits ((listed r).mp here), sent := fun waits out => known.sent waits fun here => out ((listed r).mpr here),
      taken := nofun }
  change (update s.waker v _ w).mutex = some (s.call r).mtx
  rcases (mine w r).mp mem with ⟨rfl,left⟩ | ⟨ne,left⟩
  · rw [update_self]
    exact inv.mutex r left
  rw [update_of_ne ne]
  exact inv.owner w r left

lemma Inv.move (holds : w.Holds s.next (held v)) (mutex : held v ≠ [] → w.mutex = (s.waker v).mutex) :
    Inv (s.goto v w) fifo held := by
  refine { inv with chain := fun x => ?_, owner := fun x r mem => ?_ }
  · change (update s.waker v w x).Holds s.next (held x)
    by_cases here : x = v
    · rw [here,update_self]
      exact holds
    rw [update_of_ne here]
    exact inv.chain x
  change (update s.waker v w x).mutex = _
  by_cases here : x = v
  · subst here
    rw [update_self,mutex (ne_nil_of_mem mem)]
    exact inv.owner x r mem
  rw [update_of_ne here]
  exact inv.owner x r mem

lemma Inv.pass (parts : held v = pre ++ wr::post)
    (calls : s'.call = update s.call wr {s.call wr with sends := m::(s.call wr).sends})
    (own : m = (s.call wr).mtx) (holds : w.Holds s'.next (pre ++ post)) (same : w.mutex = (s.waker v).mutex)
    (wakers : s'.waker = update s.waker v w) (frame : ∀ r, r ∉ held v → s'.next r = s.next r)
    (oldest : s'.oldest = s.oldest) (newest : s'.newest = s.newest) (saved : s'.userMutex = s.userMutex)
    (fine : s'.failed = s.failed) : Inv s' fifo (update held v (pre ++ post)) := by
  have member : wr ∈ held v := parts ▸ mem_append_right _ (.head _)
  have nodup := inv.nodup v
  rw [parts] at nodup
  have apart : ∀ x, x ≠ v → ∀ r ∈ held x, r ∉ held v := fun x ne r mem here => ne (inv.single x v r mem here)
  have queued : Queued s'.toFifo fifo := by
    refine ⟨?_,newest.trans inv.queued.last,inv.queued.nodup⟩
    rw [oldest]
    exact inv.queued.linked.frame fun r mem => frame r fun here => inv.apart v r here mem
  refine inv.leave (withoutSame (inv.apart v wr member)) (fun x => ?_) calls rfl ((inv.known wr).send (.inr ⟨v,member⟩) own)
    queued (fun x => ?_) (fun x => ?_) (fun x => ?_) (fun _ => saved) (fun none => saved.trans (inv.empty none)) fine
  · by_cases here : x = v
    · rw [here,update_self,parts]
      exact withoutMiddle nodup
    · rw [update_of_ne here]
      exact withoutSame fun mem => apart x here wr mem member
  · rw [wakers]
    by_cases here : x = v
    · rw [here,update_self,update_self]
      exact holds
    rw [update_of_ne here,update_of_ne here]
    exact (inv.chain x).frame fun r mem => frame r (apart x here r mem)
  · by_cases here : x = v
    · rw [here,update_self]
      exact (nodup_cons.mp (nodup_middle.mp nodup)).2
    · rw [update_of_ne here]
      exact inv.nodup x
  rw [wakers]
  by_cases here : x = v
  · rw [here,update_self,same]
  · rw [update_of_ne here]

lemma heldAsleep (mem : wr ∈ held v) : (s.call wr).woken = false := by
  refine Bool.eq_false_iff.mpr fun woken => ?_
  have none := ((inv.known wr).waits (.inr ⟨v,mem⟩)).2
  rw [(inv.known wr).woken woken] at none
  cases none

end

lemma outerInv {wr : Option R} {m : Option M}
    (sameCpu : Bool) (spill : R → Option R) (inv : Inv s fifo held) (here : s.waker v = .outer wr m) :
    ∃ s' held', proceed s v sameCpu spill = some s' ∧ Inv s' fifo held' := by
  have linked := inv.chain v
  rw [here] at linked
  have linked := linked
  rcases wr with _ | wr
  · have none := linked.headNone
    refine ⟨s.goto v .idle,held,?_,inv.move none fun some => absurd none some⟩
    rw [proceed,here]
  obtain ⟨rest,parts,behind⟩ := linked.headSome
  have member : wr ∈ held v := parts ▸ (.head _)
  have mutex := inv.owner v wr member
  rw [here] at mutex
  have mutex : m = some (s.call wr).mtx := mutex
  have nodup := inv.nodup v
  rw [parts] at nodup
  have fresh := (nodup_cons.mp nodup).1
  have taken : proceed s v sameCpu spill = some ((sendLock s (s.call wr).mtx wr spill).goto v
      (.inner m (s.next wr) none (s.next wr))) := by
    rw [proceed,here]
    simp only [heldAsleep inv member,Bool.false_eq_true,if_false]
    rw [mutex]
    rfl
  refine ⟨_,_,taken,inv.pass (parts.trans (nil_append _).symm) rfl rfl ?_ ?_ rfl (fun r away => ?_) rfl rfl rfl rfl⟩
  · exact ⟨[],rest,rfl,behind.write fresh _,behind.headEq,rfl⟩
  · rw [here]
    rfl
  · exact update_of_ne (fun same : r = wr => away (same ▸ member)) _ _

lemma innerInv {nextWr prevr r : Option R} {m : Option M}
    (sameCpu : Bool) (spill : R → Option R) (inv : Inv s fifo held) (here : s.waker v = .inner m nextWr prevr r) :
    ∃ s' held', proceed s v sameCpu spill = some s' ∧ Inv s' fifo held' := by
  have holds := inv.chain v
  rw [here] at holds
  obtain ⟨kept,rest,parts,linked,first,last⟩ := holds
  have keeps : (s.waker v).mutex = m := by
    rw [here]
    rfl
  rcases rest with _ | ⟨wr,rest⟩
  · subst first
    refine ⟨s.goto v (.outer nextWr m),held,?_,inv.move linked fun _ => keeps.symm⟩
    rw [proceed,here]
    rfl
  subst first
  have member : wr ∈ held v := parts ▸ mem_append_right _ (.head _)
  have asleep := heldAsleep inv member
  have nodup := inv.nodup v
  rw [parts] at nodup linked
  have fresh := (nodup_cons.mp (nodup_middle.mp nodup)).1
  have behind := linked.after.headEq
  rcases sameCpu with _ | _
  · refine ⟨s.goto v (.inner m nextWr (some wr) (s.next wr)),held,?_,inv.move ?_ fun _ => keeps.symm⟩
    · rw [proceed,here]
      simp only [head?_cons,asleep,Bool.false_eq_true,if_false]
    refine ⟨kept ++ [wr],rest,?_,?_,behind,?_⟩
    · rw [parts]
      simp
    · rw [parts]
      exact linked
    · simp
  have mutex : m = some (s.call wr).mtx := keeps ▸ inv.owner v wr member
  -- next_wr is r itself exactly if the loop has kept nothing
  rcases eq_nil_or_concat kept with rfl | ⟨pre,p,rfl⟩
  · have head : nextWr = some wr := linked.headEq
    have taken : proceed s v true spill = some ((sendLock s (s.call wr).mtx wr spill).goto v
        (.inner m (s.next wr) prevr (s.next wr))) := by
      rw [proceed,here]
      simp only [head?_cons,asleep,Bool.false_eq_true,if_false,if_true,head]
      rw [mutex]
      rfl
    refine ⟨_,_,taken,inv.pass parts rfl rfl ?_ ?_ rfl (fun r away => ?_) rfl rfl rfl rfl⟩
    · exact ⟨[],rest,rfl,linked.after.write fresh _,behind,last⟩
    · exact keeps.symm
    · exact update_of_ne (fun same : r = wr => away (same ▸ member)) _ _
  rw [concat_eq_append] at parts nodup linked fresh last
  have head : nextWr ≠ some wr := by
    rw [linked.headEq]
    intro same
    cases pre with
    | nil | cons a pre => exact fresh (by simp [some.inj same])
  have before : prevr = some p := by simpa using last
  have mine : p ∈ held v := parts ▸ mem_append_left _ (mem_append_right _ (.head _))
  have taken : proceed s v true spill = some ({sendLock s (s.call wr).mtx wr spill with
        next := update (update s.next wr (spill wr)) p (s.next wr)}.goto v
          (.inner m nextWr prevr (s.next wr))) := by
    rw [proceed,here]
    simp only [head?_cons,asleep,Bool.false_eq_true,if_false,if_true,head]
    rw [mutex,before]
    rfl
  refine ⟨_,_,taken,inv.pass parts rfl rfl ?_ ?_ rfl (fun r away => ?_) rfl rfl rfl rfl⟩
  · refine ⟨pre ++ [p],rest,rfl,?_,behind,by simpa using before⟩
    rw [append_assoc] at linked nodup fresh ⊢
    refine (linked.cut nodup).frame fun a mem => ?_
    change update (update s.next wr (spill wr)) p (s.next wr) a = _
    by_cases same : a = p
    · rw [same,update_self,update_self]
    have ne : a ≠ wr := fun hit => fresh (hit ▸ mem)
    rw [update_of_ne same,update_of_ne same,update_of_ne ne]
  · exact keeps.symm
  have notP : r ≠ p := fun same => away (same ▸ mine)
  have notWr : r ≠ wr := fun same => away (same ▸ member)
  exact (update_of_ne notP _ _).trans (update_of_ne notWr _ _)

lemma proceedInv {fifo : List R} {held : V → List R} {v : V} (sameCpu : Bool) (spill : R → Option R)
    (inv : Inv s fifo held) : ∃ s' held', proceed s v sameCpu spill = some s' ∧ Inv s' fifo held' := by
  cases here : s.waker v with
  | idle =>
    refine ⟨s,held,?_,inv⟩
    rw [proceed,here]
  | outer wr m => exact outerInv sameCpu spill inv here
  | inner m nextWr prevr r => exact innerInv sameCpu spill inv here

lemma stepInv (inv : Inv s fifo held)
    (allowed : Allowed s act) (clear : Clear s act) (taken : step s act = some s') : ∃ fifo' held', Inv s' fifo' held' := by
  rw [step,inv.fine,if_neg Bool.false_ne_true] at taken
  cases act with
  | wait wr m tmr => ?_
  | look wr expired => exact ⟨_,_,lookInv inv taken⟩
  | unlink wr bound =>
    obtain ⟨pc,taken⟩ := ite_none_right_eq_some.mp taken
    obtain ⟨⟨f',found⟩,searched,same⟩ := map_eq_some_iff.mp taken
    obtain ⟨fifo',inv'⟩ := unlinkInv inv pc clear searched
    exact ⟨fifo',held,same ▸ inv'⟩
  | finish wr =>
    rw [perform] at taken
    split at taken
    next ret pc => exact ⟨_,_,some.inj taken ▸ finishInv inv pc⟩
    · cases taken
  | deliver wr =>
    obtain ⟨⟨sent,-⟩,taken⟩ := ite_none_right_eq_some.mp taken
    exact ⟨_,_,some.inj taken ▸ deliverInv inv sent⟩
  | wakeOne spill =>
    obtain ⟨next,fifo',woke,inv'⟩ := wakeOneInv spill inv
    rw [perform,woke] at taken
    have same : next = s' := some.inj taken
    exact ⟨_,_,same ▸ inv'⟩
  | wakeAll v =>
    rw [perform] at taken
    split at taken
    next idle => exact ⟨_,_,some.inj taken ▸ wakeAllInv inv idle⟩
    · cases taken
  | proceed v sameCpu spill =>
    obtain ⟨next,held',went,inv'⟩ := @proceedInv R V M _ _ _ s fifo held v sameCpu spill inv
    rw [perform,went] at taken
    have same : next = s' := some.inj taken
    exact ⟨_,_,same ▸ inv'⟩
  obtain ⟨idle,taken⟩ := ite_none_right_eq_some.mp taken
  obtain ⟨next,waited,inv'⟩ := @waitInv R V M _ _ _ s fifo held wr m tmr inv idle allowed
  rw [waited] at taken
  have same : next = s' := some.inj taken
  exact ⟨_,_,same ▸ inv'⟩

lemma reachableInv (reach : Reachable s) : ∃ fifo held, Inv s fifo held := by
  refine @invariant _ _ _ _ _ (fun s : State R V M => ∃ fifo held, Inv s fifo held) ?_ ?_ s reach
  swap
  · rintro s act s' ⟨fifo,held,inv⟩ allowed taken
    exact stepInv inv allowed.1 allowed.2 taken
  intro s first
  obtain ⟨oldest,newest,saved,fine,wakers,calls⟩ := first
  refine ⟨[],fun _ => [],.empty oldest newest,fun v => ?_,fun _ => nodup_nil,nofun,nofun,fun wr => ?_,nofun,
    fun _ => saved,nofun,fine⟩
  · rw [wakers v]
    rfl
  obtain ⟨pc,woken,none,result⟩ := calls wr
  refine ⟨?_,.inl none,?_,?_,?_,?_,?_,?_⟩ <;> simp [pc,woken,result,Listed,Pc.waits]

structure Good (s : State R V M) : Prop where
  fifo : ∃ l, Queued s.toFifo l ∧ ∀ wr ∈ l, (s.call wr).pc.waits = true ∧ (s.call wr).sends = []
  mutex : s.oldest = none → s.userMutex = none
  fine : s.failed = false
  once : ∀ wr, (s.call wr).sends = [] ∨ (s.call wr).sends = [(s.call wr).mtx]
  woken : ∀ wr received, (s.call wr).result = some (.zero,received) → received = true ∧ (s.call wr).sends = [(s.call wr).mtx]
  timedOut : ∀ wr received, (s.call wr).result = some (.etimedout,received) → received = false ∧ (s.call wr).sends = []

lemma Inv.good (inv : Inv s fifo held) : Good s where
  fifo := ⟨fifo,inv.queued,fun wr mem => (inv.known wr).waits (.inl mem)⟩
  mutex none := inv.empty (inv.queued.linked.noneIff.mp none)
  fine := inv.fine
  once wr := (inv.known wr).once
  woken wr received done := by
    rcases ((inv.known wr).result _ _ done).2 with ⟨-,yes,sends⟩ | ⟨no,-⟩
    · exact ⟨yes,sends⟩
    · cases no
  timedOut wr received done := by
    rcases ((inv.known wr).result _ _ done).2 with ⟨no,-⟩ | ⟨-,none,sends⟩
    · cases no
    exact ⟨none,sends⟩

lemma remembered (inv : Inv s fifo held) (unclear : ¬Clear s act) (taken : step s act = some s') : ¬Good s' := by
  cases act with
  | unlink wr bound => ?_
  | _ => exact absurd trivial unclear
  obtain ⟨first,alone⟩ := not_not.mp unclear
  rw [step,inv.fine,if_neg Bool.false_ne_true] at taken
  obtain ⟨-,taken⟩ := ite_none_right_eq_some.mp taken
  rw [unlink,if_pos first] at taken
  have oldest := inv.queued.oldestEq
  rw [first] at oldest
  have mutex := inv.mutex wr (mem_of_mem_head? oldest.symm)
  intro good
  rw [← some.inj taken] at good
  cases mutex.symm.trans (good.mutex alone)

theorem waitersLeave {s : State R V M} (reach : Reachable s) :
    Good s ∧ (∀ act s', Allowed s act → step s act = some s' → (Good s' ↔ Clear s act)) ∧
      (∀ wr m tmr, (s.call wr).pc = .idle → s.oldest = none → (wait s wr m tmr).isSome = true) ∧
      ∀ wr, ∃ bound, ∀ n, bound < n → (unlink s.toFifo wr n).isSome = true := by
  obtain ⟨fifo,held,inv⟩ := reachableInv reach
  refine ⟨inv.good,fun act s' allowed taken => ⟨fun good => ?_,fun clear => ?_⟩,fun wr m tmr idle none => ?_,
    fun wr => ⟨fifo.length,fun n enough => unlinkEnds inv.queued enough⟩⟩
  · by_contra unclear
    exact remembered inv unclear taken good
  · obtain ⟨fifo',held',inv'⟩ := stepInv inv allowed clear taken
    exact inv'.good
  obtain ⟨s',waited,-⟩ := @waitInv R V M _ _ _ s fifo held wr m tmr inv idle (by simp [none])
  rw [waited]
  rfl

end

def initial : State Nat Nat Nat :=
  ⟨⟨none,none,fun _ => none⟩,none,fun _ => ⟨.idle,0,false,false,[],none⟩,fun _ => .idle,false⟩

def wakeRun : List (Act Nat Nat Nat) :=
  [.wait 0 7 true,.wait 1 7 false,.look 0 true,.unlink 0 3,.finish 0,.wakeAll 0,.proceed 0 true fun _ => none,
    .deliver 1,.look 1 false,.finish 1]

lemma wakeReachable : Reachable (final step (fun s act => Allowed s act ∧ Clear s act) initial wakeRun) :=
  reachFinal wakeRun ⟨rfl,rfl,rfl,rfl,fun _ => rfl,fun _ => ⟨rfl,rfl,rfl,rfl⟩⟩ rfl

theorem waitersLeaveWoken :
    let s := final step (fun s act => Allowed s act ∧ Clear s act) initial wakeRun
    (s.call 0).result = some (.etimedout,false) ∧ (s.call 1).result = some (.zero,true) ∧ (s.call 0).sends = [] ∧
      (s.call 1).sends = [(s.call 1).mtx] := by
  have good := (waitersLeave wakeReachable).1
  exact ⟨rfl,rfl,(good.timedOut 0 false rfl).2,(good.woken 1 true rfl).2⟩

def otherMutexRun : List (Act Nat Nat Nat) := [.wait 0 7 true,.look 0 true,.unlink 0 1,.finish 0,.wait 1 8 false]

theorem otherMutexFails :
    let s := final step Allowed initial otherMutexRun
    Reach step Allowed Start s ∧ (s.call 0).result = some (.etimedout,false) ∧ s.failed = true :=
  ⟨reachFinal otherMutexRun ⟨rfl,rfl,rfl,rfl,fun _ => rfl,fun _ => ⟨rfl,rfl,rfl,rfl⟩⟩ rfl,rfl,rfl⟩

end OsvKernel.Condvar
