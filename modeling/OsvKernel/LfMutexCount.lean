import OsvKernel.LfMutexSteps

/-! What count counts, with send_lock_unless_already_waiting among the calls. Its caller holds the mutex, so nothing leaves
the queue that it looks through; from there it goes on as send_lock does and finds no handoff. -/
namespace OsvKernel.LfMutex
open List

section
variable {T : Type} [DecidableEq T]

inductive Call (T : Type) where
  | act (a : Act T)
  | sendLockUnlessAlreadyWaiting (t wr : T)

def call (s : State T) : Call T → Option (State T)
  | .act a => step s a
  | .sendLockUnlessAlreadyWaiting t wr =>
    if outside (s.pc t) = some true ∧ s.owner = some t then
      if wr ∈ s.pushlist ++ s.poplist then some {s with count := s.count + 1} else step s (.sendLock t wr)
    else none

def accepts (s : State T) : Call T → Bool
  | .act _ => true
  | .sendLockUnlessAlreadyWaiting _ wr => wr ∉ s.pushlist ++ s.poplist

/-- try_lock that took a handoff has the mutex once it has counted itself. -/
def Pc.counted (woken : Bool) : Pc T → Nat
  | .tryCount => 0
  | pc => (pc.holds woken).toNat

def Pc.requests (woken : Bool) : Pc T → Nat
  | .lockOwner _ => 1
  | .lockUncount => 1
  | .lockWait => (!woken).toNat
  | .sent => (!woken).toNat
  | pc => match pc.caller with
    | some .lock => (!woken).toNat
    | _ => 0

variable [Fintype T]

def holders (s : State T) : Nat := total fun t => (s.pc t).counted (s.woken t)
def requests (s : State T) : Nat := total fun t => (s.pc t).requests (s.woken t)

omit [DecidableEq T] [Fintype T] in
lemma weightParts (p : Pc T) (woken : Bool) : p.weight = p.counted woken + p.requests woken := by
  cases caller : p.caller with
  | some c => cases p <;> cases caller <;> cases c <;> cases woken <;> rfl
  | none => cases p <;> first | cases woken <;> rfl | exact Nat.add_comm .. | cases caller

lemma countedLe (p : Pc T) (woken : Bool) : p.counted woken ≤ p.carries woken := by
  have le : (p.holds woken).toNat ≤ p.carries woken := by
    cases holds : p.holds woken with
    | false => exact Nat.zero_le _
    | true => exact holdsCarries holds
  cases p <;> first | exact le | exact Nat.zero_le _

theorem countShares {s : State T} (reach : Runs.Reach call (accepts · ·) (· = initial T) s) :
    s.count = holders s + requests s ∧ holders s ≤ 1 := by
  have plain : Reachable s := by
    induction reach with
    | init first => exact .init first
    | @next s t c before allowed taken ih =>
      rcases c with a | ⟨u,wr⟩
      · exact ih.next trivial taken
      obtain ⟨-,taken⟩ := Option.ite_none_right_eq_some.mp taken
      exact ih.next trivial ((if_neg (of_decide_eq_true allowed)).symm.trans taken)
  have tokens := (reachableInv plain).tokens
  constructor
  · rw [tokens.count,totalSame fun t => weightParts (s.pc t) (s.woken t)]
    exact congrArg Int.ofNat Finset.sum_add_distrib
  have le : holders s ≤ _ := totalLe fun t => countedLe (s.pc t) (s.woken t)
  have token := tokens.token
  omega

end

def sentRun : List (Call (Fin 2)) := [.act (.lock 0),.act (.run 0),.act (.park 1),.sendLockUnlessAlreadyWaiting 0 1]

theorem countSharesSent : ∃ s : State (Fin 2), s.count = 2 ∧ s.count = holders s + requests s :=
  ⟨_,rfl,(countShares (Runs.reachFinal sentRun rfl rfl)).1⟩

/-- The second thread queues in lock, is found there by send_lock_unless_already_waiting, and both unlock. -/
def refusedRun : List (Call (Fin 2)) :=
  [.lock 0,.run 0,.lock 1,.run 1,.run 1,.run 1,.run 1].map .act ++ .sendLockUnlessAlreadyWaiting 0 1::
    ([.unlock 0,.run 0,.run 0,.run 0,.run 0,.run 0,.run 0,.run 0,.run 0,.run 1,.run 1].map .act ++
      [.unlock 1,.run 1,.run 1,.run 1,.run 1,.run 1,.run 1,.run 1,.run 1].map .act)

theorem countLeft : ∃ s : State (Fin 2), Runs.Reach call (fun _ _ => True) (· = initial (Fin 2)) s ∧
    s.count = 1 ∧ holders s = 0 ∧ requests s = 0 :=
  ⟨_,Runs.reachPlayed refusedRun rfl (fun _ _ _ => trivial) rfl,by decide⟩

end OsvKernel.LfMutex
