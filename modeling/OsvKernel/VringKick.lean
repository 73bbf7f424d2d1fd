import OsvKernel.Runs

/-! kick and what add_buf leaves to it, for a device with event indices. told is the avail index at the last
notification, since counts the buffers added after it, recent those added after the last call of kick. -/
namespace OsvKernel.VringKick
open Option Runs

structure State where
  (availIdx availEvent addedSinceKick : BitVec 16)
  told : BitVec 16
  (since recent : Nat)
  deriving DecidableEq

inductive Outcome
  | posted | full | noMemory

inductive Op
  | addBuf (outcome : Outcome)
  | kick
  | setAvailEvent (event : BitVec 16)

def kicked (s : State) : Bool := s.availIdx - s.availEvent - 1 < s.addedSinceKick

/-- Whether the device was notified. -/
def kick (s : State) : Bool × State :=
  if kicked s || s.addedSinceKick.toNat ≥ (2^16 - 1) / 2 then
    (true,{ s with addedSinceKick := 0, told := s.availIdx, since := 0, recent := 0 })
  else (false,{ s with recent := 0 })

def addBuf (s : State) : Outcome → State
  | .posted =>
    { s with
      addedSinceKick := s.addedSinceKick + 1, availIdx := s.availIdx + 1, since := s.since + 1,
      recent := s.recent + 1 }
  | .full => (kick s).2
  | .noMemory => s

def step (s : State) : Op → Option State
  | .addBuf outcome => some (addBuf s outcome)
  | .kick => some (kick s).2
  | .setAvailEvent event => some { s with availEvent := event }

def Start (s : State) : Prop := s.availIdx = 0 ∧ s.addedSinceKick = 0 ∧ s.told = 0 ∧ s.since = 0 ∧ s.recent = 0

def Bounded (s : State) : Op → Prop
  | .addBuf .posted => s.recent < 2^15
  | _ => True

structure Inv (s : State) : Prop where
  idx : s.availIdx = s.told + s.addedSinceKick
  added : s.addedSinceKick.toNat = s.since
  since : s.since < (2^16 - 1) / 2 + s.recent
  recent : s.recent ≤ 2^15

variable {s t : State}

lemma Inv.kick (inv : Inv s) : Inv (kick s).2 := by
  unfold VringKick.kick
  split
  · exact ⟨by simp,rfl,by simp,by simp⟩
  next quiet =>
  refine ⟨inv.idx,inv.added,?_,by simp⟩
  have few : ¬s.addedSinceKick.toNat ≥ (2^16 - 1) / 2 := fun many => quiet (by rw [decide_eq_true many,Bool.or_true])
  rw [inv.added] at few
  dsimp only
  omega

lemma Inv.step {o : Op} (inv : Inv s) (allowed : Bounded s o) (taken : step s o = some t) : Inv t := by
  cases o with
  | kick => exact some.inj taken ▸ inv.kick
  | setAvailEvent event => exact some.inj taken ▸ ⟨inv.idx,inv.added,inv.since,inv.recent⟩
  | addBuf outcome => ?_
  cases taken
  cases outcome with
  | full => exact inv.kick
  | noMemory => exact inv
  | posted => ?_
  -- a suppressed kick leaves the counter below half its range, so 2^15 more buffers do not wrap it
  have since := inv.since
  have added := inv.added
  have few : s.recent < 2^15 := allowed
  refine ⟨?_,?_,?_,few⟩ <;> dsimp only [addBuf]
  · rw [inv.idx,BitVec.add_assoc]
  · bv_omega
  · omega

/-- The buffer after the first i took the avail index from told + i to told + i + 1. -/
def Passed (s : State) : Prop := ∃ i < s.since, s.told + BitVec.ofNat 16 i = s.availEvent

theorem kickNotifies (reach : Reach step Bounded Start s) (passed : Passed s) : (kick s).1 = true := by
  have inv : Inv s := by
    refine invariant ?_ (fun _ _ _ inv => inv.step) reach
    rintro s ⟨idx,added,told,since,recent⟩
    exact ⟨by simp [idx,added,told],by simp [added,since],by simp [since,recent],by simp [recent]⟩
  obtain ⟨i,before,event⟩ := passed
  have small := inv.since
  have recent := inv.recent
  have added := inv.added
  have yes : kicked s = true := by
    rw [kicked,decide_eq_true_iff,BitVec.lt_def,inv.idx,← event]
    bv_omega
  rw [kick,yes]
  rfl

def fresh : State := ⟨0,0,0,0,0,0⟩

theorem kickNotifiesFirst : (kick (addBuf fresh .posted)).1 = true :=
  kickNotifies (.next (.init (s := fresh) ⟨rfl,rfl,rfl,rfl,rfl⟩) (o := .addBuf .posted) (Nat.two_pow_pos 15) rfl)
    ⟨0,by decide⟩

end OsvKernel.VringKick
