import OsvKernel.Runs
import OsvKernel.Threads
import OsvKernel.Words

/-! _migration_lock_counter and _pinned of one thread t (core/sched.cc, include/osv/sched.hh)
under its own calls and the helpers that pin(t, cpu) and unpin() start for it. A helper runs
on the CPU of t with interrupts off, so what it does up to DROP_LOCK is one step. -/
namespace OsvKernel.MigrationLock
open Function Option Runs Words

/-- Where t is in pin(cpu). -/
inductive Pc (C : Type) where
  | idle
  | test (target : C)
  | count (target : C)
  | mark (target : C)
  | move (target : C)

/-- disables counts the calls of migrate_disable() that are outstanding, including that of
pin(cpu) until _pinned is set. retry: the target of a helper that sleeps in its loop. -/
structure State (H C : Type) where
  counter : Int
  pinned : Bool
  disables : Nat
  cpu : C
  pc : Pc C
  retry : H → Option C

inductive Act (H C : Type) where
  | disable
  | enable
  | pin (target : C)
  | run
  | unpin
  | unpinOther
  | pinOther (h : H) (target : C) (moved : Bool)
  | resume (h : H) (moved : Bool)

section
variable {H C : Type} [DecidableEq H] [DecidableEq C]

def retryLoop (s : State H C) (h : H) (target : C) (moved : Bool) : State H C :=
  if s.counter ≠ 0 then {s with counter := int32 (s.counter + 1), retry := update s.retry h (some target)}
  else
    {s with
      counter := 1
      pinned := true
      cpu := if moved then target else s.cpu
      retry := update s.retry h none}

def pinOther (s : State H C) (h : H) (target : C) (moved : Bool) : State H C :=
  let s := if s.pinned then {s with counter := int32 (s.counter - 1)} else s
  if s.cpu = target then {s with counter := int32 (s.counter + 1), pinned := true} else retryLoop s h target moved

def resume (s : State H C) (h : H) (target : C) (moved : Bool) : State H C :=
  retryLoop {s with counter := int32 (s.counter - 1)} h target moved

def unpin (s : State H C) : State H C :=
  if s.pinned then {s with pinned := false, counter := int32 (s.counter - 1)} else s

def runPin (s : State H C) : Option (State H C) :=
  match s.pc with
  | .idle => none
  | .test target => some {s with pc := if s.pinned then .move target else .count target}
  | .count target => some {s with counter := int32 (s.counter + 1), disables := s.disables + 1, pc := .mark target}
  | .mark target => some {s with pinned := true, disables := s.disables - 1, pc := .move target}
  | .move target => some {s with cpu := target, pc := .idle}

def State.isIdle (s : State H C) : Bool :=
  match s.pc with
  | .idle => true
  | _ => false

def State.isMarking (s : State H C) : Bool :=
  match s.pc with
  | .mark _ => true
  | _ => false

def State.isCounting (s : State H C) : Bool :=
  match s.pc with
  | .count _ => true
  | _ => false

def step (s : State H C) : Act H C → Option (State H C)
  | .disable => if s.isIdle then some {s with counter := int32 (s.counter + 1), disables := s.disables + 1} else none
  | .enable =>
    if s.isIdle ∧ 0 < s.disables then some {s with counter := int32 (s.counter - 1), disables := s.disables - 1} else none
  | .pin target => if s.isIdle then some {s with pc := .test target} else none
  | .run => runPin s
  | .unpin => if s.isIdle then some (unpin s) else none
  | .unpinOther => some (unpin s)
  | .pinOther h target moved => if s.retry h = none then some (pinOther s h target moved) else none
  | .resume h moved => (s.retry h).map fun target => resume s h target moved

def Start (s : State H C) : Prop :=
  s.counter = (if s.pinned then 1 else 0) ∧ s.disables = 0 ∧ s.isIdle = true ∧ ∀ h, s.retry h = none

/-- A helper does not meet another one in the loop, nor a thread that is both pinned to another
CPU and in migrate_disable(), the thread is not pinned by a helper, nor has one waiting for
it, when it pins itself, and what is counted stays an int. -/
def Clear (s : State H C) : Act H C → Prop
  | .pinOther _ target _ => (∀ h, s.retry h = none) ∧ ¬(s.pinned = true ∧ s.cpu ≠ target ∧ s.disables ≠ 0) ∧
    (s.pinned = false → s.counter + 1 < 2^31)
  | .run => (s.isMarking = true → s.pinned = false ∧ ∀ h, s.retry h = none) ∧ (s.isCounting = true → s.counter + 1 < 2^31)
  | .disable => s.counter + 1 < 2^31
  | _ => True

variable [Fintype H]

def Reachable (s : State H C) : Prop := Runs.Reach step Clear Start s
def share (b : Bool) : Nat := if b then 1 else 0
def holding (s : State H C) : Nat := total fun h => share (s.retry h).isSome
def released (s : State H C) : State H C := {s with counter := s.counter - s.disables, disables := 0}

structure Good (s : State H C) : Prop where
  balanced : s.counter = s.disables + share s.pinned + holding s
  natural : 0 ≤ s.counter ∧ s.counter < 2^31
  exits : ∀ h target moved, s.retry h = some target → (resume (released s) h target moved).retry h = none

section
variable {s : State H C} {h : H} {target : C}

lemma holdingMove {s' : State H C} {x : Option C} (same : s'.retry = update s.retry h x) :
    holding s' + share (s.retry h).isSome = holding s + share x.isSome := by
  have moved := @totalMove H _ (fun u => share (s.retry u).isSome) (fun u => share (s'.retry u).isSome) h _ fun u other => by
    rw [same,update_of_ne other]
  rwa [same,update_self,← same] at moved

lemma holdingEnter (out : s.retry h = none) {s' : State H C} (same : s'.retry = update s.retry h (some target)) :
    holding s' = holding s + 1 := by simpa [out,share] using holdingMove same

lemma holdingLeave (inside : s.retry h = some target) {s' : State H C} (same : s'.retry = update s.retry h none) :
    holding s' + 1 = holding s := by simpa [inside,share] using holdingMove same

lemma holdingZero : holding s = 0 ↔ ∀ h, s.retry h = none := by
  constructor
  swap
  · intro none
    exact totalZero fun h => by rw [none h]; rfl
  intro zero h
  have le := leTotal (fun u => share (s.retry u).isSome) h
  rcases inside : s.retry h with _ | target
  · rfl
  simp only [inside] at le
  change holding s = 0 at zero
  have one : share (some target).isSome = 1 := rfl
  have sum : total (fun u => share (s.retry u).isSome) = 0 := zero
  omega

lemma holdingPos (inside : s.retry h = some target) : 0 < holding s := by
  refine Nat.pos_of_ne_zero fun zero => ?_
  cases inside.symm.trans (holdingZero.mp zero h)

variable {moved : Bool}

lemma exitsIff (balanced : s.counter = s.disables + share s.pinned + holding s) (small : s.counter < 2^31) :
    (resume (released s) h target moved).retry h = none ↔ share s.pinned + holding s = 1 := by
  have rest : int32 ((released s).counter - 1) = (share s.pinned + holding s : Nat) - 1 := by
    change int32 (s.counter - s.disables - 1) = _
    rw [int32Same (by omega) (by omega)]
    omega
  rw [resume,retryLoop]
  dsimp only
  rw [rest]
  split
  next more =>
    have other : share s.pinned + holding s ≠ 1 := fun one => more (by rw [one]; rfl)
    simp [other]
  rename_i zero
  have one : share s.pinned + holding s = 1 := by
    have := not_not.mp zero
    omega
  simp [one]

lemma goodIff : Good s ↔ s.counter = s.disables + share s.pinned + holding s ∧ s.counter < 2^31 ∧
    (holding s = 0 ∨ (s.pinned = false ∧ holding s = 1)) := by
  constructor
  · intro good
    refine ⟨good.balanced,good.natural.2,?_⟩
    by_cases zero : holding s = 0
    · exact .inl zero
    obtain ⟨h,pos⟩ := totalPos (Nat.pos_of_ne_zero zero)
    rcases inside : s.retry h with _ | target
    · rw [inside] at pos
      cases pos
    have one := (exitsIff good.balanced good.natural.2).mp (good.exits h target false inside)
    have some := holdingPos inside
    rcases pinned : s.pinned with _ | _
    · exact .inr ⟨rfl,by rw [pinned] at one; simpa [share] using one⟩
    rw [pinned] at one
    have unit : share true = 1 := rfl
    omega
  rintro ⟨balanced,small,cases⟩
  refine ⟨balanced,⟨by omega,small⟩,fun h target moved inside => (exitsIff balanced small).mpr ?_⟩
  have some := holdingPos inside
  rcases cases with zero | ⟨free,one⟩
  · omega
  rw [free,one]
  rfl

lemma overflows {s' : State H C} (small : s.counter < 2^31) (full : ¬ s.counter + 1 < 2^31)
    (same : s'.counter = int32 (s.counter + 1)) : ¬Good s' := by
  intro good
  have natural := good.natural.1
  rw [same,show s.counter + 1 = 2^31 by omega] at natural
  exact absurd natural (by decide)

/-! The helper. -/

lemma retryLoopGood (counter : s.counter = s.disables) (free : s.pinned = false) (alone : holding s = 0)
    (room : s.counter + 1 < 2^31) : Good (retryLoop s h target moved) := by
  have out := holdingZero.mp alone h
  rw [goodIff,retryLoop,int32Small (by omega) room]
  split
  · have enter := @holdingEnter H C _ _ _ s h target out
      {s with counter := s.counter + 1, retry := update s.retry h (some target)} rfl
    rw [alone] at enter
    refine ⟨?_,room,.inr ⟨free,enter⟩⟩
    rw [enter]
    change s.counter + 1 = s.disables + share s.pinned + (1 : Nat)
    rw [free,counter]
    simp [share]
  rename_i zero
  have none : update s.retry h none = s.retry := update_eq_self_iff.mpr out.symm
  rw [none]
  refine ⟨?_,show (1 : Int) < 2^31 by decide,.inl alone⟩
  change (1 : Int) = s.disables + share true + holding s
  rw [alone]
  have := not_not.mp zero
  simp [share]
  omega

lemma retryLoopBad (out : s.retry h = none) (counter : s.counter ≠ 0)
    (busy : 0 < holding s ∨ s.pinned = true) : ¬Good (retryLoop s h target moved) := by
  rw [goodIff,retryLoop,if_pos counter]
  have enter := @holdingEnter H C _ _ _ s h target out
    {s with counter := int32 (s.counter + 1), retry := update s.retry h (some target)} rfl
  rintro ⟨-,-,zero | ⟨free,one⟩⟩
  · omega
  rcases busy with pos | pinned
  · omega
  cases pinned.symm.trans free

lemma pinOtherGood (good : Good s) (out : s.retry h = none) :
    Good (pinOther s h target moved) ↔ Clear s (.pinOther h target moved) := by
  obtain ⟨balanced,small,cases⟩ := goodIff.mp good
  rw [Clear,← holdingZero,pinOther]
  rcases cases with alone | ⟨free,one⟩
  · cases pinned : s.pinned
    case false =>
      rw [pinned,alone] at balanced
      have counter : s.counter = s.disables := by simpa [share] using balanced
      simp only [Bool.false_eq_true,if_false]
      by_cases room : s.counter + 1 < 2^31
      swap
      · refine iff_of_false ?_ fun clear => room (clear.2.2 trivial)
        by_cases here : s.cpu = target
        · rw [if_pos here]
          exact overflows small room rfl
        rw [if_neg here,retryLoop,if_pos (by omega)]
        exact overflows small room rfl
      refine iff_of_true ?_ ⟨alone,fun other => other.1.elim,fun _ => room⟩
      by_cases here : s.cpu = target
      · rw [if_pos here,goodIff,int32Small (by omega) room]
        refine ⟨?_,room,.inl alone⟩
        change s.counter + 1 = s.disables + share true + holding s
        rw [alone,counter]
        simp [share]
      rw [if_neg here]
      exact retryLoopGood counter pinned alone room
    rw [pinned,alone] at balanced
    have counter : s.counter - 1 = s.disables := by
      simp [share] at balanced
      omega
    rw [int32Small (by omega) (by omega)]
    simp only [if_true]
    by_cases here : s.cpu = target
    · rw [if_pos here,goodIff,int32Small (by omega) (by omega)]
      refine iff_of_true ⟨?_,by dsimp only; omega,.inl alone⟩ ⟨alone,fun other => other.2.1 here,nofun⟩
      change s.counter - 1 + 1 = s.disables + share true + holding s
      rw [alone,counter]
      simp [share]
    rw [if_neg here]
    by_cases none : s.disables = 0
    · refine iff_of_true ?_ ⟨alone,fun other => other.2.2 none,nofun⟩
      have zero : s.counter - 1 = 0 := by omega
      have gone : update s.retry h Option.none = s.retry := update_eq_self_iff.mpr out.symm
      rw [goodIff,retryLoop,if_neg (by simp [zero])]
      simp only [gone]
      refine ⟨?_,show (1 : Int) < 2^31 by decide,.inl alone⟩
      change (1 : Int) = s.disables + share true + holding s
      rw [none,alone]
      simp [share]
    refine iff_of_false (retryLoopBad out ?_ (.inr rfl)) fun clear => clear.2.1 ⟨trivial,here,none⟩
    change s.counter - 1 ≠ 0
    omega
  rw [free,one] at balanced
  have counter : s.counter = s.disables + 1 := by simpa [share] using balanced
  rw [free]
  simp only [Bool.false_eq_true,if_false]
  refine iff_of_false ?_ fun clear => by omega
  by_cases here : s.cpu = target
  · rw [if_pos here,goodIff]
    rintro ⟨-,-,zero | ⟨unpinned,-⟩⟩
    · change holding s = 0 at zero
      omega
    · cases unpinned
  rw [if_neg here]
  exact retryLoopBad out (by omega) (.inl (by omega))

lemma resumeGood (good : Good s) (inside : s.retry h = some target) : Good (resume s h target moved) := by
  obtain ⟨balanced,small,cases⟩ := goodIff.mp good
  have some := holdingPos inside
  rcases cases with zero | ⟨free,one⟩
  · omega
  -- the loop as a helper meets it that does not hold the lock yet
  let s' : State H C := {s with counter := int32 (s.counter - 1), retry := update s.retry h none}
  have leave : holding s' + 1 = holding s := holdingLeave inside rfl
  have same : resume s h target moved = retryLoop s' h target moved := by simp only [resume,retryLoop,s',update_idem]
  have counter : s'.counter = s.counter - 1 := int32Small (by omega) (by omega)
  rw [same]
  refine retryLoopGood ?_ free (by omega) (by omega)
  rw [free,one] at balanced
  simp [share] at balanced
  change s'.counter = s.disables
  omega

end

/-! Steps. -/

def Marking (s : State H C) : Prop := ∀ target, s.pc = .mark target → 0 < s.disables

variable {s s' : State H C}

lemma goodSame (good : Good s) (retry : s'.retry = s.retry) (pinned : s'.pinned = s.pinned)
    (counter : s'.counter - s'.disables = s.counter - s.disables) (small : s'.counter < 2^31) : Good s' := by
  obtain ⟨balanced,-,cases⟩ := goodIff.mp good
  have same : holding s' = holding s := by rw [holding,retry,holding]
  rw [goodIff,same,pinned]
  exact ⟨by omega,small,cases⟩

lemma raiseGood (good : Good s) (retry : s'.retry = s.retry) (pinned : s'.pinned = s.pinned)
    (counter : s'.counter = int32 (s.counter + 1)) (disables : s'.disables = s.disables + 1) :
    Good s' ↔ s.counter + 1 < 2^31 := by
  have natural := good.natural
  refine ⟨fun good' => by_contra fun full => overflows natural.2 full counter good',fun room => ?_⟩
  rw [int32Small (by omega) room] at counter
  exact goodSame good retry pinned (by omega) (by omega)

lemma unpinGood (good : Good s) : Good (unpin s) := by
  obtain ⟨balanced,small,cases⟩ := goodIff.mp good
  rw [unpin]
  split
  swap
  · exact good
  rename_i pinned
  have alone : holding s = 0 := by
    rcases cases with alone | ⟨free,-⟩
    · exact alone
    · cases pinned.symm.trans free
  rw [pinned] at balanced
  simp [share] at balanced
  rw [goodIff,int32Small (by omega) (by omega)]
  refine ⟨?_,by dsimp only; omega,.inl alone⟩
  change s.counter - 1 = s.disables + share false + holding s
  simp [share]
  omega

lemma markGood {target : C} (good : Good s) (some : 0 < s.disables) :
    Good {s with pinned := true, disables := s.disables - 1, pc := .move target} ↔
      s.pinned = false ∧ ∀ h, s.retry h = none := by
  obtain ⟨balanced,small,cases⟩ := goodIff.mp good
  rw [goodIff,← holdingZero]
  change s.counter = ((s.disables - 1 : Nat) : Int) + share true + holding s ∧ s.counter < 2^31 ∧
    (holding s = 0 ∨ (true = false ∧ holding s = 1)) ↔ _
  generalize pinned : s.pinned = x at balanced ⊢
  cases x
  case false =>
    simp [share] at balanced ⊢
    omega
  refine iff_of_false ?_ (by simp)
  rintro ⟨equal,-⟩
  omega

lemma retryLoopFrame (s : State H C) (h : H) (target : C) (moved : Bool) :
    (retryLoop s h target moved).pc = s.pc ∧ (retryLoop s h target moved).disables = s.disables := by
  rw [retryLoop]
  split <;> exact ⟨rfl,rfl⟩

lemma pinOtherFrame (s : State H C) (h : H) (target : C) (moved : Bool) :
    (pinOther s h target moved).pc = s.pc ∧ (pinOther s h target moved).disables = s.disables := by
  rw [pinOther]
  split
  · split
    · exact ⟨rfl,rfl⟩
    · exact retryLoopFrame {s with counter := int32 (s.counter - 1)} h target moved
  split
  · exact ⟨rfl,rfl⟩
  · exact retryLoopFrame s h target moved

lemma unpinFrame (s : State H C) : (unpin s).pc = s.pc ∧ (unpin s).disables = s.disables := by
  rw [unpin]
  split <;> exact ⟨rfl,rfl⟩

lemma Marking.frame (marking : Marking s) (same : s'.pc = s.pc ∧ s'.disables = s.disables) : Marking s' := by
  intro target pc
  rw [same.2]
  exact marking target (same.1 ▸ pc)

lemma stepGood {act : Act H C} (good : Good s) (marking : Marking s) (taken : step s act = some s') :
    (Good s' ↔ Clear s act) ∧ Marking s' := by
  have small := good.natural.2
  cases act
  case run =>
    change runPin s = some s' at taken
    rw [runPin] at taken
    have clear (marks : s.isMarking = false) (counts : s.isCounting = false) : Clear s .run :=
      ⟨fun marking => absurd marking (by simp [marks]),fun counting => absurd counting (by simp [counts])⟩
    generalize pc : s.pc = at_ at taken
    cases at_ <;> cases taken
    case test target =>
      refine ⟨iff_of_true (goodSame good rfl rfl rfl small) (clear ?_ ?_),fun other place => ?_⟩
      · rw [State.isMarking,pc]
      · rw [State.isCounting,pc]
      change (if s.pinned then Pc.move target else .count target) = .mark other at place
      split at place <;> cases place
    case count =>
      have counts : Clear s .run ↔ s.counter + 1 < 2^31 := by simp [Clear,State.isMarking,State.isCounting,pc]
      rw [counts]
      exact ⟨raiseGood good rfl rfl rfl rfl,fun _ _ => Nat.succ_pos _⟩
    case mark target =>
      refine ⟨(markGood good (marking target pc)).trans ?_,nofun⟩
      simp [Clear,State.isMarking,State.isCounting,pc]
    case move => exact ⟨iff_of_true (goodSame good rfl rfl rfl small) (clear (by rw [State.isMarking,pc]) (by rw [State.isCounting,pc])),nofun⟩
  case unpinOther =>
    cases taken
    exact ⟨iff_of_true (unpinGood good) trivial,marking.frame (unpinFrame s)⟩
  case resume h moved =>
    obtain ⟨target,inside,taken⟩ := map_eq_some_iff.mp taken
    cases taken
    exact ⟨iff_of_true (resumeGood good inside) trivial,marking.frame (retryLoopFrame _ h target moved)⟩
  all_goals
    obtain ⟨can,taken⟩ := ite_none_right_eq_some.mp taken
    cases taken
  case disable => exact ⟨raiseGood good rfl rfl rfl rfl,fun _ _ => Nat.succ_pos _⟩
  case enable =>
    obtain ⟨idle,some⟩ := can
    have counter := good.balanced
    refine ⟨iff_of_true ?_ trivial,fun target pc => ?_⟩
    · rw [int32Small (by omega) (by omega)]
      exact goodSame good rfl rfl (by push_cast; omega) (by dsimp only; omega)
    have pc : s.pc = .mark target := pc
    simp [State.isIdle,pc] at idle
  case pin => exact ⟨iff_of_true (goodSame good rfl rfl rfl small) trivial,nofun⟩
  case unpin => exact ⟨iff_of_true (unpinGood good) trivial,marking.frame (unpinFrame s)⟩
  case pinOther h target moved => exact ⟨pinOtherGood good can,marking.frame (pinOtherFrame s h target moved)⟩

lemma reachableGood (reach : Reachable s) : Good s ∧ Marking s := by
  refine @invariant _ _ _ _ _ (fun s : State H C => Good s ∧ Marking s) ?_ ?_ s reach
  · rintro s ⟨counter,disables,idle,none⟩
    have zero := holdingZero.mpr none
    refine ⟨goodIff.mpr ⟨?_,?_,.inl zero⟩,fun target pc => ?_⟩
    · rw [counter,disables,zero]
      cases s.pinned <;> rfl
    · rw [counter]
      split <;> decide
    · simp [State.isIdle,pc] at idle
  intro s act s' inv clear taken
  obtain ⟨good,marking⟩ := stepGood inv.1 inv.2 taken
  exact ⟨good.mpr clear,marking⟩

theorem counterBalanced {s : State H C} (reach : Reachable s) :
    Good s ∧ ∀ act s', step s act = some s' → (Good s' ↔ Clear s act) := by
  obtain ⟨good,marking⟩ := reachableGood reach
  exact ⟨good,fun act s' taken => (stepGood good marking taken).1⟩

end

instance (s : State (Fin 2) Nat) (act : Act (Fin 2) Nat) : Decidable (Clear s act) := by
  cases act <;> unfold Clear <;> infer_instance

def unpinned : State (Fin 2) Nat := ⟨0,false,0,0,.idle,fun _ => none⟩
def waitRun : List (Act (Fin 2) Nat) := [.disable,.pinOther 0 1 true,.resume 0 true]

lemma waitReachable : Reachable (final step Clear unpinned waitRun) :=
  reachFinal waitRun ⟨rfl,rfl,rfl,fun _ => rfl⟩ rfl

theorem counterBalancedWait :
    let s := final step Clear unpinned waitRun
    s.retry 0 = some 1 ∧ s.counter = s.disables + share s.pinned + holding s ∧
      (resume (released s) 0 1 true).retry 0 = none := by
  have good := (counterBalanced waitReachable).1
  exact ⟨rfl,good.balanced,good.exits 0 1 true rfl⟩

def unpinRun : List (Act (Fin 2) Nat) :=
  [.pin 0,.run,.run,.run,.run,.disable,.pinOther 0 1 true,.unpin,.resume 0 true,.enable,.unpin]

theorem counterNegative :
    let s := final step (fun _ _ => True) unpinned unpinRun
    Reach step (fun _ _ => True) Start s ∧ s.counter = -1 ∧ s.disables = 0 ∧ s.pinned = false :=
  ⟨reachFinal unpinRun ⟨rfl,rfl,rfl,fun _ => rfl⟩ rfl,rfl,rfl,rfl⟩

end OsvKernel.MigrationLock
