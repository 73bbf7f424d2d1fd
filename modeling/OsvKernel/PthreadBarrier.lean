import OsvKernel.Runs
import OsvKernel.Threads

/-! pthread_barrier_wait on one barrier, by as many threads as it counts. Each operation on the latch and each
critical section under mtx is a step. calls and results record the calls of a thread and what they returned, rounds
how often the latch was reset. -/
namespace OsvKernel.PthreadBarrier
open Function Option Runs List Fintype

def intMax : Nat := 2 ^ 31 - 1
def serialThread : Int := -1

structure Barrier where
  out : Nat
  count : Nat
  ltch : Int
  deriving DecidableEq

def init (count : Nat) : Option Barrier := if count = 0 ∨ intMax ≤ count then none else some ⟨0,count,count⟩
def countDown (ltch : Int) : Int := (ltch - 1).bmod (2 ^ 32)
def isReleased (ltch : Int) : Bool := ltch ≤ 0

/-- entered: before mtx is taken and given back. passed: before the count down. counted: before or in await.
released: before the last critical section. -/
inductive Phase
  | outside | entered | passed | counted | released
  deriving DecidableEq

structure Thread where
  phase : Phase
  calls : Nat
  results : List Int
  deriving DecidableEq

structure State (T : Type) where
  barrier : Barrier
  threads : T → Thread
  rounds : Nat

inductive Action (T : Type)
  | call (t : T)
  | pass (t : T)
  | countDown (t : T)
  | await (t : T)
  | leave (t : T)

variable {T : Type} [DecidableEq T]

def State.put (s : State T) (t : T) (th : Thread) : State T := { s with threads := update s.threads t th }
def State.latch (s : State T) (ltch : Int) : State T := { s with barrier := { s.barrier with ltch := ltch } }

def Thread.back (th : Thread) (retval : Int) : Thread :=
  { th with phase := .outside, results := th.results ++ [retval] }

def leave (s : State T) (t : T) : State T :=
  let out := (s.barrier.out + 1) % 2 ^ 32
  if out = s.barrier.count then
    { s.put t ((s.threads t).back serialThread) with
      barrier := ⟨0,s.barrier.count,s.barrier.count⟩, rounds := s.rounds + 1 }
  else { s.put t ((s.threads t).back 0) with barrier := { s.barrier with out := out } }

def step (s : State T) : Action T → Option (State T)
  | .call t =>
    let th := s.threads t
    if th.phase = .outside then some (s.put t { th with phase := .entered, calls := th.calls + 1 }) else none
  | .pass t => if (s.threads t).phase = .entered then some (s.put t { s.threads t with phase := .passed }) else none
  | .countDown t =>
    if (s.threads t).phase = .passed then
      some ((s.latch (countDown s.barrier.ltch)).put t { s.threads t with phase := .counted })
    else none
  | .await t =>
    if (s.threads t).phase = .counted ∧ isReleased s.barrier.ltch then
      some (s.put t { s.threads t with phase := .released })
    else none
  | .leave t => if (s.threads t).phase = .released then some (leave s t) else none

def start (count : Nat) : Option (State T) := (init count).map fun barrier => ⟨barrier,fun _ => ⟨.outside,0,[]⟩,0⟩

/-- Nobody counts down a latch that is still open. -/
def ok (s : State T) : Action T → Prop
  | .countDown _ => 0 < s.barrier.ltch
  | _ => True

instance (s : State T) : ∀ a, Decidable (ok s a)
  | .countDown _ => inferInstanceAs (Decidable (0 < s.barrier.ltch))
  | .call _ | .pass _ | .await _ | .leave _ => .isTrue trivial

def Serial (s : State T) (r : Nat) (t : T) : Prop := (s.threads t).results[r]? = some serialThread

/-- A call returns after as many calls of every thread, and one call of a round is the serial one. -/
structure Sound (s : State T) : Prop where
  together : ∀ t u, (s.threads t).results.length ≤ (s.threads u).calls
  atMost : ∀ r t u, Serial s r t → Serial s r u → t = u
  serial : ∀ r, (∀ t, r < (s.threads t).results.length) → ∃! t, Serial s r t

/-! The shares of a thread in the counts of a round, and where it can be. -/

def left (round : Nat) (th : Thread) : Nat := if th.results.length = round + 1 then 1 else 0

def arrived (round : Nat) (th : Thread) : Nat :=
  if th.phase = .counted ∨ th.phase = .released ∨ th.results.length = round + 1 then 1 else 0

structure ThreadOk (round : Nat) (ltch : Int) (th : Thread) : Prop where
  calls : th.calls = th.results.length + if th.phase = .outside then 0 else 1
  done : th.results.length = round ∨ th.results.length = round + 1 ∧ ltch = 0
  inside : th.phase = .counted ∨ th.phase = .released → th.results.length = round
  through : th.phase = .released → ltch = 0

structure Inv [Fintype T] (s : State T) : Prop where
  count : s.barrier.count = Fintype.card T
  fits : Fintype.card T < intMax
  threads : ∀ t, ThreadOk s.rounds s.barrier.ltch (s.threads t)
  ltch : s.barrier.ltch + total (fun t => arrived s.rounds (s.threads t)) = Fintype.card T
  out : s.barrier.out = total fun t => left s.rounds (s.threads t)
  short : s.barrier.out < Fintype.card T
  before : ∀ r < s.rounds, ∃! t, Serial s r t
  current : ∀ t, ¬Serial s s.rounds t

section
variable {s : State T} {t : T} {th : Thread} {round : Nat} {ltch : Int}

lemma putThread (u : T) : (s.put t th).threads u = if u = t then th else s.threads u := update_apply ..

lemma putSame {β : Type} (f : Thread → β) (same : f th = f (s.threads t)) (u : T) :
    f ((s.put t th).threads u) = f (s.threads u) := by
  rw [putThread]
  split
  next here => rw [here,same]
  · rfl

lemma putAll {P : Thread → Prop} (own : P th) (others : ∀ u, u ≠ t → P (s.threads u)) (u : T) :
    P ((s.put t th).threads u) := by
  rw [putThread]
  split
  · exact own
  next other => exact others u other

lemma leftLe : left round th ≤ 1 := by
  unfold left
  split <;> omega

lemma arrivedLe : arrived round th ≤ 1 := by
  unfold arrived
  split <;> omega

lemma leftIff : left round th = 1 ↔ th.results.length = round + 1 := by
  unfold left
  split <;> simp_all

lemma ThreadOk.closed (good : ThreadOk round ltch th) (closed : 0 < ltch) (ltch' : Int) : ThreadOk round ltch' th := by
  refine ⟨good.calls,?_,good.inside,fun phase => absurd (good.through phase) closed.ne'⟩
  rcases good.done with here | ⟨_,zero⟩
  · exact .inl here
  · exact absurd zero closed.ne'

variable [Fintype T]

lemma Inv.stay (inv : Inv s) (threads : ∀ u, ThreadOk s.rounds ltch (s.threads u)) (own : ThreadOk s.rounds ltch th)
    (same : th.results = (s.threads t).results)
    (balance : ltch + arrived s.rounds th = s.barrier.ltch + arrived s.rounds (s.threads t)) :
    Inv ((s.latch ltch).put t th) := by
  have results : ∀ u, (((s.latch ltch).put t th).threads u).results = (s.threads u).results := putSame Thread.results same
  have serial : ∀ r u, Serial ((s.latch ltch).put t th) r u ↔ Serial s r u := by
    intro r u
    unfold Serial
    rw [results u]
  have moved := totalMove (t := t) (f := fun u => arrived s.rounds (s.threads u))
    (g := fun u => arrived s.rounds (((s.latch ltch).put t th).threads u))
    fun u other => congrArg (arrived s.rounds) (update_of_ne other _ _)
  refine ⟨inv.count,inv.fits,putAll own fun u _ => threads u,?_,?_,inv.short,?_,?_⟩
  · have here : ((s.latch ltch).put t th).threads t = th := update_self ..
    have before := inv.ltch
    rw [here] at moved
    change ltch + (total fun u => arrived s.rounds (((s.latch ltch).put t th).threads u) : Nat) = _
    omega
  · refine inv.out.trans (totalSame fun u => ?_)
    exact (putSame (left s.rounds) (by rw [left,left,same]) u).symm
  · exact fun r earlier => (existsUnique_congr (serial r)).mpr (inv.before r earlier)
  · exact fun u here => inv.current u ((serial _ u).mp here)

lemma ThreadOk.back (good : ThreadOk round ltch th) (phase : th.phase = .released) (retval : Int) :
    ThreadOk round ltch (th.back retval) := by
  have length : (th.back retval).results.length = th.results.length + 1 := length_append
  refine ⟨?_,.inr ⟨?_,good.through phase⟩,nofun,nofun⟩
  · have calls := good.calls
    rw [if_neg (by rw [phase]; decide)] at calls
    exact calls.trans length.symm
  · rw [length,good.inside (.inr phase)]

lemma ThreadOk.next (good : ThreadOk round ltch th) (gone : th.results.length = round + 1) (ltch' : Int) :
    ThreadOk (round + 1) ltch' th ∧ arrived (round + 1) th = 0 ∧ left (round + 1) th = 0 := by
  have outside : ¬(th.phase = .counted ∨ th.phase = .released) := by
    intro inside
    have := good.inside inside
    omega
  refine ⟨⟨good.calls,.inl gone,fun inside => absurd inside outside,fun phase => absurd (.inr phase) outside⟩,?_,?_⟩
  · refine if_neg ?_
    rintro (counted | released | far)
    · exact outside (.inl counted)
    · exact outside (.inr released)
    · omega
  · exact if_neg (by omega)

section
variable (inv : Inv s) (phase : (s.threads t).phase = .released) (retval : Int)
include inv phase

lemma Inv.backThreads (u : T) : ThreadOk s.rounds s.barrier.ltch ((s.put t ((s.threads t).back retval)).threads u) :=
  putAll ((inv.threads t).back phase retval) (fun u _ => inv.threads u) u

lemma Inv.backGone : ((s.threads t).back retval).results.length = s.rounds + 1 := by
  rw [← (inv.threads t).inside (.inr phase)]
  exact length_append

lemma Inv.backLeft :
    total (fun u => left s.rounds ((s.put t ((s.threads t).back retval)).threads u)) = s.barrier.out + 1 := by
  have moved := totalMove (t := t) (f := fun u => left s.rounds (s.threads u))
    (g := fun u => left s.rounds ((s.put t ((s.threads t).back retval)).threads u))
    fun u other => congrArg (left s.rounds) (update_of_ne other _ _)
  have here : (s.put t ((s.threads t).back retval)).threads t = (s.threads t).back retval := update_self ..
  have before : left s.rounds (s.threads t) = 0 := by
    refine if_neg ?_
    rw [(inv.threads t).inside (.inr phase)]
    omega
  rw [here,before,leftIff.mpr (inv.backGone phase retval),← inv.out] at moved
  exact moved

lemma Inv.backArrived : total (fun u => arrived s.rounds ((s.put t ((s.threads t).back retval)).threads u)) =
      total fun u => arrived s.rounds (s.threads u) := by
  refine totalSame fun u => putSame (arrived s.rounds) ?_ u
  rw [arrived,arrived,if_pos (.inr (.inr (inv.backGone phase retval))),if_pos (.inr (.inl phase))]

lemma Inv.backSerial {r : Nat} (earlier : r < s.rounds) (u : T) :
    Serial (s.put t ((s.threads t).back retval)) r u ↔ Serial s r u := by
  have same : ((s.threads t).back retval).results[r]? = (s.threads t).results[r]? := by
    refine getElem?_append_left ?_
    rwa [(inv.threads t).inside (.inr phase)]
  unfold Serial
  rw [putSame (fun th => th.results[r]?) same u]

lemma Inv.backHere : ((s.threads t).back retval).results[s.rounds]? = some retval := by
  rw [← (inv.threads t).inside (.inr phase)]
  exact getElem?_concat_length

end

section
variable (inv : Inv s)
include inv

lemma Inv.leave (phase : (s.threads t).phase = .released) : Inv (leave s t) := by
  have small := inv.fits
  have short := inv.short
  have next : (s.barrier.out + 1) % 2 ^ 32 = s.barrier.out + 1 := by
    refine Nat.mod_eq_of_lt ?_
    unfold intMax at small
    omega
  dsimp only [PthreadBarrier.leave]
  rw [next,inv.count]
  split
  swap
  next more =>
    refine ⟨rfl,small,inv.backThreads phase 0,?_,(inv.backLeft phase 0).symm,by dsimp only; omega,?_,?_⟩
    · have before := inv.ltch
      rwa [← inv.backArrived phase 0] at before
    · exact fun r earlier => (existsUnique_congr (inv.backSerial phase 0 earlier)).mpr (inv.before r earlier)
    refine putAll (P := fun th => ¬th.results[s.rounds]? = some serialThread) ?_ fun u _ => inv.current u
    rw [inv.backHere phase 0]
    decide
  -- the last one out: everybody has left the round
  rename_i last
  have gone : ∀ u, ((s.put t ((s.threads t).back serialThread)).threads u).results.length = s.rounds + 1 :=
    fun u => leftIff.mp (totalFull (fun _ => leftLe) ((inv.backLeft phase serialThread).trans last) u)
  have reset := fun u => (inv.backThreads phase serialThread u).next (gone u) (card T)
  refine ⟨rfl,small,fun u => (reset u).1,?_,?_,by dsimp only; omega,?_,?_⟩
  · dsimp only
    rw [totalZero fun u => (reset u).2.1]
    omega
  · exact (totalZero fun u => (reset u).2.2).symm
  · intro r earlier
    rcases Nat.lt_succ_iff_lt_or_eq.mp earlier with past | rfl
    · exact (existsUnique_congr (inv.backSerial phase serialThread past)).mpr (inv.before r past)
    refine ⟨t,?_,?_⟩
    · change (update s.threads t _ t).results[s.rounds]? = _
      rw [update_self]
      exact inv.backHere phase serialThread
    intro u serial
    by_contra other
    change (update s.threads t _ u).results[s.rounds]? = _ at serial
    rw [update_of_ne other] at serial
    exact inv.current u serial
  intro u serial
  have range := getElem?_eq_none (gone u).le
  cases range.symm.trans serial

lemma Inv.ltchNonneg : 0 ≤ s.barrier.ltch := by
  have le : total (fun u => arrived s.rounds (s.threads u)) ≤ card T := totalLeCard fun _ => arrivedLe
  have := inv.ltch
  omega

lemma Inv.call (phase : (s.threads t).phase = .outside) :
    Inv (s.put t { s.threads t with phase := .entered, calls := (s.threads t).calls + 1 }) := by
  have good := inv.threads t
  have calls : (s.threads t).calls = (s.threads t).results.length := by simpa [phase] using good.calls
  refine inv.stay inv.threads ⟨?_,good.done,nofun,nofun⟩ rfl ?_
  · simp [calls]
  · simp [arrived,phase]

lemma Inv.pass (phase : (s.threads t).phase = .entered) :
    Inv (s.put t { s.threads t with phase := .passed }) := by
  have good := inv.threads t
  refine inv.stay inv.threads ⟨?_,good.done,nofun,nofun⟩ rfl ?_
  · simpa [phase] using good.calls
  · simp [arrived,phase]

lemma Inv.countDown (phase : (s.threads t).phase = .passed) (closed : 0 < s.barrier.ltch) :
    Inv ((s.latch (countDown s.barrier.ltch)).put t { s.threads t with phase := .counted }) := by
  have good := inv.threads t
  have here := good.done.resolve_right fun open_ => closed.ne' open_.2
  have exact_ : PthreadBarrier.countDown s.barrier.ltch = s.barrier.ltch - 1 := by
    have small := inv.fits
    have sum := inv.ltch
    unfold intMax at small
    exact Int.bmod_eq_of_le (by omega) (by omega)
  refine inv.stay (fun u => (inv.threads u).closed closed _) ⟨?_,.inl here,fun _ => here,nofun⟩ rfl ?_
  · simpa [phase] using good.calls
  rw [exact_]
  simp [arrived,phase,here]

lemma Inv.await (phase : (s.threads t).phase = .counted) (released : isReleased s.barrier.ltch = true) :
    Inv (s.put t { s.threads t with phase := .released }) := by
  have good := inv.threads t
  have opened : s.barrier.ltch = 0 := by
    have low := inv.ltchNonneg
    have high := of_decide_eq_true released
    omega
  refine inv.stay inv.threads ⟨?_,good.done,fun _ => good.inside (.inl phase),fun _ => opened⟩ rfl ?_
  · simpa [phase] using good.calls
  · simp [arrived,phase]

lemma Inv.step {a : Action T} {r : State T} (allowed : ok s a) (taken : step s a = some r) : Inv r := by
  cases a <;> simp only [PthreadBarrier.step] at taken <;> split at taken <;> cases taken
  case call.isTrue phase => exact inv.call phase
  case pass.isTrue phase => exact inv.pass phase
  case countDown.isTrue phase => exact inv.countDown phase allowed
  case await.isTrue phase => exact inv.await phase.1 phase.2
  case leave.isTrue phase => exact inv.leave phase

end

lemma Inv.start (begins : start (card T) = some s) : Inv s := by
  obtain ⟨barrier,made,rfl⟩ := map_eq_some_iff.mp begins
  obtain ⟨fits,eq⟩ := ite_none_left_eq_some.mp made
  cases eq
  obtain ⟨some,small⟩ := not_or.mp fits
  have none : total (fun _ : T => 0) = 0 := totalZero fun _ => rfl
  refine ⟨rfl,Nat.lt_of_not_le small,fun t => ⟨rfl,.inl rfl,by rintro (_ | _) <;> contradiction,nofun⟩,?_,none.symm,
    Nat.pos_of_ne_zero some,nofun,nofun⟩
  change (card T : Int) + (total fun _ : T => 0 : Nat) = _
  rw [none]
  omega

lemma Inv.sound (inv : Inv s) : Sound s := by
  have calls : ∀ u, (s.threads u).results.length ≤ (s.threads u).calls := by
    intro u
    have := (inv.threads u).calls
    omega
  refine ⟨fun t u => ?_,fun r t u one two => ?_,fun r all => ?_⟩
  · rcases (inv.threads t).done with here | ⟨gone,opened⟩
    · have atLeast : s.rounds ≤ (s.threads u).results.length := by rcases (inv.threads u).done with done | ⟨done,_⟩ <;> omega
      have := calls u
      omega
    · -- the latch is open, so everybody has arrived
      have full : total (fun v => arrived s.rounds (s.threads v)) = card T := by
        have := inv.ltch
        omega
      have there := totalFull (fun _ => arrivedLe) full u
      have good := inv.threads u
      have own := good.calls
      unfold arrived at there
      split at there
      next inside =>
        rcases inside with counted | released | done
        · rw [counted,good.inside (.inl counted)] at own
          exact gone.trans own.symm |>.le
        · rw [released,good.inside (.inr released)] at own
          exact gone.trans own.symm |>.le
        have := calls u
        omega
      · cases there
  · rcases Nat.lt_trichotomy r s.rounds with past | rfl | later
    · exact (inv.before r past).unique one two
    · exact absurd one (inv.current t)
    · have range := (List.getElem?_eq_some_iff.mp one).1
      rcases (inv.threads t).done with done | ⟨done,_⟩ <;> omega
  -- were this the current round, all would have left it
  refine inv.before r (Nat.lt_of_not_le fun current => ?_)
  have full : total (fun v => left s.rounds (s.threads v)) = total fun _ : T => 1 := by
    refine totalSame fun v => leftIff.mpr ?_
    have := all v
    rcases (inv.threads v).done with done | ⟨done,_⟩ <;> omega
  have ones : total (fun _ : T => 1) = card T := (Finset.card_eq_sum_ones Finset.univ).symm
  have := inv.short
  have := inv.out
  omega

theorem barrierSound (reach : Reach step ok (fun s => start (card T) = some s) s) : Sound s :=
  (invariant (P := Inv) (fun _ => Inv.start) (fun _ _ _ inv allowed taken => inv.step allowed taken) reach).sound

lemma Inv.someInside (inv : Inv s) (released : s.barrier.ltch = 0) :
    ∃ t, (s.threads t).phase = .counted ∨ (s.threads t).phase = .released := by
  by_contra none
  -- otherwise all have left, and the last one has reset the latch
  have full := inv.ltch
  rw [released,Int.zero_add,Int.ofNat_inj] at full
  have gone : ∀ t, left s.rounds (s.threads t) = 1 := by
    intro t
    have here := totalFull (fun _ => arrivedLe) full t
    simp only [arrived] at here
    split at here
    next some => exact leftIff.mpr ((or_assoc.mpr some).resolve_left fun at_ => none ⟨t,at_⟩)
    · cases here
  have short := inv.short
  rw [inv.out,totalSame gone] at short
  simp [total] at short

lemma Inv.someBefore (inv : Inv s) (closed : s.barrier.ltch ≠ 0) :
    ∃ t, (s.threads t).phase ≠ .counted ∧ (s.threads t).phase ≠ .released := by
  by_contra none
  -- otherwise all have arrived, and the latch is open
  push Not at none
  refine closed ?_
  have full : ∀ t, arrived s.rounds (s.threads t) = 1 := by
    intro t
    rw [arrived,if_pos]
    by_cases at_ : (s.threads t).phase = .counted
    · exact .inl at_
    · exact .inr (.inl (none t at_))
  have sum := inv.ltch
  rw [totalSame full] at sum
  simpa [total] using sum

theorem barrierProgress (reach : Reach step ok (fun s => start (card T) = some s) s) :
    (∃ t, (s.threads t).phase = .outside) ∨
    ∃ t, ∃ a ∈ [Action.pass t,.countDown t,.await t,.leave t], ok s a ∧ (step s a).isSome = true := by
  have inv : Inv s := invariant (fun _ => Inv.start) (fun _ _ _ inv allowed taken => inv.step allowed taken) reach
  by_cases released : s.barrier.ltch = 0
  · obtain ⟨t,at_ | at_⟩ := inv.someInside released
    · exact .inr ⟨t,.await t,by simp,trivial,by simp [step,at_,released,isReleased]⟩
    · exact .inr ⟨t,.leave t,by simp,trivial,by simp [step,at_]⟩
  have few := totalLeCard (T := T) (f := fun t => arrived s.rounds (s.threads t)) fun _ => arrivedLe
  have sum := inv.ltch
  obtain ⟨t,before⟩ := inv.someBefore released
  cases at_ : (s.threads t).phase with
  | outside => exact .inl ⟨t,at_⟩
  | entered => exact .inr ⟨t,.pass t,by simp,trivial,by simp [step,at_]⟩
  | passed =>
    have closed : 0 < s.barrier.ltch := by omega
    exact .inr ⟨t,.countDown t,by simp,closed,by simp [step,at_]⟩
  | counted => exact absurd at_ before.1
  | released => exact absurd at_ before.2

end

def pair : State Bool := ⟨⟨0,2,2⟩,fun _ => ⟨.outside,0,[]⟩,0⟩
def arrive (t : Bool) : List (Action Bool) := [.call t,.pass t,.countDown t]
def depart (t : Bool) : List (Action Bool) := [.await t,.leave t]

def twoRounds : List (Action Bool) :=
  arrive true ++ arrive false ++ depart true ++ depart false ++ arrive false ++ arrive true ++ depart true ++ depart false

theorem barrierSoundTwice : ((final step ok pair twoRounds).threads true).results = [0,0] ∧
      ((final step ok pair twoRounds).threads false).results = [serialThread,serialThread] ∧
      Sound (final step ok pair twoRounds) := by
  have reach : Reach step ok (fun s => start (card Bool) = some s) (final step ok pair twoRounds) :=
    reachFinal twoRounds rfl rfl
  exact ⟨rfl,rfl,barrierSound reach⟩

theorem barrierProgressHalf : ∃ t, ∃ a ∈ [Action.pass t,.countDown t,.await t,.leave t],
    ok (final step ok pair (arrive true ++ [.call false])) a ∧
      (step (final step ok pair (arrive true ++ [.call false])) a).isSome = true := by
  have reach : Reach step ok (fun s => start (card Bool) = some s) (final step ok pair (arrive true ++ [.call false])) :=
    reachFinal _ rfl rfl
  exact (barrierProgress reach).resolve_left (by decide)

def overtaking : List (Action Bool) := arrive true ++ arrive false ++ depart true ++ arrive true ++ depart true

theorem barrierOvertaken :
    Reach step (fun _ _ => True) (fun s => start (card Bool) = some s) (played step pair overtaking) ∧
      ((played step pair overtaking).threads true).results = [0,serialThread] ∧
      ((played step pair overtaking).threads false).calls = 1 ∧
      (step (played step pair overtaking) (.await false)).isNone = true :=
  ⟨reachPlayed _ rfl (fun _ _ _ => trivial) rfl,rfl,rfl,rfl⟩

end OsvKernel.PthreadBarrier
