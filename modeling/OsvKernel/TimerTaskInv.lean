import OsvKernel.TimerTask

/-! What every run of timer_task keeps: each percpu_timer_task is in one place, and only the thread
or the worker of that place changes it. -/
namespace OsvKernel.TimerTask
open Option

inductive Place (U C M : Type) where
  | unborn
  | free
  | freeing (θ : Thread U C)
  | leaving (c : C)
  | preparing (θ : Thread U C)
  | entering (θ : Thread U C) (m : M)
  | registered (m : M)

namespace Place
variable {U C M : Type}

def timer : Place U C M → Option M
  | .entering _ m => some m
  | .registered m => some m
  | _ => none

def holder : Place U C M → Option (Thread U C)
  | .freeing θ => some θ
  | .preparing θ => some θ
  | .entering θ _ => some θ
  | _ => none

def Fits : Place U C M → Option (Percpu C M) → Prop
  | .unborn,p => p = none
  | .free,p => ∃ q ∈ p, q.state = .released
  | .freeing _,p => ∃ q ∈ p, q.state = .released
  | .leaving c,p => ∃ q ∈ p, q.queued = false ∧ q.state = .released ∧ q.worker = c
  | .preparing _,p => ∃ q ∈ p, q.queued = false ∧ (q.state = .released ∨ q.master = none)
  | .entering _ m,p => ∃ q ∈ p, q.queued = false ∧ q.state = .active ∧ q.master = some m
  | .registered m,p => ∃ q ∈ p, q.master = some m ∧ (q.state = .active ∨ q.state = .firing ∧ q.queued = false)

def Armed : Place U C M → TaskState → Prop
  | .free,_ => True
  | .freeing _,_ => True
  | .registered _,state => state = .active
  | _,_ => False

end Place

variable {U C M T L : Type} [DecidableEq U] [DecidableEq C] [DecidableEq M] [DecidableEq T] [DecidableEq L]

def Owns (s : State U C M T L) (θ : Thread U C) (m : M) (ends : Bool) : Prop :=
  ∃ tm, s.timer m = some tm ∧ s.owner tm.lock = some θ ∧ tm.terminating = ends

def Ends (s : State U C M T L) (m : M) : Prop := ∃ tm, s.timer m = some tm ∧ tm.terminating = true

def Call.light : Call M T → Bool
  | .idle _ => true
  | .borrowing _ _ => true
  | .revoking _ _ => true
  | _ => false

def CallOk (s : State U C M T L) (place : T → Place U C M) (θ : Thread U C) : Call M T → Prop
  | .idle _ => True
  | .freeing t next => place t = .freeing θ ∧ next.light = true ∧ CallOk s place θ next
  | .borrowing m _ => Owns s θ m false
  | .borrowed m _ t => Owns s θ m false ∧ place t = .preparing θ
  | .inserting m _ t => Owns s θ m false ∧ place t = .entering θ m
  | .revoking m rest => Owns s θ m true ∧ rest.Nodup ∧ ∀ t ∈ rest, place t = .registered m
  | .draining m => Owns s θ m true
  | .waiting m _ => Ends s m

def Fires (s : State U C M T L) (place : T → Place U C M) (c : C) (t : T) (m : M) (n : Nat) : Prop :=
  place t = .registered m ∧ ∃ p, s.task t = some p ∧ p.worker = c ∧ p.state = .firing ∧ p.reg = n

def Pops (s : State U C M T L) (place : T → Place U C M) (c : C) (t : T) (n : Nat) : Prop :=
  ∃ p, s.task t = some p ∧ p.worker = c ∧ p.queued = false ∧ (place t).Armed p.state ∧ (p.state = .active → p.reg = n)

def Decided (s : State U C M T L) (t : T) (m : M) : Prop := ∀ tm, s.timer m = some tm → tm.active ≠ some t

def WorkOk (s : State U C M T L) (place : T → Place U C M) (c : C) : Work M T L → Prop
  | .loop => True
  | .popped t n => Pops s place c t n
  | .claiming t n => Pops s place c t n
  | .firing t m n => Fires s place c t m n
  | .calling t m n => Fires s place c t m n ∧ Decided s t m
  | .returned t m n => Fires s place c t m n ∧ Decided s t m ∧ ∃ ends, Owns s (.worker c) m ends
  | .freed t l => place t = .leaving c ∧ s.owner l = some (.worker c)

def TimerOk (place : T → Place U C M) (m : M) : Option (Timer T L) → Prop
  | none => ∀ t, (place t).timer ≠ some m
  | some tm => tm.registrations.Nodup ∧ (∀ t, t ∈ tm.registrations ↔ (place t).timer = some m) ∧
      (∀ t, tm.active = some t → (place t).timer = some m) ∧ (tm.terminating = true → tm.active = none)

def Call.destroys (m : M) : Call M T → Prop
  | .freeing _ next => next.destroys m
  | .revoking m' _ => m' = m
  | .draining m' => m' = m
  | .waiting m' _ => m' = m
  | _ => False

structure Queues (s : State U C M T L) (place : T → Place U C M) : Prop where
  timers : ∀ c t, t ∈ s.timers c ↔ ∃ p, s.task t = some p ∧ p.worker = c ∧ p.queued = true
  timersOnce : ∀ c, (s.timers c).Nodup
  released : ∀ c t, t ∈ s.released c → place t = .free ∧ ∃ p, s.task t = some p ∧ p.worker = c
  releasedOnce : ∀ c, (s.released c).Nodup

structure Party (s : State U C M T L) (place : T → Place U C M) : Prop where
  calls : ∀ θ, CallOk s place θ (s.call θ)
  works : ∀ c, WorkOk s place c (s.work c)
  enters : ∀ t θ m, place t = .entering θ m → ∃ pending, s.call θ = .inserting m pending t
  alone : ∀ θ θ' m, (s.call θ).destroys m → (s.call θ').destroys m → θ = θ'
  busy : ∀ c, (s.work c).outside = false → (s.call (.worker c)).isIdle = true

structure Numbers (s : State U C M T L) (place : T → Place U C M) : Prop where
  below : ∀ t p, s.task t = some p → (place t).timer ≠ none → p.reg < s.regs
  ranBelow : ∀ n ∈ s.ran, n < s.regs
  gone : ∀ n ∈ s.superseded, n < s.regs ∧ n ∉ s.ran
  distinct : ∀ t u p q, s.task t = some p → s.task u = some q → (place t).timer ≠ none → (place u).timer ≠ none →
    p.reg = q.reg → t = u
  pending : ∀ t p, s.task t = some p → (place t).timer ≠ none → p.state = .active → p.reg ∉ s.ran
  undecided : ∀ c t m n, s.work c = .firing t m n → n ∉ s.ran
  live : ∀ m tm t p, s.timer m = some tm → tm.active = some t → s.task t = some p → p.reg ∉ s.ran ∧ p.reg ∉ s.superseded
  once : s.ran.Nodup

structure Inv (s : State U C M T L) (place : T → Place U C M) : Prop where
  sound : s.failed = false
  fits : ∀ t, (place t).Fits (s.task t)
  timers : ∀ m, TimerOk place m (s.timer m)
  queues : Queues s place
  party : Party s place
  numbers : Numbers s place

variable {s s' : State U C M T L} {place place' : T → Place U C M} {θ : Thread U C} {c : C} {m : M} {t : T} {l : L} {n : Nat}
  {p : Percpu C M} {tm : Timer T L}

variable {k k' : Call M T} {w : Work M T L} {θ' : Thread U C}

open Place Call

section
variable (inv : Inv s place)
include inv

lemma Inv.callAt (at_ : s.call θ = k) : CallOk s place θ k := at_ ▸ inv.party.calls θ

lemma Inv.workAt (at_ : s.work c = w) : WorkOk s place c w := at_ ▸ inv.party.works c

lemma Inv.timerAt {x : Option (Timer T L)} (there : s.timer m = x) : TimerOk place m x :=
  there ▸ inv.timers m

lemma Inv.placed {q : Place U C M} (here : place t = q) : q.Fits (s.task t) := here ▸ inv.fits t

lemma Inv.activePlaced (there : s.timer m = some tm) (active : tm.active = some t) : (place t).timer = some m :=
  (inv.timerAt there).2.2.1 t active

end

lemma CallOk.frame (ok : CallOk s place θ k) (owned : ∀ m ends, Owns s θ m ends → Owns s' θ m ends)
    (ends : ∀ m, k.destroys m → Ends s m → Ends s' m) (mine : ∀ t, (place t).holder = some θ → place' t = place t)
    (kept : ∀ t m, place t = .registered m → Owns s θ m true → place' t = .registered m) : CallOk s' place' θ k := by
  induction k with
  | idle result => trivial
  | freeing t next ih => exact ⟨(mine t (by rw [ok.1]; rfl)).trans ok.1,ok.2.1,ih ok.2.2 ends⟩
  | borrowing m pending => exact owned m false ok
  | borrowed m pending t | inserting m pending t => exact ⟨owned m false ok.1,(mine t (by rw [ok.2]; rfl)).trans ok.2⟩
  | revoking m rest => exact ⟨owned m true ok.1,ok.2.1,fun t mem => kept t m (ok.2.2 t mem) ok.1⟩
  | draining m => exact owned m true ok
  | waiting m woken => exact ends m rfl ok

lemma CallOk.light (ok : CallOk s place θ k) (light : k.light = true)
    (owned : ∀ m ends, Owns s θ m ends → Owns s' θ m ends)
    (kept : ∀ t m, place t = .registered m → place' t = .registered m) : CallOk s' place' θ k := by
  cases k with
  | idle result => trivial
  | borrowing m pending => exact owned m false ok
  | revoking m rest => exact ⟨owned m true ok.1,ok.2.1,fun t mem => kept t m (ok.2.2 t mem)⟩
  | _ => cases light

lemma CallOk.ends (ok : CallOk s place θ k) (destroys : k.destroys m) : Ends s m := by
  induction k with
  | freeing t next ih => exact ih ok.2.2 destroys
  | revoking m' rest =>
    cases destroys
    obtain ⟨tm,there,-,ends⟩ := ok.1
    exact ⟨tm,there,ends⟩
  | draining m' =>
    cases destroys
    obtain ⟨tm,there,-,ends⟩ := ok
    exact ⟨tm,there,ends⟩
  | waiting m' woken =>
    cases destroys
    exact ok
  | _ => cases destroys

lemma WorkOk.frame (ok : WorkOk s place c w) (pops : ∀ t n, w.locked = true → Pops s place c t n → Pops s' place' c t n)
    (fires : ∀ t m n, Fires s place c t m n → Fires s' place' c t m n)
    (decided : ∀ t m, place t = .registered m → Decided s t m → Decided s' t m)
    (owned : ∀ m ends, w.outside = false → Owns s (.worker c) m ends → Owns s' (.worker c) m ends)
    (leaves : ∀ t, place t = .leaving c → place' t = .leaving c)
    (lock : ∀ l, w.outside = false → s.owner l = some (.worker c) → s'.owner l = some (.worker c)) : WorkOk s' place' c w := by
  cases w with
  | loop => trivial
  | popped t n | claiming t n => exact pops t n rfl ok
  | firing t m n => exact fires t m n ok
  | calling t m n => exact ⟨fires t m n ok.1,decided t m ok.1.1 ok.2⟩
  | returned t m n =>
    obtain ⟨ends,owns⟩ := ok.2.2
    exact ⟨fires t m n ok.1,decided t m ok.1.1 ok.2.1,ends,owned m ends rfl owns⟩
  | freed t l => exact ⟨leaves t ok.1,lock l rfl ok.2⟩

lemma Numbers.frame (numbers : Numbers s place) (regs : s'.regs = s.regs) (ran : s'.ran = s.ran)
    (superseded : s'.superseded = s.superseded)
    (tasks : ∀ t p', s'.task t = some p' → (place' t).timer ≠ none →
      (place t).timer ≠ none ∧ ∃ p, s.task t = some p ∧ p'.reg = p.reg ∧ (p'.state = .active → p.state = .active))
    (timers : ∀ m tm' t, s'.timer m = some tm' → tm'.active = some t →
      (place' t).timer ≠ none ∧ ∃ tm, s.timer m = some tm ∧ tm.active = some t)
    (works : ∀ c t m n, s'.work c = .firing t m n → s.work c = .firing t m n ∨ n ∉ s.ran) : Numbers s' place' where
  below t p' there at_ := by
    obtain ⟨was,p,before,reg,-⟩ := tasks t p' there at_
    rw [regs,reg]
    exact numbers.below t p before was
  ranBelow := by
    rw [ran,regs]
    exact numbers.ranBelow
  gone := by
    rw [superseded,ran,regs]
    exact numbers.gone
  distinct t u p' q' there other at_ at' same := by
    obtain ⟨was,p,before,reg,-⟩ := tasks t p' there at_
    obtain ⟨was',q,before',reg',-⟩ := tasks u q' other at'
    exact numbers.distinct t u p q before before' was was' (reg.symm.trans (same.trans reg'))
  pending t p' there at_ active := by
    obtain ⟨was,p,before,reg,state⟩ := tasks t p' there at_
    rw [ran,reg]
    exact numbers.pending t p before was (state active)
  undecided c t m n firing := by
    rw [ran]
    rcases works c t m n firing with before | fresh
    · exact numbers.undecided c t m n before
    · exact fresh
  live m tm' t p' there active at_ := by
    obtain ⟨still,tm,before,was⟩ := timers m tm' t there active
    obtain ⟨-,p,task,reg,-⟩ := tasks t p' at_ still
    rw [ran,superseded,reg]
    exact numbers.live m tm t p before was task
  once := by
    rw [ran]
    exact numbers.once

def Call.drowsy : Call M T → Call M T
  | .waiting m _ => .waiting m false
  | k => k

section
variable (same : k'.drowsy = k.drowsy)
include same

lemma Call.drowsyIdle : k'.isIdle = k.isIdle := by
  cases k <;> cases k' <;> first | rfl | cases same

lemma Call.drowsyDestroys : k'.destroys m ↔ k.destroys m := by
  cases k <;> cases k' <;> cases same <;> exact Iff.rfl

lemma Call.drowsyInserting {pending : Bool}
    (there : k = .inserting m pending t) : k' = .inserting m pending t := by
  subst there
  cases k' <;> first | exact same | cases same

lemma CallOk.drowsy (ok : CallOk s place θ k) : CallOk s place θ k' := by
  cases k <;> cases k' <;> cases same <;> exact ok

end

lemma Owns.only {ends ends' : Bool} (owns : Owns s θ m ends) (other : Owns s θ' m ends') : θ' = θ := by
  obtain ⟨tm,there,lock,-⟩ := owns
  obtain ⟨tm',there',lock',-⟩ := other
  cases there.symm.trans there'
  exact some.inj (lock'.symm.trans lock)

def Takes (s : State U C M T L) (θ : Thread U C) (q : Place U C M) : Prop :=
  q = .unborn ∨ q = .free ∨ q.holder = some θ ∨ ∃ m ends, q = .registered m ∧ Owns s θ m ends

structure Acts (s s' : State U C M T L) (place place' : T → Place U C M) (θ : Thread U C) (k : Call M T) : Prop where
  call : ∀ θ', θ' ≠ θ → (s'.call θ').drowsy = (s.call θ').drowsy
  here : s'.call θ = k
  work : s'.work = s.work
  out : ∀ c, θ = .worker c → (s.work c).outside = true
  locks : ∀ θ' l, θ' ≠ θ → s.owner l = some θ' → s'.owner l = some θ'
  others : ∀ m tm, s.timer m = some tm → s.owner tm.lock ≠ some θ → s'.timer m = some tm
  ending : ∀ m, Ends s m → Ends s' m ∨ (s.call θ).destroys m
  active : ∀ m tm' t, s'.timer m = some tm' → tm'.active = some t → place t = .registered m →
    ∃ tm, s.timer m = some tm ∧ tm.active = some t
  moved : ∀ t, place' t = place t ∨ Takes s θ (place t)
  enters : ∀ t θ' m, place' t = .entering θ' m →
    place' t = place t ∧ θ' ≠ θ ∨ θ' = θ ∧ ∃ pending, k = .inserting m pending t
  alone : ∀ m, k.destroys m → (s.call θ).destroys m ∨ ¬ Ends s m

lemma Acts.owned (acts : Acts s s' place place' θ k) {ends : Bool} (other : θ' ≠ θ)
    (owns : Owns s θ' m ends) : Owns s' θ' m ends := by
  obtain ⟨tm,there,lock,flag⟩ := owns
  have away : s.owner tm.lock ≠ some θ := fun mine => other (some.inj (lock.symm.trans mine))
  exact ⟨tm,acts.others m tm there away,acts.locks θ' tm.lock other lock,flag⟩

lemma Party.acts (party : Party s place) (acts : Acts s s' place place' θ k) (ok : CallOk s' place' θ k)
    (pops : ∀ c t n, (s.work c).locked = true → Pops s place c t n → Pops s' place' c t n)
    (fires : ∀ c t m n, Fires s place c t m n → Fires s' place' c t m n) : Party s' place' where
  calls θ' := by
    by_cases same : θ' = θ
    · subst θ'
      rw [acts.here]
      exact ok
    refine CallOk.drowsy (acts.call θ' same) ((party.calls θ').frame (fun m ends => acts.owned same) ?_ ?_ ?_)
    · intro m destroys ends
      rcases acts.ending m ends with kept | mine
      · exact kept
      · exact absurd (party.alone θ' θ m destroys mine) same
    · intro t holds
      rcases acts.moved t with kept | none | free | mine | ⟨m,ends,registered,-⟩
      · exact kept
      · simp [none,holder] at holds
      · simp [free,holder] at holds
      · exact absurd (some.inj (holds.symm.trans mine)) same
      · simp [registered,holder] at holds
    intro t m there owns
    rcases acts.moved t with kept | none | free | mine | ⟨m',ends,registered,owns'⟩
    · exact kept.trans there
    · cases there.symm.trans none
    · cases there.symm.trans free
    · simp [there,holder] at mine
    cases there.symm.trans registered
    exact absurd (owns'.only owns) same
  works c := by
    rw [acts.work]
    have other : (s.work c).outside = false → .worker c ≠ θ := by
      intro inside same
      cases inside.symm.trans (acts.out c same.symm)
    refine (party.works c).frame (pops c) (fires c) ?_ (fun m ends inside => acts.owned (other inside)) ?_
      (fun l inside => acts.locks (.worker c) l (other inside))
    · intro t m at_ decided tm' there active
      obtain ⟨tm,before,was⟩ := acts.active m tm' t there active at_
      exact decided tm before was
    intro t there
    rcases acts.moved t with kept | none | free | mine | ⟨m,ends,registered,-⟩
    · exact kept.trans there
    · cases there.symm.trans none
    · cases there.symm.trans free
    · simp [there,holder] at mine
    · cases there.symm.trans registered
  enters t θ' m there := by
    rcases acts.enters t θ' m there with ⟨kept,other⟩ | ⟨rfl,pending,at_⟩
    · obtain ⟨pending,before⟩ := party.enters t θ' m (kept.symm.trans there)
      exact ⟨pending,drowsyInserting (acts.call θ' other) before⟩
    · exact ⟨pending,acts.here.trans at_⟩
  alone := by
    have once : ∀ θ' m, θ' ≠ θ → k.destroys m → ¬ (s'.call θ').destroys m := by
      intro θ' m other mine theirs
      rw [drowsyDestroys (acts.call θ' other)] at theirs
      rcases acts.alone m mine with before | none
      · exact other (party.alone θ' θ m theirs before)
      · exact none ((party.calls θ').ends theirs)
    intro θ1 θ2 m first second
    by_cases same1 : θ1 = θ <;> by_cases same2 : θ2 = θ
    · exact same1.trans same2.symm
    · exact absurd second (once θ2 m same2 (acts.here ▸ same1 ▸ first))
    · exact absurd first (once θ1 m same1 (acts.here ▸ same2 ▸ second))
    rw [drowsyDestroys (acts.call θ1 same1)] at first
    rw [drowsyDestroys (acts.call θ2 same2)] at second
    exact party.alone θ1 θ2 m first second
  busy c inside := by
    rw [acts.work] at inside
    have other : .worker c ≠ θ := by
      intro same
      cases inside.symm.trans (acts.out c same.symm)
    rw [drowsyIdle (acts.call (.worker c) other)]
    exact party.busy c inside

structure Works (s s' : State U C M T L) (place place' : T → Place U C M) (c : C) (w : Work M T L) : Prop where
  call : ∀ θ, (s'.call θ).drowsy = (s.call θ).drowsy
  here : s'.work = Function.update s.work c w
  idle : (s.call (.worker c)).isIdle = true
  locks : ∀ θ l, θ ≠ .worker c → s.owner l = some θ → s'.owner l = some θ
  others : ∀ θ m tm, θ ≠ .worker c → s.timer m = some tm → s.owner tm.lock = some θ → s'.timer m = some tm
  ending : ∀ m, Ends s m → Ends s' m
  active : ∀ m tm' t, s'.timer m = some tm' → tm'.active = some t → ∃ tm, s.timer m = some tm ∧ tm.active = some t
  moved : ∀ t, place' t = place t ∨ place t = .leaving c ∨ ∃ m ends, place t = .registered m ∧ Owns s (.worker c) m ends
  tasks : ∀ t p, s.task t = some p → p.worker ≠ c → s'.task t = some p ∧ place' t = place t
  leaving : ∀ t c', c' ≠ c → place t = .leaving c' → place' t = .leaving c'
  enters : ∀ t θ m, place' t = .entering θ m → place t = .entering θ m

lemma Works.owned (runs : Works s s' place place' c w) {ends : Bool} (other : θ ≠ .worker c)
    (owns : Owns s θ m ends) : Owns s' θ m ends := by
  obtain ⟨tm,there,lock,flag⟩ := owns
  exact ⟨tm,runs.others θ m tm other there lock,runs.locks θ tm.lock other lock,flag⟩

lemma Party.runs (party : Party s place) (runs : Works s s' place place' c w) (ok : WorkOk s' place' c w) :
    Party s' place' where
  calls θ := by
    by_cases same : θ = .worker c
    · subst θ
      have idle := runs.idle
      rw [← drowsyIdle (runs.call (.worker c))] at idle
      cases at_ : s'.call (.worker c) with
      | idle result => trivial
      | _ => simp [at_,isIdle] at idle
    refine CallOk.drowsy (runs.call θ) ((party.calls θ).frame (fun m ends => runs.owned same) (fun m _ => runs.ending m) ?_ ?_)
    · intro t holds
      rcases runs.moved t with kept | leaving | ⟨m,ends,registered,-⟩
      · exact kept
      · simp [leaving,holder] at holds
      · simp [registered,holder] at holds
    intro t m there owns
    rcases runs.moved t with kept | leaving | ⟨m',ends,registered,owns'⟩
    · exact kept.trans there
    · cases there.symm.trans leaving
    cases there.symm.trans registered
    exact absurd (owns'.only owns) same
  works c' := by
    rw [runs.here,Function.update_apply]
    split
    · subst c'
      exact ok
    rename_i other
    have differ : Thread.worker c' ≠ (.worker c : Thread U C) := fun same => other (Thread.worker.inj same)
    refine (party.works c').frame ?_ ?_ ?_ (fun m ends _ => runs.owned differ) (fun t => runs.leaving t c' other)
      (fun l _ => runs.locks (.worker c') l differ)
    · rintro t n - ⟨p,there,worker,rest⟩
      obtain ⟨task,kept⟩ := runs.tasks t p there (worker ▸ other)
      exact ⟨p,task,worker,kept ▸ rest⟩
    · rintro t m n ⟨at_,p,there,worker,rest⟩
      obtain ⟨task,kept⟩ := runs.tasks t p there (worker ▸ other)
      exact ⟨kept.trans at_,p,task,worker,rest⟩
    intro t m _ decided tm' there active
    obtain ⟨tm,before,was⟩ := runs.active m tm' t there active
    exact decided tm before was
  enters t θ m there := by
    obtain ⟨pending,before⟩ := party.enters t θ m (runs.enters t θ m there)
    exact ⟨pending,drowsyInserting (runs.call θ) before⟩
  alone θ θ' m first second := by
    rw [drowsyDestroys (runs.call θ)] at first
    rw [drowsyDestroys (runs.call θ')] at second
    exact party.alone θ θ' m first second
  busy c' inside := by
    rw [drowsyIdle (runs.call (.worker c'))]
    rw [runs.here,Function.update_apply] at inside
    split at inside
    · subst c'
      exact runs.idle
    · exact party.busy c' inside

end OsvKernel.TimerTask
