import OsvKernel.TimerTaskInv

/-! Each step of timer_task and its workers keeps the invariant. -/
namespace OsvKernel.TimerTask
open List Function Option

variable {U C M T L : Type} [DecidableEq U] [DecidableEq C] [DecidableEq M] [DecidableEq T] [DecidableEq L]
  {s s' : State U C M T L} {place place' : T → Place U C M} {θ : Thread U C} {c : C} {m : M} {t : T} {l : L} {n : Nat}
  {p : Percpu C M} {tm : Timer T L} {k : Call M T}

open State

lemma TimerOk.frame {x : Option (Timer T L)} (ok : TimerOk place m x)
    (same : ∀ t, (place' t).timer = some m ↔ (place t).timer = some m) : TimerOk place' m x := by
  rcases x with _ | tm
  · exact fun t at_ => ok t ((same t).mp at_)
  obtain ⟨once,listed,active,ends⟩ := ok
  exact ⟨once,fun t => (listed t).trans (same t).symm,fun t at_ => (same t).mpr (active t at_),ends⟩

lemma Queues.same (queues : Queues s place) (task : s'.task = s.task) (timers : s'.timers = s.timers)
    (released : s'.released = s.released) : Queues s' place := by
  obtain ⟨timersIff,timersOnce,releasedAt,releasedOnce⟩ := queues
  refine ⟨?_,timers ▸ timersOnce,?_,released ▸ releasedOnce⟩
  · rw [timers,task]
    exact timersIff
  rw [released,task]
  exact releasedAt

lemma Inv.calls (inv : Inv s place) (acts : Acts s s' place place θ k) (ok : CallOk s' place θ k) (sound : s'.failed = false)
    (task : s'.task = s.task) (timers : s'.timers = s.timers) (released : s'.released = s.released)
    (timer : ∀ m, TimerOk place m (s'.timer m)) (numbers : Numbers s' place) : Inv s' place := by
  refine ⟨sound,fun t => task ▸ inv.fits t,timer,inv.queues.same task timers released,?_,numbers⟩
  refine inv.party.acts acts ok (fun c t n _ pops => ?_) (fun c t m n fires => ?_)
  · simpa only [Pops,task] using pops
  · simpa only [Fires,task] using fires

variable {tm' : Timer T L} {pending : Bool} {θ' : Thread U C} {q : Place U C M}

lemma timerSame (same : q.timer = (place t).timer) {u : T} : (update place t q u).timer = (place u).timer := by
  rw [update_apply]
  split
  next eq => rw [same,eq]
  · rfl

lemma Inv.setsTimer (inv : Inv s place) (there : s.timer m = some tm)
    (regs : tm'.registrations = tm.registrations) (active : tm'.active = none) (m' : M) :
    TimerOk place m' (update s.timer m (some tm') m') := by
  rw [update_apply]
  split
  · subst m'
    obtain ⟨once,listed,-,-⟩ := inv.timerAt there
    exact ⟨regs ▸ once,regs ▸ listed,fun t at_ => (nomatch active.symm.trans at_),fun _ => active⟩
  · exact inv.timers m'

lemma inactiveKept {m' : M} {tm2 : Timer T L} (inactive : tm'.active = none)
    (after : update s.timer m (some tm') m' = some tm2) (active : tm2.active = some t) : s.timer m' = some tm2 := by
  rw [update_apply] at after
  split at after
  · cases after
    cases inactive.symm.trans active
  · exact after

lemma outsideWorker (out : s.outside θ = true) (c : C) (same : θ = .worker c) : (s.work c).outside = true := by
  subst same
  exact (Bool.and_eq_true_iff.mp out).2

lemma outsideIdle (out : s.outside θ = true) : (s.call θ).isIdle = true := (Bool.and_eq_true_iff.mp out).1

lemma Inv.calling (inv : Inv s place) (inside : (s.call θ).isIdle = false) (c : C) (same : θ = .worker c) :
    (s.work c).outside = true := by
  subst same
  by_contra out
  cases inside.symm.trans (inv.party.busy c (Bool.eq_false_iff.mpr out))

lemma idleOk (idle : k.isIdle = true) : CallOk s place θ k := by
  cases k with
  | idle result => trivial
  | _ => cases idle

lemma idleDestroys (idle : k.isIdle = true) : ¬ k.destroys m := by
  cases k with
  | idle result => exact id
  | _ => cases idle

lemma idleNotInserting (idle : k.isIdle = true) : k ≠ .inserting m pending t := by
  rintro rfl
  cases idle

section
variable (inv : Inv s place)
include inv

lemma Inv.entersOther (not : ∀ t m pending, s.call θ ≠ .inserting m pending t)
    (there : place t = .entering θ' m) : θ' ≠ θ := by
  rintro rfl
  obtain ⟨pending,at_⟩ := inv.party.enters t θ' m there
  exact not t m pending at_

lemma Inv.numbersStill (regs : s'.regs = s.regs) (ran : s'.ran = s.ran)
    (superseded : s'.superseded = s.superseded) (task : s'.task = s.task) (work : s'.work = s.work)
    (timers : ∀ m tm' t, s'.timer m = some tm' → tm'.active = some t → ∃ tm, s.timer m = some tm ∧ tm.active = some t) :
    Numbers s' place := by
  refine inv.numbers.frame regs ran superseded (fun t p' there at_ => ⟨at_,p',task ▸ there,rfl,id⟩) ?_
    (fun c t m n at_ => .inl (work ▸ at_))
  intro m tm' t there active
  obtain ⟨tm,before,was⟩ := timers m tm' t there active
  exact ⟨by simp [inv.activePlaced before was],tm,before,was⟩

lemma Inv.constructs (out : s.outside θ = true) (unused : s.timer m = none) (l : L) :
    Inv (s.setTimer m {lock := l,active := none,registrations := [],terminating := false}) place := by
  have away : ∀ m' tm', s.timer m' = some tm' → m' ≠ m := by
    rintro m' tm' there rfl
    cases there.symm.trans unused
  have idle := outsideIdle out
  have kept : ∀ m' tm' t, update s.timer m (some {lock := l,active := none,registrations := [],terminating := false}) m' = some tm' →
      tm'.active = some t → ∃ tm, s.timer m' = some tm ∧ tm.active = some t := fun _ tm' _ there active =>
    ⟨tm',inactiveKept rfl there active,active⟩
  refine inv.calls (θ := θ) (k := s.call θ) ?_ (idleOk idle) inv.sound rfl rfl rfl ?_ ?_
  · constructor
    case call => exact fun _ _ => rfl
    case here | work => rfl
    case out => exact outsideWorker out
    case locks => exact fun _ _ _ => id
    case others => exact fun m' tm' there _ => (update_of_ne (away m' tm' there) _ _).trans there
    case ending =>
      rintro m' ⟨tm',there,ends⟩
      exact .inl ⟨tm',(update_of_ne (away m' tm' there) _ _).trans there,ends⟩
    case active => exact fun m' tm' t there active _ => kept m' tm' t there active
    case moved => exact fun _ => .inl rfl
    case enters => exact fun t θ' m' there => .inl ⟨rfl,inv.entersOther (fun _ _ _ => idleNotInserting idle) there⟩
    case alone => exact fun m' destroys => absurd destroys (idleDestroys idle)
  · intro m'
    simp only [setTimer,update_apply]
    split
    · subst m'
      have none := inv.timerAt unused
      exact ⟨nodup_nil,fun t => ⟨nofun,fun at_ => absurd at_ (none t)⟩,nofun,nofun⟩
    · exact inv.timers m'
  · exact inv.numbersStill rfl rfl rfl rfl rfl kept

lemma Inv.still (acts : Acts s s' place place θ k) (ok : CallOk s' place θ k)
    (sound : s'.failed = s.failed) (task : s'.task = s.task) (timers : s'.timers = s.timers) (released : s'.released = s.released)
    (timer : s'.timer = s.timer) (regs : s'.regs = s.regs) (ran : s'.ran = s.ran) (superseded : s'.superseded = s.superseded) :
    Inv s' place :=
  inv.calls acts ok (sound.trans inv.sound) task timers released (fun m => timer ▸ inv.timers m)
    (inv.numbersStill regs ran superseded task acts.work fun _ tm' _ there active => ⟨tm',timer ▸ there,active⟩)

lemma Inv.actsStill (out : ∀ c, θ = .worker c → (s.work c).outside = true)
    (call : s'.call = update s.call θ k) (work : s'.work = s.work) (timer : s'.timer = s.timer)
    (locks : ∀ θ' l, θ' ≠ θ → s.owner l = some θ' → s'.owner l = some θ')
    (not : ∀ t m pending, s.call θ ≠ .inserting m pending t)
    (alone : ∀ m, k.destroys m → (s.call θ).destroys m ∨ ¬ Ends s m) : Acts s s' place place θ k where
  call θ' other := by rw [call,update_of_ne other]
  here := by rw [call,update_self]
  work := work
  out := out
  locks := locks
  others m tm there _ := timer ▸ there
  ending m ends := .inl (by simpa only [Ends,timer] using ends)
  active m tm' t there active _ := ⟨tm',timer ▸ there,active⟩
  moved _ := .inl rfl
  enters t θ' m there := .inl ⟨rfl,inv.entersOther not there⟩
  alone := alone

end

lemma ownerKept {next : Option (Thread U C)} (free : s.owner l = none ∨ s.owner l = some θ)
    (other : θ' ≠ θ) {l' : L} (owns : s.owner l' = some θ') : update s.owner l next l' = some θ' := by
  have away : l' ≠ l := by
    rintro rfl
    rcases free with none | mine
    · cases none.symm.trans owns
    exact other (some.inj (owns.symm.trans mine))
  rw [update_of_ne away]
  exact owns

lemma Inv.locks (inv : Inv s place) (out : s.outside θ = true) (free : s.owner l = none ∨ s.owner l = some θ)
    (next : Option (Thread U C)) : Inv (s.setOwner l next) place := by
  have idle := outsideIdle out
  refine inv.still (θ := θ) (k := s.call θ) ?_ (idleOk idle) rfl rfl rfl rfl rfl rfl rfl rfl
  exact inv.actsStill (outsideWorker out) (update_eq_self θ s.call).symm rfl rfl
    (fun _ _ other owns => ownerKept free other owns) (fun _ _ _ => idleNotInserting idle)
    fun _ destroys => absurd destroys (idleDestroys idle)

lemma CallOk.same (ok : CallOk s place θ k) (timer : s'.timer = s.timer) (owner : s'.owner = s.owner) :
    CallOk s' place θ k := by
  refine ok.frame ?_ ?_ (fun _ _ => rfl) (fun _ _ at_ _ => at_)
  · rintro m ends ⟨tm,there,owns,flag⟩
    exact ⟨tm,timer ▸ there,owner ▸ owns,flag⟩
  rintro m - ⟨tm,there,ends⟩
  exact ⟨tm,timer ▸ there,ends⟩

lemma Inv.goes (inv : Inv s place) (out : ∀ c, θ = .worker c → (s.work c).outside = true)
    (not : ∀ t m pending, s.call θ ≠ .inserting m pending t) (ok : CallOk s place θ k)
    (alone : ∀ m, k.destroys m → (s.call θ).destroys m ∨ ¬ Ends s m) : Inv (s.go θ k) place :=
  inv.still (inv.actsStill out rfl rfl rfl (fun _ _ _ => id) not alone) (ok.same rfl rfl) rfl rfl rfl rfl rfl rfl rfl rfl

lemma Inv.registered (inv : Inv s place) {ends : Bool} (owns : Owns s θ m ends)
    (not : ∀ t m pending, s.call θ ≠ .inserting m pending t) (at_ : (place t).timer = some m) : place t = .registered m := by
  generalize there : place t = x at at_ ⊢
  cases x with
  | registered m' => exact congrArg _ (some.inj at_)
  | entering θ' m' =>
    cases at_
    obtain ⟨pending,call⟩ := inv.party.enters t θ' m there
    have ok := inv.party.calls θ'
    rw [call] at ok
    cases owns.only ok.1
    exact absurd call (not t m pending)
  | _ => simp [Place.timer] at at_

lemma Inv.taskAt (inv : Inv s place) (at_ : place t = .registered m) :
    ∃ p, s.task t = some p ∧ p.master = some m ∧ (p.state = .active ∨ p.state = .firing ∧ p.queued = false) := by
  have fits := inv.placed at_
  exact fits

section
variable (there : s.timer m = some tm) {m' : M} {tm2 : Timer T L}
include there

lemma timerOther (differ : tm2 ≠ tm) (before : s.timer m' = some tm2) : update s.timer m (some tm') m' = some tm2 := by
  refine (update_of_ne ?_ _ _).trans before
  rintro rfl
  exact differ (Option.some.inj (before.symm.trans there))

lemma timerEnds (ends : tm.terminating = true → tm'.terminating = true) (ending : Ends s m') :
    ∃ tm, update s.timer m (some tm') m' = some tm ∧ tm.terminating = true := by
  obtain ⟨tm2,before,flag⟩ := ending
  by_cases same : m' = m
  · subst m'
    cases there.symm.trans before
    exact ⟨tm',update_self _ _ _,ends flag⟩
  · exact ⟨tm2,(update_of_ne same _ _).trans before,flag⟩

lemma timerActive (less : m' = m → tm'.active = some t → tm.active = some t)
    (after : update s.timer m (some tm') m' = some tm2) (active : tm2.active = some t) :
    ∃ tm, s.timer m' = some tm ∧ tm.active = some t := by
  rw [update_apply] at after
  split at after
  next same =>
    cases after
    exact ⟨tm,same ▸ there,less same active⟩
  · exact ⟨tm2,after,active⟩

end

lemma actsTimer (out : ∀ c, θ = .worker c → (s.work c).outside = true)
    (there : s.timer m = some tm) (owns : s.owner tm.lock = some θ)
    (call : ∀ θ', θ' ≠ θ → (s'.call θ').drowsy = (s.call θ').drowsy) (here : s'.call θ = k) (work : s'.work = s.work)
    (timer : s'.timer = update s.timer m (some tm')) (owner : s'.owner = s.owner)
    (ends : tm.terminating = true → tm'.terminating = true)
    (active : ∀ t, tm'.active = some t → place t = .registered m → tm.active = some t)
    (moved : ∀ t, place' t = place t ∨ Takes s θ (place t))
    (enters : ∀ t θ' m, place' t = .entering θ' m →
      place' t = place t ∧ θ' ≠ θ ∨ θ' = θ ∧ ∃ pending, k = .inserting m pending t)
    (alone : ∀ m, k.destroys m → (s.call θ).destroys m ∨ ¬ Ends s m) : Acts s s' place place' θ k where
  call := call
  here := here
  work := work
  out := out
  locks _ _ _ := owner ▸ id
  others m' tm2 before away := timer ▸ timerOther there (fun same => away (same ▸ owns)) before
  ending m' ending := .inl (by rw [Ends,timer]; exact timerEnds there ends ending)
  active m' tm2 t after at_ registered := timerActive there (fun same at_ => active t at_ (same ▸ registered)) (timer ▸ after) at_
  moved := moved
  enters := enters
  alone := alone

lemma Inv.supersedes (inv : Inv s place) (out : s.outside θ = true) (there : s.timer m = some tm)
    (owns : s.owner tm.lock = some θ) (active : tm.active = some t) (task : s.task t = some p) :
    Inv ({s with superseded := p.reg::s.superseded}.setTimer m {tm with active := none}) place := by
  have idle := outsideIdle out
  have at_ := inv.activePlaced there active
  refine inv.calls (θ := θ) (k := s.call θ) ?_ (idleOk idle) inv.sound rfl rfl rfl (inv.setsTimer there rfl rfl) ?_
  · exact actsTimer (outsideWorker out) there owns (fun _ _ => rfl) rfl rfl rfl rfl id nofun (fun _ => .inl rfl)
      (fun t θ' m there => .inl ⟨rfl,inv.entersOther (fun _ _ _ => idleNotInserting idle) there⟩)
      (fun _ destroys => absurd destroys (idleDestroys idle))
  have numbers := inv.numbers
  refine {numbers with gone := ?_,live := ?_}
  · intro n mem
    rcases mem_cons.mp mem with rfl | mem
    · exact ⟨numbers.below t p task (by simp [at_]),(numbers.live m tm t p there active task).1⟩
    · exact numbers.gone n mem
  intro m' tm' u q there' active' task'
  simp only [setTimer,update_apply] at there'
  split at there'
  · cases there'
    cases active'
  rename_i other
  have live := numbers.live m' tm' u q there' active' task'
  refine ⟨live.1,fun mem => ?_⟩
  rcases mem_cons.mp mem with same | mem
  · have at' := inv.activePlaced there' active'
    cases numbers.distinct u t q p task' task (by simp [at']) (by simp [at_]) same
    exact other (some.inj (at'.symm.trans at_))
  · exact live.2 mem

lemma freeKept {q : Place U C M} (busy : place t ≠ .free) (u : T) (free : place u = .free) : update place t q u = .free := by
  rwa [update_of_ne fun same : u = t => busy (same ▸ free)]

lemma listedErase {q : Place U C M} {l : List T} (once : l.Nodup) (listed : ∀ u, u ∈ l ↔ (place u).timer = some m)
    (gone : q.timer = none) (u : T) : u ∈ l.erase t ↔ (update place t q u).timer = some m := by
  rw [once.mem_erase_iff,listed,update_apply]
  split
  next same => simp [same,gone]
  next other => simp [other]

lemma Inv.timerSet {q : Place U C M} (inv : Inv s place) (timer : s'.timer = update s.timer m (some tm))
    (only : ∀ m', m' ≠ m → (q.timer = some m' ↔ (place t).timer = some m')) (ok : TimerOk (update place t q) m (some tm))
    (m' : M) : TimerOk (update place t q) m' (s'.timer m') := by
  rw [timer,update_apply]
  split
  next same => exact same ▸ ok
  rename_i other
  refine (inv.timers m').frame fun u => ?_
  rw [update_apply]
  split
  next same => exact same ▸ only m' other
  · exact Iff.rfl

lemma Queues.setTask (queues : Queues s place) {p' : Percpu C M} (task : s.task t = some p)
    (tasks : s'.task = update s.task t (some p')) (worker : p'.worker = p.worker) (queued : p'.queued = p.queued)
    (timers : s'.timers = s.timers) (released : s'.released = s.released)
    (kept : ∀ u, place u = .free → place' u = .free) : Queues s' place' := by
  obtain ⟨timersIff,timersOnce,releasedAt,releasedOnce⟩ := queues
  refine ⟨fun c u => ?_,timers ▸ timersOnce,fun c u mem => ?_,released ▸ releasedOnce⟩
  · rw [timers,timersIff,tasks,update_apply]
    split
    · subst u
      simp [task,worker,queued]
    · rfl
  rw [released] at mem
  obtain ⟨free,q,there,at_⟩ := releasedAt c u mem
  refine ⟨kept u free,?_⟩
  rw [tasks,update_apply]
  split
  · subst u
    cases task.symm.trans there
    exact ⟨p',rfl,worker.trans at_⟩
  · exact ⟨q,there,at_⟩

section
variable (inv : Inv s place)
include inv

lemma Inv.fitsAt {x : Option (Percpu C M)} (fits : q.Fits x) (u : T) :
    (update place t q u).Fits (update s.task t x u) := by
  simp only [update_apply]
  split
  · exact fits
  · exact inv.fits u

lemma Inv.revokes (out : ∀ c, θ = .worker c → (s.work c).outside = true)
    (not : ∀ t m pending, s.call θ ≠ .inserting m pending t) (there : s.timer m = some tm) (owns : s.owner tm.lock = some θ)
    (at_ : place t = .registered m) (task : s.task t = some p) (active : p.state = .active)
    (inactive : tm.active = none) (sound : s'.failed = false)
    (call : ∀ θ', θ' ≠ θ → (s'.call θ').drowsy = (s.call θ').drowsy) (here : s'.call θ = .freeing t k)
    (tasks : s'.task = update s.task t (some {p with state := .released}))
    (timer : s'.timer = update s.timer m (some {tm with registrations := tm.registrations.erase t}))
    (timers : s'.timers = s.timers) (released : s'.released = s.released) (owner : s'.owner = s.owner)
    (work : s'.work = s.work) (regs : s'.regs = s.regs) (ran : s'.ran = s.ran) (superseded : s'.superseded = s.superseded)
    (light : k.light = true) (ok : CallOk s' (update place t (.freeing θ)) θ k)
    (alone : ∀ m, k.destroys m → (s.call θ).destroys m ∨ ¬ Ends s m) : Inv s' (update place t (.freeing θ)) := by
  have away : ∀ u, u ≠ t → update place t (.freeing θ) u = place u := fun u other => update_of_ne other _ _
  have acts : Acts s s' place (update place t (.freeing θ)) θ (.freeing t k) := by
    refine actsTimer out there owns call here work timer owner id (fun _ eq _ => eq) (fun u => ?_) (fun u θ' m' there' => ?_) alone
    · by_cases same : u = t
      · subst u
        exact .inr (.inr (.inr (.inr ⟨m,tm.terminating,at_,tm,there,owns,rfl⟩)))
      · exact .inl (away u same)
    by_cases same : u = t
    · subst u
      simp at there'
    rw [away u same] at there' ⊢
    exact .inl ⟨rfl,inv.entersOther not there'⟩
  obtain ⟨once,listed,-,-⟩ := inv.timerAt there
  constructor
  case sound => exact sound
  case fits =>
    rw [tasks]
    exact inv.fitsAt ⟨_,rfl,rfl⟩
  case timers =>
    refine inv.timerSet timer (fun m' other => ?_)
      ⟨once.erase t,listedErase once listed rfl,fun u eq => (nomatch inactive.symm.trans eq),fun _ => inactive⟩
    rw [at_]
    exact ⟨nofun,fun eq => absurd (some.inj eq).symm other⟩
  case queues => exact inv.queues.setTask task tasks rfl rfl timers released (freeKept (by simp [at_]))
  case party =>
    refine inv.party.acts acts ⟨update_self _ _ _,light,ok⟩ ?_ ?_
    · rintro c u n - ⟨q,there',worker,queued,armed,number⟩
      by_cases same : u = t
      · subst u
        cases task.symm.trans there'
        refine ⟨{p with state := .released},by rw [tasks,update_self],worker,queued,?_,nofun⟩
        rw [update_self]
        trivial
      · exact ⟨q,by rw [tasks,update_of_ne same,there'],worker,queued,by rwa [away u same],number⟩
    rintro c u m' n ⟨at',q,there',worker,state,number⟩
    have other : u ≠ t := by
      rintro rfl
      cases task.symm.trans there'
      cases active.symm.trans state
    exact ⟨by rw [away u other,at'],q,by rw [tasks,update_of_ne other,there'],worker,state,number⟩
  refine inv.numbers.frame regs ran superseded ?_ ?_ (fun c t m n firing => .inl (work ▸ firing))
  · intro u q there' at'
    by_cases same : u = t
    · subst u
      simp [Place.timer] at at'
    rw [tasks,update_of_ne same] at there'
    rw [away u same] at at'
    exact ⟨at',q,there',rfl,id⟩
  intro m' tm' u there' active'
  rw [timer,update_apply] at there'
  split at there'
  · cases there'
    cases inactive.symm.trans active'
  rename_i other
  have at' := inv.activePlaced there' active'
  refine ⟨?_,tm',there',active'⟩
  have differ : u ≠ t := by
    rintro rfl
    rw [at_] at at'
    exact other (some.inj at').symm
  rw [away u differ,at']
  nofun

lemma Inv.partyMoves (acts : Acts s s' place (update place t q) θ k)
    (ok : CallOk s' (update place t q) θ k) (tasks : ∀ u, u ≠ t → s'.task u = s.task u)
    (unregistered : ∀ m, place t ≠ .registered m)
    (pops : ∀ c n, (s.work c).locked = true → Pops s place c t n → Pops s' (update place t q) c t n) :
    Party s' (update place t q) := by
  refine inv.party.acts acts ok (fun c u n locked there => ?_) (fun c u m n there => ?_)
  · by_cases same : u = t
    · subst u
      exact pops c n locked there
    · simpa only [Pops,tasks u same,update_of_ne same] using there
  have other : u ≠ t := by
    rintro rfl
    exact unregistered m there.1
  simpa only [Fires,tasks u other,update_of_ne other] using there

lemma Inv.timersMove (same : q.timer = (place t).timer) (timer : s'.timer = s.timer)
    (m : M) : TimerOk (update place t q) m (s'.timer m) := by
  rw [timer]
  exact (inv.timers m).frame fun u => by rw [timerSame same]

lemma Inv.actsTask (inside : (s.call θ).isIdle = false) (takes : Takes s θ (place t))
    (entering : ∀ θ m, q ≠ .entering θ m) (mine : ∀ u m, place u = .entering θ m → u = t)
    (call : s'.call = update s.call θ k) (work : s'.work = s.work) (timer : s'.timer = s.timer)
    (owner : s'.owner = s.owner) (alone : ∀ m, k.destroys m → (s.call θ).destroys m ∨ ¬ Ends s m) :
    Acts s s' place (update place t q) θ k where
  call θ' other := by rw [call,update_of_ne other]
  here := by rw [call,update_self]
  work := work
  out := inv.calling inside
  locks _ _ _ := owner ▸ id
  others m tm there _ := timer ▸ there
  ending m ends := .inl (by simpa only [Ends,timer] using ends)
  active m tm' u there active _ := ⟨tm',timer ▸ there,active⟩
  moved u := by
    rw [update_apply]
    split
    next same => exact .inr (same ▸ takes)
    · exact .inl rfl
  enters u θ' m there := by
    rw [update_apply] at there ⊢
    split at there
    · exact absurd there (entering θ' m)
    rename_i other
    rw [if_neg other]
    refine .inl ⟨rfl,?_⟩
    rintro rfl
    exact other (mine u m there)
  alone := alone

lemma Inv.entersNone (not : ∀ t m pending, s.call θ ≠ .inserting m pending t) : ∀ u m, place u = .entering θ m → u = t :=
  fun _ _ there => absurd rfl (inv.entersOther not there)

lemma Inv.numbersMove (p' : Percpu C M) (tasks : s'.task = update s.task t (some p')) (timer : s'.timer = s.timer)
    (work : s'.work = s.work) (regs : s'.regs = s.regs) (ran : s'.ran = s.ran) (superseded : s'.superseded = s.superseded)
    (same : q.timer = (place t).timer)
    (kept : q.timer ≠ none → ∃ p, s.task t = some p ∧ p'.reg = p.reg ∧ (p'.state = .active → p.state = .active)) :
    Numbers s' (update place t q) := by
  refine inv.numbers.frame regs ran superseded (fun u p'' there at_ => ?_) (fun m tm' u there active => ?_)
    (fun c t m n firing => .inl (work ▸ firing))
  · rw [timerSame same] at at_
    refine ⟨at_,?_⟩
    rw [tasks,update_apply] at there
    split at there
    next eq =>
      cases there
      subst eq
      exact kept (same ▸ at_)
    · exact ⟨p'',there,rfl,id⟩
  rw [timer] at there
  refine ⟨?_,tm',there,active⟩
  rw [timerSame same,inv.activePlaced there active]
  nofun

end

lemma Queues.push (queues : Queues s place) (task : s.task t = some p) (out : place t ≠ .free) (tasks : s'.task = s.task)
    (timers : s'.timers = s.timers) (released : s'.released = update s.released p.worker (t::s.released p.worker)) :
    Queues s' (update place t .free) := by
  obtain ⟨timersIff,timersOnce,releasedAt,releasedOnce⟩ := queues
  refine ⟨fun c u => ?_,timers ▸ timersOnce,fun c u mem => ?_,fun c => ?_⟩
  · rw [timers,tasks]
    exact timersIff c u
  · rw [released,update_apply] at mem
    have before : u = t ∧ c = p.worker ∨ u ∈ s.released c := by
      split at mem
      next worker =>
        rcases mem_cons.mp mem with same | mem
        · exact .inl ⟨same,worker⟩
        · exact .inr (worker ▸ mem)
      · exact .inr mem
    rw [tasks]
    rcases before with ⟨rfl,rfl⟩ | mem
    · exact ⟨update_self _ _ _,p,task,rfl⟩
    obtain ⟨free,rest⟩ := releasedAt c u mem
    exact ⟨by simp [update_apply,free],rest⟩
  rw [released,update_apply]
  split
  · exact nodup_cons.mpr ⟨fun mem => out (releasedAt p.worker t mem).1,releasedOnce p.worker⟩
  · exact releasedOnce c

lemma Inv.freed (inv : Inv s place) {next : Call M T} (at_ : s.call θ = .freeing t next) :
    Inv ((s.free t).go θ next) (update place t .free) := by
  obtain ⟨here,light,ok⟩ := inv.callAt at_
  obtain ⟨p,task,state⟩ := inv.placed here
  have task : s.task t = some p := task
  have same : Place.timer (.free : Place U C M) = (place t).timer := by rw [here]; rfl
  simp only [free,task]
  constructor
  case sound => exact inv.sound
  case fits =>
    have fits := inv.fitsAt (t := t) (q := .free) (x := some p) ⟨p,rfl,state⟩
    rwa [← task,update_eq_self] at fits
  case timers => exact inv.timersMove same rfl
  case queues => exact inv.queues.push task (by simp [here]) rfl rfl rfl
  case party =>
    refine inv.partyMoves (inv.actsTask (by rw [at_]; rfl) (.inr (.inr (.inl (by rw [here]; rfl)))) nofun
      (inv.entersNone (by simp [at_])) rfl rfl rfl rfl (fun m destroys => .inl (by rw [at_]; exact destroys))) ?_
      (fun _ _ => rfl) (by simp [here]) ?_
    · refine ok.light light (fun _ _ => id) fun u m registered => ?_
      rw [update_of_ne (by rintro rfl; simp [here] at registered)]
      exact registered
    rintro c n - ⟨q,there,worker,queued,-,number⟩
    refine ⟨q,there,worker,queued,?_,number⟩
    rw [update_self]
    trivial
  case numbers =>
    have eq : s.task = update s.task t (some p) := by rw [← task,update_eq_self]
    exact inv.numbersMove p eq rfl rfl rfl rfl rfl same nofun

lemma Queues.unqueue (queues : Queues s place) (s' : State U C M T L) (task : s.task t = some p)
    (tasks : s'.task = update s.task t (some {p with queued := false}))
    (timers : s'.timers = update s.timers p.worker ((s.timers p.worker).erase t)) :
    (∀ c u, u ∈ s'.timers c ↔ ∃ q, s'.task u = some q ∧ q.worker = c ∧ q.queued = true) ∧ ∀ c, (s'.timers c).Nodup := by
  constructor
  · intro c u
    rw [timers,tasks,update_apply,update_apply]
    have before := queues.timers c u
    by_cases same : u = t
    · subst u
      simp only [task,some.injEq,exists_eq_left'] at before
      split
      · simp [(queues.timersOnce p.worker).mem_erase_iff]
      next other => simp [before,Ne.symm other]
    split
    next worker =>
      subst c
      simp [(queues.timersOnce p.worker).mem_erase_iff,same,before]
    · simp [before]
  intro c
  rw [timers,update_apply]
  split
  · exact (queues.timersOnce p.worker).erase t
  · exact queues.timersOnce c

section
variable (inv : Inv s place)
include inv

lemma Inv.reuseEq (task : s.task t = some p) (worker : p.worker = c) :
    s.reuse c t = {s with task := update s.task t (some {p with queued := false}),
                          timers := update s.timers c ((s.timers c).erase t),
                          released := update s.released c ((s.released c).erase t)} := by
  have listed := inv.queues.timers c t
  simp only [task,some.injEq,exists_eq_left'] at listed
  simp only [reuse,task]
  cases queued : p.queued
  case true => simp [listed.mpr ⟨worker,queued⟩,setTask]
  have out : t ∉ s.timers c := fun mem => nomatch queued.symm.trans (listed.mp mem).2
  have same : {p with queued := false} = p := by rw [← queued]
  rw [erase_of_not_mem out,update_eq_self,same,← task,update_eq_self]
  rfl

lemma Inv.borrows (at_ : s.call θ = .borrowing m pending) (unlocked : (s.work c).locked = false) (mem : t ∈ s.released c) :
    Inv ((s.reuse c t).go θ (.borrowed m pending t)) (update place t (.preparing θ)) := by
  obtain ⟨here,p,task,worker⟩ := inv.queues.released c t mem
  obtain ⟨p',task',state⟩ := inv.placed here
  cases task.symm.trans task'
  have ok := inv.callAt at_
  have same : Place.timer (.preparing θ : Place U C M) = (place t).timer := by rw [here]; rfl
  rw [inv.reuseEq task worker]
  subst worker
  constructor
  case sound => exact inv.sound
  case fits => exact inv.fitsAt ⟨_,rfl,rfl,.inl state⟩
  case timers => exact inv.timersMove same rfl
  case queues =>
    obtain ⟨timersIff,timersOnce⟩ := inv.queues.unqueue
      {s with task := update s.task t (some {p with queued := false}),
              timers := update s.timers p.worker ((s.timers p.worker).erase t)} task rfl rfl
    have once := inv.queues.releasedOnce
    refine ⟨timersIff,timersOnce,fun c u there => ?_,fun c => ?_⟩
    · have was : u ∈ s.released c ∧ u ≠ t := by
        simp only [go,update_apply] at there
        split at there
        next worker =>
          rw [worker]
          exact ((once p.worker).mem_erase_iff.mp there).symm
        rename_i other
        refine ⟨there,?_⟩
        rintro rfl
        obtain ⟨-,q,task',at'⟩ := inv.queues.released c u there
        cases task.symm.trans task'
        exact other at'.symm
      obtain ⟨free,q,there,at'⟩ := inv.queues.released c u was.1
      simp only [go,update_of_ne was.2]
      exact ⟨free,q,there,at'⟩
    simp only [go,update_apply]
    split
    · exact (once p.worker).erase t
    · exact once c
  case party =>
    refine inv.partyMoves (inv.actsTask (by rw [at_]; rfl) (.inr (.inl here)) nofun (inv.entersNone (by simp [at_])) rfl rfl
      rfl rfl (fun m destroys => destroys.elim)) ⟨ok,update_self _ _ _⟩
      (fun u other => update_of_ne other _ _) (by simp [here]) ?_
    rintro c n locked ⟨q,there,worker,-⟩
    cases task.symm.trans there
    subst worker
    cases locked.symm.trans unlocked
  case numbers => exact inv.numbersMove {p with queued := false} rfl rfl rfl rfl rfl rfl same nofun

lemma Inv.allocates (at_ : s.call θ = .borrowing m pending) (task : s.task t = none)
    (c : C) : Inv ((s.allocate c t).go θ (.borrowed m pending t)) (update place t (.preparing θ)) := by
  have fits := inv.fits t
  have here : place t = .unborn := by
    cases at' : place t with
    | unborn => rfl
    | _ =>
      rw [at',task] at fits
      obtain ⟨q,there,-⟩ := fits
      cases there
  have ok := inv.callAt at_
  have same : Place.timer (.preparing θ : Place U C M) = (place t).timer := by rw [here]; rfl
  constructor
  case sound => exact inv.sound
  case fits => exact inv.fitsAt ⟨_,rfl,rfl,.inr rfl⟩
  case timers => exact inv.timersMove same rfl
  case queues =>
    obtain ⟨timersIff,timersOnce,releasedAt,releasedOnce⟩ := inv.queues
    refine ⟨fun c' u => ?_,timersOnce,fun c' u mem => ?_,releasedOnce⟩
    · simp only [go,allocate,setTask,timersIff,update_apply]
      split
      next eq => simp [eq,task]
      · rfl
    obtain ⟨free,q,there,worker⟩ := releasedAt c' u mem
    have other : u ≠ t := by
      rintro rfl
      cases task.symm.trans there
    simp only [go,allocate,setTask,update_of_ne other]
    exact ⟨free,q,there,worker⟩
  case party =>
    refine inv.partyMoves (inv.actsTask (by rw [at_]; rfl) (.inl here) nofun (inv.entersNone (by simp [at_])) rfl rfl rfl rfl
      (fun m destroys => destroys.elim)) ⟨ok,update_self _ _ _⟩ (fun u other => update_of_ne other _ _)
      (by simp [here]) ?_
    rintro c n - ⟨q,there,-⟩
    cases task.symm.trans there
  case numbers => exact inv.numbersMove _ rfl rfl rfl rfl rfl rfl same nofun

lemma Inv.registers (at_ : s.call θ = .borrowed m pending t) (there : s.timer m = some tm) (task : s.task t = some p) :
    Inv ((s.register m tm t p).go θ (.inserting m pending t)) (update place t (.entering θ m)) := by
  obtain ⟨⟨tm',there',owns,live⟩,here⟩ := inv.callAt at_
  cases there.symm.trans there'
  obtain ⟨p',task',queued,-⟩ := inv.placed here
  cases task.symm.trans task'
  have out : (place t).timer = none := by rw [here]; rfl
  have away : ∀ u, u ≠ t → update place t (.entering θ m) u = place u := fun u other => update_of_ne other _ _
  obtain ⟨once,listed,-,-⟩ := inv.timerAt there
  have unlisted : t ∉ tm.registrations := fun mem => nomatch out.symm.trans ((listed t).mp mem)
  have not : ∀ t m pending, s.call θ ≠ .inserting m pending t := by simp [at_]
  constructor
  case sound => exact inv.sound
  case fits => exact inv.fitsAt ⟨_,rfl,queued,rfl,rfl⟩
  case timers =>
    refine inv.timerSet rfl (fun m' other => ?_)
      ⟨nodup_cons.mpr ⟨unlisted,once⟩,fun u => ?_,fun u active => ?_,fun ends => (nomatch live.symm.trans ends)⟩
    · rw [out]
      exact ⟨fun eq => absurd (some.inj eq).symm other,nofun⟩
    · rw [mem_cons,update_apply,listed]
      split
      next same => simp [same,Place.timer]
      next other => simp [other]
    cases active
    rw [update_self]
    rfl
  case queues => exact inv.queues.setTask task rfl rfl rfl rfl rfl (freeKept (by simp [here]))
  case party =>
    refine inv.partyMoves (k := .inserting m pending t) (actsTimer (inv.calling (by rw [at_]; rfl)) there owns
      (fun θ' other => ?_) ?_ rfl rfl rfl ?_ ?_ (fun u => ?_) (fun u θ' m' there' => ?_) nofun)
      ⟨⟨_,update_self _ _ _,owns,live⟩,update_self _ _ _⟩
      (fun u other => update_of_ne other _ _) (by simp [here]) ?_
    · exact congrArg _ (update_of_ne other _ _)
    · exact update_self _ _ _
    · exact fun ends => nomatch live.symm.trans ends
    · intro u active registered
      cases active
      cases here.symm.trans registered
    · by_cases same : u = t
      · subst u
        exact .inr (.inr (.inr (.inl (by rw [here]; rfl))))
      · exact .inl (away u same)
    · by_cases same : u = t
      · subst u
        rw [update_self] at there'
        cases there'
        exact .inr ⟨rfl,pending,rfl⟩
      · rw [away u same] at there' ⊢
        exact .inl ⟨rfl,inv.entersOther not there'⟩
    rintro c n - ⟨q,-,-,-,armed,-⟩
    rw [here] at armed
    exact armed.elim
  have numbers := inv.numbers
  have fresh : s.regs ∉ s.ran := fun mem => Nat.lt_irrefl _ (numbers.ranBelow _ mem)
  have cases_ : ∀ u q, update s.task t (some {p with master := some m,state := .active,reg := s.regs}) u = some q →
      (update place t (.entering θ m) u).timer ≠ none →
      u = t ∧ q.reg = s.regs ∨ u ≠ t ∧ s.task u = some q ∧ (place u).timer ≠ none := by
    intro u q there' at'
    by_cases same : u = t
    · subst u
      rw [update_self] at there'
      cases there'
      exact .inl ⟨rfl,rfl⟩
    rw [update_of_ne same] at there'
    rw [away u same] at at'
    exact .inr ⟨same,there',at'⟩
  constructor
  · intro u q there' at'
    rcases cases_ u q there' at' with ⟨-,eq⟩ | ⟨-,before,was⟩
    · exact Nat.lt_succ_of_le (Nat.le_of_eq eq)
    · exact Nat.lt_succ_of_lt (numbers.below u q before was)
  · exact fun n mem => Nat.lt_succ_of_lt (numbers.ranBelow n mem)
  · exact fun n mem => ⟨Nat.lt_succ_of_lt (numbers.gone n mem).1,(numbers.gone n mem).2⟩
  · intro u v q r first second at1 at2 same
    rcases cases_ u q first at1 with ⟨rfl,eq⟩ | ⟨-,before,was⟩ <;> rcases cases_ v r second at2 with ⟨rfl,eq'⟩ | ⟨-,before',was'⟩
    · rfl
    · exact absurd (numbers.below v r before' was') (by rw [← same,eq]; exact Nat.lt_irrefl _)
    · exact absurd (numbers.below u q before was) (by rw [same,eq']; exact Nat.lt_irrefl _)
    · exact numbers.distinct u v q r before before' was was' same
  · intro u q there' at' active
    rcases cases_ u q there' at' with ⟨-,eq⟩ | ⟨-,before,was⟩
    · rw [eq]
      exact fresh
    · exact numbers.pending u q before was active
  · exact numbers.undecided
  · intro m' tm' u q there' active' task'
    simp only [go,register,setTimer,update_apply] at there'
    split at there'
    · cases there'
      cases active'
      simp only [go,register,setTimer,setTask,update_self] at task'
      cases task'
      exact ⟨fresh,fun mem => Nat.lt_irrefl _ (numbers.gone _ mem).1⟩
    have there' := there'
    have at' := inv.activePlaced there' active'
    have other : u ≠ t := by
      rintro rfl
      cases out.symm.trans at'
    simp only [go,register,setTimer,setTask,update_of_ne other] at task'
    exact numbers.live m' tm' u q there' active' task'
  · exact numbers.once

lemma Inv.inserts (at_ : s.call θ = .inserting m pending t) (task : s.task t = some p) :
    Inv ((s.insert t p).go θ (.idle (some pending))) (update place t (.registered m)) := by
  have ok := inv.callAt at_
  have here := ok.2
  obtain ⟨p',task',queued,state,master⟩ := inv.placed here
  cases task.symm.trans task'
  have same : Place.timer (.registered m : Place U C M) = (place t).timer := by rw [here]; rfl
  simp only [State.insert,queued,Bool.false_eq_true,if_false]
  constructor
  case sound => exact inv.sound
  case fits => exact inv.fitsAt ⟨_,rfl,master,.inl state⟩
  case timers => exact inv.timersMove same rfl
  case queues =>
    obtain ⟨timersIff,timersOnce,releasedAt,releasedOnce⟩ := inv.queues
    have out : t ∉ s.timers p.worker := by
      intro mem
      obtain ⟨q,there,-,listed⟩ := (timersIff p.worker t).mp mem
      cases task.symm.trans there
      cases queued.symm.trans listed
    refine ⟨fun c u => ?_,fun c => ?_,fun c u mem => ?_,releasedOnce⟩
    · simp only [go,setTask,update_apply]
      by_cases eq : u = t
      · subst u
        have before := timersIff c t
        simp only [task,some.injEq,exists_eq_left',queued,Bool.false_eq_true,and_false,iff_false] at before
        split
        next worker => simp [worker]
        next other => simp [before,Ne.symm other]
      split
      next worker =>
        subst c
        simp [eq,timersIff]
      · simp [timersIff]
    · simp only [go,update_apply]
      split
      · exact nodup_cons.mpr ⟨out,timersOnce p.worker⟩
      · exact timersOnce c
    obtain ⟨free,q,there,worker⟩ := releasedAt c u mem
    have other : u ≠ t := by
      rintro rfl
      cases here.symm.trans free
    simp only [go,setTask,update_of_ne other]
    exact ⟨free,q,there,worker⟩
  case party =>
    have mine : ∀ u m', place u = .entering θ m' → u = t := by
      intro u m' there
      obtain ⟨pending',call⟩ := inv.party.enters u θ m' there
      cases at_.symm.trans call
      rfl
    refine inv.partyMoves (inv.actsTask (by rw [at_]; rfl) (.inr (.inr (.inl (by rw [here]; rfl)))) nofun mine rfl rfl
      rfl rfl nofun) trivial (fun u other => update_of_ne other _ _) (by simp [here]) ?_
    rintro c n - ⟨q,-,-,-,armed,-⟩
    rw [here] at armed
    exact armed.elim
  case numbers => exact inv.numbersMove {p with queued := true} rfl rfl rfl rfl rfl rfl same fun _ => ⟨p,task,rfl,id⟩

lemma Inv.eraseEq (there : s.timer m = some tm) (at_ : (place t).timer = some m)
    (s' : State U C M T L) (tm' : Timer T L) (same : tm'.registrations = tm.registrations) :
    s'.erase m tm' t = s'.setTimer m {tm' with registrations := tm'.registrations.erase t} := by
  have ok := inv.timerAt there
  exact if_pos (same ▸ (ok.2.1 t).mpr at_)

end

lemma wakeAllDrowsy (s : State U C M T L) (m : M) (θ : Thread U C) : ((s.wakeAll m).call θ).drowsy = (s.call θ).drowsy := by
  simp only [wakeAll]
  split
  next waiting =>
    rw [waiting]
    rfl
  · rfl

section
variable (inv : Inv s place)
include inv

lemma Inv.freeRegistrationEq (there : s.timer m = some tm) (at_ : (place t).timer = some m)
    (s' : State U C M T L) (tm' : Timer T L) (same : tm'.registrations = tm.registrations) :
    ∃ call, s'.freeRegistration m tm' t =
        {s'.setTimer m {tm' with registrations := tm'.registrations.erase t} with call := call} ∧
      ∀ θ, (call θ).drowsy = (s'.call θ).drowsy := by
  simp only [freeRegistration,inv.eraseEq there at_ s' tm' same]
  split
  · exact ⟨_,rfl,wakeAllDrowsy s' m⟩
  · exact ⟨s'.call,rfl,fun _ => rfl⟩

lemma Inv.destroys (out : s.outside θ = true) (there : s.timer m = some tm)
    (owns : s.owner tm.lock = some θ) (live : tm.terminating = false) :
    Inv ((s.setTimer m {tm with active := none,terminating := true}).go θ (.revoking m tm.registrations)) place := by
  have idle := outsideIdle out
  have not : ∀ t m pending, s.call θ ≠ .inserting m pending t := fun _ _ _ => idleNotInserting idle
  have ok := inv.timerAt there
  refine inv.calls (k := .revoking m tm.registrations) ?_ ⟨⟨_,update_self _ _ _,owns,rfl⟩,ok.1,fun t mem => ?_⟩
    inv.sound rfl rfl rfl (inv.setsTimer there rfl rfl) ?_
  · refine actsTimer (outsideWorker out) there owns (fun θ' other => ?_) (update_self _ _ _) rfl rfl rfl (fun _ => rfl)
      nofun (fun _ => .inl rfl) (fun t θ' m there => .inl ⟨rfl,inv.entersOther not there⟩) ?_
    · exact congrArg _ (update_of_ne other _ _)
    · rintro m' rfl
      refine .inr ?_
      rintro ⟨tm',there',ends⟩
      cases there.symm.trans there'
      cases live.symm.trans ends
  · exact inv.registered ⟨tm,there,owns,live⟩ not ((ok.2.1 t).mp mem)
  · exact inv.numbersStill rfl rfl rfl rfl rfl fun _ tm' _ there' active => ⟨tm',inactiveKept rfl there' active,active⟩

lemma Inv.revoked {rest : List T} (at_ : s.call θ = .revoking m (t::rest)) (there : s.timer m = some tm) :
    ∃ place', Inv (s.revoke θ m tm t rest) place' := by
  obtain ⟨⟨tm',there',owns,ends⟩,once,registered⟩ := inv.callAt at_
  cases there.symm.trans there'
  have here := registered t (.head _)
  have out := inv.calling (θ := θ) (by rw [at_]; rfl)
  have not : ∀ t m pending, s.call θ ≠ .inserting m pending t := by simp [at_]
  have destroys : ∀ m', (Call.revoking m rest : Call M T).destroys m' → (s.call θ).destroys m' ∨ ¬ Ends s m' := by
    rintro m' rfl
    exact .inl (by rw [at_]; rfl)
  obtain ⟨absent,once⟩ := nodup_cons.mp once
  have rest' : ∀ u ∈ rest, place u = .registered m := fun u mem => registered u (.tail t mem)
  obtain ⟨p,task,-,state⟩ := inv.taskAt here
  have timerOk := inv.timerAt there
  simp only [revoke,task]
  split
  next active =>
    have inactive := timerOk.2.2.2 ends
    refine ⟨_,inv.revokes out not there owns here task active inactive ?_ ?_ (update_self _ _ _) ?_ ?_ ?_ ?_ ?_ ?_ ?_ ?_
      ?_ rfl ?_ destroys⟩ <;> rw [inv.eraseEq there (by rw [here]; rfl) _ tm rfl]
    case refine_1 => exact inv.sound
    case refine_2 => exact fun θ' other => congrArg _ (update_of_ne other _ _)
    case refine_12 =>
      refine ⟨⟨_,update_self _ _ _,owns,ends⟩,once,fun u mem => ?_⟩
      rw [update_of_ne (by rintro rfl; exact absent mem)]
      exact rest' u mem
    all_goals rfl
  · exact ⟨place,inv.goes out not ⟨⟨tm,there,owns,ends⟩,once,rest'⟩ destroys⟩

lemma Inv.revokedAll (at_ : s.call θ = .revoking m []) : Inv (s.go θ (.draining m)) place := by
  have ok := inv.callAt at_
  refine inv.goes (inv.calling (by rw [at_]; rfl)) (by simp [at_]) ok.1 ?_
  rintro m' rfl
  exact .inl (by rw [at_]; rfl)

lemma Inv.drains (at_ : s.call θ = .draining m) (there : s.timer m = some tm) : Inv (s.drain θ m tm) place := by
  obtain ⟨tm',there',owns,ends⟩ := inv.callAt at_
  cases there.symm.trans there'
  have out := inv.calling (θ := θ) (by rw [at_]; rfl)
  have not : ∀ t m pending, s.call θ ≠ .inserting m pending t := by simp [at_]
  simp only [drain]
  split
  next empty =>
    have away : ∀ m' tm', s.timer m' = some tm' → s.owner tm'.lock ≠ some θ → m' ≠ m := by
      rintro m' tm' before free rfl
      cases there.symm.trans before
      exact free owns
    refine inv.calls (θ := θ) (k := .idle none) ?_ trivial inv.sound rfl rfl rfl (fun m' => ?_) ?_
    · constructor
      case call => exact fun θ' other => congrArg _ (update_of_ne other _ _)
      case here => exact update_self _ _ _
      case work => rfl
      case out => exact out
      case locks => exact fun _ _ _ => id
      case others => exact fun m' tm' before free => (update_of_ne (away m' tm' before free) _ _).trans before
      case ending =>
        rintro m' ⟨tm',before,flag⟩
        by_cases same : m' = m
        · exact .inr (by rw [at_,same]; rfl)
        · exact .inl ⟨tm',(update_of_ne same _ _).trans before,flag⟩
      case active =>
        intro m' tm' t after active _
        simp only [go,update_apply] at after
        split at after
        · cases after
        exact ⟨tm',after,active⟩
      case moved => exact fun _ => .inl rfl
      case enters => exact fun t θ' m there => .inl ⟨rfl,inv.entersOther not there⟩
      case alone => exact nofun
    · simp only [go,update_apply]
      split
      · subst m'
        have timerOk := inv.timerAt there
        intro t registered
        have mem := (timerOk.2.1 t).mpr registered
        rw [empty] at mem
        cases mem
      · exact inv.timers m'
    refine inv.numbersStill rfl rfl rfl rfl rfl fun m' tm' t after active => ?_
    simp only [go,update_apply] at after
    split at after
    · cases after
    exact ⟨tm',after,active⟩
  refine inv.still (k := .waiting m false) (inv.actsStill out rfl rfl rfl (fun _ _ other held => ownerKept (.inr owns) other held)
    not ?_) ⟨tm,there,ends⟩ rfl rfl rfl rfl rfl rfl rfl rfl
  rintro m' rfl
  exact .inl (by rw [at_]; rfl)

lemma Inv.wakes {woken : Bool} (at_ : s.call θ = .waiting m woken) (there : s.timer m = some tm)
    (free : s.owner tm.lock = none) : Inv ((s.setOwner tm.lock (some θ)).go θ (.draining m)) place := by
  obtain ⟨tm',there',ends⟩ := inv.callAt at_
  cases there.symm.trans there'
  refine inv.still (k := .draining m) (inv.actsStill (inv.calling (by rw [at_]; rfl)) rfl rfl rfl
    (fun _ _ other held => ownerKept (.inl free) other held) (by simp [at_]) ?_)
    ⟨tm,there,update_self _ _ _,ends⟩ rfl rfl rfl rfl rfl rfl rfl rfl
  rintro m' rfl
  exact .inl (by rw [at_]; rfl)

lemma Inv.cancels (out : s.outside θ = true) (there : s.timer m = some tm)
    (owns : s.owner tm.lock = some θ) (live : tm.terminating = false) (next : Bool → Call M T)
    (light : ∀ pending, (next pending).light = true) (quiet : ∀ pending m', ¬ (next pending).destroys m')
    (ok : ∀ (s' : State U C M T L) place' pending, Owns s' θ m false → CallOk s' place' θ (next pending)) :
    ∃ place', Inv (s.cancel θ m tm next) place' := by
  have idle := outsideIdle out
  have not : ∀ t m pending, s.call θ ≠ .inserting m pending t := fun _ _ _ => idleNotInserting idle
  have held : Owns s θ m false := ⟨tm,there,owns,live⟩
  simp only [cancel]
  rcases active : tm.active with _ | t
  · exact ⟨place,inv.goes (outsideWorker out) not (ok s place false held) fun m' destroys => absurd destroys (quiet false m')⟩
  have at_ := inv.activePlaced there active
  have here := inv.registered held not at_
  obtain ⟨p,task,-,state⟩ := inv.taskAt here
  have inv' := inv.supersedes out there owns active task
  have there' : update s.timer m (some {tm with active := none}) m = some {tm with active := none} :=
    update_self _ _ _
  simp only [task]
  split
  next ready =>
    obtain ⟨call,eq,drowsy⟩ := inv.freeRegistrationEq there at_
      ({s with superseded := p.reg::s.superseded}.setTask t {p with state := .released}) {tm with active := none} rfl
    rw [eq]
    refine ⟨_,inv'.revokes (outsideWorker out) not there' owns here task ready rfl inv.sound ?_ (update_self _ _ _) rfl
      ?_ rfl rfl rfl rfl rfl rfl rfl (light true) ?_ fun m' destroys => absurd destroys (quiet true m')⟩
    · intro θ' other
      simp only [go,update_of_ne other]
      exact drowsy θ'
    · exact (update_idem _ _ _).symm
    · exact ok _ _ true ⟨_,update_self _ _ _,owns,live⟩
  exact ⟨place,inv'.goes (outsideWorker out) not (ok _ place true ⟨_,there',owns,live⟩)
    fun m' destroys => absurd destroys (quiet true m')⟩

end

end OsvKernel.TimerTask
