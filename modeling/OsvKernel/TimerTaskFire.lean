import OsvKernel.TimerTaskSteps

/-! The workers of timer_task, and what holds in every run: a registration fires at most once, and
only while it is the active one. -/
namespace OsvKernel.TimerTask
open List Function Option

variable {U C M T L : Type} [DecidableEq U] [DecidableEq C] [DecidableEq M] [DecidableEq T] [DecidableEq L]
  {s s' : State U C M T L} {place place' : T → Place U C M} {θ : Thread U C} {c : C} {m : M} {t : T} {l : L} {n : Nat}
  {p : Percpu C M} {tm : Timer T L} {w : Work M T L}

open State

lemma Inv.works (inv : Inv s place) (runs : Works s s' place place c w) (ok : WorkOk s' place c w) (sound : s'.failed = false)
    (task : s'.task = s.task) (timers : s'.timers = s.timers) (released : s'.released = s.released)
    (timer : ∀ m, TimerOk place m (s'.timer m)) (numbers : Numbers s' place) : Inv s' place := by
  exact ⟨sound,fun t => task ▸ inv.fits t,timer,inv.queues.same task timers released,inv.party.runs runs ok,numbers⟩

lemma worksStill (idle : (s.call (.worker c)).isIdle = true) (call : s'.call = s.call)
    (work : s'.work = update s.work c w) (timer : s'.timer = s.timer)
    (locks : ∀ θ l, θ ≠ .worker c → s.owner l = some θ → s'.owner l = some θ)
    (tasks : ∀ t p, s.task t = some p → p.worker ≠ c → s'.task t = some p) : Works s s' place place c w where
  call θ := by rw [call]
  here := work
  idle := idle
  locks := locks
  others θ m tm _ there _ := timer ▸ there
  ending m ends := by simpa only [Ends,timer] using ends
  active m tm' t there active := ⟨tm',timer ▸ there,active⟩
  moved _ := .inl rfl
  tasks t p there other := ⟨tasks t p there other,rfl⟩
  leaving _ _ _ := id
  enters _ _ _ := id

lemma Inv.activeStays (inv : Inv s place) (timer : s'.timer = s.timer) (m : M) (tm' : Timer T L) (t : T)
    (there : s'.timer m = some tm') (active : tm'.active = some t) :
    (place t).timer ≠ none ∧ ∃ tm, s.timer m = some tm ∧ tm.active = some t := by
  rw [timer] at there
  exact ⟨by simp [inv.activePlaced there active],tm',there,active⟩

lemma firingKept {c' : C} (firing : update s.work c w c' = .firing t m n) (quiet : ∀ t m n, w ≠ .firing t m n) :
    s.work c' = .firing t m n := by
  rw [update_apply] at firing
  split at firing
  · exact absurd firing (quiet t m n)
  exact firing

section
variable (inv : Inv s place)
include inv

lemma Inv.numbersWork (regs : s'.regs = s.regs) (ran : s'.ran = s.ran)
    (superseded : s'.superseded = s.superseded) (task : s'.task = s.task) (timer : s'.timer = s.timer)
    (work : s'.work = update s.work c w) (quiet : ∀ t m n, w ≠ .firing t m n) : Numbers s' place := by
  refine inv.numbers.frame regs ran superseded (fun t p' there at_ => ⟨at_,p',task ▸ there,rfl,id⟩) (inv.activeStays timer)
    fun c' t m n firing => .inl (firingKept (work ▸ firing) quiet)

lemma Inv.goesWork (idle : (s.call (.worker c)).isIdle = true) (ok : WorkOk (s.goWork c w) place c w)
    (quiet : ∀ t m n, w ≠ .firing t m n) : Inv (s.goWork c w) place :=
  inv.works (worksStill idle rfl rfl rfl (fun _ _ _ => id) fun _ _ there _ => there) ok inv.sound rfl rfl rfl inv.timers
    (inv.numbersWork rfl rfl rfl rfl rfl rfl quiet)

lemma Inv.takesLock (idle : (s.call (.worker c)).isIdle = true) (free : s.owner l = none)
    (ok : WorkOk ((s.setOwner l (some (.worker c))).goWork c w) place c w) (quiet : ∀ t m n, w ≠ .firing t m n) :
    Inv ((s.setOwner l (some (.worker c))).goWork c w) place :=
  inv.works (worksStill idle rfl rfl rfl (fun _ _ other held => ownerKept (.inl free) other held) fun _ _ there _ => there) ok inv.sound rfl rfl rfl
    inv.timers (inv.numbersWork rfl rfl rfl rfl rfl rfl quiet)

lemma Inv.fitsTask (task : s.task t = some p) : (place t).Fits (some p) := task ▸ inv.fits t

lemma Inv.armed (task : s.task t = some p) (queued : p.queued = true) : (place t).Armed p.state := by
  have fits := inv.fitsTask task
  cases at_ : place t <;> rw [at_] at fits
  case unborn => cases fits
  case free | freeing => trivial
  case registered =>
    obtain ⟨_,⟨⟩,-,active | ⟨-,out⟩⟩ := fits
    · exact active
    · cases queued.symm.trans out
  all_goals
    obtain ⟨_,⟨⟩,out,-⟩ := fits
    cases queued.symm.trans out

end

lemma worksTask {p' : Percpu C M} (idle : (s.call (.worker c)).isIdle = true) (call : s'.call = s.call)
    (work : s'.work = update s.work c w) (timer : s'.timer = s.timer) (owner : s'.owner = s.owner)
    (task : s.task t = some p) (tasks : s'.task = update s.task t (some p')) (worker : p.worker = c) :
    Works s s' place place c w := by
  refine worksStill idle call work timer (fun _ _ _ => owner ▸ id) fun u q there other => ?_
  rw [tasks,update_of_ne]
  · exact there
  rintro rfl
  cases task.symm.trans there
  exact other worker

section
variable (inv : Inv s place)
include inv

lemma Inv.armedCases (task : s.task t = some p) (armed : (place t).Armed p.state) :
    p.state = .released ∧ (place t = .free ∨ ∃ θ, place t = .freeing θ) ∨
      ∃ m, place t = .registered m ∧ p.state = .active ∧ p.master = some m := by
  have fits := inv.fitsTask task
  cases at_ : place t <;> rw [at_] at fits armed
  case free =>
    obtain ⟨_,⟨⟩,released⟩ := fits
    exact .inl ⟨released,.inl rfl⟩
  case freeing θ =>
    obtain ⟨_,⟨⟩,released⟩ := fits
    exact .inl ⟨released,.inr ⟨θ,rfl⟩⟩
  case registered m =>
    obtain ⟨_,⟨⟩,master,-⟩ := fits
    exact .inr ⟨m,rfl,armed,master⟩
  all_goals exact armed.elim

lemma Inv.pops (idle : (s.call (.worker c)).isIdle = true) (mem : t ∈ s.timers c) : Inv (s.pop c t) place := by
  obtain ⟨p,task,worker,queued⟩ := (inv.queues.timers c t).mp mem
  have armed := inv.armed task queued
  have state : ∀ u q, update s.task t (some {p with queued := false}) u = some q →
    ∃ q', s.task u = some q' ∧ q.reg = q'.reg ∧ q.state = q'.state := by
    intro u q there
    rw [update_apply] at there
    split at there
    next same =>
      cases there
      exact ⟨p,same ▸ task,rfl,rfl⟩
    · exact ⟨q,there,rfl,rfl⟩
  simp only [pop,task,queued,if_true]
  constructor
  case sound => exact inv.sound
  case fits =>
    have here : (place t).Fits (some {p with queued := false}) := by
      rcases inv.armedCases task armed with ⟨released,at_ | ⟨θ,at_⟩⟩ | ⟨m,at_,active,master⟩
      · exact at_ ▸ ⟨_,rfl,released⟩
      · exact at_ ▸ ⟨_,rfl,released⟩
      · exact at_ ▸ ⟨_,rfl,master,.inl active⟩
    have all := inv.fitsAt (t := t) here
    rwa [update_eq_self] at all
  case timers => exact inv.timers
  case queues =>
    subst worker
    obtain ⟨timersIff,timersOnce⟩ := inv.queues.unqueue
      ({s with task := update s.task t (some {p with queued := false}),
               timers := update s.timers p.worker ((s.timers p.worker).erase t)}) task rfl rfl
    refine ⟨timersIff,timersOnce,fun c u there => ?_,inv.queues.releasedOnce⟩
    obtain ⟨free,q,there',at_⟩ := inv.queues.released c u there
    refine ⟨free,?_⟩
    simp only [goWork,setTask,update_apply]
    split
    next same =>
      subst same
      cases task.symm.trans there'
      exact ⟨_,rfl,at_⟩
    · exact ⟨q,there',at_⟩
  case party =>
    exact inv.party.runs (w := .popped t p.reg) (worksTask idle rfl rfl rfl rfl task rfl worker)
      ⟨_,update_self _ _ _,worker,rfl,armed,fun _ => rfl⟩
  case numbers =>
    refine inv.numbers.frame rfl rfl rfl (fun u q there at_ => ?_) (inv.activeStays rfl)
      fun c' u m n firing => .inl (firingKept firing fun _ _ _ bad => by cases bad)
    obtain ⟨q',before,reg,same⟩ := state u q there
    exact ⟨at_,q',before,reg,fun active => same.symm.trans active⟩

lemma Inv.checks (at_ : s.work c = .popped t n) (state : TaskState) :
    Inv (s.goWork c (if state = .released then .loop else .claiming t n)) place := by
  have ok := inv.workAt at_
  have idle := inv.party.busy c (by rw [at_]; rfl)
  split
  · exact inv.goesWork idle trivial nofun
  · exact inv.goesWork idle ok nofun

lemma Inv.claims (at_ : s.work c = .claiming t n) : Inv (s.claim c t n) place := by
  obtain ⟨p,task,worker,queued,armed,number⟩ := inv.workAt at_
  have idle := inv.party.busy c (by rw [at_]; rfl)
  simp only [claim,task]
  rcases inv.armedCases task armed with ⟨released,-⟩ | ⟨m,here,state,master⟩
  · simp only [released]
    exact inv.goesWork idle trivial fun _ _ _ bad => by cases bad
  simp only [state,master]
  constructor
  case sound => exact inv.sound
  case fits =>
    have all := inv.fitsAt (t := t) (q := place t) (x := some {p with state := .firing}) (by
      rw [here]
      exact ⟨_,rfl,master,.inr ⟨rfl,queued⟩⟩)
    rwa [update_eq_self,master] at all
  case timers => exact inv.timers
  case queues => exact inv.queues.setTask task rfl rfl rfl rfl rfl fun _ => id
  case party =>
    exact inv.party.runs (w := .firing t m n) (worksTask idle rfl rfl rfl rfl task rfl worker)
      ⟨here,_,update_self _ _ _,worker,rfl,number state⟩
  refine inv.numbers.frame rfl rfl rfl (fun u q there at' => ⟨at',?_⟩) (inv.activeStays rfl) ?_
  · simp only [goWork,setTask,update_apply] at there
    split at there
    next same =>
      cases there
      exact ⟨p,same ▸ task,rfl,fun bad => by cases bad⟩
    · exact ⟨q,there,rfl,id⟩
  intro c' u m' n' firing
  simp only [goWork,update_apply] at firing
  split at firing
  · cases firing
    rw [← number state]
    exact .inr (inv.numbers.pending t p task (by simp [here,Place.timer]) state)
  · exact .inl firing

section
variable (at_ : s.work c = .firing t m n) (there : s.timer m = some tm) (free : s.owner tm.lock = none) {act : Act U C M T L}
include at_ there free

lemma Inv.callsBack (active : tm.active = some t) :
    Inv ({s.setTimer m {tm with active := none} with ran := n::s.ran}.goWork c (.calling t m n)) place := by
  have fires := inv.workAt at_
  obtain ⟨here,p,task,worker,state,number⟩ := fires
  have idle := inv.party.busy c (by rw [at_]; rfl)
  have placed : (place t).timer ≠ none := by simp [here,Place.timer]
  have numbers := inv.numbers
  refine inv.works (c := c) (w := .calling t m n) ?_ ⟨⟨here,p,task,worker,state,number⟩,?_⟩ inv.sound rfl rfl rfl
    (inv.setsTimer there rfl rfl) ?_
  · constructor
    case call => exact fun _ => rfl
    case here => rfl
    case idle => exact idle
    case locks => exact fun _ _ _ => id
    case others =>
      intro θ m' tm' _ before held
      refine timerOther there ?_ before
      rintro rfl
      cases free.symm.trans held
    case ending => exact fun _ => timerEnds there id
    case active => exact fun m' tm' u after active' => timerActive there (by simp) after active'
    case moved => exact fun _ => .inl rfl
    case tasks => exact fun _ _ there _ => ⟨there,rfl⟩
    case leaving | enters => exact fun _ _ _ => id
  · intro tm' after
    simp only [goWork,setTimer,update_self] at after
    cases after
    exact fun bad => by cases bad
  refine {numbers with ranBelow := ?_,gone := ?_,pending := ?_,undecided := ?_,live := ?_,once := ?_}
  · intro k mem
    rcases mem_cons.mp mem with rfl | mem
    · exact number ▸ numbers.below t p task placed
    · exact numbers.ranBelow k mem
  · intro k mem
    refine ⟨(numbers.gone k mem).1,fun mem' => ?_⟩
    rcases mem_cons.mp mem' with rfl | mem'
    · exact (numbers.live m tm t p there active task).2 (number ▸ mem)
    · exact (numbers.gone k mem).2 mem'
  · intro u q there' at' active' mem
    rcases mem_cons.mp mem with same | mem
    · cases numbers.distinct u t q p there' task at' placed (same.trans number.symm)
      cases task.symm.trans there'
      cases state.symm.trans active'
    · exact numbers.pending u q there' at' active' mem
  · intro c' u m' k firing
    simp only [goWork,update_apply] at firing
    split at firing
    · cases firing
    rename_i other
    intro mem
    rcases mem_cons.mp mem with same | mem
    · have theirs := inv.party.works c'
      rw [show s.work c' = .firing u m' k from firing] at theirs
      have theirs := theirs
      obtain ⟨here',q,task',worker',-,number'⟩ := theirs
      cases numbers.distinct u t q p task' task (by simp [here',Place.timer]) placed (number'.trans (same.trans number.symm))
      cases task.symm.trans task'
      exact other (worker'.symm.trans worker)
    · exact numbers.undecided c' u m' k firing mem
  · intro m' tm' u q after active' task'
    simp only [goWork,setTimer,update_apply] at after
    split at after
    · cases after
      cases active'
    rename_i other
    have live := numbers.live m' tm' u q after active' task'
    refine ⟨fun mem => ?_,live.2⟩
    rcases mem_cons.mp mem with same | mem
    · have at' := inv.activePlaced after active'
      cases numbers.distinct u t q p task' task (by simp [at']) placed (same.trans number.symm)
      rw [here] at at'
      exact other (some.inj at').symm
    · exact live.1 mem
  · exact nodup_cons.mpr ⟨numbers.undecided c t m n at_,numbers.once⟩

lemma Inv.entersFire : Inv (s.enter c t m n tm) place := by
  have fires := inv.workAt at_
  have idle := inv.party.busy c (by rw [at_]; rfl)
  simp only [enter]
  split
  next active => exact inv.callsBack at_ there free active
  rename_i superseded
  refine inv.takesLock idle free ⟨fires,fun tm' before => ?_,tm.terminating,tm,there,update_self _ _ _,rfl⟩ nofun
  cases there.symm.trans before
  exact superseded

end

lemma Inv.leaves (at_ : s.work c = .calling t m n) (there : s.timer m = some tm)
    (idle : (s.call (.worker c)).isIdle = true) (free : s.owner tm.lock = none) :
    Inv ((s.setOwner tm.lock (some (.worker c))).goWork c (.returned t m n)) place := by
  have fires := inv.workAt at_
  exact inv.takesLock idle free ⟨fires.1,fires.2,tm.terminating,tm,there,update_self _ _ _,rfl⟩ nofun

lemma Inv.finishes (at_ : s.work c = .returned t m n) (there : s.timer m = some tm) :
    Inv (s.finish c t m tm) (update place t (.leaving c)) := by
  obtain ⟨⟨here,p,task,worker,state,number⟩,decided,ends,owns⟩ := inv.workAt at_
  have idle := inv.party.busy c (by rw [at_]; rfl)
  have held : s.owner tm.lock = some (.worker c) := by
    obtain ⟨tm',there',held,-⟩ := owns
    cases there.symm.trans there'
    exact held
  have away : ∀ u, u ≠ t → update place t (.leaving c) u = place u := fun u other => update_of_ne other _ _
  obtain ⟨q,task',-,firing⟩ := inv.taskAt here
  cases task.symm.trans task'
  have queued : p.queued = false := by
    rcases firing with active | ⟨-,queued⟩
    · cases state.symm.trans active
    exact queued
  obtain ⟨once,listed,active,ending⟩ := inv.timerAt there
  obtain ⟨call,eq,drowsy⟩ := inv.freeRegistrationEq there (by rw [here]; rfl) (s.setTask t {p with state := .released}) tm rfl
  simp only [finish,task]
  rw [eq]
  constructor
  case sound => exact inv.sound
  case fits => exact inv.fitsAt ⟨_,rfl,queued,rfl,worker⟩
  case timers =>
    refine inv.timerSet rfl (fun m' other => ?_) ⟨once.erase t,listedErase once listed rfl,fun u eq => ?_,ending⟩
    · rw [here]
      exact ⟨(fun bad => by cases bad),fun eq => absurd (some.inj eq).symm other⟩
    rw [away u (by rintro rfl; exact decided tm there eq)]
    exact active u eq
  case queues => exact inv.queues.setTask task rfl rfl rfl rfl rfl (freeKept (by simp [here]))
  case party =>
    refine inv.party.runs (w := .freed t tm.lock) ?_ ⟨update_self _ _ _,held⟩
    constructor
    case call => exact drowsy
    case here => rfl
    case idle => exact idle
    case locks => exact fun _ _ _ => id
    case others =>
      intro θ m' tm' other before theirs
      exact timerOther there (fun same => other (some.inj ((same ▸ theirs).symm.trans held))) before
    case ending => exact fun _ => timerEnds there id
    case active => exact fun m' tm' u after active' => timerActive there (by simp) after active'
    case moved =>
      intro u
      by_cases same : u = t
      · subst u
        exact .inr (.inr ⟨m,ends,here,owns⟩)
      · exact .inl (away u same)
    case tasks =>
      intro u q before other
      have differ : u ≠ t := by
        rintro rfl
        cases task.symm.trans before
        exact other worker
      exact ⟨(update_of_ne differ _ _).trans before,away u differ⟩
    case leaving =>
      intro u c' _ leaving
      rw [away u (by rintro rfl; cases here.symm.trans leaving)]
      exact leaving
    case enters =>
      intro u θ m' entering
      simp only [update_apply] at entering
      split at entering
      · cases entering
      · exact entering
  refine inv.numbers.frame rfl rfl rfl (fun u q after at' => ?_) (fun m' tm' u after active' => ?_) ?_
  · by_cases same : u = t
    · subst u
      simp [Place.timer] at at'
    · rw [away u same] at at'
      exact ⟨at',q,(update_of_ne same _ _).symm.trans after,rfl,id⟩
  · obtain ⟨tm2,before,was⟩ := timerActive there (by simp) after active'
    have at' := inv.activePlaced before was
    have other : u ≠ t := by
      rintro rfl
      rw [here] at at'
      cases at'
      exact decided tm2 before was
    refine ⟨?_,tm2,before,was⟩
    rw [away u other,at']
    exact fun bad => by cases bad
  · exact fun c' u m' k firing => .inl (firingKept firing fun _ _ _ bad => by cases bad)

end

lemma Inv.registeredAlive (inv : Inv s place) (at_ : place t = .registered m) : ∃ tm, s.timer m = some tm := by
  have ok := inv.timers m
  cases there : s.timer m
  case some tm => exact ⟨tm,rfl⟩
  rw [there] at ok
  exact absurd (by rw [at_]; rfl) (ok t)

lemma Inv.firingAlive (inv : Inv s place) (at_ : s.work c = .firing t m n) : ∃ tm, s.timer m = some tm := by
  have ok := inv.workAt at_
  exact inv.registeredAlive ok.1

lemma Inv.pushes (inv : Inv s place) (at_ : s.work c = .freed t l) :
    Inv (((s.free t).setOwner l none).goWork c .loop) (update place t .free) := by
  obtain ⟨here,held⟩ := inv.workAt at_
  obtain ⟨p,task,queued,state,worker⟩ := inv.placed here
  have task : s.task t = some p := task
  have idle := inv.party.busy c (by rw [at_]; rfl)
  have same : Place.timer (.free : Place U C M) = (place t).timer := by rw [here]; rfl
  simp only [free,task]
  constructor
  case sound => exact inv.sound
  case fits =>
    have fits := inv.fitsAt (t := t) (q := .free) (x := some p) ⟨p,rfl,state⟩
    rwa [← task,update_eq_self] at fits
  case timers => exact inv.timersMove same rfl
  case queues => exact inv.queues.push task (by simp [here]) rfl rfl rfl
  case party =>
    refine inv.party.runs (c := c) (w := .loop) ?_ trivial
    have away : ∀ u, u ≠ t → update place t .free u = place u := fun u other => update_of_ne other _ _
    constructor
    case call => exact fun _ => rfl
    case here => rfl
    case idle => exact idle
    case locks => exact fun _ _ other theirs => ownerKept (.inr held) other theirs
    case others => exact fun _ _ _ _ there _ => there
    case ending => exact fun _ => id
    case active => exact fun _ tm' _ there active => ⟨tm',there,active⟩
    case moved =>
      intro u
      by_cases eq : u = t
      · exact .inr (.inl (eq ▸ here))
      · exact .inl (away u eq)
    case tasks =>
      intro u q there other
      refine ⟨there,away u ?_⟩
      rintro rfl
      cases task.symm.trans there
      exact other worker
    case leaving =>
      intro u c' other leaving
      rw [away u (by rintro rfl; cases here.symm.trans leaving; exact other rfl)]
      exact leaving
    case enters =>
      intro u θ m entering
      simp only [update_apply] at entering
      split at entering
      · cases entering
      · exact entering
  refine inv.numbers.frame rfl rfl rfl (fun u q there at' => ?_) (fun m tm' u there active => ?_) ?_
  · rw [timerSame same] at at'
    exact ⟨at',q,there,rfl,id⟩
  · rw [timerSame same]
    exact inv.activeStays rfl m tm' u there active
  · exact fun c' u m' k firing => .inl (firingKept firing fun _ _ _ bad => by cases bad)

structure Start (s : State U C M T L) : Prop where
  task : ∀ t, s.task t = none
  timer : ∀ m, s.timer m = none
  timers : ∀ c, s.timers c = []
  released : ∀ c, s.released c = []
  call : ∀ θ, s.call θ = .idle none
  work : ∀ c, s.work c = .loop
  ran : s.ran = []
  superseded : s.superseded = []
  sound : s.failed = false

lemma Start.inv (start : Start s) : Inv s fun _ => .unborn := by
  refine ⟨start.sound,start.task,fun m => ?_,⟨?_,?_,?_,?_⟩,⟨fun θ => ?_,fun c => ?_,nofun,?_,?_⟩,?_⟩
  · rw [start.timer]
    exact fun _ => nofun
  · simp [start.timers,start.task]
  · simp [start.timers]
  · simp [start.released]
  · simp [start.released]
  · rw [start.call]
    trivial
  · rw [start.work]
    trivial
  · intro θ θ' m destroys
    rw [start.call] at destroys
    exact destroys.elim
  · simp [start.work,Work.outside]
  · constructor <;> simp [start.task,start.ran,start.superseded,start.work,start.timer]

lemma Inv.step (inv : Inv s place) (taken : TimerTask.step s act = some s') : ∃ place', Inv s' place' := by
  unfold TimerTask.step at taken
  rw [if_neg (ne_true_of_eq_false inv.sound)] at taken
  cases act <;> dsimp only at taken <;> split at taken <;> try cases taken
  case construct.isTrue l can => exact ⟨place,inv.constructs can.1 can.2 l⟩
  case lock.isTrue θ _ can => exact ⟨place,inv.locks can.1 (.inl can.2) (some θ)⟩
  case unlock.isTrue can => exact ⟨place,inv.locks can.1 (.inr can.2) none⟩
  case pop.isTrue can => exact ⟨place,inv.pops can.2.1 can.2.2⟩
  next tm there =>
    obtain ⟨⟨out,owns,live⟩,taken⟩ := ite_none_right_eq_some.mp taken
    cases taken
    exact inv.cancels out there owns live _ (fun _ => rfl) (fun _ _ => id) fun _ _ _ _ => trivial
  next tm there =>
    obtain ⟨⟨out,owns,live⟩,taken⟩ := ite_none_right_eq_some.mp taken
    cases taken
    exact inv.cancels out there owns live _ (fun _ => rfl) (fun _ _ => id) fun _ _ _ held => held
  next tm there =>
    obtain ⟨⟨out,owns,live⟩,taken⟩ := ite_none_right_eq_some.mp taken
    cases taken
    exact ⟨place,inv.destroys out there owns live⟩
  next at_ => exact ⟨_,inv.freed at_⟩
  next c t _ _ _ at_ =>
    obtain ⟨unlocked,taken⟩ := ite_none_left_eq_some.mp taken
    split at taken
    next mem =>
      cases taken
      exact ⟨_,inv.borrows at_ (Bool.eq_false_iff.mpr unlocked) mem⟩
    obtain ⟨⟨-,unborn⟩,taken⟩ := ite_none_right_eq_some.mp taken
    cases taken
    exact ⟨_,inv.allocates at_ unborn c⟩
  next t at_ =>
    obtain ⟨⟨tm,there,-⟩,here⟩ := inv.callAt at_
    obtain ⟨p,task,-⟩ := inv.placed here
    have task : s.task t = some p := task
    simp only [there,task] at taken
    cases taken
    exact ⟨_,inv.registers at_ there task⟩
  next t at_ =>
    have ok := inv.callAt at_
    have fits := inv.fits t
    rw [ok.2] at fits
    obtain ⟨p,task,-⟩ := fits
    have task : s.task t = some p := task
    simp only [task] at taken
    obtain ⟨-,taken⟩ := ite_none_left_eq_some.mp taken
    cases taken
    exact ⟨_,inv.inserts at_ task⟩
  next at_ => exact ⟨place,inv.revokedAll at_⟩
  next at_ =>
    obtain ⟨⟨tm,there,-⟩,-⟩ := inv.callAt at_
    simp only [there] at taken
    cases taken
    exact inv.revoked at_ there
  next at_ =>
    obtain ⟨tm,there,-⟩ := inv.callAt at_
    simp only [there] at taken
    cases taken
    exact ⟨place,inv.drains at_ there⟩
  next at_ =>
    obtain ⟨tm,there,-⟩ := inv.callAt at_
    simp only [there] at taken
    obtain ⟨free,taken⟩ := ite_none_right_eq_some.mp taken
    cases taken
    exact ⟨place,inv.wakes at_ there free⟩
  next at_ =>
    obtain ⟨p,task,-⟩ := inv.workAt at_
    simp only [task] at taken
    cases taken
    exact ⟨place,inv.checks at_ p.state⟩
  next at_ => exact ⟨place,inv.claims at_⟩
  next at_ =>
    obtain ⟨tm,there⟩ := inv.firingAlive at_
    simp only [there] at taken
    obtain ⟨free,taken⟩ := ite_none_right_eq_some.mp taken
    cases taken
    exact ⟨place,inv.entersFire at_ there free⟩
  next at_ =>
    obtain ⟨tm,there⟩ := inv.registeredAlive (inv.workAt at_).1.1
    simp only [there] at taken
    obtain ⟨⟨idle,free⟩,taken⟩ := ite_none_right_eq_some.mp taken
    cases taken
    exact ⟨place,inv.leaves at_ there idle free⟩
  next at_ =>
    obtain ⟨tm,there⟩ := inv.registeredAlive (inv.workAt at_).1.1
    simp only [there] at taken
    cases taken
    exact ⟨_,inv.finishes at_ there⟩
  next at_ => exact ⟨_,inv.pushes at_⟩

abbrev Reachable : State U C M T L → Prop := Runs.Reach step (fun _ _ => True) Start

lemma Reachable.inv (reach : Reachable s) : ∃ place, Inv s place := by
  refine @Runs.invariant _ _ _ _ _ (fun s => ∃ place, Inv s place) (fun s start => ⟨_,start.inv⟩) ?_ s reach
  rintro s act s' ⟨place,inv⟩ _ taken
  exact inv.step taken

def State.activeReg (s : State U C M T L) (m : M) : Option Nat :=
  (s.timer m).bind fun tm => tm.active.bind fun t => (s.task t).map Percpu.reg

def Work.Holds (m : M) : Work M T L → Prop
  | .firing _ m' _ => m' = m
  | .calling _ m' _ => m' = m
  | .returned _ m' _ => m' = m
  | _ => False

lemma Inv.activeIff (inv : Inv s place) (at_ : s.work c = .firing t m n) (there : s.timer m = some tm) :
    tm.active = some t ↔ s.activeReg m = some n := by
  have fires := inv.workAt at_
  obtain ⟨here,p,task,-,-,number⟩ := fires
  simp only [activeReg,there,bind_some]
  constructor
  · intro active
    simp [active,task,number]
  intro same
  obtain ⟨u,active,same⟩ := bind_eq_some_iff.mp same
  obtain ⟨q,task',number'⟩ := map_eq_some_iff.mp same
  have placed := inv.activePlaced there active
  cases inv.numbers.distinct u t q p task' task (by simp [placed]) (by simp [here,Place.timer]) (number'.trans number.symm)
  exact active

lemma stepRan (taken : step s act = some s') (other : ∀ c, act ≠ .enter c) : s'.ran = s.ran := by
  obtain ⟨-,taken⟩ := ite_none_left_eq_some.mp taken
  cases act with
  | enter c => exact absurd rfl (other c)
  | _ =>
    dsimp only at taken
    repeat' split at taken
    all_goals cases taken
    -- Only enter writes ran; every other function copies it on all its branches.
    all_goals
      try simp only [freeRegistration,State.free,State.cancel,reuse,State.insert,revoke,drain,pop,claim,finish,erase]
      repeat' split
      all_goals rfl

lemma enterFiring (taken : step s (.enter c) = some s') : ∃ t m n, s.work c = .firing t m n := by
  obtain ⟨-,taken⟩ := ite_none_left_eq_some.mp taken
  cases at_ : s.work c with
  | firing t m n => exact ⟨t,m,n,rfl⟩
  | _ => simp [at_] at taken

lemma Inv.enterRan (inv : Inv s place) (at_ : s.work c = .firing t m n) (taken : TimerTask.step s (.enter c) = some s') :
    s'.ran = (if s.activeReg m = some n then n::s.ran else s.ran) ∧
      (s'.work c = .calling t m n ↔ s.activeReg m = some n) := by
  obtain ⟨tm,there⟩ := inv.firingAlive at_
  obtain ⟨-,taken⟩ := ite_none_left_eq_some.mp taken
  simp only [at_,there] at taken
  obtain ⟨-,taken⟩ := ite_none_right_eq_some.mp taken
  cases taken
  have active := inv.activeIff at_ there
  simp only [enter]
  split
  next mine => simp [active.mp mine,goWork]
  rename_i other
  have stale : s.activeReg m ≠ some n := fun same => other (active.mpr same)
  simp [stale,goWork,setOwner]

theorem timersFireOnce (reach : Reachable s) : s.failed = false ∧ s.ran.Nodup ∧ (∀ n ∈ s.superseded, n ∉ s.ran) ∧
      (∀ act s' n, step s act = some s' →
        (n ∈ s'.ran ∧ n ∉ s.ran ↔ ∃ c t m, act = .enter c ∧ s.work c = .firing t m n ∧ s.activeReg m = some n)) ∧
      ∀ m, s.timer m = none → (∀ c, ¬ (s.work c).Holds m) ∧
        ∀ t p, s.task t = some p → p.master = some m → p.state = .released := by
  obtain ⟨place,inv⟩ := reach.inv
  refine ⟨inv.sound,inv.numbers.once,fun n mem => (inv.numbers.gone n mem).2,fun act s' n taken => ?_,fun m dead => ?_⟩
  · constructor
    · rintro ⟨now,before⟩
      by_cases enters : ∃ c, act = .enter c
      · obtain ⟨c,rfl⟩ := enters
        obtain ⟨t,m,k,at_⟩ := enterFiring taken
        have after := (inv.enterRan at_ taken).1
        split at after
        next active =>
          rcases mem_cons.mp (after ▸ now) with rfl | mem
          · exact ⟨c,t,m,rfl,at_,active⟩
          · exact absurd mem before
        · exact absurd (after ▸ now) before
      · exact absurd (stepRan taken (fun c same => enters ⟨c,same⟩) ▸ now) before
    · rintro ⟨c,t,m,rfl,at_,active⟩
      rw [(inv.enterRan at_ taken).1,if_pos active]
      exact ⟨mem_cons_self,inv.numbers.undecided c t m n at_⟩
  have absent := inv.timers m
  rw [dead] at absent
  refine ⟨fun c holds => ?_,fun t p task master => ?_⟩
  · have ok := inv.party.works c
    generalize at_ : s.work c = x at ok holds ⊢
    cases x with
    | firing t m' n =>
      cases holds
      exact absent t (by rw [ok.1]; rfl)
    | calling t m' n | returned t m' n =>
      cases holds
      exact absent t (by rw [ok.1.1]; rfl)
    | _ => exact holds.elim
  have fits := inv.fitsTask task
  have away := absent t
  cases at_ : place t <;> rw [at_] at fits away
  case unborn => cases fits
  case entering =>
    obtain ⟨_,⟨⟩,-,-,master'⟩ := fits
    exact absurd (master'.symm.trans master) away
  case registered =>
    obtain ⟨_,⟨⟩,master',-⟩ := fits
    exact absurd (master'.symm.trans master) away
  case preparing =>
    obtain ⟨_,⟨⟩,-,released | none⟩ := fits
    · exact released
    · cases none.symm.trans master
  case leaving =>
    obtain ⟨_,⟨⟩,-,released,-⟩ := fits
    exact released
  all_goals
    obtain ⟨_,⟨⟩,released⟩ := fits
    exact released

def noTimers : State (Fin 1) (Fin 2) (Fin 1) (Fin 2) (Fin 1) where
  task _ := none
  timer _ := none
  timers _ := []
  released _ := []
  owner _ := none
  call _ := .idle none
  work _ := .loop
  regs := 0
  ran := []
  superseded := []
  failed := false

lemma noTimersStart : Start noTimers := by
  constructor <;> intros <;> rfl

def replacedRun : List (Act (Fin 1) (Fin 2) (Fin 1) (Fin 2) (Fin 1)) :=
  [.construct (.user 0) 0 0,.lock (.user 0) 0,
    .reschedule (.user 0) 0,.borrow (.user 0) 0 0,.register (.user 0),.insert (.user 0),
    .pop 0 0,.check 0,.claim 0,
    .reschedule (.user 0) 0,.borrow (.user 0) 1 1,.register (.user 0),.insert (.user 0),
    .pop 1 1,.check 1,.claim 1,.unlock (.user 0) 0,.enter 0,.finish 0,.push 0,.enter 1,
    .lock (.user 0) 0,.destroy (.user 0) 0,.revoke (.user 0),.revoke (.user 0),.drain (.user 0),
    .leave 1,.finish 1,.push 1,.wake (.user 0),.drain (.user 0)]

abbrev replaced : State (Fin 1) (Fin 2) (Fin 1) (Fin 2) (Fin 1) := Runs.final step (fun _ _ => True) noTimers replacedRun

theorem timersFireOnceReplaced :
    replaced.ran = [1] ∧ replaced.superseded = [0] ∧ replaced.timer 0 = none ∧ replaced.released 0 = [0] ∧
      replaced.released 1 = [1] ∧ ∀ c, ¬ (replaced.work c).Holds 0 :=
  ⟨rfl,rfl,rfl,rfl,rfl,
    ((timersFireOnce (Runs.reachFinal replacedRun noTimersStart rfl)).2.2.2.2 0 rfl).1⟩

end OsvKernel.TimerTask
