import OsvKernel.Runs

/-! One async_worker (core/async.cc) and its timer_set. A step is a section under the preempt_lock of the CPU, one round
of the loop over the expired tasks, or an access of another CPU. active is the content of all buckets. -/
namespace OsvKernel.AsyncWorker
open List Function Runs

/-- Who may use a percpu_timer_task. registered is ACTIVE, freeing and free are RELEASED, before and after free(). -/
inductive Stage where
  | unborn | borrowed | registered | firing | freeing | free
  deriving DecidableEq

inductive Worker (T : Type) where
  | waiting
  | popping
  | firing (task : T)
  deriving DecidableEq

structure State (T : Type) where
  active : List T
  expired : List T
  queued : T → Bool
  stage : T → Stage
  worker : Worker T
  misused : Bool
  failed : Bool

inductive Op (T : Type) where
  | create (task : T)
  | borrowTask (task : T)
  | insert (task : T)
  | cancel (task : T)
  | free (task : T)
  | expire (due : T → Bool)
  | popExpired
  | fired

section
variable {T : Type} [DecidableEq T]

def State.move (s : State T) (task : T) (stage : Stage) : State T := {s with stage := update s.stage task stage}

def State.markRemoved (s : State T) (task : T) : State T :=
  {s with queued := update s.queued task false, failed := s.failed || !s.queued task}

-- erase() unlinks the task from the list that it is in.
def State.removeLocked (s : State T) (task : T) : State T :=
  {s.markRemoved task with
    active := s.active.erase task
    expired := s.expired.erase task
    misused := s.misused || task ∉ s.active}

def step (s : State T) : Op T → Option (State T)
  | .create task => if s.stage task = .unborn then some (s.move task .borrowed) else none
  | .borrowTask task =>
    if s.stage task = .free ∧ s.worker ≠ .popping then
      some ((if s.queued task then s.removeLocked task else s).move task .borrowed)
    else none
  | .insert task =>
    if s.stage task = .borrowed ∧ s.worker ≠ .popping then
      some {s.move task .registered with
        active := s.active ++ [task], queued := update s.queued task true, failed := s.failed || s.queued task}
    else none
  | .cancel task => if s.stage task = .registered then some (s.move task .freeing) else none
  | .free task => if s.stage task = .freeing then some (s.move task .free) else none
  | .expire due =>
    if s.worker = .waiting then
      some {s with active := s.active.filter (!due ·), expired := s.expired ++ s.active.filter due, worker := .popping}
    else none
  | .popExpired =>
    match s.worker,s.expired with
    | .popping,[] => some {s with worker := .waiting}
    | .popping,task::rest =>
      let s := {s.markRemoved task with expired := rest}
      some (if s.stage task = .registered then {s.move task .firing with worker := .firing task} else s)
    | _,_ => none
  | .fired =>
    match s.worker with
    | .firing task => some {s.move task .freeing with worker := .popping}
    | _ => none

def Start (s : State T) : Prop :=
  s.active = [] ∧ s.expired = [] ∧ (∀ t, s.queued t = false) ∧ s.worker = .waiting ∧ s.misused = false ∧ s.failed = false

/-- failed: an assertion about queued has failed. -/
structure Linked (s : State T) : Prop where
  links : ∀ t, s.queued t = true ↔ t ∈ s.active ∨ t ∈ s.expired
  nodup : (s.active ++ s.expired).Nodup
  stages : ∀ t, s.queued t = true → s.stage t = .registered ∨ s.stage t = .freeing ∨ s.stage t = .free
  fine : s.failed = false

variable {s s' : State T} {op : Op T} {task : T} {stage : Stage}

lemma Linked.move (linked : Linked s)
    (suits : s.queued task = true → stage = .registered ∨ stage = .freeing ∨ stage = .free) : Linked (s.move task stage) := by
  refine {linked with stages := fun t queued => ?_}
  by_cases same : t = task
  · subst t
    simpa [State.move] using suits queued
  · simpa [State.move,same] using linked.stages t queued

lemma Linked.unlink (linked : Linked s) (queued : s.queued task = true) {active expired : List T} (misused : Bool)
    (nodup : (active ++ expired).Nodup) (gone : ∀ t, t ∈ active ++ expired ↔ t ∈ s.active ++ s.expired ∧ t ≠ task) :
    Linked {s.markRemoved task with active := active, expired := expired, misused := misused} := by
  have was : ∀ t, update s.queued task false t = true ↔ s.queued t = true ∧ t ≠ task := by
    intro t
    by_cases same : t = task <;> simp [same]
  refine ⟨fun t => ?_,nodup,fun t there => linked.stages t ((was t).mp there).1,?_⟩
  · rw [← mem_append,gone,mem_append,← linked.links]
    exact was t
  · simp [State.markRemoved,linked.fine,queued]

lemma Linked.step (linked : Linked s) (taken : step s op = some s') : Linked s' := by
  have fresh : ∀ {t}, s.stage t = .unborn ∨ s.stage t = .borrowed → ¬ s.queued t = true := by
    intro t at_ queued
    rcases linked.stages t queued with there | there | there <;> simp [there] at at_
  cases op <;> simp only [AsyncWorker.step] at taken <;> split at taken <;> cases taken
  case create.isTrue at_ => exact linked.move fun queued => absurd queued (fresh (.inl at_))
  case borrowTask.isTrue task _ =>
    split
    next queued =>
      obtain ⟨one,two,apart⟩ := nodup_append.mp linked.nodup
      have removed : Linked (s.removeLocked task) := by
        refine linked.unlink queued _ ((erase_sublist.append erase_sublist).nodup linked.nodup) fun t => ?_
        rw [mem_append,mem_append,one.mem_erase_iff,two.mem_erase_iff]
        grind
      exact removed.move fun again => by simp [State.removeLocked,State.markRemoved] at again
    next off => exact linked.move fun queued => absurd queued off
  case insert.isTrue task at_ =>
    have off := fresh (.inr at_.1)
    have out : task ∉ s.active ++ s.expired := by rwa [mem_append,← linked.links]
    refine ⟨fun t => ?_,?_,fun t queued => ?_,by simp [linked.fine,off]⟩
    · by_cases same : t = task <;> simp [State.move,same,linked.links]
    · rw [append_assoc]
      exact nodup_middle.mpr (nodup_cons.mpr ⟨out,linked.nodup⟩)
    by_cases same : t = task
    · simp [State.move,same]
    · simpa [State.move,same] using linked.stages t (by simpa [same] using queued)
  case cancel.isTrue => exact linked.move fun _ => .inr (.inl rfl)
  case free.isTrue => exact linked.move fun _ => .inr (.inr rfl)
  case expire.isTrue due _ =>
    have same : (s.active.filter (!due ·) ++ (s.expired ++ s.active.filter due)).Perm (s.active ++ s.expired) := by
      refine (perm_append_comm.append_left _).trans ?_
      rw [← append_assoc]
      exact (perm_append_comm.trans (filter_append_perm due s.active)).append_right _
    refine {linked with links := fun t => ?_, nodup := same.nodup_iff.mpr linked.nodup}
    rw [← mem_append,same.mem_iff,mem_append]
    exact linked.links t
  · exact {linked with}
  next task rest _ list =>
    have queued : s.queued task = true := (linked.links task).mpr (.inr (list ▸ mem_cons_self))
    have nodup := linked.nodup
    rw [list] at nodup
    obtain ⟨off,left⟩ := nodup_cons.mp (nodup_middle.mp nodup)
    have removed : Linked {s.markRemoved task with expired := rest} := by
      refine linked.unlink queued s.misused left fun t => ?_
      rw [list,perm_middle.mem_iff,mem_cons]
      exact ⟨fun mem => ⟨.inr mem,fun same => off (same ▸ mem)⟩,fun both => both.1.resolve_left both.2⟩
    split
    · have fires := @Linked.move T _ _ task .firing removed fun again => by simp [State.markRemoved] at again
      exact {fires with}
    · exact removed
  · exact {linked.move fun _ => .inr (.inl rfl) with}

lemma stepMisuses (linked : Linked s) (taken : step s op = some s') :
    s'.misused = true ↔ s.misused = true ∨ ∃ t, op = .borrowTask t ∧ t ∈ s.expired := by
  cases op <;> simp only [step] at taken <;> split at taken <;> cases taken
  case borrowTask.isTrue task _ =>
    have links := linked.links task
    have apart := (nodup_append.mp linked.nodup).2.2 task
    cases queued : s.queued task <;> simp [State.move,State.removeLocked] <;> grind
  all_goals simp [State.move]
  split <;> simp [State.markRemoved]

theorem tasksLinked {s : State T} (reach : Reach step (fun _ _ => True) Start s) :
    Linked s ∧ ∀ op s', step s op = some s' →
      (s'.misused = true ↔ s.misused = true ∨ ∃ t, op = .borrowTask t ∧ t ∈ s.expired) := by
  have linked : Linked s := by
    refine invariant (P := Linked) (fun s start => ?_) (fun s op s' linked _ taken => linked.step taken) reach
    obtain ⟨active,expired,queued,-,-,fine⟩ := start
    exact ⟨by simp [active,expired,queued],by simp [active,expired],by simp [queued],fine⟩
  exact ⟨linked,fun op s' => stepMisuses linked⟩

end

def nothingQueued : State (Fin 2) := ⟨[],[],fun _ => false,fun _ => .unborn,.waiting,false,false⟩

def recycledRun : List (Op (Fin 2)) :=
  [.create 0,.insert 0,.create 1,.insert 1,.expire fun _ => true,.popExpired,.cancel 1,.free 1,.borrowTask 1]

lemma nothingStarts : Start nothingQueued := ⟨rfl,rfl,fun _ => rfl,rfl,rfl,rfl⟩

theorem tasksLinkedRecycled : Linked (final step (fun _ _ => True) nothingQueued recycledRun) :=
  (tasksLinked (reachFinal recycledRun nothingStarts rfl)).1

theorem expiredRemoved :
    let s := final step (fun _ _ => True) nothingQueued recycledRun
    Reach step (fun _ _ => True) Start s ∧ s.misused = true :=
  ⟨reachFinal recycledRun nothingStarts rfl,rfl⟩

end OsvKernel.AsyncWorker
