import OsvKernel.Runs

/-! do_poll beside files whose readiness changes. Each access to a file (its poll function, its list of links
under the file's lock) is one step. A file announces a change by poll_wake, which is a step of its own; waking
holds the calls that are still to come. poll of a file is its readiness within the mask. T names the calls of
do_poll. -/
namespace OsvKernel.Poll
open List Function Option Bool Runs

abbrev Events := BitVec 16

def pollin : Events := 0x0001
def pollpri : Events := 0x0002
def pollout : Events := 0x0004
def pollerr : Events := 0x0008
def pollhup : Events := 0x0010
def pollnval : Events := 0x0020
def pollrdnorm : Events := 0x0040
def pollrdband : Events := 0x0080
def pollwrnorm : Events := 0x0100
def pollwrband : Events := 0x0200

def pollstandard : Events :=
  pollin ||| pollpri ||| pollout ||| pollrdnorm ||| pollrdband ||| pollwrband ||| pollerr ||| pollhup ||| pollnval

def pollRequestable : Events :=
  pollin ||| pollout ||| pollpri ||| pollrdnorm ||| pollwrnorm ||| pollrdband ||| pollwrband

def scanMask (events : Events) : Events := events ||| (pollstandard &&& ~~~pollRequestable)

structure PollFile (F : Type) where
  fp : Option F
  events : Events
  deriving DecidableEq

inductive Stage
  | idle
  | first (i n : Nat)
  | link (i : Nat)
  | recheck (i : Nat)
  | block
  | scan (i n : Nat)
  | uninstall (n : Nat)
  | done (n : Nat)
  deriving DecidableEq

def Stage.timed : Stage → Bool
  | .block => true
  | .scan _ _ => true
  | _ => false

structure Poller (F : Type) where
  pfd : List (PollFile F)
  revents : List Events
  timeout : Bool
  stage : Stage
  awake : Bool
  expired : Bool
  deriving DecidableEq

structure State (F T : Type) where
  ready : F → Events
  links : F → List (T × Events)
  waking : List (F × Events)
  pollers : T → Poller F

section
variable {F T : Type} [DecidableEq F] [DecidableEq T]

def State.set (s : State F T) (t : T) (p : Poller F) : State F T := { s with pollers := update s.pollers t p }

def scanEntry (ready : F → Events) (entry : PollFile F) : Events × Nat :=
  match entry.fp with
  | none => (pollnval,1)
  | some f =>
    let revents := ready f &&& scanMask entry.events
    (if revents &&& pollhup ≠ 0 then revents &&& ~~~pollout else revents,if revents ≠ 0 then 1 else 0)

def pollWake (s : State F T) (f : F) (events : Events) : State F T :=
  { s with pollers := fun t =>
    if ∃ l ∈ s.links f, l.1 = t ∧ l.2 &&& events ≠ 0 then { s.pollers t with awake := true } else s.pollers t }

def pushLink (s : State F T) (f : F) (l : T × Events) : State F T :=
  { s with links := update s.links f (s.links f ++ [l]) }

def unlink (t : T) (links : F → List (T × Events)) (entry : PollFile F) : F → List (T × Events) :=
  match entry.fp with
  | none => links
  | some f => update links f ((links f).eraseP fun l => l.1 = t)

def pollUninstall (s : State F T) (t : T) (pfd : List (PollFile F)) : State F T :=
  { s with links := pfd.foldl (unlink t) s.links }

def advance (s : State F T) (t : T) : Option (State F T) :=
  let p := s.pollers t
  match p.stage with
  | .idle => none
  | .first i n =>
    match p.pfd[i]? with
    | some entry =>
      let seen := scanEntry s.ready entry
      some (s.set t { p with revents := p.revents ++ [seen.1], stage := .first (i + 1) (n + seen.2) })
    | none => some (s.set t { p with stage := if n ≠ 0 ∨ ¬p.timeout then .done n else .link 0 })
  | .link i =>
    match p.pfd[i]? with
    | some entry =>
      -- poll_install asserts that there is a file
      entry.fp.map fun f => (pushLink s f (t,scanMask entry.events)).set t { p with stage := .recheck i }
    | none => some (s.set t { p with stage := .block })
  | .recheck i =>
    match p.pfd[i]? with
    | some entry =>
      entry.fp.map fun f =>
        if s.ready f &&& entry.events ≠ 0 then s.set t { p with awake := true, stage := .block }
        else s.set t { p with stage := .link (i + 1) }
    | none => none
  | .block =>
    if p.awake then some (s.set t { p with awake := false, revents := [], stage := .scan 0 0 })
    else if p.expired then some (s.set t { p with stage := .uninstall 0 })
    else none
  | .scan i n =>
    match p.pfd[i]? with
    | some entry =>
      let seen := scanEntry s.ready entry
      some (s.set t { p with revents := p.revents ++ [seen.1], stage := .scan (i + 1) (n + seen.2) })
    | none => some (s.set t { p with stage := if n = 0 ∧ ¬p.expired then .block else .uninstall n })
  | .uninstall n => some ((pollUninstall s t p.pfd).set t { p with stage := .done n })
  | .done _ => none

inductive Action (F T : Type)
  /-- The file has other events now and will call poll_wake with the given ones. -/
  | change (f : F) (ready events : Events)
  | pollWake (f : F) (events : Events)
  | poll (t : T) (pfd : List (PollFile F)) (timeout : Bool)
  | run (t : T)
  | expire (t : T)

def step (s : State F T) : Action F T → Option (State F T)
  | .change f ready events =>
    -- the new events are among those it announces
    if ready &&& ~~~s.ready f &&& ~~~events = 0 then
      some { s with ready := update s.ready f ready, waking := (f,events)::s.waking }
    else none
  | .pollWake f events =>
    if (f,events) ∈ s.waking then some (pollWake { s with waking := s.waking.erase (f,events) } f events) else none
  | .poll t pfd timeout =>
    if s.pollers t = ⟨[],[],false,.idle,false,false⟩ then some (s.set t ⟨pfd,[],timeout,.first 0 0,false,false⟩) else none
  | .run t => advance s t
  | .expire t =>
    if (s.pollers t).stage.timed then some (s.set t { s.pollers t with expired := true }) else none

def start (ready : F → Events) : State F T := ⟨ready,fun _ => [],[],fun _ => ⟨[],[],false,.idle,false,false⟩⟩

/-! Masks. -/

variable {events ready : Events} {entries pfd : List (PollFile F)} {f : F} {p : Poller F} {i : Nat}

lemma announcedEvent {old new mask : Events} (covers : new &&& ~~~old &&& ~~~events = 0)
    (before : old &&& mask = 0) (after : new &&& mask ≠ 0) : events &&& mask ≠ 0 := by
  intro none
  apply after
  ext i lt
  have one := congrArg (·.getLsbD i) covers
  have two := congrArg (·.getLsbD i) before
  have three := congrArg (·.getLsbD i) none
  simp [lt] at one two three ⊢
  grind

/-! The invariant. -/

variable {s u : State F T} {t v : T} {entry : PollFile F}

def Linked (s : State F T) (t : T) (entry : PollFile F) : Prop :=
  ∀ f ∈ entry.fp, (t,scanMask entry.events) ∈ s.links f

def Noticed (s : State F T) (t : T) (entry : PollFile F) : Prop :=
  ∀ f, entry.fp = some f → s.ready f &&& scanMask entry.events ≠ 0 →
    (s.pollers t).awake = true ∨ ∃ events, (f,events) ∈ s.waking ∧ events &&& scanMask entry.events ≠ 0

def Watched (s : State F T) (t : T) (entries : List (PollFile F)) : Prop :=
  ∀ entry ∈ entries, Linked s t entry ∧ Noticed s t entry

def PollerOk (s : State F T) (t : T) : Prop :=
  match (s.pollers t).stage with
  | .link i => Watched s t ((s.pollers t).pfd.take i)
  | .recheck i =>
    Watched s t ((s.pollers t).pfd.take i) ∧ ∀ entry, (s.pollers t).pfd[i]? = some entry → Linked s t entry
  | .block => (s.pollers t).awake = true ∨ Watched s t (s.pollers t).pfd
  | .scan i n => n = 0 → (∀ entry ∈ (s.pollers t).pfd, Linked s t entry) → Watched s t ((s.pollers t).pfd.take i)
  | _ => True

def stageOk (s : State F T) (t : T) : Stage → Prop
  | .recheck i => ∀ entry ∈ (s.pollers t).pfd[i]?, ∀ f ∈ entry.fp,
    s.ready f &&& scanMask entry.events ≠ 0 → s.ready f &&& entry.events ≠ 0
  | .scan i n => (s.pollers t).pfd[i]? = none → n = 0 → (s.pollers t).expired = false →
    ∀ entry ∈ (s.pollers t).pfd, Linked s t entry
  | _ => True

def ok (s : State F T) : Action F T → Prop
  | .run t => stageOk s t (s.pollers t).stage
  | _ => True

instance (s : State F T) (t : T) (entry : PollFile F) : Decidable (Linked s t entry) := by
  unfold Linked
  infer_instance

instance (s : State F T) (t : T) : ∀ stage, Decidable (stageOk s t stage)
  | .recheck i => inferInstanceAs (Decidable (∀ entry ∈ (s.pollers t).pfd[i]?, ∀ f ∈ entry.fp,
    s.ready f &&& scanMask entry.events ≠ 0 → s.ready f &&& entry.events ≠ 0))
  | .scan i n => inferInstanceAs (Decidable ((s.pollers t).pfd[i]? = none → n = 0 → (s.pollers t).expired = false →
    ∀ entry ∈ (s.pollers t).pfd, Linked s t entry))
  | .idle | .first _ _ | .link _ | .block | .uninstall _ | .done _ => .isTrue trivial

instance (s : State F T) : ∀ a, Decidable (ok s a)
  | .run t => inferInstanceAs (Decidable (stageOk s t (s.pollers t).stage))
  | .change _ _ _ | .pollWake _ _ | .poll _ _ _ | .expire _ => .isTrue trivial

structure Same (s u : State F T) (t : T) : Prop where
  poller : u.pollers t = s.pollers t
  ready : u.ready = s.ready
  waking : u.waking = s.waking
  links : ∀ f m, (t,m) ∈ u.links f ↔ (t,m) ∈ s.links f

lemma Same.linked (same : Same s u t) : Linked u t entry ↔ Linked s t entry := by
  unfold Linked
  simp only [same.links]

lemma Same.watched (same : Same s u t) (watched : Watched s t entries) : Watched u t entries := by
  intro entry mem
  refine ⟨same.linked.mpr (watched entry mem).1,?_⟩
  unfold Noticed
  rw [same.poller,same.ready,same.waking]
  exact (watched entry mem).2

lemma Same.pollerOk (same : Same s u t) (ok : PollerOk s t) : PollerOk u t := by
  unfold PollerOk at ok ⊢
  rw [same.poller]
  split at ok
  · exact same.watched ok
  · exact ⟨same.watched ok.1,fun entry at_ => same.linked.mpr (ok.2 entry at_)⟩
  · exact ok.imp id same.watched
  · exact fun none all => same.watched (ok none fun entry mem => same.linked.mp (all entry mem))
  · trivial

/-! Steps of the files. -/

lemma Watched.change (covers : ready &&& ~~~s.ready f &&& ~~~events = 0) (watched : Watched s t entries) :
    Watched { s with ready := update s.ready f ready, waking := (f,events)::s.waking } t entries := by
  intro entry mem
  refine ⟨(watched entry mem).1,fun g file reports => ?_⟩
  by_cases here : g = f ∧ s.ready f &&& scanMask entry.events = 0
  · obtain ⟨rfl,before⟩ := here
    simp only [update_self] at reports
    exact .inr ⟨events,.head _,announcedEvent covers before reports⟩
  have before : s.ready g &&& scanMask entry.events ≠ 0 := by
    intro none
    by_cases same : g = f
    · exact here ⟨same,same ▸ none⟩
    simp only [update_of_ne same] at reports
    exact reports none
  exact ((watched entry mem).2 g file before).imp id fun ⟨e,there,hits⟩ => ⟨e,.tail _ there,hits⟩

lemma wakeAwake (s : State F T) (f : F) (events : Events) (t : T) : (pollWake s f events).pollers t =
      { s.pollers t with awake := (s.pollers t).awake || decide (∃ l ∈ s.links f, l.1 = t ∧ l.2 &&& events ≠ 0) } := by
  dsimp only [pollWake]
  split
  next hit => rw [decide_eq_true hit,Bool.or_true]
  next miss => rw [decide_eq_false miss,Bool.or_false]

lemma Watched.wake (watched : Watched s t entries) :
    Watched (pollWake { s with waking := s.waking.erase (f,events) } f events) t entries := by
  intro entry mem
  refine ⟨(watched entry mem).1,fun g file reports => ?_⟩
  rw [wakeAwake]
  dsimp only
  rcases (watched entry mem).2 g file reports with awake | ⟨e,there,hits⟩
  · exact .inl (by rw [awake,Bool.true_or])
  by_cases this : (g,e) = (f,events)
  · cases this
    refine .inl ?_
    rw [or_eq_true,decide_eq_true_eq]
    refine .inr ⟨_,(watched entry mem).1 f file,rfl,?_⟩
    rwa [BitVec.and_comm]
  · exact .inr ⟨e,(mem_erase_of_ne this).mpr there,hits⟩

lemma PollerOk.keep (ok : PollerOk s t) (stage : (u.pollers t).stage = (s.pollers t).stage)
    (pfd : (u.pollers t).pfd = (s.pollers t).pfd) (raised : (s.pollers t).awake = true → (u.pollers t).awake = true)
    (links : u.links = s.links) (keeps : ∀ entries, Watched s t entries → Watched u t entries) : PollerOk u t := by
  have linked : ∀ entry, Linked u t entry ↔ Linked s t entry := by
    intro entry
    unfold Linked
    rw [links]
  unfold PollerOk at ok ⊢
  rw [stage,pfd]
  split at ok
  · exact keeps _ ok
  · exact ⟨keeps _ ok.1,fun entry at_ => (linked entry).mpr (ok.2 entry at_)⟩
  · exact ok.imp raised (keeps _)
  · exact fun none all => keeps _ (ok none fun entry mem => (linked entry).mp (all entry mem))
  · trivial

lemma PollerOk.change (covers : ready &&& ~~~s.ready f &&& ~~~events = 0) (ok : PollerOk s t) :
    PollerOk { s with ready := update s.ready f ready, waking := (f,events)::s.waking } t :=
  ok.keep rfl rfl id rfl fun _ watched => watched.change covers

lemma PollerOk.wake (f : F) (events : Events) (ok : PollerOk s t) :
    PollerOk (pollWake { s with waking := s.waking.erase (f,events) } f events) t := by
  have poller := wakeAwake { s with waking := s.waking.erase (f,events) } f events t
  refine ok.keep (by rw [poller]) (by rw [poller]) (fun awake => ?_) rfl fun _ watched => watched.wake
  rw [poller]
  exact or_eq_true_iff.mpr (.inl awake)

/-! Steps of a call. -/

lemma setPollers (s : State F T) (t : T) (p : Poller F) (v : T) :
    (s.set t p).pollers v = if v = t then p else s.pollers v :=
  update_apply s.pollers t p v

lemma sameSet (apart : v ≠ t) (p : Poller F) : Same s (s.set t p) v :=
  ⟨by rw [setPollers,if_neg apart],rfl,rfl,fun _ _ => Iff.rfl⟩

lemma samePush (apart : v ≠ t) (f : F) (m : Events) : Same s (pushLink s f (t,m)) v := by
  refine ⟨rfl,rfl,rfl,fun g k => ?_⟩
  simp only [pushLink,update_apply]
  split
  next here => simp [here,apart]
  · rfl

lemma unlinkMem (apart : v ≠ t) (links : F → List (T × Events)) (entry : PollFile F) (f : F) (m : Events) :
    (v,m) ∈ unlink t links entry f ↔ (v,m) ∈ links f := by
  unfold unlink
  rcases entry.fp with _ | g
  · rfl
  simp only [update_apply]
  split
  next here =>
    rw [here]
    exact mem_eraseP_of_neg (by simpa using apart)
  · rfl

lemma sameUninstall (apart : v ≠ t) (pfd : List (PollFile F)) : Same s (pollUninstall s t pfd) v := by
  refine ⟨rfl,rfl,rfl,fun f m => ?_⟩
  dsimp only [pollUninstall]
  generalize s.links = links
  induction pfd generalizing links with
  | nil => rfl
  | cons entry pfd ih => exact (ih _).trans (unlinkMem apart links entry f m)

lemma Same.trans {w : State F T} (one : Same s u t) (two : Same u w t) : Same s w t :=
  ⟨two.poller.trans one.poller,two.ready.trans one.ready,two.waking.trans one.waking,
    fun f m => (two.links f m).trans (one.links f m)⟩

lemma advanceSame (apart : v ≠ t) (taken : advance s t = some u) : Same s u v := by
  unfold advance at taken
  dsimp only at taken
  split at taken <;> try split at taken
  all_goals try cases taken
  all_goals try exact sameSet apart _
  · obtain ⟨f,_,rfl⟩ := map_eq_some_iff.mp taken
    exact (samePush apart f _).trans (sameSet apart _)
  · obtain ⟨f,_,rfl⟩ := map_eq_some_iff.mp taken
    split <;> exact sameSet apart _
  · obtain ⟨_,eq⟩ := ite_none_right_eq_some.mp taken
    cases eq
    exact sameSet apart _
  · exact (sameUninstall apart _).trans (sameSet apart _)

lemma Watched.set (watched : Watched s t entries)
    (raised : (s.pollers t).awake = true → p.awake = true) : Watched (s.set t p) t entries := by
  intro entry mem
  refine ⟨(watched entry mem).1,fun f file reports => ?_⟩
  rw [setPollers,if_pos rfl]
  exact ((watched entry mem).2 f file reports).imp raised id

lemma Watched.push (watched : Watched s t entries) (f : F) (l : T × Events) : Watched (pushLink s f l) t entries := by
  intro entry mem
  refine ⟨fun g file => ?_,(watched entry mem).2⟩
  simp only [pushLink,update_apply]
  split
  next here => exact mem_append_left _ (here ▸ (watched entry mem).1 g file)
  · exact (watched entry mem).1 g file

lemma watchedTake (at_ : pfd[i]? = some entry) (before : Watched s t (pfd.take i))
    (here : Linked s t entry ∧ Noticed s t entry) : Watched s t (pfd.take (i + 1)) := by
  intro other mem
  rw [take_add_one,at_,toList_some,mem_append,mem_singleton] at mem
  rcases mem with old | rfl
  · exact before other old
  · exact here

lemma watchedAll (end_ : pfd[i]? = none) (watched : Watched s t (pfd.take i)) : Watched s t pfd := by
  rwa [take_of_length_le (List.getElem?_eq_none_iff.mp end_)] at watched

lemma scanNothing {ready : F → Events} (none : (scanEntry ready entry).2 = 0) :
    ∀ f, entry.fp = some f → ready f &&& scanMask entry.events = 0 := by
  intro f file
  unfold scanEntry at none
  rw [file] at none
  by_contra reports
  cases (if_pos reports).symm.trans none

section
variable (at_ : u.pollers t = p)
include at_

lemma pollerOkLink (stage : p.stage = .link i) (watched : Watched u t (p.pfd.take i)) : PollerOk u t := by
  unfold PollerOk
  rw [at_,stage]
  exact watched

lemma pollerOkBlock (stage : p.stage = .block) (watched : p.awake = true ∨ Watched u t p.pfd) : PollerOk u t := by
  unfold PollerOk
  rw [at_,stage]
  exact watched

lemma pollerOkScan {n : Nat} (stage : p.stage = .scan i n)
    (watched : n = 0 → (∀ entry ∈ p.pfd, Linked u t entry) → Watched u t (p.pfd.take i)) : PollerOk u t := by
  unfold PollerOk
  rw [at_,stage]
  exact watched

lemma pollerOkFree
    (stage : (∃ i n, p.stage = .first i n) ∨ (∃ n, p.stage = .uninstall n) ∨ ∃ n, p.stage = .done n) : PollerOk u t := by
  unfold PollerOk
  rw [at_]
  rcases stage with ⟨i,n,h⟩ | ⟨n,h⟩ | ⟨n,h⟩
  all_goals
    rw [h]
    trivial

end

lemma Linked.push (s : State F T) (t : T) (file : entry.fp = some f) :
    Linked (pushLink s f (t,scanMask entry.events)) t entry := by
  intro g other
  cases file.symm.trans other
  simp [pushLink]

lemma PollerOk.advance (ok : PollerOk s t) (allowed : Poll.ok s (.run t)) (taken : advance s t = some u) : PollerOk u t := by
  have self : ∀ (w : State F T) (p : Poller F), (w.set t p).pollers t = p := fun w p => by rw [setPollers,if_pos rfl]
  unfold PollerOk at ok
  simp only [Poll.ok] at allowed
  simp only [Poll.advance] at taken
  split at taken
  · cases taken
  next n at_ =>
    split at taken
    · cases taken
      exact pollerOkFree (self _ _) (.inl ⟨_,_,rfl⟩)
    cases taken
    by_cases ends : n ≠ 0 ∨ ¬(s.pollers t).timeout = true
    · exact pollerOkFree (self _ _) (.inr (.inr ⟨n,if_pos ends⟩))
    refine pollerOkLink (self _ _) (if_neg ends) ?_
    simp [Watched]
  next i at_ =>
    rw [at_] at ok
    split at taken
    next entry here =>
      obtain ⟨f,file,rfl⟩ := map_eq_some_iff.mp taken
      have before := (Watched.push ok f (t,scanMask entry.events)).set (p := { s.pollers t with stage := .recheck i }) id
      unfold PollerOk
      rw [self]
      refine ⟨before,fun other there => ?_⟩
      cases here.symm.trans there
      exact Linked.push s t file
    next ends =>
      cases taken
      exact pollerOkBlock (self _ _) rfl (.inr ((watchedAll ends ok).set id))
  next at_ =>
    rw [at_] at ok allowed
    split at taken
    next entry here =>
      obtain ⟨f,file,rfl⟩ := map_eq_some_iff.mp taken
      split
      · exact pollerOkBlock (self _ _) rfl (.inl rfl)
      rename_i nothing
      have noticed : Noticed s t entry := by
        intro g other reports
        cases file.symm.trans other
        exact absurd (allowed entry here f file reports) nothing
      exact pollerOkLink (self _ _) rfl ((watchedTake here ok.1 ⟨ok.2 entry here,noticed⟩).set id)
    · cases taken
  next at_ =>
    split at taken
    · cases taken
      refine pollerOkScan (self _ _) rfl fun _ _ => ?_
      simp [Watched]
    obtain ⟨_,eq⟩ := ite_none_right_eq_some.mp taken
    cases eq
    exact pollerOkFree (self _ _) (.inr (.inl ⟨0,rfl⟩))
  next n at_ =>
    rw [at_] at ok allowed
    split at taken
    next entry here =>
      cases taken
      refine pollerOkScan (self _ _) rfl fun none all => ?_
      obtain ⟨rfl,nothing⟩ := Nat.add_eq_zero_iff.mp none
      have noticed : Noticed s t entry := fun f file reports => absurd (scanNothing nothing f file) reports
      exact (watchedTake here (ok rfl all) ⟨all entry (mem_of_getElem? here),noticed⟩).set id
    rename_i ends
    cases taken
    by_cases waits : n = 0 ∧ ¬(s.pollers t).expired = true
    · refine pollerOkBlock (self _ _) (if_pos waits) (.inr ?_)
      have all := allowed ends waits.1 (eq_false_iff.mpr waits.2)
      exact (watchedAll ends (ok waits.1 all)).set id
    · exact pollerOkFree (self _ _) (.inr (.inl ⟨n,if_neg waits⟩))
  next n at_ =>
    cases taken
    exact pollerOkFree (self _ _) (.inr (.inr ⟨n,rfl⟩))
  · cases taken

lemma pollersStep (before : ∀ t, PollerOk s t) {a : Action F T} (allowed : ok s a) (taken : step s a = some u) (t : T) :
    PollerOk u t := by
  cases a <;> simp only [step] at taken
  case run v =>
    by_cases same : t = v
    · cases same
      exact (before t).advance allowed taken
    · exact (advanceSame same taken).pollerOk (before t)
  all_goals split at taken <;> cases taken
  case change.isTrue covers => exact (before t).change covers
  case pollWake.isTrue f events _ => exact (before t).wake f events
  case poll.isTrue v _ _ _ =>
    by_cases same : t = v
    · exact pollerOkFree (by rw [setPollers,if_pos same]) (.inl ⟨0,0,rfl⟩)
    · exact (sameSet same _).pollerOk (before t)
  case expire.isTrue v _ =>
    by_cases same : t = v
    · cases same
      have self := (setPollers s t { s.pollers t with expired := true } t).trans (if_pos rfl)
      exact (before t).keep (by rw [self]) (by rw [self]) (fun awake => by rw [self]; exact awake) rfl
        fun _ watched => watched.set id
    · exact (sameSet same _).pollerOk (before t)

/-- A blocked call has no event that the scan would report, except one whose poll_wake is still to come. -/
def Sound (s : State F T) : Prop :=
  ∀ t, (s.pollers t).stage = .block → (s.pollers t).awake = false → ∀ entry ∈ (s.pollers t).pfd, ∀ f, entry.fp = some f →
    s.ready f &&& scanMask entry.events = 0 ∨
      ∃ events, (f,events) ∈ s.waking ∧ events &&& scanMask entry.events ≠ 0

theorem noLostPoll {ready : F → Events} (reach : Reach step ok (· = (start ready : State F T)) s) : Sound s := by
  have inv : ∀ t, PollerOk s t := by
    refine invariant (P := fun s => ∀ t, PollerOk s t) ?_ (fun _ _ _ before allowed taken => pollersStep before allowed taken)
      reach
    rintro _ rfl t
    trivial
  intro t stage awake entry mem f file
  have ok := inv t
  unfold PollerOk at ok
  rw [stage] at ok
  rcases ok with raised | watched
  · cases awake.symm.trans raised
  by_cases reports : s.ready f &&& scanMask entry.events = 0
  · exact .inl reports
  · exact .inr (((watched entry mem).2 f file reports).resolve_left fun raised => nomatch awake.symm.trans raised)

end

/-! Two files and one call. -/

def quiet : State (Fin 2) (Fin 1) := start fun _ => 0

def hangup : List (Action (Fin 2) (Fin 1)) :=
  [.poll 0 [⟨some 0,pollin⟩] true,.run 0,.run 0,.change 0 pollhup pollhup,.pollWake 0 pollhup,.run 0,.run 0,.run 0]

def cutShort : List (Action (Fin 2) (Fin 1)) :=
  [.poll 0 [⟨some 0,pollin⟩,⟨some 1,pollin⟩] true,.run 0,.run 0,.run 0,.change 0 pollin pollin,.pollWake 0 pollin,.run 0,
    .run 0,.change 0 0 0,.pollWake 0 0,.run 0,.run 0,.run 0,.run 0,.change 1 pollin pollin,.pollWake 1 pollin]

def inTime : List (Action (Fin 2) (Fin 1)) :=
  [.poll 0 [⟨some 0,pollin⟩,⟨some 1,pollin⟩] true,.run 0,.run 0,.run 0,.run 0,.run 0,.run 0,.run 0,.run 0,
    .change 0 pollin pollin]

theorem noLostPollInTime :
    ((final step ok quiet inTime).pollers 0).stage = .block ∧ Sound (final step ok quiet inTime) := by
  have reach : Reach step ok (· = start fun _ => 0) (final step ok quiet inTime) :=
    reachFinal inTime rfl (by decide)
  exact ⟨by decide,noLostPoll reach⟩

theorem eventsMissed :
    (Reach step (fun _ _ => True) (· = quiet) (played step quiet hangup) ∧ ¬Sound (played step quiet hangup)) ∧
    (Reach step (fun _ _ => True) (· = quiet) (played step quiet cutShort) ∧
      ¬Sound (played step quiet cutShort)) := by
  have lost : ∀ run f, ((played step quiet run).pollers 0).stage = .block →
    ((played step quiet run).pollers 0).awake = false → ⟨some f,pollin⟩ ∈ ((played step quiet run).pollers 0).pfd →
    (played step quiet run).ready f &&& scanMask pollin ≠ 0 → (played step quiet run).waking = [] →
    ¬Sound (played step quiet run) := by
    intro run f blocked awake mem reports none sound
    rcases sound 0 blocked awake _ mem f rfl with nothing | ⟨events,there,_⟩
    · exact reports nothing
    rw [none] at there
    cases there
  refine ⟨⟨reachPlayed _ rfl (fun _ _ _ => trivial) (by decide),lost hangup 0 ?_ ?_ ?_ ?_ ?_⟩,
    reachPlayed _ rfl (fun _ _ _ => trivial) (by decide),lost cutShort 1 ?_ ?_ ?_ ?_ ?_⟩
  all_goals decide

end OsvKernel.Poll
