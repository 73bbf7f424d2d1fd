import OsvKernel.Runs
import OsvKernel.Commands

/-! The handlers start, stop, is_running and metrics of the Click plugin, and the applications they launch. Requests
are handled one at a time; a main thread may terminate between two of them, or while stop sleeps. -/
namespace OsvKernel.VnfLifecycle
open List Option Bool Runs

structure Line where
  matched : Bool
  value : String
  deriving DecidableEq

structure File where
  opens : Bool
  headed : Bool
  lines : List Line
  nfMain : Bool
  nfStop : Bool
  deriving DecidableEq

def vnfFramework : Nat := 8
def vnfNetwork : Nat := 9

structure Header where
  checkStatus : Bool
  headerSequence : List String
  deriving DecidableEq

def admitted (framework network : String) : Bool :=
  (framework = "Click" || framework = "Python2") && (network = "VirtIO" || network = "DPDK") &&
    !(framework = "Python2" && network = "DPDK")

def headerValidate (file : File) : Header :=
  let head := file.lines.take 10
  let values := head.map Line.value
  ⟨file.opens && file.headed && head.length = 10 && head.all Line.matched &&
    admitted (values.getD vnfFramework "") (values.getD vnfNetwork ""),values⟩

def headerGet (h : Header) (component : Nat) : String :=
  if h.checkStatus && component ≤ 9 then h.headerSequence.getD component "" else ""

def headerExecuter (h : Header) : String :=
  if !h.checkStatus then ""
  else if h.headerSequence.getD vnfFramework "" = "Click" then
    if h.headerSequence.getD vnfNetwork "" = "DPDK" then
      "/click --dpdk --no-shconf -c 0x01 -n 1 --log-level 8 -m 64 -- --allow-reconfigure -p 8001 func.exe"
    else "/click --allow-reconfigure -p 8001 func.exe"
  else if h.headerSequence.getD vnfFramework "" = "Python2" then "/python func.exe"
  else ""

def parses (line : String) : Bool := (Commands.parseCommandLineMin line.toList).ok
def python2Check (file : File) : Bool := !(file.nfMain && file.nfStop)

inductive Tool
  | none | virtio | dpdk
  deriving DecidableEq

inductive Call
  | startVirtio | stopVirtio
  deriving DecidableEq

structure App where
  tid : Nat
  live : Bool
  joined : Bool
  deriving DecidableEq

structure Metrics where
  threadId : Nat
  clickToken : Bool
  app : Nat
  finished : Bool
  deriving DecidableEq

/-- The globals; app is the head of apps. apps and calls are newest first. -/
structure State where
  pid : Nat
  running : Bool
  header : Option Header
  clickMetrics : Option Metrics
  networkTool : Tool
  apps : List App
  calls : List Call
  deriving DecidableEq

def boot : State := ⟨0,false,none,none,.none,[],[]⟩

structure Launch where
  tid : Option Nat
  constructed : Bool
  deriving DecidableEq

def State.startVirtio (s : State) : State := { s with calls := .startVirtio::s.calls, networkTool := .virtio }
def State.stopVirtio (s : State) : State := if s.networkTool = .virtio then { s with calls := .stopVirtio::s.calls } else s

def State.launch (s : State) (click : Bool) (l : Launch) : State × Option String :=
  match l.tid with
  | none => (s,none)
  | some tid =>
    let t := { s with apps := ⟨tid,true,false⟩::s.apps, pid := tid }
    if tid ≠ 0 then
      if click && !l.constructed then (t,none)
      else ({ t with clickMetrics := some ⟨tid,click,s.apps.length,false⟩, running := true },
        some ("Sucess: PID " ++ toString tid))
    else (t,some ("Sucess: PID " ++ toString tid))

def startClick (s : State) (h : Header) (l : Launch) : State × Option String :=
  if headerGet h vnfNetwork = "VirtIO" then s.startVirtio.launch true l
  else { s with networkTool := .dpdk }.launch true l

def startPython2 (s : State) (h : Header) (file : File) (l : Launch) : State × Option String :=
  if python2Check file then (s,some ("Sucess: PID " ++ toString s.pid))
  else if headerGet h vnfNetwork = "VirtIO" then s.startVirtio.launch false l
  else s.launch false l

def start (s : State) (file : File) (l : Launch) : State × Option String :=
  if s.running then (s,some "Framework is already running")
  else
    let h := headerValidate file
    let t := { s with header := some h }
    if !h.checkStatus then (t,some "Invalid VNF Header")
    else if !parses (headerExecuter h) then (t,some "Invalid cmd line")
    else if headerGet h vnfFramework = "Click" then startClick t h l
    else if headerGet h vnfFramework = "Python2" then startPython2 t h file l
    else (t,some ("Sucess: PID " ++ toString t.pid))

def findById (s : State) (reused : Bool) (id : Nat) : Option Bool :=
  match s.apps.find? fun a => a.tid = id && !a.joined with
  | some a => some a.live
  | none => if reused && id ≠ 0 then some true else none

def thFinished (s : State) (reused : Bool) : Bool := findById s reused s.pid ≠ some true

def kill : List App → List App
  | [] => []
  | a::older => { a with live := false }::older

def stopClick (s : State) (dies reused : Bool) : State × Option String :=
  let t := { s with
    clickMetrics := s.clickMetrics.map fun m => { m with finished := true }
    apps := if dies then kill s.apps else s.apps }
  if thFinished t reused then ({ t.stopVirtio with running := false, networkTool := .none },some "Success")
  else (t,some "Error while stopping")

def stopPython2 (s : State) : State × Option String :=
  match s.apps with
  | [] => (s,none)
  | a::older =>
    if a.joined then (s,none)
    else
      let t := { s with apps := { a with live := false, joined := true }::older }
      ({ t.stopVirtio with running := false, networkTool := .none },some "Success")

def State.get (s : State) (component : Nat) : String := s.header.elim "" fun h => headerGet h component

def stop (s : State) (dies reused : Bool) : State × Option String :=
  if s.running then
    if s.get vnfFramework = "Click" then stopClick s dies reused
    else if s.get vnfFramework = "Python2" then stopPython2 s
    else (s,some "Framework is not running")
  else (s,some "Framework is not running")

def isRunning (s : State) (reused : Bool) : State := { s with running := !thFinished s reused }

inductive Action
  | start (file : File) (l : Launch)
  | stop (dies reused : Bool)
  | isRunning (reused : Bool)
  | metrics
  | terminate (k : Nat)
  deriving DecidableEq

def fresh (s : State) (l : Launch) : Bool := l.tid.all fun tid => tid ≠ 0 && s.apps.all fun a => a.joined || a.tid ≠ tid

def step (s : State) : Action → Option State
  | .start file l => if fresh s l then some (start s file l).1 else none
  | .stop dies reused => some (stop s dies reused).1
  | .isRunning reused => some (isRunning s reused)
  | .metrics => some s
  | .terminate k => some { s with apps := s.apps.modify k fun a => { a with live := false } }

def mainDead (s : State) : Bool := s.apps.head?.all fun a => !a.live

/-- No launch fails once start_virtio was called, no constructor of ClickMetrics throws, stop_click finds the main
thread terminated, is_running is not asked about a dead application on VirtIO that was not stopped, and no thread id
is reused. -/
def ok (s : State) : Action → Prop
  | .start file l => s.running = false →
    l.constructed = true ∧ (l.tid = none → headerGet (headerValidate file) vnfNetwork ≠ "VirtIO")
  | .stop dies reused => reused = false ∧
    (s.running = true → s.get vnfFramework = "Click" → dies = true ∨ mainDead s = true)
  | .isRunning reused => reused = false ∧
    (s.running = true → s.networkTool = .virtio → mainDead s = false)
  | .metrics => True
  | .terminate _ => True

instance (s : State) : (a : Action) → Decidable (ok s a)
  | .start _ _ => by unfold ok; infer_instance
  | .stop _ _ => by unfold ok; infer_instance
  | .isRunning _ => by unfold ok; infer_instance
  | .metrics => .isTrue trivial
  | .terminate _ => .isTrue trivial

def Call.following : Option Call → Call
  | some .startVirtio => .stopVirtio
  | some .stopVirtio | none => .startVirtio

def alternates : List Call → Bool
  | [] => true
  | c::older => c = .following older.head? && alternates older

def liveApps (s : State) : List App := s.apps.filter App.live
def metered (s : State) : Bool := s.clickMetrics.any fun m => m.app + 1 = s.apps.length && !m.finished

structure Inv (s : State) : Prop where
  older : ∀ a ∈ s.apps.tail, a.live = false
  newest : ∀ a ∈ s.apps.head?, s.pid = a.tid ∧ (a.joined = true → a.live = false)
  idle : s.running = false → mainDead s = true
  virtio : s.networkTool = .virtio ↔ s.calls.head? = some .startVirtio
  calls : alternates s.calls = true
  off : s.running = false → s.networkTool ≠ .virtio
  metered : s.running = true → metered s = true

variable {s t : State}

lemma mainDead.all (older : ∀ a ∈ s.apps.tail, a.live = false) (dead : mainDead s = true) :
    ∀ a ∈ s.apps, a.live = false := by
  unfold mainDead at dead
  rcases apps : s.apps with _ | ⟨a,rest⟩
  · simp
  rw [apps] at older dead
  intro b mem
  rcases mem_cons.mp mem with rfl | mem
  · simpa using dead
  · exact older b mem

lemma finishedDead (all : ∀ a ∈ s.apps, a.live = false) : thFinished s false = true := by
  unfold thFinished findById
  cases found : s.apps.find? fun a => a.tid = s.pid && !a.joined with
  | none => simp
  | some a => simp [all a (mem_of_find?_eq_some found)]

lemma Inv.thFinished (inv : Inv s) : thFinished s false = mainDead s := by
  cases dead : mainDead s
  case true => exact finishedDead (mainDead.all inv.older dead)
  have newest := inv.newest
  unfold mainDead at dead
  unfold VnfLifecycle.thFinished findById
  rcases apps : s.apps with _ | ⟨a,rest⟩
  · simp [apps] at dead
  rw [apps] at newest dead
  obtain ⟨same,joined⟩ := newest a rfl
  have live : a.live = true := by simpa using dead
  have unjoined : a.joined = false := eq_false_iff.mpr fun done => by simp [joined done] at live
  simp [same,unjoined,live]

structure Paired (s : State) : Prop where
  virtio : s.networkTool = .virtio ↔ s.calls.head? = some .startVirtio
  calls : alternates s.calls = true

lemma Inv.paired (inv : Inv s) : Paired s := ⟨inv.virtio,inv.calls⟩

lemma Paired.startVirtio (paired : Paired s) (off : s.networkTool ≠ .virtio) : Paired s.startVirtio := by
  have next : Call.following s.calls.head? = .startVirtio := by
    rcases last : s.calls.head? with _ | c
    · rfl
    cases c with
    | stopVirtio => rfl
    | startVirtio => exact absurd (paired.virtio.mpr last) off
  exact ⟨by simp [State.startVirtio],by simp [State.startVirtio,alternates,next,paired.calls]⟩

lemma Paired.stopVirtio (paired : Paired s) :
    Paired { s.stopVirtio with running := false, networkTool := .none } := by
  unfold State.stopVirtio
  split
  · next on =>
    have last := paired.virtio.mp on
    exact ⟨by simp,by simp [alternates,last,Call.following,paired.calls]⟩
  · next off => exact ⟨by simpa using mt paired.virtio.mpr off,paired.calls⟩

lemma Paired.quiet (paired : Paired s) (off : s.networkTool ≠ .virtio) : Paired { s with networkTool := .dpdk } :=
  ⟨by simpa using mt paired.virtio.mpr off,paired.calls⟩

variable {click dies reused : Bool} {l : Launch} {h : Header}

lemma Paired.launch (paired : Paired s) {tid : Nat} (all : ∀ a ∈ s.apps, a.live = false)
    (here : l.tid = some tid) (nonzero : tid ≠ 0) (constructed : l.constructed = true) : Inv (s.launch click l).1 := by
  have result : (s.launch click l).1 = { s with
      apps := ⟨tid,true,false⟩::s.apps, pid := tid,
      clickMetrics := some ⟨tid,click,s.apps.length,false⟩, running := true } := by
    simp [State.launch,here,nonzero,constructed]
  rw [result]
  constructor
  · exact all
  · intro a first
    cases first
    exact ⟨rfl,nofun⟩
  · intro off; cases off
  · exact paired.virtio
  · exact paired.calls
  · intro off; cases off
  · intro _; simp [metered]

lemma Inv.thrown (inv : Inv s) (here : l.tid = none) : Inv (s.launch click l).1 := by
  have result : (s.launch click l).1 = s := by simp [State.launch,here]
  rw [result]
  exact inv

section
variable (inv : Inv s) (off : s.running = false) (known : ∀ tid ∈ l.tid, tid ≠ 0) (constructed : l.constructed = true) (failed : l.tid = none → headerGet h vnfNetwork ≠ "VirtIO")
include inv off known constructed failed

lemma Inv.startClick : Inv (startClick s h l).1 := by
  have all := mainDead.all inv.older (inv.idle off)
  have down := inv.off off
  unfold VnfLifecycle.startClick
  split
  · next network =>
    cases here : l.tid with
    | none => exact absurd network (failed here)
    | some tid => exact (inv.paired.startVirtio down).launch all here (known tid here) constructed
  cases here : l.tid
  case some tid => exact (inv.paired.quiet down).launch all here (known tid here) constructed
  have quiet : Inv { s with networkTool := .dpdk } :=
    ⟨inv.older,inv.newest,inv.idle,(inv.paired.quiet down).virtio,inv.calls,fun _ => (nomatch ·),inv.metered⟩
  exact quiet.thrown here

lemma Inv.startPython2 {file : File} : Inv (startPython2 s h file l).1 := by
  have all := mainDead.all inv.older (inv.idle off)
  unfold VnfLifecycle.startPython2
  split
  · exact inv
  split
  · next network =>
    cases here : l.tid with
    | none => exact absurd network (failed here)
    | some tid => exact (inv.paired.startVirtio (inv.off off)).launch all here (known tid here) constructed
  cases here : l.tid with
  | none => exact inv.thrown here
  | some tid => exact inv.paired.launch all here (known tid here) constructed

end

lemma Inv.start (inv : Inv s) {file : File} (allowed : ok s (.start file l)) (new : fresh s l = true) :
    Inv (start s file l).1 := by
  have known : ∀ tid ∈ l.tid, tid ≠ 0 := by
    intro tid here
    rw [fresh,mem_def.mp here] at new
    simp only [all_some,and_eq_true,decide_eq_true_eq] at new
    exact new.1
  unfold VnfLifecycle.start
  split
  · exact inv
  next running =>
  have off := eq_false_iff.mpr running
  obtain ⟨constructed,failed⟩ := allowed off
  -- the new header alone changes nothing the invariant reads
  have next : Inv { s with header := some (headerValidate file) } :=
    ⟨inv.older,inv.newest,inv.idle,inv.virtio,inv.calls,inv.off,inv.metered⟩
  dsimp only
  repeat' split
  · exact next
  · exact next
  · exact next.startClick off known constructed failed
  · exact next.startPython2 off known constructed failed
  · exact next

lemma Paired.stopped (paired : Paired s) (newest : ∀ a ∈ s.apps.head?, s.pid = a.tid)
    (all : ∀ a ∈ s.apps, a.live = false) : Inv { s.stopVirtio with running := false, networkTool := .none } := by
  have apps : s.stopVirtio.apps = s.apps := by unfold State.stopVirtio; split <;> rfl
  have pid : s.stopVirtio.pid = s.pid := by unfold State.stopVirtio; split <;> rfl
  have down := paired.stopVirtio
  constructor
  · intro a mem
    exact all a (mem_of_mem_tail (apps ▸ mem))
  · intro a first
    have first : a ∈ s.apps.head? := apps ▸ first
    exact ⟨pid.trans (newest a first),fun _ => all a (mem_of_mem_head? first)⟩
  · intro _
    have dead : s.apps.head?.all fun a => !a.live := by
      cases first : s.apps.head? with
      | none => rfl
      | some a => simp [all a (mem_of_mem_head? first)]
    simpa only [mainDead,apps] using dead
  · exact down.virtio
  · exact down.calls
  · intro _; exact nofun
  · intro on; cases on

lemma Inv.stopClick (inv : Inv s) (ends : dies = true ∨ mainDead s = true) : Inv (stopClick s dies false).1 := by
  have all : ∀ a ∈ (if dies then kill s.apps else s.apps), a.live = false := by
    rcases dies with _ | _
    · exact mainDead.all inv.older (by simpa using ends)
    have older := inv.older
    intro a mem
    rcases apps : s.apps with _ | ⟨b,rest⟩
    · simp [apps,kill] at mem
    rw [apps] at older mem
    rcases mem_cons.mp mem with rfl | mem
    · rfl
    exact older a mem
  have newest : ∀ a ∈ (if dies then kill s.apps else s.apps).head?, s.pid = a.tid := by
    have before := inv.newest
    rcases dies with _ | _
    · exact fun a first => (before a first).1
    intro a first
    rcases apps : s.apps with _ | ⟨b,rest⟩
    · simp [apps,kill] at first
    rw [apps] at before first
    cases first
    exact (before b rfl).1
  dsimp only [VnfLifecycle.stopClick]
  rw [finishedDead all,if_pos rfl]
  exact Paired.stopped ⟨inv.virtio,inv.calls⟩ newest all

lemma Inv.stopPython2 (inv : Inv s) : Inv (stopPython2 s).1 := by
  have older := inv.older
  have newest := inv.newest
  unfold VnfLifecycle.stopPython2
  split
  · exact inv
  next a rest apps =>
  rw [apps] at older newest
  split
  · exact inv
  refine Paired.stopped ⟨inv.virtio,inv.calls⟩ ?_ ?_
  · intro b first
    cases first
    exact (newest a rfl).1
  intro b mem
  rcases mem_cons.mp mem with rfl | mem
  · rfl
  exact older b mem

lemma Inv.stop (inv : Inv s) (allowed : ok s (.stop dies reused)) : Inv (stop s dies reused).1 := by
  obtain ⟨rfl,ends⟩ := allowed
  unfold VnfLifecycle.stop
  split
  · next running =>
    split
    · next click => exact inv.stopClick (ends running click)
    split
    · exact inv.stopPython2
    · exact inv
  · exact inv

lemma Inv.isRunning (inv : Inv s) (allowed : ok s (.isRunning reused)) : Inv (isRunning s reused) := by
  obtain ⟨rfl,asked⟩ := allowed
  unfold VnfLifecycle.isRunning
  rw [inv.thFinished]
  cases dead : mainDead s
  case false =>
    have running : s.running = true := not_eq_false _ ▸ fun off => by rw [inv.idle off] at dead; cases dead
    exact ⟨inv.older,inv.newest,nofun,inv.virtio,inv.calls,nofun,fun _ => inv.metered running⟩
  refine ⟨inv.older,inv.newest,fun _ => dead,inv.virtio,inv.calls,?_,nofun⟩
  intro _ on
  cases running : s.running with
  | true => rw [asked running on] at dead; cases dead
  | false => exact inv.off running on

lemma modifyDead {apps : List App} (all : ∀ a ∈ apps, a.live = false) (k : Nat) :
    ∀ a ∈ apps.modify k fun a => { a with live := false }, a.live = false := by
  induction apps generalizing k with
  | nil => simp
  | cons b rest ih =>
    obtain ⟨first,others⟩ := forall_mem_cons.mp all
    cases k with
    | zero => exact forall_mem_cons.mpr ⟨rfl,others⟩
    | succ k => exact forall_mem_cons.mpr ⟨first,ih others k⟩

lemma Inv.terminate (inv : Inv s) (k : Nat) :
    Inv { s with apps := s.apps.modify k fun a => { a with live := false } } := by
  have metered : s.running = true →
    VnfLifecycle.metered { s with apps := s.apps.modify k fun a => { a with live := false } } = true := by
    intro running
    simpa only [VnfLifecycle.metered,length_modify] using inv.metered running
  rcases apps : s.apps with _ | ⟨a,rest⟩
  · rw [modify_nil,← apps]
    exact inv
  have older := inv.older
  have newest := inv.newest
  have idle := inv.idle
  rw [apps] at older newest metered
  rw [mainDead,apps] at idle
  cases k
  case succ k => exact ⟨modifyDead older k,newest,idle,inv.virtio,inv.calls,inv.off,metered⟩
  refine ⟨older,fun b first => ?_,fun _ => rfl,inv.virtio,inv.calls,inv.off,metered⟩
  cases first
  exact ⟨(newest a rfl).1,fun _ => rfl⟩

lemma Inv.step (inv : Inv s) {a : Action} (allowed : ok s a) (taken : step s a = some t) : Inv t := by
  cases a with
  | start file l =>
    obtain ⟨new,taken⟩ := ite_none_right_eq_some.mp taken
    exact some.inj taken ▸ inv.start allowed new
  | stop dies reused => exact some.inj taken ▸ inv.stop allowed
  | isRunning reused => exact some.inj taken ▸ inv.isRunning allowed
  | metrics => exact some.inj taken ▸ inv
  | terminate k => exact some.inj taken ▸ inv.terminate k

lemma Inv.boot : Inv boot := by
  constructor <;> simp [VnfLifecycle.boot,mainDead,alternates]

lemma Inv.liveApps (inv : Inv s) : (liveApps s).length ≤ 1 := by
  have older := inv.older
  unfold VnfLifecycle.liveApps
  rcases apps : s.apps with _ | ⟨a,rest⟩
  · simp
  rw [apps] at older
  have none : rest.filter App.live = [] := filter_eq_nil_iff.mpr fun b mem => by simp [older b mem]
  rw [filter_cons,none]
  split <;> simp

theorem lifecycleSound {s : State} (reach : Reach step ok (· = boot) s) :
    alternates s.calls = true ∧ (liveApps s).length ≤ 1 ∧ (s.running = true → metered s = true) := by
  have inv := invariant (P := Inv) (fun s first => by rw [first]; exact Inv.boot)
    (fun _ _ _ inv allowed taken => inv.step allowed taken) reach
  exact ⟨inv.calls,inv.liveApps,inv.metered⟩

def file (framework network : String) : File :=
  ⟨true,true,List.replicate 8 ⟨true,""⟩ ++ [⟨true,framework⟩,⟨true,network⟩],true,true⟩

def twoFunctions : List Action :=
  [.start (file "Click" "VirtIO") ⟨some 7,true⟩,.isRunning false,.metrics,.terminate 0,.stop false false,
    .start (file "Python2" "VirtIO") ⟨some 9,true⟩,.isRunning false]

theorem lifecycleSoundTwice :
    (final step ok boot twoFunctions).running = true ∧ metered (final step ok boot twoFunctions) = true := by
  have reach : Reach step ok (· = boot) (final step ok boot twoFunctions) :=
    reachFinal twoFunctions rfl rfl
  have running : (final step ok boot twoFunctions).running = true := rfl
  exact ⟨running,(lifecycleSound reach).2.2 running⟩

def endedByItself : List Action :=
  [.start (file "Click" "VirtIO") ⟨some 7,true⟩,.terminate 0,.isRunning false,
    .start (file "Click" "VirtIO") ⟨some 9,true⟩]

def stoppedLate : List Action := [.start (file "Click" "VirtIO") ⟨some 7,true⟩,.stop false false]

theorem lifecycleBroken : (∃ s, Reach step (fun _ _ => True) (· = boot) s ∧ alternates s.calls = false) ∧
      ∃ s, Reach step (fun _ _ => True) (· = boot) s ∧ s.running = true ∧ metered s = false :=
  ⟨⟨played step boot endedByItself,reachPlayed endedByItself rfl (fun _ _ _ => trivial) rfl,
      rfl⟩,
    ⟨played step boot stoppedLate,reachPlayed stoppedLate rfl (fun _ _ _ => trivial) rfl,
      rfl,rfl⟩⟩

end OsvKernel.VnfLifecycle
