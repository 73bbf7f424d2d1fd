import OsvKernel.Calls
import OsvKernel.Runs
import OsvKernel.Words

/-! The file table of fs/vfs/kern_descrip.cc. A section under gfdt_lock is one step, and so is each access
to f_count and each read of a slot without the lock. D is FDMAX. -/
namespace OsvKernel.FileTable
open List Function Option Runs Nat Int Words

inductive Frame (F : Type) where
  | scan (f : F) (fd : Nat)
  | install (f : F) (fd : Nat)
  | swap (fd : Int) (f : F)
  | drop (f : F)
  | dropCas (f : F) (o : Int)
  | stopPolls (f : F)
  | close (f : F)
  | load (f : F)
  | loadCas (f : F) (c : Int)
  | got (f : F)
  deriving DecidableEq

/-- The table and the counts; own, made, freed, closes and disposed are history: the references of each thread,
the files there are, how often fdrop went on to close() and how often close() was called, and rcu_dispose. -/
structure State (T F : Type) where
  gfdt : Int → Option F
  count : F → Int
  stack : T → List (Frame F)
  own : T → F → Nat
  made : F → Bool
  freed : F → Nat
  closes : F → Nat
  disposed : F → Bool

inductive Call (F : Type) where
  | fdalloc (f : F) (minFd : Nat)
  | fdclose (fd : Int)
  | fdset (fd : Int) (f : F)
  | fget (fd : Int)
  | fhold (f : F)
  | fdrop (f : F)

inductive Op (T F : Type) where
  | create (t : T) (f : F)
  | call (t : T) (c : Call F)
  | run (t : T) (fail : Bool)
  | hand (t u : T) (f : F)

def intMin : Int := -2^31

def Valid (D : Nat) (fd : Int) : Prop := 0 ≤ fd ∧ fd < D
  deriving Decidable

def Frame.busy {F : Type} : Frame F → Bool
  | .stopPolls _ => true
  | .close _ => true
  | _ => false

def Frame.carried {F : Type} : Frame F → Option F
  | .scan f _ => some f
  | .install f _ => some f
  | .swap _ f => some f
  | .drop f => some f
  | .dropCas f _ => some f
  | .got f => some f
  | _ => none

open State Frame

lemma busyCarried {F : Type} (x : Frame F) (busy : x.busy = true) : x.carried = none := by
  cases x <;> first | rfl | cases busy

def kind (F : Type) : Calls.Kind (Frame F) F := ⟨Frame.busy,Frame.carried,busyCarried⟩

section
variable {T F : Type} [DecidableEq T] [DecidableEq F]

namespace State

def goto (s : State T F) (t : T) (stack : List (Frame F)) : State T F :=
  { s with stack := update s.stack t stack }

def push (s : State T F) (t : T) (x : Frame F) : State T F := s.goto t (x::s.stack t)
def put (s : State T F) (fd : Int) (o : Option F) : State T F := { s with gfdt := update s.gfdt fd o }

def refer (s : State T F) (t : T) (f : F) (n : Nat) : State T F :=
  { s with own := update s.own t (update (s.own t) f n) }

def take (s : State T F) (t : T) (f : F) : State T F := s.refer t f (s.own t f + 1)
def give (s : State T F) (t : T) (f : F) : State T F := s.refer t f (s.own t f - 1)
def setCount (s : State T F) (f : F) (n : Int) : State T F := { s with count := update s.count f n }

end State

def hold (s : State T F) (t : T) (f : F) : State T F := (s.setCount f (int32 (s.count f + 1))).take t f

def call (D : Nat) (s : State T F) (t : T) : Call F → State T F
  | .fhold f => hold s t f
  | .fdrop f => s.push t (.drop f)
  | .fdalloc f minFd => (hold s t f).push t (.scan f minFd)
  | .fdset fd f => if Valid D fd then (hold s t f).push t (.swap fd f) else s
  | .fdclose fd =>
    match s.gfdt fd with
    | none => s
    | some f => ((s.put fd none).take t f).push t (.drop f)
  | .fget fd =>
    if Valid D fd then
      match s.gfdt fd with
      | none => s
      | some f => s.push t (.load f)
    else s

def test (s : State T F) (t : T) (f : F) (rest : List (Frame F)) : State T F :=
  if 0 < s.count f then s.goto t (.loadCas f (s.count f)::rest) else s.goto t rest

def run (D : Nat) (s : State T F) (t : T) (fail : Bool) : Frame F → List (Frame F) → State T F
  | .scan f fd,rest =>
    if D ≤ fd then s.goto t (.drop f::rest)
    else if (s.gfdt fd).isSome then s.goto t (.scan f (fd + 1)::rest)
    else s.goto t (.install f fd::rest)
  | .install f fd,rest =>
    if (s.gfdt fd).isSome then s.goto t (.scan f (fd + 1)::rest)
    else ((s.put fd (some f)).give t f).goto t rest
  | .swap fd f,rest =>
    match s.gfdt fd with
    | none => ((s.put fd (some f)).give t f).goto t rest
    | some g => (((s.put fd (some f)).give t f).take t g).goto t (.drop g::rest)
  | .drop f,rest => s.goto t (.dropCas f (s.count f)::rest)
  | .dropCas f o,rest =>
    if fail ∨ s.count f ≠ o then s.goto t (.dropCas f (s.count f)::rest)
    else if o - 1 = 0 then
      { (s.setCount f intMin).give t f with freed := update s.freed f (s.freed f + 1) }.goto t
        (.stopPolls f::rest)
    else ((s.setCount f (int32 (o - 1))).give t f).goto t rest
  | .stopPolls f,rest => { s with closes := update s.closes f (s.closes f + 1) }.goto t (.close f::rest)
  | .close f,rest => { s with disposed := update s.disposed f true }.goto t rest
  | .load f,rest => test s t f rest
  | .loadCas f c,rest =>
    if fail ∨ s.count f ≠ c then test s t f rest else (hold s t f).goto t (.got f::rest)
  | .got _,rest => s.goto t rest

def create (s : State T F) (t : T) (f : F) : State T F :=
  { (s.setCount f 1).take t f with made := update s.made f true }

def step (D : Nat) (s : State T F) : Op T F → Option (State T F)
  | .create t f => if s.made f then none else some (create s t f)
  | .call t c => if (kind F).ready (s.stack t) then some (call D s t c) else none
  | .run t fail =>
    match s.stack t with
    | [] => none
    | x::rest => some (run D s t fail x rest)
  | .hand t u f => if (kind F).ready (s.stack t) then some ((s.give t f).take u f) else none

def Entitled (s : State T F) (t : T) (f : F) : Prop := 0 < s.own t f ∨ (s.freed f ≠ 0 ∧ s.disposed f = false)
  deriving Decidable

/-- Threads drop only references they own; a descriptor outside the table has none. -/
def Legal (D : Nat) (s : State T F) : Op T F → Prop
  | .call t (.fhold f) => Entitled s t f
  | .call t (.fdalloc f _) => Entitled s t f
  | .call t (.fdset _ f) => Entitled s t f
  | .call t (.fdrop f) => 0 < s.own t f
  | .call _ (.fdclose fd) => Valid D fd
  | .hand t _ f => 0 < s.own t f
  | _ => True

variable [Fintype T]

def occupied (o : Option F) (f : F) : Nat := if o = some f then 1 else 0
def slots (D : Nat) (s : State T F) (f : F) : Nat := total fun fd : Fin D => occupied (s.gfdt fd.val) f
def outstanding (s : State T F) (f : F) : Nat := total fun t => s.own t f
def refs (D : Nat) (s : State T F) (f : F) : Nat := slots D s f + outstanding s f

def Bounded (D : Nat) (s : State T F) (op : Op T F) : Prop :=
  Legal D s op ∧ ∀ u ∈ step D s op, ∀ f, refs D u f < 2^31

def Start (s : State T F) : Prop :=
  (∀ fd, s.gfdt fd = none) ∧ (∀ t, s.stack t = [] ∧ ∀ f, s.own t f = 0) ∧
  ∀ f, s.count f = 0 ∧ s.made f = false ∧ s.freed f = 0 ∧ s.closes f = 0 ∧ s.disposed f = false

/-- What is wanted in every state. -/
structure Sound (D : Nat) (s : State T F) : Prop where
  counted : ∀ f, 0 < s.count f → s.count f = refs D s f
  once : ∀ f, s.closes f ≤ 1 ∧ s.closes f ≤ s.freed f
  again : ∀ f, s.freed f ≤ 1
  closed : ∀ f, s.made f = true → refs D s f = 0 → s.freed f = 1 ∧
    ((∀ t, .stopPolls f ∉ s.stack t) → s.closes f = 1)
  got : ∀ t f rest, s.stack t = .got f::rest → s.freed f = 0

/-! Each reference is accounted for. -/

variable {D : Nat} {s u : State T F} {t : T} {f g : F} {fd : Int} {o : Option F}

lemma slotsPut (valid : Valid D fd) (o : Option F) (f : F) :
    slots D (s.put fd o) f + occupied (s.gfdt fd) f = slots D s f + occupied o f := by
  obtain ⟨n,rfl⟩ := eq_ofNat_of_zero_le valid.1
  have lt := Int.ofNat_lt.mp valid.2
  have move := @totalMove (Fin D) _ (fun i => occupied (s.gfdt i.val) f) (fun i => occupied ((s.put n o).gfdt i.val) f)
    ⟨n,lt⟩ _ fun i ne => by
      have other : (i.val : Int) ≠ n := fun eq => ne (Fin.ext (ofNat.inj eq))
      simp [put,update_of_ne other]
  simp only [put,update_self] at move
  exact move

lemma refsTake (g : F) : refs D (s.take t f) g = refs D s g + if f = g then 1 else 0 := by
  have move := Calls.totalRefer s.own t f g (s.own t f + 1)
  change outstanding (s.refer t f (s.own t f + 1)) g + _ = outstanding s g + _ at move
  change slots D s g + outstanding (s.refer t f (s.own t f + 1)) g = slots D s g + outstanding s g + _
  split at move
  next same =>
    rw [if_pos same.symm]
    omega
  rename_i other
  rw [if_neg (Ne.symm other)]
  omega

lemma refsGive (own : 0 < s.own t f) (g : F) : refs D (s.give t f) g + (if f = g then 1 else 0) = refs D s g := by
  have move := Calls.totalRefer s.own t f g (s.own t f - 1)
  change outstanding (s.refer t f (s.own t f - 1)) g + _ = outstanding s g + _ at move
  change slots D s g + outstanding (s.refer t f (s.own t f - 1)) g + _ = slots D s g + outstanding s g
  split at move
  next same =>
    rw [if_pos same.symm]
    omega
  rename_i other
  rw [if_neg (Ne.symm other)]
  omega

lemma refsPut (valid : Valid D fd) (o : Option F) (g : F) :
    refs D (s.put fd o) g + occupied (s.gfdt fd) g = refs D s g + occupied o g := by
  have move := slotsPut (s := s) valid o g
  change slots D (s.put fd o) g + outstanding s g + _ = slots D s g + outstanding s g + _
  omega

/-! The invariant. -/

def Frame.Placed (D : Nat) : Frame F → Prop
  | .install _ fd => Valid D fd
  | .swap fd _ => Valid D fd
  | .loadCas _ c => 0 < c
  | _ => True

def parked (s : State T F) (f : F) : Int := if s.freed f = 0 then 0 else intMin
def stopping (s : State T F) (f : F) : Nat := total fun t => (s.stack t).countP (· = .stopPolls f)

structure Inv (D : Nat) (s : State T F) : Prop where
  unmade : ∀ f, s.made f = false → refs D s f = 0 ∧ s.freed f = 0
  live : ∀ f, s.made f = true → s.freed f = 0 → 0 < refs D s f
  count : ∀ f, s.count f = parked s f + refs D s f
  few : ∀ f, refs D s f < 2^31
  atMost : ∀ f, s.freed f ≤ 1
  calls : ∀ f, s.closes f + stopping s f = s.freed f
  frames : ∀ t, (kind F).Carries (s.own t) (s.stack t)
  placed : ∀ t, ∀ x ∈ s.stack t, x.Placed D
  got : ∀ t f rest, s.stack t = .got f::rest → s.freed f = 0

variable {rest : List (Frame F)} {x y : Frame F}

lemma busyPlaced (busy : x.busy = true) : x.Placed D := by
  cases x <;> trivial

lemma stopPollsBusy (f : F) (x : Frame F) (mine : decide (x = .stopPolls f) = true) : x.busy = true := by
  rw [of_decide_eq_true mine]
  rfl

lemma Inv.below (inv : Inv D s) (here : s.stack t = x::rest) : ∀ y ∈ rest, y.busy = true := by
  have frames := inv.frames t
  rw [here] at frames
  exact frames.2

lemma Inv.owns (inv : Inv D s) (here : s.stack t = x::rest) (carried : x.carried = some f) : 0 < s.own t f := by
  have frames := inv.frames t
  rw [here] at frames
  exact frames.1 f carried

def After (D : Nat) (s u : State T F) (t : T) (rest : List (Frame F)) : Prop :=
  u.stack t = rest ∨ ∃ y, u.stack t = y::rest ∧ y.busy = false ∧ (∀ f ∈ y.carried, 0 < u.own t f) ∧ y.Placed D ∧
    ∀ f, y = .got f → s.freed f = 0

lemma After.over (after : After D s u t rest) : (kind F).Over rest (u.stack t) := by
  rcases after with same | ⟨y,here,idle,_⟩
  · exact .inl same
  · exact .inr ⟨y,here,idle⟩

section
variable (inv : Inv D s) (same : u.made = s.made ∧ u.freed = s.freed ∧ u.closes = s.closes)
include inv same

lemma Inv.shift (delta : ∀ g, u.count g + refs D s g = s.count g + refs D u g)
    (unmade : ∀ g, s.made g = false → refs D u g = 0) (live : ∀ g, s.made g = true → s.freed g = 0 → 0 < refs D u g)
    (few : ∀ g, refs D u g < 2^31)
    (others : ∀ v, v ≠ t → u.stack v = s.stack v ∧ ∀ g, s.own v g ≤ u.own v g)
    (busy : ∀ y ∈ rest, y.busy = true) (before : (kind F).Over rest (s.stack t)) (after : After D s u t rest) : Inv D u := by
  obtain ⟨made,freed,closes⟩ := same
  have park : ∀ g, parked u g = parked s g := fun g => by rw [parked,parked,freed]
  refine ⟨?_,?_,fun g => ?_,few,?_,fun g => ?_,fun v => ?_,fun v x mem => ?_,fun v g rest' here => ?_⟩
  · rw [made,freed]
    exact fun g none => ⟨unmade g none,(inv.unmade g none).2⟩
  · rw [made,freed]
    exact live
  · have := delta g
    have := inv.count g
    rw [park]
    omega
  · rw [freed]
    exact inv.atMost
  · have calls := inv.calls g
    rw [closes,freed,← calls]
    refine congrArg (s.closes g + ·) (totalSame fun v => ?_)
    by_cases mine : v = t
    · subst mine
      exact (after.over.count (stopPollsBusy g)).trans (before.count (stopPollsBusy g)).symm
    · rw [(others v mine).1]
  · by_cases mine : v = t
    · subst mine
      rcases after with here | ⟨y,here,_,carried,_,_⟩
      · rw [here]
        exact Calls.Kind.carriesBusy busy
      rw [here]
      exact ⟨carried,busy⟩
    · obtain ⟨stack,own⟩ := others v mine
      rw [stack]
      exact (inv.frames v).grow own
  · by_cases mine : v = t
    · subst mine
      rcases after with here | ⟨y,here,_,_,placed,_⟩
      · rw [here] at mem
        exact busyPlaced (busy x mem)
      rw [here] at mem
      rcases mem_cons.mp mem with rfl | mem
      · exact placed
      · exact busyPlaced (busy x mem)
    · rw [(others v mine).1] at mem
      exact inv.placed v x mem
  rw [freed]
  by_cases mine : v = t
  · subst mine
    rcases after with same | ⟨y,same,_,_,_,fresh⟩
    · have bad := busy (.got g) (by rw [← same,here]; exact .head _)
      cases bad
    rw [here] at same
    exact fresh g (List.cons.inj same).1.symm
  · exact inv.got v g rest' ((others v mine).1 ▸ here)

lemma Inv.moves (count : u.count = s.count) (refers : ∀ g, refs D u g = refs D s g)
    (others : ∀ v, v ≠ t → u.stack v = s.stack v ∧ ∀ g, s.own v g ≤ u.own v g)
    (busy : ∀ y ∈ rest, y.busy = true) (before : (kind F).Over rest (s.stack t)) (after : After D s u t rest) : Inv D u := by
  refine inv.shift same (fun g => by rw [count,refers]) (fun g none => ?_) (fun g made free => ?_) (fun g => ?_) others busy
    before after
  · rw [refers]
    exact (inv.unmade g none).1
  · rw [refers]
    exact inv.live g made free
  rw [refers]
  exact inv.few g

end

/-! The steps. -/

variable {stack : List (Frame F)} {v : T} {op : Op T F}

lemma Inv.goes (inv : Inv D s) (busy : ∀ y ∈ rest, y.busy = true)
    (before : (kind F).Over rest (s.stack t)) (next : After D s (s.goto t stack) t rest) : Inv D (s.goto t stack) :=
  inv.moves ⟨rfl,rfl,rfl⟩ rfl (fun _ => rfl) (fun _ ne => ⟨update_of_ne ne _ _,fun _ => le_refl _⟩) busy before next

lemma afterPop : After D s (u.goto t stack) t stack := .inl (update_self _ _ _)

lemma afterTop (idle : y.busy = false) (carried : ∀ f ∈ y.carried, 0 < u.own t f) (placed : y.Placed D)
    (fresh : ∀ f, y ≠ .got f) :
    After D s (u.goto t (y::rest)) t rest :=
  .inr ⟨y,update_self _ _ _,idle,carried,placed,fun f eq => absurd eq (fresh f)⟩

lemma Inv.madeOf (inv : Inv D s) (some' : 0 < refs D s f ∨ s.freed f ≠ 0 ∨ 0 < s.count f) : s.made f = true := by
  cases made : s.made f
  case true => rfl
  obtain ⟨none,free⟩ := inv.unmade f made
  have count := inv.count f
  rw [parked,if_pos free] at count
  omega

lemma ownRefs (own : 0 < s.own t f) : 0 < refs D s f := by
  have := leTotal (fun v => s.own v f) t
  have out : outstanding s f = total fun v => s.own v f := rfl
  rw [refs]
  omega

lemma Inv.entitledMade (inv : Inv D s) (entitled : Entitled s t f) : s.made f = true := by
  rcases entitled with own | ⟨closing,_⟩
  · exact inv.madeOf (.inl (ownRefs own))
  · exact inv.madeOf (.inr (.inl closing))

lemma Inv.positiveFree (inv : Inv D s) (positive : 0 < s.count f) : s.freed f = 0 := by
  have count := inv.count f
  have few := inv.few f
  rw [parked] at count
  unfold intMin at count
  split at count
  next free => exact free
  next => omega

lemma Inv.range (inv : Inv D s) (f : F) : -2^31 ≤ s.count f ∧ s.count f < 2^31 := by
  have count := inv.count f
  have few := inv.few f
  rw [parked] at count
  unfold intMin at count
  split at count <;> omega

lemma refsHold (g : F) : refs D (hold s t f) g = refs D s g + if f = g then 1 else 0 := refsTake g

lemma takeOthers (ne : v ≠ t) (g : F) : (s.take t f).own v g = s.own v g := by
  simp [State.take,State.refer,update_of_ne ne]

lemma giveOthers (ne : v ≠ t) (g : F) : (s.give t f).own v g = s.own v g := by
  simp [give,refer,update_of_ne ne]

lemma takeOwn : (s.take t f).own t f = s.own t f + 1 := by
  simp [State.take,State.refer,update_self]

lemma Inv.holds (inv : Inv D s) (made : s.made f = true)
    (few : ∀ g, refs D ((hold s t f).goto t stack) g < 2^31) (busy : ∀ y ∈ rest, y.busy = true)
    (before : (kind F).Over rest (s.stack t)) (next : After D s ((hold s t f).goto t stack) t rest) :
    Inv D ((hold s t f).goto t stack) := by
  have refers : ∀ g, refs D ((hold s t f).goto t stack) g = refs D s g + if f = g then 1 else 0 := fun g => refsHold g
  have room := few f
  rw [refers,if_pos rfl] at room
  have wrap : int32 (s.count f + 1) = s.count f + 1 := by
    have count := inv.count f
    have range := inv.range f
    refine int32Same (by omega) ?_
    rw [parked] at count
    unfold intMin at count
    split at count <;> omega
  refine inv.shift ⟨rfl,rfl,rfl⟩ (fun g => ?_) (fun g none => ?_) (fun g made free => ?_) few (fun v ne => ?_) busy before next
  · rw [refers]
    by_cases same : f = g
    · subst same
      simp only [State.goto,hold,State.take,State.refer,State.setCount,update_self,wrap,if_true]
      omega
    have other : g ≠ f := fun eq => same eq.symm
    simp only [State.goto,hold,State.take,State.refer,State.setCount,update_of_ne other,if_neg same]
    omega
  · have other : f ≠ g := by
      rintro rfl
      cases made.symm.trans none
    rw [refers,if_neg other]
    exact (inv.unmade g none).1
  · have := inv.live g made free
    rw [refers]
    omega
  refine ⟨update_of_ne ne _ _,fun g => le_of_eq ?_⟩
  exact (takeOthers ne g).symm

lemma idleBefore (here : s.stack t = x::rest) (idle : x.busy = false) : (kind F).Over rest (s.stack t) := .inr ⟨x,here,idle⟩

lemma refsInstall (valid : Valid D fd) (own : 0 < s.own t f) (empty : s.gfdt fd = none) (g : F) :
    refs D ((s.put fd (some f)).give t f) g = refs D s g := by
  have put := refsPut (s := s) valid (some f) g
  have give := refsGive (D := D) (s := s.put fd (some f)) (t := t) (f := f) own g
  rw [empty] at put
  simp only [occupied,some.injEq,reduceCtorEq,if_false] at put
  omega

lemma refsClear (valid : Valid D fd) (full : s.gfdt fd = some f) (g : F) :
    refs D ((s.put fd none).take t f) g = refs D s g := by
  have put := refsPut (s := s) valid none g
  rw [full] at put
  simp only [occupied,some.injEq,reduceCtorEq,if_false] at put
  rw [refsTake]
  omega

lemma refsSwap (valid : Valid D fd) (own : 0 < s.own t f) {h : F} (full : s.gfdt fd = some h) (g : F) :
    refs D (((s.put fd (some f)).give t f).take t h) g = refs D s g := by
  have put := refsPut (s := s) valid (some f) g
  have give := refsGive (D := D) (s := s.put fd (some f)) (t := t) (f := f) own g
  rw [full] at put
  simp only [occupied,some.injEq] at put
  rw [refsTake]
  omega

lemma Inv.drops {o : Int} (inv : Inv D s) (here : s.stack t = .dropCas f o::rest) (same : s.count f = o)
    (more : o - 1 ≠ 0) : Inv D (((s.setCount f (int32 (o - 1))).give t f).goto t rest) := by
  have own := inv.owns here rfl
  have refers : ∀ g, refs D (((s.setCount f (int32 (o - 1))).give t f).goto t rest) g + (if f = g then 1 else 0) =
    refs D s g := fun g => refsGive (s := s.setCount f (int32 (o - 1))) own g
  have positive := ownRefs (D := D) own
  have count := inv.count f
  have wrap : int32 (o - 1) = o - 1 := by
    have range := inv.range f
    refine int32Same ?_ (by omega)
    rw [parked] at count
    unfold intMin at count
    split at count <;> omega
  refine inv.shift ⟨rfl,rfl,rfl⟩ (fun g => ?_) (fun g none => ?_) (fun g made free => ?_) (fun g => ?_) (fun v ne => ?_)
    (inv.below here) (idleBefore here rfl) afterPop
  · have refer := refers g
    by_cases eq : f = g
    · subst eq
      rw [if_pos rfl] at refer
      simp only [State.goto,State.give,State.refer,State.setCount,update_self,wrap] at refer ⊢
      omega
    have other : g ≠ f := fun h => eq h.symm
    rw [if_neg eq] at refer
    simp only [State.goto,State.give,State.refer,State.setCount,update_of_ne other] at refer ⊢
    omega
  · have := (inv.unmade g none).1
    have := refers g
    omega
  · have live := inv.live g made free
    have refer := refers g
    by_cases eq : f = g
    · subst eq
      rw [parked,if_pos free] at count
      rw [if_pos rfl] at refer
      omega
    rw [if_neg eq] at refer
    omega
  · have := inv.few g
    have := refers g
    omega
  · exact ⟨update_of_ne ne _ _,fun g => le_of_eq (giveOthers (s := s.setCount f (int32 (o - 1))) ne g).symm⟩

lemma Inv.last (inv : Inv D s) (one : s.count f = 1) : s.freed f = 0 ∧ refs D s f = 1 := by
  have free := inv.positiveFree (f := f) (by omega)
  have count := inv.count f
  rw [parked,if_pos free] at count
  exact ⟨free,by omega⟩

lemma countStopPolls (f g : F) : (stopPolls f::rest).countP (· = .stopPolls g) =
    rest.countP (· = .stopPolls g) + if f = g then 1 else 0 := by
  simp [countP_cons,decide_eq_true_eq,stopPolls.injEq]

lemma countClose (f g : F) : (close f::rest).countP (· = .stopPolls g) = rest.countP (· = .stopPolls g) := by
  simp [reduceCtorEq,decide_false,Bool.false_eq_true]

def closing (s : State T F) (t : T) (f : F) (rest : List (Frame F)) : State T F :=
  { (s.setCount f intMin).give t f with freed := update s.freed f (s.freed f + 1) }.goto t (.stopPolls f::rest)

section
variable (inv : Inv D s)
include inv

lemma Inv.closes {o : Int} (here : s.stack t = .dropCas f o::rest) (one : s.count f = 1) :
    Inv D (closing s t f rest) ∧ refs D (closing s t f rest) f = 0 := by
  have own := inv.owns here rfl
  obtain ⟨free,single⟩ := inv.last one
  have refers : ∀ g, refs D (closing s t f rest) g + (if f = g then 1 else 0) = refs D s g :=
    fun g => refsGive (s := s.setCount f intMin) own g
  have gone : refs D (closing s t f rest) f = 0 := by
    have := refers f
    rw [if_pos rfl] at this
    omega
  have freed : (closing s t f rest).freed = update s.freed f 1 := by simp [closing,State.goto,free]
  have stack : ∀ v, v ≠ t → (closing s t f rest).stack v = s.stack v := fun v ne => update_of_ne ne _ _
  have top : (closing s t f rest).stack t = .stopPolls f::rest := update_self _ _ _
  have made := inv.madeOf (.inl (ownRefs own))
  refine ⟨⟨fun g none => ?_,fun g made' free' => ?_,fun g => ?_,fun g => ?_,fun g => ?_,fun g => ?_,fun v => ?_,
    fun v x mem => ?_,fun v g rest' there => ?_⟩,gone⟩
  · have other : g ≠ f := by
      rintro rfl
      cases made.symm.trans none
    have := inv.unmade g none
    have := refers g
    rw [freed,update_of_ne other]
    omega
  · rw [freed] at free'
    have other : g ≠ f := by
      rintro rfl
      rw [update_self] at free'
      cases free'
    rw [update_of_ne other] at free'
    have := inv.live g made' free'
    have refer := refers g
    rw [if_neg fun eq => other eq.symm] at refer
    omega
  · have count := inv.count g
    have refer := refers g
    by_cases eq : g = f
    · subst eq
      rw [gone,parked,freed,update_self]
      simp [closing,State.goto,State.give,State.refer,State.setCount]
    rw [if_neg fun h => eq h.symm] at refer
    rw [parked,freed,update_of_ne eq]
    rw [parked] at count
    simp only [closing,State.goto,State.give,State.refer,State.setCount,update_of_ne eq] at refer ⊢
    omega
  · have := inv.few g
    have := refers g
    omega
  · rw [freed,update_apply]
    have := inv.atMost g
    split <;> omega
  · have calls := inv.calls g
    have move : stopping (closing s t f rest) g + _ = stopping s g + _ :=
      Calls.totalStack s.stack t (.stopPolls f::rest) (· = .stopPolls g)
    rw [(idleBefore here rfl).count (stopPollsBusy g),countStopPolls] at move
    change s.closes g + stopping (closing s t f rest) g = _
    rw [freed,update_apply]
    by_cases eq : g = f
    · subst eq
      simp only [if_true] at move ⊢
      omega
    simp only [if_neg eq,if_neg fun h : f = g => eq h.symm] at move ⊢
    omega
  · by_cases mine : v = t
    · subst mine
      rw [top]
      exact ⟨nofun,inv.below here⟩
    · rw [stack v mine]
      have same : (closing s t f rest).own v = s.own v := update_of_ne mine _ _
      rw [same]
      exact inv.frames v
  · by_cases mine : v = t
    · subst mine
      rw [top] at mem
      rcases mem_cons.mp mem with rfl | mem
      · trivial
      exact busyPlaced (inv.below here x mem)
    · rw [stack v mine] at mem
      exact inv.placed v x mem
  by_cases mine : v = t
  · subst mine
    rw [top] at there
    cases (List.cons.inj there).1
  rw [stack v mine] at there
  have old := inv.got v g rest' there
  have owns := inv.owns there rfl
  have other : g ≠ f := by
    rintro rfl
    have pair := pairLeTotal (fun w => s.own w g) (t := v) (u := t) mine
    have out : outstanding s g = total fun w => s.own w g := rfl
    rw [refs] at single
    omega
  rw [freed,update_of_ne other]
  exact old

lemma Inv.calls' (here : s.stack t = .stopPolls f::rest) :
    Inv D ({ s with closes := update s.closes f (s.closes f + 1) }.goto t (.close f::rest)) := by
  have busy := inv.below here
  have stack : ∀ v, v ≠ t → update s.stack t (.close f::rest) v = s.stack v :=
    fun v ne => update_of_ne ne _ _
  refine ⟨inv.unmade,inv.live,inv.count,inv.few,inv.atMost,fun g => ?_,fun v => ?_,fun v x mem => ?_,
    fun v g rest' there => ?_⟩
  · have calls := inv.calls g
    have move := Calls.totalStack s.stack t (.close f::rest) (· = .stopPolls g)
    rw [here,countClose,countStopPolls] at move
    change update s.closes f (s.closes f + 1) g + total _ = s.freed g
    change s.closes g + total _ = s.freed g at calls
    rw [update_apply]
    simp only [goto]
    by_cases eq : g = f
    · subst eq
      simp only [if_true] at move ⊢
      omega
    simp only [if_neg eq,if_neg fun h : f = g => eq h.symm] at move ⊢
    omega
  · by_cases mine : v = t
    · subst mine
      have top : (goto { s with closes := update s.closes f (s.closes f + 1) } v (.close f::rest)).stack v =
        .close f::rest := update_self _ _ _
      rw [top]
      exact ⟨nofun,busy⟩
    · have same := stack v mine
      simp only [goto,same]
      exact inv.frames v
  · by_cases mine : v = t
    · subst mine
      simp only [goto,update_self] at mem
      rcases mem_cons.mp mem with rfl | mem
      · trivial
      exact busyPlaced (busy x mem)
    · simp only [goto,stack v mine] at mem
      exact inv.placed v x mem
  by_cases mine : v = t
  · subst mine
    simp only [goto,update_self,List.cons.injEq,reduceCtorEq,false_and] at there
  simp only [goto,stack v mine] at there
  exact inv.got v g rest' there

lemma Inv.disposes (here : s.stack t = .close f::rest) :
    Inv D ({ s with disposed := update s.disposed f true }.goto t rest) := by
  have busy := inv.below here
  have stack : ∀ v, v ≠ t → update s.stack t rest v = s.stack v := fun v ne => update_of_ne ne _ _
  refine ⟨inv.unmade,inv.live,inv.count,inv.few,inv.atMost,fun g => ?_,fun v => ?_,fun v x mem => ?_,
    fun v g rest' there => ?_⟩
  · refine Eq.trans (congrArg (s.closes g + ·) (totalSame fun v => ?_)) (inv.calls g)
    by_cases mine : v = t
    · subst mine
      rw [here,countClose]
      simp [goto,update_self]
    · simp [goto,stack v mine]
  · by_cases mine : v = t
    · subst mine
      simp only [goto,update_self]
      exact Calls.Kind.carriesBusy busy
    · simp only [goto,stack v mine]
      exact inv.frames v
  · by_cases mine : v = t
    · subst mine
      simp only [goto,update_self] at mem
      exact busyPlaced (busy x mem)
    · simp only [goto,stack v mine] at mem
      exact inv.placed v x mem
  by_cases mine : v = t
  · subst mine
    simp only [goto,update_self] at there
    cases busy (.got g) (there ▸ (.head _))
  simp only [goto,stack v mine] at there
  exact inv.got v g rest' there

lemma Inv.creates (fresh : s.made f = false) : Inv D (create s t f) := by
  obtain ⟨none,free⟩ := inv.unmade f fresh
  have refers : ∀ g, refs D (create s t f) g = refs D s g + if f = g then 1 else 0 :=
    fun g => refsTake (s := s.setCount f 1) g
  refine ⟨fun g none' => ?_,fun g made free' => ?_,fun g => ?_,fun g => ?_,inv.atMost,inv.calls,fun v => ?_,inv.placed,inv.got⟩
  · have other : g ≠ f := by
      rintro rfl
      simp [create] at none'
    simp only [create,update_of_ne other] at none'
    rw [refers,if_neg fun eq => other eq.symm]
    exact inv.unmade g none'
  · rw [refers]
    by_cases eq : f = g
    · rw [if_pos eq]
      exact succ_pos _
    have other : g ≠ f := fun h => eq h.symm
    simp only [create,update_of_ne other] at made
    have := inv.live g made free'
    omega
  · have count := inv.count g
    rw [refers]
    rw [parked] at count
    change update s.count f 1 g = (if s.freed g = 0 then 0 else intMin) + _
    by_cases eq : f = g
    · subst eq
      rw [update_self,if_pos rfl,if_pos free,none]
      rfl
    rw [update_of_ne fun h => eq h.symm,if_neg eq,count]
    rfl
  · have := inv.few g
    rw [refers]
    by_cases eq : f = g
    · subst eq
      rw [none,if_pos rfl]
      decide
    rw [if_neg eq]
    exact this
  have frames := inv.frames v
  have same : (create s t f).stack v = s.stack v := rfl
  rw [same]
  rcases stack : s.stack v with _ | ⟨x,rest⟩
  · exact trivial
  rw [stack] at frames
  refine ⟨fun g carried => ?_,frames.2⟩
  have := frames.1 g carried
  simp only [create,State.take,State.refer,State.setCount,update_apply]
  grind

lemma Inv.hands (free : (kind F).ready (s.stack t) = true) (own : 0 < s.own t f) : Inv D ((s.give t f).take v f) := by
  have busy := (inv.frames t).busy free
  refine inv.moves (t := t) ⟨rfl,rfl,rfl⟩ rfl (fun g => ?_) (fun w ne => ⟨rfl,fun g => ?_⟩) busy (.inl rfl) (.inl rfl)
  · have := refsGive (D := D) own g
    rw [refsTake]
    omega
  have same := giveOthers (s := s) (f := f) ne g
  rw [← same]
  simp only [State.take,State.refer,update_apply]
  grind

lemma Inv.call {c : Call F} (free : (kind F).ready (s.stack t) = true) (legal : Legal D s (.call t c))
    (few : ∀ g, refs D (call D s t c) g < 2^31) : Inv D (call D s t c) := by
  have busy := (inv.frames t).busy free
  have before : (kind F).Over (s.stack t) (s.stack t) := .inl rfl
  have top : ∀ (f : F) (y : Frame F), y.busy = false → (∀ g, y ≠ .got g) → (∀ g ∈ y.carried, g = f) →
    y.Placed D → After D s ((hold s t f).push t y) t (s.stack t) := by
    intro f y idle fresh mine placed
    refine afterTop idle (fun g carried => ?_) placed fresh
    rw [mine g carried]
    exact lt_of_lt_of_eq (succ_pos _) takeOwn.symm
  cases c with
  | fhold f =>
    have same : hold s t f = (hold s t f).goto t (s.stack t) := by
      simp [State.goto,hold,State.take,State.refer,State.setCount,update_eq_self]
    simp only [FileTable.call] at few ⊢
    rw [same] at few ⊢
    exact inv.holds (inv.entitledMade legal) few busy before afterPop
  | fdrop f => exact inv.goes busy before (afterTop rfl (fun g carried => some.inj carried ▸ legal) trivial nofun)
  | fdalloc f minFd =>
    exact inv.holds (inv.entitledMade legal) few busy before
      (top f (.scan f minFd) rfl nofun (fun g eq => (some.inj eq).symm) trivial)
  | fdset fd f =>
    simp only [FileTable.call] at few ⊢
    split
    next valid =>
      rw [if_pos valid] at few
      exact inv.holds (inv.entitledMade legal) few busy before
        (top f (.swap fd f) rfl nofun (fun g eq => (some.inj eq).symm) valid)
    next => exact inv
  | fdclose fd => ?_
  | fget fd =>
    simp only [FileTable.call]
    split
    next =>
      split
      next => exact inv
      next f full => exact inv.goes busy before (afterTop rfl nofun trivial nofun)
    next => exact inv
  simp only [FileTable.call]
  split
  next => exact inv
  rename_i f full
  refine inv.moves (t := t) ⟨rfl,rfl,rfl⟩ rfl (refsClear legal full) (fun v ne => ?_) busy before ?_
  · exact ⟨update_of_ne ne _ _,fun g => le_of_eq (takeOthers (s := s.put fd none) ne g).symm⟩
  refine afterTop rfl (fun g carried => ?_) trivial nofun
  cases carried
  exact lt_of_lt_of_eq (succ_pos _) (takeOwn (s := s.put fd none)).symm

lemma Inv.tests (here : s.stack t = x::rest) (idle : x.busy = false) : Inv D (test s t f rest) := by
  unfold test
  split
  next positive => exact inv.goes (inv.below here) (idleBefore here idle) (afterTop rfl nofun positive nofun)
  · exact inv.goes (inv.below here) (idleBefore here idle) afterPop

lemma Inv.run {fail : Bool} (here : s.stack t = x::rest)
    (few : ∀ g, refs D (run D s t fail x rest) g < 2^31) : Inv D (run D s t fail x rest) := by
  have busy := inv.below here
  cases x with
  | scan f fd =>
    have before := idleBefore here rfl
    have own : ∀ g ∈ some f, 0 < s.own t g := fun g eq => some.inj eq ▸ inv.owns here rfl
    simp only [run]
    split
    · exact inv.goes busy before (afterTop rfl own trivial nofun)
    rename_i inside
    split
    · exact inv.goes busy before (afterTop rfl own trivial nofun)
    have valid : Valid D fd := ⟨natCast_nonneg fd,Int.ofNat_lt.mpr (Nat.lt_of_not_le inside)⟩
    exact inv.goes busy before (afterTop rfl own valid nofun)
  | install f fd =>
    have before := idleBefore here rfl
    have own := inv.owns here rfl
    have valid := inv.placed t (.install f fd) (by rw [here]; exact .head _)
    simp only [run]
    split
    · exact inv.goes busy before (afterTop rfl (fun g eq => some.inj eq ▸ own) trivial nofun)
    rename_i free
    have empty : s.gfdt fd = none := not_isSome_iff_eq_none.mp free
    refine inv.moves (t := t) ⟨rfl,rfl,rfl⟩ rfl (refsInstall valid own empty) (fun v ne => ?_) busy before afterPop
    exact ⟨update_of_ne ne _ _,fun g => le_of_eq (giveOthers (s := s.put fd (some f)) ne g).symm⟩
  | swap fd f => ?_
  | drop f =>
    exact inv.goes busy (idleBefore here rfl) (afterTop rfl (fun g eq => some.inj eq ▸ inv.owns here rfl) trivial nofun)
  | dropCas f o =>
    simp only [run]
    split
    · exact inv.goes busy (idleBefore here rfl) (afterTop rfl (fun g eq => some.inj eq ▸ inv.owns here rfl) trivial nofun)
    rename_i won
    obtain ⟨_,same⟩ := not_or.mp won
    have same := Decidable.not_not.mp same
    split
    next last => exact (inv.closes here (by omega)).1
    next more => exact inv.drops here same more
  | stopPolls f => exact inv.calls' here
  | close f => exact inv.disposes here
  | load f => exact inv.tests here rfl
  | loadCas f c =>
    simp only [run] at few ⊢
    split
    · exact inv.tests here rfl
    rename_i won
    rw [if_neg won] at few
    have same := Decidable.not_not.mp (not_or.mp won).2
    have positive := inv.placed t (.loadCas f c) (by rw [here]; exact .head _)
    have free := inv.positiveFree (same ▸ positive)
    refine inv.holds (inv.madeOf (.inr (.inr (same ▸ positive)))) few busy (idleBefore here rfl) ?_
    refine .inr ⟨.got f,update_self _ _ _,rfl,fun g carried => ?_,trivial,fun g eq => ?_⟩
    · cases carried
      exact lt_of_lt_of_eq (succ_pos _) takeOwn.symm
    cases got.inj eq
    exact free
  | got f => exact inv.goes busy (idleBefore here rfl) afterPop
  have before := idleBefore here rfl
  have own := inv.owns here rfl
  have valid := inv.placed t (.swap fd f) (by rw [here]; exact .head _)
  simp only [run]
  split
  next empty =>
    refine inv.moves (t := t) ⟨rfl,rfl,rfl⟩ rfl (refsInstall valid own empty) (fun v ne => ?_) busy before afterPop
    exact ⟨update_of_ne ne _ _,fun g => Nat.le_of_eq (giveOthers (s := s.put fd (some f)) ne g).symm⟩
  rename_i h full
  refine inv.moves (t := t) ⟨rfl,rfl,rfl⟩ rfl (refsSwap valid own full) (fun v ne => ?_) busy before ?_
  · refine ⟨update_of_ne ne _ _,fun g => le_of_eq ?_⟩
    have first := giveOthers (s := s.put fd (some f)) (f := f) ne g
    exact (takeOthers (s := (s.put fd (some f)).give t f) ne g |>.trans first).symm
  refine afterTop rfl (fun g carried => ?_) trivial nofun
  cases carried
  exact lt_of_lt_of_eq (succ_pos _) (takeOwn (s := (s.put fd (some f)).give t f)).symm

lemma Inv.step (allowed : Bounded D s op) (taken : step D s op = some u) : Inv D u := by
  obtain ⟨legal,few⟩ := allowed
  have few := few u taken
  cases op <;> simp only [step] at taken <;> split at taken <;> cases taken
  case create.isFalse fresh => exact inv.creates (Bool.eq_false_iff.mpr fresh)
  case call.isTrue free => exact inv.call free legal few
  case hand.isTrue free => exact inv.hands free legal
  next here => exact inv.run here few

end

lemma Start.inv (start : Start s) : Inv D s := by
  obtain ⟨table,threads,files⟩ := start
  have none : ∀ f, refs D s f = 0 := fun f => by
    have first : slots D s f = 0 := totalZero fun fd => by rw [table]; rfl
    have second : outstanding s f = 0 := totalZero fun t => (threads t).2 f
    rw [refs,first,second]
  refine ⟨fun f _ => ⟨none f,(files f).2.2.1⟩,fun f made => ?_,fun f => ?_,fun f => ?_,fun f => ?_,fun f => ?_,fun t => ?_,
    fun t x mem => ?_,fun t f rest here => ?_⟩
  · cases (files f).2.1.symm.trans made
  · rw [none,parked,if_pos (files f).2.2.1,(files f).1]
    rfl
  · rw [none]
    decide
  · rw [(files f).2.2.1]
    exact zero_le 1
  · have zero : stopping s f = 0 := totalZero fun t => by
      rw [(threads t).1]
      rfl
    rw [zero,(files f).2.2.1,(files f).2.2.2.1]
  · rw [(threads t).1]
    trivial
  · rw [(threads t).1] at mem
    cases mem
  rw [(threads t).1] at here
  cases here

lemma Inv.sound (inv : Inv D s) : Sound D s := by
  have calls : ∀ f, s.closes f ≤ s.freed f := fun f => by
    have := inv.calls f
    omega
  refine ⟨fun f positive => ?_,fun f => ⟨le_trans (calls f) (inv.atMost f),calls f⟩,inv.atMost,fun f made gone => ?_,
    inv.got⟩
  · have count := inv.count f
    rw [parked,if_pos (inv.positiveFree positive)] at count
    omega
  have begun : s.freed f = 1 := by
    have := inv.atMost f
    by_contra other
    have := inv.live f made (by omega)
    omega
  refine ⟨begun,fun away => ?_⟩
  have zero : stopping s f = 0 := totalZero fun t => countP_eq_zero.mpr fun x mem mine =>
    away t (of_decide_eq_true mine ▸ mem)
  have := inv.calls f
  omega

lemma Inv.begins (inv : Inv D s) (taken : FileTable.step D s op = some u)
    (begun : u.freed f ≠ s.freed f) : s.freed f = 0 ∧ refs D u f = 0 := by
  have same : ∀ v : State T F, v.freed = s.freed → u ≠ v := fun v eq here => begun (by rw [here,eq])
  cases op <;> simp only [FileTable.step] at taken <;> split at taken <;> try contradiction
  all_goals have eq := (some.inj taken).symm
  case create.isFalse | hand.isTrue => exact absurd eq (same _ rfl)
  case call.isTrue =>
    refine absurd eq (same _ ?_)
    unfold FileTable.call
    repeat (first | rfl | split)
  next x rest here =>
    cases x with
    | dropCas g o => ?_
    | _ =>
      refine absurd eq (same _ ?_)
      simp only [FileTable.run,test]
      repeat (first | rfl | split)
    simp only [FileTable.run] at eq
    split at eq
    · exact absurd eq (same _ rfl)
    rename_i won
    split at eq
    next last =>
      have count := Decidable.not_not.mp (not_or.mp won).2
      have one : s.count g = 1 := by omega
      have gone := (inv.closes here one).2
      have mine : f = g := by
        by_contra other
        refine begun ?_
        rw [eq]
        exact update_of_ne other _ _
      subst mine
      rw [eq]
      exact ⟨(inv.last one).1,gone⟩
    next => exact absurd eq (same _ rfl)

theorem filesClosedOnce (reach : Reach (FileTable.step D) (Bounded D) Start s) :
    Sound D s ∧ ∀ op u, Bounded D s op → step D s op = some u → ∀ f, u.freed f ≠ s.freed f →
      s.freed f = 0 ∧ refs D u f = 0 := by
  have inv := invariant (P := Inv D) (fun _ => Start.inv) (fun _ _ _ inv allowed taken => inv.step allowed taken) reach
  exact ⟨inv.sound,fun op u _ taken f begun => inv.begins taken begun⟩

instance (D : Nat) (s : State T F) : ∀ op, Decidable (Legal D s op)
  | .call t (.fhold f) => inferInstanceAs (Decidable (Entitled s t f))
  | .call t (.fdalloc f _) => inferInstanceAs (Decidable (Entitled s t f))
  | .call t (.fdset _ f) => inferInstanceAs (Decidable (Entitled s t f))
  | .call t (.fdrop f) => inferInstanceAs (Decidable (0 < s.own t f))
  | .call _ (.fdclose fd) => inferInstanceAs (Decidable (Valid D fd))
  | .call _ (.fget _) => .isTrue trivial
  | .hand t _ f => inferInstanceAs (Decidable (0 < s.own t f))
  | .create _ _ => .isTrue trivial
  | .run _ _ => .isTrue trivial

instance [Fintype F] (D : Nat) (s : State T F) (op : Op T F) : Decidable (Bounded D s op) :=
  inferInstanceAs (Decidable (_ ∧ ∀ u ∈ FileTable.step D s op, ∀ f, refs D u f < 2^31))

def noFiles : State T F :=
  ⟨fun _ => none,fun _ => 0,fun _ => [],fun _ _ => 0,fun _ => false,fun _ => 0,fun _ => 0,fun _ => false⟩

lemma noFilesStart : Start (noFiles : State T F) :=
  ⟨fun _ => rfl,fun _ => ⟨rfl,fun _ => rfl⟩,fun _ => ⟨rfl,rfl,rfl,rfl,rfl⟩⟩

def sharedFile : List (Op (Fin 2) (Fin 1)) :=
  [.create 0 0,.call 0 (.fdalloc 0 0),.run 0 false,.run 0 false,.call 0 (.fdrop 0),.run 0 false,.run 0 true,.run 0 false,
    .call 1 (.fget 0),.run 1 false,.call 0 (.fdclose 0),.run 0 false,.run 1 false,.run 0 false,.run 0 false,.run 1 false,
    .call 1 (.fdrop 0),.run 1 false,.run 1 false,.call 1 (.fhold 0),.run 1 false,.call 1 (.fdrop 0),.run 1 false,.run 1 false,
    .run 1 false]

theorem filesClosedOnceShared :
    Reach (step 2) (Bounded 2) Start (final (step 2) (Bounded 2) noFiles sharedFile) ∧
    Sound 2 (final (step 2) (Bounded 2) noFiles sharedFile) ∧
    (final (step 2) (Bounded 2) noFiles sharedFile).closes 0 = 1 := by
  have reach : Reach (step 2) (Bounded 2) Start (final (step 2) (Bounded 2) noFiles sharedFile) :=
    reachFinal sharedFile noFilesStart (by decide)
  exact ⟨reach,(filesClosedOnce reach).1,by decide⟩

lemma heldReach (k : Nat) : ∃ s : State (Fin 1) (Fin 1), Reach (step 0) (Legal 0) Start s ∧
    s.stack 0 = [] ∧ s.own 0 0 = k + 1 ∧ s.count 0 = int32 (k + 1) := by
  induction k with
  | zero => exact ⟨create noFiles 0 0,.next (.init noFilesStart) (o := .create 0 0) trivial rfl,rfl,rfl,by decide⟩
  | succ k ih => ?_
  obtain ⟨s,reach,idle,own,count⟩ := ih
  have entitled : Entitled s 0 0 := .inl (by omega)
  have taken : step 0 s (.call 0 (.fhold 0)) = some (hold s 0 0) := by
    simp [step,idle,Calls.Kind.ready,call]
  refine ⟨hold s 0 0,.next reach (o := .call 0 (.fhold 0)) entitled taken,idle,?_,?_⟩
  · exact takeOwn.trans (congrArg (· + 1) own)
  have next : (hold s 0 0).count 0 = int32 (s.count 0 + 1) := by
    simp [hold,State.take,State.refer,State.setCount,update_self]
  rw [next,count,int32Add]
  rfl

theorem countWraps : ∃ s : State (Fin 1) (Fin 1), Reach (step 0) (Legal 0) Start s ∧
    s.count 0 = 1 ∧ refs 0 s 0 = 2^32 + 1 ∧ ¬ Sound 0 s := by
  obtain ⟨s,reach,_,own,count⟩ := heldReach (2^32)
  have one : s.count 0 = 1 := by
    rw [count]
    decide
  have many : refs 0 s 0 = 2^32 + 1 := by
    have out : outstanding s 0 = s.own 0 0 := by
      simp only [outstanding,total,Fintype.sum_unique]
      rfl
    have none : slots 0 s 0 = 0 := totalZero nofun
    rw [refs,out,none,own]
    rfl
  refine ⟨s,reach,one,many,fun sound => ?_⟩
  have counted := sound.counted 0 (by omega)
  omega

end
end OsvKernel.FileTable
