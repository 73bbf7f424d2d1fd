import OsvKernel.Fifo
import OsvKernel.Runs

/-! The wait queue of core/waitqueue.cc. The caller's mutex makes each operation atomic.
wake_lock() gives a record to that mutex, whose own queue uses the same next field, so
nothing is known of the field afterwards. -/
namespace OsvKernel.WaitQueue
open List Runs Chains Function

structure Queue (R : Type) extends Fifo R where
  woken : R → Bool
  armed : List R

inductive Link (R : Type) where
  | oldest
  | next (record : R)

inductive Op (R : Type) where
  | arm (wr : R)
  | disarm (wr : R) (bound : Nat)
  | wakeOne (spill : R → Option R)
  | wakeAll (spill : R → Option R) (bound : Nat)

section
variable {R : Type} [DecidableEq R]

def Queue.load (q : Queue R) : Link R → Option R
  | .oldest => q.oldest
  | .next record => q.next record

def Queue.store (q : Queue R) (value : Option R) : Link R → Queue R
  | .oldest => {q with oldest := value}
  | .next record => {q with next := update q.next record value}

def Queue.newRecord (q : Queue R) (wr : R) : Queue R :=
  {q with
    next := update q.next wr none
    woken := update q.woken wr false
    armed := q.armed ++ [wr]}

def arm (q : Queue R) (wr : R) : Option (Queue R) :=
  let q := q.newRecord wr
  (q.append wr).map fun fifo => {q with toFifo := fifo}

def unlink (wr : R) : Nat → Queue R → Link R → Option R → Option (Queue R)
  | 0,_,_,_ => none
  | n+1,q,pnext,newest =>
    match q.load pnext with
    | none => some q
    | some record =>
      if record = wr then
        let q := q.store (q.next wr) pnext
        if (q.load pnext).all fun following => (q.next following).isNone then some {q with newest := newest}
        else some q
      else unlink wr n q (.next record) (some record)

def disarm (q : Queue R) (wr : R) (bound : Nat) : Option (Queue R) :=
  (if q.woken wr then some q else unlink wr bound q .oldest none).map fun q =>
    {q with armed := q.armed.erase wr}

def wakeLock (q : Queue R) (wr : R) (spill : R → Option R) : Queue R :=
  {q with next := update q.next wr (spill wr), woken := update q.woken wr true}

def wakeOne (q : Queue R) (spill : R → Option R) : Queue R :=
  match q.oldest with
  | none => q
  | some wr => wakeLock {q with toFifo := q.drop wr} wr spill

def wakeChain (spill : R → Option R) : Nat → Queue R → Option R → Option (Queue R)
  | 0,_,_ => none
  | _+1,q,none => some q
  | n+1,q,some wr => wakeChain spill n (wakeLock q wr spill) (q.next wr)

def wakeAll (q : Queue R) (spill : R → Option R) (bound : Nat) : Option (Queue R) :=
  wakeChain spill bound {q with oldest := none, newest := none} q.oldest

def step (q : Queue R) : Op R → Option (Queue R)
  | .arm wr => arm q wr
  | .disarm wr bound => disarm q wr bound
  | .wakeOne spill => some (wakeOne q spill)
  | .wakeAll spill bound => wakeAll q spill bound

def waiting (q : Queue R) : List R := q.armed.filter fun wr => !q.woken wr

/-- A wait object is armed once, with a new record, and disarmed once. -/
def Allowed (q : Queue R) : Op R → Prop
  | .arm wr => wr ∉ q.armed
  | .disarm wr _ => wr ∈ q.armed
  | _ => True

def Enough (q : Queue R) : Op R → Prop
  | .disarm _ bound => (waiting q).length < bound
  | .wakeAll _ bound => (waiting q).length < bound
  | _ => True

/-- No disarm of the next to last waiter. -/
def Clear (q : Queue R) : Op R → Prop
  | .disarm wr _ => (waiting q).dropLast.getLast? ≠ some wr
  | _ => True

def Holds (q : Queue R) : Prop := Queued q.toFifo (waiting q)
def Start (q : Queue R) : Prop := q.oldest = none ∧ q.newest = none ∧ q.armed = []
def Reachable (q : Queue R) : Prop := Runs.Reach step (fun q op => Allowed q op ∧ Clear q op) Start q

instance (q : Queue R) (op : Op R) : Decidable (Allowed q op) := by
  cases op <;> unfold Allowed <;> infer_instance

instance (q : Queue R) (op : Op R) : Decidable (Clear q op) := by
  cases op <;> unfold Clear <;> infer_instance

variable {q q' : Queue R} {wr : R} {before : List R} {bound m n : Nat} {op : Op R}

omit [DecidableEq R] in
lemma waitingNodup (nodup : q.armed.Nodup) : (waiting q).Nodup := nodup.filter _

omit [DecidableEq R] in
lemma memWaiting : wr ∈ waiting q ↔ wr ∈ q.armed ∧ q.woken wr = false := by
  simp [waiting]

lemma waitingNewRecord (fresh : wr ∉ q.armed) : waiting (q.newRecord wr) = waiting q ++ [wr] := by
  have old : q.armed.filter (fun r => !update q.woken wr false r) = waiting q := by
    refine filter_congr fun r mem => ?_
    rw [update_of_ne fun same : r = wr => fresh (same ▸ mem)]
  rw [waiting,Queue.newRecord,filter_append,old]
  simp

lemma waitingWakeLock (nodup : q.armed.Nodup) (spill : R → Option R) :
    waiting (wakeLock q wr spill) = (waiting q).erase wr := by
  rw [(waitingNodup nodup).erase_eq_filter,waiting,waiting,wakeLock,filter_filter]
  refine filter_congr fun r _ => ?_
  by_cases same : r = wr
  · simp [same]
  · simp [same]

/-! arm -/

lemma armHolds (holds : Holds q) (nodup : q.armed.Nodup) (fresh : wr ∉ q.armed) :
    ∃ q', arm q wr = some q' ∧ Holds q' ∧ q'.armed.Nodup := by
  have off : wr ∉ waiting q := fun mem => fresh (memWaiting.mp mem).1
  obtain ⟨fifo,taken,queued,-⟩ :=
    @Queued.append R _ (q.newRecord wr).toFifo (waiting q) wr (holds.write off none) off (update_self ..)
  refine ⟨{q.newRecord wr with toFifo := fifo},?_,?_,?_⟩
  · rw [arm,taken]
    rfl
  · rw [← waitingNewRecord fresh] at queued
    exact queued
  · exact Nodup.append nodup (nodup_singleton wr) (disjoint_singleton.mpr fresh)

/-! disarm -/

def Link.after (before : List R) : Link R := before.getLast?.elim .oldest .next

omit [DecidableEq R] in
lemma afterSnoc (before : List R) (p : R) : Link.after (before ++ [p]) = .next p := by
  simp [Link.after]

omit [DecidableEq R] in
lemma loadAfter {rest : List R} (linked : Linked q.next q.oldest (before ++ rest)) :
    q.load (.after before) = rest.head? := by
  rcases eq_nil_or_concat before with rfl | ⟨pre,p,rfl⟩
  · exact linked.headEq
  rw [concat_eq_append] at linked ⊢
  rw [append_assoc] at linked
  rw [afterSnoc]
  exact linked.after.headEq

def removed (q : Queue R) (before : List R) (wr : R) : Queue R :=
  let q := q.store (q.next wr) (.after before)
  if (q.load (.after before)).all fun following => (q.next following).isNone then
    {q with newest := before.getLast?}
  else q

lemma unlinkFinds {after : List R} (mid before : List R) (n : Nat)
    (linked : Linked q.next q.oldest (before ++ (mid ++ wr::after))) (off : wr ∉ mid) (bound : mid.length < n) :
    unlink wr n q (.after before) before.getLast? = some (removed q (before ++ mid) wr) := by
  obtain ⟨n,rfl⟩ : ∃ m, n = m+1 := ⟨n-1,by omega⟩
  have found := loadAfter linked
  induction mid generalizing before n with
  | nil =>
    rw [unlink,found,append_nil,removed]
    simp only [nil_append,head?_cons,if_true]
    split <;> rfl
  | cons b mid ih => ?_
  have ne : b ≠ wr := fun same => off (same ▸ (.head _))
  have moved : before ++ (b::mid ++ wr::after) = before ++ [b] ++ (mid ++ wr::after) := by simp
  rw [moved] at linked
  obtain ⟨m,rfl⟩ : ∃ m, n = m+1 := ⟨n-1,by simp at bound; omega⟩
  have rest := ih (before ++ [b]) linked (fun mem => off (.tail _ mem)) m
    (by simp at bound; omega) (loadAfter linked)
  rw [afterSnoc,getLast?_concat,append_assoc] at rest
  rw [unlink,found]
  simp only [cons_append,head?_cons,if_neg ne]
  exact rest

lemma storeLinked {after : List R}
    (linked : Linked q.next q.oldest (before ++ wr::after)) (nodup : (before ++ wr::after).Nodup) :
    Linked (q.store (q.next wr) (.after before)).next (q.store (q.next wr) (.after before)).oldest (before ++ after) := by
  rcases eq_nil_or_concat before with rfl | ⟨pre,p,rfl⟩
  · exact linked.after
  rw [concat_eq_append] at linked nodup ⊢
  rw [append_assoc] at linked nodup ⊢
  rw [afterSnoc]
  exact linked.cut nodup

lemma lastTwo {after : List R} (linked : Linked q.next q.oldest (before ++ after)) :
    ((q.load (.after before)).all fun following => (q.next following).isNone) = decide (after.length ≤ 1) := by
  rw [loadAfter linked]
  rcases after with _ | ⟨x,rest⟩
  · rfl
  have behind := linked.after.headEq
  cases rest with
  | nil | cons y rest => simp [behind]

lemma removedSpec {after : List R}
    (linked : Linked q.next q.oldest (before ++ wr::after)) (nodup : (before ++ wr::after).Nodup) :
    Linked (removed q before wr).next (removed q before wr).oldest (before ++ after) ∧
      (removed q before wr).newest = (if after.length ≤ 1 then before.getLast? else q.newest) ∧
      (removed q before wr).woken = q.woken ∧ (removed q before wr).armed = q.armed := by
  have stored := storeLinked linked nodup
  have newest : (q.store (q.next wr) (.after before)).newest = q.newest := by cases Link.after before <;> rfl
  have woken : (q.store (q.next wr) (.after before)).woken = q.woken := by cases Link.after before <;> rfl
  have armed : (q.store (q.next wr) (.after before)).armed = q.armed := by cases Link.after before <;> rfl
  rw [removed,lastTwo stored]
  by_cases short : after.length ≤ 1
  · simp only [short,decide_true,if_true]
    exact ⟨stored,trivial,woken,armed⟩
  simp only [short,decide_false,Bool.false_eq_true,if_false]
  exact ⟨stored,newest,woken,armed⟩

lemma waitingErase {r : Queue R} (woken : r.woken = q.woken) (armed : r.armed = q.armed) :
    waiting {r with armed := r.armed.erase wr} = (waiting q).erase wr := by
  rw [waiting,waiting,woken,armed,erase_filter]

lemma disarmWoken (bound : Nat) (holds : Holds q) (woken : q.woken wr = true) :
    ∃ q', disarm q wr bound = some q' ∧ q'.armed = q.armed.erase wr ∧ Holds q' := by
  have off : wr ∉ waiting q := fun mem => by simp [(memWaiting.mp mem).2] at woken
  have same : waiting {q with armed := q.armed.erase wr} = waiting q := by rw [waitingErase rfl rfl,erase_of_not_mem off]
  refine ⟨{q with armed := q.armed.erase wr},?_,rfl,?_⟩
  · rw [disarm,if_pos woken]
    rfl
  rw [Holds,same]
  exact holds

lemma disarmQueued {after : List R} (holds : Holds q)
    (nodup : q.armed.Nodup) (place : waiting q = before ++ wr::after) (enough : (waiting q).length < bound) :
    ∃ q', disarm q wr bound = some q' ∧ q'.armed = q.armed.erase wr ∧ waiting q' = before ++ after ∧
      Linked q'.next q'.oldest (before ++ after) ∧
      q'.newest = if after.length ≤ 1 then before.getLast? else q.newest := by
  have linked := holds.linked
  have distinct := waitingNodup nodup
  rw [place] at linked distinct enough
  have off : wr ∉ before := fun mem =>
    (nodup_append.mp distinct).2.2 wr mem wr (.head _) rfl
  have asleep : q.woken wr = false := (memWaiting.mp (place ▸ mem_append_right _ (.head _))).2
  have found := unlinkFinds before [] bound linked off (by simp at enough; omega)
  obtain ⟨stays,newest,woken,armed⟩ := removedSpec linked distinct
  refine ⟨{removed q before wr with armed := (removed q before wr).armed.erase wr},?_,?_,?_,stays,newest⟩
  · rw [disarm,asleep]
    simp only [Bool.false_eq_true,if_false]
    exact congrArg _ found
  · rw [armed]
  · rw [waitingErase woken armed,place,erase_append_right _ off,erase_cons_head]

omit [DecidableEq R] in
lemma nextToLast {after : List R} (nodup : (before ++ wr::after).Nodup) :
    (before ++ wr::after).dropLast.getLast? ≠ some wr ↔ after.length ≠ 1 := by
  obtain ⟨-,tail,apart⟩ := nodup_append.mp nodup
  rcases after with _ | ⟨x,_ | ⟨y,rest⟩⟩
  · refine ⟨fun _ => by simp,fun _ same => ?_⟩
    have member := mem_of_getLast? (by simpa using same)
    exact apart wr member wr (.head _) rfl
  · simp
  refine ⟨fun _ => by simp,fun _ same => ?_⟩
  have member : wr ∈ (x::y::rest).dropLast := by
    refine mem_of_getLast? ?_
    simpa [dropLast_append_of_ne_nil] using same
  exact (nodup_cons.mp tail).1 (dropLast_subset _ member)

omit [DecidableEq R] in
lemma disarmLast {after : List R} (nodup : (before ++ wr::after).Nodup) :
    (if after.length ≤ 1 then before.getLast? else (before ++ wr::after).getLast?) = (before ++ after).getLast? ↔
      after.length ≠ 1 := by
  rcases after with _ | ⟨x,_ | ⟨y,rest⟩⟩
  · simp
  · refine ⟨fun same => ?_,fun many => absurd rfl many⟩
    have member := mem_of_getLast? (by simpa using same)
    have apart := (nodup_append.mp nodup).2.2 x member x (.tail _ (.head _))
    exact absurd rfl apart
  · simp

lemma disarmHolds (holds : Holds q) (nodup : q.armed.Nodup) (mem : wr ∈ q.armed) (enough : (waiting q).length < bound) :
    ∃ q', disarm q wr bound = some q' ∧ q'.armed.Nodup ∧ (Holds q' ↔ Clear q (.disarm wr bound)) := by
  have distinct := waitingNodup nodup
  cases woken : q.woken wr
  case true =>
    obtain ⟨q',taken,armed,holds'⟩ := disarmWoken bound holds woken
    refine ⟨q',taken,armed ▸ nodup.erase wr,fun _ place => ?_,fun _ => holds'⟩
    have queued := dropLast_subset _ (mem_of_getLast? place)
    simp [(memWaiting.mp queued).2] at woken
  obtain ⟨before,after,place⟩ := append_of_mem (memWaiting.mpr ⟨mem,woken⟩)
  obtain ⟨q',taken,armed,left,linked,newest⟩ := disarmQueued holds nodup place enough
  have clear : Clear q (.disarm wr bound) ↔ after.length ≠ 1 := by
    rw [Clear,place]
    exact nextToLast (place ▸ distinct)
  rw [holds.last,place] at newest
  have nodup' : q'.armed.Nodup := armed ▸ nodup.erase wr
  refine ⟨q',taken,nodup',?_⟩
  rw [clear,← disarmLast (place ▸ distinct),← newest]
  constructor
  · intro holds'
    rw [holds'.last,left]
  intro last
  exact ⟨left ▸ linked,left ▸ last,waitingNodup nodup'⟩

/-! wake_one and wake_all -/

lemma wakeOneHolds (spill : R → Option R) (holds : Holds q) (nodup : q.armed.Nodup) :
    Holds (wakeOne q spill) ∧ (wakeOne q spill).armed = q.armed := by
  have oldest := holds.oldestEq
  have queued : Queued q.toFifo (waiting q) := holds
  generalize place : waiting q = x at oldest queued ⊢
  rcases x with _ | ⟨wr,rest⟩
  · rw [wakeOne,oldest]
    exact ⟨holds,rfl⟩
  have left : waiting (wakeLock {q with toFifo := q.drop wr} wr spill) = rest := by
    have same : waiting {q with toFifo := q.drop wr} = wr::rest := place
    rw [waitingWakeLock (by exact nodup),same,erase_cons_head]
  rw [wakeOne,oldest]
  refine ⟨?_,rfl⟩
  change Queued _ (waiting (wakeLock {q with toFifo := q.drop wr} wr spill))
  rw [left]
  exact queued.drop.write (nodup_cons.mp queued.nodup).1 _

lemma wakeChainSpec {spill : R → Option R} {n : Nat} {l : List R} {q : Queue R} {head : Option R}
    (linked : Linked q.next head l) (nodup : l.Nodup) (enough : l.length < n) :
    ∃ q', wakeChain spill n q head = some q' ∧ q'.oldest = q.oldest ∧ q'.newest = q.newest ∧
      q'.armed = q.armed ∧ ∀ wr, q'.woken wr = (q.woken wr || decide (wr ∈ l)) := by
  induction l generalizing q head n with
  | nil =>
    obtain ⟨n,rfl⟩ : ∃ m, n = m+1 := ⟨n-1,by omega⟩
    have ends := linked.headEq
    subst ends
    exact ⟨q,rfl,rfl,rfl,rfl,by simp⟩
  | cons a l ih => ?_
  obtain ⟨n,rfl⟩ : ∃ m, n = m+1 := ⟨n-1,by omega⟩
  have first := linked.headEq
  subst first
  obtain ⟨fresh,rest⟩ := nodup_cons.mp nodup
  have behind := @Linked.after R q.next (some a) a [] l linked
  obtain ⟨q',taken,oldest,newest,armed,woken⟩ :=
    @ih n (wakeLock q a spill) (q.next a) (behind.write fresh _) rest (by simp at enough; omega)
  refine ⟨q',taken,oldest,newest,armed,fun wr => ?_⟩
  rw [woken wr]
  by_cases same : wr = a
  · simp [same,wakeLock]
  · simp [same,wakeLock]

lemma wakeAllSpec {q : Queue R} {spill : R → Option R} {bound : Nat} (holds : Holds q)
    (nodup : q.armed.Nodup) (enough : (waiting q).length < bound) :
    ∃ q', wakeAll q spill bound = some q' ∧ Holds q' ∧ q'.armed = q.armed ∧ ∀ wr ∈ q.armed, q'.woken wr = true := by
  obtain ⟨q',taken,oldest,newest,armed,woken⟩ :=
    @wakeChainSpec R _ spill bound (waiting q) {q with oldest := none, newest := none} q.oldest
      holds.linked (waitingNodup nodup) enough
  have all : ∀ wr ∈ q.armed, q'.woken wr = true := by
    intro wr mem
    rw [woken wr]
    cases before : q.woken wr with
    | true => rfl
    | false => simpa using memWaiting.mpr ⟨mem,before⟩
  have none : waiting q' = [] := by
    refine filter_eq_nil_iff.mpr fun wr mem => ?_
    simp [all wr (armed ▸ mem)]
  refine ⟨q',taken,?_,armed,all⟩
  rw [Holds,none]
  exact .empty oldest newest

/-! Runs -/

lemma stepHolds (holds : Holds q) (nodup : q.armed.Nodup) (allowed : Allowed q op)
    (enough : Enough q op) : ∃ q', step q op = some q' ∧ q'.armed.Nodup ∧ (Holds q' ↔ Clear q op) := by
  rcases op with wr | ⟨wr,bound⟩ | spill | ⟨spill,bound⟩
  · obtain ⟨q',taken,holds',nodup'⟩ := armHolds holds nodup allowed
    exact ⟨q',taken,nodup',fun _ => trivial,fun _ => holds'⟩
  · exact disarmHolds holds nodup allowed enough
  · obtain ⟨holds',armed⟩ := wakeOneHolds spill holds nodup
    exact ⟨_,rfl,armed ▸ nodup,fun _ => trivial,fun _ => holds'⟩
  obtain ⟨q',taken,holds',armed,-⟩ := wakeAllSpec holds nodup enough
  exact ⟨q',taken,armed ▸ nodup,fun _ => trivial,fun _ => holds'⟩

lemma unlinkMore {pnext : Link R} {newest : Option R} (le : n ≤ m)
    (taken : unlink wr n q pnext newest = some q') : unlink wr m q pnext newest = some q' := by
  induction n generalizing m pnext newest with
  | zero => cases taken
  | succ n ih => ?_
  obtain ⟨m,rfl⟩ : ∃ k, m = k+1 := ⟨m-1,by omega⟩
  rw [unlink] at taken ⊢
  rcases found : q.load pnext with _ | record
  · rwa [found] at taken
  rw [found] at taken
  by_cases here : record = wr
  · simp only [here,if_true] at taken ⊢
    exact taken
  simp only [here,if_false] at taken ⊢
  exact ih (Nat.le_of_succ_le_succ le) taken

lemma wakeChainMore {spill : R → Option R} {head : Option R} (le : n ≤ m)
    (taken : wakeChain spill n q head = some q') : wakeChain spill m q head = some q' := by
  induction n generalizing m q head with
  | zero => cases taken
  | succ n ih => ?_
  obtain ⟨m,rfl⟩ : ∃ k, m = k+1 := ⟨m-1,by omega⟩
  rcases head with _ | wr
  · exact taken
  rw [wakeChain] at taken ⊢
  exact ih (Nat.le_of_succ_le_succ le) taken

def Op.more (op : Op R) (n : Nat) : Op R :=
  match op with
  | .disarm wr bound => .disarm wr (bound + n)
  | .wakeAll spill bound => .wakeAll spill (bound + n)
  | op => op

lemma stepMore (n : Nat) (taken : step q op = some q') : step q (op.more n) = some q' := by
  cases op with
  | arm wr | wakeOne spill => exact taken
  | disarm wr bound => ?_
  | wakeAll spill bound => exact wakeChainMore (Nat.le_add_right ..) taken
  change disarm q wr (bound + n) = some q'
  obtain ⟨last,found,done⟩ := Option.map_eq_some_iff.mp taken
  rw [disarm]
  cases woken : q.woken wr
  case true => simpa [woken,disarm,step] using taken
  simp only [woken,Bool.false_eq_true,if_false] at found ⊢
  rw [unlinkMore (Nat.le_add_right ..) found,← done]
  rfl

lemma stepTaken (holds : Holds q) (nodup : q.armed.Nodup) (allowed : Allowed q op)
    (taken : step q op = some q') : q'.armed.Nodup ∧ (Holds q' ↔ Clear q op) := by
  have allowed' : Allowed q (op.more ((waiting q).length+1)) := by cases op <;> exact allowed
  have enough : Enough q (op.more ((waiting q).length+1)) := by
    cases op with
    | arm wr | wakeOne spill => trivial
    | disarm wr bound | wakeAll spill bound => exact Nat.lt_of_lt_of_le (Nat.lt_succ_self _) (Nat.le_add_left ..)
  have clear : Clear q (op.more ((waiting q).length+1)) ↔ Clear q op := by cases op <;> exact Iff.rfl
  obtain ⟨r,reached,nodup',holds'⟩ := stepHolds holds nodup allowed' enough
  cases (stepMore _ taken).symm.trans reached
  exact ⟨nodup',holds'.trans clear⟩

lemma reachableHolds (reach : Reachable q) : Holds q ∧ q.armed.Nodup := by
  refine @invariant _ _ _ _ _ (fun q : Queue R => Holds q ∧ q.armed.Nodup) ?_ ?_ q reach
  · intro q first
    obtain ⟨oldest,newest,armed⟩ := first
    have none : waiting q = [] := by rw [waiting,armed]; rfl
    refine ⟨?_,armed ▸ nodup_nil⟩
    rw [Holds,none]
    exact .empty oldest newest
  intro q op q' inv allowed taken
  obtain ⟨nodup,holds⟩ := stepTaken inv.1 inv.2 allowed.1 taken
  exact ⟨holds.mpr allowed.2,nodup⟩

theorem waitersQueued {q : Queue R} (reach : Reachable q) :
    Holds q ∧ (∀ op, Allowed q op → Enough q op → ∃ q', step q op = some q' ∧ (Holds q' ↔ Clear q op)) ∧
      ∀ spill bound q', step q (.wakeAll spill bound) = some q' → ∀ wr ∈ q.armed, q'.woken wr = true := by
  obtain ⟨holds,nodup⟩ := reachableHolds reach
  refine ⟨holds,fun op allowed enough => ?_,fun spill bound q' taken => ?_⟩
  · obtain ⟨q',taken,-,kept⟩ := stepHolds holds nodup allowed enough
    exact ⟨q',taken,kept⟩
  have more := stepMore ((waiting q).length+1) taken
  obtain ⟨r,reached,-,-,all⟩ := @wakeAllSpec R _ q spill (bound + ((waiting q).length+1)) holds nodup (by omega)
  cases more.symm.trans reached
  exact all

end

def idle : Queue Nat := ⟨⟨none,none,fun _ => none⟩,fun _ => false,[]⟩
def timeoutRun : List (Op Nat) := [.arm 0,.arm 1,.arm 2,.disarm 0 4,.wakeOne fun _ => none]

lemma timeoutReachable : Reachable (final step (fun q op => Allowed q op ∧ Clear q op) idle timeoutRun) :=
  reachFinal timeoutRun ⟨rfl,rfl,rfl⟩ rfl

theorem waitersQueuedTimeout :
    let q := final step (fun q op => Allowed q op ∧ Clear q op) idle timeoutRun
    waiting q = [2] ∧ Holds q ∧ ∀ spill bound q', step q (.wakeAll spill bound) = some q' → q'.woken 2 = true := by
  obtain ⟨holds,-,all⟩ := waitersQueued timeoutReachable
  exact ⟨rfl,holds,fun spill bound q' taken => all spill bound q' taken 2 (by decide)⟩

def lossRun : List (Op Nat) := [.arm 0,.arm 1,.arm 2,.disarm 1 4,.arm 3]

theorem waiterLost :
    let q := final step Allowed idle lossRun
    Reach step Allowed Start q ∧ waiting q = [0,2,3] ∧ ¬Holds q ∧
      (step q (.wakeAll (fun _ => none) 4)).map (fun q' => q'.woken 2) = some false := by
  refine ⟨reachFinal lossRun ⟨rfl,rfl,rfl⟩ rfl,rfl,fun holds => ?_,rfl⟩
  have linked := holds.linked
  have all : waiting (final step Allowed idle lossRun) = [0] ++ 2::[3] := rfl
  rw [all] at linked
  have behind := @Linked.headEq _ _ _ _ (@Linked.after _ _ _ 0 [] [2,3] linked)
  cases behind

end OsvKernel.WaitQueue
