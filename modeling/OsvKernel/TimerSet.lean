import OsvKernel.BitsetIter
import OsvKernel.Leading
import OsvKernel.Runs

/-! timer_set (include/osv/timer-set.hh): timers in buckets by the leading bit in which their
timeout differs from the time of the last expiry. Timestamps are signed 64-bit counts. -/
namespace OsvKernel.TimerSet
open BitsetIter Leading List Function

def maxTimestamp : Int := 2^63 - 1
def nBuckets : Nat := 64

def getIndex (last timestamp : Int) : Nat :=
  if timestamp ≤ last then nBuckets - 1
  else countLeadingZerosLong (BitVec.ofInt 64 timestamp ^^^ BitVec.ofInt 64 last)

section index
variable {last now x y : Int}

lemma ofIntNat (low : 0 ≤ x) (high : x ≤ maxTimestamp) : (BitVec.ofInt 64 x).toNat = x.toNat := by
  rw [BitVec.toNat_ofInt]
  unfold maxTimestamp at high
  congr 1
  omega

lemma getIndexPast (past : x ≤ last) : getIndex last x = 63 := if_pos past

lemma getIndexLeads (low : 0 ≤ last) (later : last < x) (high : x ≤ maxTimestamp) :
    ∃ b, getIndex last x + b = 62 ∧ Leads b x.toNat last.toNat := by
  have below : last.toNat < x.toNat := by omega
  have leads := leadsXor below
  have value : (BitVec.ofInt 64 x ^^^ BitVec.ofInt 64 last).toNat = x.toNat ^^^ last.toNat := by
    rw [BitVec.toNat_xor,ofIntNat (by omega) high,ofIntNat low (by omega)]
  have nonzero : x.toNat ^^^ last.toNat ≠ 0 := fun same => by
    have equal := Nat.xor_eq_zero_iff.mp same
    omega
  have some : BitVec.ofInt 64 x ^^^ BitVec.ofInt 64 last ≠ 0 := fun zero => by
    rw [zero] at value
    exact nonzero value.symm
  have count := countLeadingZerosLog some
  rw [value] at count
  have short : Nat.log2 (x.toNat ^^^ last.toNat) < 63 := by
    unfold maxTimestamp at high
    refine (Nat.log2_lt nonzero).mpr (Nat.xor_lt_two_pow ?_ ?_) <;> omega
  refine ⟨_,?_,leads⟩
  rw [getIndex,if_neg (by omega)]
  unfold countLeadingZeros at count
  unfold countLeadingZerosLong
  omega

lemma getIndexBelow (low : 0 ≤ last) (high : x ≤ maxTimestamp) : getIndex last x < nBuckets := by
  unfold nBuckets
  by_cases past : x ≤ last
  · rw [getIndexPast past]
    decide
  obtain ⟨b,index,-⟩ := getIndexLeads low (by omega) high
  omega

lemma laterOfIndex (below : getIndex last x < 63) : last < x := by
  by_contra past
  rw [getIndexPast (by omega)] at below
  omega

lemma getIndexOrder (low : 0 ≤ last) (highX : x ≤ maxTimestamp) (highY : y ≤ maxTimestamp)
    (below : getIndex last x < getIndex last y) : y < x := by
  have bound := getIndexBelow low highY
  unfold nBuckets at bound
  have later := @laterOfIndex last x (by omega)
  by_cases past : y ≤ last
  · omega
  obtain ⟨b,indexX,leadsX⟩ := getIndexLeads low later highX
  obtain ⟨c,indexY,leadsY⟩ := getIndexLeads low (by omega) highY
  have order := leadsY.order leadsX (by omega)
  omega

lemma getIndexKeep (low : 0 ≤ last) (order : last ≤ now) (highN : now ≤ maxTimestamp)
    (highX : x ≤ maxTimestamp) (below : getIndex last x < getIndex last now) :
    getIndex now x = getIndex last x := by
  by_cases same : now = last
  · rw [same]
  have after := getIndexOrder low highX highN below
  obtain ⟨c,indexN,near⟩ := getIndexLeads low (by omega) highN
  obtain ⟨b,indexX,far⟩ := getIndexLeads low (by omega) highX
  obtain ⟨d,index,leads⟩ := getIndexLeads (by omega) after highX
  have bits := (far.keep near (by omega)).unique leads
  omega

lemma getIndexMove (low : 0 ≤ last) (order : last ≤ now) (highX : x ≤ maxTimestamp)
    (shared : getIndex last x = getIndex last now) (after : now < x) :
    getIndex last now < getIndex now x := by
  obtain ⟨b,indexX,far⟩ := getIndexLeads low (by omega) highX
  have later := @laterOfIndex last now (by omega)
  obtain ⟨c,indexN,near⟩ := getIndexLeads low later (by omega)
  have bits : b = c := by omega
  obtain ⟨d,lower,leads⟩ := (bits ▸ far).share near (by omega)
  obtain ⟨e,index,again⟩ := getIndexLeads (by omega) after highX
  have unique := leads.unique again
  omega

end index

structure State (T : Type) where
  buckets : Nat → List T
  expired : List T
  last : Int
  next : Int
  nonEmptyBuckets : Bitset

def make {T : Type} : State T := ⟨fun _ => [],[],0,maxTimestamp,0⟩

section
variable {T : Type} (timeout : T → Int)

def insert (s : State T) (timer : T) : State T × Bool :=
  let timestamp := timeout timer
  let index := getIndex s.last timestamp
  let s := {s with
    buckets := update s.buckets index (s.buckets index ++ [timer])
    nonEmptyBuckets := assign s.nonEmptyBuckets index true}
  if timestamp < s.next then ({s with next := timestamp},true) else (s,false)

def remove [DecidableEq T] (s : State T) (timer : T) : State T :=
  let index := getIndex s.last (timeout timer)
  let list := (s.buckets index).erase timer
  {s with
    buckets := update s.buckets index list
    nonEmptyBuckets := if list.isEmpty then assign s.nonEmptyBuckets index false else s.nonEmptyBuckets}

def splice (s : State T) (i : Nat) : State T :=
  {s with
    expired := s.expired ++ s.buckets i
    buckets := update s.buckets i []
    nonEmptyBuckets := assign s.nonEmptyBuckets i false}

def redistribute (now : Int) (index : Nat) : Nat → State T → Option (State T)
  | 0, _ => none
  | fuel+1, s =>
    match s.buckets index with
    | [] => some s
    | timer::rest =>
      let s := {s with buckets := update s.buckets index rest}
      redistribute now index fuel
        (if timeout timer ≤ now then {s with expired := s.expired ++ [timer]} else (insert timeout s timer).1)

def refreshNext (s : State T) : State T :=
  if s.next = maxTimestamp ∧ s.nonEmptyBuckets ≠ 0 then
    {s with next := (s.buckets (getLastSet s.nonEmptyBuckets)).foldl (fun n timer => min n (timeout timer)) s.next}
  else s

def expire (s : State T) (now : Int) : Option (State T) :=
  if now < s.last then none else
    let index := getIndex s.last now
    let s := (forEachSet s.nonEmptyBuckets (index + 1)).foldl splice s
    let s := {s with last := now, next := maxTimestamp}
    (redistribute timeout now index ((s.buckets index).length + 1) s).map fun s =>
      refreshNext timeout {s with nonEmptyBuckets := assign s.nonEmptyBuckets index !(s.buckets index).isEmpty}

def popExpired (s : State T) : State T × Option T := ({s with expired := s.expired.tail},s.expired.head?)

def getNextTimeout (s : State T) : Int := max s.last s.next
def isEmpty (s : State T) : Bool := s.nonEmptyBuckets == 0
def Active (s : State T) (timer : T) : Prop := ∃ i, i < nBuckets ∧ timer ∈ s.buckets i

instance [DecidableEq T] (s : State T) (timer : T) : Decidable (Active s timer) := by
  unfold Active
  infer_instance

structure Filed (s : State T) : Prop where
  early : 0 ≤ s.last
  late : s.last ≤ maxTimestamp
  times : ∀ i t, t ∈ s.buckets i → timeout t ≤ maxTimestamp
  placed : ∀ i t, t ∈ s.buckets i → getIndex s.last (timeout t) = i
  marks : ∀ i, s.nonEmptyBuckets.getLsbD i = true ↔ s.buckets i ≠ []
  once : ∀ i, (s.buckets i).Nodup
  expiredOnce : s.expired.Nodup
  apart : ∀ i t, t ∈ s.buckets i → t ∉ s.expired
  nextMax : s.next ≤ maxTimestamp
  nextLow : ∀ i t, t ∈ s.buckets i → s.next ≤ timeout t

variable {timeout}
variable {s : State T}

lemma makeFiled : Filed timeout (make : State T) := by
  constructor <;> simp [make,maxTimestamp]

variable {t x : T} {i : Nat}

lemma Filed.active (filed : Filed timeout s) : Active s t ↔ ∃ i, t ∈ s.buckets i := by
  constructor
  · rintro ⟨i,-,inside⟩
    exact ⟨i,inside⟩
  rintro ⟨i,inside⟩
  exact ⟨i,filed.placed i t inside ▸ getIndexBelow filed.early (filed.times i t inside),inside⟩

lemma Filed.ne {u : T} {j : Nat} (filed : Filed timeout s) (first : t ∈ s.buckets i)
    (second : u ∈ s.buckets j) (other : i ≠ j) : t ≠ u := by
  rintro rfl
  exact other ((filed.placed i t first).symm.trans (filed.placed j t second))

lemma Filed.congr {timeout' : T → Int} (filed : Filed timeout s)
    (same : ∀ i t, t ∈ s.buckets i → timeout' t = timeout t) : Filed timeout' s :=
  { filed with
    times := fun i t inside => same i t inside ▸ filed.times i t inside
    placed := fun i t inside => (same i t inside).symm ▸ filed.placed i t inside
    nextLow := fun i t inside => (same i t inside).symm ▸ filed.nextLow i t inside }

lemma insertBuckets (t : T) : (insert timeout s t).1.buckets =
    update s.buckets (getIndex s.last (timeout t)) (s.buckets (getIndex s.last (timeout t)) ++ [t]) := by
  dsimp only [insert]
  split <;> rfl

lemma insertMarks (t : T) : (insert timeout s t).1.nonEmptyBuckets =
    assign s.nonEmptyBuckets (getIndex s.last (timeout t)) true := by
  dsimp only [insert]
  split <;> rfl

lemma insertFrame (t : T) : (insert timeout s t).1.last = s.last ∧ (insert timeout s t).1.expired = s.expired := by
  dsimp only [insert]
  split <;> exact ⟨rfl,rfl⟩

lemma insertNext (t : T) : timeout t < s.next ∧ (insert timeout s t).1.next = timeout t ∧ (insert timeout s t).2 = true ∨
      s.next ≤ timeout t ∧ (insert timeout s t).1.next = s.next ∧ (insert timeout s t).2 = false := by
  dsimp only [insert]
  split
  · exact .inl ⟨‹_›,rfl,rfl⟩
  · exact .inr ⟨Int.not_lt.mp ‹_›,rfl,rfl⟩

lemma memInsert : x ∈ (insert timeout s t).1.buckets i ↔ x ∈ s.buckets i ∨ x = t ∧ getIndex s.last (timeout t) = i := by
  rw [insertBuckets]
  by_cases same : i = getIndex s.last (timeout t)
  · subst i
    simp
  rw [update_of_ne same]
  exact ⟨.inl,Or.rec id fun other => absurd other.2.symm same⟩

lemma Filed.insert (filed : Filed timeout s) (fresh : ¬Active s t)
    (out : t ∉ s.expired) (high : timeout t ≤ maxTimestamp) : Filed timeout (insert timeout s t).1 := by
  obtain ⟨last,expired⟩ := @insertFrame T timeout s t
  have low : (TimerSet.insert timeout s t).1.next ≤ s.next ∧ (TimerSet.insert timeout s t).1.next ≤ timeout t := by
    rcases @insertNext T timeout s t with ⟨less,next,-⟩ | ⟨less,next,-⟩ <;> omega
  constructor
  case early => rw [last]; exact filed.early
  case late => rw [last]; exact filed.late
  case times =>
    intro i x inside
    rcases memInsert.mp inside with inside | ⟨rfl,-⟩
    · exact filed.times i x inside
    · exact high
  case placed =>
    intro i x inside
    rw [last]
    rcases memInsert.mp inside with inside | ⟨rfl,index⟩
    · exact filed.placed i x inside
    · exact index
  case marks =>
    intro i
    rw [insertMarks,insertBuckets,getLsbDAssign (getIndexBelow filed.early high)]
    by_cases same : i = getIndex s.last (timeout t)
    · subst i
      simp
    rw [if_neg same,update_of_ne same]
    exact filed.marks i
  case once =>
    intro i
    rw [insertBuckets]
    by_cases same : i = getIndex s.last (timeout t)
    · subst i
      rw [update_self]
      refine (filed.once _).append (nodup_singleton t) fun x inside single => fresh ?_
      exact filed.active.mpr ⟨_,mem_singleton.mp single ▸ inside⟩
    rw [update_of_ne same]
    exact filed.once i
  case expiredOnce => rw [expired]; exact filed.expiredOnce
  case apart =>
    intro i x inside
    rw [expired]
    rcases memInsert.mp inside with inside | ⟨rfl,-⟩
    · exact filed.apart i x inside
    · exact out
  case nextMax => exact Int.le_trans low.1 filed.nextMax
  case nextLow =>
    intro i x inside
    rcases memInsert.mp inside with inside | ⟨rfl,-⟩
    · exact Int.le_trans low.1 (filed.nextLow i x inside)
    · exact low.2

lemma insertActive {t x : T} (filed : Filed timeout s) (fresh : ¬Active s t)
    (out : t ∉ s.expired) (high : timeout t ≤ maxTimestamp) :
    Active (insert timeout s t).1 x ↔ Active s x ∨ x = t := by
  rw [(filed.insert fresh out high).active,filed.active]
  simp only [memInsert]
  constructor
  · rintro ⟨i,inside | ⟨rfl,-⟩⟩
    · exact .inl ⟨i,inside⟩
    · exact .inr rfl
  rintro (⟨i,inside⟩ | rfl)
  · exact ⟨i,.inl inside⟩
  · exact ⟨_,.inr ⟨rfl,rfl⟩⟩

section remove
variable [DecidableEq T]

lemma memRemove (filed : Filed timeout s) : x ∈ (remove timeout s t).buckets i ↔ x ∈ s.buckets i ∧ x ≠ t := by
  unfold remove
  by_cases same : i = getIndex s.last (timeout t)
  · subst i
    simp only [update_self]
    rw [(filed.once _).mem_erase_iff]
    exact and_comm
  simp only [update_of_ne same]
  refine ⟨fun inside => ⟨inside,?_⟩,And.left⟩
  rintro rfl
  exact same (filed.placed i x inside).symm

lemma Filed.remove (filed : Filed timeout s) (active : Active s t) : Filed timeout (remove timeout s t) := by
  obtain ⟨k,inside⟩ := filed.active.mp active
  have bound := getIndexBelow filed.early (filed.times k t inside)
  have kept : ∀ {i x}, x ∈ (TimerSet.remove timeout s t).buckets i → x ∈ s.buckets i :=
    fun left => ((memRemove filed).mp left).1
  constructor
  case early => exact filed.early
  case late => exact filed.late
  case times => exact fun i x left => filed.times i x (kept left)
  case placed => exact fun i x left => filed.placed i x (kept left)
  case marks =>
    intro i
    dsimp only [TimerSet.remove]
    by_cases same : i = getIndex s.last (timeout t)
    · subst i
      rw [update_self]
      split
      next gone =>
        rw [getLsbDAssign bound,isEmpty_iff.mp gone]
        simp
      rename_i left
      rw [List.isEmpty_iff] at left
      refine iff_of_true ((filed.marks _).mpr fun none => left ?_) left
      rw [none,erase_nil]
    rw [update_of_ne same,← filed.marks i]
    split
    · rw [getLsbDAssign bound,if_neg same]
    · rfl
  case once =>
    intro i
    dsimp only [TimerSet.remove]
    by_cases same : i = getIndex s.last (timeout t)
    · subst i
      rw [update_self]
      exact (filed.once _).erase t
    rw [update_of_ne same]
    exact filed.once i
  case expiredOnce => exact filed.expiredOnce
  case apart => exact fun i x left => filed.apart i x (kept left)
  case nextMax => exact filed.nextMax
  case nextLow => exact fun i x left => filed.nextLow i x (kept left)

lemma removeActive {t x : T} (filed : Filed timeout s) (active : Active s t) :
    Active (remove timeout s t) x ↔ Active s x ∧ x ≠ t := by
  rw [(filed.remove active).active,filed.active]
  simp only [memRemove filed,exists_and_right]

end remove

end
end OsvKernel.TimerSet
