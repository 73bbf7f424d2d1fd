import OsvKernel.Mmap

/-! What the searches in the vma list answer: find_intersecting_vmas, find_intersecting_vma, ismapped and find_hole. -/
namespace OsvKernel.VmaList
open List Option Words
open Mmap (Searchable ismappedFound)

-- Reading through end() and stepping back from begin() give none.
def findIntersectingVma (l : List Vma) (addr : Nat) : Option (Option Vma) := do
  let v ← lowerBound l addr
  if v.start = addr then some (some v)
  else do
    let p ← prev l v.start
    some (if addr ≥ p.start ∧ addr < p.stop then some p else none)

def Meets (start stop : Nat) (v : Vma) : Prop := max start v.start < min stop v.stop
  deriving Decidable

def Slices (l : List Vma) (start stop : Nat) : Prop :=
  (findIntersectingVmas l start stop).map (visited l) = some (l.filter fun v => Meets start stop v)

def Finds (l : List Vma) (addr : Nat) : Prop := findIntersectingVma l addr = some (l.find? fun v => v.Has addr)
def Covered (l : List Vma) (start stop : Nat) : Prop := ∀ a, start ≤ a → a < stop → ∃ v ∈ l, v.Has a

def Tells (l : List Vma) (addr size : Nat) : Prop :=
  ∃ answer, ismapped l addr size = some answer ∧ (answer = true ↔ 0 < size ∧ Covered l addr (addr + size))

variable {l M A B : List Vma} {start stop addr size a : Nat} {v w p : Vma} {C rest : List Vma}

lemma Inv.lowerBoundNone (h : Inv l) (above : sentinelEnd < addr) : lowerBound l addr = none := by
  refine find?_eq_none.mpr fun v mem => ?_
  have fit := h.fit v mem
  have := fit.le
  have := fit.top
  simp
  omega

lemma Found.meets (f : Found l start stop A M B) (h : Inv l) (low : 0 < start) (high : stop ≤ sentinelEnd)
    (lt : start < stop) : (l.filter fun v => Meets start stop v) = M := by
  have spread := f.spread h low high
  have fit := f.fit h
  rw [f.list,filter_append,filter_append,filter_eq_nil_iff.mpr,filter_eq_self.mpr,filter_eq_nil_iff.mpr]
  · simp
  · intro v mem
    have := f.above v mem
    rw [decide_eq_true_iff]
    unfold Meets
    omega
  · intro v mem
    have := f.inside v mem
    have := spread v mem
    have := (fit v mem).le
    rw [decide_eq_true_iff]
    unfold Meets
    omega
  intro v mem
  have := f.below v mem
  rw [decide_eq_true_iff]
  unfold Meets
  omega

lemma Found.sentinel (f : Found l start stop A M B) (ordered : l.Pairwise Before) (mem : v ∈ l) (empty : v.start = v.stop)
    (le : start ≤ v.start) (lt : v.start < stop) : ¬ Slices l start stop := by
  intro ok
  rw [Slices,f.range,map_some,f.visited ordered] at ok
  have inside : v ∈ M := by
    rw [f.list] at mem
    rcases mem_append.mp mem with before | rest
    · have := (f.below v before).1
      omega
    rcases mem_append.mp rest with here | after
    · exact here
    have := f.above v after
    omega
  rw [some.inj ok] at inside
  have meets := (mem_filter.mp inside).2
  rw [decide_eq_true_iff] at meets
  unfold Meets at meets
  omega

lemma slicesIff (h : Inv l) : Slices l start stop ↔ stop ≤ start ∨ 0 < start ∧ stop ≤ sentinelEnd := by
  rcases Nat.lt_or_ge start stop with lt | ge
  · rcases Nat.lt_or_ge sentinelEnd start with above | le
    · have nothing : findIntersectingVmas l start stop = none := by
        rw [findIntersectingVmas,if_neg (by omega),h.lowerBoundNone above]
        rfl
      refine iff_of_false (fun ok => ?_) (by omega)
      rw [Slices,nothing] at ok
      cases ok
    · obtain ⟨A,M,B,f⟩ := h.found lt le
      constructor
      · intro ok
        by_contra bad
        rcases Nat.eq_zero_or_pos start with zero | pos
        · obtain ⟨v,mem,first,last⟩ := h.low
          exact f.sentinel h.ordered mem (by omega) (by omega) (by omega) ok
        obtain ⟨v,mem,first,last⟩ := h.high
        exact f.sentinel h.ordered mem (by omega) (by omega) (by omega) ok
      intro inside
      obtain ⟨low,high⟩ := inside.resolve_left (by omega)
      rw [Slices,f.range,map_some,f.visited h.ordered,f.meets h low high lt]
  refine iff_of_true ?_ (.inl ge)
  rw [Slices,findIntersectingVmas,if_pos ge,filter_eq_nil_iff.mpr]
  · rfl
  intro v mem
  rw [decide_eq_true_iff]
  unfold Meets
  omega

lemma lowerBoundStart (ordered : l.Pairwise Before) (mem : v ∈ l) : lowerBound l v.start = some v := by
  obtain ⟨P,Q,rfl⟩ := append_of_mem mem
  obtain ⟨-,tail,across⟩ := pairwise_append.mp ordered
  refine lowerBoundAppend (fun w before => (across w before v (.head _)).1) fun w after => ?_
  rcases mem_cons.mp after with rfl | later
  · exact Nat.le_refl _
  · exact Nat.le_of_lt ((pairwise_cons.mp tail).1 w later).1

lemma notFinds (ordered : l.Pairwise Before) (mem : v ∈ l) (empty : v.start = v.stop) : ¬ Finds l v.start := by
  intro ok
  have found : findIntersectingVma l v.start = some (some v) := by
    rw [findIntersectingVma,lowerBoundStart ordered mem]
    exact if_pos rfl
  rw [Finds,found] at ok
  have has : v.Has v.start := by simpa using find?_some (some.inj ok).symm
  have := has.2
  omega

lemma Inv.finds (h : Inv l) (low : 0 < addr) (high : addr < sentinelEnd) : Finds l addr := by
  obtain ⟨P,R,rfl,below,above⟩ := cutAt h.ordered addr
  obtain ⟨first,tail,across⟩ := pairwise_append.mp h.ordered
  have off : ∀ v ∈ P, v.stop ≤ addr → ¬ v.Has addr := fun v _ le has => Nat.not_lt.mpr le has.2
  rcases R with _ | ⟨s,R⟩
  · obtain ⟨w,mem,start,-⟩ := h.high
    have := below w (by simpa using mem)
    omega
  rw [Finds,findIntersectingVma,lowerBoundAppend below above]
  rcases Nat.eq_or_lt_of_le (above s (.head _)) with same | gap
  · have fit := h.fit s (by simp)
    have spread : s.Has addr := by
      have := fit.nonempty
      have := fit.le
      exact ⟨by omega,by omega⟩
    have none : P.find? (fun v => v.Has addr) = none := find?_eq_none.mpr fun v mem => by
      simpa using off v mem (same ▸ (across v mem s mem_cons_self).2)
    rw [find?_append,none,none_or,find?_cons_of_pos (by simpa using spread)]
    exact if_pos same.symm
  rcases eq_nil_or_concat' P with rfl | ⟨P,p,rfl⟩
  · obtain ⟨w,mem,start,-⟩ := h.low
    have := above w (by simpa using mem)
    omega
  have less := below p (by simp)
  have before : P.find? (fun v => v.Has addr) = none := find?_eq_none.mpr fun v mem => by
    have order := (pairwise_append.mp first).2.2 v mem p (by simp)
    simpa using off v (by simp [mem]) (Nat.le_trans order.2 (Nat.le_of_lt less))
  have after : (s::R).find? (fun v => v.Has addr) = none := find?_eq_none.mpr fun v mem => by
    have far : addr < v.start := by
      rcases mem_cons.mp mem with rfl | later
      · exact gap
      · exact Nat.lt_trans gap ((pairwise_cons.mp tail).1 v later).1
    exact mt of_decide_eq_true fun has => Nat.not_le.mpr far has.1
  have back := @prevAppend P (s::R) p s rfl fun v mem => Nat.lt_trans (below v mem) gap
  dsimp only [head?_cons,bind,Option.bind]
  rw [if_neg (Nat.ne_of_gt gap),back,find?_append,find?_append,before,after,none_or,or_none]
  by_cases has : p.Has addr
  · rw [find?_cons_of_pos (by simpa using has)]
    exact congrArg some (if_pos has)
  rw [find?_cons_of_neg (by simpa using has)]
  exact congrArg some (if_neg has)

lemma findsIff (h : Inv l) : Finds l addr ↔ 0 < addr ∧ addr < sentinelEnd := by
  constructor
  · intro ok
    by_contra bad
    rcases Nat.lt_or_ge sentinelEnd addr with above | le
    · rw [Finds,findIntersectingVma,h.lowerBoundNone above] at ok
      cases ok
    rcases Nat.eq_zero_or_pos addr with zero | pos
    · obtain ⟨v,mem,first,last⟩ := h.low
      exact notFinds h.ordered mem (by omega) (by rwa [first,← zero])
    obtain ⟨v,mem,first,last⟩ := h.high
    exact notFinds h.ordered mem (by omega) (by rwa [first,show sentinelEnd = addr by omega])
  · exact fun ⟨low,high⟩ => h.finds low high

-- The part of the range in front of the vma is covered already.
lemma mappedIff (ordered : M.Pairwise Before) (fit : ∀ v ∈ M, v.start ≤ v.stop) (lt : start < stop)
    (meets : ∀ v ∈ M, start ≤ v.start ∨ start < v.stop) : mappedFrom stop start M = true ↔ Covered M start stop := by
  induction M generalizing start with
  | nil =>
    refine iff_of_false (by simp [mappedFrom]) fun all => ?_
    obtain ⟨v,mem,-⟩ := all start (Nat.le_refl _) lt
    cases mem
  | cons p M ih => ?_
  obtain ⟨first,rest⟩ := pairwise_cons.mp ordered
  have le := fit p (.head _)
  have reach := meets p (.head _)
  rw [mappedFrom]
  split
  · next gap =>
    refine iff_of_false (by simp) fun all => ?_
    obtain ⟨v,mem,has⟩ := all start (Nat.le_refl _) lt
    have low := has.1
    rcases mem_cons.mp mem with rfl | later
    · omega
    have := (first v later).1
    omega
  split
  · next enough =>
    exact iff_of_true rfl fun a low high => ⟨p,.head _,by omega,by omega⟩
  next short =>
  have tail := @ih p.stop rest (fun v mem => fit v (.tail _ mem)) (by omega) fun v mem => .inl (first v mem).2
  rw [tail]
  constructor
  · intro all a low high
    rcases Nat.lt_or_ge a p.stop with here | beyond
    · exact ⟨p,.head _,by omega,here⟩
    obtain ⟨v,mem,has⟩ := all a beyond high
    exact ⟨v,.tail _ mem,has⟩
  intro all a low high
  obtain ⟨v,mem,has⟩ := all a (by omega) high
  rcases mem_cons.mp mem with rfl | later
  · exact absurd has.2 (by omega)
  exact ⟨v,later,has⟩

lemma Found.member (f : Found l start stop A M B) (mem : v ∈ l) (has : v.Has a) (low : start ≤ a) (high : a < stop) :
    v ∈ M := by
  rw [f.list] at mem
  rcases mem_append.mp mem with before | rest
  · have := (f.below v before).2
    exact absurd has.2 (by omega)
  rcases mem_append.mp rest with here | after
  · exact here
  have := f.above v after
  exact absurd has.1 (by omega)

lemma Found.sub (f : Found l start stop A M B) : M.Sublist l :=
  f.list ▸ (sublist_append_left M B).trans (sublist_append_right A _)

lemma Found.covered (f : Found l start stop A M B) : Covered M start stop ↔ Covered l start stop :=
  forall_congr' fun _ => forall_congr' fun low => forall_congr' fun high =>
    ⟨fun ⟨v,mem,has⟩ => ⟨v,f.sub.subset mem,has⟩,fun ⟨v,mem,has⟩ => ⟨v,f.member mem has low high,has⟩⟩

lemma Inv.searchable (h : Inv l) {answer : Bool} (ok : ismapped l addr size = some answer) :
    Searchable addr ((addr + size) % 2^64) := by
  by_contra out
  unfold Searchable at out
  rw [ismapped,findIntersectingVmas,if_neg (by omega),h.lowerBoundNone (by omega)] at ok
  cases ok

lemma tellsIff (h : Inv l) (word : addr < 2^64) (size64 : size < 2^64) :
    Tells l addr size ↔ Searchable addr ((addr + size) % 2^64) := by
  refine ⟨fun ⟨_,ok,_⟩ => h.searchable ok,fun s => ?_⟩
  rcases ismappedFound h s with ⟨no,wraps⟩ | ⟨lt,A,M,B,f,eq⟩
  · refine ⟨false,no,iff_of_false (by simp) fun ⟨pos,all⟩ => ?_⟩
    obtain ⟨v,mem,has⟩ := all (2^64-1) (by omega) (by omega)
    have top := (h.fit v mem).top
    have := has.2
    have : sentinelEnd = 0x800000000000 := rfl
    omega
  refine ⟨_,eq,?_⟩
  have ordered := h.ordered
  rw [f.list] at ordered
  have fit := f.fit h
  rw [mappedIff (pairwise_append.mp (pairwise_append.mp ordered).2.1).1 (fun v mem => (fit v mem).le) lt
    (fun v mem => (f.inside v mem).2),f.covered,show (addr + size) % 2^64 = addr + size by omega]
  exact ⟨fun all => ⟨by omega,all⟩,fun ⟨_,all⟩ => all⟩

theorem searchesAnswer {l : List Vma} (h : Inv l) {start stop a addr size : Nat} (word : addr < 2^64) (size64 : size < 2^64) :
    (Slices l start stop ↔ stop ≤ start ∨ 0 < start ∧ stop ≤ sentinelEnd) ∧ (Finds l a ↔ 0 < a ∧ a < sentinelEnd) ∧
      (Tells l addr size ↔ Searchable addr ((addr + size) % 2^64)) :=
  ⟨slicesIff h,findsIff h,tellsIff h word size64⟩

theorem searchesAnswerFile : Slices [lowSentinel,fileMapping,highSentinel] 0x200000001000 0x200000009000 ∧
    Finds [lowSentinel,fileMapping,highSentinel] 0x200000002fff ∧
    Tells [lowSentinel,fileMapping,highSentinel] 0x200000000000 0x3000 := by
  have answer := @searchesAnswer _ (singleInv fileFit (by decide) (by decide)) 0x200000001000 0x200000009000
    0x200000002fff 0x200000000000 0x3000 (by decide) (by decide)
  exact ⟨answer.1.mpr (by decide),answer.2.1.mpr (by decide),answer.2.2.mpr (by unfold Searchable; decide)⟩

theorem searchesBeyondEnd : Inv [lowSentinel,fileMapping,highSentinel] ∧
    findIntersectingVmas [lowSentinel,fileMapping,highSentinel] 0x900000000000 0x900000001000 = none ∧
    ¬ Slices [lowSentinel,fileMapping,highSentinel] 0x900000000000 0x900000001000 ∧
    ¬ Finds [lowSentinel,fileMapping,highSentinel] sentinelEnd := by
  refine ⟨singleInv fileFit (by decide) (by decide),rfl,?_,?_⟩
  · unfold Slices
    decide
  unfold Finds
  decide

def Free (l : List Vma) (start size : Nat) : Prop :=
  start + size ≤ sentinelEnd ∧ ∀ a, start ≤ a → a < start + size → ∀ v ∈ l, ¬ v.Has a

def Holed (l : List Vma) (start size : Nat) : Except Errno Nat → Prop
  | .ok h => Free l h size ∧ (Free l start size → h = start)
  | .error e => e = .enomem ∧ ∀ a, start ≤ a → ¬ Free l a size

-- A free piece that begins behind p lies in front of the next vma or begins behind that one too.
lemma Free.next (free : Free l a size) (pos : 0 < size) (fit : Fit v) (mem : v ∈ l) (reach : v.start < a + size) :
    v.stop ≤ a := by
  by_contra more
  have := free.1
  have := fit.nonempty
  have := fit.le
  exact free.2 (max a v.start) (by omega) (by omega) v mem ⟨by omega,by omega⟩

lemma Free.notLast {C : List Vma} (free : Free l a size) (pos : 0 < size) (h : Inv l) (shape : l = C ++ [p])
    (left : p.stop ≤ a) : False := by
  obtain ⟨w,mem,start,-⟩ := h.high
  have fit := (h.fit p (by simp [shape])).le
  have := free.1
  have ordered := h.ordered
  rw [shape] at mem ordered
  rcases mem_append.mp mem with before | last
  · have := ((pairwise_append.mp ordered).2.2 w before p (by simp)).1
    omega
  rw [mem_singleton.mp last] at start
  omega

lemma holeStart {good : Nat} (h : Inv l) (pos : 0 < size) (wrap : start + size < 2^64)
    (free : Free l start size) (shape : l = C ++ p::rest) (left : p.stop ≤ start) :
    findHoleFrom start size good p rest = .ok start := by
  induction rest generalizing C p good with
  | nil => exact (free.notLast pos h shape left).elim
  | cons n rest ih => ?_
  rw [findHoleFrom,Nat.mod_eq_of_lt wrap]
  by_cases here : start + size ≤ n.start
  · exact if_pos ⟨left,here⟩
  have beyond := free.next pos (h.fit n (by simp [shape])) (by simp [shape]) (by omega)
  have order := (h.fit n (by simp [shape])).le
  have narrow : ¬ (p.stop ≥ start ∧ sub64 n.start p.stop ≥ size) := by
    rintro ⟨at_,wide⟩
    unfold sub64 at wide
    have all := h.ordered
    rw [shape] at all
    have := ((pairwise_cons.mp (pairwise_append.mp all).2.1).1 n mem_cons_self).2
    rw [if_pos this] at wide
    omega
  rw [if_neg (fun both => here both.2),if_neg narrow]
  exact ih (C := C ++ [p]) (by simpa using shape) beyond

lemma holeMissed {good : Nat} {e : Errno} (h : Inv l) (pos : 0 < size) (wrap : start + size < 2^64)
    (shape : l = C ++ p::rest) (failed : findHoleFrom start size good p rest = .error e) :
    e = .enomem ∧ good = 0 ∧ ∀ a, start ≤ a → p.stop ≤ a → ¬ Free l a size := by
  induction rest generalizing C p good with
  | nil =>
    unfold findHoleFrom at failed
    split at failed
    · cases failed
    next none =>
    cases failed
    exact ⟨rfl,not_not.mp none,fun a _ left free => free.notLast pos h shape left⟩
  | cons n rest ih => ?_
  have all := h.ordered
  rw [shape] at all
  have order := ((pairwise_cons.mp (pairwise_append.mp all).2.1).1 n mem_cons_self).2
  have next : l = (C ++ [p]) ++ n::rest := by simpa using shape
  rw [findHoleFrom,Nat.mod_eq_of_lt wrap,sub64,if_pos order] at failed
  split at failed
  · cases failed
  next missed =>
  split at failed
  · next wide =>
    -- p.stop is remembered, so the search cannot fail any more.
    split at failed
    · cases failed
    split at failed
    · cases failed
    have := (ih next failed).2.1
    omega
  next narrow =>
  obtain ⟨code,zero,later⟩ := ih next failed
  refine ⟨code,zero,fun a from_ left free => ?_⟩
  by_cases fits : a + size ≤ n.start
  · omega
  exact later a from_ (free.next pos (h.fit n (by simp [shape])) (by simp [shape]) (by omega)) free

theorem findHoleFits {l : List Vma} (h : Inv l) {start size : Nat} (pos : 0 < size) (wrap : start + size < 2^64) :
    ∃ r, findHole l start size = some r ∧ Holed l start size r := by
  obtain ⟨w,mem,zero,last⟩ := h.low
  rcases shape : l with _ | ⟨p,rest⟩
  · rw [shape] at mem
    cases mem
  have first : p.stop = 0 := by
    have ordered := h.ordered
    rw [shape] at mem ordered
    rcases mem_cons.mp mem with rfl | later
    · exact last
    have := ((pairwise_cons.mp ordered).1 w later).1
    omega
  refine ⟨_,rfl,?_⟩
  rw [← shape]
  cases found : findHoleFrom start size 0 p rest with
  | ok v => ?_
  | error e =>
    obtain ⟨code,-,none⟩ := holeMissed (C := []) h pos wrap shape found
    exact ⟨code,fun a from_ => none a from_ (by omega)⟩
  obtain ⟨gap,high⟩ := (Mmap.roomFrom (C := []) h shape wrap (fun zero => absurd rfl zero) found).1.gap h
  refine ⟨⟨high,fun a low lt v mem has => ?_⟩,fun free => ?_⟩
  · have := gap v mem
    have := has.1
    have := has.2
    omega
  have start_ := found.symm.trans (holeStart (C := []) h pos wrap free shape (by omega))
  cases start_
  rfl

theorem findHoleFitsFile : ∃ r, findHole [lowSentinel,fileMapping,highSentinel] 0x1fffffffe000 0x4000 = some r ∧
    Holed [lowSentinel,fileMapping,highSentinel] 0x1fffffffe000 0x4000 r :=
  findHoleFits (singleInv fileFit (by decide) (by decide)) (by decide) (by decide)

end OsvKernel.VmaList
