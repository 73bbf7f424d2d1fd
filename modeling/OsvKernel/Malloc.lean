import OsvKernel.Align
import OsvKernel.PagePool
import OsvKernel.Pool

/-! std_malloc and free over the three allocators, with byte addresses. The pools
are those of the current CPU. A request that finds nothing waits and starts again,
so `waits` ends one attempt; `fault` is a write through a null page. -/
namespace OsvKernel.Malloc
open List Nat Blocks
open PageRange (exec alloc blank headers Quiet Legal physPage ilog2Roundup)
open PagePool (single onAlloc)
open Function

inductive MemArea where
  | main
  | page
  | mempool
  | debug

def MemArea.index : MemArea → Nat
  | .main => 0
  | .page => 1
  | .mempool => 2
  | .debug => 3

def getMemAreaBase (area : MemArea) : Nat := 0xffff800000000000 ||| area.index * 2^44

def getMemArea (addr : Nat) : Option MemArea :=
  match addr / 2^44 % 8 with
  | 0 => some .main
  | 1 => some .page
  | 2 => some .mempool
  | 3 => some .debug
  | _ => none

def translateMemArea (src dst : MemArea) (addr : Nat) : Nat :=
  (addr + (2^64 - getMemAreaBase src) + getMemAreaBase dst) % 2^64

-- The pages below count from phys_mem.
def address (page : Nat) : Nat := 4096 * (physPage + page)

def pointer : Option Nat → Nat
  | none => 0
  | some page => address page

def maxObjectSize : Nat := 1024
def minObjectSize : Nat := 8
def sizeofPageRange : Nat := 56
def computeObjectSize (pos : Nat) : Nat := if 2^pos > maxObjectSize then maxObjectSize else 2^pos

lemma computeObjectSizeLe (pos : Nat) : computeObjectSize pos ≤ maxObjectSize := by
  unfold computeObjectSize
  split
  · exact le_refl _
  · omega

-- The three smallest of the malloc_pools are never asked.
abbrev Order := { pos : Nat // 3 ≤ pos }

def mallocPool (n : Order) : Pool.Config where
  size := computeObjectSize n.1
  link := by
    have eight : 2^3 ≤ 2^n.1 := Nat.pow_le_pow_right (by decide) n.2
    unfold computeObjectSize maxObjectSize
    split <;> omega
  fits := by
    have le := computeObjectSizeLe n.1
    unfold maxObjectSize at le
    unfold Pool.headerSize Pool.pageSize
    omega

lemma orderLe (size : Nat) : 3 ≤ ilog2Roundup (max size minObjectSize) := by
  rcases lt_or_ge (ilog2Roundup (max size minObjectSize)) 3 with low | high
  · have large := PageRange.lePowIlog2Roundup (max size minObjectSize)
    have small : 2^(ilog2Roundup (max size minObjectSize)) ≤ 2^2 := Nat.pow_le_pow_right (by decide) (by omega)
    have eight : 8 ≤ max size minObjectSize := le_max_right _ _
    omega
  · exact high

def order (size : Nat) : Order := ⟨ilog2Roundup (max size minObjectSize),orderLe size⟩

structure Machine (n : Nat) where
  smp : Bool
  pages : PagePool.State n
  pools : Order → Pool.World

inductive Reservation where
  | object (n : Order) (header obj : Nat)
  | page (page : Nat)
  | range (header pages : Nat)

inductive Outcome (n : Nat) where
  | enomem
  | waits
  | fault
  | returned (addr : Nat) (reserved : Option Reservation) (after : Machine n)

variable {n : Nat}

-- on_alloc runs whether or not there is a page.
def earlyAllocPage (s : PagePool.State n) : Option Nat × PagePool.State n :=
  let s := { s with freeMemory := onAlloc s.freeMemory 4096 }
  match alloc true s.world.st 1 with
  | none => (none,s)
  | some (t,page) => (some page,{ s with world := { s.world with st := t, live := single page::s.world.live } })

-- With nothing but null pages in the buffer the loop of l1::alloc_page refills it.
def allocPage (m : Machine n) (c : Fin n) : Option (Option Nat × Machine n) :=
  if m.smp then
    match m.pages.buffer c with
    | some page::rest => some (some page,{ m with pages := { m.pages with
      buffer := update m.pages.buffer c rest, users := page::m.pages.users } })
    | _ => none
  else
    let r := earlyAllocPage m.pages
    some (r.1,{ m with pages := r.2 })

def addPage (m : Machine n) (o : Order) (page : Nat) : Machine n :=
  { m with pools := update m.pools o { m.pools o with
    st := Pool.addPage (mallocPool o) (m.pools o).st (address page), pages := address page::(m.pools o).pages } }

def allocObject (m : Machine n) (o : Order) : Outcome n :=
  match Pool.alloc (m.pools o).st with
  | none => .fault
  | some (s,obj) => .returned (translateMemArea .main .mempool obj) (some (.object o (Pool.toHeader obj) obj))
    { m with pools := update m.pools o { m.pools o with st := s, live := obj::(m.pools o).live } }

def mallocMempool (m : Machine n) (c : Fin n) (o : Order) : Outcome n :=
  if (m.pools o).st.free = [] then
    match allocPage m c with
    | none => .waits
    | some (none,_) => .fault
    | some (some page,m) => allocObject (addPage m o page) o
  else allocObject m o

def mallocPage (m : Machine n) (c : Fin n) : Outcome n :=
  match allocPage m c with
  | none => .waits
  | some (page,after) =>
    .returned (translateMemArea .main .page (pointer page)) (page.map (fun p => .page (address p))) after

def headerOffset (alignment : Nat) : Nat :=
  if alignment < 4096 then alignUp sizeofPageRange alignment else 4096

def allocRange (s : PageRange.State) (pages alignment : Nat) : Option (PageRange.State × Nat) :=
  if alignment > 4096 then PageRange.allocAligned s pages 1 (alignment/4096) false
  else alloc true s pages

def mallocLarge (m : Machine n) (size alignment : Nat) : Outcome n :=
  let offset := headerOffset alignment
  let size := alignUp (size + offset) 4096
  match allocRange m.pages.world.st (size/4096) alignment with
  | none => .waits
  | some (t,header) => .returned (address header + offset) (some (.range (address header) (size/4096)))
    { m with pages := { m.pages with
      world := { m.pages.world with st := t, live := ⟨⟨header,size/4096⟩,false⟩::m.pages.world.live }
      freeMemory := onAlloc m.pages.freeMemory size } }

def PoolPath (m : Machine n) (size alignment : Nat) : Prop :=
  size ≤ maxObjectSize ∧ alignment ≤ size ∧ m.smp = true
  deriving Decidable

def PagePath (size alignment : Nat) : Prop := size ≤ 4096 ∧ alignment ≤ 4096
  deriving Decidable

def stdMalloc (m : Machine n) (c : Fin n) (size alignment : Nat) : Outcome n :=
  if size ≥ 2^63 then .enomem
  else if PoolPath m size alignment then mallocMempool m c (order size)
  else if PagePath size alignment then mallocPage m c
  else mallocLarge m size alignment

inductive Route where
  | nothing
  | page (page : Nat)
  | range (header : Nat)
  | object (header obj : Nat)
  | debug
  | abort

def free (object : Nat) : Route :=
  if object = 0 then .nothing
  else
    match getMemArea object with
    | some .page => .page (translateMemArea .page .main object)
    | some .main => .range (alignDown (object - 1) 4096)
    | some .mempool =>
      let object := translateMemArea .mempool .main object
      .object (Pool.toHeader object) object
    | some .debug => .debug
    | none => .abort

def Reservation.route : Reservation → Route
  | .object _ header obj => .object header obj
  | .page p => .page p
  | .range header _ => .range header

def Reservation.Holds (a size : Nat) : Reservation → Prop
  | .object o header obj => obj ≤ a ∧ a + size ≤ obj + 2^o.1 ∧ header + Pool.headerSize ≤ a ∧ a + size ≤ header + 4096
  | .page p => p ≤ a ∧ a + size ≤ p + 4096
  | .range header pages => header + sizeofPageRange ≤ a ∧ a + size ≤ header + 4096*pages

def Reservation.Made (m after : Machine n) : Reservation → Prop
  | .object o header obj => (after.pools o).live = obj::(m.pools o).live ∧ obj ∉ (m.pools o).live ∧
    header ∈ (after.pools o).pages ∧ obj ∈ Pool.objects (mallocPool o) header
  | .page p => ∃ k, p = address k ∧ if m.smp then after.pages.users = k::m.pages.users ∧ k ∉ m.pages.users
    else after.pages.world.live = single k::m.pages.world.live
  | .range header pages => ∃ k, header = address k ∧
    after.pages.world.live = ⟨⟨k,pages⟩,false⟩::m.pages.world.live ∧ after.pages.world.st.size k = pages

structure Served (r : Reservation) (addr size alignment : Nat) : Prop where
  aligned : addr % alignment = 0
  inside : ∃ area, getMemArea addr = some area ∧ r.Holds (translateMemArea area .main addr) size
  freed : free addr = r.route

structure Sound (m : Machine n) : Prop where
  pages : PagePool.Inv m.pages
  pools : ∀ o, Pool.Inv (mallocPool o) (m.pools o)
  lent : ∀ o p, p ∈ (m.pools o).pages → ∃ k ∈ m.pages.users, p = address k
  owner : ∀ o q p, p ∈ (m.pools o).pages → p ∈ (m.pools q).pages → o = q

def Correct (m : Machine n) (size alignment : Nat) : Outcome n → Prop
  | .enomem => 2^63 ≤ size
  | .waits => True
  | .fault => False
  | .returned addr reserved after => ∃ r, reserved = some r ∧ r.Made m after ∧ Served r addr size alignment ∧ Sound after

def mainBase : Nat := 0xffff800000000000

lemma getMemAreaBaseEq (area : MemArea) : getMemAreaBase area = mainBase + area.index * 2^44 := by
  cases area <;> decide

lemma addressEq (k : Nat) : address k = mainBase + 4096*k := by
  have phys : physPage = 0xffff800000000 := rfl
  unfold address mainBase
  omega

structure InArea (area : MemArea) (a : Nat) : Prop where
  moved : translateMemArea .main area a = a + area.index * 2^44
  found : getMemArea (a + area.index * 2^44) = some area
  back : translateMemArea area .main (a + area.index * 2^44) = a

variable {a k j size obj pages : Nat} {m : Machine n} {t : PageRange.State} {w : PageRange.World} {c : Fin n}
  {o : Order}

lemma inArea (low : mainBase ≤ a) (high : a < mainBase + 2^44) (area : MemArea) : InArea area a := by
  have base : mainBase = 0xffff800000000000 := rfl
  have index : area.index < 4 := by cases area <;> decide
  refine ⟨?_,?_,?_⟩
  · unfold translateMemArea
    rw [getMemAreaBaseEq,getMemAreaBaseEq,MemArea.index]
    omega
  · have digit : (a + area.index * 2^44) / 2^44 % 8 = area.index := by omega
    unfold getMemArea
    rw [digit]
    cases area <;> rfl
  unfold translateMemArea
  rw [getMemAreaBaseEq,getMemAreaBaseEq,MemArea.index]
  omega

lemma Sound.userLt (h : Sound m) (mem : k ∈ m.pages.users) : k + 1 < 2^32 := by
  have places : 0 < PagePool.places m.pages k := by
    have count := count_pos_iff.mpr mem
    unfold PagePool.places
    omega
  have live := count_pos_iff.mp (lt_of_lt_of_le places (h.pages.owned k))
  have room := h.pages.world.held.roomLive (mem_append_right _ live)
  have small := h.pages.world.held.tags.small
  exact lt_of_le_of_lt room small

lemma servedPage (lt : k < 2^32) (path : PagePath size (2^j)) :
    Served (.page (address k)) (translateMemArea .main .page (address k)) size (2^j) := by
  have eq := addressEq k
  have base : mainBase = 4096 * physPage := rfl
  obtain ⟨moved,found,back⟩ := inArea (by omega) (by omega) .page (a := address k)
  have divides : 2^j ∣ 2^12 := Nat.pow_dvd_pow 2 ((Nat.pow_le_pow_iff_right (by decide)).mp path.2)
  rw [moved]
  refine ⟨?_,⟨.page,found,?_⟩,?_⟩
  · refine mod_eq_zero_of_dvd (dvd_trans divides ?_)
    unfold address
    rw [MemArea.index]
    exact ⟨physPage + k + 2^32,by omega⟩
  · rw [back]
    have le := path.1
    exact ⟨le_refl _,by omega⟩
  unfold free
  rw [if_neg (by rw [eq]; unfold mainBase; omega),found]
  dsimp only
  rw [back]
  rfl

lemma ilog2RoundupLe (le : a ≤ 2^(k+1)) : ilog2Roundup a ≤ k+1 := by
  unfold ilog2Roundup
  split
  · omega
  have lt : log2 (a-1) < k+1 := (log2_lt (by omega)).mpr (by omega)
  omega

lemma orderBounds (small : size ≤ maxObjectSize) (le : 2^j ≤ size) :
    j ≤ (order size).1 ∧ (order size).1 ≤ 10 ∧ size ≤ 2^(order size).1 := by
  have up := PageRange.lePowIlog2Roundup (max size minObjectSize)
  have one := le_max_left size minObjectSize
  have most : max size minObjectSize ≤ 2^(9+1) := Nat.max_le.mpr ⟨small,by decide⟩
  have fits : size ≤ 2^(order size).1 := le_trans one up
  exact ⟨(Nat.pow_le_pow_iff_right (by decide)).mp (Nat.le_trans le fits),ilog2RoundupLe most,fits⟩

lemma computeObjectSizeEq {pos : Nat} (le : pos ≤ 10) : computeObjectSize pos = 2^pos := by
  have small : 2^pos ≤ 2^10 := Nat.pow_le_pow_right (by decide) le
  unfold computeObjectSize maxObjectSize
  rw [if_neg (by omega)]

lemma servedObject (lt : k < 2^32) (small : size ≤ maxObjectSize) (le : 2^j ≤ size)
    (mem : obj ∈ Pool.objects (mallocPool (order size)) (address k)) :
    Served (.object (order size) (Pool.toHeader obj) obj) (translateMemArea .main .mempool obj) size (2^j) := by
  obtain ⟨up,low,fits⟩ := orderBounds small le
  have eq := addressEq k
  have base : mainBase = 4096 * physPage := rfl
  have header := Pool.objectHeader (by unfold address Pool.pageSize; omega) mem
  obtain ⟨i,inside,rfl⟩ := mem_map.mp mem
  obtain ⟨above,below⟩ := Pool.objectBounds (address k) (mem_range.mp inside)
  have sized : (mallocPool (order size)).size = 2^(order size).1 := computeObjectSizeEq low
  rw [sized] at below
  have pos := Nat.two_pow_pos (order size).1
  generalize object : Pool.object (mallocPool (order size)) (address k) i = obj at *
  unfold Pool.headerSize Pool.pageSize at *
  obtain ⟨moved,found,back⟩ := inArea (by omega) (by omega) .mempool (a := obj)
  rw [moved]
  refine ⟨?_,⟨.mempool,found,?_⟩,?_⟩
  · have divides := pow_dvd_pow 2 up
    have page : 2^(order size).1 ∣ 2^12 := pow_dvd_pow 2 (by omega)
    have start : 2^(order size).1 ∣ obj := by
      rw [← object,Pool.object,sized]
      refine Nat.dvd_sub (Nat.dvd_add ?_ page) (Nat.dvd_mul_left _ _)
      exact dvd_trans page (dvd_mul_right _ _)
    have area : 2^(order size).1 ∣ MemArea.mempool.index * 2^44 :=
      dvd_trans page (by decide)
    exact Nat.mod_eq_zero_of_dvd (Nat.dvd_trans divides (Nat.dvd_add start area))
  · rw [back,header]
    unfold Reservation.Holds Pool.headerSize
    omega
  unfold free
  rw [if_neg (by omega),found]
  dsimp only
  rw [back]
  rfl

lemma headerOffsetBounds (hj : j < 64) : sizeofPageRange ≤ headerOffset (2^j) ∧ headerOffset (2^j) ≤ 4096 ∧
    (2^j < 4096 → headerOffset (2^j) % 2^j = 0) ∧ (4096 ≤ 2^j → headerOffset (2^j) = 4096) := by
  unfold headerOffset
  split
  next low =>
    have half : 2^j ≤ 2^11 := by
      have exponent : j < 12 := (Nat.pow_lt_pow_iff_right (by decide : 1 < 2)).mp low
      exact Nat.pow_le_pow_right (by decide) (by omega)
    have header : sizeofPageRange = 56 := rfl
    obtain ⟨up,down,multiple⟩ := @alignUpBounds sizeofPageRange j hj (by omega)
    exact ⟨up,by omega,fun _ => multiple,fun high => by omega⟩
  · exact ⟨by decide,le_refl _,fun low => by omega,fun _ => rfl⟩

structure Sized (size offset pages : Nat) : Prop where
  positive : 0 < pages
  covers : size + offset ≤ 4096 * pages
  small : pages ≤ physPage

lemma sizedLarge {offset : Nat} (lt : size < 2^63) (pos : 0 < offset) (le : offset ≤ 4096) :
    Sized size offset (alignUp (size + offset) 4096 / 4096) ∧
      alignUp (size + offset) 4096 = alignUp (size + offset) 4096 / 4096 * 4096 := by
  have phys : physPage = 0xffff800000000 := rfl
  obtain ⟨up,down,multiple⟩ := @alignUpBounds (size + offset) 12 (by decide) (by omega)
  have page : 2^12 = 4096 := rfl
  rw [page] at up down multiple
  exact ⟨⟨by omega,by omega,by omega⟩,by omega⟩

lemma rangeTaken (inv : PageRange.Inv w)
    (pos : 0 < pages) (small : pages ≤ physPage) (ok : allocRange w.st pages (2^j) = some (t,k)) :
    PageRange.Inv { w with st := t, live := ⟨⟨k,pages⟩,false⟩::w.live } ∧ PageRange.Book w.st t ∧ t.size k = pages ∧
      (4096 < 2^j → (physPage + k + 1) % (2^j/4096) = 0) := by
  unfold allocRange at ok
  split at ok
  · obtain ⟨held,book,sized,aligned⟩ := inv.held.allocAligned pos (le_refl 1) small ok
    exact ⟨inv.given held book,book,sized,fun _ => aligned⟩
  rename_i low
  obtain ⟨held,book,sized⟩ := inv.held.alloc pos ok
  exact ⟨inv.given held book,book,sized,fun high => absurd high low⟩

lemma servedRange (hj : j < 64) (room : k + pages < 2^32) (sized : Sized size (headerOffset (2^j)) pages)
    (aligned : 4096 < 2^j → (physPage + k + 1) % (2^j/4096) = 0) :
    Served (.range (address k) pages) (address k + headerOffset (2^j)) size (2^j) := by
  obtain ⟨least,most,low,high⟩ := headerOffsetBounds hj
  generalize headerOffset (2^j) = offset at *
  have eq := addressEq k
  have base : mainBase = 4096 * physPage := rfl
  have header : sizeofPageRange = 56 := rfl
  have pos := sized.positive
  have big : mainBase = 0xffff800000000000 := rfl
  obtain ⟨moved,found,back⟩ := inArea (by omega) (by omega) .main (a := address k + offset)
  rw [MemArea.index,zero_mul,add_zero] at moved found
  refine ⟨?_,⟨.main,found,?_⟩,?_⟩
  · rcases lt_or_ge (2^j) 4096 with small | large
    · have exponent : j ≤ 12 := Nat.le_of_lt ((Nat.pow_lt_pow_iff_right (by decide : 1 < 2)).mp small)
      have page : 2^j ∣ address k := dvd_trans (pow_dvd_pow 2 exponent) (dvd_mul_right _ _)
      exact Nat.mod_eq_zero_of_dvd (Nat.dvd_add page (Nat.dvd_of_mod_eq_zero (low small)))
    · have exponent : 12 ≤ j := (Nat.pow_le_pow_iff_right (by decide : 1 < 2)).mp large
      have split : 2^j = 4096 * 2^(j-12) := by
        rw [show (4096 : Nat) = 2^12 from rfl,← Nat.pow_add,Nat.add_sub_cancel' exponent]
      have whole : address k + offset = 4096 * (physPage + k + 1) := by
        rw [high large]
        unfold address
        omega
      rw [whole,split]
      refine mod_eq_zero_of_dvd (mul_dvd_mul_left _ ?_)
      rcases eq_or_lt_of_le large with same | more
      · have one : 2^(j-12) = 1 := by omega
        rw [one]
        exact one_dvd _
      have units := aligned more
      rw [split,Nat.mul_div_cancel_left _ (by decide)] at units
      exact dvd_of_mod_eq_zero units
  · rw [moved]
    have covers := sized.covers
    exact ⟨by omega,by omega⟩
  unfold free
  rw [if_neg (by omega),found]
  have down := @alignDownEq (address k + offset - 1) 12 (by decide) (by omega)
  have page : 2^12 = 4096 := rfl
  rw [page] at down
  have mod : (address k + offset - 1) % 4096 = offset - 1 := by
    unfold address
    omega
  dsimp only
  rw [down,mod]
  have start : address k + offset - 1 - (offset - 1) = address k := by omega
  rw [start]
  rfl

lemma pagesTaken {s : PagePool.State n} (h : PagePool.Inv s)
    (inv : PageRange.Inv { s.world with st := t, live := ⟨⟨k,pages⟩,false⟩::s.world.live })
    (book : PageRange.Book s.world.st t) :
    PagePool.Inv { s with world := { s.world with st := t, live := ⟨⟨k,pages⟩,false⟩::s.world.live }
                          freeMemory := onAlloc s.freeMemory (pages*4096) } := by
  have less := PagePool.freeTotal (c := ⟨k,pages⟩) h.world inv book rfl (fun q => by
    rw [PageRange.blocksOfCons,coverCons,add_comm])
  refine ⟨inv,?_,fun q => ?_,h.buffers,h.stored,h.flights⟩
  · have memory := h.memory
    dsimp only at less ⊢
    rw [onAlloc,memory,if_pos (by omega)]
    omega
  refine le_trans (h.owned q) ?_
  exact List.Sublist.count_le _ (sublist_cons_self _ _)

lemma addressInj (same : address j = address k) : j = k := by
  unfold address at same
  omega

lemma Sound.pageLocal {rest : List (Option Nat)} (h : Sound m)
    (top : m.pages.buffer c = some k::rest) :
    k ∉ m.pages.users ∧ Sound { m with pages := { m.pages with
      buffer := update m.pages.buffer c rest, users := k::m.pages.users } } := by
  refine ⟨fun mem => ?_,h.pages.allocPageLocal top,h.pools,fun o p there => ?_,h.owner⟩
  · have once := h.pages.once k
    have users := count_pos_iff.mpr mem
    have here := PagePool.inBuffersLe m.pages.buffer c k
    rw [top,count_cons_self] at here
    unfold PagePool.places at once
    omega
  obtain ⟨j,user,eq⟩ := h.lent o p there
  exact ⟨j,.tail _ user,eq⟩

lemma poolsUpdate {P : Order → Pool.World → Prop} {pools : Order → Pool.World} {w : Pool.World}
    (new : P o w) (old : ∀ q, P q (pools q)) (q : Order) : P q (update pools o w q) := by
  rcases eq_or_ne q o with rfl | other
  · rwa [update_self]
  rw [update_of_ne other]
  exact old q

lemma Sound.addPage (h : Sound m) (o : Order) (user : k ∈ m.pages.users)
    (fresh : ∀ q, address k ∉ (m.pools q).pages) : Sound (addPage m o k) := by
  have aligned : address k % Pool.pageSize = 0 := by
    unfold address Pool.pageSize
    omega
  have pages : ∀ q p, p ∈ ((Malloc.addPage m o k).pools q).pages → p ∈ (m.pools q).pages ∨ (q = o ∧ p = address k) := by
    unfold Malloc.addPage
    refine fun q p => poolsUpdate (P := fun q w => p ∈ w.pages → p ∈ (m.pools q).pages ∨ (q = o ∧ p = address k))
      (fun mem => ?_) (fun q mem => .inl mem) q
    exact (mem_cons.mp mem).elim (fun eq => .inr ⟨rfl,eq⟩) .inl
  refine ⟨h.pages,poolsUpdate ((h.pools o).addPage aligned (fresh o)) h.pools,fun q p mem => ?_,fun q r p one two => ?_⟩
  · rcases pages q p mem with old | ⟨_,rfl⟩
    · exact h.lent q p old
    · exact ⟨k,user,rfl⟩
  rcases pages q p one with old | ⟨rfl,rfl⟩
  · rcases pages r p two with also | ⟨_,rfl⟩
    · exact h.owner q r p old also
    · exact absurd old (fresh q)
  rcases pages r _ two with also | ⟨rfl,_⟩
  · exact absurd also (fresh r)
  rfl

lemma Sound.takeObject {s : Pool.State} (h : Sound m)
    (got : Pool.alloc (m.pools o).st = some (s,obj)) :
    Sound { m with pools := update m.pools o { m.pools o with st := s, live := obj::(m.pools o).live } } := by
  have pages : ∀ q p, p ∈ (update m.pools o { m.pools o with st := s, live := obj::(m.pools o).live } q).pages →
    p ∈ (m.pools q).pages := fun q p =>
    poolsUpdate (P := fun q w => p ∈ w.pages → p ∈ (m.pools q).pages)
      (w := { m.pools o with st := s, live := obj::(m.pools o).live }) (fun mem => mem) (fun q mem => mem) q
  exact ⟨h.pages,poolsUpdate ((h.pools o).alloc got).1 h.pools,fun q p mem => h.lent q p (pages q p mem),
    fun q r p one two => h.owner q r p (pages q p one) (pages r p two)⟩

lemma correctObject {before : Machine n} (h : Sound m)
    (live : (m.pools (order size)).live = (before.pools (order size)).live)
    (nonempty : (m.pools (order size)).st.free ≠ []) (small : size ≤ maxObjectSize) (le : 2^j ≤ size) :
    Correct before size (2^j) (allocObject m (order size)) := by
  obtain ⟨s,obj,got⟩ := (h.pools (order size)).allocSome nonempty
  obtain ⟨inv,unused⟩ := (h.pools (order size)).alloc got
  obtain ⟨page,member⟩ := inv.liveObject (.head _)
  obtain ⟨k,user,eq⟩ := h.lent _ _ page
  unfold allocObject
  rw [got]
  refine ⟨_,rfl,?_,servedObject (lt_of_succ_lt (h.userLt user)) small le (eq ▸ member),h.takeObject got⟩
  refine ⟨?_,live ▸ unused,?_,member⟩
  · dsimp only
    rw [update_self,live]
  dsimp only
  rw [update_self]
  exact page

lemma correctMempool (h : Sound m) (path : PoolPath m size (2^j)) :
    Correct m size (2^j) (mallocMempool m c (order size)) := by
  obtain ⟨small,le,smp⟩ := path
  unfold mallocMempool
  split
  swap
  next nonempty => exact correctObject h rfl nonempty small le
  unfold allocPage
  rw [if_pos smp]
  split
  · trivial
  next nothing =>
    split at nothing
    · cases nothing
    cases nothing
  rename_i k after taken
  split at taken
  swap
  · cases taken
  rename_i rest top
  cases taken
  obtain ⟨unused,sound⟩ := h.pageLocal top
  have fresh : ∀ q, address k ∉ (m.pools q).pages := by
    intro q mem
    obtain ⟨i,user,eq⟩ := h.lent q _ mem
    exact unused (addressInj eq ▸ user)
  refine correctObject (sound.addPage (order size) (.head _) fresh) ?_ ?_ small le
  · dsimp only [addPage]
    rw [update_self]
  dsimp only [addPage]
  rw [update_self]
  exact Pool.addPageFree _ _ _

lemma Sound.rangeAlloc (h : Sound m)
    (inv : PageRange.Inv { m.pages.world with st := t, live := ⟨⟨k,pages⟩,false⟩::m.pages.world.live })
    (book : PageRange.Book m.pages.world.st t) :
    Sound { m with pages := { m.pages with
      world := { m.pages.world with st := t, live := ⟨⟨k,pages⟩,false⟩::m.pages.world.live }
      freeMemory := onAlloc m.pages.freeMemory (pages*4096) } } :=
  ⟨pagesTaken h.pages inv book,h.pools,h.lent,h.owner⟩

lemma liveRoom {b : PageRange.Live} (h : PageRange.Inv w) (mem : b ∈ w.live) :
    b.block.start + b.block.len < 2^32 := by
  have room := h.held.roomLive (mem_append_right _ mem)
  have small := h.held.tags.small
  exact lt_of_le_of_lt room small

lemma correctEarly (h : Sound m) (early : m.smp = false) (path : PagePath size (2^j)) : Correct m size (2^j) (.returned
        (translateMemArea .main .page (pointer (earlyAllocPage m.pages).1))
        ((earlyAllocPage m.pages).1.map (fun p => .page (address p))) { m with pages := (earlyAllocPage m.pages).2 }) ↔
      headers m.pages.world.st ≠ [] := by
  dsimp only [earlyAllocPage]
  rcases got : alloc true m.pages.world.st 1 with _ | r
  · dsimp only
    refine iff_of_false (fun ⟨r,nothing,_⟩ => absurd nothing (by simp)) (fun nonempty => ?_)
    obtain ⟨b,mem⟩ := exists_mem_of_ne_nil _ nonempty
    obtain ⟨c,a,chosen⟩ := h.pages.world.held.shape.chooseOne mem
    unfold alloc at got
    rw [chosen] at got
    cases got
  obtain ⟨t,k⟩ := r
  obtain ⟨held,book,_⟩ := h.pages.world.held.alloc one_pos got
  have inv := h.pages.world.given held book
  have room : k + 1 < 2^32 := liveRoom inv (b := single k) (.head _)
  obtain ⟨c,chosen,_⟩ := PageRange.allocEq got
  have mem := (h.pages.world.held.shape.choose chosen).1
  refine ⟨fun _ => ne_nil_of_mem mem,fun _ => ⟨_,rfl,⟨k,rfl,?_⟩,servedPage (by omega) path,?_⟩⟩
  · rw [early]
    rfl
  · exact h.rangeAlloc inv book

lemma correctPage (h : Sound m) (path : PagePath size (2^j)) :
    Correct m size (2^j) (mallocPage m c) ↔ (m.smp = false → headers m.pages.world.st ≠ []) := by
  unfold mallocPage allocPage
  rcases Bool.eq_false_or_eq_true m.smp with mode | mode
  swap
  · rw [if_neg (by simp [mode]),correctEarly h mode path]
    exact ⟨fun nonempty _ => nonempty,fun ok => ok mode⟩
  rw [if_pos mode]
  refine iff_of_true ?_ (fun early => by simp [mode] at early)
  split
  · trivial
  rename_i page after taken
  split at taken
  next k rest top =>
    cases taken
    obtain ⟨unused,sound⟩ := h.pageLocal top
    have room := sound.userLt (k := k) (.head _)
    refine ⟨_,rfl,⟨k,rfl,?_⟩,servedPage (by omega) path,sound⟩
    rw [if_pos mode]
    exact ⟨rfl,unused⟩
  · cases taken

lemma correctLarge (h : Sound m) (hj : j < 64) (lt : size < 2^63) : Correct m size (2^j) (mallocLarge m size (2^j)) := by
  obtain ⟨least,most,_⟩ := headerOffsetBounds hj
  have header : sizeofPageRange = 56 := rfl
  obtain ⟨sized,whole⟩ := sizedLarge lt (by omega) most
  dsimp only [mallocLarge]
  split
  · trivial
  rename_i t k got
  obtain ⟨inv,book,size,aligned⟩ := rangeTaken h.pages.world sized.positive sized.small got
  have sound := h.rangeAlloc inv book
  rw [← whole] at sound
  have room := liveRoom inv (.head _)
  exact ⟨_,rfl,⟨k,rfl,rfl,size⟩,servedRange hj room sized aligned,sound⟩

theorem stdMallocServes {m : Machine n} (h : Sound m) (c : Fin n) (size : Nat) {j : Nat} (hj : j < 64) :
    Correct m size (2^j) (stdMalloc m c size (2^j)) ↔
      (m.smp = false → PagePath size (2^j) → headers m.pages.world.st ≠ []) := by
  unfold stdMalloc
  split
  next negative => exact ⟨fun _ _ path => by have := path.1; omega,fun _ => negative⟩
  rename_i positive
  split
  next path => exact ⟨fun _ early => by simp [path.2.2] at early,fun _ => correctMempool h path⟩
  split
  next path =>
    rw [correctPage h path]
    exact ⟨fun ok early _ => ok early,fun ok early => ok early path⟩
  next large => exact ⟨fun _ _ path => absurd path large,fun _ => correctLarge h hj (by omega)⟩

def early (w : PageRange.World) : Machine 1 := ⟨false,PagePool.boot w,fun _ => Pool.fresh⟩

lemma soundEarly
    (reach : Runs.Reach exec (fun w op => Legal w op ∧ Quiet w op) PageRange.Started w) :
    Sound (early w) := by
  refine ⟨PagePool.startInv (PagePool.bootStarted reach),fun o => Pool.startInv ⟨rfl,rfl,rfl,rfl⟩,fun o p mem => ?_,
    fun o q p one _ => ?_⟩
  · cases mem
  cases one

set_option maxRecDepth 20000

theorem stdMallocServesAmple : Correct (early PagePool.ample) 100 8 (stdMalloc (early PagePool.ample) 0 100 8) := by
  exact (stdMallocServes (soundEarly PageRange.addLowReach) 0 100 (j := 3) (by decide)).mpr (fun _ _ => by decide)

-- Two pages: the bitmap has taken one and an earlier request the other.
def addPair : PageRange.Op := .initialAdd 1 2 1 (fun _ => false)
def exhausted : PageRange.World :=
  Runs.after exec (Runs.after exec blank addPair) (.alloc 1)

theorem stdMallocNoPage : Sound (early exhausted) ∧
    (∃ after, stdMalloc (early exhausted) 0 100 8 = .returned (2^44) none after) ∧
    ¬ Correct (early exhausted) 100 8 (stdMalloc (early exhausted) 0 100 8) := by
  have legal : Legal blank addPair := ⟨by decide,by decide,fun _ _ => rfl,by decide⟩
  have quiet : Quiet blank addPair :=
    ⟨by decide,fun _ => rfl,nofun⟩
  have added : Runs.Reach exec (fun w op => Legal w op ∧ Quiet w op)
    PageRange.Started (Runs.after exec blank addPair) :=
    .next (.init ⟨_,_,rfl⟩) ⟨legal,quiet⟩ (Runs.afterTaken (by decide))
  have nothing : alloc true exhausted.st 1 = none :=
    Option.isNone_iff_eq_none.mp (by decide)
  have garbage : ∃ after, stdMalloc (early exhausted) 0 100 8 = .returned (2^44) none after := by
    refine ⟨{ early exhausted with pages := (earlyAllocPage (early exhausted).pages).2 },?_⟩
    have path : stdMalloc (early exhausted) 0 100 8 = mallocPage (early exhausted) 0 := by
      rw [stdMalloc,if_neg (by decide),if_neg (by decide),if_pos (by decide)]
    have null : (earlyAllocPage (early exhausted).pages).1 = none := by
      unfold earlyAllocPage
      dsimp only [early,PagePool.boot]
      rw [nothing]
    have translated : translateMemArea .main .page 0 = 2^44 := rfl
    rw [path,mallocPage,allocPage,if_neg (by decide)]
    dsimp only
    rw [null,pointer,translated]
    rfl
  refine ⟨soundEarly (.next (o := .alloc 1) added ⟨one_pos,trivial⟩ (Runs.afterTaken rfl)),garbage,fun ok => ?_⟩
  obtain ⟨after,eq⟩ := garbage
  rw [eq] at ok
  obtain ⟨r,reserved,_⟩ := ok
  cases reserved

end OsvKernel.Malloc
