import OsvKernel.VmaRange
import OsvKernel.Runs

/-! The calls of libc/mman.cc over the vma list. A call that aborts, or whose
behaviour the source leaves undefined, has no next world. -/
namespace OsvKernel.Mmap
open VmaList Runs Nat Words

def mapShared : BitVec 32 := 0x01
def mapPrivate : BitVec 32 := 0x02
def mapFixed : BitVec 32 := 0x10
def mapAnonymous : BitVec 32 := 0x20
def mapPopulate : BitVec 32 := 0x8000
def mapStack : BitVec 32 := 0x20000
def mapUninitialized : BitVec 32 := 0x4000000
def protRead : BitVec 32 := 1
def protWrite : BitVec 32 := 2
def protExec : BitVec 32 := 4
def madvDontneed : Nat := 4
def madvNohugepage : Nat := 15
def translate (flags flag value : BitVec 32) : BitVec 32 := if hasFlags flags flag then value else 0

def libcFlagsToMmap (flags : BitVec 32) : BitVec 32 :=
  translate flags mapFixed mmapFixed ||| translate flags mapPopulate mmapPopulate |||
    translate flags mapStack mmapPopulate ||| translate flags mapShared mmapShared |||
    translate flags mapUninitialized mmapUninitialized

def libcProtToPerm (prot : BitVec 32) : BitVec 32 :=
  translate prot protRead permRead ||| translate prot protWrite permWrite ||| translate prot protExec permExec

inductive Advice where
  | dontneed
  | nohugepage

def libcMadviseToAdvise (advice : Nat) : Option Advice :=
  if advice = madvDontneed then some .dontneed
  else if advice = madvNohugepage then some .nohugepage
  else none

structure World where
  vmas : List Vma
  jvmHeapSize : Nat
  jvmHeapRegion : Nat
  jvmHeapRegionEnd : Nat

inductive Ret where
  | success
  | address (v : Nat)
  | error (e : Errno)
  deriving DecidableEq

def mmapValidate (addr length : Nat) (flags : BitVec 32) (offset : Nat) : Option Errno :=
  if hasFlags flags mapShared = hasFlags flags mapPrivate then some .einval
  else if (hasFlags flags mapFixed ∧ addr % 4096 ≠ 0) ∨ offset % 4096 ≠ 0 ∨ length = 0 then some .einval
  else none

def searchStart (start : Nat) : Nat := if start = 0 then 0x200000000000 else start

def place (l : List Vma) (v : Vma) (start size : Nat) : List Vma × Except Errno Nat :=
  (insertVma (v.set start ((start + size) % 2^64)) l,.ok start)

-- An exception leaves the list as it is at that point.
def allocate (l : List Vma) (v : Vma) (start size : Nat) (search : Bool) : Option (List Vma × Except Errno Nat) :=
  if search then
    match findHole l (searchStart start) size with
    | none => none
    | some (.error e) => some (l,.error e)
    | some (.ok start) => some (place l v start size)
  else
    match evacuate l start ((start + size) % 2^64) with
    | .abort => none
    | .failed e l => some (l,.error e)
    | .done l => some (place l v start size)

def mapAnon (l : List Vma) (addr size : Nat) (flags perm : BitVec 32) : Option (List Vma × Except Errno Nat) :=
  let size := alignUp size 4096
  allocate l (anonVma addr ((addr + size) % 2^64) perm flags) addr size (!hasFlags flags mmapFixed)

def mapFile (l : List Vma) (addr size : Nat) (flags perm : BitVec 32) (f : File) (offset : Nat) :
    Option (List Vma × Except Errno Nat) :=
  let size := alignUp size 4096
  match fileVma addr ((addr + size) % 2^64) perm (flags ||| mmapFile) f offset with
  | .error e => some (l,.error e)
  | .ok v => allocate l v addr size (!hasFlags flags mmapFixed)

def heapFlags (w : World) (addr length : Nat) (flags : BitVec 32) : BitVec 32 :=
  if w.jvmHeapSize ≠ 0 ∧ addr ≥ w.jvmHeapRegion ∧ (addr + length) % 2^64 ≤ w.jvmHeapRegionEnd ∧ hasFlags flags mmapFixed
  then flags ||| mmapJvmHeap else flags

def announceHeap (w : World) (addr length : Nat) (flags : BitVec 32) (v : Nat) : World :=
  if addr ≠ 0 ∧ w.jvmHeapSize ≠ 0 ∧ length ≥ w.jvmHeapSize ∧ ¬ hasFlags flags mmapFixed then
    { w with jvmHeapRegion := v, jvmHeapRegionEnd := (v + length) % 2^64 }
  else w

def finishMap (w : World) (announce : Nat → World → World) :
    Option (List Vma × Except Errno Nat) → Option (World × Ret)
  | none => none
  | some (l,.error e) => some ({ w with vmas := l },.error e)
  | some (l,.ok v) => some (announce v { w with vmas := l },.address v)

def mmap (w : World) (addr length : Nat) (prot flags : BitVec 32) (file : Option File) (offset : Nat) : Option (World × Ret) :=
  match mmapValidate addr length flags offset with
  | some e => some (w,.error e)
  | none =>
    if addr ≥ 2^63 then none
    else if hasFlags flags mapAnonymous then
      let mflags := heapFlags w addr length (libcFlagsToMmap flags)
      finishMap w (fun v w => announceHeap w addr length mflags v) (mapAnon w.vmas addr length mflags (libcProtToPerm prot))
    else
      match file with
      | none => some (w,.error .ebadf)
      | some f => finishMap w (fun _ w => w)
        (mapFile w.vmas addr length (libcFlagsToMmap flags) (libcProtToPerm prot) f offset)

def finish (w : World) : Result → Option (World × Ret)
  | .done l => some ({ w with vmas := l },.success)
  | .failed e l => some ({ w with vmas := l },.error e)
  | .abort => none

def unmap (l : List Vma) (addr size : Nat) : Result := evacuate l addr ((addr + alignUp size 4096) % 2^64)

def munmap (w : World) (addr length : Nat) : Option (World × Ret) :=
  if addr % 4096 ≠ 0 ∨ length = 0 then some (w,.error .einval)
  else
    let length := alignUp length 4096
    match ismapped w.vmas addr length with
    | none => none
    | some false => some (w,.error .einval)
    | some true => finish w (unmap w.vmas addr length)

def mprotect (w : World) (addr len : Nat) (prot : BitVec 32) : Option (World × Ret) :=
  if addr ≥ 2^63 then none
  else if addr % 4096 ≠ 0 ∨ len % 4096 ≠ 0 then some (w,.error .einval)
  else
    match ismapped w.vmas addr len with
    | none => none
    | some false => some (w,.error .enomem)
    | some true => finish w (protect w.vmas addr len (libcProtToPerm prot))

def madvise (w : World) (addr length advice : Nat) : Option (World × Ret) :=
  match ismapped w.vmas addr length with
  | none => none
  | some false => some (w,.error .enomem)
  | some true =>
    match libcMadviseToAdvise advice with
    | some .dontneed => some (w,.success)
    | some .nohugepage => finish w (nohugepage w.vmas addr length)
    | none => some (w,.error .einval)

inductive Op where
  | mmap (addr length : Nat) (prot flags : BitVec 32) (file : Option File) (offset : Nat)
  | munmap (addr length : Nat)
  | mprotect (addr len : Nat) (prot : BitVec 32)
  | madvise (addr length advice : Nat)

def call (w : World) : Op → Option (World × Ret)
  | .mmap addr length prot flags file offset => mmap w addr length prot flags file offset
  | .munmap addr length => munmap w addr length
  | .mprotect addr len prot => mprotect w addr len prot
  | .madvise addr length advice => madvise w addr length advice

def exec (w : World) (op : Op) : Option World := (call w op).map Prod.fst

/-- Arguments are 64-bit words, and mmap and mprotect refuse the linear map. -/
def Legal (_ : World) : Op → Prop
  | .mmap addr length _ _ _ _ => addr < 2^63 ∧ length < 2^64
  | .munmap addr length => addr < 2^64 ∧ length < 2^64
  | .mprotect addr len _ => addr < 2^63 ∧ len < 2^64
  | .madvise addr length _ => addr < 2^64 ∧ length < 2^64

def Searchable (start stop : Nat) : Prop := stop ≤ start ∨ start ≤ sentinelEnd

def Fits (_ : World) : Op → Prop
  | .mmap addr length _ flags _ _ => length ≤ 2^64 - 4096 ∧
    if hasFlags flags mapFixed then 0 < addr ∧ addr + alignUp length 4096 ≤ sentinelEnd
    else addr % 4096 = 0 ∧ searchStart addr + alignUp length 4096 < 2^64
  | .munmap addr length => Searchable addr ((addr + alignUp length 4096) % 2^64)
  | .mprotect addr len _ => Searchable addr ((addr + len) % 2^64)
  | .madvise addr length _ => Searchable addr ((addr + length) % 2^64)

def Started (w : World) : Prop := w.vmas = [lowSentinel,highSentinel]

variable {n p v : Vma} {l M : List Vma} {size start stop length offset addr : Nat} {flags : BitVec 32} {w : World} {prot : BitVec 32}

lemma insertAppend {P Q : List Vma} (before : ∀ v ∈ P, v.start < n.start) (after : ∀ v ∈ Q, n.start < v.start) :
    insertVma n (P ++ Q) = P ++ n::Q := by
  induction P with
  | nil => exact insertFront after
  | cons a P ih => ?_
  have less := before a List.mem_cons_self
  rw [List.cons_append,insertVma,if_neg (by omega),if_neg (by omega),
    ih (fun v mem => before v (List.mem_cons_of_mem _ mem))]
  rfl

def Gap (l : List Vma) (start stop : Nat) : Prop := ∀ v ∈ l, v.stop ≤ start ∨ stop ≤ v.start

lemma insertGap (h : Plain l) (fit : Fit n) (lt : n.start < n.stop) (solid : n.kind ≠ .balloon)
    (low : 0 < n.start) (gap : Gap l n.start n.stop) : Plain (insertVma n l) ∧ n ∈ insertVma n l := by
  obtain ⟨P,Q,rfl,below,above⟩ := cutAt h.inv.ordered n.start
  have after : ∀ v ∈ Q, n.stop ≤ v.start := by
    intro v mem
    have start := above v mem
    have fits := h.inv.fit v (List.mem_append_right _ mem)
    have order := fits.le
    have top := fit.top
    rcases gap v (List.mem_append_right _ mem) with short | far
    · rcases fits.nonempty (by omega) with zero | high
      · omega
      omega
    · exact far
  have before : ∀ v ∈ P, v.stop ≤ n.start := by
    intro v mem
    have start := below v mem
    rcases gap v (List.mem_append_left _ mem) with short | far
    · exact short
    · omega
  rw [insertAppend below (fun v mem => lt_of_lt_of_le lt (after v mem))]
  obtain ⟨front,back,across⟩ := List.pairwise_append.mp h.inv.ordered
  have member : ∀ {v}, v ∈ P ++ n::Q ↔ v = n ∨ v ∈ P ++ Q := List.perm_middle.mem_iff.trans List.mem_cons
  refine ⟨⟨⟨?_,fun v mem => ?_,?_,?_⟩,fun v mem => ?_⟩,List.mem_append_right _ List.mem_cons_self⟩
  · refine List.pairwise_append.mpr ⟨front,List.pairwise_cons.mpr ⟨fun q mem => ?_,back⟩,fun p mine q yours => ?_⟩
    · exact ⟨lt_of_lt_of_le lt (after q mem),after q mem⟩
    · rcases List.mem_cons.mp yours with rfl | old
      · exact ⟨below p mine,before p mine⟩
      · exact across p mine q old
  · exact (member.mp mem).elim (fun same => same ▸ fit) (h.inv.fit v)
  · obtain ⟨v,mem,ends⟩ := h.inv.low
    exact ⟨v,member.mpr (.inr mem),ends⟩
  · obtain ⟨v,mem,ends⟩ := h.inv.high
    exact ⟨v,member.mpr (.inr mem),ends⟩
  · exact (member.mp mem).elim (fun same => same ▸ solid) (h.solid v)

def Room (l : List Vma) (start size : Nat) : Prop :=
  ∃ A p n B, l = A ++ p::n::B ∧ p.stop ≤ start ∧ start + size ≤ n.start

structure Hole (l : List Vma) (start size : Nat) : Prop where
  page : start % 4096 = 0
  low : 0 < start
  room : Room l start size

lemma hugeUp {a n size : Nat} (le : a + size ≤ n) (big : hugePageSize ≤ size) (small : n ≤ sentinelEnd) (low : 0 < a) :
    a ≤ alignUp a hugePageSize ∧ alignUp a hugePageSize ≤ n ∧ alignUp a hugePageSize % 4096 = 0 := by
  have huge : hugePageSize = 2^21 := rfl
  have top : sentinelEnd = 0x800000000000 := rfl
  obtain ⟨up,down,multiple⟩ := @alignUpBounds a 21 (by decide) (by omega)
  rw [← huge] at up down multiple
  rw [show hugePageSize = 2097152 from rfl] at *
  omega

lemma roomFrom {C rest : List Vma} {good v : Nat} (h : Inv l) (shape : l = C ++ p::rest) (wrap : start + size < 2^64)
    (kept : good ≠ 0 → Room l good size ∧ good % 4096 = 0 ∧ start ≤ good)
    (ok : findHoleFrom start size good p rest = .ok v) : Room l v size ∧ (v = start ∨ v % 4096 = 0 ∧ start ≤ v) := by
  induction rest generalizing C p good with
  | nil =>
    unfold findHoleFrom at ok
    split at ok
    next some =>
      cases ok
      exact ⟨(kept some).1,.inr (kept some).2⟩
    · cases ok
  | cons n rest ih => ?_
  have fitP := h.fit p (by simp [shape])
  have fitN := h.fit n (by simp [shape])
  have order : p.stop ≤ n.start := by
    have all := h.ordered
    rw [shape] at all
    exact ((List.pairwise_cons.mp (List.pairwise_append.mp all).2.1).1 n List.mem_cons_self).2
  have top := le_trans fitN.le fitN.top
  have next : l = (C ++ [p]) ++ n::rest := by simpa using shape
  rw [findHoleFrom,mod_eq_of_lt wrap] at ok
  split at ok
  next here =>
    cases ok
    exact ⟨⟨C,p,n,rest,shape,here.1,here.2⟩,.inl rfl⟩
  split at ok
  next wide =>
    unfold sub64 at wide
    rw [if_pos order] at wide
    have found : Room l p.stop size := ⟨C,p,n,rest,shape,le_refl _,by omega⟩
    split at ok
    · cases ok
      exact ⟨found,.inr ⟨fitP.stopPage,wide.1⟩⟩
    rename_i big
    obtain ⟨up,inside,aligned⟩ := @hugeUp p.stop n.start size (by omega) (by omega) top (by omega)
    split at ok
    next fits =>
      cases ok
      unfold sub64 at fits
      rw [if_pos inside] at fits
      exact ⟨⟨C,p,n,rest,shape,up,by omega⟩,.inr ⟨aligned,by omega⟩⟩
    · exact ih next (fun _ => ⟨found,fitP.stopPage,wide.1⟩) ok
  · exact ih next kept ok

lemma Room.gap (room : Room l start size) (h : Inv l) : Gap l start (start + size) ∧ start + size ≤ sentinelEnd := by
  obtain ⟨A,p,n,B,rfl,left,right⟩ := room
  obtain ⟨_,tail,across⟩ := List.pairwise_append.mp h.ordered
  obtain ⟨first,rest⟩ := List.pairwise_cons.mp tail
  have fitP := h.fit p (by simp)
  have fitN := h.fit n (by simp)
  have lower := fitP.le
  refine ⟨fun v mem => ?_,le_trans right (le_trans fitN.le fitN.top)⟩
  rcases List.mem_append.mp mem with before | here
  · have order := (across v before p List.mem_cons_self).2
    exact .inl (by omega)
  rcases List.mem_cons.mp here with rfl | after
  · exact .inl left
  rcases List.mem_cons.mp after with rfl | beyond
  · exact .inr right
  have order := ((List.pairwise_cons.mp rest).1 v beyond).1
  exact .inr (by omega)

lemma evacuatedGap (lt : start < stop) (fit : Fit v) (one : start % 4096 = 0)
    (two : stop % 4096 = 0) (mem : p ∈ treated start stop (fun _ => false) (fun _ => none) v) :
    p.stop ≤ start ∨ stop ≤ p.start := by
  rw [treatedParts rfl] at mem
  obtain ⟨q,part,left⟩ := List.mem_flatMap.mp mem
  obtain ⟨outer,inner⟩ := partsUncut (le_of_lt lt) part
  have order := ((fit.parts one two).fit q part).le
  unfold VmaList.finish at left
  split at left
  · cases left
  rename_i out
  rw [List.mem_singleton.mp left]
  unfold Inside at outer inner
  unfold contains at out
  omega

lemma evacuatePlain {l : List Vma} {start stop : Nat} (h : Plain l) (b : Between start stop) (lt : start < stop) :
    ∃ l', evacuate l start stop = .done l' ∧ Plain l' ∧ Gap l' start stop := by
  obtain ⟨A,M,B,f,done,_⟩ := evacuateSpec h.inv b.low lt b.high b.startPage b.stopPage (fun v mem _ _ => h.solid v mem)
  have whole := h
  rw [f.list] at whole
  have spread := f.spread h.inv b.low b.high
  refine ⟨_,done,whole.replace (fun v mem => evacuateReplaces (f.fit h.inv v mem) b.startPage b.stopPage)
    (fun v mem empty => absurd empty (spread v mem)),fun p mem => ?_⟩
  rcases List.mem_append.mp mem with before | rest
  · exact .inl (f.below p before).2
  rcases List.mem_append.mp rest with new | after
  · obtain ⟨v,inside,part⟩ := List.mem_flatMap.mp new
    exact evacuatedGap lt (f.fit h.inv v inside) b.startPage b.stopPage part
  · exact .inr (f.above p after)

structure Proper (v : Vma) : Prop where
  perm : v.validatePerm v.perm = none
  small : ∀ f o, v.kind = .file f o → v.flags ||| mmapSmall = v.flags
  solid : v.kind ≠ .balloon

lemma placeGap (h : Plain l) (proper : Proper v) (page : start % 4096 = 0)
    (sized : size % 4096 = 0) (pos : 0 < size) (low : 0 < start) (high : start + size ≤ sentinelEnd)
    (gap : Gap l start (start + size)) :
    ∃ l', place l v start size = (l',.ok start) ∧ Plain l' ∧ { v with start := start, stop := start + size } ∈ l' := by
  have top : sentinelEnd = 0x800000000000 := rfl
  have built : v.set start ((start + size) % 2^64) = { v with start := start, stop := start + size } := by
    unfold Vma.set
    rw [mod_eq_of_lt (by omega),alignDownPage page (by omega),alignUpPage (by omega) (by omega)]
  have fit : Fit { v with start := start, stop := start + size } :=
    ⟨page,by dsimp only; omega,le_add_right _ _,high,fun same => by dsimp only at same; omega,proper.perm,proper.small⟩
  obtain ⟨plain,mem⟩ := insertGap h fit (by dsimp only; omega) proper.solid low gap
  refine ⟨_,rfl,?_,?_⟩
  · rw [built]
    exact plain
  rw [built]
  exact mem

def Roomy (start size : Nat) (search : Bool) : Prop :=
  start % 4096 = 0 ∧ if search then searchStart start + size < 2^64 else 0 < start ∧ start + size ≤ sentinelEnd

structure Mapped (v : Vma) (size : Nat) (l : List Vma) (r : Except Errno Nat) : Prop where
  plain : Plain l
  covered : ∀ a, r = .ok a → a % 4096 = 0 ∧ { v with start := a, stop := a + size } ∈ l

lemma allocateMapped {search : Bool} (h : Plain l) (proper : Proper v)
    (sized : size % 4096 = 0) (pos : 0 < size) (roomy : Roomy start size search) :
    ∃ l' r, allocate l v start size search = some (l',r) ∧ Mapped v size l' r := by
  obtain ⟨page,room⟩ := roomy
  have top : sentinelEnd = 0x800000000000 := rfl
  unfold allocate
  cases search
  case false =>
    rw [if_neg (by decide)] at room ⊢
    have stop : (start + size) % 2^64 = start + size := mod_eq_of_lt (by omega)
    obtain ⟨l1,done,plain,gap⟩ := @evacuatePlain l start (start + size) h ⟨room.1,by omega,room.2,page,by omega⟩ (by omega)
    rw [stop,done]
    obtain ⟨l',eq,plain',mem⟩ := placeGap plain proper page sized pos room.1 room.2 gap
    refine ⟨l',_,congrArg some eq,plain',fun b same => ?_⟩
    cases same
    exact ⟨page,mem⟩
  rw [if_pos rfl] at room ⊢
  have begins : searchStart start % 4096 = 0 ∧ 0 < searchStart start := by
    unfold searchStart
    split
    · exact ⟨rfl,by decide⟩
    · exact ⟨page,by omega⟩
  rcases shape : l with _ | ⟨p,rest⟩
  · obtain ⟨w,mem,_⟩ := h.inv.low
    rw [shape] at mem
    cases mem
  rw [← shape]
  unfold findHole
  rw [shape]
  dsimp only
  rw [← shape]
  rcases found : findHoleFrom (searchStart start) size 0 p rest with e | a
  · exact ⟨l,_,rfl,h,nofun⟩
  obtain ⟨fits,at_⟩ := roomFrom (C := []) h.inv shape room (fun zero => absurd rfl zero) found
  have hole : Hole l a size := ⟨by omega,by omega,fits⟩
  obtain ⟨gap,high⟩ := fits.gap h.inv
  obtain ⟨l',eq,plain,mem⟩ := placeGap h proper hole.page sized pos hole.low high gap
  refine ⟨l',_,congrArg some eq,plain,fun b same => ?_⟩
  cases same
  exact ⟨hole.page,mem⟩

lemma sizedUp (pos : 0 < length) (le : length ≤ 2^64 - 4096) :
    alignUp length 4096 % 4096 = 0 ∧ length ≤ alignUp length 4096 := by
  obtain ⟨up,_,multiple⟩ := @alignUpBounds length 12 (by decide) (by omega)
  exact ⟨multiple,up⟩

lemma fileProper {perm : BitVec 32} {f : File}
    (ok : fileVma start stop perm flags f offset = .ok v) :
    Proper v ∧ v.perm = perm ∧ v.flags = flags ||| mmapSmall ∧ v.kind = .file f offset := by
  unfold fileVma at ok
  dsimp only at ok
  split at ok
  next valid =>
    cases ok
    refine ⟨⟨valid,fun g o _ => ?_,nofun⟩,rfl,rfl,rfl⟩
    dsimp only
    rw [BitVec.or_assoc,BitVec.or_self]
  · cases ok

lemma mappedReaches (yes : mappedFrom stop start M = true) : ∃ p ∈ M, stop ≤ p.stop := by
  induction M generalizing start with
  | nil => cases yes
  | cons p M ih => ?_
  rw [mappedFrom] at yes
  split at yes
  · cases yes
  split at yes
  next reach => exact ⟨p,List.mem_cons_self,reach⟩
  obtain ⟨q,mem,reach⟩ := ih yes
  exact ⟨q,List.mem_cons_of_mem _ mem,reach⟩

lemma ismappedFound (h : Inv l) (s : Searchable addr ((addr + size) % 2^64)) :
    (ismapped l addr size = some false ∧ (addr + size) % 2^64 ≤ addr) ∨
    (addr < (addr + size) % 2^64 ∧ ∃ A M B, Found l addr ((addr + size) % 2^64) A M B ∧
      ismapped l addr size = some (mappedFrom ((addr + size) % 2^64) addr M)) := by
  unfold ismapped
  rcases lt_or_ge addr ((addr + size) % 2^64) with lt | ge
  · obtain ⟨A,M,B,f⟩ := h.found lt (s.resolve_left (by omega))
    refine .inr ⟨lt,A,M,B,f,?_⟩
    dsimp only
    rw [f.range,Option.map_some,f.visited h.ordered]
  refine .inl ⟨?_,ge⟩
  dsimp only [findIntersectingVmas]
  rw [if_pos ge]
  rfl

lemma ismappedCases (h : Inv l) (s : Searchable addr ((addr + size) % 2^64)) : ismapped l addr size = some false ∨
    ismapped l addr size = some true ∧ 0 < addr ∧ addr < (addr + size) % 2^64 ∧ (addr + size) % 2^64 ≤ sentinelEnd := by
  rcases ismappedFound h s with ⟨no,_⟩ | ⟨lt,A,M,B,f,eq⟩
  · exact .inl no
  rcases mapped : mappedFrom ((addr + size) % 2^64) addr M with _ | _
  · exact .inl (eq.trans (congrArg some mapped))
  obtain ⟨p,mem,reach⟩ := mappedReaches mapped
  refine .inr ⟨eq.trans (congrArg some mapped),Nat.pos_of_ne_zero (fun zero => ?_),lt,Nat.le_trans reach (f.fit h p mem).top⟩
  obtain ⟨v,there,first,last⟩ := h.low
  have ordered := h.ordered
  rw [f.list] at there ordered
  have front : A = [] := List.eq_nil_iff_forall_not_mem.mpr (fun w before => by
    have := (f.below w before).1
    omega)
  rw [front,List.nil_append] at there ordered
  have inside : v ∈ M := by
    rcases List.mem_append.mp there with one | two
    · exact one
    have := f.above v two
    omega
  rcases M with _ | ⟨m,M⟩
  · cases inside
  have after := (List.pairwise_cons.mp ordered).1
  have same : v = m := by
    rcases List.mem_cons.mp inside with eq | later
    · exact eq
    have := (after v (List.mem_append_left _ later)).1
    omega
  subst same
  rw [mappedFrom,if_neg (by omega),if_neg (by omega)] at mapped
  rcases M with _ | ⟨q,M⟩
  · cases mapped
  have later := (after q (by simp)).1
  rw [mappedFrom,if_pos (by omega)] at mapped
  cases mapped

lemma hasFlagsOr {a b c : BitVec 32} (apart : b &&& c = 0) : hasFlags (a ||| b) c = hasFlags a c := by
  have same : (a ||| b) &&& c = a &&& c := by
    rw [BitVec.and_comm,BitVec.and_or_distrib_left,BitVec.and_comm c b,apart,BitVec.and_comm c a]
    exact BitVec.or_zero
  unfold hasFlags
  rw [same]

lemma fixedKept (w : World) (addr length : Nat) (flags : BitVec 32) :
    hasFlags (heapFlags w addr length (libcFlagsToMmap flags)) mmapFixed = hasFlags flags mapFixed ∧
      hasFlags (libcFlagsToMmap flags) mmapFixed = hasFlags flags mapFixed := by
  have plain : hasFlags (libcFlagsToMmap flags) mmapFixed = hasFlags flags mapFixed := by
    have rest : ∀ other value : BitVec 32, value &&& mmapFixed = 0 → translate flags other value &&& mmapFixed = 0 := by
      intro other value apart
      unfold translate
      split
      · exact apart
      · exact BitVec.zero_and
    unfold libcFlagsToMmap
    rw [hasFlagsOr (rest _ _ rfl),hasFlagsOr (rest _ _ rfl),hasFlagsOr (rest _ _ rfl),
      hasFlagsOr (rest _ _ rfl)]
    unfold translate
    cases hasFlags flags mapFixed <;> decide
  refine ⟨?_,plain⟩
  unfold heapFlags
  split
  · rw [hasFlagsOr rfl,plain]
  · exact plain

structure Answered (addr length : Nat) (prot flags : BitVec 32) (t : World) (r : Ret) : Prop where
  plain : Plain t.vmas
  covered : ∀ a, r = .address a → a % 4096 = 0 ∧ ∃ n ∈ t.vmas, n.start = a ∧ a + length ≤ n.stop ∧
    n.perm = libcProtToPerm prot ∧ (hasFlags flags mapAnonymous → n.kind = .anon)

lemma announceVmas (w : World) (addr length : Nat) (flags : BitVec 32) (v : Nat) :
    (announceHeap w addr length flags v).vmas = w.vmas := by
  unfold announceHeap
  split <;> rfl

lemma mmapAnswered {file : Option File} (h : Plain w.vmas)
    (small : addr < 2^63) (fits : Fits w (.mmap addr length prot flags file offset)) :
    ∃ t r, mmap w addr length prot flags file offset = some (t,r) ∧ Answered addr length prot flags t r := by
  obtain ⟨bounded,room⟩ := fits
  have quiet : ∀ e, Answered addr length prot flags w (.error e) := fun e => ⟨h,nofun⟩
  unfold mmap
  cases valid : mmapValidate addr length flags offset
  case some e => exact ⟨w,_,rfl,quiet e⟩
  have accepted : ¬ ((hasFlags flags mapFixed ∧ addr % 4096 ≠ 0) ∨ offset % 4096 ≠ 0 ∨ length = 0) := by
    unfold mmapValidate at valid
    split at valid
    · cases valid
    split at valid
    · cases valid
    assumption
  have pos : 0 < length := by omega
  obtain ⟨sized,up⟩ := sizedUp pos bounded
  have roomy : Roomy addr (alignUp length 4096) (!hasFlags flags mapFixed) := by
    unfold Roomy
    generalize fixed : hasFlags flags mapFixed = x at room ⊢
    cases x with
    | true => exact ⟨Decidable.not_not.mp (fun bad => accepted (.inl ⟨fixed,bad⟩)),by simpa using room⟩
    | false => exact ⟨by simpa using room.1,by simpa using room.2⟩
  dsimp only
  rw [if_neg (by omega)]
  obtain ⟨anonFixed,fileFixed⟩ := fixedKept w addr length flags
  split
  next anonymous =>
    have proper : Proper (anonVma addr ((addr + alignUp length 4096) % 2^64) (libcProtToPerm prot)
      (heapFlags w addr length (libcFlagsToMmap flags))) :=
      ⟨rfl,fun f o bad => (by cases bad),fun bad => (by cases bad)⟩
    obtain ⟨l,r,eq,mapped⟩ := allocateMapped h proper sized (by omega) roomy
    dsimp only [mapAnon]
    rw [anonFixed,eq]
    rcases r with e | v
    · exact ⟨_,_,rfl,mapped.plain,nofun⟩
    refine ⟨_,_,rfl,?_,fun a same => ?_⟩
    · rw [announceVmas]
      exact mapped.plain
    cases same
    obtain ⟨page,mem⟩ := mapped.covered v rfl
    rw [announceVmas]
    exact ⟨page,_,mem,rfl,by dsimp only; omega,rfl,fun _ => rfl⟩
  rename_i named
  rcases file with _ | f
  · exact ⟨w,_,rfl,quiet _⟩
  dsimp only [mapFile]
  cases built : fileVma addr ((addr + alignUp length 4096) % 2^64) (libcProtToPerm prot)
    (libcFlagsToMmap flags ||| mmapFile) f offset with
  | error e => exact ⟨_,_,rfl,h,nofun⟩
  | ok v =>
    obtain ⟨proper,perm,_⟩ := fileProper built
    obtain ⟨l,r,eq,mapped⟩ := allocateMapped h proper sized (by omega) roomy
    dsimp only
    rw [fileFixed,eq]
    rcases r with e | a
    · exact ⟨_,_,rfl,mapped.plain,nofun⟩
    refine ⟨_,_,rfl,mapped.plain,fun b same => ?_⟩
    cases same
    obtain ⟨page,mem⟩ := mapped.covered a rfl
    exact ⟨page,_,mem,rfl,by dsimp only; omega,perm,fun bad => absurd bad named⟩

lemma alignUpMultiple (length : Nat) : alignUp length 4096 % 4096 = 0 ∧ alignUp length 4096 + 4095 < 2^64 := by
  have down := @alignDownPow (length + 4096 - 1) 12 (by decide)
  have page : 2^12 = 4096 := rfl
  have lt := mod_lt (length + 4096 - 1) (by decide : 0 < 2^64)
  unfold alignUp
  rw [page] at down
  rw [down]
  omega

lemma alignUpTwice (length : Nat) : alignUp (alignUp length 4096) 4096 = alignUp length 4096 :=
  alignUpPage (alignUpMultiple length).1 (alignUpMultiple length).2

structure Kept (t : World) (r : Ret) : Prop where
  plain : Plain t.vmas
  noAddress : ∀ a, r ≠ .address a

lemma munmapKept (h : Plain w.vmas)
    (s : Searchable addr ((addr + alignUp length 4096) % 2^64)) : ∃ t r, munmap w addr length = some (t,r) ∧ Kept t r := by
  have quiet : ∀ e, Kept w (.error e) := fun e => ⟨h,nofun⟩
  unfold munmap
  split
  · exact ⟨w,_,rfl,quiet _⟩
  rename_i valid
  dsimp only
  rcases ismappedCases h.inv s with no | ⟨yes,low,lt,high⟩
  · rw [no]
    exact ⟨w,_,rfl,quiet _⟩
  have pages := (alignUpMultiple length).1
  obtain ⟨l,done,plain,_⟩ := evacuatePlain h ⟨low,le_of_lt lt,high,by omega,by omega⟩ lt
  rw [yes]
  dsimp only [unmap]
  rw [alignUpTwice,done]
  exact ⟨_,_,rfl,plain,nofun⟩

lemma mprotectKept {w : World} {addr len : Nat} (h : Plain w.vmas) (small : addr < 2^63)
    (s : Searchable addr ((addr + len) % 2^64)) : ∃ t r, mprotect w addr len prot = some (t,r) ∧ Kept t r := by
  have quiet : ∀ e, Kept w (.error e) := fun e => ⟨h,nofun⟩
  unfold mprotect
  rw [if_neg (by omega)]
  split
  · exact ⟨w,_,rfl,quiet _⟩
  rename_i valid
  rcases ismappedCases h.inv s with no | ⟨yes,low,lt,high⟩
  · rw [no]
    exact ⟨w,_,rfl,quiet _⟩
  have inside : Between addr ((addr + len) % 2^64) := ⟨low,le_of_lt lt,high,by omega,by omega⟩
  obtain ⟨A,M,B,f,swept⟩ := @protectEq addr ((addr + len) % 2^64) w.vmas (libcProtToPerm prot) len h.inv inside lt rfl
  have whole := h
  rw [f.list] at whole
  have all := @sweptPlain addr ((addr + len) % 2^64) (libcProtToPerm prot) inside.startPage inside.stopPage A M B whole
  have solid : ∀ v ∈ M, v.kind ≠ .balloon := fun v mem =>
    h.solid v (f.list ▸ List.mem_append_right _ (List.mem_append_left _ mem))
  rw [yes]
  dsimp only
  rw [← swept] at all
  generalize result : protect w.vmas addr len (libcProtToPerm prot) = x at all swept ⊢
  cases x with
  | done l | failed e l => exact ⟨_,_,rfl,all,nofun⟩
  | abort => exact absurd swept.symm (sweptSolid solid)

lemma sweepMap {f : Vma → Vma} {fuel : Nat} {before B : List Vma} (ordered : (M ++ B).Pairwise Before)
    (enough : M.length < fuel) : sweep (fun i rest => .keep (f i) rest) (B.head?.map Vma.start) fuel before (M ++ B) =
      .done (before ++ (M.map f ++ B)) := by
  induction fuel generalizing before M with
  | zero => omega
  | succ fuel ih => ?_
  rcases M with _ | ⟨v,M⟩
  · exact sweepEnd B
  rw [List.length_cons] at enough
  have tail := (List.pairwise_cons.mp ordered).2
  rw [List.cons_append,sweep,if_neg (beforeLast ordered)]
  dsimp only
  rw [ih tail (by omega)]
  simp

def smallFlag (i : Vma) : Vma := if hasFlags i.flags mmapSmall then i else { i with flags := i.flags ||| mmapSmall }

lemma smallReplaces (fit : Fit v) : Replaces v [smallFlag v] ∧ Keeps v [smallFlag v] := by
  have flagged : Fit { v with flags := v.flags ||| mmapSmall } := by
    refine ⟨fit.startPage,fit.stopPage,fit.le,fit.top,fit.nonempty,?_,fun f o _ => ?_⟩
    · have valid := fit.perm
      unfold Vma.validatePerm at valid ⊢
      dsimp only
      rw [hasFlagsOr rfl]
      exact valid
    dsimp only
    rw [BitVec.or_assoc,BitVec.or_self]
  unfold smallFlag
  split
  · exact ⟨Replaces.single fit rfl rfl rfl,fun _ => ⟨v,by simp⟩⟩
  · exact ⟨Replaces.single flagged rfl rfl rfl,fun _ => ⟨_,List.mem_singleton_self _,rfl,rfl⟩⟩

lemma nohugepagePlain {l : List Vma} {addr length : Nat} (h : Plain l) (low : 0 < addr)
    (high : addr + length ≤ sentinelEnd) (pos : 0 < length) : ∃ l', nohugepage l addr length = .done l' ∧ Plain l' := by
  have top : sentinelEnd = 0x800000000000 := rfl
  obtain ⟨up,down,_⟩ := @alignUpBounds length 12 (by decide) (by omega)
  rw [show (2 : Nat)^12 = 4096 from rfl] at up down
  have sum : (addr + alignUp length 4096) % 2^64 = addr + alignUp length 4096 := mod_eq_of_lt (by omega)
  obtain ⟨A,M,B,f⟩ := @Inv.found addr (addr + alignUp length 4096) l h.inv (by omega) (by omega)
  have ordered := h.inv.ordered
  rw [f.list] at ordered
  have shorter := congrArg List.length f.list
  rw [List.length_append,List.length_append] at shorter
  have whole := h
  rw [f.list] at whole
  have fits := f.fit h.inv
  have plain := whole.replace (fun v mem => (smallReplaces (fits v mem)).1) (fun v mem => (smallReplaces (fits v mem)).2)
  refine ⟨_,?_,plain⟩
  unfold nohugepage
  rw [sum,f.over h.inv.ordered,← List.map_eq_flatMap]
  exact sweepMap (f := smallFlag) (List.pairwise_append.mp ordered).2.1 (by omega)

lemma madviseKept {advice : Nat} (h : Plain w.vmas) (word : addr < 2^64) (size : length < 2^64)
    (s : Searchable addr ((addr + length) % 2^64)) : ∃ t r, madvise w addr length advice = some (t,r) ∧ Kept t r := by
  have quiet : ∀ e, Kept w (.error e) := fun e => ⟨h,nofun⟩
  have top : sentinelEnd = 0x800000000000 := rfl
  unfold madvise
  rcases ismappedCases h.inv s with no | ⟨yes,low,lt,high⟩
  · rw [no]
    exact ⟨w,_,rfl,quiet _⟩
  rw [yes]
  dsimp only
  rcases libcMadviseToAdvise advice with _ | a
  · exact ⟨w,_,rfl,quiet _⟩
  rcases a with _ | _
  · exact ⟨w,_,rfl,h,nofun⟩
  obtain ⟨l,done,plain⟩ := @nohugepagePlain w.vmas addr length h low (by omega) (by omega)
  dsimp only
  rw [done]
  exact ⟨_,_,rfl,plain,nofun⟩

lemma callPlain {op : Op} (h : Plain w.vmas) (legal : Legal w op) (fits : Fits w op) :
    ∃ t r, call w op = some (t,r) ∧ Plain t.vmas := by
  rcases op with ⟨addr,length,prot,flags,file,offset⟩ | ⟨addr,length⟩ | ⟨addr,len,prot⟩ | ⟨addr,length,advice⟩
  · obtain ⟨t,r,eq,answered⟩ := mmapAnswered h legal.1 fits
    exact ⟨t,r,eq,answered.plain⟩
  · obtain ⟨t,r,eq,kept⟩ := munmapKept h fits
    exact ⟨t,r,eq,kept.plain⟩
  · obtain ⟨t,r,eq,kept⟩ := mprotectKept h legal.1 fits
    exact ⟨t,r,eq,kept.plain⟩
  obtain ⟨t,r,eq,kept⟩ := madviseKept h legal.1 legal.2 fits
  exact ⟨t,r,eq,kept.plain⟩

lemma startPlain (first : Started w) : Plain w.vmas := by
  rw [first]
  refine ⟨⟨?_,by simp [lowFit,highFit],⟨lowSentinel,by simp,rfl,rfl⟩,⟨highSentinel,by simp,rfl,rfl⟩⟩,?_⟩
  · have apart : Before lowSentinel highSentinel := ⟨by decide,by decide⟩
    simpa using apart
  · simp [lowSentinel,highSentinel]

structure ListOk (l : List Vma) : Prop where
  sorted : l.Pairwise (fun a b => a.start < b.start)
  disjoint : l.Pairwise (fun a b => a.stop ≤ b.start)
  pages : ∀ v ∈ l, v.start ≤ v.stop ∧ v.start % 4096 = 0 ∧ v.stop % 4096 = 0
  low : ∃ v ∈ l, v.start = 0 ∧ v.stop = 0
  high : ∃ v ∈ l, v.start = sentinelEnd ∧ v.stop = sentinelEnd

lemma listOk (h : Inv l) : ListOk l :=
  ⟨h.ordered.imp (fun order => order.1),h.ordered.imp (fun order => order.2),
    fun v mem => ⟨(h.fit v mem).le,(h.fit v mem).startPage,(h.fit v mem).stopPage⟩,h.low,h.high⟩

theorem mmapRuns {w : World} (reach : Runs.Reach exec (fun w op => Legal w op ∧ Fits w op) Started w) :
    ListOk w.vmas ∧
    (∀ op, Legal w op → Fits w op → ∃ t r, call w op = some (t,r)) ∧
    ∀ addr length prot flags file offset t v, Legal w (.mmap addr length prot flags file offset) →
      Fits w (.mmap addr length prot flags file offset) →
      call w (.mmap addr length prot flags file offset) = some (t,.address v) →
      v % 4096 = 0 ∧ ∃ n ∈ t.vmas, n.start = v ∧ v + length ≤ n.stop ∧ n.perm = libcProtToPerm prot ∧
        (hasFlags flags mapAnonymous → n.kind = .anon) := by
  have h : Plain w.vmas := by
    refine invariant (P := fun w => Plain w.vmas) (fun w first => startPlain first) (fun w op t inv ok taken => ?_) reach
    obtain ⟨s,r,eq,plain⟩ := callPlain inv ok.1 ok.2
    unfold exec at taken
    rw [eq] at taken
    exact Option.some.inj taken ▸ plain
  refine ⟨listOk h.inv,fun op legal fits => ?_,fun addr length prot flags file offset t v legal fits done => ?_⟩
  · obtain ⟨t,r,eq,_⟩ := callPlain h legal fits
    exact ⟨t,r,eq⟩
  obtain ⟨s,r,eq,answered⟩ := mmapAnswered h legal.1 fits
  have same := eq.symm.trans done
  cases same
  exact answered.covered v rfl

def bare : World := ⟨[lowSentinel,highSentinel],0,0,0⟩

theorem mmapRunsHint : ∃ t, call bare (.mmap 0x300000000000 5000 3 (mapPrivate ||| mapAnonymous) none 0) =
      some (t,.address 0x300000000000) ∧
    ∃ n ∈ t.vmas, n.start = 0x300000000000 ∧ 0x300000000000 + 5000 ≤ n.stop := by
  have legal : Legal bare (.mmap 0x300000000000 5000 3 (mapPrivate ||| mapAnonymous) none 0) := ⟨by decide,by decide⟩
  have fits : Fits bare (.mmap 0x300000000000 5000 3 (mapPrivate ||| mapAnonymous) none 0) := ⟨by decide,by decide⟩
  obtain ⟨_,defined,answers⟩ := mmapRuns (w := bare) (.init rfl)
  obtain ⟨t,r,done⟩ := defined _ legal fits
  have address : (call bare (.mmap 0x300000000000 5000 3 (mapPrivate ||| mapAnonymous) none 0)).map Prod.snd =
    some (.address 0x300000000000) := rfl
  rw [done] at address
  cases address
  obtain ⟨_,n,mem,start,stop,_⟩ := answers _ _ _ _ _ _ _ _ legal fits done
  exact ⟨t,done,n,mem,start,stop⟩

-- A fixed mapping over the end of the user half: the upper sentinel is erased.
def overTop : Op := .mmap 0x7ffffffff000 0x2000 3 (mapPrivate ||| mapAnonymous ||| mapFixed) none 0

theorem upperSentinelErased : ∃ w, Runs.Reach exec Legal Started w ∧ ¬ ListOk w.vmas := by
  refine ⟨after exec bare overTop,.next (o := overTop) (.init (show Started bare from rfl)) ⟨by decide,by decide⟩
    (afterTaken rfl),fun ok => ?_⟩
  obtain ⟨v,mem,start,stop⟩ := ok.high
  have gone : ∀ v ∈ (after exec bare overTop).vmas, v.start ≠ sentinelEnd := by decide
  exact gone v mem start

end OsvKernel.Mmap
