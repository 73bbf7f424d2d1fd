import OsvKernel.Blocks

/-! The page range allocator of core/mempool.cc. A header is named by the number
of its page relative to phys_mem and sizes count pages: every range the allocator
is given or asked for is page aligned. The header's size and the back pointer in
the last word of a range live in the free memory itself, so `size` and `last` are
total and start with whatever the memory held. -/
namespace OsvKernel.PageRange

def maxOrder : Nat := 16
def ilog2 (n : Nat) : Nat := if n ≤ 1 then 0 else Nat.log2 n
def ilog2Roundup (n : Nat) : Nat := if n ≤ 1 then 0 else Nat.log2 (n-1) + 1

-- phys_mem / page_size; address arithmetic on pages is modulo 2^52.
def physPage : Nat := 0xffff800000000
def pages64 : Nat := 2^52

structure State where
  lists : Nat → List Nat
  huge : List Nat
  notEmpty : BitVec 17
  bits : Nat → Bool
  nbits : Nat
  store : Option (Nat × Nat)
  deferredFree : Option Nat
  size : Nat → Nat
  last : Nat → Nat

def construct (s : State) (pr : Nat) (size : Nat) : State :=
  { s with size := Function.update s.size pr size }

def outside (nbits : Nat) (stray : Nat → Bool) (i : Nat) : Bool :=
  if i < 64*((nbits+63)/64) then false else stray i

def bitAt (s : State) (stray : Nat → Bool) (i : Nat) : Bool :=
  if i < s.nbits then s.bits i else outside s.nbits stray i

def setBit (s : State) (i : Nat) (value : Bool) : State :=
  if i < s.nbits then { s with bits := Function.update s.bits i value } else s

-- unsigned, so 32 bits wide.
def getBitmapIdx (pr : Nat) : Nat := pr % 2^32

def prevIdx (pr : Nat) : Nat :=
  match getBitmapIdx pr with
  | 0 => 2^32-1
  | i+1 => i

def setBits (s : State) (pr : Nat) (value fill : Bool) : State :=
  let stop := s.size pr - 1
  if fill then
    (List.range (stop+1)).foldl (fun s idx => setBit s (getBitmapIdx pr + idx) value) s
  else setBit (setBit s (getBitmapIdx pr) value) (getBitmapIdx pr + stop) value

-- A multiset keeps equal keys in order of insertion.
def insertBySize (size : Nat → Nat) (pr : Nat) : List Nat → List Nat
  | [] => [pr]
  | a::rest => if size pr < size a then pr::a::rest else a::insertBySize size pr rest

def mark (b : BitVec 17) (k : Nat) : BitVec 17 := b ||| (1#17 <<< k)
def unmark (b : BitVec 17) (k : Nat) : BitVec 17 := b &&& ~~~(1#17 <<< k)

def link (s : State) (pr : Nat) : State :=
  let order := ilog2 (s.size pr)
  if order ≥ maxOrder then
    { s with huge := insertBySize s.size pr s.huge, notEmpty := mark s.notEmpty maxOrder }
  else
    { s with lists := Function.update s.lists order (pr::s.lists order)
             notEmpty := mark s.notEmpty order }

def insert (useBitmap : Bool) (s : State) (pr : Nat) : State :=
  let s := link { s with last := Function.update s.last (pr + s.size pr - 1) pr } pr
  if useBitmap then setBits s pr true false else s

def removeHuge (s : State) (pr : Nat) : State :=
  let huge := s.huge.erase pr
  { s with huge := huge
           notEmpty := if huge.isEmpty then unmark s.notEmpty maxOrder else s.notEmpty }

def removeList (s : State) (order : Nat) (pr : Nat) : State :=
  let list := (s.lists order).erase pr
  { s with lists := Function.update s.lists order list
           notEmpty := if list.isEmpty then unmark s.notEmpty order else s.notEmpty }

def remove (s : State) (pr : Nat) : State :=
  let order := ilog2 (s.size pr)
  if order ≥ maxOrder then removeHuge s pr else removeList s order pr

-- for_each: the tree by increasing size, then the lists from the highest order down.
def forEach (s : State) (minOrder : Nat) : List Nat :=
  s.huge ++ ((List.range' minOrder (maxOrder-minOrder)).reverse.flatMap s.lists)

def candidates (s : State) (exactOrder : Nat) : BitVec 64 :=
  let bitset := s.notEmpty.setWidth 64
  if exactOrder = 0 then bitset else bitset &&& ~~~(BitVec.ofNat 64 (2^exactOrder-1))

-- The linear search of the empty case finds a range and then returns nullptr anyway.
def choose (s : State) (size : Nat) : Option (State × Nat) :=
  let exactOrder := min (ilog2Roundup size) maxOrder
  let bitset := candidates s exactOrder
  let order := bitset.ctz.toNat
  if bitset = 0 then none
  else if order = maxOrder then
    match s.huge.getLast? with
    | none => none
    | some range => if s.size range < size then none else some (removeHuge s range,range)
  else
    match (s.lists order).head? with
    | none => none
    | some range => some (removeList s order range,range)

def alloc (useBitmap : Bool) (s : State) (size : Nat) : Option (State × Nat) := do
  let (s,pr) ← choose s size
  let s :=
    if s.size pr > size then
      let np := pr + size
      let s := insert useBitmap (construct s np (s.size pr - size)) np
      construct s pr size
    else s
  some (if useBitmap then setBits s pr false false else s,pr)

def alignmentShift (s : State) (size offset alignment : Nat) (header : Nat) : Nat :=
  let expectedRet := (physPage + header + s.size header + (pages64 - size) + offset) % pages64
  expectedRet - expectedRet / alignment * alignment

def fits (s : State) (size offset alignment : Nat) (header : Nat) : Bool :=
  decide (s.size header ≥ (size + alignmentShift s size offset alignment header) % pages64)

-- The difference of two sizes in pages, which wraps where b is the larger one.
def sizeSub (a b : Nat) : Nat := a - b + (pages64 - (b - a)) % pages64

def cutTail (s : State) (shift header : Nat) : State :=
  if shift = 0 then s
  else
    let tail := sizeSub (header + s.size header) shift
    let s := insert true (construct s tail shift) tail
    construct s header (sizeSub (s.size header) shift)

def cutHead (s : State) (size header : Nat) : State × Nat :=
  if s.size header = size then (s,header)
  else
    let s := insert true (construct s header (sizeSub (s.size header) size)) header
    let ret := header + s.size header
    (construct s ret size,ret)

def carve (s : State) (size shift : Nat) (fill : Bool) (header : Nat) : State × Nat :=
  let cut := cutHead (cutTail (remove s header) shift header) size header
  (setBits cut.1 cut.2 false fill,cut.2)

def allocAligned (s : State) (size offset alignment : Nat) (fill : Bool) : Option (State × Nat) :=
  match (forEach s (max (ilog2 size) 1 - 1)).find? (fits s size offset alignment) with
  | none => none
  | some header => some (carve s size (alignmentShift s size offset alignment header) fill header)

def mergePrev (s : State) (pr : Nat) : State × Nat :=
  let pr2 := s.last (pr-1)
  let s := remove s pr2
  (construct s pr2 (s.size pr2 + s.size pr),pr2)

def mergeNext (s : State) (pr : Nat) : State :=
  let pr2 := pr + s.size pr
  let s := remove s pr2
  construct s pr (s.size pr + s.size pr2)

def joinPrev (s : State) (stray : Nat → Bool) (pr : Nat) : State × Nat :=
  if bitAt s stray (prevIdx pr) then mergePrev s pr else (s,pr)

def joinNext (s : State) (stray : Nat → Bool) (pr : Nat) : State :=
  if bitAt s stray (getBitmapIdx pr + s.size pr) then mergeNext s pr else s

def free (s : State) (stray : Nat → Bool) (pr : Nat) : State :=
  let merged := joinPrev s stray pr
  insert true (joinNext merged.1 stray merged.2) merged.2

-- bitmap_allocator::get_size, in pages, for n words.
def getSize (n : Nat) : Nat := (8*n + 4095) / 4096

def resize (s : State) (numBits cap : Nat) : Option State :=
  let s := { s with bits := fun i => if i < s.nbits then s.bits i else false, nbits := numBits }
  match s.store with
  | some (p,c) =>
    if (numBits+63)/64 ≤ c then some s
    else do
      let (s,q) ← alloc false s (getSize cap)
      some { construct s p (getSize c) with store := some (q,cap), deferredFree := some p }
  | none => do
    let (s,q) ← alloc false s (getSize cap)
    some { s with store := some (q,cap) }

def joinInitial (s : State) (pr : Nat) : State × Nat :=
  if s.nbits > prevIdx pr ∧ s.bits (prevIdx pr) = true then mergePrev s pr else (s,pr)

def setAllBits (s : State) : State := (forEach s 0).foldl (fun s pr => setBits s pr true false) s

def freeDeferred (s : State) (stray : Nat → Bool) : State :=
  match s.deferredFree with
  | some p => { free s stray p with deferredFree := none }
  | none => s

def initialAdd (s : State) (stray : Nat → Bool) (pr cap : Nat) : Option State :=
  let idx := getBitmapIdx pr + s.size pr
  if idx > s.nbits then do
    let merged := joinInitial s pr
    let s ← resize { insert false merged.1 merged.2 with bits := fun _ => false } idx cap
    some (freeDeferred (setAllBits s) stray)
  else some (free s stray pr)

def empty (ram : Nat → Nat) (words : Nat → Nat) : State :=
  ⟨fun _ => [],[],0,fun _ => false,0,none,none,ram,words⟩

end OsvKernel.PageRange
