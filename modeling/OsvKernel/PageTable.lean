import OsvKernel.Align
import OsvKernel.Words

/-! The page table walker of core/mmu.cc: map_range and map_level over four levels of
512 entries, with the x86 page table element. A page table entry is its place in the
tree (the indices that lead to it, the last one first); addresses are 64-bit words. -/
namespace OsvKernel.PageTable
open Words

def pageSize : Nat := 4096
def pageSizeLevel (level : Nat) : Nat := 2^(12 + 9*level)
def pteAddrMask : BitVec 64 := (1#64 <<< 51 - 1) &&& ~~~0xfff#64

inductive Entry : Nat → Type where
  | word (x : BitVec 64) : Entry 0
  | empty {n : Nat} : Entry (n+1)
  | huge (x : BitVec 64) (large : x.getLsbD 7 = true) : Entry 1
  | table {n : Nat} (entries : Fin 512 → Entry n) : Entry (n+1)

def Entry.isEmpty : {n : Nat} → Entry n → Bool
  | _, .word x => x == 0
  | _, .empty => true
  | _, .huge .. => false
  | _, .table _ => false

def Entry.isLarge : {n : Nat} → Entry n → Bool
  | _, .huge .. => true
  | _, _ => false

def makeEmptyPte : (n : Nat) → Entry n
  | 0 => .word 0
  | _+1 => .empty

def piece (x : BitVec 64) (i : Fin 512) : BitVec 64 :=
  let tmp := x &&& ~~~0x80#64
  (tmp &&& ~~~pteAddrMask) ||| ((tmp &&& pteAddrMask) ||| BitVec.ofNat 64 i <<< 12)

abbrev Place := List (Fin 512)

inductive Call where
  | small (place : Place) (pte : Entry 0) (offset : Nat)
  | huge (place : Place) (pte : Entry 1) (offset : Nat) (done : Bool)

structure Walk (σ : Type) where
  mapper : σ
  calls : List Call

structure PageOp (σ : Type) where
  allocateIntermediate : Bool
  skipEmpty : Bool
  descend : Bool
  once : Bool
  splitLarge : Bool
  nrPageSizes : Nat
  page : σ → Entry 0 → Nat → σ × Entry 0 × Bool
  pageHuge : σ → Entry 1 → Nat → σ × Entry 1 × Bool
  intermediatePagePre : σ → Entry 1 → Nat → σ × Entry 1
  intermediatePagePost : σ → Entry 1 → Nat → σ × Entry 1
  subPage : σ → Entry 1 → Nat → σ × Entry 1

section
variable {σ : Type} (op : PageOp σ)

-- only levels 0 and 1 are leaf capable: page() of any other asserts
def page : (level : Nat) → Place → Nat → Entry level → Walk σ → Option (Bool × Entry level × Walk σ)
  | 0, place, offset, pte, w =>
    let (mapper,pte',done) := op.page w.mapper pte offset
    some (done,pte',⟨mapper,w.calls ++ [.small place pte offset]⟩)
  | 1, place, offset, pte, w =>
    let (mapper,pte',done) := op.pageHuge w.mapper pte offset
    some (done,pte',⟨mapper,w.calls ++ [.huge place pte offset done]⟩)
  | _+2, _, _, _, _ => none

def intermediatePagePre : (level : Nat) → Nat → Entry level → Walk σ → Entry level × Walk σ
  | 1, offset, pte, w =>
    let (mapper,pte') := op.intermediatePagePre w.mapper pte offset
    (pte',⟨mapper,w.calls⟩)
  | _, _, pte, w => (pte,w)

def intermediatePagePost : (level : Nat) → Nat → Entry level → Walk σ → Entry level × Walk σ
  | 1, offset, pte, w =>
    let (mapper,pte') := op.intermediatePagePost w.mapper pte offset
    (pte',⟨mapper,w.calls⟩)
  | _, _, pte, w => (pte,w)

inductive Opened (σ : Type) (n : Nat) where
  | table (entries : Fin 512 → Entry n)
  | left (parent : Entry (n+1)) (w : Walk σ)

-- an invalid word that is not empty defeats the compare_exchange of
-- allocate_intermediate_level(), and next_pt_addr() asserts that it is not large
def openLevel (offset : Nat) : {n : Nat} → Entry (n+1) → Walk σ → Option (Opened σ n)
  | _, .table entries, _ => some (.table entries)
  | n, .empty, w =>
    if op.allocateIntermediate then some (.table fun _ => makeEmptyPte n) else some (.left .empty w)
  | _, .huge x large, w =>
    if x.getLsbD 0 then
      if op.splitLarge then some (.table fun i => .word (piece x i))
      else
        let (mapper,pte) := op.subPage w.mapper (.huge x large) offset
        some (.left pte ⟨mapper,w.calls⟩)
    else if op.allocateIntermediate then none
    else some (.left (.huge x large) w)

end

def clamp (vstart1 vend1 low high slop : Nat) : Nat × Nat :=
  (max (alignDown vstart1 slop) low,min (vend1 ||| (slop - 1)) high)

def ptIndex (virt level : Nat) : Fin 512 := Fin.ofNat 512 (virt / pageSizeLevel level)

-- int64_t(base_virt) << 16 >> 16
def signExtend (virt : Nat) : Nat := ((BitVec.ofNat 64 virt <<< 16).sshiftRight 16).toNat

section
variable {σ : Type} (op : PageOp σ) (vmaStart slop level : Nat)

abbrev Below (σ : Type) (level : Nat) :=
  Place → Nat → Nat → Nat → Entry level → Walk σ → Option (Entry level × Walk σ)

def visitWhole (below : Below σ level) (place : Place) (vstart1 size base : Nat) (ptep : Entry level)
    (w : Walk σ) : Option (Entry level × Walk σ) :=
  let offset := sub64 base vmaStart
  let called := if op.descend && !ptep.isEmpty && !ptep.isLarge then some (false,ptep,w)
    else page op level place offset ptep w
  called.bind fun (done,pte,w) =>
    if done then some (pte,w)
    else
      let (pte,w) := intermediatePagePre op level offset pte w
      (below place vstart1 size base pte w).map fun (pte,w) => intermediatePagePost op level offset pte w

def visit (below : Below σ level) (place : Place) (vcur vend base : Nat) (ptep : Entry level)
    (w : Walk σ) : Option (Entry level × Walk σ) :=
  let last := (base + pageSizeLevel level - 1) % 2^64
  let (vstart1,vend1) := clamp vcur vend base last slop
  let size := (sub64 vend1 vstart1 + 1) % 2^64
  if level < op.nrPageSizes ∧ vstart1 = base ∧ vend1 = last then
    if op.skipEmpty && ptep.isEmpty then some (ptep,w)
    else if level = 0 then (page op level place (sub64 base vmaStart) ptep w).map fun r => r.2
    else visitWhole op vmaStart level below place vstart1 size base ptep w
  else below place vstart1 size base ptep w

def entries (below : Below σ level) (up : Place) (vcur vend : Nat) : Nat → Fin 512 → Nat →
    (Fin 512 → Entry level) → Walk σ → Option ((Fin 512 → Entry level) × Walk σ)
  | left, idx, base, pt, w =>
    match visit op vmaStart slop level below (idx::up) vcur vend base (pt idx) w with
    | none => none
    | some (pte,w) =>
      let pt := Function.update pt idx pte
      match left with
      | 0 => some (pt,w)
      | left+1 => entries below up vcur vend left (idx+1) ((base + pageSizeLevel level) % 2^64) pt w

def walkTable (below : Below σ level) : Below σ (level+1) := fun up vcur size base parent w =>
  match openLevel op (sub64 base vmaStart) parent w with
  | none => none
  | some (.left parent w) => some (parent,w)
  | some (.table pt) =>
    let vend := (vcur + size + (2^64 - 1)) % 2^64
    let idx := ptIndex vcur level
    let eidx := ptIndex vend level
    let left := if op.once then 0 else eidx.val - idx.val
    let base := signExtend (base + idx.val*pageSizeLevel level)
    (entries op vmaStart slop level below up vcur vend left idx base pt w).map fun r =>
      (.table r.1,r.2)

end

section
variable {σ : Type} (op : PageOp σ) (vmaStart : Nat)

-- map_range<0> has no body
def mapLevel (slop : Nat) : (level : Nat) → Below σ level
  | 0 => fun _ _ _ _ ptep w => some (ptep,w)
  | level+1 => walkTable op vmaStart slop level (mapLevel slop level)

def mapRange (vstart size slop : Nat) (root : Entry 4) (mapper : σ) : Option (Entry 4 × Walk σ) :=
  mapLevel op vmaStart slop 4 [] vstart size 0 root ⟨mapper,[]⟩

end
end OsvKernel.PageTable
