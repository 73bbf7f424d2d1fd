import OsvKernel.Align
import OsvKernel.Words

/-! The vma list of core/mmu.cc. The set is a list in order of start, and an
iterator is the start of its vma, or none for end(). Reading through end(),
stepping back from begin() and abort() all end in `abort`. Page tables are not part
of the list, so operate_range has no effect here. -/
namespace OsvKernel.VmaList
open Words

def hugePageSize : Nat := 2097152
def sentinelEnd : Nat := 0x800000000000

def permRead : BitVec 32 := 1
def permWrite : BitVec 32 := 2
def permExec : BitVec 32 := 4

def mmapFixed : BitVec 32 := 1
def mmapPopulate : BitVec 32 := 2
def mmapShared : BitVec 32 := 4
def mmapUninitialized : BitVec 32 := 8
def mmapJvmHeap : BitVec 32 := 16
def mmapSmall : BitVec 32 := 32
def mmapJvmBalloon : BitVec 32 := 64
def mmapFile : BitVec 32 := 128

inductive Errno where
  | einval
  | enomem
  | eacces
  | eperm
  | ebadf
  deriving DecidableEq

structure File where
  id : Nat
  fread : Bool
  fwrite : Bool
  noexec : Bool
  deriving DecidableEq

inductive Kind where
  | anon
  | file (f : File) (offset : Nat)
  | balloon
  deriving DecidableEq

structure Vma where
  start : Nat
  stop : Nat
  perm : BitVec 32
  flags : BitVec 32
  kind : Kind
  deriving DecidableEq

def hasFlags (flags flag : BitVec 32) : Bool := flags &&& flag != 0

def Vma.set (v : Vma) (start stop : Nat) : Vma :=
  { v with start := alignDown start 4096, stop := alignUp stop 4096 }

def anonVma (start stop : Nat) (perm flags : BitVec 32) : Vma :=
  ⟨alignDown start 4096,alignUp stop 4096,perm,flags,.anon⟩

def Vma.validatePerm (v : Vma) (perm : BitVec 32) : Option Errno :=
  match v.kind with
  | .file f _ =>
    if !f.fread then some .eacces
    else if hasFlags perm permWrite && hasFlags v.flags mmapShared && !f.fwrite then some .eacces
    else if hasFlags perm permExec && f.noexec then some .eperm
    else none
  | _ => none

-- The constructor throws what validate_perm returns.
def fileVma (start stop : Nat) (perm flags : BitVec 32) (f : File) (offset : Nat) : Except Errno Vma :=
  let v : Vma := ⟨alignDown start 4096,alignUp stop 4096,perm,flags ||| mmapSmall,.file f offset⟩
  match v.validatePerm perm with
  | none => .ok v
  | some e => .error e

def Vma.offset (v : Vma) (offset addr : Nat) : Nat := (offset + (addr - v.start)) % 2^64

-- vma_list.insert does nothing when the key is there.
def insertVma (v : Vma) : List Vma → List Vma
  | [] => [v]
  | a::l => if v.start < a.start then v::a::l else if v.start = a.start then a::l else a::insertVma v l

def lowerBound (l : List Vma) (addr : Nat) : Option Vma := l.find? (fun v => decide (addr ≤ v.start))
def prev (l : List Vma) (key : Nat) : Option Vma := (l.takeWhile (fun v => decide (v.start < key))).getLast?

def contains (start stop : Nat) (v : Vma) : Prop := start ≤ v.start ∧ v.stop ≤ stop
  deriving Decidable

-- The vma in front of the range's start may reach into the range.
def reaching (l : List Vma) (start : Nat) (s : Vma) : Option Vma :=
  if s.start > start then (prev l s.start).map (fun p => if p.stop > start then p else s) else some s

def findIntersectingVmas (l : List Vma) (start stop : Nat) : Option (Option Nat × Option Nat) :=
  if stop ≤ start then some (none,none)
  else do
    let s ← lowerBound l start
    let s ← reaching l start s
    if s.start ≥ stop then some (none,none)
    else some (some s.start,(lowerBound l stop).map Vma.start)

inductive Step where
  | keep (i : Vma) (rest : List Vma)
  | erase (rest : List Vma)
  | failed (e : Errno) (i : Vma) (rest : List Vma)
  | abort

inductive Result where
  | done (l : List Vma)
  | failed (e : Errno) (l : List Vma)
  | abort
  deriving DecidableEq

def sweep (body : Vma → List Vma → Step) (last : Option Nat) : Nat → List Vma → List Vma → Result
  | 0,_,_ => .abort
  | _+1,before,[] => if last = none then .done before else .abort
  | fuel+1,before,i::rest =>
    if last = some i.start then .done (before ++ i::rest)
    else
      match body i rest with
      | .keep i rest => sweep body last fuel (before ++ [i]) rest
      | .erase rest => if before = [] then .abort else sweep body last fuel before rest
      | .failed e i rest => .failed e (before ++ i::rest)
      | .abort => .abort

-- A visited vma is cut at most twice.
def forRange (l : List Vma) (body : Vma → List Vma → Step) (range : Option Nat × Option Nat) : Result :=
  match range.1 with
  | none => .done l
  | some first => sweep body range.2 (3*l.length+1) (l.takeWhile (fun v => decide (v.start ≠ first)))
    (l.dropWhile (fun v => decide (v.start ≠ first)))

def overRange (l : List Vma) (start stop : Nat) (body : Vma → List Vma → Step) : Result :=
  match findIntersectingVmas l start stop with
  | none => .abort
  | some range => forRange l body range

def split (edge : Nat) (i : Vma) (rest : List Vma) : Step :=
  match i.kind with
  | .balloon => .abort
  | .anon =>
    if edge ≤ i.start ∨ edge ≥ i.stop then .keep i rest
    else .keep (i.set i.start edge) (insertVma (anonVma edge i.stop i.perm i.flags) rest)
  | .file f offset =>
    if edge ≤ i.start ∨ edge ≥ i.stop then .keep i rest
    else
      match fileVma edge i.stop i.perm i.flags f (i.offset offset edge) with
      | .error e => .failed e i rest
      | .ok n => .keep (i.set i.start edge) (insertVma n rest)

def Step.andThen (s : Step) (f : Vma → List Vma → Step) : Step :=
  match s with
  | .keep i rest => f i rest
  | .erase rest => .erase rest
  | .failed e i rest => .failed e i rest
  | .abort => .abort

def settle (start stop : Nat) (act : Vma → Option Vma) (i : Vma) (rest : List Vma) : Step :=
  if contains start stop i then
    match act i with
    | some i => .keep i rest
    | none => .erase rest
  else .keep i rest

def visit (start stop : Nat) (skip : Vma → Bool) (check : Vma → Option Errno) (act : Vma → Option Vma)
    (i : Vma) (rest : List Vma) : Step :=
  if skip i then .keep i rest
  else
    match check i with
    | some e => .failed e i rest
    | none => ((split stop i rest).andThen (split start)).andThen (settle start stop act)

def evacuate (l : List Vma) (start stop : Nat) : Result :=
  overRange l start stop (visit start stop (fun _ => false) (fun _ => none) (fun _ => none))

def protect (l : List Vma) (start size : Nat) (perm : BitVec 32) : Result :=
  let stop := (start + size) % 2^64
  overRange l start stop (visit start stop (fun v => v.perm == perm) (fun v => v.validatePerm perm)
    (fun v => some { v with perm := perm }))

def findHoleFrom (start size goodEnough : Nat) (p : Vma) : List Vma → Except Errno Nat
  | [] => if goodEnough ≠ 0 then .ok goodEnough else .error .enomem
  | n::rest =>
    if start ≥ p.stop ∧ (start + size) % 2^64 ≤ n.start then .ok start
    else if p.stop ≥ start ∧ sub64 n.start p.stop ≥ size then
      if size < hugePageSize then .ok p.stop
      else if sub64 n.start (alignUp p.stop hugePageSize) ≥ size then .ok (alignUp p.stop hugePageSize)
      else findHoleFrom start size p.stop n rest
    else findHoleFrom start size goodEnough n rest

def findHole (l : List Vma) (start size : Nat) : Option (Except Errno Nat) :=
  match l with
  | [] => none
  | p::rest => some (findHoleFrom start size 0 p rest)

-- The vmas a loop that changes nothing in the list comes by.
def visited (l : List Vma) (range : Option Nat × Option Nat) : List Vma :=
  match range.1 with
  | none => []
  | some first => (l.dropWhile (fun v => decide (v.start ≠ first))).takeWhile (fun v => decide (range.2 ≠ some v.start))

def mappedFrom (stop : Nat) : Nat → List Vma → Bool
  | _,[] => false
  | start,p::rest =>
    if p.start > start then false
    else if p.stop ≥ stop then true
    else mappedFrom stop p.stop rest

def ismapped (l : List Vma) (addr size : Nat) : Option Bool :=
  let stop := (addr + size) % 2^64
  (findIntersectingVmas l addr stop).map (fun range => mappedFrom stop addr (visited l range))

def nohugepage (l : List Vma) (addr length : Nat) : Result :=
  overRange l addr ((addr + alignUp length 4096) % 2^64)
    (fun i rest => .keep (if hasFlags i.flags mmapSmall then i else { i with flags := i.flags ||| mmapSmall }) rest)

end OsvKernel.VmaList
