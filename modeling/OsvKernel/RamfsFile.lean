import OsvKernel.Runs

/-! The contents of one ramfs file: ramfs_read, ramfs_write and ramfs_truncate over a buffer that grows
by whole pages, behind the length check of sys_read and sys_write. An access outside of the buffer
has no result. -/
namespace OsvKernel.RamfsFile
open List Runs Nat Int

abbrev Byte := UInt8

inductive VType where
  | VREG
  | VDIR
  | VLNK
  deriving DecidableEq

inductive Errno where
  | EINVAL
  | EISDIR
  | eio
  deriving DecidableEq

inductive Rw where
  | UIO_READ
  | UIO_WRITE
  deriving DecidableEq

structure Block where
  bytes : Nat → Byte
  size : Nat

structure File where
  vType : VType
  vSize : Int
  rnSize : Nat
  rnBuf : Block
  rnBufsize : Nat

def offT (x : Int) : Int := Int.bmod x (2^64)
def sizeT (x : Int) : Nat := (x % 2^64).toNat
def iosizeMax : Nat := 2^31 - 1
def roundPage (x : Int) : Int := (x + 4095) / 4096 * 4096

def Block.load (b : Block) (cp n : Nat) : Option (List Byte) :=
  if cp + n ≤ b.size then some ((List.range n).map fun i => b.bytes (cp + i)) else none

def Block.put (b : Block) (cp : Nat) (data : List Byte) : Block :=
  ⟨fun i => if cp ≤ i ∧ i < cp + data.length then data.getD (i - cp) 0 else b.bytes i,b.size⟩

def Block.store (b : Block) (cp : Nat) (data : List Byte) : Option Block :=
  if cp + data.length ≤ b.size then some (b.put cp data) else none

def Block.copy (dst src : Block) (n : Nat) : Option Block :=
  if n ≤ dst.size ∧ n ≤ src.size then some ⟨fun i => if i < n then src.bytes i else dst.bytes i,dst.size⟩ else none

def uiomove (rw : Rw) : Block → Nat → Nat → Nat → List (List Byte) → Option (Block × List Byte)
  | buf,_,n,resid,[] => if 0 < n ∧ resid ≠ 0 then none else some (buf,[])
  | buf,cp,n,resid,v::iov =>
    if 0 < n ∧ resid ≠ 0 then
      if v.length = 0 then uiomove rw buf cp n resid iov
      else do
        let cnt := min v.length n
        let (buf,moved) ← match rw with
          | .UIO_READ => (buf.load cp cnt).map fun data => (buf,data)
          | .UIO_WRITE => (buf.store cp (v.take cnt)).map fun buf => (buf,[])
        let (buf,rest) ← uiomove rw buf (cp + cnt) (n - cnt) (resid - cnt) iov
        some (buf,moved ++ rest)
    else some (buf,[])

def malloc (fresh : Nat → Byte) (n : Nat) : Option Block := if n < 2^63 then some ⟨fresh,n⟩ else none

def proceed (r : Option (Except Errno File)) (k : File → Option (Except Errno File)) : Option (Except Errno File) :=
  match r with
  | none => none
  | some (.error e) => some (.error e)
  | some (.ok file) => k file

def grow (fresh : Nat → Byte) (file : File) (newSize : Nat) : Option (Except Errno File) :=
  match malloc fresh newSize with
  | none => some (.error .eio)
  | some newBuf =>
    (if file.rnSize ≠ 0 then newBuf.copy file.rnBuf (sizeT file.vSize) else some newBuf).map fun newBuf =>
      .ok { file with rnBuf := newBuf, rnBufsize := newSize }

def ramfsTruncate (fresh : Nat → Byte) (file : File) (length : Int) : Option (Except Errno File) :=
  proceed
    (if length = 0 then some (.ok { file with rnBuf := ⟨file.rnBuf.bytes,0⟩, rnBufsize := 0 })
    else if sizeT length > file.rnBufsize then grow fresh file (sizeT (roundPage length))
    else some (.ok file))
    fun file => some (.ok { file with rnSize := sizeT length, vSize := length })

def ramfsRead (file : File) (iov : List (List Byte)) (offset : Int) (resid : Nat) :
    Option (Except Errno (List Byte)) :=
  if file.vType = .VDIR then some (.error .EISDIR)
  else if file.vType ≠ .VREG then some (.error .EINVAL)
  else if offset < 0 then some (.error .EINVAL)
  else if resid = 0 then some (.ok [])
  else if offset ≥ file.vSize then some (.ok [])
  else
    let len := if file.vSize - offset < resid then (file.vSize - offset).toNat else resid
    (uiomove .UIO_READ file.rnBuf offset.toNat len resid iov).map fun out => .ok out.2

def expand (fresh : Nat → Byte) (file : File) (offset : Int) (resid : Nat) : Option (Except Errno File) :=
  if sizeT (offset + resid) > sizeT file.vSize then
    let endPos := offT (offset + resid)
    proceed (if endPos > offT file.rnBufsize then grow fresh file (sizeT (roundPage endPos)) else some (.ok file))
      fun file => some (.ok { file with rnSize := sizeT endPos, vSize := endPos })
  else some (.ok file)

def ramfsWrite (fresh : Nat → Byte) (file : File) (iov : List (List Byte)) (offset : Int) (resid : Nat)
    (append : Bool) : Option (Except Errno File) :=
  if file.vType = .VDIR then some (.error .EISDIR)
  else if file.vType ≠ .VREG then some (.error .EINVAL)
  else if offset < 0 then some (.error .EINVAL)
  else if resid = 0 then some (.ok file)
  else
    let offset := if append then (file.rnSize : Int) else offset
    proceed (expand fresh file offset resid) fun file =>
      (uiomove .UIO_WRITE file.rnBuf offset.toNat resid resid iov).map fun out => .ok { file with rnBuf := out.1 }

def sumLengths : Nat → List (List Byte) → Option Nat
  | bytes,[] => some bytes
  | bytes,v::iov => if v.length > iosizeMax - bytes then none else sumLengths (bytes + v.length) iov

def sysRead (file : File) (iov : List (List Byte)) (offset : Int) : Option (Except Errno (List Byte)) :=
  match sumLengths 0 iov with
  | none => some (.error .EINVAL)
  | some bytes => if bytes = 0 then some (.ok []) else ramfsRead file iov offset bytes

def sysWrite (fresh : Nat → Byte) (file : File) (iov : List (List Byte)) (offset : Int) (append : Bool) :
    Option (Except Errno File) :=
  match sumLengths 0 iov with
  | none => some (.error .EINVAL)
  | some bytes => if bytes = 0 then some (.ok file) else ramfsWrite fresh file iov offset bytes append

inductive Op where
  | write (iov : List (List Byte)) (offset : Int) (append : Bool)
  | truncate (length : Int)

def exec (fresh : Nat → Byte) (file : File) : Op → Option (Except Errno File)
  | .write iov offset append => sysWrite fresh file iov offset append
  | .truncate length => ramfsTruncate fresh file length

/-! The abstract file: what was written and cut off, the latest first. -/

inductive Event where
  | wrote (offset : Nat) (data : List Byte)
  | truncated (length : Nat)

def byteAt : List Event → Nat → Byte
  | [],_ => 0
  | .wrote offset data::before,i =>
    if offset ≤ i ∧ i < offset + data.length then data.getD (i - offset) 0 else byteAt before i
  | .truncated length::before,i => if length ≤ i then 0 else byteAt before i

def sizeOf : List Event → Nat
  | [] => 0
  | .wrote offset data::before => if data = [] then sizeOf before else max (sizeOf before) (offset + data.length)
  | .truncated length::_ => length

def content (history : List Event) (offset n : Nat) : List Byte :=
  (List.range (min n (sizeOf history - offset))).map fun i => byteAt history (offset + i)

def record (history : List Event) : Op → List Event
  | .write iov offset append =>
    match sumLengths 0 iov with
    | none => history
    | some _ => .wrote (if append then sizeOf history else offset.toNat) iov.flatten::history
  | .truncate length => .truncated length.toNat::history

structure State where
  file : File
  history : List Event

structure Request where
  op : Op
  fresh : Nat → Byte

def step (s : State) (r : Request) : Option State :=
  (exec r.fresh s.file r.op).map fun out =>
    match out with
    | .ok file => ⟨file,record s.history r.op⟩
    | .error _ => s

/-! Lengths and the loop of uiomove. -/

variable {n : Nat} {append : Bool} {r : Request} {iov : List (List Byte)} {buf : Block}

open Block

lemma sumLengthsSome {bytes : Nat} (le : bytes ≤ iosizeMax)
    (sum : sumLengths bytes iov = some n) : n = bytes + iov.flatten.length ∧ n ≤ iosizeMax := by
  induction iov generalizing bytes with
  | nil =>
    cases sum
    exact ⟨rfl,le⟩
  | cons v iov ih => ?_
  obtain ⟨fits,sum⟩ := Option.ite_none_left_eq_some.mp sum
  obtain ⟨eq,small⟩ := ih (by omega) sum
  refine ⟨?_,small⟩
  rw [eq,flatten_cons,length_append]
  omega

lemma putAppend (b : Block) (cp : Nat) (v w : List Byte) : (b.put cp v).put (cp + v.length) w = b.put cp (v ++ w) := by
  simp only [put,mk.injEq,and_true,length_append]
  funext i
  by_cases first : i < cp + v.length
  · have inner : ¬ (cp + v.length ≤ i ∧ i < cp + v.length + w.length) := by omega
    rw [if_neg inner]
    by_cases here : cp ≤ i
    · rw [if_pos ⟨here,first⟩,if_pos (by omega),getD_append _ _ _ _ (by omega)]
    · rw [if_neg (by omega),if_neg (by omega)]
  rw [if_neg (c := cp ≤ i ∧ i < cp + v.length) (by omega)]
  by_cases here : i < cp + v.length + w.length
  · rw [if_pos (by omega),if_pos (by omega),getD_append_right _ _ _ _ (by omega)]
    congr 1
    omega
  · rw [if_neg (by omega),if_neg (by omega)]

lemma putNil (b : Block) (cp : Nat) : b.put cp [] = b := by
  simp only [put,length_nil,Nat.add_zero]
  have none : ∀ i, ¬ (cp ≤ i ∧ i < cp) := fun i => by omega
  simp [none]

lemma rangeSplit {β : Type} (f : Nat → β) {m : Nat} (le : m ≤ n) :
    (List.range m).map f ++ (List.range (n - m)).map (fun i => f (m + i)) = (List.range n).map f := by
  obtain ⟨k,rfl⟩ := Nat.exists_eq_add_of_le le
  rw [Nat.add_sub_cancel_left,range_add,map_append,map_map]
  rfl

lemma uiomoveReads {cp n resid : Nat} (enough : n ≤ iov.flatten.length) (left : n ≤ resid) :
    uiomove .UIO_READ buf cp n resid iov =
      if n = 0 ∨ cp + n ≤ buf.size then some (buf,(List.range n).map fun i => buf.bytes (cp + i)) else none := by
  induction iov generalizing cp n resid with
  | nil =>
    have zero : n = 0 := by simpa using enough
    subst zero
    rfl
  | cons v iov ih => ?_
  rw [flatten_cons,length_append] at enough
  unfold uiomove
  split
  · split
    · exact ih (by omega) left
    have rest := @ih (cp + min v.length n) (n - min v.length n) (resid - min v.length n) (by omega) (by omega)
    have all := rangeSplit (fun i => buf.bytes (cp + i)) (Nat.min_le_right v.length n)
    by_cases fits : cp + min v.length n ≤ buf.size
    · have same : (n - min v.length n = 0 ∨ cp + min v.length n + (n - min v.length n) ≤ buf.size) ↔
        n = 0 ∨ cp + n ≤ buf.size := by omega
      simp only [load,if_pos fits,Option.map_some,bind,Option.bind_some,rest,same]
      split
      · simp [← all,Nat.add_assoc]
      · rfl
    · rw [if_neg (by simp only [not_or]; omega)]
      simp [load,fits]
  have zero : n = 0 := by omega
  subst zero
  rfl

lemma uiomoveWrites {cp resid : Nat} (left : iov.flatten.length ≤ resid) :
    uiomove .UIO_WRITE buf cp iov.flatten.length resid iov =
      if iov.flatten.length = 0 ∨ cp + iov.flatten.length ≤ buf.size then some (buf.put cp iov.flatten,[]) else none := by
  induction iov generalizing buf cp resid with
  | nil => exact congrArg (fun b => some (b,[])) (putNil buf cp).symm
  | cons v iov ih => ?_
  have sum : (v::iov).flatten.length = v.length + iov.flatten.length := by rw [flatten_cons,length_append]
  rw [sum] at left ⊢
  unfold uiomove
  split
  next some =>
    split
    next empty =>
      have nil := length_eq_zero_iff.mp empty
      subst nil
      simpa using @ih buf cp resid (by omega)
    next full =>
      have whole : min v.length (v.length + iov.flatten.length) = v.length := by omega
      have rest := @ih (buf.put cp v) (cp + v.length) (resid - v.length) (by omega)
      rw [putAppend] at rest
      simp only [whole,take_length,Nat.add_sub_cancel_left,store,bind,flatten_cons]
      by_cases fits : cp + v.length ≤ buf.size
      · have same : (iov.flatten.length = 0 ∨ cp + v.length + iov.flatten.length ≤ (buf.put cp v).size) ↔
            v.length + iov.flatten.length = 0 ∨ cp + (v.length + iov.flatten.length) ≤ buf.size := by
          simp only [put]
          omega
        simp only [if_pos fits,Option.map_some,Option.bind_some,rest,same]
        split <;> rfl
      · rw [if_neg fits,if_neg (by simp only [not_or]; omega)]
        rfl
  next none =>
    have nil : (v::iov).flatten = [] := length_eq_zero_iff.mp (by omega)
    rw [nil,putNil,if_pos (.inl (by omega))]

/-! What the sizes of a file look like between two operations, and what each operation makes of them. -/

structure Shape (file : File) (n : Nat) : Prop where
  type : file.vType = .VREG
  vnode : file.vSize = n
  node : file.rnSize = n
  bufsize : file.rnBufsize = file.rnBuf.size
  inside : n ≤ file.rnBuf.size
  small : file.rnBuf.size < 2^63

variable {file : File} {n m t : Nat} {fresh : Nat → Byte} {iov : List (List Byte)} {offset length : Int}

lemma sizeTNat (small : n < 2^64) : sizeT n = n := by
  unfold sizeT
  omega

lemma offTNat (small : n < 2^63) : offT n = n := by
  rw [offT,bmod_def,if_pos (by omega)]
  omega

lemma roundPageBounds (n : Nat) : ∃ k : Nat, roundPage n = k ∧ n ≤ k ∧ k < n + 4096 := by
  refine ⟨(n + 4095) / 4096 * 4096,?_,by omega,by omega⟩
  unfold roundPage
  omega

def room (fresh : Nat → Byte) (file : File) (m : Nat) : Block :=
  if m ≤ file.rnBufsize then file.rnBuf
  else ⟨fun i => if i < file.rnSize then file.rnBuf.bytes i else fresh i,sizeT (roundPage m)⟩

lemma grows (shape : Shape file n) (more : file.rnBufsize < m) (fits : sizeT (roundPage m) < 2^63)
    (le : n ≤ sizeT (roundPage m)) : grow fresh file (sizeT (roundPage m)) =
      some (.ok { file with rnBuf := room fresh file m, rnBufsize := (room fresh file m).size }) := by
  have small := shape.small
  have inside := shape.inside
  have size : sizeT file.vSize = n := by rw [shape.vnode,sizeTNat (by omega)]
  simp only [grow,malloc,if_pos fits,room,if_neg (Nat.not_le_of_lt more)]
  split
  · rw [size,copy,if_pos ⟨le,inside⟩,shape.node]
    rfl
  rename_i zero
  have zero := Decidable.not_not.mp zero
  simp [zero,not_lt_zero,Option.map_some]

lemma sysReads (shape : Shape file n) (sum : sumLengths 0 iov = some t) (from0 : 0 ≤ offset) : sysRead file iov offset =
      some (.ok ((List.range (min t (n - offset.toNat))).map fun i => file.rnBuf.bytes (offset.toNat + i))) := by
  obtain ⟨eq,_⟩ := sumLengthsSome (zero_le _) sum
  have inside := shape.inside
  simp only [sysRead,sum,ramfsRead,shape.type,shape.vnode]
  split
  next zero => rw [zero,Nat.zero_min]; rfl
  rename_i some
  rw [if_neg (by decide),if_neg (by simp),if_neg (by omega)]
  split
  next past =>
    have none : n - offset.toNat = 0 := by omega
    rw [none,Nat.min_zero]
    rfl
  have len : (if (n : Int) - offset < t then ((n : Int) - offset).toNat else t) = min t (n - offset.toNat) := by
    split <;> omega
  rw [len,uiomoveReads (by omega) (by omega),if_pos (Or.inr (by omega))]
  rfl

lemma growsOrFails (shape : Shape file n) (more : file.rnBufsize < m) (bound : m < 2^63) :
    (grow fresh file (sizeT (roundPage m)) = some (.error .eio)) ∨
    (grow fresh file (sizeT (roundPage m)) =
        some (.ok { file with rnBuf := room fresh file m, rnBufsize := (room fresh file m).size }) ∧
      m ≤ (room fresh file m).size ∧ (room fresh file m).size < 2^63) := by
  obtain ⟨k,eq,le,near⟩ := roundPageBounds m
  have size : sizeT (roundPage m) = k := by rw [eq,sizeTNat (by omega)]
  by_cases fits : k < 2^63
  · have inside := shape.inside
    have same := shape.bufsize
    have big : (room fresh file m).size = k := by rw [room,if_neg (Nat.not_le_of_lt more)]; exact size
    exact .inr ⟨grows shape more (size ▸ fits) (by omega),by omega,by omega⟩
  left
  rw [size,grow,malloc,if_neg fits]

def resized (fresh : Nat → Byte) (file : File) (m : Nat) : File :=
  { file with vSize := m, rnSize := m, rnBuf := room fresh file m, rnBufsize := (room fresh file m).size }

lemma roomKept (enough : m ≤ file.rnBufsize) : room fresh file m = file.rnBuf := if_pos enough

lemma resizedShape (shape : Shape file n) (le : m ≤ (room fresh file m).size)
    (small : (room fresh file m).size < 2^63) : Shape (resized fresh file m) m :=
  ⟨shape.type,rfl,rfl,rfl,le,small⟩

lemma resizes (fresh : Nat → Byte) (shape : Shape file n) (bound : m < 2^63) :
    (if m > file.rnBufsize then grow fresh file (sizeT (roundPage m)) else some (.ok file)) = some (.error .eio) ∨
    ((if m > file.rnBufsize then grow fresh file (sizeT (roundPage m)) else some (.ok file)) =
        some (.ok { file with rnBuf := room fresh file m, rnBufsize := (room fresh file m).size }) ∧
      Shape (resized fresh file m) m) := by
  by_cases more : file.rnBufsize < m
  · rw [if_pos more]
    rcases growsOrFails shape more bound with fails | ⟨grown,le,small⟩
    · exact .inl fails
    · exact .inr ⟨grown,resizedShape shape le small⟩
  have kept : room fresh file m = file.rnBuf := roomKept (Nat.not_lt.mp more)
  rw [if_neg more]
  refine .inr ⟨?_,resizedShape shape ?_ ?_⟩
  · rw [kept,← shape.bufsize]
  · rw [kept,← shape.bufsize]
    exact Nat.not_lt.mp more
  rw [kept]
  exact shape.small

lemma expands (fresh : Nat → Byte) (shape : Shape file n) (bound : m + t < 2^63) :
    expand fresh file m t = some (.error .eio) ∨
    (expand fresh file m t = some (.ok (if m + t ≤ n then file else resized fresh file (m + t))) ∧
      Shape (if m + t ≤ n then file else resized fresh file (m + t)) (max n (m + t))) := by
  have small := shape.small
  have inside := shape.inside
  have cast : (m : Int) + t = ((m + t : Nat) : Int) := by omega
  simp only [expand,cast,shape.vnode]
  rw [sizeTNat (n := n) (by omega),sizeTNat (n := m + t) (by omega),offTNat bound,
    offTNat (by rw [shape.bufsize]; exact small),sizeTNat (n := m + t) (by omega)]
  by_cases more : n < m + t
  · rw [if_pos more,if_neg (Nat.not_le_of_lt more),Nat.max_eq_right (Nat.le_of_lt more)]
    simp only [gt_iff_lt,ofNat_lt]
    rcases resizes fresh shape bound with fails | ⟨grown,shaped⟩
    · exact .inl (by rw [fails]; rfl)
    · exact .inr ⟨by rw [grown]; rfl,shaped⟩
  have le := Nat.not_lt.mp more
  rw [if_neg more,if_pos le,Nat.max_eq_left le]
  exact .inr ⟨rfl,shape⟩

lemma truncates (fresh : Nat → Byte) (shape : Shape file n) (bound : m < 2^63) :
    ramfsTruncate fresh file m = some (.error .eio) ∨
    ∃ cut : File, ramfsTruncate fresh file m = some (.ok cut) ∧ Shape cut m ∧
      ∀ i < m, cut.rnBuf.bytes i = (room fresh file m).bytes i := by
  unfold ramfsTruncate
  by_cases zero : m = 0
  · subst zero
    refine .inr ⟨{ file with rnSize := 0, vSize := 0, rnBuf := ⟨file.rnBuf.bytes,0⟩, rnBufsize := 0 },rfl,?_,?_⟩
    · exact ⟨shape.type,rfl,rfl,rfl,Nat.le_refl 0,Nat.two_pow_pos 63⟩
    · exact fun i lt => absurd lt (not_lt_zero i)
  rw [if_neg (by omega),sizeTNat (n := m) (by omega)]
  rcases resizes fresh shape bound with fails | ⟨grown,shaped⟩
  · exact .inl (by rw [fails]; rfl)
  · exact .inr ⟨resized fresh file m,by rw [grown]; rfl,shaped,fun i _ => rfl⟩

def start (file : File) (offset : Int) (append : Bool) : Nat := if append then file.rnSize else offset.toNat

lemma startCast (from0 : 0 ≤ offset) : (if append then (file.rnSize : Int) else offset) = (start file offset append : Nat) := by
  unfold start
  split <;> omega

lemma writes (fresh : Nat → Byte) (shape : Shape file n) (sum : sumLengths 0 iov = some t)
    (some : 0 < t) (from0 : 0 ≤ offset)
    (bound : start file offset append + t < 2^63) :
    sysWrite fresh file iov offset append = Option.some (.error .eio) ∨
    ∃ out : File, sysWrite fresh file iov offset append = Option.some (.ok out) ∧
      Shape out (max n (start file offset append + t)) ∧
      out.rnBuf = (if start file offset append + t ≤ n then file.rnBuf
        else room fresh file (start file offset append + t)).put (start file offset append) iov.flatten := by
  obtain ⟨eq,_⟩ := sumLengthsSome (zero_le _) sum
  have len : iov.flatten.length = t := by omega
  simp only [sysWrite,sum,if_neg (Nat.ne_of_gt some),ramfsWrite,shape.type,startCast from0,toNat_natCast]
  rw [if_neg (by decide),if_neg (by simp),if_neg (by omega)]
  generalize start file offset append = at' at bound ⊢
  rcases expands fresh shape bound with fails | ⟨made,shaped⟩
  · exact .inl (by rw [fails]; rfl)
  right
  have inside := shaped.inside
  subst len
  refine ⟨_,by rw [made]; simp only [proceed]; rw [uiomoveWrites (Nat.le_refl _),if_pos (Or.inr (by omega))]; rfl,?_,?_⟩
  · exact ⟨shaped.type,shaped.vnode,shaped.node,shaped.bufsize,shaped.inside,shaped.small⟩
  · split <;> rfl

lemma offTWraps (low : 2^63 ≤ n) (high : n < 2^64) : offT n < 0 := by
  rw [offT,bmod_def,if_neg (by omega)]
  omega

lemma expandWraps (fresh : Nat → Byte) (shape : Shape file n) (low : 2^63 ≤ m + t) (high : m + t < 2^64) :
    ∃ size rn, expand fresh file m t = some (.ok { file with vSize := size, rnSize := rn }) := by
  have small := shape.small
  have inside := shape.inside
  have cast : (m : Int) + t = ((m + t : Nat) : Int) := by omega
  have wraps := offTWraps low high
  have more : sizeT ((m + t : Nat) : Int) > sizeT file.vSize := by
    rw [shape.vnode,sizeTNat high,sizeTNat (n := n) (by omega)]
    omega
  have less : ¬ offT ((m + t : Nat) : Int) > offT file.rnBufsize := by
    rw [shape.bufsize,offTNat small]
    omega
  refine ⟨offT ((m + t : Nat) : Int),sizeT (offT ((m + t : Nat) : Int)),?_⟩
  rw [expand,cast,if_pos more]
  change proceed (if offT ((m + t : Nat) : Int) > offT file.rnBufsize then _ else _) _ = _
  rw [if_neg less]
  rfl

lemma overflows (shape : Shape file n) (sum : sumLengths 0 iov = some t) (some : 0 < t) (from0 : 0 ≤ offset)
    (low : 2^63 ≤ start file offset append + t) (fits : start file offset append < 2^63) :
    sysWrite fresh file iov offset append = none := by
  obtain ⟨eq,le⟩ := sumLengthsSome (zero_le _) sum
  have len : iov.flatten.length = t := by omega
  have small := shape.small
  have high : start file offset append + t < 2^64 := by
    unfold iosizeMax at le
    omega
  simp only [sysWrite,sum,if_neg (Nat.ne_of_gt some),ramfsWrite,shape.type,startCast from0,toNat_natCast]
  rw [if_neg (by decide),if_neg (by simp),if_neg (by omega)]
  obtain ⟨size,rn,made⟩ := expandWraps fresh shape low high
  rw [made]
  simp only [proceed]
  rw [← len,uiomoveWrites (Nat.le_refl _),if_neg (by simp only [not_or]; omega)]
  rfl

/-! The condition, and what it is about: the bytes between the old end of the file and the new one
that the operation does not write. -/

def exposed (fresh : Nat → Byte) (file : File) (m i : Nat) : Byte :=
  if m ≤ file.rnBufsize then file.rnBuf.bytes i else fresh i

def ZeroGap (fresh : Nat → Byte) (file : File) (upto m : Nat) : Prop :=
  ∀ i < upto, file.rnSize ≤ i → exposed fresh file m i = 0

def CleanWrite (fresh : Nat → Byte) (file : File) (start : Nat) : Option Nat → Prop
  | none => True
  | some n => n = 0 ∨ (start + n < 2^63 ∧ ZeroGap fresh file start (start + n))

def Clean (s : State) (r : Request) : Prop :=
  match r.op with
  | .write iov offset append => CleanWrite r.fresh s.file (start s.file offset append) (sumLengths 0 iov)
  | .truncate length => ZeroGap r.fresh s.file length.toNat length.toNat

def outOfMemory : Option (Except Errno File) → Bool
  | some (.error .eio) => true
  | _ => false

def InRange : Op → Prop
  | .write _ offset _ => 0 ≤ offset ∧ offset < 2^63
  | .truncate length => 0 ≤ length ∧ length < 2^63

/-- Offsets and lengths are non-negative off_t values and no allocation fails. -/
def Legal (s : State) (r : Request) : Prop := InRange r.op ∧ outOfMemory (exec r.fresh s.file r.op) = false

def Start (s : State) : Prop := s.file.vType = .VREG ∧ s.file.vSize = 0 ∧ s.file.rnSize = 0 ∧ s.file.rnBuf.size = 0 ∧
  s.file.rnBufsize = 0 ∧ s.history = []

def Reads (s : State) : Prop :=
  ∀ iov offset n, sumLengths 0 iov = some n → 0 ≤ offset →
    sysRead s.file iov offset = some (.ok (content s.history offset.toNat n))

variable {s : State}

lemma readsIff (shape : Shape s.file (sizeOf s.history)) :
    Reads s ↔ ∀ i < sizeOf s.history, s.file.rnBuf.bytes i = byteAt s.history i := by
  constructor
  · intro reads i lt
    have one : sumLengths 0 [[0]] = some 1 := by decide
    have read := reads [[0]] i 1 one (natCast_nonneg i)
    rw [sysReads shape one (natCast_nonneg i),content] at read
    have len : min 1 (sizeOf s.history - i) = 1 := by omega
    simpa [len] using read
  intro same iov offset n sum from0
  rw [sysReads shape sum from0,content]
  refine congrArg (fun l => some (Except.ok l)) (map_congr_left fun i mem => ?_)
  have lt := mem_range.mp mem
  exact same _ (by omega)

lemma byteAtPast {history : List Event} {i : Nat} (past : sizeOf history ≤ i) : byteAt history i = 0 := by
  induction history with
  | nil => rfl
  | cons e before ih => ?_
  cases e with
  | truncated length => exact if_pos past
  | wrote offset data => ?_
  simp only [sizeOf] at past
  split at past
  next nil =>
    subst nil
    rw [byteAt,if_neg (by simp only [length_nil]; omega)]
    exact ih past
  rw [byteAt,if_neg (by omega)]
  exact ih (by omega)

lemma roomBytes (fresh : Nat → Byte) (shape : Shape file n) (m i : Nat) :
    (room fresh file m).bytes i = if i < n then file.rnBuf.bytes i else exposed fresh file m i := by
  simp only [room,exposed,shape.node]
  split
  · split <;> rfl
  · rfl

def Follows (s : State) (r : Request) : Prop :=
  ((∃ t, step s r = some t ∧ Reads t) ↔ Clean s r) ∧ ∀ t, step s r = some t → Clean s r → Shape t.file (sizeOf t.history)

lemma followsTo {t : State} (taken : step s r = some t) (shape : Shape t.file (sizeOf t.history))
    (iff : (∀ i < sizeOf t.history, t.file.rnBuf.bytes i = byteAt t.history i) ↔ Clean s r) : Follows s r := by
  rw [← readsIff shape] at iff
  refine ⟨⟨?_,fun clean => ⟨t,taken,iff.mpr clean⟩⟩,?_⟩
  · rintro ⟨u,there,reads⟩
    cases taken.symm.trans there
    exact iff.mp reads
  intro u there _
  cases taken.symm.trans there
  exact shape

section
variable (shape : Shape s.file (sizeOf s.history))
include shape

lemma truncateFollows (reads : Reads s)
    (legal : Legal s ⟨.truncate length,fresh⟩) : Follows s ⟨.truncate length,fresh⟩ := by
  have same := (readsIff shape).mp reads
  obtain ⟨⟨from0,bound⟩,ok⟩ := legal
  obtain ⟨m,rfl⟩ := eq_ofNat_of_zero_le from0
  rcases truncates fresh shape (m := m) (by omega) with fails | ⟨cut,done,shaped,bytes⟩
  · cases ok.symm.trans (congrArg outOfMemory fails)
  refine followsTo (t := ⟨cut,.truncated m::s.history⟩) ?_ shaped ?_
  · simp [step,exec,done,Option.map_some,record,toNat_natCast]
  have value : ∀ i < m, byteAt (.truncated m::s.history) i = byteAt s.history i := fun i lt => if_neg (by omega)
  simp only [Clean,ZeroGap,sizeOf,toNat_natCast,shape.node]
  constructor
  · intro all i lt past
    have here := all i lt
    rw [bytes i lt,roomBytes fresh shape,if_neg (by omega),value i lt,byteAtPast past] at here
    exact here
  intro zero i lt
  rw [bytes i lt,roomBytes fresh shape,value i lt]
  split
  next old => exact same i old
  next new => rw [zero i lt (Nat.not_lt.mp new),byteAtPast (Nat.not_lt.mp new)]

lemma wroteBytes {out : File} (same : ∀ i < sizeOf s.history, s.file.rnBuf.bytes i = byteAt s.history i) (more : n ≠ 0)
    (len : iov.flatten.length = n) (sum : sumLengths 0 iov = some n) (fits : start s.file offset append + n < 2^63)
    (bytes : out.rnBuf = (if start s.file offset append + n ≤ sizeOf s.history then s.file.rnBuf
      else room fresh s.file (start s.file offset append + n)).put (start s.file offset append) iov.flatten) :
    (∀ i < max (sizeOf s.history) (start s.file offset append + n),
      out.rnBuf.bytes i = byteAt (.wrote (start s.file offset append) iov.flatten::s.history) i) ↔
    Clean s ⟨.write iov offset append,fresh⟩ := by
  simp only [Clean,CleanWrite,sum,more,false_or,fits,true_and,ZeroGap,bytes,shape.node]
  generalize start s.file offset append = at' at *
  simp only [put,byteAt]
  constructor
  · intro all i lt past
    have here := all i (by omega)
    rw [if_neg (by omega),if_neg (by omega),if_neg (by omega),roomBytes fresh shape,if_neg (by omega),
      byteAtPast past] at here
    exact here
  intro zero i lt
  by_cases inside : at' ≤ i ∧ i < at' + iov.flatten.length
  · rw [if_pos inside,if_pos inside]
  rw [if_neg inside,if_neg inside]
  split
  · exact same i (by omega)
  rw [roomBytes fresh shape]
  split
  next old => exact same i old
  next new => rw [zero i (by omega) (Nat.not_lt.mp new),byteAtPast (Nat.not_lt.mp new)]

lemma writeFollows (reads : Reads s)
    (legal : Legal s ⟨.write iov offset append,fresh⟩) : Follows s ⟨.write iov offset append,fresh⟩ := by
  have same := (readsIff shape).mp reads
  obtain ⟨⟨from0,bound⟩,ok⟩ := legal
  rcases sum : sumLengths 0 iov with _ | n
  · refine followsTo (t := s) ?_ shape ?_
    · simp [step,exec,sysWrite,sum,Option.map_some]
    · simp only [Clean,CleanWrite,sum,iff_true]
      exact same
  obtain ⟨eq,small⟩ := sumLengthsSome (zero_le _) sum
  have len : iov.flatten.length = n := by omega
  have begins : (if append then sizeOf s.history else offset.toNat) = start s.file offset append := by
    rw [start,shape.node]
  by_cases zero : n = 0
  · subst zero
    have nil := length_eq_zero_iff.mp len
    refine followsTo (t := ⟨s.file,.wrote (start s.file offset append) []::s.history⟩) ?_ ?_ ?_
    · simp [step,exec,sysWrite,sum,Option.map_some,record,nil,begins]
    · exact shape
    simp only [Clean,CleanWrite,sum,true_or,iff_true,sizeOf,if_true]
    intro i lt
    rw [byteAt,if_neg (by simp only [length_nil]; omega)]
    exact same i lt
  by_cases fits : start s.file offset append + n < 2^63
  · rcases writes fresh shape sum (Nat.pos_of_ne_zero zero) from0 fits with fails | ⟨out,done,shaped,bytes⟩
    · cases ok.symm.trans (congrArg outOfMemory fails)
    · refine followsTo (t := ⟨out,.wrote (start s.file offset append) iov.flatten::s.history⟩) ?_ ?_ ?_
      · simp [step,exec,done,Option.map_some,record,sum,begins]
      · have some : iov.flatten ≠ [] := fun nil => zero (by rw [← len,nil]; rfl)
        simp only [sizeOf,if_neg some,len]
        exact shaped
      · simp only [sizeOf,if_neg (show iov.flatten ≠ [] from fun nil => zero (by rw [← len,nil]; rfl)),len]
        exact wroteBytes shape same zero len sum fits bytes
  have stuck : step s ⟨.write iov offset append,fresh⟩ = none := by
    simp only [step,exec]
    rw [overflows shape sum (Nat.pos_of_ne_zero zero) from0 (by omega)]
    · rfl
    have inside := shape.inside
    have limit := shape.small
    rw [start,shape.node]
    split <;> omega
  refine ⟨⟨?_,?_⟩,fun t taken => nomatch stuck.symm.trans taken⟩
  · rintro ⟨t,taken,_⟩
    cases stuck.symm.trans taken
  simp only [Clean,CleanWrite,sum]
  rintro (here | ⟨lt,_⟩)
  · exact absurd here zero
  exact absurd lt fits

lemma follows (reads : Reads s) (legal : Legal s r) : Follows s r := by
  obtain ⟨op,fresh⟩ := r
  cases op with
  | write iov offset append => exact writeFollows shape reads legal
  | truncate length => exact truncateFollows shape reads legal

end

def Careful (s : State) (r : Request) : Prop := Legal s r ∧ Clean s r

lemma carefulReads (reach : Reach step Careful Start s) : Shape s.file (sizeOf s.history) ∧ Reads s := by
  refine invariant (P := fun s => Shape s.file (sizeOf s.history) ∧ Reads s) ?_ ?_ reach
  · rintro ⟨file,history⟩ ⟨type,vnode,node,size,bufsize,rfl⟩
    have small : file.rnBuf.size < 2^63 := by rw [size]; exact Nat.two_pow_pos 63
    have shape : Shape file 0 := ⟨type,vnode,node,by rw [size,bufsize],zero_le _,small⟩
    exact ⟨shape,(readsIff shape).mpr fun i lt => absurd lt (not_lt_zero i)⟩
  rintro s r t ⟨shape,reads⟩ ⟨legal,clean⟩ taken
  obtain ⟨iff,shaped⟩ := follows shape reads legal
  obtain ⟨u,there,right⟩ := iff.mpr clean
  cases taken.symm.trans there
  exact ⟨shaped t taken clean,right⟩

theorem contentsRead (reach : Reach step Careful Start s) :
    Reads s ∧ ∀ r, Legal s r → ((∃ t, step s r = some t ∧ Reads t) ↔ Clean s r) := by
  obtain ⟨shape,reads⟩ := carefulReads reach
  exact ⟨reads,fun r legal => (follows shape reads legal).1⟩

instance (fresh : Nat → Byte) (file : File) (upto m : Nat) : Decidable (ZeroGap fresh file upto m) := by
  unfold ZeroGap
  infer_instance

instance (fresh : Nat → Byte) (file : File) (start : Nat) : ∀ n, Decidable (CleanWrite fresh file start n)
  | none => .isTrue trivial
  | some n => inferInstanceAs (Decidable (n = 0 ∨ (start + n < 2^63 ∧ ZeroGap fresh file start (start + n))))

instance (s : State) : ∀ r, Decidable (Clean s r)
  | ⟨.write iov offset append,fresh⟩ =>
    inferInstanceAs (Decidable (CleanWrite fresh s.file (start s.file offset append) (sumLengths 0 iov)))
  | ⟨.truncate length,fresh⟩ => inferInstanceAs (Decidable (ZeroGap fresh s.file length.toNat length.toNat))

instance : ∀ op, Decidable (InRange op)
  | .write _ offset _ => inferInstanceAs (Decidable (0 ≤ offset ∧ offset < 2^63))
  | .truncate length => inferInstanceAs (Decidable (0 ≤ length ∧ length < 2^63))

instance (s : State) (r : Request) : Decidable (Legal s r) := by
  unfold Legal
  infer_instance

instance (s : State) (r : Request) : Decidable (Careful s r) := by
  unfold Careful
  infer_instance

def emptyFile : State := ⟨⟨.VREG,0,0,⟨fun _ => 0,0⟩,0⟩,[]⟩
def dirty : Nat → Byte := fun _ => 1

lemma emptyStarts : Start emptyFile := ⟨rfl,rfl,rfl,rfl,rfl,rfl⟩

def shrinkAppend : List Request :=
  [⟨.write [[7,8],[],[9]] 0 false,dirty⟩,⟨.truncate 1,dirty⟩,⟨.write [[5]] 100 true,dirty⟩]

theorem contentsReadAppended : Reach step Careful Start (final step Careful emptyFile shrinkAppend) ∧
    sysRead (final step Careful emptyFile shrinkAppend).file [[0,0],[0]] 0 = some (.ok [7,5]) := by
  have reach : Reach step Careful Start (final step Careful emptyFile shrinkAppend) :=
    reachFinal shrinkAppend emptyStarts (by decide)
  exact ⟨reach,(contentsRead reach).1 [[0,0],[0]] 0 3 (by decide) (by decide)⟩

def hole : List Request := [⟨.write [[5]] 1 false,dirty⟩]

theorem contentsNotRead : ∃ s, Reach step Legal Start s ∧ ¬ Reads s := by
  refine ⟨final step Legal emptyFile hole,reachFinal hole emptyStarts (by decide),?_⟩
  intro reads
  have read := reads [[0]] 0 1 (by decide) (by decide)
  exact absurd read (by decide)

end OsvKernel.RamfsFile
