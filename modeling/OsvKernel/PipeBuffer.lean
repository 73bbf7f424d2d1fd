import OsvKernel.Runs
import OsvKernel.Sleepers

/-! The buffer of a pipe: read, write and the two detach calls. A critical section under mtx is one step; the
wake_all that follows the unlock is another. Calls are named by C, each name used once. A uio comes with
uio_resid equal to the sum of its iov_len. accepted and delivered record what was moved, in order, and by whom. -/
namespace OsvKernel.PipeBuffer
open List Function Runs

abbrev Byte := UInt8
def maxBuf : Nat := 8192
def pipeBuf : Nat := 4096

def copyToUio : List Nat → List Byte → Nat → List (List Byte) × List Byte × Nat
  | [],q,resid => ([],q,resid)
  | len::lens,q,resid =>
    if q.isEmpty then ([],q,resid)
    else
      let n := min q.length len
      let later := copyToUio lens (q.drop n) (resid - n)
      (q.take n::later.1,later.2)

structure Copied where
  buf : List Byte
  ind : Nat
  offset : Nat
  resid : Nat

def copyFromUio (bufsize : Nat) : List (List Byte) → Nat → Nat → List Byte → Nat → Copied
  | [],ind,offset,buf,resid => ⟨buf,ind,offset,resid⟩
  | iov::rest,ind,offset,buf,resid =>
    if buf.length < bufsize then
      let n := min (bufsize - buf.length) (iov.length - offset)
      let buf' := buf ++ (iov.drop offset).take n
      if offset + n = iov.length then copyFromUio bufsize rest (ind + 1) 0 buf' (resid - n)
      -- n was all the room there was, so the loop ends
      else ⟨buf',ind,offset + n,resid - n⟩
    else ⟨buf,ind,offset,resid⟩

inductive Ret
  | ok
  | again
  | pipe
  deriving DecidableEq

inductive Stage
  | asleep
  | woken
  | waking
  | failed
  | done (ret : Ret)
  deriving DecidableEq

structure Reader where
  lens : List Nat
  resid : Nat
  filled : List (List Byte)
  stage : Stage
  deriving DecidableEq

structure Writer where
  iov : List (List Byte)
  resid : Nat
  ind : Nat
  offset : Nat
  copying : Bool
  stage : Stage
  deriving DecidableEq

inductive Call
  | new
  | reader (r : Reader)
  | writer (w : Writer)
  deriving DecidableEq

def Call.wakeReader : Call → Call
  | .reader r => .reader (if r.stage = .asleep then { r with stage := .woken } else r)
  | call => call

def Call.wakeWriter : Call → Call
  | .writer w => .writer (if w.stage = .asleep then { w with stage := .woken } else w)
  | call => call

structure State (C : Type) where
  q : List Byte
  sender : Bool
  receiver : Bool
  calls : C → Call
  accepted : List (C × Byte)
  delivered : List (C × Byte)

section
variable {C : Type} [DecidableEq C]

def State.set (s : State C) (c : C) (call : Call) : State C := { s with calls := Function.update s.calls c call }
def wakeReaders (s : State C) : State C := { s with calls := fun c => (s.calls c).wakeReader }
def wakeWriters (s : State C) : State C := { s with calls := fun c => (s.calls c).wakeWriter }
def tag (c : C) (bytes : List Byte) : List (C × Byte) := bytes.map (c,·)
def detachSender (s : State C) : State C := if s.sender then wakeReaders { s with sender := false } else s
def detachReceiver (s : State C) : State C := if s.receiver then wakeWriters { s with receiver := false } else s

def readLocked (s : State C) (c : C) (r : Reader) : State C :=
  if s.sender ∧ s.q.isEmpty then s.set c (.reader { r with stage := .asleep })
  else if s.q.isEmpty then s.set c (.reader { r with stage := .done .ok })
  else
    let moved := copyToUio r.lens s.q r.resid
    let took := { s with q := moved.2.1, delivered := s.delivered ++ tag c moved.1.flatten }
    took.set c (.reader { r with filled := moved.1, resid := moved.2.2, stage := .waking })

def read (s : State C) (c : C) (lens : List Nat) (nonblock : Bool) : State C :=
  let r : Reader := ⟨lens,lens.sum,[],.done .ok⟩
  if r.resid = 0 then s.set c (.reader r)
  else if nonblock ∧ s.q.isEmpty then s.set c (.reader { r with stage := .done (if s.sender then .again else .ok) })
  else readLocked s c r

def needroom (resid : Nat) : Nat := if resid ≤ pipeBuf then resid else 1

def writeParts (s : State C) (c : C) (w : Writer) (nonblock : Bool) : State C :=
  if w.resid ≠ 0 ∧ s.receiver then
    let k := copyFromUio maxBuf (w.iov.drop w.ind) w.ind w.offset s.q w.resid
    let put := { s with q := k.buf, accepted := s.accepted ++ tag c (k.buf.drop s.q.length) }
    let w := { w with resid := k.resid, ind := k.ind, offset := k.offset, copying := true }
    if k.resid ≠ 0 then
      if k.buf.length = maxBuf then
        (wakeReaders put).set c (.writer { w with stage := if nonblock then .done .ok else .asleep })
      else put.set c (.writer { w with stage := .failed })
    else put.set c (.writer { w with stage := .waking })
  else s.set c (.writer { w with stage := .waking })

def writeRoom (s : State C) (c : C) (w : Writer) : State C :=
  if s.receiver ∧ maxBuf < s.q.length + needroom w.resid then s.set c (.writer { w with stage := .asleep })
  else if !s.receiver then s.set c (.writer { w with stage := .done .pipe })
  else writeParts s c w false

def writeResume (s : State C) (c : C) (w : Writer) : State C :=
  if s.receiver ∧ s.q.length = maxBuf then s.set c (.writer { w with stage := .asleep })
  else writeParts s c w false

def write (s : State C) (c : C) (iov : List (List Byte)) (nonblock : Bool) : State C :=
  let w : Writer := ⟨iov,iov.flatten.length,0,0,false,.done .ok⟩
  if w.resid = 0 then s.set c (.writer w)
  else if nonblock then
    if !s.receiver then s.set c (.writer { w with stage := .done .pipe })
    else if maxBuf < s.q.length + needroom w.resid then s.set c (.writer { w with stage := .done .again })
    else writeParts s c w true
  else writeRoom s c w

inductive Action (C : Type)
  | read (c : C) (lens : List Nat) (nonblock : Bool)
  | write (c : C) (iov : List (List Byte)) (nonblock : Bool)
  | run (c : C)
  | wakeAll (c : C)
  | detachSender
  | detachReceiver

def resume (s : State C) (c : C) : Option (State C) :=
  match s.calls c with
  | .reader r => if r.stage = .woken then some (readLocked s c r) else none
  | .writer w =>
    if w.stage = .woken then some (if w.copying then writeResume s c w else writeRoom s c w) else none
  | .new => none

def wakeAll (s : State C) (c : C) : Option (State C) :=
  match s.calls c with
  | .reader r => if r.stage = .waking then some ((wakeWriters s).set c (.reader { r with stage := .done .ok })) else none
  | .writer w => if w.stage = .waking then some ((wakeReaders s).set c (.writer { w with stage := .done .ok })) else none
  | .new => none

def step (s : State C) : Action C → Option (State C)
  | .read c lens nonblock => if s.calls c = .new then some (read s c lens nonblock) else none
  | .write c iov nonblock => if s.calls c = .new then some (write s c iov nonblock) else none
  | .run c => resume s c
  | .wakeAll c => wakeAll s c
  | .detachSender => some (detachSender s)
  | .detachReceiver => some (detachReceiver s)

def start : State C := ⟨[],true,true,fun _ => .new,[],[]⟩
def Reach : State C → Prop := Runs.Reach step (fun _ _ => True) (· = start)

/-! What holds. -/

def bytesOf (c : C) (log : List (C × Byte)) : List Byte := (log.filter fun e => e.1 = c).map Prod.snd

def Contiguous (c : C) (bytes : List Byte) (log : List (C × Byte)) : Prop :=
  ∃ before after, log = before ++ tag c bytes ++ after ∧ bytesOf c before = [] ∧ bytesOf c after = []

end

/-! The two copy loops. -/

open Call

lemma copyToUioTakes (lens : List Nat) (q : List Byte) (resid : Nat) (enough : lens.sum ≤ resid) :
    (copyToUio lens q resid).1.flatten = q.take lens.sum ∧ (copyToUio lens q resid).2.1 = q.drop lens.sum ∧
      (copyToUio lens q resid).2.2 + (q.take lens.sum).length = resid := by
  induction lens generalizing q resid with
  | nil => simp [copyToUio]
  | cons len lens ih => ?_
  rw [sum_cons] at enough
  unfold copyToUio
  split
  next empty =>
    rw [isEmpty_iff.mp empty]
    simp
  have taken : q.take (min q.length len) = q.take len := by
    rw [take_eq_take_iff]
    omega
  have dropped : q.drop (min q.length len) = q.drop len := by
    rcases Nat.le_total q.length len with short | long
    · rw [Nat.min_eq_left short,drop_length,drop_eq_nil_of_le short]
    · rw [Nat.min_eq_right long]
  obtain ⟨filled,rest,left⟩ := ih (q.drop len) (resid - min q.length len) (by omega)
  simp only [dropped,taken,flatten_cons,sum_cons,filled,rest,drop_drop,take_add,
    length_append,length_take,length_drop,true_and] at left ⊢
  omega

def remaining (iov : List (List Byte)) (ind offset : Nat) : List Byte := (iov.drop ind).flatten.drop offset

structure Moves (bufsize : Nat) (iov : List (List Byte)) (ind offset : Nat) (buf : List Byte) (resid : Nat) (k : Copied)
    (moved : List Byte) : Prop where
  buf : k.buf = buf ++ moved
  resid : k.resid + moved.length = resid
  rest : remaining iov ind offset = moved ++ remaining iov k.ind k.offset
  fits : k.offset ≤ ((iov.drop k.ind).headD []).length
  bound : k.buf.length ≤ bufsize
  full : remaining iov k.ind k.offset = [] ∨ k.buf.length = bufsize

lemma copyFromUioMoves {bufsize : Nat} {iov : List (List Byte)} {ind offset : Nat} {buf : List Byte} {resid : Nat}
    (fits : offset ≤ ((iov.drop ind).headD []).length) (enough : (remaining iov ind offset).length ≤ resid)
    (bound : buf.length ≤ bufsize) :
    ∃ moved, Moves bufsize iov ind offset buf resid (copyFromUio bufsize (iov.drop ind) ind offset buf resid) moved := by
  -- on the areas that are left
  obtain ⟨rest,eq⟩ : ∃ rest, iov.drop ind = rest := ⟨_,rfl⟩
  induction rest generalizing ind offset buf resid with
  | nil =>
    rw [eq,copyFromUio]
    have none : remaining iov ind offset = [] := by simp [remaining,eq]
    exact ⟨[],by simp,by simp,by simp,fits,bound,.inl none⟩
  | cons area rest ih => ?_
  rw [eq,copyFromUio]
  have tail : iov.drop (ind + 1) = rest := by
    rw [← drop_drop,eq]
    rfl
  have here : remaining iov ind offset = area.drop offset ++ remaining iov (ind + 1) 0 := by
    rw [eq,headD_cons] at fits
    rw [remaining,remaining,tail,eq,flatten_cons,drop_append_of_le_length fits,drop_zero]
  split
  next room =>
    dsimp only
    obtain ⟨n,small⟩ : ∃ n, n = min (bufsize - buf.length) (area.length - offset) := ⟨_,rfl⟩
    rw [← small]
    rw [eq,headD_cons] at fits
    have len : ((area.drop offset).take n).length = n := by
      rw [length_take,length_drop]
      omega
    have left : (area.drop offset).length + (remaining iov (ind + 1) 0).length ≤ resid := by
      rw [← length_append,← here]
      exact enough
    rw [length_drop] at left
    split
    next done =>
      have all : (area.drop offset).take n = area.drop offset := by
        apply take_of_length_le
        rw [length_drop]
        omega
      rw [all] at len ⊢
      obtain ⟨moved,buf,res,rest,fits,bound,full⟩ := @ih (ind + 1) 0 (buf ++ area.drop offset) (resid - n)
        (Nat.zero_le _) (by omega) (by rw [length_append]; omega) tail
      rw [tail] at buf res rest fits bound full
      refine ⟨area.drop offset ++ moved,?_,?_,?_,fits,bound,full⟩
      · rw [buf,append_assoc]
      · rw [length_append]
        omega
      · rw [here,rest,append_assoc]
    rename_i part
    have later : remaining iov ind (offset + n) = (area.drop offset).drop n ++ remaining iov (ind + 1) 0 := by
      rw [drop_drop,remaining,remaining,tail,eq,flatten_cons,drop_append_of_le_length (by omega), drop_zero]
    refine ⟨(area.drop offset).take n,rfl,?_,?_,?_,?_,?_⟩
    · dsimp only
      omega
    · rw [here,later,← append_assoc,take_append_drop]
    · rw [eq,headD_cons]
      dsimp only
      omega
    · rw [length_append]
      omega
    right
    rw [length_append]
    omega
  · exact ⟨[],by simp,by simp,by simp,fits,bound,.inr (by dsimp only; omega)⟩

/-! The logs. -/

section
variable {C : Type} [DecidableEq C] {c d : C} {log more accepted delivered : List (C × Byte)} {bytes : List Byte}

lemma bytesOfAppend (c : C) (log more : List (C × Byte)) : bytesOf c (log ++ more) = bytesOf c log ++ bytesOf c more := by
  simp [bytesOf,filter_append,map_append]

lemma bytesOfTag (c : C) (bytes : List Byte) : bytesOf c (tag c bytes) = bytes := by
  simp [bytesOf,tag,filter_map,comp_def]

lemma bytesOfOther (apart : c ≠ d) (bytes : List Byte) : bytesOf c (tag d bytes) = [] := by
  simp [bytesOf,tag,filter_map,comp_def,apart.symm]

lemma tagBytes (c : C) (bytes : List Byte) : (tag c bytes).map Prod.snd = bytes := by
  simp [tag,comp_def]

lemma Contiguous.later (together : Contiguous c bytes log) (others : bytesOf c more = []) :
    Contiguous c bytes (log ++ more) := by
  obtain ⟨before,after,rfl,first,last⟩ := together
  refine ⟨before,after ++ more,?_,first,?_⟩
  · rw [append_assoc (before ++ tag c bytes)]
  · rw [bytesOfAppend,last,others,append_nil]

lemma contiguousLast (bytes : List Byte) (none : bytesOf c log = []) : Contiguous c bytes (log ++ tag c bytes) :=
  ⟨log,[],(append_nil _).symm,none,rfl⟩

/-! The invariant. -/

def Stage.Waits (stage : Stage) : Prop := stage = .asleep ∨ stage = .woken

structure ReaderOk (accepted delivered : List (C × Byte)) (c : C) (r : Reader) : Prop where
  only : bytesOf c accepted = []
  filled : bytesOf c delivered = r.filled.flatten
  resid : r.resid + r.filled.flatten.length = r.lens.sum

structure WriterOk (accepted delivered : List (C × Byte)) (c : C) (w : Writer) : Prop where
  only : bytesOf c delivered = []
  moved : bytesOf c accepted ++ remaining w.iov w.ind w.offset = w.iov.flatten
  resid : (remaining w.iov w.ind w.offset).length = w.resid
  fits : w.offset ≤ ((w.iov.drop w.ind).headD []).length
  whole : w.iov.flatten.length ≤ pipeBuf → bytesOf c accepted = [] ∨ Contiguous c w.iov.flatten accepted

def CallOk (accepted delivered : List (C × Byte)) (c : C) : Call → Prop
  | .new => bytesOf c accepted = [] ∧ bytesOf c delivered = []
  | .reader r => ReaderOk accepted delivered c r ∧ (r.stage.Waits → r.filled = []) ∧ r.stage ≠ .failed
  | .writer w => WriterOk accepted delivered c w ∧
    (w.stage.Waits → if w.copying then pipeBuf < w.iov.flatten.length else bytesOf c accepted = []) ∧ w.stage ≠ .failed

def Call.readerAsleep : Call → Prop
  | .reader r => r.stage = .asleep
  | _ => False

def Call.writerAsleep : Call → Prop
  | .writer w => w.stage = .asleep
  | _ => False

def Call.readerWaking : Call → Prop
  | .reader r => r.stage = .waking
  | _ => False

def Call.writerWaking : Call → Prop
  | .writer w => w.stage = .waking
  | _ => False

def Call.noRoom (size : Nat) : Call → Prop
  | .writer w => if w.copying then size = maxBuf else maxBuf < size + needroom w.resid
  | _ => True

structure Core (s : State C) : Prop where
  stream : s.accepted.map Prod.snd = s.delivered.map Prod.snd ++ s.q
  bound : s.q.length ≤ maxBuf
  calls : ∀ c, CallOk s.accepted s.delivered c (s.calls c)

structure Inv (s : State C) : Prop extends Core s where
  readers : Sleepers.Covered Call.readerAsleep Call.writerWaking (fun _ => s.q = [] ∧ s.sender = true) s.calls
  writers : Sleepers.Covered Call.writerAsleep Call.readerWaking (fun k => s.receiver = true ∧ k.noRoom s.q.length) s.calls

variable {k : Call} {size : Nat} {w : Writer} {t : State C}

lemma CallOk.later (ok : CallOk accepted delivered c k) (apart : c ≠ d) (put took : List Byte) :
    CallOk (accepted ++ tag d put) (delivered ++ tag d took) c k := by
  have acc : bytesOf c (accepted ++ tag d put) = bytesOf c accepted := by rw [bytesOfAppend,bytesOfOther apart,append_nil]
  have del : bytesOf c (delivered ++ tag d took) = bytesOf c delivered := by rw [bytesOfAppend,bytesOfOther apart,append_nil]
  rcases k with _ | r | w
  · exact ⟨acc.trans ok.1,del.trans ok.2⟩
  · exact ⟨⟨acc.trans ok.1.only,del.trans ok.1.filled,ok.1.resid⟩,ok.2⟩
  obtain ⟨⟨only,moved,resid,fits,whole⟩,waits,sound⟩ := ok
  refine ⟨⟨del.trans only,acc.symm ▸ moved,resid,fits,fun small => ?_⟩,acc.symm ▸ waits,sound⟩
  rcases whole small with none | together
  · exact .inl (acc.trans none)
  · exact .inr (together.later (bytesOfOther apart put))

variable {s : State C}

lemma Core.move (core : Core s) (c : C) (x : Call) (put took q : List Byte)
    (stream : s.q ++ put = took ++ q) (bound : q.length ≤ maxBuf)
    (ok : CallOk (s.accepted ++ tag c put) (s.delivered ++ tag c took) c x) :
    Core (State.set ⟨q,s.sender,s.receiver,s.calls,s.accepted ++ tag c put,s.delivered ++ tag c took⟩ c x) := by
  refine ⟨?_,bound,fun d => ?_⟩
  · simp [State.set,map_append,tagBytes,core.stream,append_assoc,stream]
  simp only [State.set,update_apply]
  split
  next same => exact same ▸ ok
  next apart => exact (core.calls d).later apart put took

lemma Core.set (core : Core s) (c : C) (x : Call) (ok : CallOk s.accepted s.delivered c x) : Core (s.set c x) := by
  refine ⟨core.stream,core.bound,fun d => ?_⟩
  simp only [State.set,update_apply]
  split
  next same => exact same ▸ ok
  · exact core.calls d

lemma CallOk.wakeReader (ok : CallOk accepted delivered c k) : CallOk accepted delivered c k.wakeReader := by
  cases k with
  | new | writer w => exact ok
  | reader r => ?_
  simp only [wakeReader]
  split
  next asleep => exact ⟨⟨ok.1.only,ok.1.filled,ok.1.resid⟩,fun _ => ok.2.1 (.inl asleep),nofun⟩
  · exact ok

lemma CallOk.wakeWriter (ok : CallOk accepted delivered c k) : CallOk accepted delivered c k.wakeWriter := by
  rcases k with _ | r | w
  · exact ok
  · exact ok
  simp only [wakeWriter]
  split
  next asleep =>
    obtain ⟨⟨only,moved,resid,fits,whole⟩,waits,_⟩ := ok
    exact ⟨⟨only,moved,resid,fits,whole⟩,fun _ => waits (.inl asleep),nofun⟩
  · exact ok

lemma Core.wakeReaders (core : Core s) : Core (wakeReaders s) :=
  ⟨core.stream,core.bound,fun c => (core.calls c).wakeReader⟩

lemma Core.wakeWriters (core : Core s) : Core (wakeWriters s) :=
  ⟨core.stream,core.bound,fun c => (core.calls c).wakeWriter⟩

lemma readerAwake (k : Call) : ¬k.wakeReader.readerAsleep := by
  cases k with
  | new | writer w => exact id
  | reader r => ?_
  simp only [wakeReader,readerAsleep]
  split
  · nofun
  · assumption

lemma writerAwake (k : Call) : ¬k.wakeWriter.writerAsleep := by
  rcases k with _ | r | w
  · exact id
  · exact id
  simp only [wakeWriter,writerAsleep]
  split
  · nofun
  · assumption

lemma writerSleepsOn (k : Call) (asleep : k.wakeReader.writerAsleep) : k.writerAsleep ∧ k.wakeReader = k := by
  cases k with
  | writer w => exact ⟨asleep,rfl⟩
  | _ => exact asleep.elim

lemma readerSleepsOn (k : Call) (asleep : k.wakeWriter.readerAsleep) : k.readerAsleep ∧ k.wakeWriter = k := by
  cases k with
  | reader r => exact ⟨asleep,rfl⟩
  | _ => exact asleep.elim

lemma readerWakesOn (k : Call) (wakes : k.readerWaking) : k.wakeReader.readerWaking := by
  cases k with
  | reader r =>
    have awake : r.stage ≠ .asleep := fun asleep => nomatch (show r.stage = _ from wakes).symm.trans asleep
    simpa only [wakeReader,if_neg awake] using wakes
  | _ => exact wakes

lemma writerWakesOn (k : Call) (wakes : k.writerWaking) : k.wakeWriter.writerWaking := by
  cases k with
  | writer w =>
    have awake : w.stage ≠ .asleep := fun asleep => nomatch (show w.stage = _ from wakes).symm.trans asleep
    simpa only [wakeWriter,if_neg awake] using wakes
  | _ => exact wakes

lemma readerWakesBefore (k : Call) (wakes : k.wakeReader.readerWaking) : k.readerWaking := by
  cases k with
  | reader r =>
    simp only [wakeReader] at wakes
    split at wakes
    · cases (show Stage.woken = .waking from wakes)
    exact wakes
  | _ => exact wakes

lemma wakeReadersSet (s : State C) (c : C) (w : Writer) :
    wakeReaders (s.set c (.writer w)) = (wakeReaders s).set c (.writer w) := by
  simp only [wakeReaders,State.set,State.mk.injEq,and_true,true_and]
  funext d
  simp only [update_apply]
  split <;> rfl

def Call.Quiet (k : Call) : Prop := ¬k.readerWaking ∧ ¬k.writerWaking

lemma Inv.set (inv : Inv s) {x : Call} (quiet : (s.calls c).Quiet) (ok : CallOk s.accepted s.delivered c x)
    (reads : x.readerAsleep → s.q = [] ∧ s.sender = true)
    (writes : x.writerAsleep → s.receiver = true ∧ x.noRoom s.q.length) : Inv (s.set c x) :=
  ⟨inv.toCore.set c x ok,inv.readers.set quiet.2 reads fun _ _ fine => fine,
    inv.writers.set quiet.1 writes fun _ _ fine => fine⟩

lemma Inv.readLocked (inv : Inv s) {r : Reader} (quiet : (s.calls c).Quiet)
    (ok : ReaderOk s.accepted s.delivered c r) (fresh : r.filled = []) : Inv (readLocked s c r) := by
  unfold PipeBuffer.readLocked
  split
  next blocks =>
    exact inv.set quiet ⟨⟨ok.only,ok.filled,ok.resid⟩,fun _ => fresh,nofun⟩
      (fun _ => ⟨isEmpty_iff.mp blocks.2,blocks.1⟩) nofun
  split
  · exact inv.set quiet ⟨⟨ok.only,ok.filled,ok.resid⟩,fun _ => fresh,nofun⟩ nofun nofun
  rename_i some
  have some : s.q ≠ [] := fun none => some (isEmpty_iff.mpr none)
  have resid : r.resid = r.lens.sum := by simpa [fresh] using ok.resid
  obtain ⟨filled,rest,left⟩ := copyToUioTakes r.lens s.q r.resid (Nat.le_of_eq resid.symm)
  have before : bytesOf c s.delivered = [] := by simpa [fresh] using ok.filled
  have core := inv.toCore.move c
    (.reader ⟨r.lens,(copyToUio r.lens s.q r.resid).2.2,(copyToUio r.lens s.q r.resid).1,.waking⟩) []
    (copyToUio r.lens s.q r.resid).1.flatten (copyToUio r.lens s.q r.resid).2.1
    (by rw [filled,rest,append_nil,take_append_drop])
    (by rw [rest,length_drop]; exact Nat.le_trans (Nat.sub_le _ _) inv.bound)
    (by
      refine ⟨⟨?_,?_,?_⟩,?_,nofun⟩
      · simpa [tag] using ok.only
      · rw [bytesOfAppend,before,bytesOfTag,nil_append]
      · rw [filled,left,resid]
      rintro (asleep | woken)
      · cases asleep
      cases woken)
  simp only [tag,map_nil,append_nil] at core
  refine ⟨core,?_,.announced s.calls rfl⟩
  exact inv.readers.set quiet.2 nofun fun k _ fine => absurd fine.1 some

lemma noRoomMono {m n : Nat} (full : k.noRoom m) (le : m ≤ n) (bound : n ≤ maxBuf) : k.noRoom n := by
  cases k with
  | writer w =>
    simp only [noRoom] at full ⊢
    split at full
    next copying =>
      rw [if_pos copying]
      omega
    rename_i first
    rw [if_neg first]
    omega
  | _ => trivial

lemma WriterOk.put {k : Copied} {moved : List Byte} {buf : List Byte} (copying : Bool) (stage : Stage)
    (ok : WriterOk accepted delivered c w) (moves : Moves size w.iov w.ind w.offset buf w.resid k moved)
    (small : w.iov.flatten.length ≤ pipeBuf → bytesOf c accepted = [] ∧ k.resid = 0) :
    WriterOk (accepted ++ tag c moved) delivered c ⟨w.iov,k.resid,k.ind,k.offset,copying,stage⟩ := by
  have bytes : bytesOf c (accepted ++ tag c moved) = bytesOf c accepted ++ moved := by rw [bytesOfAppend,bytesOfTag]
  have resid : (remaining w.iov k.ind k.offset).length = k.resid := by
    have before := ok.resid
    rw [moves.rest,length_append] at before
    have after := moves.resid
    omega
  have total : bytesOf c accepted ++ moved ++ remaining w.iov k.ind k.offset = w.iov.flatten := by
    rw [append_assoc,← moves.rest]
    exact ok.moved
  refine ⟨ok.only,bytes.symm ▸ total,resid,moves.fits,fun le => ?_⟩
  obtain ⟨none,all⟩ := small le
  have nothing := eq_nil_of_length_eq_zero (resid.trans all)
  have whole : moved = w.iov.flatten := by simpa only [none,nothing,nil_append,append_nil] using total
  exact .inr (whole ▸ contiguousLast moved none)

lemma Inv.writeParts (inv : Inv s) (quiet : (s.calls c).Quiet) (nonblock : Bool) (ok : WriterOk s.accepted s.delivered c w)
    (small : w.iov.flatten.length ≤ pipeBuf → bytesOf c s.accepted = [] ∧ s.q.length + w.resid ≤ maxBuf) :
    Inv (writeParts s c w nonblock) := by
  have same : ∀ x : Stage, WriterOk s.accepted s.delivered c { w with stage := x } :=
    fun _ => ⟨ok.only,ok.moved,ok.resid,ok.fits,ok.whole⟩
  unfold PipeBuffer.writeParts
  split
  next goes =>
    obtain ⟨moved,moves⟩ := copyFromUioMoves ok.fits (Nat.le_of_eq ok.resid) inv.bound
    obtain ⟨k,eq⟩ : ∃ k, k = copyFromUio maxBuf (w.iov.drop w.ind) w.ind w.offset s.q w.resid := ⟨_,rfl⟩
    rw [← eq] at moves ⊢
    have put : k.buf.drop s.q.length = moved := by rw [moves.buf,drop_left]
    have fills := congrArg List.length moves.buf
    rw [length_append] at fills
    have all : w.iov.flatten.length ≤ pipeBuf → bytesOf c s.accepted = [] ∧ k.resid = 0 := by
      intro le
      obtain ⟨none,room⟩ := small le
      have resid := ok.resid
      have drops := moves.resid
      rcases moves.full with done | full
      · rw [moves.rest,done,append_nil] at resid
        exact ⟨none,by omega⟩
      · exact ⟨none,by omega⟩
    have core : ∀ stage, (stage.Waits → pipeBuf < w.iov.flatten.length) → stage ≠ .failed →
      Core (State.set ⟨k.buf,s.sender,s.receiver,s.calls,s.accepted ++ tag c moved,s.delivered⟩ c
        (.writer ⟨w.iov,k.resid,k.ind,k.offset,true,stage⟩)) := by
      intro stage waits sound
      have moved := inv.toCore.move c (.writer ⟨w.iov,k.resid,k.ind,k.offset,true,stage⟩) moved [] k.buf
        moves.buf.symm moves.bound
        (by simpa [tag] using ⟨ok.put true stage moves all,waits,sound⟩)
      simpa only [tag,map_nil,append_nil] using moved
    have stays : ∀ j : Call, j.writerAsleep → s.receiver = true ∧ j.noRoom s.q.length →
      s.receiver = true ∧ j.noRoom k.buf.length :=
      fun j _ fine => ⟨fine.1,noRoomMono fine.2 (by omega) moves.bound⟩
    simp only [put]
    split
    next more =>
      have full : k.buf.length = maxBuf := by
        rcases moves.full with done | full
        · have resid := ok.resid
          have drops := moves.resid
          rw [moves.rest,done,append_nil] at resid
          omega
        · exact full
      have large : pipeBuf < w.iov.flatten.length := by
        by_contra le
        exact more (all (Nat.le_of_not_lt le)).2
      rw [if_pos full]
      refine ⟨?_,.awake fun d asleep => ?_,?_⟩
      · rw [← wakeReadersSet]
        exact (core _ (fun _ => large) (by cases nonblock <;> nofun)).wakeReaders
      · simp only [State.set,wakeReaders,update_apply] at asleep
        split at asleep
        · exact asleep
        · exact readerAwake _ asleep
      refine (inv.writers.map wakeReader writerSleepsOn readerWakesOn).set ?_ (fun _ => ⟨goes.2,full⟩) stays
      exact fun wakes => quiet.1 (readerWakesBefore _ wakes)
    have waking := core .waking (by rintro (h | h) <;> cases h) nofun
    exact ⟨waking,.announced s.calls rfl,inv.writers.set quiet.1 nofun stays⟩
  refine ⟨inv.toCore.set c _ ⟨same .waking,?_,nofun⟩,.announced s.calls rfl,?_⟩
  · rintro (h | h) <;> cases h
  · exact inv.writers.set quiet.1 nofun fun _ _ fine => fine

lemma roomFor (ok : WriterOk accepted delivered c w) (none : bytesOf c accepted = [])
    (le : w.iov.flatten.length ≤ pipeBuf) (room : ¬maxBuf < size + needroom w.resid) :
    size + w.resid ≤ maxBuf := by
  have moved := ok.moved
  rw [none,nil_append] at moved
  have resid := ok.resid
  rw [moved] at resid
  rw [needroom,if_pos (resid ▸ le)] at room
  omega

section
variable (inv : Inv s)
include inv

lemma Inv.writeRoom (quiet : (s.calls c).Quiet) (first : w.copying = false)
    (ok : WriterOk s.accepted s.delivered c w) (none : bytesOf c s.accepted = []) : Inv (writeRoom s c w) := by
  have same : ∀ x : Stage, x ≠ .failed → CallOk s.accepted s.delivered c (.writer { w with stage := x }) := by
    intro x sound
    refine ⟨⟨ok.only,ok.moved,ok.resid,ok.fits,ok.whole⟩,fun _ => ?_,sound⟩
    simp only [first,Bool.false_eq_true,if_false]
    exact none
  unfold PipeBuffer.writeRoom
  split
  next blocks =>
    refine inv.set quiet (same _ nofun) nofun fun _ => ⟨blocks.1,?_⟩
    simpa only [noRoom,first,Bool.false_eq_true,if_false] using blocks.2
  rename_i blocks
  split
  · exact inv.set quiet (same _ nofun) nofun nofun
  rename_i receives
  refine inv.writeParts quiet false ok fun le => ⟨none,?_⟩
  exact roomFor ok none le fun more => blocks ⟨by simpa using receives,more⟩

lemma Inv.writeResume (quiet : (s.calls c).Quiet) (later : w.copying = true)
    (ok : WriterOk s.accepted s.delivered c w) (large : pipeBuf < w.iov.flatten.length) : Inv (writeResume s c w) := by
  unfold PipeBuffer.writeResume
  split
  next blocks =>
    refine inv.set quiet ⟨⟨ok.only,ok.moved,ok.resid,ok.fits,ok.whole⟩,fun _ => ?_,nofun⟩ nofun fun _ => ⟨blocks.1,?_⟩
    · simpa only [later,if_true] using large
    · simpa only [noRoom,later,if_true] using blocks.2
  · exact inv.writeParts quiet false ok fun le => absurd le (Nat.not_le_of_lt large)

lemma Inv.read (new : s.calls c = .new) (lens : List Nat) (nonblock : Bool) : Inv (read s c lens nonblock) := by
  have quiet : (s.calls c).Quiet := by
    rw [new]
    exact ⟨id,id⟩
  have fresh := inv.calls c
  rw [new] at fresh
  have ok : ∀ x : Stage, ReaderOk s.accepted s.delivered c ⟨lens,lens.sum,[],x⟩ := fun _ => ⟨fresh.1,fresh.2,rfl⟩
  dsimp only [PipeBuffer.read]
  split
  · exact inv.set quiet ⟨ok _,fun _ => rfl,nofun⟩ nofun nofun
  split
  · exact inv.set quiet ⟨ok _,fun _ => rfl,nofun⟩ nofun nofun
  · exact inv.readLocked quiet (ok _) rfl

lemma Inv.write (new : s.calls c = .new) (iov : List (List Byte)) (nonblock : Bool) : Inv (write s c iov nonblock) := by
  have quiet : (s.calls c).Quiet := by
    rw [new]
    exact ⟨id,id⟩
  have fresh := inv.calls c
  rw [new] at fresh
  have ok : ∀ x : Stage, WriterOk s.accepted s.delivered c ⟨iov,iov.flatten.length,0,0,false,x⟩ := fun _ =>
    ⟨fresh.2,by simp [remaining,fresh.1],by simp [remaining],Nat.zero_le _,fun _ => .inl fresh.1⟩
  have call : ∀ x : Stage, x ≠ .failed → CallOk s.accepted s.delivered c (.writer ⟨iov,iov.flatten.length,0,0,false,x⟩) :=
    fun x sound => ⟨ok x,fun _ => fresh.1,sound⟩
  dsimp only [PipeBuffer.write]
  split
  · exact inv.set quiet (call _ nofun) nofun nofun
  split
  · split
    · exact inv.set quiet (call _ nofun) nofun nofun
    · split
      · exact inv.set quiet (call _ nofun) nofun nofun
      next room => exact inv.writeParts quiet true (ok _) fun le => ⟨fresh.1,roomFor (ok _) fresh.1 le room⟩
  · exact inv.writeRoom quiet rfl (ok _) fresh.1

lemma Inv.resume (taken : resume s c = some t) : Inv t := by
  have ok := inv.calls c
  simp only [PipeBuffer.resume] at taken
  split at taken
  next r call =>
    obtain ⟨woken,eq⟩ := Option.ite_none_right_eq_some.mp taken
    cases eq
    rw [call] at ok
    refine inv.readLocked ?_ ok.1 (ok.2.1 (.inr woken))
    rw [call]
    exact ⟨fun waking => (nomatch (show r.stage = _ from waking).symm.trans woken),id⟩
  next w call =>
    obtain ⟨woken,eq⟩ := Option.ite_none_right_eq_some.mp taken
    cases eq
    rw [call] at ok
    have quiet : (s.calls c).Quiet := by
      rw [call]
      exact ⟨id,fun waking => nomatch (show w.stage = _ from waking).symm.trans woken⟩
    have waits := ok.2.1 (.inr woken)
    split
    next copying =>
      rw [if_pos copying] at waits
      exact inv.writeResume quiet copying ok.1 waits
    rename_i first
    rw [if_neg first] at waits
    exact inv.writeRoom quiet (Bool.not_eq_true _ ▸ first) ok.1 waits
  · cases taken

lemma Inv.wakeAll (taken : wakeAll s c = some t) : Inv t := by
  have ok := inv.calls c
  simp only [PipeBuffer.wakeAll] at taken
  split at taken
  next r call =>
    obtain ⟨_,eq⟩ := Option.ite_none_right_eq_some.mp taken
    cases eq
    rw [call] at ok
    refine ⟨inv.toCore.wakeWriters.set c _ ⟨⟨ok.1.only,ok.1.filled,ok.1.resid⟩,?_,nofun⟩,?_,.awake fun d asleep => ?_⟩
    · rintro (h | h) <;> cases h
    · refine (inv.readers.map wakeWriter readerSleepsOn writerWakesOn).set ?_ nofun fun _ _ fine => fine
      rw [call]
      exact id
    simp only [State.set,wakeWriters,update_apply] at asleep
    split at asleep
    · exact asleep
    · exact writerAwake _ asleep
  next w call =>
    obtain ⟨_,eq⟩ := Option.ite_none_right_eq_some.mp taken
    cases eq
    rw [call] at ok
    obtain ⟨⟨only,moved,resid,fits,whole⟩,_,_⟩ := ok
    refine ⟨inv.toCore.wakeReaders.set c _ ⟨⟨only,moved,resid,fits,whole⟩,?_,nofun⟩,.awake fun d asleep => ?_,?_⟩
    · rintro (h | h) <;> cases h
    · simp only [State.set,wakeReaders,update_apply] at asleep
      split at asleep
      · exact asleep
      · exact readerAwake _ asleep
    refine (inv.writers.map wakeReader writerSleepsOn readerWakesOn).set ?_ nofun fun _ _ fine => fine
    rw [call]
    exact id
  · cases taken

lemma Inv.detachSender : Inv (detachSender s) := by
  unfold PipeBuffer.detachSender
  split
  · have core : Core { s with sender := false } := ⟨inv.stream,inv.bound,inv.calls⟩
    exact ⟨core.wakeReaders,.awake fun d => readerAwake _, inv.writers.map wakeReader writerSleepsOn readerWakesOn⟩
  · exact inv

lemma Inv.detachReceiver : Inv (detachReceiver s) := by
  unfold PipeBuffer.detachReceiver
  split
  · have core : Core { s with receiver := false } := ⟨inv.stream,inv.bound,inv.calls⟩
    exact ⟨core.wakeWriters,inv.readers.map wakeWriter readerSleepsOn writerWakesOn,.awake fun d => writerAwake _⟩
  · exact inv

lemma Inv.step {a : Action C} (taken : step s a = some t) : Inv t := by
  cases a with
  | read c lens nonblock =>
    obtain ⟨new,eq⟩ := Option.ite_none_right_eq_some.mp taken
    cases eq
    exact inv.read new lens nonblock
  | write c iov nonblock =>
    obtain ⟨new,eq⟩ := Option.ite_none_right_eq_some.mp taken
    cases eq
    exact inv.write new iov nonblock
  | run c => exact inv.resume taken
  | wakeAll c => exact inv.wakeAll taken
  | detachSender => exact Option.some.inj taken ▸ inv.detachSender
  | detachReceiver => exact Option.some.inj taken ▸ inv.detachReceiver

end

lemma startInv : Inv (start : State C) :=
  ⟨⟨rfl,Nat.zero_le _,fun _ => ⟨rfl,rfl⟩⟩,.awake fun _ => id,.awake fun _ => id⟩

lemma Reach.inv (reach : Reach s) : Inv s := by
  refine invariant (P := Inv) ?_ (fun _ _ _ inv _ taken => inv.step taken) reach
  rintro _ rfl
  exact startInv

/-- A byte stream in which small requests stand together, and no sleep that should have ended. -/
structure Sound (s : State C) : Prop where
  stream : s.delivered.map Prod.snd <+: s.accepted.map Prod.snd
  bound : s.q.length ≤ maxBuf
  readResid : ∀ c r, s.calls c = .reader r →
    bytesOf c s.delivered = r.filled.flatten ∧ r.resid + (bytesOf c s.delivered).length = r.lens.sum
  writeResid : ∀ c w, s.calls c = .writer w →
    bytesOf c s.accepted <+: w.iov.flatten ∧ w.resid + (bytesOf c s.accepted).length = w.iov.flatten.length
  together : ∀ c w, s.calls c = .writer w → w.iov.flatten.length ≤ pipeBuf →
    bytesOf c s.accepted = [] ∨ Contiguous c w.iov.flatten s.accepted
  asserted : ∀ c w, s.calls c = .writer w → w.stage ≠ .failed
  readersWake : (∀ c w, s.calls c = .writer w → w.stage ≠ .waking) →
    ∀ c r, s.calls c = .reader r → r.stage = .asleep → s.q = [] ∧ s.sender = true
  writersWake : (∀ c r, s.calls c = .reader r → r.stage ≠ .waking) →
    ∀ c w, s.calls c = .writer w → w.stage = .asleep → s.receiver = true ∧ (Call.writer w).noRoom s.q.length

theorem pipeSound (reach : Reach s) : Sound s := by
  have inv := reach.inv
  have writes := fun c w (call : s.calls c = .writer w) => call ▸ inv.calls c
  refine ⟨⟨s.q,inv.stream.symm⟩,inv.bound,?_,?_,fun c w call => (writes c w call).1.whole,
    fun c w call => (writes c w call).2.2,?_,?_⟩
  · intro c r call
    have ok := inv.calls c
    rw [call] at ok
    exact ⟨ok.1.filled,by rw [ok.1.filled]; exact ok.1.resid⟩
  · intro c w call
    have ok := (writes c w call).1
    refine ⟨⟨_,ok.moved⟩,?_⟩
    rw [← ok.resid,← ok.moved,length_append,Nat.add_comm]
  · intro quiet c r call asleep
    rcases inv.readers c (by rw [call]; exact asleep) with fine | ⟨d,wakes⟩
    · exact fine
    generalize eq : s.calls d = x at wakes ⊢
    cases x with
    | writer w => exact absurd wakes (quiet d w eq)
    | _ => exact wakes.elim
  intro quiet c w call asleep
  rcases inv.writers c (by rw [call]; exact asleep) with fine | ⟨d,wakes⟩
  · rw [call] at fine
    exact fine
  generalize eq : s.calls d = x at wakes ⊢
  cases x with
  | reader r => exact absurd wakes (quiet d r eq)
  | _ => exact wakes.elim

def handover : List (Action Nat) := [.read 0 [1,1] false,.write 1 [[1],[],[2,3]] false,.wakeAll 1,.run 0,.wakeAll 0]

theorem pipeSoundHandover :
    (final step (fun _ _ => True) start handover).calls 0 = .reader ⟨[1,1],0,[[1],[2]],.done .ok⟩ ∧
      Sound (final step (fun _ _ => True) start handover) := by
  have reach : Reach (final step (fun _ _ => True) start handover) :=
    reachFinal handover rfl rfl
  exact ⟨rfl,pipeSound reach⟩

theorem pipeNoDeadlock (reach : Reach s) :
    (∃ c, (s.calls c).readerWaking ∨ (s.calls c).writerWaking) ∨
      (∀ c, ¬(s.calls c).readerAsleep) ∨ ∀ c, ¬(s.calls c).writerAsleep := by
  have inv := reach.inv
  by_contra stuck
  push Not at stuck
  obtain ⟨quiet,⟨c,reads⟩,d,writes⟩ := stuck
  rcases inv.readers c reads with ⟨empty,-⟩ | ⟨e,wakes⟩
  · rcases inv.writers d writes with ⟨-,full⟩ | ⟨e,wakes⟩
    · -- an empty pipe has room for every writer
      rw [empty] at full
      generalize s.calls d = k at writes full
      cases k with
      | writer w =>
        have small : needroom w.resid ≤ 4096 := by
          unfold needroom pipeBuf
          split <;> omega
        simp only [noRoom,maxBuf,length_nil] at full
        split at full <;> omega
      | _ => exact writes
    · exact (quiet e).1 wakes
  · exact (quiet e).2 wakes

theorem pipeNoDeadlockWaking :
    let s := final step (fun _ _ => True) start [.read 0 [1,1] false,.write 1 [[1]] false]
    (s.calls (0 : Nat)).readerAsleep ∧ ((∃ c, (s.calls c).readerWaking ∨ (s.calls c).writerWaking) ∨
      (∀ c, ¬(s.calls c).readerAsleep) ∨ ∀ c, ¬(s.calls c).writerAsleep) :=
  ⟨rfl,pipeNoDeadlock (reachFinal _ rfl rfl)⟩

end
end OsvKernel.PipeBuffer
