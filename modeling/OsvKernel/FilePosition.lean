import OsvKernel.RamfsFile

/-! sys_read and sys_write through one open ramfs file, with its position. -/
namespace OsvKernel.FilePosition
open RamfsFile List

inductive Error where
  | EBADF
  | errno (e : Errno)
  deriving DecidableEq

structure Open where
  file : File
  fOffset : Int
  (fread fwrite append : Bool)

/-- A transfer that succeeds: uioOffset is where its uio ends, just past the last byte that uiomove moved. -/
structure Done where
  uioOffset : Int
  moved : List Byte

abbrev Outcome := Open × Except Error Done

-- offset is -1 in a call without FOF_OFFSET.
def Open.from (fp : Open) (offset : Int) : Int := if offset = -1 then fp.fOffset else offset

def Open.done (fp : Open) (offset start : Int) (file : File) (data : List Byte) : Outcome :=
  ({ fp with file := file, fOffset := if offset = -1 then offT (fp.fOffset + data.length) else fp.fOffset },
    .ok ⟨offT (start + data.length),data⟩)

def Open.fail (fp : Open) (e : Errno) : Outcome := (fp,.error (.errno e))

def vfsRead (fp : Open) (iov : List (List Byte)) (offset : Int) (bytes : Nat) : Option Outcome :=
  (ramfsRead fp.file iov (fp.from offset) bytes).map fun
    | .error e => fp.fail e
    | .ok data => fp.done offset (fp.from offset) fp.file data

-- A successful ramfs_write moves the whole uio.
def vfsWrite (fresh : Nat → Byte) (fp : Open) (iov : List (List Byte)) (offset : Int) (bytes : Nat) : Option Outcome :=
  (ramfsWrite fresh fp.file iov (fp.from offset) bytes fp.append).map fun
    | .error e => fp.fail e
    | .ok file => fp.done offset (if fp.append then fp.file.rnSize else fp.from offset) file iov.flatten

def transfer (allowed : Bool) (vop : Nat → Option Outcome) (fp : Open) (iov : List (List Byte)) (offset : Int) :
    Option Outcome :=
  if allowed = false then some (fp,.error .EBADF)
  else match sumLengths 0 iov with
    | none => some (fp.fail .EINVAL)
    | some bytes => if bytes = 0 then some (fp,.ok ⟨offset,[]⟩) else vop bytes

inductive Call where
  | read (iov : List (List Byte)) (offset : Int)
  | write (fresh : Nat → Byte) (iov : List (List Byte)) (offset : Int)

def Call.offset : Call → Int
  | .read _ offset => offset
  | .write _ _ offset => offset

def Call.iov : Call → List (List Byte)
  | .read iov _ => iov
  | .write _ iov _ => iov

def exec (fp : Open) : Call → Option Outcome
  | .read iov offset => transfer fp.fread (vfsRead fp iov offset) fp iov offset
  | .write fresh iov offset => transfer fp.fwrite (vfsWrite fresh fp iov offset) fp iov offset

def Right (fp : Open) (c : Call) (out : Outcome) : Prop :=
  (c.offset ≠ -1 → out.1.fOffset = fp.fOffset) ∧ (∀ e, out.2 = .error e → out.1.fOffset = fp.fOffset) ∧
    ∀ d, out.2 = .ok d → c.offset = -1 → d.moved ≠ [] → out.1.fOffset = d.uioOffset

-- A write through the position that appends bytes.
def Appends (fp : Open) : Call → Prop
  | .write fresh iov offset => offset = -1 ∧ fp.append = true ∧ fp.fwrite = true ∧ ∃ bytes file, bytes ≠ 0 ∧
    sumLengths 0 iov = some bytes ∧ ramfsWrite fresh fp.file iov fp.fOffset bytes true = some (.ok file)
  | _ => False

def AtEnd (fp : Open) (c : Call) : Prop := Appends fp c → offT fp.fOffset = offT fp.file.rnSize

variable {fp : Open} {c : Call} {out : Outcome}

lemma flatSum {iov : List (List Byte)} {bytes : Nat} (sum : sumLengths 0 iov = some bytes) :
    bytes = iov.flatten.length ∧ sumLengths 0 [iov.flatten] = some bytes := by
  obtain ⟨eq,small⟩ := sumLengthsSome (Nat.zero_le _) sum
  rw [Nat.zero_add] at eq
  exact ⟨eq,by simp [sumLengths,← eq,small]⟩

lemma failRight {e : Error} : Right fp c (fp,.error e) := ⟨fun _ => rfl,fun _ _ => rfl,nofun⟩

lemma offTAdd (a b : Int) (n : Nat) : offT (a + n) = offT (b + n) ↔ offT a = offT b := by
  unfold offT
  rw [Int.bmod_eq_bmod_iff_bmod_sub_eq_zero,Int.bmod_eq_bmod_iff_bmod_sub_eq_zero,Int.add_sub_add_right]

lemma doneRight {start : Int} {file : File} {data : List Byte} : Right fp c (fp.done c.offset start file data) ↔
    (c.offset = -1 → data ≠ [] → offT fp.fOffset = offT start) := by
  constructor
  · rintro ⟨-,-,moves⟩ same some
    have eq := moves _ rfl same some
    simp only [Open.done,if_pos same] at eq
    exact (offTAdd _ _ _).mp eq
  · refine fun here => ⟨fun other => if_neg other,nofun,fun d eq same some => ?_⟩
    cases eq
    exact (if_pos same).trans ((offTAdd _ _ _).mpr (here same some))

-- A transfer that moves nothing is right, and nothing is asked of it.
lemma transferRight {allowed : Bool} {vop : Nat → Option Outcome}
    (asks : Appends fp c → allowed = true ∧ ∃ bytes, bytes ≠ 0 ∧ sumLengths 0 c.iov = some bytes)
    (right : ∀ bytes, bytes ≠ 0 → allowed = true → sumLengths 0 c.iov = some bytes → vop bytes = some out →
      (Right fp c out ↔ AtEnd fp c))
    (taken : transfer allowed vop fp c.iov c.offset = some out) : Right fp c out ↔ AtEnd fp c := by
  unfold transfer at taken
  split at taken
  next refused =>
    cases taken
    exact iff_of_true failRight fun p => by cases refused.symm.trans (asks p).1
  rename_i can
  split at taken
  next long =>
    cases taken
    refine iff_of_true failRight fun p => ?_
    obtain ⟨-,bytes,-,sum⟩ := asks p
    cases long.symm.trans sum
  rename_i bytes sum
  split at taken
  next zero =>
    cases taken
    refine iff_of_true ⟨fun _ => rfl,nofun,fun d eq _ some => ?_⟩ fun p => ?_
    · cases eq
      exact absurd rfl some
    obtain ⟨-,n,more,same⟩ := asks p
    cases sum.symm.trans same
    exact absurd zero more
  next some => exact right bytes some (Bool.eq_true_of_not_eq_false can) sum taken

lemma readRight {iov : List (List Byte)} {offset : Int} {bytes : Nat} (taken : vfsRead fp iov offset bytes = some out) :
    Right fp (.read iov offset) out := by
  obtain ⟨r,-,eq⟩ := Option.map_eq_some_iff.mp taken
  cases r with
  | error => exact eq ▸ failRight
  | ok data => exact eq ▸ doneRight.mpr fun same _ => congrArg offT (if_pos same).symm

lemma writeRight {fresh : Nat → Byte} {iov : List (List Byte)} {offset : Int} {bytes : Nat} (moves : bytes ≠ 0)
    (can : fp.fwrite = true) (sum : sumLengths 0 iov = some bytes) (taken : vfsWrite fresh fp iov offset bytes = some out) :
    Right fp (.write fresh iov offset) out ↔ AtEnd fp (.write fresh iov offset) := by
  obtain ⟨r,wrote,eq⟩ := Option.map_eq_some_iff.mp taken
  have here (same : offset = -1) (app : fp.append = true) : ramfsWrite fresh fp.file iov fp.fOffset bytes true = some r := by
    rwa [Open.from,if_pos same,app] at wrote
  cases r with
  | error e =>
    refine eq ▸ iff_of_true failRight ?_
    rintro ⟨same,app,-,n,file,-,total,done⟩
    cases sum.symm.trans total
    cases (here same app).symm.trans done
  | ok file => ?_
  rw [← eq]
  refine doneRight.trans ⟨?_,fun atEnd same _ => ?_⟩
  · rintro right ⟨same,app,-⟩
    have some : iov.flatten ≠ [] := fun none => moves ((flatSum sum).1.trans (congrArg length none))
    simpa only [app,if_true] using right same some
  cases app : fp.append with
  | false => exact congrArg offT (if_pos same).symm
  | true => exact atEnd ⟨same,app,can,bytes,file,moves,sum,here same app⟩

theorem positionRight (fp : Open) (c : Call) (out : Outcome) (taken : exec fp c = some out) :
    Right fp c out ↔ AtEnd fp c := by
  cases c with
  | read iov offset => exact transferRight False.elim (fun _ _ _ _ did => iff_of_true (readRight did) False.elim) taken
  | write fresh iov offset =>
    refine transferRight ?_ (fun _ => writeRight) taken
    rintro ⟨-,-,can,n,-,moves,sum,-⟩
    exact ⟨can,n,moves,sum⟩

def threeBytes : Open := ⟨⟨.VREG,3,3,⟨fun _ => 7,4096⟩,4096⟩,0,true,true,true⟩

theorem positionRightEnd : Right {threeBytes with fOffset := 3} (.write (fun _ => 0) [[1]] (-1))
    ({threeBytes with file := ⟨.VREG,4,4,threeBytes.file.rnBuf.put 3 [1],4096⟩, fOffset := 4},.ok ⟨4,[1]⟩) :=
  (positionRight _ _ _ rfl).mpr fun _ => rfl

-- The byte goes to offset 3 and the position to 1.
theorem appendLeftBehind :
    (exec threeBytes (.write (fun _ => 0) [[1]] (-1))).map (fun out => (out.1.fOffset,out.2.map fun d => (d.uioOffset,d.moved))) =
      some (1,.ok (4,[1])) := rfl

/-! A vector of iovecs and one iovec of its total length. -/

def Call.flat : Call → Call
  | .read iov offset => .read [iov.flatten] offset
  | .write fresh iov offset => .write fresh [iov.flatten] offset

variable {iov : List (List Byte)} {buf : Block} {cp n bytes : Nat}

lemma readsFlat (enough : n ≤ iov.flatten.length) :
    uiomove .UIO_READ buf cp n iov.flatten.length iov = uiomove .UIO_READ buf cp n iov.flatten.length [iov.flatten] := by
  rw [uiomoveReads enough enough,uiomoveReads (by simpa using enough) enough]

lemma writesFlat : uiomove .UIO_WRITE buf cp iov.flatten.length iov.flatten.length iov =
    uiomove .UIO_WRITE buf cp iov.flatten.length iov.flatten.length [iov.flatten] := by
  have flat := @uiomoveWrites [iov.flatten] buf cp iov.flatten.length
  rw [show [iov.flatten].flatten = iov.flatten from append_nil _] at flat
  rw [uiomoveWrites (Nat.le_refl _),flat (Nat.le_refl _)]

lemma ramfsReadFlat (file : File) (offset : Int) :
    ramfsRead file iov offset iov.flatten.length = ramfsRead file [iov.flatten] offset iov.flatten.length := by
  unfold ramfsRead
  repeat' split <;> try rfl
  all_goals
    simp only
    rw [readsFlat (by omega)]

lemma ramfsWriteFlat (fresh : Nat → Byte) (file : File) (offset : Int) (append : Bool) :
    ramfsWrite fresh file iov offset iov.flatten.length append =
      ramfsWrite fresh file [iov.flatten] offset iov.flatten.length append := by
  unfold ramfsWrite
  repeat' split <;> try rfl
  all_goals
    simp only
    refine congrArg (proceed _) (funext fun grown => ?_)
    rw [writesFlat]

theorem scatterGather (fp : Open) (c : Call) (bytes : Nat) (accepted : sumLengths 0 c.iov = some bytes) :
    exec fp c = exec fp c.flat ∧ ∀ (buf : Block) (cp : Nat),
      (∀ n ≤ bytes, cp + n ≤ buf.size → (uiomove .UIO_READ buf cp n bytes c.iov).isSome) ∧
        (cp + bytes ≤ buf.size → (uiomove .UIO_WRITE buf cp bytes bytes c.iov).isSome) := by
  obtain ⟨eq,flat⟩ := flatSum accepted
  subst eq
  refine ⟨?_,fun buf cp => ⟨fun n le inside => by rw [uiomoveReads le le,if_pos (.inr inside)]; rfl,
    fun inside => by rw [uiomoveWrites (Nat.le_refl _),if_pos (.inr inside)]; rfl⟩⟩
  rcases c with ⟨iov,offset⟩ | ⟨fresh,iov,offset⟩
  · simp only [Call.iov] at accepted flat
    simp only [exec,Call.flat,transfer,accepted,flat,vfsRead]
    rw [ramfsReadFlat]
  simp only [Call.iov] at accepted flat
  simp only [exec,Call.flat,transfer,accepted,flat,vfsWrite]
  rw [ramfsWriteFlat]
  simp

theorem scatterGatherGap : exec threeBytes (.read [[0],[],[0,0]] 1) = exec threeBytes (.read [[0,0,0]] 1) :=
  (scatterGather threeBytes (.read [[0],[],[0,0]] 1) 3 rfl).1

end OsvKernel.FilePosition
