import OsvKernel.Namei

/-! sys_open, for every combination of results of the functions it calls. -/
namespace OsvKernel.SysOpen
open Namei (VType Errno)

-- A dentry variable stands for a reference to its dentry, a vnode variable for the lock of its vnode.
inductive Var where
  | dp | ddp | vp | dvp | dp1 | ddp1 | vp1 | dvp1 | dp2 | ddp2 | vp2 | dvp2 | olddp | newdp | newdirdp | newdvp
  deriving DecidableEq

inductive Event where
  | take (x : Var)
  | give (x : Var)
  | truncate
  deriving DecidableEq

structure Vnode where
  vType : VType
  vMode : BitVec 32
  rdonly : Bool

def eacces : Errno := .vop 13
def erofs : Errno := .vop 30

def vnAccess (vp : Vnode) (vexec vread vwrite : Bool) : Option Errno :=
  if vexec ∧ vp.vMode &&& 0o111 = 0 then eacces
  else if vread ∧ vp.vMode &&& 0o444 = 0 then eacces
  else if vwrite ∧ vp.rdonly then erofs
  else if vwrite ∧ vp.vMode &&& 0o222 = 0 then eacces
  else none

structure Flags where
  (fwrite creat excl trunc directory nofollow : Bool)

structure Results where
  (noFollow namei lookup accessDir create nameiAgain truncate makeFile vopOpen : Option Errno)
  vnode : Vnode

-- From the lock of the vnode on; a vfs_file that is deleted drops its dentry.
def openFile (f : Flags) (r : Results) (log : List Event) : List Event × Except Errno Flags :=
  let exit := [.give .vp,.give .dp]
  if f.trunc ∧ (f.fwrite = false ∨ r.vnode.vType = .VDIR) then (log ++ .take .vp::exit,.error .EINVAL)
  else
    let log := log ++ .take .vp::if f.trunc then [.truncate] else []
    match (if f.trunc then r.truncate else none).or (r.makeFile.or r.vopOpen) with
    | some e => (log ++ exit,.error e)
    | none => (log ++ [.give .vp],.ok f)

def sysOpen (f : Flags) (r : Results) : List Event × Except Errno Flags :=
  let found := [.take .dp]
  let dropped := [.take .dp,.give .dp]
  if f.creat then match r.namei with
    | some .ENOENT => match r.lookup with
      | some e => ([],.error e)
      | none =>
        let log := [.take .ddp,.take .dvp,.give .dvp,.give .ddp]
        match r.accessDir.or (r.create.or r.nameiAgain) with
        | some e => (log,.error e)
        | none => openFile { f with creat := false, trunc := false } r (log ++ found)
    | some e => ([],.error e)
    | none => if f.excl then (dropped,.error .EEXIST) else openFile { f with creat := false } r found
  else match (if f.nofollow then r.noFollow else none).or r.namei with
    | some e => ([],.error e)
    | none => match if f.fwrite ∨ f.trunc then vnAccess r.vnode false false true else none with
      | some e => (dropped,.error e)
      | none =>
        if (f.fwrite ∨ f.trunc) ∧ r.vnode.vType = .VDIR then (dropped,.error .EISDIR)
        else if f.directory ∧ r.vnode.vType ≠ .VDIR then (dropped,.error .ENOTDIR)
        else openFile f r found

def Checked (r : Results) (log : List Event) (g : Flags) : Prop :=
  (g.fwrite = true ∨ .truncate ∈ log → vnAccess r.vnode false false true = none ∧ r.vnode.vType ≠ .VDIR) ∧
    (g.directory = true → r.vnode.vType = .VDIR)

-- Nothing fails from the lock of the vnode on.
def Opens (f : Flags) (r : Results) : Prop :=
  (f.trunc = true → f.fwrite = true ∧ r.vnode.vType ≠ .VDIR ∧ r.truncate = none) ∧ r.makeFile = none ∧ r.vopOpen = none

-- O_CREAT of a file that exists skips the checks; the file would have passed them.
def Passes (f : Flags) (r : Results) : Prop :=
  f.creat = true → f.excl = false → r.namei = none → Opens f r →
    (f.fwrite = true → vnAccess r.vnode false false true = none ∧ r.vnode.vType ≠ .VDIR) ∧
      (f.directory = true → r.vnode.vType = .VDIR)

variable {f g : Flags} {r : Results} {log l : List Event}

lemma openFileIff : openFile f r log = (l,.ok g) ↔
    Opens f r ∧ g = f ∧ l = log ++ .take .vp::(if f.trunc then [.truncate] else []) ++ [.give .vp] := by
  unfold openFile Opens
  cases f.trunc <;> cases f.fwrite <;> cases r.truncate <;> cases r.makeFile <;> cases r.vopOpen <;>
    by_cases dir : r.vnode.vType = .VDIR <;> simp [dir,eq_comm,and_comm]

lemma openedChecked (clean : .truncate ∉ log) (opens : Opens f r)
    (passes : f.fwrite = true ∨ f.trunc = true → vnAccess r.vnode false false true = none ∧ r.vnode.vType ≠ .VDIR)
    (directory : f.directory = true → r.vnode.vType = .VDIR) (done : openFile f r log = (l,.ok g)) : Checked r l g := by
  obtain ⟨-,rfl,rfl⟩ := openFileIff.mp done
  refine ⟨fun writes => passes (writes.imp_right fun mem => ?_),directory⟩
  cases cut : g.trunc with
  | true => rfl
  | false => simp [cut,clean] at mem

lemma plainChecked (plain : f.creat = false) (done : sysOpen f r = (log,.ok g)) : Checked r log g := by
  simp only [sysOpen,plain,Bool.false_eq_true,if_false] at done
  repeat' split at done
  all_goals try cases done
  next access file directory =>
    simp only [not_and,ne_eq,Decidable.not_not] at file directory
    refine openedChecked (by simp) (openFileIff.mp done).1 (fun either => ?_) directory done
    rw [if_pos either] at access
    exact ⟨access,file either⟩

theorem openChecked (f : Flags) (r : Results) (existing : r.namei ≠ some .ENOENT) :
    (∀ log g, sysOpen f r = (log,.ok g) → Checked r log g) ↔ Passes f r := by
  cases creat : f.creat
  case false => exact iff_of_true (fun log g done => plainChecked creat done) fun bad => by cases creat.symm.trans bad
  unfold Passes sysOpen
  simp only [creat,if_true]
  split
  next gone => exact absurd gone existing
  next e found => simp [found]
  next found =>
    cases excl : f.excl
    case true => simp
    simp only [found,Bool.false_eq_true,if_false,true_implies]
    constructor
    · intro checked ok
      obtain ⟨writes,directory⟩ := checked _ _ (openFileIff.mpr ⟨ok,rfl,rfl⟩)
      exact ⟨fun fwrite => writes (.inl fwrite),directory⟩
    · intro passes log g done
      have ok := (openFileIff.mp done).1
      obtain ⟨writes,directory⟩ := passes ok
      exact openedChecked (by simp) ok (fun either => writes (either.elim id fun cut => (ok.1 cut).1)) directory done

def opened : Results := ⟨none,none,none,none,none,none,none,none,none,⟨.VREG,0o444,false⟩⟩
def writing : Flags := ⟨true,false,false,true,false,false⟩

-- O_CREAT of a writable file, without O_EXCL.
theorem openCheckedWritable : Passes { writing with creat := true } { opened with vnode := ⟨.VREG,0o644,false⟩ } ∧
    Checked { opened with vnode := ⟨.VREG,0o644,false⟩ } [.take .dp,.take .vp,.truncate,.give .vp] writing := by
  have passes : Passes { writing with creat := true } { opened with vnode := ⟨.VREG,0o644,false⟩ } :=
    fun _ _ _ _ => ⟨fun _ => by decide,nofun⟩
  exact ⟨passes,(openChecked _ _ (by decide)).mpr passes _ _ rfl⟩

theorem createSkipsAccess : sysOpen { writing with creat := true } opened =
    ([.take .dp,.take .vp,.truncate,.give .vp],.ok writing) ∧ vnAccess opened.vnode false false true = some eacces :=
  ⟨rfl,rfl⟩

end OsvKernel.SysOpen
