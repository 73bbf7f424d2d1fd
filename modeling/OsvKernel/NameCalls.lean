import OsvKernel.SysOpen

/-! What sys_open, sys_rename, sys_link and sys_unlink take and give back on each of their exits. -/
namespace OsvKernel.NameCalls
open Namei (VType Errno)
open SysOpen (Var Event Flags)

structure Rename where
  (lookup1 namei1 lookup2 namei2 access1 access2 vopRename : Option Errno)
  (type1 type2 : VType)
  (trailing1 trailing2 full2 same parent slash sameMount : Bool)

def err1 : List Event := [.give .vp1,.give .dp1,.give .ddp1]
def err2 (target : Bool) : List Event := (if target then [.give .vp2,.give .dp2] else []) ++ .give .ddp2::err1
def err3 (target : Bool) : List Event := .give .dvp2::.give .dvp1::err2 target

def renameChecked (r : Rename) (target : Bool) (log : List Event) : List Event × Option Errno :=
  if r.same then (log ++ err2 target,r.namei2)
  else if r.parent then (log ++ err2 target,some .EINVAL)
  else if r.slash = false then (log ++ err2 target,some .ENOTDIR)
  else (log ++ .take .dvp1::.take .dvp2::err3 target,
    r.access1.or (r.access2.or (if r.sameMount then r.vopRename else some .EXDEV)))

def targetError (r : Rename) : Option Errno :=
  if r.type2 ≠ .VDIR ∧ r.type2 ≠ .VLNK ∧ (r.type1 = .VDIR ∨ r.trailing2) then some .ENOTDIR
  else if r.type1 ≠ .VDIR ∧ r.type2 = .VDIR then some .EISDIR
  else if r.type2 = .VDIR ∧ r.full2 then some .EEXIST
  else none

def sysRename (r : Rename) : List Event × Option Errno :=
  match r.lookup1,r.namei1 with
  | some e,_ => ([],some e)
  | none,some e => ([.take .ddp1,.give .ddp1],some e)
  | none,none =>
    let log := [.take .ddp1,.take .dp1,.take .vp1]
    if r.type1 ≠ .VDIR ∧ r.trailing1 then (log ++ err1,some .ENOTDIR)
    else match r.lookup2 with
      | some e => (log ++ err1,some e)
      | none =>
        let log := log ++ [.take .ddp2]
        match r.namei2 with
        | none =>
          let log := log ++ [.take .dp2,.take .vp2]
          match targetError r with
          | some e => (log ++ err2 true,some e)
          | none => renameChecked r true log
        | some e =>
          if e ≠ .ENOENT then (log ++ err2 false,some e)
          else if r.type1 ≠ .VDIR ∧ r.trailing2 then (log ++ err2 false,some .ENOTDIR)
          else renameChecked r false log

structure Link where
  (nameiOld nameiNew lookup access vopLink : Option Errno)
  vType : VType
  (sameMount alloc : Bool)

def eperm : Errno := .vop 1

def sysLink (r : Link) : List Event × Option Errno :=
  let out := [.give .vp,.give .olddp,.give .newdp]
  match r.nameiOld with
  | some e => ([],some e)
  | none =>
    let log := [.take .olddp,.take .vp]
    if r.vType = .VDIR then (log ++ out,eperm)
    else match r.nameiNew,r.lookup with
      | none,_ => (log ++ .take .newdp::out,some .EEXIST)
      | some _,some e => (log ++ out,some e)
      | some _,none =>
        let log := log ++ [.take .newdirdp,.take .newdvp]
        let out1 := .give .newdvp::.give .newdirdp::out
        if r.sameMount = false then (log ++ out1,some .EXDEV)
        else match r.access with
          | some e => (log ++ out1,some e)
          | none => if r.alloc then (log ++ .take .newdp::out1,r.vopLink) else (log ++ out1,some .ENOMEM)

structure Unlink where
  (lookup namei access vopRemove : Option Errno)
  vType : VType
  vroot : Bool

def ebusy : Errno := .vop 16

def sysUnlink (r : Unlink) : List Event × Option Errno :=
  match r.lookup,r.namei with
  | some e,_ => ([],some e)
  | none,some e => ([.take .ddp,.give .ddp],some e)
  | none,none =>
    let log := [.take .ddp,.take .dp,.take .vp]
    let out := [.give .vp,.give .dp,.give .ddp]
    if r.vType = .VDIR then (log ++ out,some .EISDIR)
    else if r.vroot then (log ++ out,ebusy)
    else match r.access with
      | some e => (log ++ .take .dvp::.give .dvp::out,some e)
      | none => (log ++ [.take .dvp,.give .dvp,.give .vp,.give .ddp,.give .dp],r.vopRemove)

-- What a log leaves held; giving what is not held is an error.
def settle : List Event → List Var → Option (List Var)
  | [],held => some held
  | .take x::log,held => settle log (x::held)
  | .give x::log,held => if x ∈ held then settle log (held.erase x) else none
  | .truncate::log,held => settle log held

inductive Call where
  | sysOpen (f : Flags) (r : SysOpen.Results)
  | sysRename (r : Rename)
  | sysLink (r : Link)
  | sysUnlink (r : Unlink)

def Call.log : Call → List Event
  | .sysOpen f r => (SysOpen.sysOpen f r).1
  | .sysRename r => (NameCalls.sysRename r).1
  | .sysLink r => (NameCalls.sysLink r).1
  | .sysUnlink r => (NameCalls.sysUnlink r).1

-- The file that sys_open returns keeps dp.
def Call.kept : Call → List Var
  | .sysOpen f r => if (SysOpen.sysOpen f r).2.toBool then [.dp] else []
  | _ => []

-- sys_link with an old path has set newdp when it leaves.
def Assigned : Call → Prop
  | .sysLink r => r.nameiOld = none → r.vType ≠ .VDIR ∧
      (r.nameiNew = none ∨ r.lookup = none ∧ r.sameMount = true ∧ r.access = none ∧ r.alloc = true)
  | _ => True

lemma openBalanced (f : Flags) (r : SysOpen.Results) :
    settle (SysOpen.sysOpen f r).1 [] = some (Call.sysOpen f r).kept := by
  simp only [Call.kept,SysOpen.sysOpen,SysOpen.openFile]
  repeat' split <;> try rfl

lemma renameCheckedBalanced (r : Rename) (target : Bool) {log : List Event}
    (taken : log = [.take .ddp1,.take .dp1,.take .vp1,.take .ddp2] ++ if target then [.take .dp2,.take .vp2] else []) :
    settle (renameChecked r target log).1 [] = some [] := by
  subst taken
  unfold renameChecked
  repeat' split <;> try (cases target <;> rfl)

lemma renameBalanced (r : Rename) : settle (sysRename r).1 [] = some [] := by
  unfold sysRename
  repeat' split <;> try rfl
  · exact renameCheckedBalanced r true rfl
  · exact renameCheckedBalanced r false rfl

lemma unlinkBalanced (r : Unlink) : settle (sysUnlink r).1 [] = some [] := by
  unfold sysUnlink
  repeat' split <;> try rfl

lemma linkBalanced (r : Link) : settle (sysLink r).1 [] = some [] ↔ Assigned (.sysLink r) := by
  obtain ⟨nameiOld,nameiNew,lookup,access,vopLink,vType,sameMount,alloc⟩ := r
  unfold sysLink Assigned
  cases nameiOld with
  | some e => exact iff_of_true rfl nofun
  | none => ?_
  -- out gives newdp back on each exit
  by_cases dir : vType = .VDIR
  · simp only [dir,if_true]
    exact iff_of_false nofun fun set => (set trivial).1 rfl
  simp only [dir,if_false]
  cases nameiNew with
  | none => exact iff_of_true rfl fun _ => ⟨dir,.inl rfl⟩
  | some _ => ?_
  cases lookup with
  | some e => exact iff_of_false nofun fun set => by simpa using set trivial
  | none => cases sameMount <;> cases access <;> cases alloc <;> simp [settle,dir]

theorem exitsBalanced (c : Call) : settle c.log [] = some c.kept ↔ Assigned c := by
  cases c with
  | sysOpen f r => exact iff_of_true (openBalanced f r) trivial
  | sysRename r => exact iff_of_true (renameBalanced r) trivial
  | sysLink r => exact linkBalanced r
  | sysUnlink r => exact iff_of_true (unlinkBalanced r) trivial

def linked : Link := ⟨none,some .ENOENT,none,none,none,.VREG,true,true⟩

theorem linkDirectory : settle (Call.sysLink { linked with vType := .VDIR }).log [] = none := rfl

end OsvKernel.NameCalls
