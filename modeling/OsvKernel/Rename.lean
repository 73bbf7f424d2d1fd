import OsvKernel.Namei

/-! sys_rename: the two lookups of the source and the destination, the checks, VOP_RENAME, and what is
then done to the dentry cache. -/
namespace OsvKernel.Rename
open Dentry PathConv Namei

structure Files where
  access : Nat → Except Errno Unit
  emptyDir : Nat → Bool
  rename : Nat → Nat → List Char → Nat → Option Nat → List Char → Except Errno Unit
  mountOf : Nat → Nat

def afterSlash (path : List Char) : List Char := (path.reverse.takeWhile (· ≠ '/')).reverse
def beforeSlash (path : List Char) : List Char := (path.reverse.dropWhile (· ≠ '/')).tail.reverse

def isParent (parent child : List Char) : Bool :=
  parent.isPrefixOf child && (parent.getLast? = some '/' || child[parent.length]? = some '/')

def hasTrailing (path : List Char) (ch : Char) : Bool := path.getLast? = some ch
def stripTrailing (path : List Char) (ch : Char) : List Char := (path.reverse.dropWhile (· = ch)).reverse

def stripped (path : List Char) : List Char × Bool :=
  if hasTrailing path '/' ∧ path.length ≠ 1 then (stripTrailing path '/',true) else (path,false)

def vnodeOf (s : Cache) (d : Nat) : Option Nat := (s.heap d).map Entry.vnode

def lookup (W : World) (s : Cache) (path : List Char) : Option (Cache × Except Errno Nat) :=
  let buf := cap path
  if buf = [] then some (s,.error .ENOTDIR)
  else if '/' ∉ buf then none
  else do
    let dir := if beforeSlash buf = [] then ['/'] else beforeSlash buf
    let (s,out) ← namei W s dir
    match out with
    | .error e => some (s,.error e)
    | .ok dp =>
      let dp ← dp
      let v ← vnodeOf s dp
      if W.vtype v ≠ .VDIR then (release s dp).map fun s => (s,.error .ENOTDIR)
      else some (s,.ok dp)

def nameiLastNofollow (W : World) (s : Cache) (path : List Char) (ddp : Nat) : Option (Cache × Except Errno Nat) :=
  if path.head? ≠ some '/' then some (s,.error .ENOTDIR)
  else
    match vfsFindroot W.mounts path with
    | none => some (s,.error .ENOTDIR)
    | some (mp,p) =>
      let node := cap ('/'::p)
      let node := if node.length ≠ 1 ∧ node.getLast? = some '/' then node.dropLast else node
      nextDentry W mp s ddp node (afterSlash path)

structure Pair where
  ddp1 : Nat
  dp1 : Nat
  ddp2 : Nat
  dp2 : Option Nat
  dname : List Char

def releases (s : Cache) (ds : List Nat) : Option Cache := ds.foldlM release s

def leave (s : Cache) (ds : List Nat) (e : Except Errno Unit) : Option (Cache × Except (Except Errno Unit) Pair) :=
  (releases s ds).map fun s => (s,.error e)

def targetError (W : World) (F : Files) (v1 v2 : Nat) (ts : Bool) : Option Errno :=
  if W.vtype v2 ≠ .VDIR ∧ W.vtype v2 ≠ .VLNK ∧ (W.vtype v1 = .VDIR ∨ ts = true) then some .ENOTDIR
  else if (W.vtype v2 = .VDIR ∨ W.vtype v2 = .VLNK) ∧ W.vtype v1 ≠ .VDIR ∧ W.vtype v2 = .VDIR then some .EISDIR
  else if W.vtype v2 = .VDIR ∧ F.emptyDir v2 = false then some .EEXIST
  else none

def renameCheck (W : World) (F : Files) (s : Cache) (src dest : List Char) (ts : Bool) (v1 : Nat) (v2 : Option Nat)
    (p : Pair) : Option (Cache × Except (Except Errno Unit) Pair) :=
  let err2 := p.dp2.toList ++ [p.ddp2,p.dp1,p.ddp1]
  let exit (e : Except Errno Unit) := leave s err2 e
  let wrong : Option Errno := match v2 with
    | some v2 => targetError W F v1 v2 ts
    | none => if W.vtype v1 ≠ .VDIR ∧ ts = true then some .ENOTDIR else none
  match wrong with
  | some e => exit (.error e)
  | none =>
    if src = dest then exit (if p.dp2.isSome then .ok () else .error .ENOENT)
    else if isParent src dest then exit (.error .EINVAL)
    else if '/' ∉ dest then exit (.error .ENOTDIR)
    else do
      let dv1 ← vnodeOf s p.ddp1
      let dv2 ← vnodeOf s p.ddp2
      match F.access dv1,F.access dv2 with
      | .error e,_ => exit (.error e)
      | _,.error e => exit (.error e)
      | _,_ =>
        if F.mountOf dv1 ≠ F.mountOf dv2 then exit (.error .EXDEV)
        else some (s,.ok { p with dname := afterSlash dest })

def renamePrepare (W : World) (F : Files) (s : Cache) (src dest : List Char) :
    Option (Cache × Except (Except Errno Unit) Pair) := do
  let (src,ts) := stripped src
  let (s,parent) ← lookup W s src
  match parent with
  | .error e => some (s,.error (.error e))
  | .ok ddp1 =>
    let (s,found) ← nameiLastNofollow W s src ddp1
    match found with
    | .error e => leave s [ddp1] (.error e)
    | .ok dp1 =>
      let v1 ← vnodeOf s dp1
      if W.vtype v1 ≠ .VDIR ∧ ts = true then leave s [dp1,ddp1] (.error .ENOTDIR)
      else
        let (dest,ts) := stripped dest
        let (s,parent) ← lookup W s dest
        match parent with
        | .error e => leave s [dp1,ddp1] (.error e)
        | .ok ddp2 =>
          let (s,found) ← nameiLastNofollow W s dest ddp2
          match found with
          | .ok dp2 =>
            let v2 ← vnodeOf s dp2
            renameCheck W F s src dest ts v1 (some v2) ⟨ddp1,dp1,ddp2,some dp2,[]⟩
          | .error .ENOENT => renameCheck W F s src dest ts v1 none ⟨ddp1,dp1,ddp2,none,[]⟩
          | .error e => leave s [ddp2,dp1,ddp1] (.error e)

def vopRename (F : Files) (s : Cache) (src : List Char) (p : Pair) : Option (Except Errno Unit) := do
  let dv1 ← vnodeOf s p.ddp1
  let v1 ← vnodeOf s p.dp1
  let dv2 ← vnodeOf s p.ddp2
  some (F.rename dv1 v1 (afterSlash src) dv2 (p.dp2.bind (vnodeOf s)) p.dname)

def renameFinish (s : Cache) (p : Pair) : Option Cache := do
  let s ← dentryMove s p.dp1 (some p.ddp2) p.dname
  let s := match p.dp2 with
    | some dp2 => dentryRemove s dp2
    | none => s
  releases s (p.dp2.toList ++ [p.ddp2,p.dp1,p.ddp1])

def sysRename (W : World) (F : Files) (s : Cache) (src dest : List Char) : Option (Cache × Except Errno Unit) := do
  let (s,ready) ← renamePrepare W F s src dest
  match ready with
  | .error e => some (s,e)
  | .ok p =>
    let error ← vopRename F s (stripped src).1 p
    let s ← renameFinish s p
    some (s,error)

end OsvKernel.Rename
