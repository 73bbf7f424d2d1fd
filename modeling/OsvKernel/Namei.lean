import OsvKernel.DentryCache

/-! namei over the mount table, the dentry cache and a file system that looks names up and reads links.
fp is the path that is left to resolve, node the part below the mount point that has been walked. -/
namespace OsvKernel.Namei
open Dentry PathConv

inductive VType where
  | VREG
  | VDIR
  | VLNK
  deriving DecidableEq

inductive Errno where
  | ENOTDIR
  | ENOMEM
  | ELOOP
  | ENOENT
  | EISDIR
  | EEXIST
  | EINVAL
  | EXDEV
  | vop (n : Nat)
  deriving DecidableEq

structure Mount where
  id : Nat
  path : List Char
  root : Nat
  deriving DecidableEq

structure World where
  mounts : List Mount
  lookup : Nat → List Char → Except Errno Nat
  vtype : Nat → VType
  readlink : Nat → Except Errno (List Char)
  memory : Bool
  maxSymlinks : Nat

def matchLoop : List Char → List Char → Nat → Nat × List Char × List Char
  | c::path,d::root,len => if c ≠ d then (len,c::path,d::root) else matchLoop path root (len + 1)
  | path,root,len => (len,path,root)

def countMatch (path root : List Char) : Nat :=
  let (len,path',root') := matchLoop path root 0
  if root' ≠ [] then 0
  else if len = 1 ∧ path.head? = some '/' then 1
  else if path' = [] ∨ path'.head? = some '/' then len
  else 0

def nearer (path : List Char) (best : Option (Mount × Nat)) (m : Mount) : Option (Mount × Nat) :=
  let len := countMatch path m.path
  if len > best.elim 0 Prod.snd then some (m,len) else best

def vfsFindroot (mounts : List Mount) (path : List Char) : Option (Mount × List Char) :=
  (mounts.foldl (nearer path) none).map fun (m,len) =>
    let root := path.drop len
    (m,if root.head? = some '/' then root.tail else root)

def cap (l : List Char) : List Char := l.take (pathMax - 1)

def nameiFollowLink (W : World) (vnode : Nat) (node name fp : List Char) (mountpointLen : Nat) :
    Except Errno (List Char) :=
  match W.readlink vnode with
  | .error e => .error e
  | .ok lp =>
    let p := fp.drop (mountpointLen + node.length)
    let c := node.length - name.length - 1
    if lp.head? = some '/' then .ok (cap (lp ++ p))
    else .ok (cap ((pathConv (fp.take (mountpointLen + c)) lp).getD fp ++ cap p))

inductive Outcome where
  | found (dp : Option Nat)
  | error (e : Errno)
  | follow (fp : List Char)
  deriving DecidableEq

def nextDentry (W : World) (mp : Mount) (s : Cache) (ddp : Nat) (node name : List Char) :
    Option (Cache × Except Errno Nat) := do
  let (s,hit) ← dentryLookup s mp.id node
  match hit with
  | some dp => some (s,.ok dp)
  | none =>
    let e ← s.heap ddp
    match W.lookup e.vnode name with
    | .error x => some (s,.error x)
    | .ok vp =>
      let (s,new) ← dentryAlloc s W.memory (some ddp) vp mp.id node
      match new with
      | none => some (s,.error .ENOMEM)
      | some dp => some (s,.ok dp)

def failWith (s : Cache) (d : Nat) (e : Errno) : Option (Cache × Outcome) :=
  (release s d).map fun s => (s,.error e)

def walkLoop (W : World) (mp : Mount) (mountpointLen : Nat) (fp : List Char) :
    Nat → Cache → List Char → List Char → Nat → Option Nat → Option (Cache × Outcome)
  | 0,_,_,_,_,_ => none
  | n+1,s,p,node,ddp,dp =>
    let p := p.dropWhile (· = '/')
    if p = [] then some (s,.found dp)
    else do
      let name := p.takeWhile (· ≠ '/')
      let p := p.dropWhile (· ≠ '/')
      let node := cap (cap (node ++ ['/']) ++ name)
      let (s,next) ← nextDentry W mp s ddp node name
      match next with
      | .error x => failWith s ddp x
      | .ok dp =>
        let s ← release s ddp
        let e ← s.heap dp
        if W.vtype e.vnode = .VLNK then
          match nameiFollowLink W e.vnode node name fp mountpointLen with
          | .error x => failWith s dp x
          | .ok fp => (release s dp).map fun s => (s,.follow fp)
        else if p.head? = some '/' ∧ W.vtype e.vnode ≠ .VDIR then failWith s dp .ENOTDIR
        else walkLoop W mp mountpointLen fp n s p node dp (some dp)

def pass (W : World) (s : Cache) (fp : List Char) : Option (Cache × Outcome) :=
  match vfsFindroot W.mounts fp with
  | none => some (s,.error .ENOTDIR)
  | some (mp,p) => do
    let (s,hit) ← dentryLookup s mp.id (cap ('/'::p))
    match hit with
    | some dp => some (s,.found (some dp))
    | none =>
      let s ← dref s mp.root
      walkLoop W mp (fp.length - p.length - 1) fp (p.length + 1) s p [] mp.root none

def nameiLoop (W : World) (n : Nat) (s : Cache) (fp : List Char) : Option (Cache × Except Errno (Option Nat)) := do
  let (s,out) ← pass W s fp
  match out with
  | .found dp => some (s,.ok dp)
  | .error e => some (s,.error e)
  | .follow fp =>
    match n with
    | n+1 => nameiLoop W n s fp
    | 0 => some (s,.error .ELOOP)
termination_by structural n

def namei (W : World) (s : Cache) (path : List Char) : Option (Cache × Except Errno (Option Nat)) :=
  nameiLoop W (W.maxSymlinks - 1) s (cap path)

end OsvKernel.Namei
