import OsvKernel.Lists
import OsvKernel.PathConv
import OsvKernel.Runs
import OsvKernel.Words

/-! The dentry cache of the VFS: dentries are linked through d_link into the bucket of their mount and
path, or into the fake list once removed, and through d_children_link into their parent's children.
Both kinds of lists are raw links in memory. -/
namespace OsvKernel.Dentry
open PathConv (pathMax)
open Words (int32)

inductive Head where
  | bucket (i : Nat)
  | fake
  deriving DecidableEq

structure Entry where
  refcnt : Int
  vnode : Nat
  mount : Nat
  path : List Char
  parent : Option Nat
  deriving DecidableEq

structure Cache where
  next : Nat
  heap : Nat → Option Entry
  link : Lists.Mem Head Nat
  kids : Lists.Mem Nat Nat
  linked : Nat → Nat
  unlinked : Nat → Nat
  stray : Bool

def charValue (c : Char) : Nat := if c.toNat < 128 then c.toNat else c.toNat + 2^32 - 256

def dentryHash (mp : Nat) (path : List Char) : Nat :=
  (path.foldl (fun val c => (val * 33 + charValue c) % 2^32) 0 ^^^ mp) % 32

def Cache.insertHead (s : Cache) (h : Head) (d : Nat) : Cache :=
  { s with link := Lists.insertHead s.link h d, linked := Function.update s.linked d (s.linked d + 1) }

def Cache.unlink (s : Cache) (d : Nat) : Cache :=
  { s with
    link := Lists.remove s.link d
    unlinked := Function.update s.unlinked d (s.unlinked d + 1)
    stray := s.stray || decide (s.linked d ≤ s.unlinked d) }

def Cache.write (s : Cache) (d : Nat) (e : Entry) : Cache := { s with heap := Function.update s.heap d (some e) }
def Cache.free (s : Cache) (d : Nat) : Cache := { s with heap := Function.update s.heap d none }

def dref (s : Cache) (d : Nat) : Option Cache :=
  (s.heap d).map fun e => s.write d { e with refcnt := int32 (e.refcnt + 1) }

def adopt (s : Cache) (d : Nat) : Option Nat → Option Cache
  | none => some s
  | some p => (dref s p).map fun s => { s with kids := Lists.insertHead s.kids p d }

def dentryAlloc (s : Cache) (memory : Bool) (parent : Option Nat) (vnode mount : Nat) (path : List Char) :
    Option (Cache × Option Nat) :=
  if memory then
    let d := s.next
    let s := { s.write d ⟨1,vnode,mount,path,parent⟩ with next := s.next + 1, kids := Lists.init s.kids d }
    (adopt s d parent).map fun s => (s.insertHead (.bucket (dentryHash mount path)) d,some d)
  else some (s,none)

def sameName (s : Cache) (mp : Nat) (path : List Char) (d : Nat) : Bool :=
  match s.heap d with
  | none => false
  | some e => decide (e.mount = mp ∧ e.path.take pathMax = path.take pathMax)

def dentryFind (s : Cache) (mp : Nat) (path : List Char) : Option Nat :=
  (Lists.walk s.link s.next (.first (.bucket (dentryHash mp path)))).find? (sameName s mp path)

def dentryLookup (s : Cache) (mp : Nat) (path : List Char) : Option (Cache × Option Nat) :=
  match dentryFind s mp path with
  | none => some (s,none)
  | some d => (dref s d).map fun s => (s,some d)

def dentryChildrenRemove (s : Cache) (d : Nat) : Cache :=
  (Lists.walk s.kids s.next (.first d)).foldl Cache.unlink s

def drele : Nat → Cache → Nat → Option Cache
  | 0,_,_ => none
  | fuel+1,s,d =>
    match s.heap d with
    | none => none
    | some e =>
      let left := int32 (e.refcnt - 1)
      let s := s.write d { e with refcnt := left }
      if left ≠ 0 then some s
      else
        let s := s.unlink d
        match e.parent with
        | none => some (s.free d)
        | some p => drele fuel ({ s with kids := Lists.remove s.kids d }.free d) p

def release (s : Cache) (d : Nat) : Option Cache := drele (s.next + 1) s d

def dentryMove (s : Cache) (d : Nat) (parent : Option Nat) (path : List Char) : Option Cache := do
  let e ← s.heap d
  let s := if e.parent.isSome then { s with kids := Lists.remove s.kids d } else s
  let s ← adopt s d parent
  let s := (dentryChildrenRemove s d).unlink d
  let e' ← s.heap d
  let s := (s.write d { e' with path := path, parent := parent }).insertHead (.bucket (dentryHash e.mount path)) d
  match e.parent with
  | none => some s
  | some p => release s p

def dentryRemove (s : Cache) (d : Nat) : Cache := (s.unlink d).insertHead .fake d

/-! Callers hold references, and remember which dentries they have removed. -/

structure State where
  cache : Cache
  held : Nat → Nat
  removed : Nat → Bool

inductive Op where
  | alloc (memory : Bool) (parent : Option Nat) (vnode mount : Nat) (path : List Char)
  | lookup (mount : Nat) (path : List Char)
  | dref (d : Nat)
  | drele (d : Nat)
  | remove (d : Nat)
  | move (d : Nat) (parent : Option Nat) (path : List Char)

def State.gain (s : State) (cache : Cache) : Option Nat → State
  | none => { s with cache := cache }
  | some d => { s with cache := cache, held := Function.update s.held d (s.held d + 1) }

def step (s : State) : Op → Option State
  | .alloc memory parent vnode mount path =>
    (dentryAlloc s.cache memory parent vnode mount path).map fun out => s.gain out.1 out.2
  | .lookup mount path => (dentryLookup s.cache mount path).map fun out => s.gain out.1 out.2
  | .dref d => (dref s.cache d).map fun cache => s.gain cache (some d)
  | .drele d =>
    (release s.cache d).map fun cache => { s with cache := cache, held := Function.update s.held d (s.held d - 1) }
  | .remove d => some { s with cache := dentryRemove s.cache d, removed := Function.update s.removed d true }
  | .move d parent path => (dentryMove s.cache d parent path).map fun cache => { s with cache := cache }

def HeldParent (s : State) (parent : Option Nat) : Prop := ∀ p ∈ parent, 0 < s.held p

/-- Callers pass only dentries they hold a reference to, and remove a dentry once. -/
def Legal (s : State) : Op → Prop
  | .alloc _ parent _ _ path => HeldParent s parent ∧ path.length < pathMax
  | .lookup _ path => path.length < pathMax
  | .dref d => 0 < s.held d
  | .drele d => 0 < s.held d
  | .remove d => 0 < s.held d ∧ s.removed d = false
  | .move d parent path => 0 < s.held d ∧ HeldParent s parent ∧ path.length < pathMax

def home (s : State) (d : Nat) (e : Entry) : Head :=
  if s.removed d then .fake else .bucket (dentryHash e.mount e.path)

def Linked (s : Cache) (h : Head) (d : Nat) : Prop := ∃ l, Lists.Chain s.link (.first h) l ∧ d ∈ l

def isChild (s : Cache) (p c : Nat) : Bool :=
  match s.heap c with
  | none => false
  | some e => decide (e.parent = some p)

def children (s : Cache) (p : Nat) : Nat := (List.range s.next).countP (isChild s p)

def Named (s : State) (mp : Nat) (path : List Char) (d : Nat) : Prop :=
  s.removed d = false ∧ ∃ e, s.cache.heap d = some e ∧ e.mount = mp ∧ e.path = path

structure Holds (s : State) : Prop where
  linked : ∀ d e h, s.cache.heap d = some e → (Linked s.cache h d ↔ h = home s d e)
  unlinked : ∀ d, s.cache.linked d = s.cache.unlinked d + if (s.cache.heap d).isSome then 1 else 0
  straight : s.cache.stray = false
  counted : ∀ d e, s.cache.heap d = some e → e.refcnt = s.held d + children s.cache d
  found : ∀ mp path d, path.length < pathMax → dentryFind s.cache mp path = some d → Named s mp path d
  finds : ∀ mp path d, path.length < pathMax → Named s mp path d → ∃ d', dentryFind s.cache mp path = some d'

end OsvKernel.Dentry
