import OsvKernel.Chains
import OsvKernel.RamfsFile

/-! The directories of ramfs: nodes with sibling lists linked through rn_child and rn_next, and ramfs_rename over
them. Reading a node that has been freed has no result, nor does a loop that goes on for n rounds. -/
namespace OsvKernel.RamfsTree
open RamfsFile (VType Byte)
open Chains (Linked)
open Function Option List

inductive Errno where
  | EBUSY
  | ENOENT
  | ENOMEM
  deriving DecidableEq

structure Info (B : Type) where
  type : VType
  name : List Byte
  namelen : Nat
  size : Nat
  buf : Option B
  bufsize : Nat

structure Heap (P B : Type) where
  next : P → Option P
  child : P → Option P
  info : P → Option (Info B)
  bytes : B → Option (List Byte)

structure Vnode (P : Type) where
  data : P
  type : VType

structure Memory (P : Type) where
  node : Option P
  names : Bool

def strlcpy (dst src : List Byte) (n : Nat) : List Byte :=
  src.take (n - 1) ++ 0::dst.drop ((src.take (n - 1)).length + 1)

def Info.label {B : Type} (i : Info B) : List Byte := i.name.take i.namelen

section
variable {P B V : Type} [DecidableEq P] [DecidableEq B] [DecidableEq V]

namespace Heap

def setInfo (h : Heap P B) (p : P) (i : Option (Info B)) : Heap P B := { h with info := update h.info p i }
def setNext (h : Heap P B) (p : P) (q : Option P) : Heap P B := { h with next := update h.next p q }
def setChild (h : Heap P B) (p : P) (q : Option P) : Heap P B := { h with child := update h.child p q }

end Heap

def ramfsAllocateNode (m : Memory P) (h : Heap P B) (name : List Byte) (type : VType) : Option P × Heap P B :=
  match m.node with
  | none => (none,h)
  | some p =>
    if m.names then
      (some p,((h.setInfo p (some ⟨type,strlcpy [] name (name.length + 1),name.length,0,none,0⟩)).setNext p none).setChild p none)
    else (none,h)

def freeBuffer (h : Heap P B) : Option B → Heap P B
  | none => h
  | some b => { h with bytes := update h.bytes b none }

def ramfsFreeNode (h : Heap P B) (p : P) (i : Info B) : Heap P B := (freeBuffer h i.buf).setInfo p none

def lastSibling (h : Heap P B) : Nat → P → Option P
  | 0,_ => none
  | n+1,prev => (h.info prev).bind fun _ =>
    match h.next prev with
    | none => some prev
    | some p => lastSibling h n p

def ramfsAddNode (n : Nat) (m : Memory P) (h : Heap P B) (dnp : P) (name : List Byte) (type : VType) :
    Option (Option P × Heap P B) :=
  match ramfsAllocateNode m h name type with
  | (none,h) => some (none,h)
  | (some np,h) => (h.info dnp).bind fun _ =>
    match h.child dnp with
    | none => some (some np,h.setChild dnp (some np))
    | some first => (lastSibling h n first).map fun prev => (some np,h.setNext prev (some np))

def previous (h : Heap P B) (np : P) : Nat → P → Option (Option P)
  | 0,_ => none
  | n+1,prev => (h.info prev).bind fun _ =>
    if h.next prev = some np then some (some prev)
    else match h.next prev with
      | none => some none
      | some p => previous h np n p

def ramfsRemoveNode (n : Nat) (h : Heap P B) (dnp np : P) : Option (Except Errno (Heap P B)) :=
  (h.info dnp).bind fun _ =>
    match h.child dnp with
    | none => some (.error .EBUSY)
    | some first =>
      if first = np then (h.info np).map fun i => .ok (ramfsFreeNode (h.setChild dnp (h.next np)) np i)
      else (previous h np n first).bind fun prev =>
        match prev with
        | none => some (.error .ENOENT)
        | some prev => (h.info np).map fun i => .ok (ramfsFreeNode (h.setNext prev (h.next np)) np i)

def ramfsRenameNode (m : Memory P) (h : Heap P B) (np : P) (name : List Byte) : Option (Except Errno (Heap P B)) :=
  (h.info np).map fun i =>
    if name.length ≤ i.namelen then
      .ok (h.setInfo np (some { i with name := strlcpy i.name name (i.namelen + 1), namelen := name.length }))
    else if m.names then
      .ok (h.setInfo np (some { i with name := strlcpy [] name (name.length + 1), namelen := name.length }))
    else .error .ENOMEM

def moveData (h : Heap P B) (np old : P) (type : VType) : Option (Heap P B) :=
  if type = .VREG then
    (h.info old).bind fun i => (h.info np).map fun j =>
      (h.setInfo np (some { j with buf := i.buf, size := i.size, bufsize := i.bufsize })).setInfo old (some { i with buf := none })
  else some h

def removeTarget (n : Nat) (h : Heap P B) (vnode : V → Vnode P) (dvp2 : V) :
    Option V → Option (Except Errno (Heap P B))
  | none => some (.ok h)
  | some vp2 => ramfsRemoveNode n h (vnode dvp2).data (vnode vp2).data

def moveAcross (n : Nat) (m : Memory P) (h : Heap P B) (dnp1 : P) (vp1 : Vnode P) (dnp2 : P) (name2 : List Byte) :
    Option (Except Errno (Heap P B)) :=
  (ramfsAddNode n m h dnp2 name2 .VREG).bind fun added =>
    match added with
    | (none,_) => some (.error .ENOMEM)
    | (some np,h) => (moveData h np vp1.data vp1.type).bind fun h =>
      -- the result of this removal is not looked at
      (ramfsRemoveNode n h dnp1 vp1.data).map fun removed =>
        match removed with
        | .error _ => .ok h
        | .ok h => .ok h

def ramfsRename (n : Nat) (m : Memory P) (h : Heap P B) (vnode : V → Vnode P) (dvp1 vp1 dvp2 : V) (vp2 : Option V)
    (name2 : List Byte) : Option (Except Errno (Heap P B)) :=
  (removeTarget n h vnode dvp2 vp2).bind fun removed =>
    match removed with
    | .error e => some (.error e)
    | .ok h =>
      if dvp1 = dvp2 then ramfsRenameNode m h (vnode vp1).data name2
      else moveAcross n m h (vnode dvp1).data (vnode vp1) (vnode dvp2).data name2

def named (h : Heap P B) (name : List Byte) (p : P) : Bool :=
  match h.info p with
  | none => false
  | some i => i.namelen = name.length ∧ i.name.take name.length = name

def lookupNode (h : Heap P B) (name : List Byte) : Nat → Option P → Option (Option P)
  | _,none => some none
  | 0,some _ => none
  | n+1,some p => (h.info p).bind fun _ => if named h name p then some (some p) else lookupNode h name n (h.next p)

/-! What the directories say. -/

def Finds (h : Heap P B) (d : P) (name : List Byte) (found : Option P) : Prop :=
  (h.info d).isSome = true ∧ ∃ ps, Linked h.next (h.child d) ps ∧ ps.find? (named h name) = found

def content (h : Heap P B) (i : Info B) : Option (List Byte) :=
  match i.buf with
  | none => some []
  | some b => (h.bytes b).map (·.take i.size)

inductive Tree where
  | node (type : VType) (size : Nat) (content : List Byte) (entries : List (List Byte × Tree))

def siblings (h : Heap P B) : Nat → Option P → Option (List P)
  | _,none => some []
  | 0,some _ => none
  | n+1,some p => (h.info p).bind fun _ => (siblings h n (h.next p)).map (p::·)

def subtree (h : Heap P B) : Nat → P → Option Tree
  | 0,_ => none
  | n+1,p => (h.info p).bind fun i => (content h i).bind fun data => (siblings h n (h.child p)).bind fun ps =>
    (ps.mapM fun c => (h.info c).bind fun j => (subtree h n c).map fun t => (j.label,t)).map (.node i.type i.size data)

structure Forest (h : Heap P B) (kids : P → List P) : Prop where
  linked : ∀ p, (h.info p).isSome = true → Linked h.next (h.child p) (kids p)
  alloc : ∀ p, ∀ c ∈ kids p, (h.info c).isSome = true
  unused : ∀ p, h.info p = none → kids p = []
  nodup : ∀ p, (kids p).Nodup
  one : ∀ p q c, c ∈ kids p → c ∈ kids q → p = q
  names : ∀ p i, h.info p = some i → i.namelen < i.name.length
  apart : ∀ d, ∀ a ∈ kids d, ∀ b ∈ kids d, ∀ i j, h.info a = some i → h.info b = some j → i.label = j.label → a = b
  data : ∀ p i b, h.info p = some i → i.buf = some b → (h.bytes b).isSome = true
  own : ∀ p q i j b, h.info p = some i → h.info q = some j → i.buf = some b → j.buf = some b → p = q

def Acyclic (kids : P → List P) : Prop := ∃ rank : P → Nat, ∀ p, ∀ c ∈ kids p, rank c < rank p

structure Valid (h : Heap P B) (kids : P → List P) (m : Memory P) (vnode : V → Vnode P) (dvp1 vp1 : V) (name1 : List Byte)
    (dvp2 : V) (vp2 : Option V) (name2 : List Byte) : Prop where
  first : (h.info (vnode dvp1).data).isSome = true
  second : (h.info (vnode dvp2).data).isSome = true
  source : (vnode vp1).data ∈ kids (vnode dvp1).data
  sourceName : ∀ i, h.info (vnode vp1).data = some i → i.label = name1 ∧ i.type = (vnode vp1).type
  absent : vp2 = none → ∀ c ∈ kids (vnode dvp2).data, ∀ i, h.info c = some i → i.label ≠ name2
  target : ∀ v ∈ vp2, (vnode v).data ∈ kids (vnode dvp2).data ∧ kids (vnode v).data = [] ∧ (vnode v).data ≠ (vnode vp1).data ∧
    ∀ i, h.info (vnode v).data = some i → i.label = name2
  fresh : ∀ p ∈ m.node, h.info p = none ∨ ∃ v ∈ vp2, p = (vnode v).data

structure Renamed (h h' : Heap P B) (vnode : V → Vnode P) (dvp1 vp1 : V) (name1 : List Byte) (dvp2 : V) (name2 : List Byte) :
    Prop where
  target : ∃ p, Finds h' (vnode dvp2).data name2 (some p) ∧ ∀ n, subtree h' n p = subtree h n (vnode vp1).data
  source : Finds h' (vnode dvp1).data name1 none
  others : ∀ d, d = (vnode dvp1).data ∨ d = (vnode dvp2).data → ∀ name, ¬ (d = (vnode dvp1).data ∧ name = name1) →
    ¬ (d = (vnode dvp2).data ∧ name = name2) → ∀ found, (Finds h' d name found ↔ Finds h d name found) ∧
      ∀ p ∈ found, Finds h d name found → h'.info p = h.info p ∧ ∀ i, h.info p = some i → content h' i = content h i
  vnode : Finds h' (vnode dvp2).data name2 (some (vnode vp1).data)

/-! The loops over a sibling list. -/

variable {h h' : Heap P B} {kids : P → List P} {d p c : P} {n : Nat} {ps : List P} {name : List Byte}

lemma lastSiblingEnds (linked : Linked h.next (some p) ps) (alloc : ∀ c ∈ ps, (h.info c).isSome = true)
    (enough : ps.length ≤ n) : ∃ pre prev, ps = pre ++ [prev] ∧ lastSibling h n p = some prev := by
  induction n generalizing p ps with
  | zero =>
    obtain ⟨rest,rfl,_⟩ := linked.headSome
    cases enough
  | succ n ih => ?_
  obtain ⟨rest,rfl,tail⟩ := linked.headSome
  obtain ⟨i,here⟩ := isSome_iff_exists.mp (alloc p (.head _))
  rw [lastSibling,here]
  generalize next : h.next p = x at tail ⊢
  rcases x with _ | q
  · rw [tail.headNone]
    exact ⟨[],p,rfl,rfl⟩
  obtain ⟨pre,prev,eq,found⟩ := ih tail (fun c mem => alloc c (.tail _ mem)) (Nat.le_of_succ_le_succ enough)
  refine ⟨p::pre,prev,by rw [eq]; rfl,?_⟩
  exact found

lemma previousFound (linked : Linked h.next (some p) (p::ps)) (alloc : ∀ c ∈ p::ps, (h.info c).isSome = true)
    (mem : c ∈ ps) (nodup : (p::ps).Nodup) (enough : ps.length ≤ n) :
    ∃ pre prev post, p::ps = pre ++ prev::c::post ∧ previous h c n p = some (some prev) := by
  induction n generalizing p ps with
  | zero =>
    rw [length_eq_zero_iff.mp (Nat.le_zero.mp enough)] at mem
    cases mem
  | succ n ih => ?_
  obtain ⟨rest,eq,tail⟩ := linked.headSome
  cases eq
  obtain ⟨i,here⟩ := isSome_iff_exists.mp (alloc p (.head _))
  simp only [previous,here,bind_some]
  rcases ps with _ | ⟨q,ps⟩
  · cases mem
  have next : h.next p = some q := tail.headEq
  rw [next] at tail ⊢
  by_cases same : q = c
  · subst same
    exact ⟨[],p,ps,rfl,if_pos rfl⟩
  rw [if_neg (fun eq => same (some.inj eq))]
  have inside := (mem_cons.mp mem).resolve_left fun eq => same eq.symm
  obtain ⟨pre,prev,post,eq,found⟩ := ih tail (fun c mem => alloc c (.tail _ mem)) inside
    (nodup_cons.mp nodup).2 (Nat.le_of_succ_le_succ enough)
  exact ⟨p::pre,prev,post,by rw [eq]; rfl,found⟩

lemma siblingsList {head : Option P} (linked : Linked h.next head ps) (alloc : ∀ c ∈ ps, (h.info c).isSome = true) :
    siblings h n head = if ps.length ≤ n then some ps else none := by
  induction linked generalizing n with
  | nil => cases n <;> rfl
  | @cons p ps rest ih => ?_
  rcases n with _ | n
  · rfl
  obtain ⟨i,here⟩ := isSome_iff_exists.mp (alloc p (.head _))
  simp only [siblings,here,bind_some,ih fun c mem => alloc c (.tail _ mem)]
  simp only [length_cons,Nat.add_le_add_iff_right]
  split <;> rfl

/-! Removing, adding and renaming nodes of a tree. -/

structure Unlinked (h h' : Heap P B) (kids : P → List P) (d c : P) (i : Info B) : Prop where
  info : h'.info = update h.info c none
  bytes : h'.bytes = (freeBuffer h i.buf).bytes
  child : ∀ p, p ≠ d → h'.child p = h.child p
  next : ∀ p, p ∉ kids d → h'.next p = h.next p
  linked : Linked h'.next (h'.child d) ((kids d).erase c)

lemma freeBufferOther {buf : Option B} {b : B} (other : buf ≠ some b) : (freeBuffer h buf).bytes b = h.bytes b := by
  cases buf with
  | none => rfl
  | some a => exact update_of_ne (fun same => other (congrArg some same.symm)) _ _

lemma removeUnlinks (linked : Linked h.next (h.child d) (kids d)) (nodup : (kids d).Nodup)
    (alloc : ∀ a ∈ kids d, (h.info a).isSome = true) (dir : (h.info d).isSome = true) (mem : c ∈ kids d)
    (enough : (kids d).length ≤ n) :
    ∃ h' i, h.info c = some i ∧ ramfsRemoveNode n h d c = some (.ok h') ∧ Unlinked h h' kids d c i := by
  obtain ⟨i,here⟩ := isSome_iff_exists.mp (alloc c mem)
  obtain ⟨_,open_⟩ := isSome_iff_exists.mp dir
  have free : ∀ g : Heap P B, (ramfsFreeNode g c i).next = g.next ∧ (ramfsFreeNode g c i).child = g.child := fun g => by
    unfold ramfsFreeNode
    cases i.buf <;> exact ⟨rfl,rfl⟩
  have rest : ∀ g : Heap P B, g.info = h.info → g.bytes = h.bytes → (ramfsFreeNode g c i).info = update h.info c none ∧
    (ramfsFreeNode g c i).bytes = (freeBuffer h i.buf).bytes := fun g info bytes => by
    simp only [ramfsFreeNode,Heap.setInfo]
    cases i.buf with
    | none => exact ⟨by rw [← info]; rfl,bytes⟩
    | some b => exact ⟨by rw [← info]; rfl,by simp only [freeBuffer,bytes]⟩
  generalize list : kids d = x at mem linked nodup alloc enough ⊢
  rcases x with _ | ⟨first,ps⟩
  · cases mem
  have head : h.child d = some first := linked.headEq
  rw [head] at linked
  by_cases same : first = c
  · subst same
    obtain ⟨_,eq,tail⟩ := linked.headSome
    cases eq
    refine ⟨ramfsFreeNode (h.setChild d (h.next first)) first i,i,here,?_,?_⟩
    · simp [ramfsRemoveNode,open_,bind_some,head,here,map_some]
    obtain ⟨info,bytes⟩ := rest (h.setChild d (h.next first)) rfl rfl
    refine ⟨info,bytes,fun p ne => ?_,fun p _ => ?_,?_⟩
    · rw [(free _).2]
      exact update_of_ne ne _ _
    · rw [(free _).1]
      rfl
    rw [(free _).1,(free _).2,list,erase_cons_head]
    change Linked h.next (update h.child d (h.next first) d) ps
    rw [update_self]
    exact tail
  have inside := (mem_cons.mp mem).resolve_left fun eq => same eq.symm
  obtain ⟨pre,prev,post,eq,found⟩ := previousFound linked alloc inside nodup (Nat.le_of_succ_le enough)
  refine ⟨ramfsFreeNode (h.setNext prev (h.next c)) c i,i,here,?_,?_⟩
  · simp [ramfsRemoveNode,open_,bind_some,head,if_neg same,found,here,map_some]
  obtain ⟨info,bytes⟩ := rest (h.setNext prev (h.next c)) rfl rfl
  refine ⟨info,bytes,fun p _ => ?_,fun p off => ?_,?_⟩
  · rw [(free _).2]
    rfl
  · rw [(free _).1]
    refine update_of_ne (fun same => off ?_) _ _
    rw [list,eq,same]
    exact mem_append_right _ (.head _)
  rw [(free _).1,(free _).2,list]
  change Linked (update h.next prev (h.next c)) (h.child d) _
  rw [head]
  rw [eq] at linked nodup ⊢
  have gone : (pre ++ prev::c::post).erase c = pre ++ prev::post := by
    have split : pre ++ prev::c::post = (pre ++ [prev]) ++ c::post := by simp
    rw [split] at nodup ⊢
    have off : c ∉ pre ++ [prev] := fun mem => (nodup_append.mp nodup).2.2 c mem c (.head _) rfl
    rw [erase_append_right _ off,erase_cons_head]
    simp
  rw [gone]
  exact linked.cut nodup

def without (kids : P → List P) (d c : P) : P → List P := update (update kids d ((kids d).erase c)) c []

lemma withoutSub (p : P) : (without kids d c p).Sublist (kids p) := by
  simp only [without,update_apply]
  split
  · exact nil_sublist _
  split
  next same =>
    subst same
    exact erase_sublist
  next => exact Sublist.refl _

lemma withoutGone (nodup : (kids d).Nodup) (one : ∀ p, c ∈ kids p → p = d) (p : P) : c ∉ without kids d c p := by
  intro mem
  have here := one p ((withoutSub p).subset mem)
  subst here
  simp only [without,update_apply,if_true] at mem
  split at mem
  · cases mem
  exact nodup.not_mem_erase mem

variable {i j : Info B} {m : Memory P} {np : P}

lemma Unlinked.forest (un : Unlinked h h' kids d c i) (forest : Forest h kids) (here : h.info c = some i)
    (mem : c ∈ kids d) (ne : d ≠ c) : Forest h' (without kids d c) := by
  have sub : ∀ p, ∀ a ∈ without kids d c p, a ∈ kids p := fun p a mem => (withoutSub p).subset mem
  have gone := withoutGone (forest.nodup d) fun p inside => forest.one p d c inside mem
  have info : ∀ p j, h'.info p = some j → p ≠ c ∧ h.info p = some j := fun p j there => by
    rw [un.info,update_apply] at there
    split at there
    · cases there
    next other => exact ⟨other,there⟩
  refine ⟨fun p there => ?_,fun p a inside => ?_,fun p none => ?_,fun p => (forest.nodup p).sublist (withoutSub p),
    fun p q a left right => forest.one p q a (sub p a left) (sub q a right),fun p j there => forest.names p j (info p j there).2,
    fun e a inA b inB j k ja kb => forest.apart e a (sub e a inA) b (sub e b inB) j k (info a j ja).2 (info b k kb).2,
    fun p j b there buf => ?_,fun p q j k b there other => forest.own p q j k b (info p j there).2 (info q k other).2⟩
  · obtain ⟨j,there⟩ := isSome_iff_exists.mp there
    obtain ⟨other,there⟩ := info p j there
    by_cases dir : p = d
    · subst dir
      simp only [without,update_of_ne ne,update_self]
      exact un.linked
    simp only [without,update_of_ne other,update_of_ne dir]
    rw [un.child p dir]
    have linked := forest.linked p (isSome_iff_exists.mpr ⟨j,there⟩)
    exact linked.frame fun a inside => un.next a fun also => dir (forest.one p d a inside also)
  · have other : a ≠ c := fun same => gone p (same ▸ inside)
    rw [un.info,update_of_ne other]
    exact forest.alloc p a (sub p a inside)
  · rw [un.info,update_apply] at none
    split at none
    next same =>
      subst same
      exact update_self _ _ _
    rename_i other
    have empty := forest.unused p none
    exact eq_nil_of_subset_nil (empty ▸ (withoutSub p).subset)
  obtain ⟨other,there⟩ := info p j there
  rw [un.bytes,freeBufferOther]
  · exact forest.data p j b there buf
  · exact fun same => other (forest.own p c j i b there here buf same)

lemma Forest.relabel (forest : Forest h kids) (next : h'.next = h.next) (child : h'.child = h.child)
    (bytes : h'.bytes = h.bytes) (alloc : ∀ p, (h'.info p).isSome = (h.info p).isSome)
    (names : ∀ p i, h'.info p = some i → i.namelen < i.name.length)
    (apart : ∀ d, ∀ a ∈ kids d, ∀ b ∈ kids d, ∀ i j, h'.info a = some i → h'.info b = some j → i.label = j.label → a = b)
    (data : ∀ p i b, h'.info p = some i → i.buf = some b → ∃ q j, h.info q = some j ∧ j.buf = some b)
    (own : ∀ p q i j b, h'.info p = some i → h'.info q = some j → i.buf = some b → j.buf = some b → p = q) :
    Forest h' kids := by
  refine ⟨fun p there => ?_,fun p a inside => ?_,fun p free => ?_,forest.nodup,forest.one,names,apart,
    fun p i b there buf => ?_,own⟩
  · rw [next,child]
    exact forest.linked p (alloc p ▸ there)
  · rw [alloc]
    exact forest.alloc p a inside
  · refine forest.unused p ?_
    have same := alloc p
    rw [free] at same
    exact isNone_iff_eq_none.mp (by rw [← not_isSome,← same]; rfl)
  obtain ⟨q,j,there,buf⟩ := data p i b there buf
  rw [bytes]
  exact forest.data q j b there buf

lemma strlcpyWhole (dst : List Byte) (fits : name.length ≤ n) :
    strlcpy dst name (n + 1) = name ++ 0::dst.drop (name.length + 1) := by
  rw [strlcpy,Nat.add_sub_cancel,take_of_length_le fits]

structure Added (h h' : Heap P B) (kids : P → List P) (d np : P) (i : Info B) : Prop where
  info : h'.info = update h.info np (some i)
  bytes : h'.bytes = h.bytes
  leaf : h'.child np = none
  child : ∀ p, p ≠ d → p ≠ np → h'.child p = h.child p
  next : ∀ p, p ∉ kids d → p ≠ np → h'.next p = h.next p
  linked : Linked h'.next (h'.child d) (kids d ++ [np])

lemma addLinks {type : VType} (forest : Forest h kids) (dir : (h.info d).isSome = true)
    (node : m.node = some np) (names : m.names = true) (fresh : h.info np = none) (enough : (kids d).length ≤ n) :
    ∃ h', ramfsAddNode n m h d name type = some (some np,h') ∧
      Added h h' kids d np ⟨type,strlcpy [] name (name.length + 1),name.length,0,none,0⟩ := by
  let i : Info B := ⟨type,strlcpy [] name (name.length + 1),name.length,0,none,0⟩
  let g : Heap P B := ((h.setInfo np (some i)).setNext np none).setChild np none
  have allocated : ramfsAllocateNode m h name type = (some np,g) := by simp [ramfsAllocateNode,node,names,g,i]
  have other : d ≠ np := fun same => by
    rw [same,fresh] at dir
    cases dir
  have off : np ∉ kids d := fun mem => by
    have := forest.alloc d np mem
    rw [fresh] at this
    cases this
  have child : g.child d = h.child d := update_of_ne other _ _
  have linked : Linked g.next (h.child d) (kids d) := (forest.linked d dir).write off none
  have ends : g.next np = none := update_self _ _ _
  have dirG : ∃ j, g.info d = some j := by
    obtain ⟨j,here⟩ := isSome_iff_exists.mp dir
    exact ⟨j,(update_of_ne other _ _).trans here⟩
  obtain ⟨j,here⟩ := dirG
  simp only [ramfsAddNode,allocated,here,bind_some,child]
  rcases head : h.child d with _ | first
  · have empty : kids d = [] := by
      rw [head] at linked
      exact linked.headNone
    refine ⟨g.setChild d (some np),rfl,rfl,rfl,?_,fun p dir new => ?_,fun p _ new => ?_,?_⟩
    · exact (update_of_ne other.symm _ _).trans (update_self _ _ _)
    · exact (update_of_ne dir _ _).trans (update_of_ne new _ _)
    · exact update_of_ne new _ _
    rw [empty]
    change Linked g.next (update g.child d (some np) d) [np]
    rw [update_self]
    refine .cons ?_
    rw [ends]
    exact .nil
  rw [head] at linked
  have alloc : ∀ c ∈ kids d, (g.info c).isSome = true := fun c mem => by
    have ne : c ≠ np := fun same => off (same ▸ mem)
    have same : g.info c = h.info c := update_of_ne ne _ _
    rw [same]
    exact forest.alloc d c mem
  obtain ⟨pre,prev,eq,last⟩ := lastSiblingEnds linked alloc enough
  refine ⟨g.setNext prev (some np),by simp only [last,map_some],rfl,rfl,update_self _ _ _,fun p _ new => ?_,fun p out new => ?_,?_⟩
  · exact update_of_ne new _ _
  · have ne : p ≠ prev := fun same => out (by rw [eq,same]; exact mem_append_right _ mem_cons_self)
    exact (update_of_ne ne _ _).trans (update_of_ne new _ _)
  have nodup := forest.nodup d
  rw [eq] at linked nodup off ⊢
  change Linked (update g.next prev (some np)) (g.child d) _
  rw [child,head,append_assoc]
  exact linked.snoc nodup off ends

lemma Added.lists (added : Added h h' kids d np i) (forest : Forest h kids) (fresh : h.info np = none)
    (there : (h.info p).isSome = true) :
    Linked h'.next (h'.child p) (update kids d (kids d ++ [np]) p) ∧ (update kids d (kids d ++ [np]) p).Nodup ∧
      ∀ c ∈ update kids d (kids d ++ [np]) p, (h'.info c).isSome = true := by
  have off : ∀ p, np ∉ kids p := fun p mem => by
    have := forest.alloc p np mem
    rw [fresh] at this
    cases this
  have alloc : ∀ c ∈ kids p, (h'.info c).isSome = true := fun c mem => by
    have other : c ≠ np := fun same => off p (same ▸ mem)
    rw [added.info,update_of_ne other]
    exact forest.alloc p c mem
  rw [update_apply]
  split
  next same =>
    subst same
    refine ⟨added.linked,?_,fun c mem => ?_⟩
    · refine nodup_append.mpr ⟨forest.nodup p,nodup_cons.mpr ⟨nofun,nodup_nil⟩,fun a mem b single => ?_⟩
      exact fun same => off p (mem_singleton.mp single ▸ same ▸ mem)
    rcases mem_append.mp mem with old | new
    · exact alloc c old
    rw [added.info,mem_singleton.mp new,update_self]
    rfl
  next other =>
    have old : p ≠ np := fun same => by
      rw [same,fresh] at there
      cases there
    refine ⟨?_,forest.nodup p,alloc⟩
    rw [added.child p other old]
    exact (forest.linked p there).frame fun c mem =>
      added.next c (fun also => other (forest.one p d c mem also)) fun same => off p (same ▸ mem)

lemma moveDataKeeps {old : P} (type : VType) (there : h.info old = some i) (here : h.info np = some j) :
    ∃ h', moveData h np old type = some h' ∧ h'.next = h.next ∧ h'.child = h.child ∧
      ∀ p, (h'.info p).isSome = (h.info p).isSome := by
  unfold moveData
  split
  · rw [there,here]
    refine ⟨_,rfl,rfl,rfl,fun p => ?_⟩
    simp only [Heap.setInfo,update_apply]
    split
    next same => rw [same,there]; rfl
    split
    next same => rw [same,here]; rfl
    · rfl
  · exact ⟨h,rfl,rfl,rfl,fun _ => rfl⟩

structure Cleared (h h' : Heap P B) (kids kids' : P → List P) (d : P) (name : List Byte) : Prop where
  forest : Forest h' kids'
  sub : ∀ p, (kids' p).Sublist (kids p)
  info : ∀ p, h'.info p = h.info p ∨
    (h'.info p = none ∧ p ∈ kids d ∧ kids p = [] ∧ ∀ i, h.info p = some i → i.label = name)
  keeps : ∀ p c, c ∈ kids p → h'.info c = h.info c → c ∈ kids' p
  away : ∀ c ∈ kids' d, ∀ i, h'.info c = some i → i.label ≠ name
  child : ∀ p, p ≠ d → h'.child p = h.child p
  next : ∀ p, p ∉ kids d → h'.next p = h.next p
  bytes : ∀ p i b, h'.info p = some i → i.buf = some b → h'.bytes b = h.bytes b

lemma clearsTarget {vnode : V → Vnode P} {dvp1 vp1 dvp2 : V} {vp2 : Option V} {name1 name2 : List Byte}
    (forest : Forest h kids) (acyclic : Acyclic kids) (valid : Valid h kids m vnode dvp1 vp1 name1 dvp2 vp2 name2)
    (enough : (kids (vnode dvp2).data).length ≤ n) :
    ∃ h' kids', removeTarget n h vnode dvp2 vp2 = some (.ok h') ∧ Cleared h h' kids kids' (vnode dvp2).data name2 ∧
      h'.info (vnode vp1).data = h.info (vnode vp1).data ∧ ∀ p ∈ m.node, h'.info p = none := by
  rcases vp2 with _ | v
  · refine ⟨h,kids,rfl,⟨forest,fun _ => .refl _,fun _ => .inl rfl,fun _ _ mem _ => mem,valid.absent rfl,fun _ _ => rfl,
      fun _ _ => rfl,fun _ _ _ _ _ => rfl⟩,rfl,fun p mem => ?_⟩
    rcases valid.fresh p mem with fresh | ⟨v,absurd,_⟩
    · exact fresh
    · cases absurd
  obtain ⟨mem,leaf,ne,label⟩ := valid.target v rfl
  obtain ⟨h',i,here,ran,un⟩ := removeUnlinks (forest.linked _ valid.second) (forest.nodup _) (forest.alloc _)
    valid.second mem enough
  obtain ⟨rank,lower⟩ := acyclic
  have other : (vnode dvp2).data ≠ (vnode v).data := fun same => by
    have := lower _ _ mem
    rw [same] at this
    exact Nat.lt_irrefl _ this
  have kept : ∀ c, c ≠ (vnode v).data → h'.info c = h.info c := fun c ne => by rw [un.info,update_of_ne ne]
  have gone : h'.info (vnode v).data = none := by rw [un.info,update_self]
  have forest' := un.forest forest here mem other
  refine ⟨h',without kids (vnode dvp2).data (vnode v).data,ran,⟨forest',withoutSub,fun p => ?_,fun p c inside same => ?_,
    fun c inside j there => ?_,un.child,un.next,fun p j b there buf => ?_⟩,kept _ ne.symm,fun p node => ?_⟩
  · by_cases same : p = (vnode v).data
    · subst same
      exact .inr ⟨gone,mem,leaf,label⟩
    · exact .inl (kept p same)
  · have ne : c ≠ (vnode v).data := fun eq => by
      rw [eq,gone,here] at same
      cases same
    simp only [without,update_apply]
    split
    next eq =>
      rw [eq,leaf] at inside
      cases inside
    split
    next eq =>
      subst eq
      exact (mem_erase_of_ne ne).mpr inside
    next => exact inside
  · have ne : c ≠ (vnode v).data := fun eq => by
      rw [eq,gone] at there
      cases there
    intro same
    rw [kept c ne] at there
    exact ne (forest.apart _ c ((withoutSub _).subset inside) _ mem j i there here (same.trans (label i here).symm))
  · have ne : p ≠ (vnode v).data := fun eq => by
      rw [eq,gone] at there
      cases there
    rw [kept p ne] at there
    rw [un.bytes,freeBufferOther]
    exact fun same => ne (forest.own p _ j i b there here buf same)
  rcases valid.fresh p node with fresh | ⟨w,target,eq⟩
  · rcases eq_or_ne p (vnode v).data with same | ne
    · rw [same,gone]
    · rw [kept p ne,fresh]
  cases target
  rw [eq,gone]

/-! What the names of a directory denote. -/

def Listed (h : Heap P B) (kids : P → List P) (d : P) (name : List Byte) (c : P) : Prop :=
  c ∈ kids d ∧ ∃ i, h.info c = some i ∧ i.label = name

lemma Forest.namedIff (forest : Forest h kids) : named h name c = true ↔ ∃ i, h.info c = some i ∧ i.label = name := by
  unfold named
  rcases here : h.info c with _ | i
  · exact ⟨nofun,fun ⟨_,absurd,_⟩ => nomatch absurd⟩
  have room := forest.names c i here
  simp only [decide_eq_true_eq,Info.label]
  refine ⟨fun ⟨len,same⟩ => ⟨i,rfl,len ▸ same⟩,fun ⟨j,eq,same⟩ => ?_⟩
  cases eq
  have len : i.namelen = name.length := by rw [← same,length_take]; omega
  exact ⟨len,len ▸ same⟩

lemma Forest.findsSome (forest : Forest h kids) : Finds h d name (some c) ↔ (h.info d).isSome = true ∧ Listed h kids d name c := by
  refine ⟨fun ⟨dir,ps,linked,found⟩ => ⟨dir,?_⟩,fun ⟨dir,mem,there⟩ => ⟨dir,kids d,forest.linked d dir,?_⟩⟩
  · have eq := linked.unique (forest.linked d dir)
    subst eq
    exact ⟨mem_of_find?_eq_some found,forest.namedIff.mp (find?_some found)⟩
  rcases found : (kids d).find? (named h name) with _ | b
  · exact absurd (forest.namedIff.mpr there) (find?_eq_none.mp found c mem)
  obtain ⟨i,here,label⟩ := forest.namedIff.mp (find?_some found)
  obtain ⟨j,there,same⟩ := there
  rw [forest.apart d b (mem_of_find?_eq_some found) c mem i j here there (label.trans same.symm)]

lemma Forest.findsNone (forest : Forest h kids) :
    Finds h d name none ↔ (h.info d).isSome = true ∧ ∀ c, ¬ Listed h kids d name c := by
  refine ⟨fun ⟨dir,ps,linked,found⟩ => ⟨dir,fun c listed => ?_⟩,fun ⟨dir,out⟩ => ⟨dir,kids d,forest.linked d dir,?_⟩⟩
  · have eq := linked.unique (forest.linked d dir)
    subst eq
    exact find?_eq_none.mp found c listed.1 (forest.namedIff.mpr listed.2)
  · exact find?_eq_none.mpr fun c mem yes => out c ⟨mem,forest.namedIff.mp yes⟩

lemma mapMSame {α β : Type} {l : List α} {f g : α → Option β} (same : ∀ x ∈ l, f x = g x) : l.mapM f = l.mapM g := by
  induction l with
  | nil => rfl
  | cons x l ih => rw [mapM_cons,mapM_cons,same x mem_cons_self,ih fun y mem => same y (.tail _ mem)]

lemma subtreeSame (forest : Forest h kids) (S : P → Prop) (child : ∀ p, S p → h'.child p = h.child p)
    (below : ∀ p c, S p → c ∈ kids p → S c ∧ h'.next c = h.next c ∧ h'.info c = h.info c)
    (data : ∀ p i, S p → h.info p = some i → content h' i = content h i) {i' : Info B} (inside : S p)
    (here : h.info p = some i) (there : h'.info p = some i') (type : i'.type = i.type) (size : i'.size = i.size)
    (buf : i'.buf = i.buf) : subtree h' n p = subtree h n p := by
  induction n generalizing p i i' with
  | zero => rfl
  | succ n ih => ?_
  have same : content h' i' = content h i := by
    rw [← data p i inside here]
    simp [content,buf,size]
  have linked := forest.linked p (isSome_iff_exists.mpr ⟨i,here⟩)
  have linked' : Linked h'.next (h'.child p) (kids p) := by
    rw [child p inside]
    exact linked.frame fun c mem => (below p c inside mem).2.1
  have list := siblingsList (n := n) linked (forest.alloc p)
  have list' := siblingsList (n := n) linked' fun c mem => by
    rw [(below p c inside mem).2.2]
    exact forest.alloc p c mem
  have entries : ((kids p).mapM fun c => (h'.info c).bind fun j => (subtree h' n c).map fun t => (j.label,t)) =
    (kids p).mapM fun c => (h.info c).bind fun j => (subtree h n c).map fun t => (j.label,t) := by
    refine mapMSame fun c mem => ?_
    obtain ⟨also,_,info⟩ := below p c inside mem
    obtain ⟨j,known⟩ := isSome_iff_exists.mp (forest.alloc p c mem)
    rw [info,known,ih also known (info.trans known) rfl rfl rfl]
  rw [subtree,subtree,here,there]
  simp only [bind_some,same,list,list']
  split
  · simp [bind_some,entries,type,size]
  · rfl

lemma contentSame (bytes : ∀ b, i.buf = some b → h'.bytes b = h.bytes b) : content h' i = content h i := by
  unfold content
  cases buf : i.buf with
  | none => rfl
  | some b => simp [bytes b buf]

lemma belowOther {rank : P → Nat} (lower : ∀ p, ∀ c ∈ kids p, rank c < rank p) {top : P} (mem : top ∈ kids d)
    (path : Relation.ReflTransGen (fun p c => c ∈ kids p) top p) : p ≠ d := by
  have less : rank p ≤ rank top := by
    induction path with
    | refl => exact Nat.le_refl _
    | tail _ last ih => exact Nat.le_trans (Nat.le_of_lt (lower _ _ last)) ih
  have := lower d top mem
  intro same
  rw [same] at less
  omega

section
variable {m : Memory P} {vnode : V → Vnode P} {dvp1 vp1 dvp2 : V} {vp2 : Option V} {name1 name2 : List Byte}

lemma renameNode {i : Info B} (here : h.info p = some i) :
    ramfsRenameNode m h p name = some (.error .ENOMEM) ∨ ∃ j, ramfsRenameNode m h p name = some (.ok (h.setInfo p (some j))) ∧
      j.label = name ∧ j.namelen < j.name.length ∧ j.type = i.type ∧ j.size = i.size ∧ j.buf = i.buf := by
  simp only [ramfsRenameNode,here,map_some]
  split
  next fits =>
    refine .inr ⟨_,rfl,?_,?_,rfl,rfl,rfl⟩
    · rw [Info.label,strlcpyWhole _ fits,take_left]
    rw [strlcpyWhole _ fits]
    simp only [length_append,length_cons]
    omega
  split
  · refine .inr ⟨_,rfl,?_,?_,rfl,rfl,rfl⟩
    · rw [Info.label,strlcpyWhole _ (Nat.le_refl _),take_left]
    · rw [strlcpyWhole _ (Nat.le_refl _)]
      simp only [length_append,length_cons]
      omega
  · exact .inl rfl

variable {g : Heap P B} {kids' : P → List P}

lemma Cleared.relabel (cleared : Cleared h g kids kids' d name)
    (mem : p ∈ kids' d) (kept : g.info p = some i) (label : j.label = name) (room : j.namelen < j.name.length)
    (buf : j.buf = i.buf) : Forest (g.setInfo p (some j)) kids' := by
  have info : ∀ c, (g.setInfo p (some j)).info c = if c = p then some j else g.info c := fun c =>
    update_apply _ _ _ _
  -- the renamed node is the only one of its directory with the new name
  have alone : ∀ e c l, c ∈ kids' e → p ∈ kids' e → g.info c = some l → l.label ≠ name := fun e c l inC inP eq => by
    have same := cleared.forest.one _ _ _ inP mem
    subst same
    exact cleared.away c inC l eq
  have was : ∀ c k b, (g.setInfo p (some j)).info c = some k → k.buf = some b → ∃ l, g.info c = some l ∧ l.buf = some b :=
    fun c k b eq bufK => by
      rw [info] at eq
      split at eq
      next same =>
        cases eq
        exact ⟨i,same ▸ kept,buf ▸ bufK⟩
      next => exact ⟨k,eq,bufK⟩
  refine cleared.forest.relabel rfl rfl rfl (fun c => ?_) (fun c k eq => ?_) (fun e a inA b inB k l ka lb same => ?_)
    (fun c k b eq bufK => ?_) fun c q k l b ka lb bufA bufB => ?_
  · rw [info]
    split
    next same => rw [same,kept]; rfl
    next => rfl
  · rw [info] at eq
    split at eq
    next =>
      cases eq
      exact room
    next => exact cleared.forest.names c k eq
  · rw [info] at ka lb
    split at ka
    next eqA =>
      split at lb
      next eqB => rw [eqA,eqB]
      cases ka
      exact absurd (same.symm.trans label) (alone e b l inB (eqA ▸ inA) lb)
    split at lb
    next eqB =>
      cases lb
      exact absurd (same.trans label) (alone e a k inA (eqB ▸ inB) ka)
    next => exact cleared.forest.apart e a inA b inB k l ka lb same
  · obtain ⟨l,eq,buf⟩ := was c k b eq bufK
    exact ⟨c,l,eq,buf⟩
  obtain ⟨k',ka,bufA⟩ := was c k b ka bufA
  obtain ⟨l',lb,bufB⟩ := was q l b lb bufB
  exact cleared.forest.own c q k' l' b ka lb bufA bufB

lemma Cleared.others (cleared : Cleared h g kids kids' d name2)
    (here : h.info p = some i) (labelled : i.label = name1) (label : j.label = name2) (ne1 : name ≠ name1) (ne2 : name ≠ name2) :
    (Listed (g.setInfo p (some j)) kids' d name c ↔ Listed h kids d name c) ∧
      (Listed h kids d name c → c ≠ p ∧ g.info c = h.info c) := by
  have stays : Listed h kids d name c → c ≠ p ∧ g.info c = h.info c := fun ⟨_,k,eq,lab⟩ => by
    refine ⟨fun same => ?_,?_⟩
    · rw [same,here] at eq
      cases eq
      exact ne1 (lab.symm.trans labelled)
    rcases cleared.info c with same | ⟨_,_,_,target⟩
    · exact same
    · exact absurd (lab.symm.trans (target k eq)) ne2
  refine ⟨⟨fun ⟨mem,k,eq,lab⟩ => ?_,fun listed => ?_⟩,stays⟩
  · simp only [Heap.setInfo,update_apply] at eq
    split at eq
    next =>
      cases eq
      exact absurd (lab.symm.trans label) ne2
    rcases cleared.info c with same | ⟨none,_⟩
    · exact ⟨(cleared.sub _).subset mem,k,same ▸ eq,lab⟩
    · cases none.symm.trans eq
  obtain ⟨ne,same⟩ := stays listed
  obtain ⟨mem,k,eq,lab⟩ := listed
  exact ⟨cleared.keeps _ c mem same,k,(update_of_ne ne _ _).trans (same.trans eq),lab⟩

lemma Cleared.subtree (cleared : Cleared h g kids kids' d name)
    (forest : Forest h kids) (acyclic : Acyclic kids) (mem : p ∈ kids d) (here : h.info p = some i) (kept : g.info p = some i)
    (type : j.type = i.type) (size : j.size = i.size) (buf : j.buf = i.buf) :
    subtree (g.setInfo p (some j)) n p = subtree h n p := by
  obtain ⟨rank,lower⟩ := acyclic
  have below : ∀ q c, Relation.ReflTransGen (fun p c => c ∈ kids p) p q → c ∈ kids q → c ∉ kids d :=
    fun q c path inside also => belowOther lower mem path (forest.one _ _ c inside also)
  refine subtreeSame forest (Relation.ReflTransGen (fun p c => c ∈ kids p) p)
    (fun q path => cleared.child q (belowOther lower mem path)) (fun q c path inside => ?_) (fun q k path eq => ?_)
    .refl here (update_self _ _ _) type size buf
  · have off := below q c path inside
    have ne : c ≠ p := fun same => off (same ▸ mem)
    refine ⟨path.tail inside,cleared.next c off,(update_of_ne ne _ _).trans ?_⟩
    exact (cleared.info c).resolve_right fun gone => off gone.2.1
  refine contentSame fun b bufK => cleared.bytes q k b ?_ bufK
  rcases cleared.info q with same | ⟨_,inside,_⟩
  · rw [same,eq]
  rcases Relation.ReflTransGen.cases_tail path with top | ⟨r,path,last⟩
  · rw [top] at eq ⊢
    rw [kept,← here,eq]
  · exact absurd inside (below r q path last)

lemma renamedInPlace (forest : Forest h kids) (acyclic : Acyclic kids)
    (valid : Valid h kids m vnode dvp1 vp1 name1 dvp1 vp2 name2) (cleared : Cleared h g kids kids' (vnode dvp1).data name2)
    (here : h.info (vnode vp1).data = some i) (kept : g.info (vnode vp1).data = some i) (label : j.label = name2)
    (room : j.namelen < j.name.length) (type : j.type = i.type) (size : j.size = i.size) (buf : j.buf = i.buf) :
    Renamed h (g.setInfo (vnode vp1).data (some j)) vnode dvp1 vp1 name1 dvp1 name2 := by
  have labelled := (valid.sourceName i here).1
  have source := cleared.keeps _ _ valid.source (kept.trans here.symm)
  have info : ∀ p, (g.setInfo (vnode vp1).data (some j)).info p = if p = (vnode vp1).data then some j else g.info p := fun p =>
    update_apply _ _ _ _
  have forest' := cleared.relabel source kept label room buf
  have dir : ((g.setInfo (vnode vp1).data (some j)).info (vnode dvp1).data).isSome = true := by
    rw [info]
    split
    · rfl
    rcases cleared.info (vnode dvp1).data with same | ⟨_,_,leaf,_⟩
    · rw [same]
      exact valid.first
    have := valid.source
    rw [leaf] at this
    cases this
  have found := forest'.findsSome.mpr ⟨dir,source,j,update_self _ _ _,label⟩
  refine ⟨⟨_,found,fun n => cleared.subtree forest acyclic valid.source here kept type size buf⟩,
    forest'.findsNone.mpr ⟨dir,fun c ⟨mem,k,eq,lab⟩ => ?_⟩,fun d which name ne1 ne2 found => ?_,found⟩
  · rw [info] at eq
    split at eq
    next =>
      cases eq
      exact cleared.away _ source i kept (labelled.trans (lab.symm.trans label))
    rename_i ne
    rcases cleared.info c with same | ⟨gone,_⟩
    · rw [same] at eq
      exact ne (forest.apart _ c ((cleared.sub _).subset mem) _ valid.source k i eq here (lab.trans labelled.symm))
    · cases gone.symm.trans eq
  have same := which.elim id id
  subst same
  have ne1 : name ≠ name1 := fun eq => ne1 ⟨rfl,eq⟩
  have ne2 : name ≠ name2 := fun eq => ne2 ⟨rfl,eq⟩
  have others := fun c => cleared.others (c := c) here labelled label ne1 ne2
  rcases found with _ | c
  · rw [forest'.findsNone,forest.findsNone]
    refine ⟨⟨fun both => ⟨valid.first,fun c => ?_⟩,fun both => ⟨dir,fun c => ?_⟩⟩,nofun⟩
    · exact fun listed => both.2 c ((others c).1.mpr listed)
    · exact fun listed => both.2 c ((others c).1.mp listed)
  obtain ⟨iff,stays⟩ := others c
  rw [forest'.findsSome,forest.findsSome]
  refine ⟨⟨fun both => ⟨valid.first,iff.mp both.2⟩,fun both => ⟨dir,iff.mpr both.2⟩⟩,fun p mem both => ?_⟩
  cases mem
  obtain ⟨ne,same⟩ := stays both.2
  refine ⟨(update_of_ne ne _ _).trans same,fun k eq => contentSame fun b bufK => ?_⟩
  exact cleared.bytes c k b (same.trans eq) bufK

lemma movedFreed (cleared : Cleared h g kids kids' (vnode dvp2).data name2)
    (valid : Valid h kids m vnode dvp1 vp1 name1 dvp2 vp2 name2)
    (kept : g.info (vnode vp1).data = h.info (vnode vp1).data) (source : (h.info (vnode vp1).data).isSome = true)
    (dirs : (g.info (vnode dvp1).data).isSome = true ∧ (g.info (vnode dvp2).data).isSome = true)
    (fresh : ∀ p ∈ m.node, g.info p = none)
    (enough : (kids (vnode dvp1).data).length < n ∧ (kids (vnode dvp2).data).length < n) :
    moveAcross n m g (vnode dvp1).data (vnode vp1) (vnode dvp2).data name2 = some (.error .ENOMEM) ∨
    ∃ h', moveAcross n m g (vnode dvp1).data (vnode vp1) (vnode dvp2).data name2 = some (.ok h') ∧
      h'.info (vnode vp1).data = none := by
  have short : ∀ p, (kids p).length < n → (kids' p).length < n := fun p lt => Nat.lt_of_le_of_lt (cleared.sub p).length_le lt
  have failed : ramfsAllocateNode m g name2 .VREG = (none,g) →
    moveAcross n m g (vnode dvp1).data (vnode vp1) (vnode dvp2).data name2 = some (.error .ENOMEM) := fun none => by
    simp [moveAcross,ramfsAddNode,none,bind_some]
  rcases node : m.node with _ | np
  · exact .inl (failed (by simp only [ramfsAllocateNode,node]))
  rcases names : m.names with _ | _
  · exact .inl (failed (by simp only [ramfsAllocateNode,node,names,Bool.false_eq_true,if_false]))
  have new := fresh np node
  obtain ⟨g2,ran,added⟩ : ∃ g2, ramfsAddNode n m g (vnode dvp2).data name2 .VREG = some (some np,g2) ∧
    Added g g2 kids' (vnode dvp2).data np ⟨.VREG,strlcpy [] name2 (name2.length + 1),name2.length,0,none,0⟩ :=
    addLinks cleared.forest dirs.2 node names new (Nat.le_of_lt (short _ enough.2))
  obtain ⟨linked,nodup,filled⟩ := added.lists cleared.forest new dirs.1
  obtain ⟨i,there⟩ := isSome_iff_exists.mp (kept ▸ source)
  have other : (vnode vp1).data ≠ np := fun same => by
    rw [same,new] at there
    cases there
  have old : g2.info (vnode vp1).data = some i := by rw [added.info,update_of_ne other,there]
  obtain ⟨g3,moved,next,child,alloc⟩ := moveDataKeeps (vnode vp1).type old (by rw [added.info,update_self])
  have source2 : (vnode vp1).data ∈ update kids' (vnode dvp2).data (kids' (vnode dvp2).data ++ [np]) (vnode dvp1).data := by
    have first := cleared.keeps _ _ valid.source kept
    rw [update_apply]
    split
    next same => exact mem_append_left _ (same ▸ first)
    next => exact first
  have dir : (g3.info (vnode dvp1).data).isSome = true := by
    rw [alloc,added.info,update_apply]
    split
    · rfl
    exact dirs.1
  have length : (update kids' (vnode dvp2).data (kids' (vnode dvp2).data ++ [np]) (vnode dvp1).data).length ≤ n := by
    rw [update_apply]
    split
    · rw [length_append]
      exact short _ enough.2
    · exact Nat.le_of_lt (short _ enough.1)
  rw [← next,← child] at linked
  obtain ⟨g4,_,_,removed,un⟩ := removeUnlinks linked nodup (fun c mem => (alloc c).trans (filled c mem)) dir source2 length
  refine .inr ⟨g4,?_,by rw [un.info,update_self]⟩
  simp [moveAcross,ran,moved,removed,bind_some,map_some]

theorem renameRight (forest : Forest h kids) (acyclic : Acyclic kids)
    (valid : Valid h kids m vnode dvp1 vp1 name1 dvp2 vp2 name2)
    (enough : (kids (vnode dvp1).data).length < n ∧ (kids (vnode dvp2).data).length < n) :
    ∃ result, ramfsRename n m h vnode dvp1 vp1 dvp2 vp2 name2 = some result ∧
      ∀ h', result = .ok h' → (Renamed h h' vnode dvp1 vp1 name1 dvp2 name2 ↔ dvp1 = dvp2) := by
  obtain ⟨g,kids',ran,cleared,kept,fresh⟩ := clearsTarget forest acyclic valid (Nat.le_of_lt enough.2)
  obtain ⟨i,here⟩ := isSome_iff_exists.mp (forest.alloc _ _ valid.source)
  simp only [ramfsRename,ran,bind_some]
  by_cases same : dvp1 = dvp2
  · subst same
    rw [if_pos rfl]
    rcases @renameNode P B _ _ g (vnode vp1).data name2 m i (kept.trans here) with failed | ⟨j,renamed,label,room,type,size,buf⟩
    · exact ⟨_,failed,nofun⟩
    refine ⟨_,renamed,fun h' eq => ⟨fun _ => rfl,fun _ => ?_⟩⟩
    cases eq
    exact renamedInPlace forest acyclic valid cleared here (kept.trans here) label room type size buf
  rw [if_neg same]
  have dirs : (g.info (vnode dvp1).data).isSome = true ∧ (g.info (vnode dvp2).data).isSome = true := by
    refine ⟨?_,?_⟩
    · rcases cleared.info (vnode dvp1).data with same | ⟨_,_,leaf,_⟩
      · rw [same]
        exact valid.first
      · have := valid.source
        rw [leaf] at this
        cases this
    rcases cleared.info (vnode dvp2).data with same | ⟨_,mem,leaf,_⟩
    · rw [same]
      exact valid.second
    rw [leaf] at mem
    cases mem
  rcases movedFreed cleared valid kept (here ▸ rfl) dirs fresh enough with failed | ⟨h',moved,freed⟩
  · exact ⟨_,failed,nofun⟩
  refine ⟨_,moved,fun h'' eq => ⟨fun renamed => ?_,fun eq => absurd eq same⟩⟩
  cases eq
  obtain ⟨_,ps,_,found⟩ := renamed.vnode
  have yes := find?_some found
  simp only [named,freed] at yes
  cases yes

def twoFiles : Heap (Fin 3) (Fin 2) where
  next := fun p => if p = 1 then some 2 else none
  child := fun p => if p = 0 then some 1 else none
  info := fun p => if p = 0 then some ⟨.VDIR,[47,0],1,0,none,0⟩ else if p = 1 then some ⟨.VREG,[97,0],1,2,some 0,4096⟩
    else some ⟨.VREG,[98,98,0],2,1,some 1,4096⟩
  bytes := fun b => if b = 0 then some [1,2] else some [3]

def twoFilesKids (p : Fin 3) : List (Fin 3) := if p = 0 then [1,2] else []

lemma forestOf (linked : ∀ p, Linked h.next (h.child p) (kids p)) (alloc : ∀ p, ∀ c ∈ kids p, (h.info c).isSome = true)
    (unused : ∀ p, h.info p = none → kids p = []) (nodup : ∀ p, (kids p).Nodup) (one : ∀ p q c, c ∈ kids p → c ∈ kids q → p = q)
    (names : ∀ p, ∀ i ∈ h.info p, i.namelen < i.name.length)
    (apart : ∀ d, ∀ a ∈ kids d, ∀ b ∈ kids d, ∀ i ∈ h.info a, ∀ j ∈ h.info b, i.label = j.label → a = b)
    (data : ∀ p, ∀ i ∈ h.info p, ∀ b ∈ i.buf, (h.bytes b).isSome = true)
    (own : ∀ p q, ∀ i ∈ h.info p, ∀ j ∈ h.info q, ∀ b ∈ i.buf, j.buf = some b → p = q) : Forest h kids :=
  ⟨fun p _ => linked p,alloc,unused,nodup,one,names,fun d a inA b inB i j ia => apart d a inA b inB i ia j,
    fun p i b there => data p i there b,fun p q i j b ip jq => own p q i ip j jq b⟩

lemma twoFilesForest : Forest twoFiles twoFilesKids := by
  refine forestOf (fun p => ?_) (by decide) (by decide) (by decide) (by decide) (by decide) (by decide) (by decide) (by decide)
  match p with
  | 0 => exact .cons (.cons .nil)
  | 1 | 2 => exact .nil

def twoFilesVnode (v : Fin 3) : Vnode (Fin 3) := ⟨v,if v = 0 then .VDIR else .VREG⟩

lemma twoFilesValid : Valid twoFiles twoFilesKids ⟨none,true⟩ twoFilesVnode (0 : Fin 3) 1 [97] 0 (some 2) [98,98] := by
  refine ⟨rfl,rfl,by decide,(by decide : ∀ i ∈ twoFiles.info 1, i.label = [97] ∧ i.type = .VREG),nofun,
    fun v target => ?_,nofun⟩
  cases target
  exact ⟨by decide,by decide,by decide,(by decide : ∀ i ∈ twoFiles.info 2, i.label = [98,98])⟩

theorem renameRightReplaced :
    ∃ h', ramfsRename 3 ⟨none,true⟩ twoFiles twoFilesVnode (0 : Fin 3) 1 0 (some 2) [98,98] = some (.ok h') ∧
      Renamed twoFiles h' twoFilesVnode 0 1 [97] 0 [98,98] := by
  have acyclic : Acyclic twoFilesKids := ⟨fun p => if p = 0 then 1 else 0,by decide⟩
  obtain ⟨result,ran,right⟩ := renameRight (n := 3) twoFilesForest acyclic twoFilesValid (by decide)
  match result,ran,right with
  | .ok h',ran,right => exact ⟨h',ran,(right h' rfl).mpr rfl⟩
  | .error e,ran,_ => cases ran

def twoDirs : Heap (Fin 6) (Fin 1) where
  next := fun p => if p = 1 then some 2 else none
  child := fun p => if p = 0 then some 1 else if p = 1 then some 3 else if p = 3 then some 4 else none
  info := fun p => if p = 0 then some ⟨.VDIR,[47,0],1,0,none,0⟩ else if p = 1 then some ⟨.VDIR,[97,0],1,0,none,0⟩
    else if p = 2 then some ⟨.VDIR,[98,0],1,0,none,0⟩ else if p = 3 then some ⟨.VDIR,[120,0],1,0,none,0⟩
    else if p = 4 then some ⟨.VREG,[102,0],1,2,some 0,4096⟩ else none
  bytes := fun _ => some [1,2]

def twoDirsKids (p : Fin 6) : List (Fin 6) := if p = 0 then [1,2] else if p = 1 then [3] else if p = 3 then [4] else []

lemma twoDirsForest : Forest twoDirs twoDirsKids := by
  refine forestOf (fun p => ?_) (by decide) (by decide) (by decide) (by decide) (by decide) (by decide) (by decide) (by decide)
  match p with
  | 0 => exact .cons (.cons .nil)
  | 1 | 3 => exact .cons .nil
  | 2 | 4 | 5 => exact .nil

def twoDirsVnode (v : Fin 4) : Vnode (Fin 6) := ⟨v.castLE (by decide),.VDIR⟩

lemma twoDirsValid : Valid twoDirs twoDirsKids ⟨some 5,true⟩ twoDirsVnode (1 : Fin 4) 3 [120] 2 none [121] := by
  refine ⟨rfl,rfl,by decide,(by decide : ∀ i ∈ twoDirs.info 3, i.label = [120] ∧ i.type = .VDIR),fun _ => ?_,nofun,
    fun p node => ?_⟩
  · exact fun c mem => nomatch mem
  cases node
  exact .inl rfl

theorem directoryMoved : ∃ h', Forest twoDirs twoDirsKids ∧
    Valid twoDirs twoDirsKids ⟨some 5,true⟩ twoDirsVnode (1 : Fin 4) 3 [120] 2 none [121] ∧
    ramfsRename 3 ⟨some 5,true⟩ twoDirs twoDirsVnode (1 : Fin 4) 3 2 none [121] = some (.ok h') ∧
    lookupNode h' [121] 3 (h'.child 2) = some (some 5) ∧ (h'.info 5).map Info.type = some .VREG ∧ h'.child 5 = none ∧
    h'.info 3 = none ∧ ¬ Renamed twoDirs h' twoDirsVnode 1 3 [120] 2 [121] := by
  refine ⟨_,twoDirsForest,twoDirsValid,rfl,rfl,rfl,rfl,rfl,fun renamed => ?_⟩
  obtain ⟨_,ps,_,found⟩ := renamed.vnode
  cases find?_some found

end
end
end OsvKernel.RamfsTree
