import OsvKernel.Runs

/-! The page cache for mapped files (core/pagecache.cc). A step is a part of a call that runs
under one lock, or one access to a pte outside of a lock: release() clears the pte before it takes
write_lock and then arc_lock, and get() writes it after it has dropped arc_lock. -/
namespace OsvKernel.PageCache
open Function List

structure Key where
  dev : Nat
  ino : Nat
  offset : Int
  deriving DecidableEq, Repr

structure Entry where
  addr : Nat
  writable : Bool
  cow : Bool
  dirty : Bool
  deriving DecidableEq, Repr

def Entry.markCow (pte : Entry) (cow : Bool) : Entry :=
  {pte with writable := pte.writable && !cow,cow := cow}

def Entry.modAddr (pte : Entry) (addr : Nat) : Entry := {pte with addr := addr}

inductive PtepList (P : Type) where
  | null
  | one (p : P)
  | set (ps : List P)
  deriving DecidableEq, Repr

structure Page (P : Type) where
  key : Key
  addr : Nat
  ptes : PtepList P
  buf : Option Nat
  dirty : Bool
  deriving DecidableEq, Repr

/-- Where a call is. fetching: get() without write_lock, in create_read_cached_page(); moving: get()
has inserted the page and not yet dropped the one of the ARC; writing: get() at write_pte();
releasing and checking: release() before write_lock and before arc_lock. -/
inductive Phase (P R : Type) where
  | idle (result : Option Bool)
  | fetching (k : Key) (p : P) (pte : Entry)
  | moving (k : Key) (p : P) (pte : Entry) (w : R)
  | writing (p : P) (pte : Entry)
  | releasing (k : Key) (p : P) (addr : Nat) (old : Option Entry)
  | checking (k : Key) (p : P) (addr : Nat) (old : Option Entry)
  deriving DecidableEq, Repr

structure Config where
  lruMaxLength : Nat
  lruFreeCount : Nat
  zeroPage : Nat
  keeps : lruFreeCount ≤ lruMaxLength

/-- heap holds the cached pages that are not deleted, writtenBack the offsets that destructors
have written. failed: an assertion has failed or a deleted page was used. -/
structure State (T P R : Type) where
  pte : P → Option Entry
  heap : R → Option (Page P)
  readCache : Key → Option R
  writeCache : Key → Option R
  writeLru : List R
  arcMap : List (Nat × R)
  writtenBack : List Key
  phase : T → Phase P R
  writeLock : Option T
  failed : Bool

variable {T P R : Type} [DecidableEq T] [DecidableEq P] [DecidableEq R]

namespace PtepList

def toList : PtepList P → List P
  | .null => []
  | .one p => [p]
  | .set ps => ps

def add (p : P) : PtepList P → PtepList P
  | .null => .one p
  | .one q => .set ([q].insert p)
  | .set ps => .set (ps.insert p)

def remove (p : P) : PtepList P → Option (PtepList P × Nat)
  | .null => none
  | .one _ => some (.null,0)
  | .set ps =>
    match ps.filter (· ≠ p) with
    | [q] => some (.one q,1)
    | rest => some (.set rest,rest.length)

@[simp] lemma memAdd {p q : P} {l : PtepList P} : q ∈ (l.add p).toList ↔ q = p ∨ q ∈ l.toList := by
  cases l <;> simp [add,toList]

lemma removeMem {p : P} {l : PtepList P} (mem : p ∈ l.toList) :
    ∃ rest n, l.remove p = some (rest,n) ∧ (∀ q, q ∈ rest.toList ↔ q ∈ l.toList ∧ q ≠ p) ∧ (n = 0 → rest.toList = []) := by
  rcases l with _ | q | ps
  · cases mem
  · cases mem_singleton.mp mem
    refine ⟨_,_,rfl,fun q => ?_,fun _ => rfl⟩
    simp only [toList,mem_singleton,not_mem_nil,false_iff,not_and,not_not]
    exact id
  have left : ∀ q, q ∈ ps.filter (· ≠ p) ↔ q ∈ ps ∧ q ≠ p := by simp
  simp only [remove]
  split
  next last eq =>
    rw [eq] at left
    exact ⟨_,_,rfl,left,fun bad => by cases bad⟩
  · exact ⟨_,_,rfl,left,length_eq_zero_iff.mp⟩

end PtepList

def Page.Lists (page : Page P) (p : P) : Prop := p ∈ page.ptes.toList

instance (page : Page P) (p : P) : Decidable (page.Lists p) := inferInstanceAs (Decidable (_ ∈ _))

namespace State

def fail (s : State T P R) : State T P R := {s with failed := true}
def go (s : State T P R) (t : T) (next : Phase P R) : State T P R := {s with phase := update s.phase t next}
def flush (s : State T P R) (ps : List P) : State T P R := {s with pte := fun p => if p ∈ ps then none else s.pte p}

def store (s : State T P R) (r : R) (page : Page P) : State T P R :=
  {s with heap := update s.heap r (some page)}

def deleteRead (s : State T P R) (c : R) (page : Page P) : State T P R :=
  {s with readCache := update s.readCache page.key none,
          heap := update s.heap c none,
          arcMap := s.arcMap.filter (·.2 ≠ c)}

def removeReadMapping (s : State T P R) (c : R) (p : P) : State T P R :=
  match s.heap c with
  | none => s.fail
  | some page =>
    match page.ptes.remove p with
    | none => s.fail
    | some (ptes,left) => if left = 0 then s.deleteRead c page else s.store c {page with ptes := ptes}

def removeReadMappingAt (s : State T P R) (k : Key) (p : P) : State T P R :=
  match s.readCache k with
  | none => s
  | some c => s.removeReadMapping c p

def dropReadCachedPage (s : State T P R) (c : R) : State T P R :=
  match s.heap c with
  | none => s.fail
  | some page => (s.flush page.ptes.toList).deleteRead c page

def dropReadCachedPageAt (s : State T P R) (k : Key) : State T P R :=
  match s.readCache k with
  | none => s
  | some c => s.dropReadCachedPage c

def mapArcBuf (s : State T P R) (k : Key) (b : Nat) (c : R) (page : Nat) : State T P R :=
  {s.store c {key := k,addr := page,ptes := .null,buf := some b,dirty := false} with
    arcMap := (b,c)::s.arcMap,
    -- emplace does not replace a page that is there
    readCache := if s.readCache k = none then update s.readCache k (some c) else s.readCache}

def unmapArcBuf (s : State T P R) (b : Nat) : State T P R :=
  ((s.arcMap.filter (·.1 = b)).map (·.2)).foldl dropReadCachedPage s

def evict (s : State T P R) : State T P R :=
  match s.writeLru.getLast? with
  | none => s.fail
  | some w =>
    match s.heap w with
    | none => s.fail
    | some page =>
      let dirty := page.dirty || page.ptes.toList.any fun p => (s.pte p).any Entry.dirty
      {s.flush page.ptes.toList with
        writeLru := s.writeLru.dropLast,
        writeCache := update s.writeCache page.key none,
        heap := update s.heap w none,
        writtenBack := if dirty then page.key::s.writtenBack else s.writtenBack}

def evictLoop : Nat → State T P R → State T P R
  | 0,s => s
  | n+1,s => evictLoop n s.evict

def insert (cfg : Config) (s : State T P R) (w : R) (k : Key) (addr : Nat) : State T P R :=
  let added := {s.store w {key := k,addr := addr,ptes := .null,buf := none,dirty := false} with
    writeCache := update s.writeCache k (some w),
    writeLru := w::s.writeLru}
  if added.writeLru.length > cfg.lruMaxLength then evictLoop cfg.lruFreeCount added else added

def mapWrite (s : State T P R) (t : T) (w : R) (p : P) (pte : Entry) : State T P R :=
  match s.heap w with
  | none => s.fail
  | some page =>
    {(s.store w {page with ptes := page.ptes.add p}).go t (.writing p (pte.modAddr page.addr)) with writeLock := some t}

def writePte (s : State T P R) (p : P) (pte : Entry) (won : Bool) : State T P R :=
  if won then {s with pte := update s.pte p (some pte)} else s

def readFault (s : State T P R) (t : T) (k : Key) (p : P) (pte : Entry) (won : Bool) : State T P R :=
  match s.readCache k with
  | none => s.go t (.fetching k p pte)
  | some c =>
    match s.heap c with
    | none => s.fail
    | some page =>
      ((s.store c {page with ptes := page.ptes.add p}).writePte p ((pte.markCow true).modAddr page.addr) won).go t
        (.idle (some won))

def get (cfg : Config) (s : State T P R) (t : T) (k : Key) (p : P) (pte : Entry) (write shared : Bool)
    (r : R) (addr : Nat) (won : Bool) : State T P R :=
  match s.writeCache k with
  | none =>
    if write then
      if shared then
        {(s.insert cfg r k addr).go t (.moving k p pte r) with writeLock := some t}
      else
        {(s.removeReadMappingAt k p).go t (.writing p (pte.modAddr addr)) with writeLock := some t}
    else s.readFault t k p pte won
  | some w =>
    if write && !shared then {s.go t (.writing p (pte.modAddr addr)) with writeLock := some t}
    else s.mapWrite t w p (pte.markCow (!shared))

def moved (s : State T P R) (t : T) (k : Key) (p : P) (pte : Entry) (w : R) : State T P R :=
  (s.dropReadCachedPageAt k).mapWrite t w p (pte.markCow false)

def fetched (cfg : Config) (s : State T P R) (t : T) (k : Key) (p : P) (pte : Entry) (hole won : Bool) : State T P R :=
  match s.writeCache k with
  | some _ => s.go t (.idle (some false))
  | none =>
    if hole then {s.go t (.writing p ((pte.markCow true).modAddr cfg.zeroPage)) with writeLock := some t}
    else s.readFault t k p pte won

def unmapWrite (s : State T P R) (t : T) (k : Key) (p : P) (addr : Nat) (old : Option Entry) : State T P R :=
  match s.writeCache k with
  | none => s.go t (.checking k p addr old)
  | some w =>
    match s.heap w with
    | none => s.fail
    | some page =>
      if old.map Entry.addr = some page.addr then
        match page.ptes.remove p with
        | none => s.fail
        | some (ptes,_) =>
          (s.store w {page with ptes := ptes,dirty := page.dirty || old.any Entry.dirty}).go t (.idle (some false))
      else s.go t (.checking k p addr old)

def unmapRead (cfg : Config) (s : State T P R) (t : T) (k : Key) (p : P) (addr : Nat) (old : Option Entry) :
    State T P R :=
  match s.readCache k with
  | none => s.go t (.idle (some (addr ≠ cfg.zeroPage)))
  | some c =>
    match s.heap c with
    | none => s.fail
    | some page =>
      if old.map Entry.addr = some page.addr then (s.removeReadMapping c p).go t (.idle (some false))
      else s.go t (.idle (some (addr ≠ cfg.zeroPage)))

end State

inductive Act (T P R : Type) where
  | get (t : T) (k : Key) (p : P) (pte : Entry) (write shared : Bool) (r : R) (addr : Nat) (won : Bool)
  | fetched (t : T) (hole won : Bool)
  | moved (t : T)
  | write (t : T) (won : Bool)
  | release (t : T) (k : Key) (p : P) (addr : Nat)
  | unmapWrite (t : T)
  | unmapRead (t : T)
  | mapArcBuf (k : Key) (b : Nat) (c : R) (page : Nat)
  | unmapArcBuf (b : Nat)
  | touch (p : P)

def Phase.Out : Phase P R → Bool
  | .idle _ => true
  | _ => false

/-- touch is a store of the processor through the pte. -/
def step (cfg : Config) (s : State T P R) (act : Act T P R) : Option (State T P R) :=
  if s.failed then none else
  match act with
  | .get t k p pte write shared r addr won =>
    if (s.phase t).Out ∧ s.writeLock = none ∧ (write → s.heap r = none) then
      some (s.get cfg t k p pte write shared r addr won)
    else none
  | .fetched t hole won =>
    match s.phase t with
    | .fetching k p pte => if s.writeLock = none then some (s.fetched cfg t k p pte hole won) else none
    | _ => none
  | .moved t =>
    match s.phase t with
    | .moving k p pte w => some (s.moved t k p pte w)
    | _ => none
  | .write t won =>
    match s.phase t with
    | .writing p pte => some {(s.writePte p pte won).go t (.idle (some won)) with writeLock := none}
    | _ => none
  | .release t k p addr =>
    if (s.phase t).Out then some ({s with pte := update s.pte p none}.go t (.releasing k p addr (s.pte p)))
    else none
  | .unmapWrite t =>
    match s.phase t with
    | .releasing k p addr old => if s.writeLock = none then some (s.unmapWrite t k p addr old) else none
    | _ => none
  | .unmapRead t =>
    match s.phase t with
    | .checking k p addr old => some (s.unmapRead cfg t k p addr old)
    | _ => none
  | .mapArcBuf k b c page => if s.heap c = none then some (s.mapArcBuf k b c page) else none
  | .unmapArcBuf b => some (s.unmapArcBuf b)
  | .touch p =>
    some {s with pte := update s.pte p ((s.pte p).map fun e => {e with dirty := e.dirty || e.writable})}

end OsvKernel.PageCache
