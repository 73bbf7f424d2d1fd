import OsvKernel.PageCacheMap

/-! Writing pages back (pagecache::sync). modified says which pages were stored to through a
mapping since they were last written back, pending is the static stack of sync(). -/
namespace OsvKernel.PageCache
open Function Runs List

def pageSize : Int := 4096

structure Tracked (T P R : Type) where
  cache : State T P R
  modified : R → Bool
  pending : List R

inductive Op (T P R : Type) where
  | act (a : Act T P R)
  | sync (dev ino : Nat) (start stop : Int) (results : List Bool)

variable {T P R : Type} [DecidableEq T] [DecidableEq P] [DecidableEq R]

def State.hasDirty (s : State T P R) (page : Page P) : Bool := page.ptes.toList.any fun p => (s.pte p).any Entry.dirty

def State.clearDirty (s : State T P R) (page : Page P) : State T P R :=
  {s with pte := fun p =>
    if p ∈ page.ptes.toList then (s.pte p).map fun e => {e with dirty := false} else s.pte p}

namespace Tracked

def check (s : Tracked T P R) (k : Key) : Tracked T P R :=
  match s.cache.writeCache k with
  | none => s
  | some r =>
    match s.cache.heap r with
    | none => {s with cache := s.cache.fail}
    | some page =>
      if s.cache.hasDirty page then {s with cache := s.cache.clearDirty page,pending := r::s.pending} else s

def scan : Nat → Key → Tracked T P R → Tracked T P R
  | 0,_,s => s
  | n+1,k,s => scan n {k with offset := k.offset + pageSize} (s.check k)

def writeAll : List R → List Bool → Tracked T P R → Tracked T P R × Bool
  | [],_,s => ({s with pending := []},true)
  | r::rest,results,s =>
    match s.cache.heap r with
    | none => ({s with cache := s.cache.fail},false)
    | some page =>
      let clean := s.cache.store r {page with dirty := false}
      if results.headD false then
        writeAll rest results.tail {s with
          cache := {clean with writtenBack := page.key::clean.writtenBack},
          modified := update s.modified r false}
      else ({s with cache := clean,pending := r::rest},false)

def rounds (start stop : Int) : Nat := ((stop - start + (pageSize - 1)) / pageSize).toNat

def sync (s : Tracked T P R) (dev ino : Nat) (start stop : Int) (results : List Bool) : Tracked T P R × Bool :=
  let scanned := scan (rounds start stop) ⟨dev,ino,start⟩ s
  writeAll scanned.pending results scanned

end Tracked

def stores (s : State T P R) (r : R) : Act T P R → Bool
  | .touch p =>
    match s.pte p,s.heap r with
    | some e,some page => e.writable && e.addr == page.addr
    | _,_ => false
  | _ => false

def Tracked.step (cfg : Config) (s : Tracked T P R) : Op T P R → Option (Tracked T P R)
  | .act a => (PageCache.step cfg s.cache a).map fun cache =>
    {s with cache := cache,modified := fun r => (s.cache.heap r).isSome && (stores s.cache r a || s.modified r)}
  | .sync dev ino start stop results =>
    if s.cache.failed = true ∨ s.cache.writeLock ≠ none then none else some (s.sync dev ino start stop results).1

def StaysDirty (s : State T P R) : Act T P R → Prop
  | .write t _ =>
    match s.phase t with
    | .writing p e => ∀ old ∈ s.pte p, old.dirty = true → old.addr = e.addr → e.dirty = true
    | _ => True
  | _ => True

def Tracked.Allowed (cfg : Config) (s : Tracked T P R) : Op T P R → Prop
  | .act a => PageCache.Allowed cfg s.cache a ∧ StaysDirty s.cache a
  | .sync _ _ _ _ _ => True

def Tracked.Start (s : Tracked T P R) : Prop := PageCache.Start s.cache ∧ (∀ r, s.modified r = false) ∧ s.pending = []

abbrev Tracked.Reachable (cfg : Config) : Tracked T P R → Prop :=
  Runs.Reach (Tracked.step cfg) (Tracked.Allowed cfg) Tracked.Start

def Due (s : Tracked T P R) (dev ino : Nat) (start stop : Int) (r : R) (page : Page P) : Prop :=
  s.cache.heap r = some page ∧ s.cache.writeCache page.key = some r ∧ page.key.dev = dev ∧ page.key.ino = ino ∧
    start ≤ page.key.offset ∧ page.key.offset < stop ∧ s.modified r = true

def Leaving (s : State T P R) (page : Page P) : Prop :=
  ∃ t k p addr e, s.phase t = .releasing k p addr (some e) ∧ e.dirty = true ∧ e.addr = page.addr

def DirtyPte (s : State T P R) (page : Page P) : Prop :=
  ∃ p e, page.Lists p ∧ s.pte p = some e ∧ e.dirty = true ∧ e.addr = page.addr

def Recorded (s : State T P R) (page : Page P) : Prop := DirtyPte s page ∨ page.dirty = true ∨ Leaving s page

def Follows (s s' : State T P R) : Prop :=
  ∀ r page', s'.heap r = some page' → page'.buf = none → s.heap r ≠ none →
    ∃ page, s.heap r = some page ∧ page.buf = none ∧ (Recorded s page → Recorded s' page')

def Stays (s s' : State T P R) : Prop :=
  ∀ r page', s'.heap r = some page' → page'.buf = none → s.heap r ≠ none →
    ∃ page, s.heap r = some page ∧ page.buf = none ∧ page.addr = page'.addr ∧ (page.dirty = true → page'.dirty = true) ∧
      ∀ p e, page.Lists p → s.pte p = some e → e.dirty = true → e.addr = page.addr →
        page'.Lists p ∧ ∃ e', s'.pte p = some e' ∧ e'.dirty = true ∧ e'.addr = e.addr

variable {cfg : Config} {s s' s'' : State T P R} {points points' : P → Option Nat} {r : R} {page : Page P} {t : T} {k : Key}
  {p : P} {a : Nat}

open State Phase Tracked

lemma Stays.same (heap : s'.heap = s.heap) (pte : s'.pte = s.pte) : Stays s s' := by
  intro r page live write _
  rw [heap] at live
  exact ⟨page,live,write,rfl,id,fun p e lists present dirty _ => ⟨lists,e,pte ▸ present,dirty,rfl⟩⟩

lemma Stays.trans (first : Stays s s') (second : Stays s' s'') (pages : ∀ r, s''.heap r ≠ none → s'.heap r ≠ none) :
    Stays s s'' := by
  intro r page2 live2 write2 there
  obtain ⟨page1,live1,write1,addr1,flag1,ptes1⟩ := second r page2 live2 write2 (pages r (live2 ▸ nofun))
  obtain ⟨page,live,write,addr,flag,ptes⟩ := first r page1 live1 write1 there
  refine ⟨page,live,write,addr.trans addr1,fun dirty => flag1 (flag dirty),fun p e lists present dirty at_ => ?_⟩
  obtain ⟨lists1,e1,present1,dirty1,same1⟩ := ptes p e lists present dirty at_
  obtain ⟨lists2,e2,present2,dirty2,same2⟩ := ptes1 p e1 lists1 present1 dirty1 (same1.trans (at_.trans addr))
  exact ⟨lists2,e2,present2,dirty2,same2.trans same1⟩

lemma Stays.follows (stays : Stays s s')
    (leaves : ∀ u k p addr old, s.phase u = .releasing k p addr old → s'.phase u = .releasing k p addr old) :
    Follows s s' := by
  intro r page' live' write' there
  obtain ⟨page,live,write,addr,flag,ptes⟩ := stays r page' live' write' there
  refine ⟨page,live,write,?_⟩
  rintro (⟨p,e,lists,present,dirty,at_⟩ | dirty | ⟨u,k,p,addr',e,phase,dirty,at_⟩)
  · obtain ⟨lists',e',present',dirty',same⟩ := ptes p e lists present dirty at_
    exact .inl ⟨p,e',lists',present',dirty',same.trans (at_.trans addr)⟩
  · exact .inr (.inl (flag dirty))
  · exact .inr (.inr ⟨u,k,p,addr',e,leaves u k p addr' (some e) phase,dirty,at_.trans addr⟩)

lemma Drops.stays (drops : Drops s s' points points') (inv : Inv cfg s' points') : Stays s s' := by
  intro r page live write _
  refine ⟨page,drops.pages r page live,write,rfl,id,fun p e lists present dirty _ => ⟨lists,e,?_,dirty,rfl⟩⟩
  have aim := (inv.agree.listed r page p live).mp lists
  rcases drops.ptes p with same | ⟨-,none⟩
  · exact same.trans present
  · cases none.symm.trans aim

lemma removePhase (live : s.heap r = some page) (p : P) : (s.removeReadMapping r p).phase = s.phase := by
  simp only [removeReadMapping,live]
  split
  · rfl
  split <;> rfl

lemma removeStays (live : s.heap r = some page) {b : Nat} (arc : page.buf = some b) (p : P) :
    Stays s (s.removeReadMapping r p) := by
  have other : ∀ q page', (s.removeReadMapping r p).heap q = some page' → page'.buf = none → s.heap q = some page' := by
    intro q page' there write
    simp only [removeReadMapping,live] at there
    split at there
    · exact there
    split at there <;> simp only [deleteRead,store,update_apply] at there
    · split at there
      · cases there
      exact there
    split at there
    · cases there
      cases write.symm.trans arc
    · exact there
  have pte : (s.removeReadMapping r p).pte = s.pte := by
    simp only [removeReadMapping,live]
    split
    · rfl
    split <;> rfl
  intro q page' there write _
  exact ⟨page',other q page' there write,write,rfl,id,fun p e lists present dirty _ => ⟨lists,e,pte ▸ present,dirty,rfl⟩⟩

lemma storeAddStays (live : s.heap r = some page) (p : P) : Stays s (s.store r {page with ptes := page.ptes.add p}) := by
  intro q page' there write _
  simp only [store,update_apply] at there
  split at there
  next same =>
    cases there
    subst q
    exact ⟨page,live,write,rfl,id,fun p e lists present dirty _ => ⟨PtepList.memAdd.mpr (.inr lists),e,present,dirty,rfl⟩⟩
  · exact ⟨page',there,write,rfl,id,fun p e lists present dirty _ => ⟨lists,e,present,dirty,rfl⟩⟩

lemma goReleasing {next : Phase P R} (before : ∀ k p addr old, s.phase t ≠ .releasing k p addr old) :
    ∀ u k p addr old, s.phase u = .releasing k p addr old → (s.go t next).phase u = .releasing k p addr old := by
  intro u k p addr old at_
  have other : u ≠ t := by
    rintro rfl
    exact before k p addr old at_
  simp only [go]
  rw [update_of_ne other]
  exact at_

lemma mapWriteStays (s : State T P R) (t : T) (w : R) (p : P) (pte : Entry) : Stays s (s.mapWrite t w p pte) := by
  simp only [mapWrite]
  cases live : s.heap w with
  | none => exact .same rfl rfl
  | some page => exact storeAddStays live p

lemma mapWriteReleasing (w : R) (pte : Entry) (before : ∀ k p addr old, s.phase t ≠ .releasing k p addr old) :
    ∀ u k p' addr old, s.phase u = .releasing k p' addr old → (s.mapWrite t w p pte).phase u = .releasing k p' addr old := by
  simp only [mapWrite]
  cases s.heap w with
  | none => exact fun _ _ _ _ _ => id
  | some page => exact goReleasing before

lemma Inv.readStays (inv : Inv cfg s points) (keeps : Keeps s points k p) (missing : s.writeCache k = none) (pte : Entry)
    (before : ∀ k p addr old, s.phase t ≠ .releasing k p addr old) : Follows s (s.readFault t k p pte true) := by
  simp only [State.readFault]
  rcases cached : s.readCache k with _ | c
  · refine Stays.follows ?_ (goReleasing before)
    exact .same rfl rfl
  obtain ⟨page,b,live,key,arc⟩ := (inv.filed.read k c).mp cached
  simp only [live,writePte,if_true]
  refine Stays.follows ?_ (goReleasing before)
  intro q page' there write known
  obtain ⟨old,before,write,addr,flag,ptes⟩ := storeAddStays live p q page' there write known
  refine ⟨old,before,write,addr,flag,fun p' e lists present dirty at_ => ?_⟩
  obtain ⟨lists',e',present',rest⟩ := ptes p' e lists present dirty at_
  have other : p' ≠ p := by
    rintro rfl
    cases (inv.onlyRead keeps missing before lists).symm.trans cached
    cases live.symm.trans before
    cases write.symm.trans arc
  exact ⟨lists',e',(update_of_ne other _ _).trans present',rest⟩

lemma addsStays (free : s.heap r = none) (pte : Entry) : Stays s (s.adds t k p pte r a) := by
  intro q page there write known
  have other : q ≠ r := by
    rintro rfl
    exact known free
  have there := (update_of_ne other _ _).symm.trans there
  exact ⟨page,there,write,rfl,id,fun p e lists present dirty _ => ⟨lists,e,present,dirty,rfl⟩⟩

lemma outReleasing (out : (s.phase t).Out = true) : ∀ k p addr old, s.phase t ≠ .releasing k p addr old := by
  intro k p addr old at_
  simp [at_,Out] at out

variable {won : Bool} {pte : Entry} {w q : R} {addr : Nat} {old : Option Entry} {act : Act T P R} {other : Page P}

lemma Inv.getFollows (inv : Inv cfg s points) (out : (s.phase t).Out = true) (lock : s.writeLock = none)
    (pte : Entry) {write shared : Bool} (unused : write = true → s.heap r = none)
    (allowed : Allowed cfg s (.get t k p pte write shared r a won)) :
    Follows s (s.get cfg t k p pte write shared r a won) := by
  obtain ⟨owned,free,rfl,fresh,-⟩ := allowed
  have before := outReleasing out
  have out := outTarget out
  have nobody := inv.facts.nobody lock free
  have keeps := inv.keeps owned (idleAt nobody)
  simp only [State.get]
  cases cached : s.writeCache k
  case some w =>
    have maps : Follows s (s.mapWrite t w p (pte.markCow (!shared))) :=
      (mapWriteStays s t w p _).follows (mapWriteReleasing w _ before)
    rcases write with _ | _
    · exact maps
    cases shared
    case true => exact maps
    refine Stays.follows ?_ (goReleasing before)
    exact .same rfl rfl
  rcases write with _ | _
  · exact inv.readStays keeps cached pte before
  cases shared
  case true =>
    have added := inv.adds lock out nobody keeps cached (unused rfl) (fresh rfl) pte
    obtain ⟨points',inv',drops⟩ := added.addsEvict (inv.facts.unlocked lock)
    have stays := (addsStays (unused rfl) pte).trans (drops.stays inv') fun q there => by
      obtain ⟨page,live⟩ := Option.ne_none_iff_exists'.mp there
      exact drops.pages q page live ▸ fun bad => by cases bad
    refine stays.follows fun u k' p' addr old at_ => ?_
    rw [drops.phase]
    exact goReleasing before u k' p' addr old at_
  simp only [if_true,Bool.false_eq_true,if_false,removeReadMappingAt]
  rcases arc : s.readCache k with _ | c
  · refine Stays.follows ?_ (goReleasing before)
    exact .same rfl rfl
  obtain ⟨page,b,live,key,buf⟩ := (inv.filed.read k c).mp arc
  have stays := removeStays live buf p
  have phase := removePhase live p
  refine Stays.follows (fun q page' => stays q page') fun u k' p' addr old at_ => ?_
  exact goReleasing (s := s.removeReadMapping c p) (phase ▸ before) u k' p' addr old (phase ▸ at_)

lemma Inv.fetchedFollows (inv : Inv cfg s points) (at_ : s.phase t = .fetching k p pte)
    (lock : s.writeLock = none) {hole : Bool} (allowed : Allowed cfg s (.fetched t hole won)) :
    Follows s (s.fetched cfg t k p pte hole won) := by
  simp only [Allowed,at_] at allowed
  obtain ⟨owned,free,rfl,-⟩ := allowed
  have before : ∀ k p addr old, s.phase t ≠ .releasing k p addr old := fun _ _ _ _ other => by cases at_.symm.trans other
  have keeps := inv.keeps owned (idleAt (inv.facts.nobody lock free))
  simp only [State.fetched]
  cases cached : s.writeCache k
  case some w =>
    refine Stays.follows ?_ (goReleasing before)
    exact .same rfl rfl
  rcases hole with _ | _
  · exact inv.readStays keeps cached pte before
  refine Stays.follows ?_ (goReleasing before)
  exact .same rfl rfl

lemma mapWritePages (there : (s.mapWrite t w p pte).heap r ≠ none) : s.heap r ≠ none := by
  simp only [mapWrite] at there
  rcases live : s.heap w with _ | page
  · simp only [live] at there
    exact there
  simp only [live,go,store,update_apply] at there
  split at there
  next same => exact same ▸ live ▸ fun bad => by cases bad
  · exact there

lemma Inv.movedFollows (inv : Inv cfg s points) (at_ : s.phase t = .moving k p pte w) :
    Follows s (s.moved t k p pte w) := by
  obtain ⟨points1,inv1,drops,-⟩ := inv.dropped k
  unfold State.moved
  generalize s.dropReadCachedPageAt k = s1 at inv1 drops ⊢
  have at1 : s1.phase t = .moving k p pte w := drops.phase ▸ at_
  refine ((drops.stays inv1).trans (mapWriteStays s1 t w p _) fun q => mapWritePages).follows ?_
  intro u k' p' addr old phase
  rw [← drops.phase] at phase
  exact mapWriteReleasing w _ (fun _ _ _ _ other => nomatch at1.symm.trans other) u k' p' addr old phase

lemma clearsFollows (out : (s.phase t).Out = true) (addr : Nat) :
    Follows s ({s with pte := update s.pte p none}.go t (.releasing k p addr (s.pte p))) := by
  intro q page live write _
  refine ⟨page,live,write,?_⟩
  rintro (⟨p',e,lists,present,dirty,at_⟩ | dirty | ⟨u,k',p',addr',e,phase,dirty,at_⟩)
  · by_cases same : p' = p
    · subst p'
      refine .inr (.inr ⟨t,k,p,addr,e,?_,dirty,at_⟩)
      simp only [go]
      rw [update_self,present]
    · exact .inl ⟨p',e,lists,(update_of_ne same _ _).trans present,dirty,at_⟩
  · exact .inr (.inl dirty)
  exact .inr (.inr ⟨u,k',p',addr',e,goReleasing (s := {s with pte := update s.pte p none}) (outReleasing out)
    u k' p' addr' (some e) phase,dirty,at_⟩)

section
variable (inv : Inv cfg s points)
include inv

lemma Inv.wroteFollows {e : Entry} (at_ : s.phase t = .writing p e)
    (dirty : StaysDirty s (.write t true)) (result : Option Bool) :
    Follows s {({s with pte := update s.pte p (some e)}.go t (.idle result)) with writeLock := none} := by
  simp only [StaysDirty,at_] at dirty
  have holds := inv.facts.calls t
  rw [at_] at holds
  have stays : Stays s {({s with pte := update s.pte p (some e)}.go t (.idle result)) with writeLock := none} := by
    intro q page live write _
    refine ⟨page,live,write,rfl,id,fun p' old lists present was addr => ⟨lists,?_⟩⟩
    by_cases same : p' = p
    · subst p'
      have aim := (inv.agree.listed q page p live).mp lists
      have target := addr.trans (Option.some.inj (aim.symm.trans holds.2.1))
      exact ⟨e,update_self _ _ _,dirty old present was target,target.symm⟩
    · exact ⟨old,(update_of_ne same _ _).trans present,was,rfl⟩
  exact stays.follows (goReleasing (s := {s with pte := update s.pte p (some e)})
    fun _ _ _ _ other => nomatch at_.symm.trans other)

lemma Inv.unmapWriteFollows (at_ : s.phase t = .releasing k p addr old) : Follows s (s.unmapWrite t k p addr old) := by
  have leaves := inv.facts.calls t
  rw [at_] at leaves
  -- the page that release() has seen is the one of the write cache
  have found : ∀ q page, s.heap q = some page → page.buf = none → old.map Entry.addr = some page.addr →
    s.writeCache k = some q := by
    intro q page live write same
    have lists := leaves.lists inv live same
    exact (inv.filed.write k q).mpr ⟨page,live,inv.listsKey leaves.keeps live lists,write⟩
  have checks (missing : ∀ q page, s.heap q = some page → page.buf = none → old.map Entry.addr ≠ some page.addr) :
    Follows s (s.go t (.checking k p addr old)) := by
    intro q page live write _
    refine ⟨page,live,write,?_⟩
    rintro (dirty | dirty | ⟨u,k',p',addr',e,phase,dirty,same⟩)
    · exact .inl dirty
    · exact .inr (.inl dirty)
    by_cases mine : u = t
    · subst u
      cases at_.symm.trans phase
      exact absurd (congrArg some same) (missing q page live write)
    refine .inr (.inr ⟨u,k',p',addr',e,?_,dirty,same⟩)
    simp only [go]
    rw [update_of_ne mine]
    exact phase
  simp only [State.unmapWrite]
  rcases cached : s.writeCache k with _ | w
  · exact checks fun q page live write same => by cases cached.symm.trans (found q page live write same)
  obtain ⟨page,live,key,buf⟩ := (inv.filed.write k w).mp cached
  simp only [live]
  split
  swap
  next differ =>
    refine checks fun q page' there write same => ?_
    cases cached.symm.trans (found q page' there write same)
    cases live.symm.trans there
    exact differ same
  rename_i same
  have mine := leaves.lists inv live same
  obtain ⟨rest,n,eq,drops,-⟩ := PtepList.removeMem mine
  simp only [eq]
  intro q page' there write _
  simp only [go,store,update_apply] at there
  split at there
  swap
  next other =>
    refine ⟨page',there,write,?_⟩
    rintro (⟨p',e,dirty⟩ | dirty | ⟨u,k',p',addr',e,phase,dirty,at'⟩)
    · exact .inl ⟨p',e,dirty⟩
    · exact .inr (.inl dirty)
    by_cases self : u = t
    · subst u
      cases at_.symm.trans phase
      exact absurd (Option.some.inj ((found q page' there write (congrArg some at')).symm.trans cached)) other
    refine .inr (.inr ⟨u,k',p',addr',e,?_,dirty,at'⟩)
    exact (update_of_ne self _ _).trans phase
  cases there
  subst q
  refine ⟨page,live,write,?_⟩
  rintro (⟨p',e,lists,present,dirty,at'⟩ | dirty | ⟨u,k',p',addr',e,phase,dirty,at'⟩)
  · have other : p' ≠ p := by
      rintro rfl
      cases leaves.empty.symm.trans present
    exact .inl ⟨p',e,(drops p').mpr ⟨lists,other⟩,present,dirty,at'⟩
  · exact .inr (.inl (by simp [dirty]))
  by_cases self : u = t
  · subst u
    cases at_.symm.trans phase
    exact .inr (.inl (by simp [dirty]))
  refine .inr (.inr ⟨u,k',p',addr',e,?_,dirty,at'⟩)
  exact (update_of_ne self _ _).trans phase

lemma Inv.unmapReadFollows (at_ : s.phase t = .checking k p addr old) : Follows s (s.unmapRead cfg t k p addr old) := by
  have before : ∀ k p addr old, s.phase t ≠ .releasing k p addr old := fun _ _ _ _ other => nomatch at_.symm.trans other
  simp only [State.unmapRead]
  rcases cached : s.readCache k with _ | c
  · refine Stays.follows ?_ (goReleasing before)
    exact .same rfl rfl
  obtain ⟨page,b,live,key,buf⟩ := (inv.filed.read k c).mp cached
  simp only [live]
  split
  · have stays := removeStays live buf p
    have phase := removePhase live p
    refine Stays.follows (fun q page' => stays q page') fun u k' p' addr old at_ => ?_
    exact goReleasing (s := s.removeReadMapping c p) (phase ▸ before) u k' p' addr old (phase ▸ at_)
  refine Stays.follows ?_ (goReleasing before)
  exact .same rfl rfl

lemma Inv.follows (allowed : Allowed cfg s act) (dirty : StaysDirty s act)
    (taken : PageCache.step cfg s act = some s') : Follows s s' := by
  unfold PageCache.step at taken
  rw [if_neg (ne_true_of_eq_false inv.ran)] at taken
  cases act <;> dsimp only at taken
  case unmapArcBuf b =>
    cases taken
    obtain ⟨points',inv',drops⟩ := inv.unmapsArcBuf b
    exact (drops.stays inv').follows fun u k p addr old at_ => drops.phase ▸ at_
  case touch p =>
    cases taken
    refine Stays.follows (fun q page there write _ => ?_) (fun _ _ _ _ _ => id)
    refine ⟨page,there,write,rfl,id,fun p' e lists present dirty _ => ⟨lists,?_⟩⟩
    by_cases same : p' = p
    · subst p'
      exact ⟨{e with dirty := e.dirty || e.writable},by simp [present],by simp [dirty],rfl⟩
    · exact ⟨e,(update_of_ne same _ _).trans present,dirty,rfl⟩
  all_goals split at taken <;> try cases taken
  case get.isTrue pte _ _ _ _ _ can => exact inv.getFollows can.1 can.2.1 pte can.2.2 allowed
  case release.isTrue addr out => exact clearsFollows out addr
  case mapArcBuf.isTrue c _ free =>
    refine Stays.follows (fun q page there write known => ?_) (fun _ _ _ _ _ => id)
    have other : q ≠ c := by
      rintro rfl
      exact known free
    have there := (update_of_ne other _ _).symm.trans there
    exact ⟨page,there,write,rfl,id,fun p e lists present dirty _ => ⟨lists,e,present,dirty,rfl⟩⟩
  next at_ =>
    obtain ⟨lock,taken⟩ := Option.ite_none_right_eq_some.mp taken
    cases taken
    exact inv.fetchedFollows at_ lock allowed
  next at_ => exact inv.movedFollows at_
  next at_ =>
    cases allowed
    exact inv.wroteFollows at_ dirty (some true)
  next at_ =>
    obtain ⟨-,taken⟩ := Option.ite_none_right_eq_some.mp taken
    cases taken
    exact inv.unmapWriteFollows at_
  next at_ => exact inv.unmapReadFollows at_

lemma Inv.storedDirty (taken : PageCache.step cfg s act = some s')
    (stored : stores s r act = true) (live : s'.heap r = some page) (write : page.buf = none) : DirtyPte s' page := by
  unfold PageCache.step at taken
  rw [if_neg (ne_true_of_eq_false inv.ran)] at taken
  cases act with
  | touch p => ?_
  | _ => simp [stores] at stored
  cases taken
  simp only [stores] at stored
  rcases present : s.pte p with _ | e
  · simp [present] at stored
  rw [present,live] at stored
  obtain ⟨writable,addr⟩ := Bool.and_eq_true_iff.mp stored
  have addr := beq_iff_eq.mp addr
  have lists : page.Lists p := by
    by_cases idle : Idle s p
    · exact inv.idleLists idle present live addr.symm
    obtain ⟨t,busy⟩ := not_forall.mp idle
    have holds := inv.facts.calls t
    generalize at_ : s.phase t = x at busy holds ⊢
    cases x with
    | writing q e' => ?_
    | releasing k q addr' old =>
      have same : q = p := by simpa [writes,releases] using busy
      subst same
      cases present.symm.trans holds.empty
    | checking k q addr' old =>
      have same : q = p := by simpa [writes,releases] using busy
      subst same
      cases present.symm.trans holds.1.empty
    | _ => simp [writes,releases] at busy
    have same : q = p := by simpa [writes,releases] using busy
    subst same
    have behind := holds.2.2.2.2 e page.key present ⟨r,page,live,rfl,addr.symm,write⟩
    refine (inv.agree.listed r page q live).mpr (holds.2.1.trans ?_)
    rw [← behind,addr]
  exact ⟨p,{e with dirty := e.dirty || e.writable},lists,by simp,by simp [writable],addr⟩

lemma Inv.clearDirty (page : Page P) : Inv cfg (s.clearDirty page) points := by
  refine ⟨inv.ran,inv.agree,inv.filed,inv.facts.reflag (fun _ _ _ => id) (fun p => ?_) rfl rfl rfl⟩
  simp only [State.clearDirty]
  split
  · cases s.pte p <;> rfl
  · rfl

lemma Inv.cleaned (live : s.heap r = some page) :
    Inv cfg (s.store r {page with dirty := false}) points := by
  refine ⟨inv.ran,⟨fun q other p there => ?_,fun q u o1 o2 first second => ?_⟩,inv.filed.store live rfl rfl rfl,
    inv.facts.reflag (knownStore rfl live rfl rfl rfl) (fun _ => rfl) rfl rfl rfl⟩
  · simp only [store,update_apply] at there
    split at there
    · cases there
      exact inv.agree.listed r page p live
    · exact inv.agree.listed q other p there
  have unique := inv.agree.unique
  simp only [store,update_apply] at first second
  grind

end

def Finds (s : State T P R) (k : Key) (r : R) : Prop :=
  s.writeCache k = some r ∧ ∃ page, s.heap r = some page ∧ s.hasDirty page = true

def Key.plus (k : Key) (i : Nat) : Key := {k with offset := k.offset + i * pageSize}

def Traced (s : Tracked T P R) (stack : List R) : Prop :=
  ∀ r page, s.cache.heap r = some page → page.buf = none → s.modified r = true → Recorded s.cache page ∨ r ∈ stack

lemma hasDirtyIff : s.hasDirty page = true ↔ ∃ p e, page.Lists p ∧ s.pte p = some e ∧ e.dirty = true := by
  simp only [hasDirty,any_eq_true,Option.any_eq_true,Page.Lists]
  constructor
  · rintro ⟨p,lists,e,present,dirty⟩
    exact ⟨p,e,lists,present,dirty⟩
  rintro ⟨p,e,lists,present,dirty⟩
  exact ⟨p,lists,e,present,dirty⟩

lemma clearDirtyAway (away : ¬ page.Lists p) : (s.clearDirty page).pte p = s.pte p := if_neg away

lemma Inv.clearDirtyOther (inv : Inv cfg s points) (live : s.heap r = some page)
    (there : s.heap q = some other) (differ : q ≠ r) (lists : other.Lists p) :
    (s.clearDirty page).pte p = s.pte p :=
  clearDirtyAway fun mine => differ (inv.agree.only live mine there lists)

section
variable {x y : Tracked T P R} {stack : List R}

structure Checks (cfg : Config) (x y : Tracked T P R) (points : P → Option Nat) (k : Key) : Prop where
  inv : Inv cfg y.cache points
  traced : Traced x x.pending → Traced y y.pending
  pushed : ∀ r, r ∈ y.pending ↔ r ∈ x.pending ∨ Finds x.cache k r
  others : ∀ k' r, k' ≠ k → (Finds y.cache k' r ↔ Finds x.cache k' r)
  modified : y.modified = x.modified
  heap : y.cache.heap = x.cache.heap

lemma Inv.checked (inv : Inv cfg x.cache points) (k : Key) : Checks cfg x (x.check k) points k := by
  have stays (none : ∀ r, ¬ Finds x.cache k r) : Checks cfg x x points k :=
    ⟨inv,id,fun r => ⟨.inl,fun mem => mem.resolve_right (none r)⟩,fun _ _ _ => Iff.rfl,rfl,rfl⟩
  simp only [check]
  rcases cached : x.cache.writeCache k with _ | r
  · exact stays fun r finds => nomatch cached.symm.trans finds.1
  obtain ⟨page,live,key,write⟩ := (inv.filed.write k r).mp cached
  simp only [live]
  split
  swap
  next clean =>
    refine stays fun q ⟨there,other,found,dirty⟩ => clean ?_
    cases cached.symm.trans there
    cases live.symm.trans found
    exact dirty
  rename_i dirty
  refine ⟨inv.clearDirty page,?_,fun q => ?_,fun k' q differ => ?_,rfl,rfl⟩
  · intro traced q other there write modified
    rcases traced q other there write modified with (⟨p,e,lists,present,dirty⟩ | dirty | leaving) | mem
    · by_cases same : q = r
      · exact .inr (same ▸ (.head _))
      · exact .inl (.inl ⟨p,e,lists,(inv.clearDirtyOther live there same lists).trans present,dirty⟩)
    · exact .inl (.inr (.inl dirty))
    · exact .inl (.inr (.inr leaving))
    · exact .inr (.tail r mem)
  · rw [mem_cons,or_comm]
    refine or_congr_right ⟨?_,fun finds => Option.some.inj (finds.1.symm.trans cached)⟩
    rintro rfl
    exact ⟨cached,page,live,dirty⟩
  refine and_congr_right fun there => exists_congr fun other => and_congr_right fun found => ?_
  have away : q ≠ r := by
    rintro rfl
    obtain ⟨again,live',key',-⟩ := (inv.filed.write k' q).mp there
    cases live.symm.trans live'
    exact differ (key'.symm.trans key)
  rw [hasDirtyIff,hasDirtyIff]
  refine exists_congr fun p => exists_congr fun e => and_congr_right fun lists => ?_
  rw [inv.clearDirtyOther live found away lists]

structure Scans (cfg : Config) (x y : Tracked T P R) (points : P → Option Nat) (n : Nat) (k : Key) : Prop where
  inv : Inv cfg y.cache points
  traced : Traced x x.pending → Traced y y.pending
  pushed : ∀ r, r ∈ y.pending ↔ r ∈ x.pending ∨ ∃ i < n, Finds x.cache (k.plus i) r
  modified : y.modified = x.modified
  heap : y.cache.heap = x.cache.heap

lemma Key.plusNe (k : Key) (i : Nat) : k.plus (i + 1) ≠ k := by
  intro eq
  have offset := congrArg Key.offset eq
  simp only [Key.plus,pageSize] at offset
  omega

lemma Key.plusSucc (k : Key) (i : Nat) : Key.plus {k with offset := k.offset + pageSize} i = k.plus (i + 1) := by
  simp only [Key.plus,pageSize,Key.mk.injEq,true_and]
  omega

lemma Key.plusZero (k : Key) : k.plus 0 = k := by
  simp [Key.plus]

lemma Inv.scans (n : Nat) (k : Key) (inv : Inv cfg x.cache points) : Scans cfg x (scan n k x) points n k := by
  induction n generalizing k x with
  | zero => exact ⟨inv,id,fun r => by simp [scan],rfl,rfl⟩
  | succ n ih => ?_
  have first := inv.checked k
  have rest := ih {k with offset := k.offset + pageSize} first.inv
  refine ⟨rest.inv,fun traced => rest.traced (first.traced traced),fun r => ?_,rest.modified.trans first.modified,
    rest.heap.trans first.heap⟩
  have later : ∀ i, Finds (x.check k).cache (Key.plus {k with offset := k.offset + pageSize} i) r ↔
    Finds x.cache (k.plus (i + 1)) r := by
    intro i
    rw [Key.plusSucc]
    exact first.others (k.plus (i + 1)) r (k.plusNe i)
  simp only [scan,rest.pushed,first.pushed,later,or_assoc]
  refine or_congr_right ?_
  constructor
  · rintro (here | ⟨i,less,there⟩)
    · exact ⟨0,Nat.succ_pos n,k.plusZero.symm ▸ here⟩
    · exact ⟨i + 1,Nat.succ_lt_succ less,there⟩
  rintro ⟨i,less,there⟩
  cases i with
  | zero => exact .inl (k.plusZero ▸ there)
  | succ i => exact .inr ⟨i,Nat.lt_of_succ_lt_succ less,there⟩

lemma writeAllModified {results : List Bool} (returned : (writeAll stack results x).2 = true) (r : R) :
    (writeAll stack results x).1.modified r = (x.modified r && decide (r ∉ stack)) := by
  induction stack generalizing results x with
  | nil => simp [writeAll]
  | cons q rest ih => ?_
  simp only [writeAll] at returned ⊢
  rcases live : x.cache.heap q with _ | page
  · simp [live] at returned
  simp only [live] at returned ⊢
  split at returned
  next ok =>
    rw [if_pos ok,ih returned]
    by_cases same : r = q
    · simp [same]
    · simp [same]
  next => cases returned

lemma Traced.cleaned (traced : Traced x (r::stack))
    (pte : y.cache.pte = x.cache.pte) (phase : y.cache.phase = x.cache.phase)
    (same : ∀ q, q ≠ r → y.cache.heap q = x.cache.heap q ∧ y.modified q = x.modified q) (differ : q ≠ r)
    (there : y.cache.heap q = some other) (write : other.buf = none) (stored : y.modified q = true) :
    Recorded y.cache other ∨ q ∈ stack := by
  rcases traced q other ((same q differ).1 ▸ there) write ((same q differ).2 ▸ stored) with recorded | mem
  · refine .inl ?_
    simpa only [Recorded,DirtyPte,Leaving,pte,phase] using recorded
  · exact .inr ((mem_cons.mp mem).resolve_left differ)

def Tracks (cfg : Config) (x : Tracked T P R) : Prop :=
  x.cache.failed = true ∨ (∃ points, Inv cfg x.cache points) ∧ Traced x x.pending

lemma Inv.writesAll (results : List Bool) (inv : Inv cfg x.cache points) (traced : Traced x stack) :
    Tracks cfg (writeAll stack results x).1 := by
  induction stack generalizing results x with
  | nil => exact .inr ⟨⟨points,inv⟩,traced⟩
  | cons r rest ih => ?_
  simp only [writeAll]
  rcases live : x.cache.heap r with _ | page
  · exact .inl rfl
  have clean := inv.cleaned live
  cases ok : results.headD false with
  | false =>
    refine .inr ⟨⟨points,clean⟩,fun q other there write stored => ?_⟩
    by_cases same : q = r
    · exact .inr (same ▸ (.head _))
    refine (traced.cleaned ?_ ?_ (fun q differ => ?_) same there write stored).imp_right (mem_cons_of_mem r)
    case refine_3 => exact ⟨update_of_ne differ _ _,rfl⟩
    all_goals rfl
  | true => ?_
  refine ih results.tail ⟨clean.ran,clean.agree,clean.filed,clean.facts.reflag (fun _ _ _ => id) (fun _ => rfl) rfl rfl rfl⟩ ?_
  intro q other there write stored
  have differ : q ≠ r := by
    rintro rfl
    simp at stored
  refine traced.cleaned ?_ ?_ (fun q differ => ?_) differ there write stored
  case refine_3 => exact ⟨update_of_ne differ _ _,update_of_ne differ _ _⟩
  all_goals rfl

lemma Inv.synced (inv : Inv cfg x.cache points) (traced : Traced x x.pending) (dev ino : Nat) (start stop : Int)
    (results : List Bool) : Tracks cfg (x.sync dev ino start stop results).1 := by
  have scans := inv.scans (rounds start stop) ⟨dev,ino,start⟩
  exact scans.inv.writesAll results (scans.traced traced)

lemma Tracks.step {op : Op T P R} (tracks : Tracks cfg x) (allowed : x.Allowed cfg op) (taken : x.step cfg op = some y) :
    Tracks cfg y := by
  cases op with
  | act a => ?_
  | sync dev ino start stop results =>
    obtain ⟨free,taken⟩ := Option.ite_none_left_eq_some.mp taken
    cases taken
    obtain failed | ⟨⟨points,inv⟩,traced⟩ := tracks
    · exact absurd (.inl failed) free
    exact inv.synced traced dev ino start stop results
  obtain ⟨cache,ran,rfl⟩ := Option.map_eq_some_iff.mp taken
  obtain failed | ⟨⟨points,inv⟩,traced⟩ := tracks
  · simp [PageCache.step,failed] at ran
  obtain ⟨points',inv',-⟩ := inv.step allowed.1 ran
  refine .inr ⟨⟨points',inv'⟩,fun r page live write modified => ?_⟩
  obtain ⟨there,stored⟩ := Bool.and_eq_true_iff.mp modified
  obtain ⟨before,old⟩ := Option.isSome_iff_exists.mp there
  rcases Bool.or_eq_true_iff.mp stored with stored | stored
  · exact .inl (.inl (inv.storedDirty ran stored live write))
  obtain ⟨page',live',write',kept⟩ := inv.follows allowed.1 allowed.2 ran r page live write (old ▸ nofun)
  exact (traced r page' live' write' stored).imp_left kept

lemma Tracked.Reachable.tracks (reach : Reachable cfg x) : Tracks cfg x := by
  refine invariant (fun x first => .inr ⟨⟨_,first.1.inv⟩,fun r page live => ?_⟩) (fun _ _ _ tracks => tracks.step) reach
  cases (first.1.heap r).symm.trans live

lemma onGrid {start stop offset : Int} (above : start ≤ offset) (below : offset < stop) :
    (∃ i : Nat, i < rounds start stop ∧ offset = start + i * pageSize) ↔ (offset - start) % pageSize = 0 := by
  simp only [rounds,pageSize]
  constructor
  · omega
  intro aligned
  refine ⟨((offset - start) / 4096).toNat,?_,?_⟩ <;> omega

theorem syncedModified (reach : Tracked.Reachable cfg x) {dev ino : Nat} {start stop : Int} {results : List Bool}
    (taken : x.step cfg (.sync dev ino start stop results) = some y)
    (returned : (x.sync dev ino start stop results).2 = true) :
    ((∀ r page, Due x dev ino start stop r page → y.modified r = false) ↔ ∀ r page, Due x dev ino start stop r page →
        (page.key.offset - start) % pageSize = 0 ∧ x.cache.hasDirty page = true ∨ r ∈ x.pending) ∧
      ∀ r page, Due x dev ino start stop r page → Recorded x.cache page ∨ r ∈ x.pending := by
  obtain ⟨free,taken⟩ := Option.ite_none_left_eq_some.mp taken
  cases taken
  obtain failed | ⟨⟨points,inv⟩,traced⟩ := reach.tracks
  · exact absurd (.inl failed) free
  have scans := inv.scans (rounds start stop) ⟨dev,ino,start⟩
  refine ⟨forall_congr' fun r => forall_congr' fun page => imp_congr_right ?_,?_⟩
  swap
  · rintro r page ⟨live,cached,-,-,-,-,modified⟩
    obtain ⟨page',live',-,write⟩ := (inv.filed.write page.key r).mp cached
    cases live.symm.trans live'
    exact traced r page live write modified
  rintro ⟨live,cached,rfl,rfl,above,below,modified⟩
  have left := writeAllModified returned r
  rw [scans.modified,modified,Bool.true_and] at left
  rw [sync,left,decide_eq_false_iff_not,not_not,scans.pushed,or_comm]
  refine or_congr_left ?_
  rw [← onGrid above below]
  constructor
  · rintro ⟨i,less,there,page',live',dirty⟩
    cases live.symm.trans live'
    obtain ⟨page',live',key,-⟩ := (inv.filed.write _ r).mp there
    cases live.symm.trans live'
    exact ⟨⟨i,less,congrArg Key.offset key⟩,dirty⟩
  rintro ⟨⟨i,less,offset⟩,dirty⟩
  have key : page.key = Key.plus ⟨page.key.dev,page.key.ino,start⟩ i := by simp only [Key.plus,← offset]
  exact ⟨i,less,key ▸ cached,page,live,dirty⟩

-- No page is waiting in the static stack, and each modification that was not written back is recorded.
def Recovered (x : Tracked T P R) : Prop := Traced x [] ∧ x.pending = []

lemma writeAllPending (results : List Bool) (some : stack ≠ [] → x.pending ≠ []) (thrown : (writeAll stack results x).2 = false) :
    (writeAll stack results x).1.pending ≠ [] := by
  induction stack generalizing results x with
  | nil => cases thrown
  | cons r rest ih => ?_
  have left := some (cons_ne_nil r rest)
  simp only [writeAll] at thrown ⊢
  split at thrown
  · exact left
  split at thrown
  next ok =>
    rw [if_pos ok]
    exact ih results.tail (fun _ => left) thrown
  next failed =>
    rw [if_neg failed]
    exact cons_ne_nil r rest

theorem errorsRecovered {dev ino : Nat} {start stop : Int} {results : List Bool}
    (taken : x.step cfg (.sync dev ino start stop results) = some y) (thrown : (x.sync dev ino start stop results).2 = false) :
    ¬ Recovered y := by
  obtain ⟨-,taken⟩ := Option.ite_none_left_eq_some.mp taken
  cases taken
  exact fun recovered => writeAllPending results id thrown recovered.2

end

section
variable (cfg : Config) (x : Tracked (Fin 2) (Fin 2) (Fin 3))

instance (s : State (Fin 2) (Fin 2) (Fin 3)) (act : Act (Fin 2) (Fin 2) (Fin 3)) : Decidable (StaysDirty s act) :=
  decidable_of_bool (match act with
    | .write t _ => match s.phase t with
      | .writing p e => decide (∀ old ∈ s.pte p, old.dirty = true → old.addr = e.addr → e.dirty = true)
      | _ => true
    | _ => true) (by cases act <;> simp [StaysDirty]; split <;> simp [*])

instance (op : Op (Fin 2) (Fin 2) (Fin 3)) : Decidable (x.Allowed cfg op) := by
  cases op <;> dsimp only [Tracked.Allowed] <;> infer_instance

end

instance (x : Tracked (Fin 2) (Fin 2) (Fin 3)) (dev ino : Nat) (start stop : Int) (r : Fin 3) (page : Page (Fin 2)) :
    Decidable (Due x dev ino start stop r page) := by unfold Due; infer_instance

abbrev nothingStored : Tracked (Fin 2) (Fin 2) (Fin 3) := ⟨nothingCached,fun _ => false,[]⟩

def storeRun : List (Op (Fin 2) (Fin 2) (Fin 3)) :=
  [.act (.get 0 firstPage 0 leaf true true 0 11 true),.act (.moved 0),.act (.write 0 true),.act (.touch 0)]

def releaseRun : List (Op (Fin 2) (Fin 2) (Fin 3)) :=
  storeRun ++ [.act (.release 0 firstPage 0 11),.act (.unmapWrite 0)]

abbrev stored (run : List (Op (Fin 2) (Fin 2) (Fin 3))) : Tracked (Fin 2) (Fin 2) (Fin 3) :=
  Runs.final (Tracked.step onePage) (Tracked.Allowed onePage) nothingStored run

lemma storedReach {run : List (Op (Fin 2) (Fin 2) (Fin 3))}
    (taken : (replay (guarded (Tracked.step onePage) (Tracked.Allowed onePage)) nothingStored run).isSome = true) :
    Tracked.Reachable onePage (stored run) :=
  reachFinal run ⟨nothingCachedStart,fun _ => rfl,rfl⟩ taken

theorem syncedModifiedStore : Due (stored storeRun) 1 1 0 4096 0 ⟨firstPage,11,.one 0,none,false⟩ ∧
      ((stored storeRun).sync 1 1 0 4096 [true]).1.modified 0 = false ∧
      ∀ r page, Due (stored storeRun) 1 1 0 4096 r page → Recorded (stored storeRun).cache page ∨ r ∈ (stored storeRun).pending :=
  ⟨by decide,by decide, (syncedModified (storedReach (by decide))
      (afterTaken (o := Op.sync 1 1 0 4096 [true]) (by decide)) (by decide)).2⟩

theorem releasedNotSynced : Tracked.Reachable onePage (stored releaseRun) ∧
      Due (stored releaseRun) 1 1 0 4096 0 ⟨firstPage,11,.null,none,true⟩ ∧
      ((stored releaseRun).sync 1 1 0 4096 []).2 = true ∧
      ((stored releaseRun).sync 1 1 0 4096 []).1.modified 0 = true ∧
      ((stored releaseRun).sync 1 1 0 4096 []).1.cache.writtenBack = [] :=
  ⟨storedReach (by decide),by decide,by decide,by decide,by decide⟩

theorem errorsRecoveredStore : ¬ Recovered (Runs.after (Tracked.step onePage) (stored storeRun) (.sync 1 1 0 4096 [false])) :=
  errorsRecovered (afterTaken (by decide)) (by decide)

-- The page that was not written is evicted as a clean one, and the next sync() finds its pointer in the stack.
def errorRun : List (Op (Fin 2) (Fin 2) (Fin 3)) :=
  storeRun ++ [.sync 1 1 0 4096 [false],.act (.get 1 secondPage 1 leaf true true 1 12 true),.act (.moved 1),.act (.write 1 true)]

theorem errorsNotRecovered : ((stored storeRun).sync 1 1 0 4096 [false]).2 = false ∧
      ((stored storeRun).sync 1 1 0 4096 [false]).1.modified 0 = true ∧
      ((stored storeRun).sync 1 1 0 4096 [false]).1.cache.heap 0 = some ⟨firstPage,11,.one 0,none,false⟩ ∧
      ((stored storeRun).sync 1 1 0 4096 [false]).1.cache.pte 0 = some ⟨11,true,false,false⟩ ∧
      Tracked.Reachable onePage (stored errorRun) ∧ (stored errorRun).cache.heap 0 = none ∧
      (stored errorRun).cache.writtenBack = [] ∧ (stored errorRun).pending = [0] ∧
      ((stored errorRun).sync 1 1 0 4096 [true]).1.cache.failed = true :=
  ⟨by decide,by decide,by decide,by decide,storedReach (by decide),by decide,
    by decide,by decide,by decide⟩

end OsvKernel.PageCache
