import OsvKernel.Chains
import OsvKernel.Runs

/-! A small-object pool on one CPU. The header at the start of each page and the
links of the free objects are memory: any word of an object that was handed out
may be overwritten by its owner. -/
namespace OsvKernel.Pool
open List Option Runs Chains
open Function (update update_of_ne update_self)

def pageSize : Nat := 4096
def headerSize : Nat := 40

structure Config where
  size : Nat
  link : 8 ≤ size
  fits : size + headerSize ≤ pageSize

structure State where
  free : List Nat
  nalloc : Nat → Nat
  localFree : Nat → Option Nat
  next : Nat → Option Nat

def toHeader (object : Nat) : Nat := object - object % pageSize

def carve (size page : Nat) : Nat → Nat → State → State
  | 0,_,s => s
  | fuel+1,p,s =>
    if p ≥ page + headerSize then
      carve size page fuel (p - size)
        { s with next := update s.next p (s.localFree page)
                 localFree := update s.localFree page (some p) }
    else s

-- The assertion after push_back never sees an empty list.
def addPage (cfg : Config) (s : State) (page : Nat) : State :=
  let s := { s with nalloc := update s.nalloc page 0
                    localFree := update s.localFree page none }
  let s := carve cfg.size page pageSize (page + pageSize - cfg.size) s
  { s with free := s.free ++ [page] }

-- Taken with a non-empty list, after the loop around add_page.
def alloc (s : State) : Option (State × Nat) :=
  match s.free with
  | [] => none
  | header::rest =>
    match s.localFree header with
    | none => none
    | some obj =>
      some ({ s with nalloc := update s.nalloc header ((s.nalloc header + 1) % 2^32)
                     localFree := update s.localFree header (s.next obj)
                     free := if (s.next obj).isNone then rest else header::rest },obj)

def haveFullPages (s : State) : Bool :=
  match s.free.getLast? with
  | none => false
  | some back => s.nalloc back == 0

-- unsigned, so zero wraps.
def decrement (n : Nat) : Nat := if n = 0 then 2^32-1 else n-1

-- Full pages stay at the back, so that they are not fragmented early.
def relink (s : State) (header : Nat) : List Nat :=
  if (s.localFree header).isNone then
    if s.nalloc header ≠ 0 then header::s.free else s.free ++ [header]
  else s.free

def freeSameCpu (s : State) (obj : Nat) : State × Option Nat :=
  let header := toHeader obj
  let s := { s with nalloc := update s.nalloc header (decrement (s.nalloc header)) }
  if s.nalloc header = 0 ∧ haveFullPages s then
    ({ s with free := if (s.localFree header).isSome then s.free.erase header else s.free },some header)
  else
    ({ s with free := relink s header
              next := update s.next obj (s.localFree header)
              localFree := update s.localFree header (some obj) },none)

structure World where
  st : State
  pages : List Nat
  live : List Nat
  returned : List Nat

inductive Op where
  | alloc
  | addPage (page : Nat)
  | freeSameCpu (obj : Nat)
  | write (obj : Nat) (value : Option Nat)

def exec (cfg : Config) (w : World) : Op → Option World
  | .alloc => do
    let (s,obj) ← alloc w.st
    some { w with st := s, live := obj::w.live }
  | .addPage page => some { w with st := addPage cfg w.st page, pages := page::w.pages }
  | .freeSameCpu obj =>
    let r := freeSameCpu w.st obj
    some { st := r.1, pages := w.pages.filter (fun p => r.2 ≠ some p), live := w.live.erase obj
           returned := r.2.toList ++ w.returned }
  | .write obj value => some { w with st := { w.st with next := update w.st.next obj value } }

/-- The page allocator hands out aligned pages it owns; an object is freed, and
written to, by whoever it was handed out to. -/
def Legal (w : World) : Op → Prop
  | .alloc => True
  | .addPage page => page % pageSize = 0 ∧ pageSize ≤ page ∧ page ∉ w.pages
  | .freeSameCpu obj => obj ∈ w.live
  | .write obj _ => obj ∈ w.live

def Started (w : World) : Prop :=
  w.st.free = [] ∧ w.pages = [] ∧ w.live = [] ∧ w.returned = []

def count (cfg : Config) : Nat := (pageSize - headerSize) / cfg.size
def object (cfg : Config) (page k : Nat) : Nat := page + pageSize - (k+1)*cfg.size
def objects (cfg : Config) (page : Nat) : List Nat := (List.range (count cfg)).map (object cfg page)
def liveOn (live : List Nat) (page : Nat) : List Nat := live.filter (fun obj => toHeader obj = page)

variable {cfg : Config} {k obj page p header : Nat} {live l : List Nat} {w : World} {s t : State}

lemma countMul : k < count cfg ↔ (k+1)*cfg.size + headerSize ≤ pageSize := by
  have pos : 0 < cfg.size := Nat.lt_of_lt_of_le (by decide) cfg.link
  have room := cfg.fits
  unfold count
  rw [Nat.lt_iff_add_one_le,Nat.le_div_iff_mul_le pos]
  omega

lemma objectBounds (page : Nat) (hk : k < count cfg) :
    page + headerSize ≤ object cfg page k ∧ object cfg page k + cfg.size ≤ page + pageSize := by
  have room := countMul.mp hk
  have grow : cfg.size ≤ (k+1)*cfg.size := Nat.le_mul_of_pos_left _ (Nat.succ_pos k)
  unfold object
  omega

lemma objectHeader (aligned : page % pageSize = 0) (mem : obj ∈ objects cfg page) : toHeader obj = page := by
  obtain ⟨k,inside,rfl⟩ := mem_map.mp mem
  have bounds := objectBounds page (mem_range.mp inside)
  have link := cfg.link
  unfold toHeader
  simp only [pageSize,headerSize] at *
  omega

lemma objectInj {i j : Nat} (hi : i < count cfg) (hj : j < count cfg)
    (same : object cfg page i = object cfg page j) : i = j := by
  have left := countMul.mp hi
  have right := countMul.mp hj
  have link := cfg.link
  unfold object at same
  have equal : (i+1)*cfg.size = (j+1)*cfg.size := by omega
  have := Nat.eq_of_mul_eq_mul_right (by omega) equal
  omega

lemma objectsNodup (cfg : Config) (page : Nat) : (objects cfg page).Nodup := by
  refine Nodup.map_on ?_ nodup_range
  intro i hi j hj same
  exact objectInj (mem_range.mp hi) (mem_range.mp hj) same

structure Carved (cfg : Config) (page : Nat) (s t : State) : Prop where
  free : t.free = s.free
  nalloc : t.nalloc = s.nalloc
  linked : Linked t.next (t.localFree page) (objects cfg page).reverse
  others : ∀ p, p ≠ page → t.localFree p = s.localFree p
  outside : ∀ a, a ∉ objects cfg page → t.next a = s.next a

lemma objectMem (hk : k < count cfg) : object cfg page k ∈ objects cfg page :=
  mem_map_of_mem (mem_range.mpr hk)

lemma carveLinked {cfg : Config} {page fuel k : Nat} {s : State}
    (linked : Linked s.next (s.localFree page) ((range k).map (object cfg page)).reverse)
    (le : k ≤ count cfg) (enough : count cfg < fuel + k) :
    Carved cfg page s (carve cfg.size page fuel (object cfg page k) s) := by
  induction fuel generalizing k s with
  | zero => omega
  | succ fuel ih => ?_
  unfold carve
  rcases Nat.lt_or_eq_of_le le with inside | last
  swap
  · subst k
    have stop : ¬ object cfg page (count cfg) ≥ page + headerSize := by
      have beyond := mt countMul.mpr (Nat.lt_irrefl (count cfg))
      have room := cfg.fits
      have header : headerSize = 40 := rfl
      unfold object
      omega
    rw [if_neg stop]
    exact ⟨rfl,rfl,linked,fun _ _ => rfl,fun _ _ => rfl⟩
  have bounds := objectBounds page inside
  rw [if_pos bounds.1]
  have step : object cfg page k - cfg.size = object cfg page (k+1) := by
    unfold object
    rw [Nat.succ_mul (k+1)]
    omega
  have fresh : object cfg page k ∉ ((range k).map (object cfg page)).reverse := by
    intro mem
    obtain ⟨j,before,same⟩ := mem_map.mp (mem_reverse.mp mem)
    have less := mem_range.mp before
    have equal := objectInj (Nat.lt_trans less inside) inside same
    omega
  have pushed := linked.push fresh
  rw [step]
  obtain ⟨free,nalloc,chain,others,outside⟩ := ih (k := k+1) (s := { s with
    next := update s.next (object cfg page k) (s.localFree page)
    localFree := update s.localFree page (some (object cfg page k)) })
    (by
      dsimp only
      rw [range_succ,map_append,reverse_append,update_self]
      exact pushed)
    inside (by omega)
  refine ⟨free,nalloc,chain,fun p ne => ?_,fun a off => ?_⟩
  · rw [others p ne]
    exact update_of_ne ne _ _
  have ne : a ≠ object cfg page k := by
    rintro rfl
    exact off (objectMem inside)
  rw [outside a off]
  exact update_of_ne ne _ _

lemma countLt (cfg : Config) : count cfg < pageSize := by
  unfold count
  exact Nat.lt_of_le_of_lt (Nat.div_le_self _ _) (by decide)

lemma addPageCarved (cfg : Config) (s : State) (page : Nat) :
    ∃ t, Carved cfg page { s with nalloc := update s.nalloc page 0
                                  localFree := update s.localFree page none } t ∧
      addPage cfg s page = { t with free := t.free ++ [page] } := by
  refine ⟨_,@carveLinked cfg page pageSize 0 _ ?_ (Nat.zero_le _) (countLt cfg),?_⟩
  · simp only [range_zero,map_nil,reverse_nil,update_self]
    exact .nil
  unfold addPage object
  simp

structure PageOk (cfg : Config) (s : State) (live : List Nat) (p : Nat) : Prop where
  linked : p ∈ s.free ↔ s.localFree p ≠ none
  chain : ∃ l, Linked s.next (s.localFree p) l ∧ (l ++ liveOn live p).Perm (objects cfg p)
  nalloc : s.nalloc p = (liveOn live p).length

structure Inv (cfg : Config) (w : World) : Prop where
  aligned : ∀ p ∈ w.pages, p % pageSize = 0
  freeNodup : w.st.free.Nodup
  freeSub : ∀ p ∈ w.st.free, p ∈ w.pages
  page : ∀ p ∈ w.pages, PageOk cfg w.st w.live p
  owned : ∀ obj ∈ w.live, toHeader obj ∈ w.pages

lemma liveOnSame (eq : toHeader obj = p) :
    liveOn (obj::live) p = obj::liveOn live p := filter_cons_of_pos (by simp [eq])

lemma liveOnOther (ne : toHeader obj ≠ p) :
    liveOn (obj::live) p = liveOn live p := filter_cons_of_neg (by simp [ne])

lemma liveOnErase (mem : obj ∈ live) (p : Nat) :
    (liveOn live p).Perm (liveOn (obj::live.erase obj) p) := (perm_cons_erase mem).filter _

lemma chainObject (aligned : p % pageSize = 0)
    (perm : (l ++ liveOn live p).Perm (objects cfg p)) (mem : obj ∈ l) : toHeader obj = p ∧ obj ∉ live := by
  have header := objectHeader aligned (perm.mem_iff.mp (mem_append_left _ mem))
  refine ⟨header,fun held => ?_⟩
  have nodup := perm.nodup_iff.mpr (objectsNodup cfg p)
  have on : obj ∈ liveOn live p := mem_filter.mpr ⟨held,by simp [header]⟩
  exact (nodup_append.mp nodup).2.2 _ mem _ on rfl

lemma PageOk.lengthLe {cfg s live} (ok : PageOk cfg s live p)
    (perm : (l ++ liveOn live p).Perm (objects cfg p)) : l.length + s.nalloc p = count cfg := by
  have length := perm.length_eq
  rw [length_append,objects,length_map,length_range] at length
  rw [ok.nalloc]
  exact length

lemma PageOk.frame {cfg s t live other} (ok : PageOk cfg s live p) (aligned : p % pageSize = 0)
    (free : p ∈ t.free ↔ p ∈ s.free) (head : t.localFree p = s.localFree p) (nalloc : t.nalloc p = s.nalloc p)
    (next : ∀ a, toHeader a = p → a ∉ live → t.next a = s.next a)
    (same : (liveOn live p).Perm (liveOn other p)) : PageOk cfg t other p := by
  obtain ⟨l,linked,perm⟩ := ok.chain
  refine ⟨by rw [free,head]; exact ok.linked,⟨l,?_,?_⟩,?_⟩
  · rw [head]
    refine linked.frame (fun a mem => ?_)
    obtain ⟨mine,dead⟩ := chainObject aligned perm mem
    exact next a mine dead
  · exact (same.symm.append_left l).trans perm
  rw [nalloc,ok.nalloc]
  exact same.length_eq

lemma startInv (first : Started w) : Inv cfg w := by
  obtain ⟨free,pages,live,_⟩ := first
  have none : ∀ p, p ∉ w.pages := by simp [pages]
  exact ⟨fun p page => absurd page (none p),by simp [free],by simp [free], fun p page => absurd page (none p),by simp [live]⟩

lemma allocCases (ok : alloc s = some (t,obj)) :
    ∃ header rest, s.free = header::rest ∧ s.localFree header = some obj ∧ t = { s with
      nalloc := update s.nalloc header ((s.nalloc header + 1) % 2^32)
      localFree := update s.localFree header (s.next obj)
      free := if (s.next obj).isNone then rest else header::rest } := by
  unfold alloc at ok
  split at ok
  · cases ok
  rename_i header rest free
  split at ok
  · cases ok
  rename_i first
  cases ok
  exact ⟨header,rest,free,first,rfl⟩

lemma memPopped {rest : List Nat} {next : Option Nat} (off : header ∉ rest) :
    p ∈ (if next.isNone then rest else header::rest) ↔ if p = header then next ≠ none else p ∈ header::rest := by
  rcases eq_or_ne p header with rfl | other
  · cases next with
    | none => simp [off]
    | some b => simp
  cases next with
  | none | some b => simp [other]

lemma Inv.alloc {cfg w} (h : Inv cfg w) (ok : alloc w.st = some (s,obj)) :
    Inv cfg { w with st := s, live := obj::w.live } ∧ obj ∉ w.live := by
  obtain ⟨header,rest,free,first,rfl⟩ := allocCases ok
  have there : header ∈ w.pages := h.freeSub header (free ▸ (.head _))
  have page := h.page header there
  obtain ⟨l,linked,perm⟩ := page.chain
  rw [first] at linked
  obtain ⟨tail,rfl,after⟩ := linked.headSome
  obtain ⟨mine,fresh⟩ := chainObject (h.aligned header there) perm (.head _)
  have few := page.lengthLe perm
  have many := countLt cfg
  have nodup := h.freeNodup
  rw [free] at nodup
  obtain ⟨off,restNodup⟩ := nodup_cons.mp nodup
  refine ⟨⟨h.aligned,?_,?_,?_,?_⟩,fresh⟩
  · dsimp only
    split
    · exact restNodup
    · exact nodup
  · intro p mem
    rw [memPopped off,← free] at mem
    split at mem
    next same => exact same ▸ there
    · exact h.freeSub p mem
  · intro p inside
    rcases eq_or_ne p header with rfl | other
    · refine ⟨?_,⟨tail,?_,?_⟩,?_⟩
      · dsimp only
        rw [memPopped off,if_pos rfl,update_self]
      · dsimp only
        rwa [update_self]
      · rw [liveOnSame mine]
        exact perm_middle.trans perm
      · dsimp only
        rw [liveOnSame mine,update_self,length_cons,← page.nalloc]
        rw [length_cons] at few
        exact Nat.mod_eq_of_lt (by unfold pageSize at many; omega)
    refine (h.page p inside).frame (h.aligned p inside) ?_ (update_of_ne other _ _)
      (update_of_ne other _ _) (fun _ _ _ => rfl) ?_
    · dsimp only
      rw [memPopped off,if_neg other,free]
    · rw [liveOnOther (fun eq => other (eq.symm.trans mine))]
  intro o mem
  rcases mem_cons.mp mem with rfl | old
  · exact mine ▸ there
  · exact h.owned o old

lemma Inv.allocSome {cfg w} (h : Inv cfg w) (nonempty : w.st.free ≠ []) : ∃ s obj, Pool.alloc w.st = some (s,obj) := by
  unfold Pool.alloc
  rcases free : w.st.free with _ | ⟨header,rest⟩
  · exact absurd free nonempty
  have mem : header ∈ w.st.free := free ▸ (.head _)
  have chained := (h.page header (h.freeSub header mem)).linked.mp mem
  dsimp only
  cases first : w.st.localFree header with
  | none => exact absurd first chained
  | some obj => exact ⟨_,_,rfl⟩

lemma Inv.liveObject {cfg w} (h : Inv cfg w) (mem : obj ∈ w.live) :
    toHeader obj ∈ w.pages ∧ obj ∈ objects cfg (toHeader obj) := by
  have there := h.owned obj mem
  obtain ⟨l,_,perm⟩ := (h.page _ there).chain
  have on : obj ∈ liveOn w.live (toHeader obj) := mem_filter.mpr ⟨mem,by simp⟩
  exact ⟨there,perm.mem_iff.mp (mem_append_right _ on)⟩

lemma addPageFree (cfg : Config) (s : State) (page : Nat) : (addPage cfg s page).free ≠ [] := by
  simp [addPage]

lemma Inv.addPage {cfg w} (h : Inv cfg w) (aligned : page % pageSize = 0) (fresh : page ∉ w.pages) :
    Inv cfg { w with st := addPage cfg w.st page, pages := page::w.pages } := by
  obtain ⟨t,carved,eq⟩ := addPageCarved cfg w.st page
  rw [eq]
  have off : page ∉ w.st.free := fun mem => fresh (h.freeSub page mem)
  have free := carved.free
  have unused : liveOn w.live page = [] := by
    refine filter_eq_nil_iff.mpr (fun o mem same => ?_)
    rw [decide_eq_true_eq] at same
    exact fresh (same ▸ h.owned o mem)
  refine ⟨?_,?_,?_,?_,?_⟩
  · intro p mem
    rcases mem_cons.mp mem with rfl | old
    · exact aligned
    · exact h.aligned p old
  · dsimp only
    rw [free]
    exact h.freeNodup.append (nodup_singleton page) (by simpa using off)
  · intro p mem
    dsimp only at mem
    rw [free] at mem
    rcases mem_append.mp mem with old | new
    · exact .tail _ (h.freeSub p old)
    · exact mem_singleton.mp new ▸ (.head _)
  · intro p mem
    rcases eq_or_ne p page with rfl | other
    · have chained : t.localFree p ≠ none := by
        intro empty
        have all := carved.linked
        rw [empty] at all
        have nil := reverse_eq_nil_iff.mp all.headNone
        have length := congrArg length nil
        rw [objects,length_map,length_range] at length
        have one : 0 < count cfg := countMul.mpr (by have := cfg.fits; omega)
        exact absurd length (by rw [length_nil]; omega)
      refine ⟨by simp [chained],⟨_,carved.linked,?_⟩,?_⟩
      · dsimp only
        rw [unused,append_nil]
        exact reverse_perm _
      dsimp only
      rw [carved.nalloc,unused]
      exact update_self _ _ _
    have old := (mem_cons.mp mem).resolve_left other
    refine (h.page p old).frame (h.aligned p old) ?_ ?_ ?_ ?_ (Perm.refl _)
    · rw [free]
      simp [other]
    · exact (carved.others p other).trans (update_of_ne other _ _)
    · rw [carved.nalloc]
      exact update_of_ne other _ _
    intro a mine _
    exact carved.outside a (fun inside => other (mine.symm.trans (objectHeader aligned inside)))
  · exact fun o mem => .tail _ (h.owned o mem)

lemma Inv.write {cfg w} (h : Inv cfg w) (live : obj ∈ w.live) (value : Option Nat) :
    Inv cfg { w with st := { w.st with next := update w.st.next obj value } } := by
  refine ⟨h.aligned,h.freeNodup,h.freeSub,fun p there => ?_,h.owned⟩
  refine (h.page p there).frame (h.aligned p there) Iff.rfl rfl rfl (fun a _ dead => ?_) (Perm.refl _)
  have ne : a ≠ obj := fun eq => dead (eq ▸ live)
  exact update_of_ne ne _ _

lemma Inv.release {cfg w} {obj : Nat} {t : State} (h : Inv cfg w) (live : obj ∈ w.live)
    (last : decrement (w.st.nalloc (toHeader obj)) = 0)
    (free : t.free = if (w.st.localFree (toHeader obj)).isSome then w.st.free.erase (toHeader obj) else w.st.free)
    (head : t.localFree = w.st.localFree) (next : t.next = w.st.next)
    (nalloc : ∀ p, p ≠ toHeader obj → t.nalloc p = w.st.nalloc p) :
    Inv cfg { st := t, pages := w.pages.filter (fun p => some (toHeader obj) ≠ some p), live := w.live.erase obj
              returned := toHeader obj::w.returned } ∧
      toHeader obj ∉ t.free ∧ ∀ o ∈ w.live.erase obj, toHeader o ≠ toHeader obj := by
  have there := h.owned obj live
  have page := h.page _ there
  have moved := liveOnErase live (toHeader obj)
  rw [liveOnSame rfl] at moved
  have alone : liveOn (w.live.erase obj) (toHeader obj) = [] := by
    have length := moved.length_eq
    rw [← page.nalloc,length_cons] at length
    unfold decrement at last
    split at last
    · omega
    exact eq_nil_of_length_eq_zero (by omega)
  have dead : ∀ o ∈ w.live.erase obj, toHeader o ≠ toHeader obj := by
    intro o mem same
    have on : o ∈ liveOn (w.live.erase obj) (toHeader obj) := mem_filter.mpr ⟨mem,by simp [same]⟩
    rw [alone] at on
    cases on
  have gone : toHeader obj ∉ t.free := by
    rw [free]
    cases chained : w.st.localFree (toHeader obj) with
    | some first => simpa using h.freeNodup.not_mem_erase
    | none => simpa [chained] using mt page.linked.mp
  have kept : ∀ p, p ≠ toHeader obj → (p ∈ t.free ↔ p ∈ w.st.free) := by
    intro p ne
    rw [free]
    split
    · exact mem_erase_of_ne ne
    · rfl
  have stay : ∀ p, p ∈ w.pages.filter (fun p => some (toHeader obj) ≠ some p) ↔ p ∈ w.pages ∧ p ≠ toHeader obj := by
    intro p
    rw [mem_filter,decide_eq_true_eq,ne_eq,some.injEq,ne_comm]
  refine ⟨⟨?_,?_,?_,?_,?_⟩,gone,dead⟩
  · exact fun p mem => h.aligned p ((stay p).mp mem).1
  · dsimp only
    rw [free]
    split
    · exact h.freeNodup.erase _
    · exact h.freeNodup
  · intro p mem
    have ne : p ≠ toHeader obj := fun eq => gone (eq ▸ mem)
    exact (stay p).mpr ⟨h.freeSub p ((kept p ne).mp mem),ne⟩
  · intro p mem
    obtain ⟨old,ne⟩ := (stay p).mp mem
    have same := liveOnErase live p
    rw [liveOnOther (fun eq => ne eq.symm)] at same
    exact (h.page p old).frame (h.aligned p old) (kept p ne) (by rw [head]) (nalloc p ne) (fun a _ _ => by rw [next]) same
  · exact fun o mem => (stay _).mpr ⟨h.owned o (mem_of_mem_erase mem),dead o mem⟩

lemma Inv.putBack {cfg w} (h : Inv cfg w) (live : obj ∈ w.live)
    (free : (w.st.localFree (toHeader obj) ≠ none ∧ t.free = w.st.free) ∨
      (w.st.localFree (toHeader obj) = none ∧ t.free.Perm (toHeader obj::w.st.free)))
    (head : t.localFree = update w.st.localFree (toHeader obj) (some obj))
    (next : t.next = update w.st.next obj (w.st.localFree (toHeader obj)))
    (nalloc : t.nalloc = update w.st.nalloc (toHeader obj) (decrement (w.st.nalloc (toHeader obj)))) :
    Inv cfg { w with st := t, live := w.live.erase obj } := by
  have there := h.owned obj live
  have page := h.page _ there
  obtain ⟨l,linked,perm⟩ := page.chain
  have moved := liveOnErase live (toHeader obj)
  rw [liveOnSame rfl] at moved
  have member : ∀ p, p ∈ t.free ↔ p = toHeader obj ∨ p ∈ w.st.free := by
    intro p
    rcases free with ⟨chained,same⟩ | ⟨_,pushed⟩
    · rw [same]
      exact ⟨.inr,fun either => either.elim (fun eq => eq ▸ page.linked.mpr chained) id⟩
    · rw [pushed.mem_iff,mem_cons]
  refine ⟨h.aligned,?_,?_,?_,?_⟩
  · rcases free with ⟨_,same⟩ | ⟨chained,pushed⟩
    · exact same ▸ h.freeNodup
    · have off : toHeader obj ∉ w.st.free := fun mem => page.linked.mp mem chained
      exact pushed.nodup_iff.mpr (nodup_cons.mpr ⟨off,h.freeNodup⟩)
  · intro p mem
    rcases (member p).mp mem with rfl | old
    · exact there
    · exact h.freeSub p old
  · intro p inside
    rcases eq_or_ne p (toHeader obj) with rfl | other
    · have off : obj ∉ l := fun mem => (chainObject (h.aligned _ there) perm mem).2 live
      refine ⟨?_,⟨obj::l,?_,?_⟩,?_⟩
      · dsimp only
        rw [member,head,update_self]
        simp
      · dsimp only
        rw [head,next,update_self]
        exact linked.push off
      · refine Perm.trans ?_ perm
        exact perm_middle.symm.trans (moved.symm.append_left l)
      have length := moved.length_eq
      rw [← page.nalloc,length_cons] at length
      dsimp only
      rw [nalloc,update_self,length]
      rfl
    have same := liveOnErase live p
    rw [liveOnOther (fun eq => other eq.symm)] at same
    refine (h.page p inside).frame (h.aligned p inside) ?_ ?_ ?_ ?_ same
    · dsimp only
      rw [member]
      simp [other]
    · dsimp only
      rw [head,update_of_ne other]
    · dsimp only
      rw [nalloc,update_of_ne other]
    intro a mine _
    have ne : a ≠ obj := fun eq => other (eq ▸ mine.symm)
    dsimp only
    rw [next,update_of_ne ne]
  · exact fun o mem => h.owned o (mem_of_mem_erase mem)

lemma relinkPerm (none : s.localFree header = none) : (relink s header).Perm (header::s.free) := by
  unfold relink
  rw [none,isNone_none,if_pos rfl]
  split
  · exact Perm.refl _
  · exact perm_append_comm

lemma relinkSame (chained : s.localFree header ≠ none) : relink s header = s.free := by
  unfold relink
  rw [if_neg]
  simpa using chained

lemma Inv.freeSameCpu {cfg w} (h : Inv cfg w) (live : obj ∈ w.live) {back : Option Nat}
    (ok : freeSameCpu w.st obj = (s,back)) :
    Inv cfg { st := s, pages := w.pages.filter (fun p => back ≠ some p), live := w.live.erase obj
              returned := back.toList ++ w.returned } ∧
      ∀ p, back = some p → p ∉ s.free ∧ ∀ o ∈ w.live.erase obj, toHeader o ≠ p := by
  unfold Pool.freeSameCpu at ok
  dsimp only at ok
  split at ok
  next full =>
    rw [update_self] at full
    cases ok
    obtain ⟨inv,gone,dead⟩ := h.release (t := { w.st with
        nalloc := update w.st.nalloc (toHeader obj) (decrement (w.st.nalloc (toHeader obj)))
        free := if (w.st.localFree (toHeader obj)).isSome then w.st.free.erase (toHeader obj) else w.st.free })
      live full.1 rfl rfl rfl (fun p ne => update_of_ne ne _ _)
    exact ⟨inv,fun p same => some.inj same ▸ ⟨gone,dead⟩⟩
  cases ok
  have all : w.pages.filter (fun p => (none : Option Nat) ≠ some p) = w.pages :=
    filter_eq_self.mpr (by simp)
  rw [all]
  refine ⟨h.putBack live ?_ rfl rfl rfl,nofun⟩
  rcases eq_or_ne (w.st.localFree (toHeader obj)) none with none | chained
  · exact .inr ⟨none,relinkPerm none⟩
  · exact .inl ⟨chained,relinkSame chained⟩

lemma stepInv {t : World} {op : Op} (h : Inv cfg w) (legal : Legal w op)
    (ok : exec cfg w op = some t) : Inv cfg t := by
  cases op
  case addPage page =>
    cases ok
    exact h.addPage legal.1 legal.2.2
  case freeSameCpu obj =>
    cases ok
    exact (h.freeSameCpu legal rfl).1
  case write obj value =>
    cases ok
    exact h.write legal value
  obtain ⟨⟨s,obj⟩,got,last⟩ := bind_eq_some_iff.mp ok
  cases last
  exact (h.alloc got).1

structure PoolOk (cfg : Config) (w : World) : Prop where
  page : ∀ p ∈ w.pages, ∃ l, Linked w.st.next (w.st.localFree p) l ∧
    l.Disjoint (liveOn w.live p) ∧ (l ++ liveOn w.live p).Perm (objects cfg p) ∧
    w.st.nalloc p = (liveOn w.live p).length ∧ (p ∈ w.st.free ↔ l ≠ [])
  free : w.st.free.Nodup ∧ ∀ p ∈ w.st.free, p ∈ w.pages
  live : w.live.Nodup ∧ ∀ obj ∈ w.live, toHeader obj ∈ w.pages

lemma Inv.liveNodup {cfg w} (h : Inv cfg w) : w.live.Nodup := by
  rw [nodup_iff_count_le_one]
  intro obj
  rcases Nat.eq_zero_or_pos (w.live.count obj) with none | some
  · omega
  have live := count_pos_iff.mp some
  obtain ⟨l,_,perm⟩ := (h.page _ (h.owned obj live)).chain
  have nodup := (nodup_append.mp (perm.nodup_iff.mpr (objectsNodup cfg _))).2.1
  have once := nodup_iff_count_le_one.mp nodup obj
  rwa [liveOn,count_filter (by simp)] at once

lemma Inv.poolOk {cfg w} (h : Inv cfg w) : PoolOk cfg w := by
  refine ⟨fun p there => ?_,⟨h.freeNodup,h.freeSub⟩,h.liveNodup,h.owned⟩
  have page := h.page p there
  obtain ⟨l,linked,perm⟩ := page.chain
  refine ⟨l,linked,fun obj mem on => ?_,perm,page.nalloc,?_⟩
  · exact (chainObject (h.aligned p there) perm mem).2 (mem_filter.mp on).1
  · rw [page.linked,ne_eq,linked.noneIff]

theorem poolRuns {cfg : Config} {w : World} (reach : Reach (exec cfg) Legal Started w) :
    PoolOk cfg w ∧
    (∀ t, exec cfg w .alloc = some t → ∃ obj, t.live = obj::w.live ∧ obj ∉ w.live) ∧
    ∀ op t p, Legal w op → exec cfg w op = some t → t.returned = p::w.returned →
      p ∉ t.st.free ∧ ∀ obj ∈ t.live, toHeader obj ≠ p := by
  have h := invariant (fun _ first => startInv first)
    (fun _ _ _ inv legal taken => stepInv inv legal taken) reach
  refine ⟨h.poolOk,fun t ok => ?_,fun op t p legal ok returned => ?_⟩
  · obtain ⟨⟨s,obj⟩,got,last⟩ := bind_eq_some_iff.mp ok
    cases last
    exact ⟨obj,rfl,(h.alloc got).2⟩
  have grown : ∀ s : World, s.returned = w.returned → t = s → False := by
    rintro s same rfl
    have length := congrArg length (returned.symm.trans same)
    simp at length
  cases op with
  | alloc =>
    obtain ⟨⟨s,obj⟩,got,last⟩ := bind_eq_some_iff.mp ok
    exact (grown _ (by rfl) (some.inj last).symm).elim
  | addPage page | write obj value => exact (grown _ (by rfl) (some.inj ok).symm).elim
  | freeSameCpu obj => ?_
  cases taken : freeSameCpu w.st obj with
  | mk s back => ?_
  have step := (h.freeSameCpu legal taken).2
  simp only [exec,taken] at ok
  cases ok
  cases back with
  | none => exact (grown _ (by rfl) rfl).elim
  | some q => exact step p (congrArg some (cons.inj returned).1)

def kilobyte : Config := ⟨1024,by decide,by decide⟩
def fresh : World := ⟨⟨[],fun _ => 0,fun _ => none,fun _ => none⟩,[],[],[]⟩
def stocked : World := Runs.after (exec kilobyte) fresh (.addPage 4096)

theorem poolRunsKilobyte : PoolOk kilobyte (after (exec kilobyte) stocked .alloc) ∧
    (after (exec kilobyte) stocked .alloc).live = [5120] := by
  have reach : Reach (exec kilobyte) Legal Started stocked :=
    .next (o := .addPage 4096) (.init ⟨rfl,rfl,rfl,rfl⟩) ⟨rfl,Nat.le_refl _,by simp [fresh]⟩ (afterTaken rfl)
  have lent : Reach (exec kilobyte) Legal Started (after (exec kilobyte) stocked .alloc) :=
    .next (o := .alloc) reach trivial (afterTaken rfl)
  exact ⟨(poolRuns lent).1,rfl⟩

end OsvKernel.Pool
