import OsvKernel.Dentry

/-! What holds of the dentry cache between two operations, as long as only leaves are moved. -/
namespace OsvKernel.Dentry
open List Option Runs Nat Words
open PathConv (pathMax)
open Function

structure Inv (s : State) (lists : Head → List Nat) (kids : Nat → List Nat) : Prop where
  fresh : ∀ d, s.cache.next ≤ d → s.cache.heap d = none ∧ s.removed d = false
  link : Lists.Agree s.cache.link lists
  family : Lists.Agree s.cache.kids kids
  listed : ∀ h d, d ∈ lists h ↔ ∃ e, s.cache.heap d = some e ∧ h = home s d e
  child : ∀ p d, d ∈ kids p ↔ ∃ e, s.cache.heap d = some e ∧ e.parent = some p
  parent : ∀ d e p, s.cache.heap d = some e → e.parent = some p → ∃ e', s.cache.heap p = some e'
  count : ∀ d e, s.cache.heap d = some e → e.refcnt = s.held d + (kids d).length ∧ 0 < e.refcnt ∧ e.refcnt < 2^31
  short : ∀ d e, s.cache.heap d = some e → e.path.length < pathMax
  free : ∀ d, s.cache.heap d = none → s.held d = 0
  once : ∀ d, s.cache.linked d = s.cache.unlinked d + if (s.cache.heap d).isSome then 1 else 0
  straight : s.cache.stray = false

variable {s : State} {lists : Head → List Nat} {kids : Nat → List Nat} {d p : Nat} {e : Entry}

open Cache

section
variable (inv : Inv s lists kids)
include inv

lemma Inv.live (own : 0 < s.held d) : ∃ e, s.cache.heap d = some e := by
  cases here : s.cache.heap d with
  | some e => exact ⟨e,rfl⟩
  | none => exact absurd (inv.free d here) (by omega)

lemma Inv.below (live : s.cache.heap d = some e) : d < s.cache.next :=
  Nat.lt_of_not_le fun le => nomatch live.symm.trans (inv.fresh d le).1

lemma Inv.orphan (dead : s.cache.heap d = none) : kids d = [] := by
  refine eq_nil_iff_forall_not_mem.mpr fun c mem => ?_
  obtain ⟨e,live,eq⟩ := (inv.child d c).mp mem
  obtain ⟨e',there⟩ := inv.parent c e d live eq
  cases dead.symm.trans there

lemma Inv.unlisted (dead : s.cache.heap d = none) (h : Head) : d ∉ lists h := by
  intro mem
  obtain ⟨e,live,_⟩ := (inv.listed h d).mp mem
  cases dead.symm.trans live

end

lemma Inv.recount (inv : Inv s lists kids) (live : s.cache.heap d = some e) (n : Nat) (pos : 0 < n + (kids d).length)
    (small : n + (kids d).length < 2^31) :
    Inv { s with
      cache := s.cache.write d { e with refcnt := n + (kids d).length }
      held := update s.held d n } lists kids := by
  obtain ⟨fresh,link,family,listed,child,parent,count,short,free,once,straight⟩ := inv
  have heap : ∀ x, (s.cache.write d { e with refcnt := n + (kids d).length }).heap x =
    if x = d then some { e with refcnt := n + (kids d).length } else s.cache.heap x := fun x => update_apply _ _ _ x
  refine ⟨?_,link,family,?_,?_,?_,?_,?_,?_,?_,straight⟩
  · intro x le
    have := fresh x le
    grind
  · intro h x
    rw [listed h x]
    simp only [heap,home]
    grind
  · intro q x
    rw [child q x]
    simp only [heap]
    grind
  · intro x e' q
    simp only [heap]
    grind
  · intro x e'
    simp only [heap,update_apply]
    grind
  · intro x e'
    simp only [heap]
    grind
  · intro x
    simp only [heap,update_apply]
    grind
  intro x
  have := once x
  simp only [heap]
  simp only [write]
  grind

lemma Inv.dref (inv : Inv s lists kids) (live : s.cache.heap d = some e) (room : e.refcnt + 1 < 2^31) :
    ∃ c, dref s.cache d = some c ∧ c = s.cache.write d { e with refcnt := e.refcnt + 1 } ∧
      Inv { s with cache := c, held := update s.held d (s.held d + 1) } lists kids := by
  obtain ⟨eq,pos,_⟩ := inv.count d e live
  have more : ((s.held d + 1 : Nat) : Int) + (kids d).length = e.refcnt + 1 := by omega
  have next := inv.recount live (s.held d + 1) (by omega) (by omega)
  rw [more] at next
  refine ⟨_,?_,rfl,next⟩
  rw [Dentry.dref,live,map_some,int32Small (by omega) room]

/-! A dentry below a parent, or below none. -/

def raise (held : Nat → Nat) (parent : Option Nat) (x : Nat) : Nat := held x + if parent = some x then 1 else 0
def lower (held : Nat → Nat) (parent : Option Nat) (x : Nat) : Nat := held x - if parent = some x then 1 else 0

def hang (kids : Nat → List Nat) (d : Nat) (parent : Option Nat) (p : Nat) : List Nat :=
  if parent = some p then d::kids p else kids p

def unhang (kids : Nat → List Nat) (d : Nat) (parent : Option Nat) (p : Nat) : List Nat :=
  if parent = some p then (kids p).erase d else kids p

def hangMem (m : Lists.Mem Nat Nat) (d : Nat) : Option Nat → Lists.Mem Nat Nat
  | none => m
  | some p => Lists.insertHead m p d

def unhangMem (m : Lists.Mem Nat Nat) (d : Nat) (parent : Option Nat) : Lists.Mem Nat Nat :=
  if parent.isSome then Lists.remove m d else m

variable {m : Lists.Mem Nat Nat} {parent : Option Nat} {c : Cache} {fuel : Nat} {path : List Char}

lemma hangAgree (agree : Lists.Agree m kids) (parent : Option Nat) (fresh : ∀ q, d ∉ kids q) :
    Lists.Agree (hangMem m d parent) (hang kids d parent) := by
  rcases parent with _ | p
  · exact agree
  have same : hang kids d (some p) = update kids p (d::kids p) := by
    funext q
    simp only [hang,update_apply,some.injEq]
    grind
  rw [same]
  exact agree.insert p fresh

lemma unhangAgree (agree : Lists.Agree m kids)
    (mem : ∀ p, parent = some p → d ∈ kids p) : Lists.Agree (unhangMem m d parent) (unhang kids d parent) := by
  rcases parent with _ | p
  · exact agree
  have same : unhang kids d (some p) = update kids p ((kids p).erase d) := by
    funext q
    simp only [unhang,update_apply,some.injEq]
    grind
  rw [same]
  exact agree.remove (mem p rfl)

lemma unhangMember {m : Lists.Mem Nat Nat} {parent : Option Nat} (agree : Lists.Agree m kids) (c q : Nat) :
    c ∈ unhang kids d parent q ↔ c ∈ kids q ∧ ¬ (c = d ∧ parent = some q) := by
  unfold unhang
  split
  next here => rw [(agree.nodup q).mem_erase_iff]; grind
  next => grind

lemma unhangLength (mem : ∀ p, parent = some p → d ∈ kids p) (q : Nat) :
    (unhang kids d parent q).length + (if parent = some q then 1 else 0) = (kids q).length := by
  unfold unhang
  split
  next here =>
    have pos := length_pos_of_mem (mem q here)
    rw [length_erase_of_mem (mem q here)]
    omega
  next => rfl

lemma relistMember {l : Lists.Mem Head Nat} (agree : Lists.Agree l lists) (h k : Head) (x : Nat) :
    x ∈ update lists h ((lists h).erase d) k ↔ x ∈ lists k ∧ ¬ (x = d ∧ k = h) := by
  by_cases here : k = h
  · subst k
    rw [update_self,(agree.nodup h).mem_erase_iff]
    grind
  rw [update_of_ne here]
  grind

lemma Inv.add (inv : Inv s lists kids) (vnode mount : Nat) (path : List Char) (parent : Option Nat)
    (short : path.length < pathMax) (own : ∀ p, parent = some p → 0 < s.held p) :
    Inv { s with
      cache := { s.cache with
        next := s.cache.next + 1
        heap := update s.cache.heap s.cache.next (some ⟨1,vnode,mount,path,parent⟩)
        kids := hangMem (Lists.init s.cache.kids s.cache.next) s.cache.next parent
        link := Lists.insertHead s.cache.link (.bucket (dentryHash mount path)) s.cache.next
        linked := update s.cache.linked s.cache.next (s.cache.linked s.cache.next + 1) }
      held := update (lower s.held parent) s.cache.next 1 }
    (update lists (.bucket (dentryHash mount path)) (s.cache.next::lists (.bucket (dentryHash mount path))))
    (hang kids s.cache.next parent) := by
  obtain ⟨dead,kept⟩ := inv.fresh s.cache.next (le_refl _)
  have childless := inv.orphan dead
  have off := inv.unlisted dead
  have alone : ∀ q, s.cache.next ∉ kids q := fun q mem => by
    obtain ⟨e,live,_⟩ := (inv.child q _).mp mem
    cases dead.symm.trans live
  have alive : ∀ p, parent = some p → ∃ e, s.cache.heap p = some e := fun p eq => inv.live (own p eq)
  have below : ∀ p, parent = some p → p ≠ s.cache.next := fun p eq same => by
    obtain ⟨e,live⟩ := alive p eq
    rw [same,dead] at live
    cases live
  have unheld := inv.free _ dead
  obtain ⟨fresh,link,family,listed,child,parents,count,short',free,once,straight⟩ := inv
  generalize s.cache.next = d at *
  refine ⟨?_,link.insert _ off,hangAgree (family.init childless) parent alone,?_,?_,?_,?_,?_,?_,?_,straight⟩
  · intro x le
    have le : d + 1 ≤ x := le
    have := fresh x (by omega)
    have ne : x ≠ d := by omega
    exact ⟨by simp only [update_of_ne ne]; exact this.1,this.2⟩
  · intro h x
    simp only [update_apply,home]
    by_cases new : x = d
    · subst x
      have := off h
      grind
    have := listed h x
    simp only [home] at this
    grind
  · intro q x
    have := child q x
    have := alone q
    simp only [hang,update_apply]
    grind
  · intro x e' q
    simp only [update_apply]
    grind
  · intro x e' live
    simp only [update_apply] at live
    simp only [hang,lower,update_apply]
    by_cases new : x = d
    · subst x
      rw [if_pos rfl] at live
      cases live
      have : parent ≠ some d := fun eq => below d eq rfl
      simp [this,childless]
    rw [if_neg new] at live
    have := count x e' live
    have := own x
    rw [if_neg new]
    split
    next here =>
      have := own x here
      rw [length_cons]
      omega
    next => simpa using count x e' live
  · intro x e'
    simp only [update_apply]
    grind
  · intro x
    simp only [lower,update_apply]
    grind
  intro x
  have := once x
  simp only [update_apply]
  grind

section
variable (inv : Inv s lists kids) (live : s.cache.heap d = some e)
include inv live

lemma Inv.listedHome : d ∈ lists (home s d e) := (inv.listed _ d).mpr ⟨e,live,rfl⟩

lemma Inv.childOf (p : Nat) (eq : e.parent = some p) : d ∈ kids p := (inv.child p d).mpr ⟨e,live,eq⟩

lemma Inv.parentAway (leaf : kids d = []) (p : Nat) (eq : e.parent = some p) : p ≠ d := by
  rintro rfl
  have mem := inv.childOf live p eq
  rw [leaf] at mem
  cases mem

lemma Inv.linkedMore : ¬ s.cache.linked d ≤ s.cache.unlinked d := by
  have := inv.once d
  rw [live,isSome_some,if_pos rfl] at this
  omega

lemma Inv.offEvery (h : Head) : d ∉ update lists (home s d e) ((lists (home s d e)).erase d) h := by
  intro mem
  obtain ⟨inside,other⟩ := (relistMember inv.link _ _ _).mp mem
  obtain ⟨e',there,eq⟩ := (inv.listed h d).mp inside
  cases live.symm.trans there
  exact other ⟨rfl,eq⟩

end

lemma Inv.bury (inv : Inv s lists kids) (live : s.cache.heap d = some e) (leaf : kids d = []) : Inv { s with
      cache := { s.cache with
        heap := update s.cache.heap d none
        kids := unhangMem s.cache.kids d e.parent
        link := Lists.remove s.cache.link d
        unlinked := update s.cache.unlinked d (s.cache.unlinked d + 1)
        stray := s.cache.stray || decide (s.cache.linked d ≤ s.cache.unlinked d) }
      held := update (raise s.held e.parent) d 0 }
    (update lists (home s d e) ((lists (home s d e)).erase d)) (unhang kids d e.parent) := by
  have mine := inv.listedHome live
  have childof := inv.childOf live
  have away := inv.parentAway live leaf
  have linked := inv.linkedMore live
  obtain ⟨fresh,link,family,listed,child,parents,count,short,free,once,straight⟩ := inv
  refine ⟨?_,link.remove mine,unhangAgree family childof,?_,?_,?_,?_,?_,?_,?_,?_⟩
  · intro x le
    have := fresh x le
    simp only [update_apply]
    grind
  · intro h x
    rw [relistMember link]
    have := listed h x
    simp only [home,update_apply] at this ⊢
    grind
  · intro q x
    rw [unhangMember family]
    have := child q x
    have := leaf
    simp only [update_apply]
    grind
  · intro x e' q
    have : q = d → x ∉ kids q := fun eq mem => by rw [eq,leaf] at mem; cases mem
    have := child q x
    simp only [update_apply]
    grind
  · intro x e' there
    simp only [update_apply] at there
    have other : x ≠ d := by grind
    rw [if_neg other] at there
    have len := unhangLength childof x
    have := count x e' there
    simp only [raise,update_of_ne other]
    grind
  · intro x e'
    simp only [update_apply]
    grind
  · intro x
    have := away x
    have := parents d e x live
    simp only [raise,update_apply]
    grind
  · intro x
    have := once x
    simp only [update_apply]
    grind
  · simp [straight,linked,decide_false]

def liveSet (s : Cache) : Finset Nat := (Finset.range s.next).filter fun d => (s.heap d).isSome

lemma liveSetFree (live : c.heap d = some e) (below : d < c.next) :
    liveSet { c with heap := update c.heap d none } ⊂ liveSet c := by
  refine Finset.ssubset_iff_of_subset ?_ |>.mpr ⟨d,?_,?_⟩
  · intro x
    simp only [liveSet,Finset.mem_filter,Finset.mem_range,update_apply]
    grind
  · simp only [liveSet,Finset.mem_filter,Finset.mem_range,live,below]
    exact ⟨trivial,rfl⟩
  simp only [liveSet,Finset.mem_filter,update_self]
  simp

lemma Inv.drele (inv : Inv s lists kids) (own : 0 < s.held d) (enough : (liveSet s.cache).card ≤ fuel) :
    ∃ c lists' kids', drele fuel s.cache d = some c ∧ c.next = s.cache.next ∧
      Inv { s with cache := c, held := update s.held d (s.held d - 1) } lists' kids' := by
  induction fuel generalizing s lists kids d with
  | zero =>
    obtain ⟨e,live⟩ := inv.live own
    have mem : d ∈ liveSet s.cache := by
      simp only [liveSet,Finset.mem_filter,Finset.mem_range]
      exact ⟨inv.below live,by rw [live]; rfl⟩
    exact absurd enough (by have := Finset.card_pos.mpr ⟨d,mem⟩; omega)
  | succ fuel ih => ?_
  obtain ⟨e,live⟩ := inv.live own
  obtain ⟨eq,pos,small⟩ := inv.count d e live
  have left : int32 (e.refcnt - 1) = e.refcnt - 1 := int32Small (by omega) (by omega)
  simp only [Dentry.drele,live,left]
  by_cases more : e.refcnt - 1 ≠ 0
  · have next := inv.recount live (s.held d - 1) (by omega) (by omega)
    have same : ((s.held d - 1 : Nat) : Int) + (kids d).length = e.refcnt - 1 := by omega
    rw [same] at next
    rw [if_pos more]
    exact ⟨_,lists,kids,rfl,rfl,next⟩
  have last : s.held d = 1 := by omega
  have leaf : kids d = [] := length_eq_zero_iff.mp (by omega)
  have next := inv.bury live leaf
  have heap : update (update s.cache.heap d (some { e with refcnt := e.refcnt - 1 })) d none =
    update s.cache.heap d none := update_idem _ _ _
  rw [if_neg more,last]
  simp only [Cache.write,Cache.unlink,Cache.free,heap]
  generalize up : e.parent = x at next ⊢
  rcases x with _ | p
  · exact ⟨_,_,_,rfl,rfl,next⟩
  have away : p ≠ d := by
    rintro rfl
    have mem := (inv.child p p).mpr ⟨e,live,up⟩
    rw [leaf] at mem
    cases mem
  have fewer := le_of_lt_succ (lt_of_lt_of_le (Finset.card_lt_card (liveSetFree live (inv.below live))) enough)
  have owns : 0 < update (raise s.held (some p)) d 0 p := by
    rw [update_of_ne away,raise,if_pos rfl]
    omega
  obtain ⟨c,lists',kids',done,same,last'⟩ := ih next owns fewer
  refine ⟨c,lists',kids',done,same,?_⟩
  have held : update (update (raise s.held (some p)) d 0) p
    (update (raise s.held (some p)) d 0 p - 1) = update s.held d (1 - 1) := by
    funext x
    simp only [raise,update_apply,some.injEq]
    grind
  rw [← held]
  exact last'

lemma Inv.rehang (inv : Inv s lists kids) (live : s.cache.heap d = some e) (leaf : kids d = [])
    (kept : s.removed d = false) (short : path.length < pathMax)
    (own : ∀ p, parent = some p → 0 < s.held p) :
    Inv { s with
      cache := { s.cache with
        heap := update s.cache.heap d (some { e with path := path, parent := parent })
        kids := hangMem (unhangMem s.cache.kids d e.parent) d parent
        link := Lists.insertHead (Lists.remove s.cache.link d) (.bucket (dentryHash e.mount path)) d
        linked := update s.cache.linked d (s.cache.linked d + 1)
        unlinked := update s.cache.unlinked d (s.cache.unlinked d + 1)
        stray := s.cache.stray || decide (s.cache.linked d ≤ s.cache.unlinked d) }
      held := raise (lower s.held parent) e.parent }
    (update (update lists (home s d e) ((lists (home s d e)).erase d)) (.bucket (dentryHash e.mount path))
      (d::update lists (home s d e) ((lists (home s d e)).erase d) (.bucket (dentryHash e.mount path))))
    (hang (unhang kids d e.parent) d parent) := by
  have mine := inv.listedHome live
  have childof := inv.childOf live
  have away := inv.parentAway live leaf
  have linked := inv.linkedMore live
  have alive : ∀ p, parent = some p → ∃ e, s.cache.heap p = some e := fun p eq => inv.live (own p eq)
  have off := inv.offEvery live
  obtain ⟨fresh,link,family,listed,child,parents,count,short',free,once,straight⟩ := inv
  have gone : ∀ q, d ∉ unhang kids d e.parent q := fun q mem => by
    obtain ⟨inside,other⟩ := (unhangMember family d q).mp mem
    obtain ⟨e',there,eq⟩ := (child q d).mp inside
    cases live.symm.trans there
    exact other ⟨rfl,eq⟩
  refine ⟨?_,(link.remove mine).insert _ off,hangAgree (unhangAgree family childof) parent gone,?_,?_,?_,?_,?_,?_,?_,?_⟩
  · intro x le
    have := fresh x le
    simp only [update_apply]
    grind
  · intro h x
    have member := relistMember (d := d) link (home s d e) h x
    have := listed h x
    rw [update_apply]
    simp only [home,update_apply] at this member ⊢
    grind
  · intro q x
    have := @unhangMember kids d _ e.parent family x q
    have := child q x
    simp only [hang,update_apply]
    grind
  · intro x e' q
    have : q = d → x ∉ kids q := fun eq mem => by rw [eq,leaf] at mem; cases mem
    have := child q x
    simp only [update_apply]
    grind
  · intro x e' there
    simp only [update_apply] at there
    have len := unhangLength childof x
    obtain ⟨before,here,same⟩ : ∃ e0, s.cache.heap x = some e0 ∧ e0.refcnt = e'.refcnt := by grind
    obtain ⟨eq,pos,small⟩ := count x before here
    refine ⟨?_,same ▸ pos,same ▸ small⟩
    rw [← same,eq]
    simp only [raise,lower,hang]
    by_cases new : parent = some x
    · have := own x new
      rw [if_pos new,if_pos new,length_cons]
      omega
    rw [if_neg new,if_neg new]
    omega
  · intro x e'
    simp only [update_apply]
    grind
  · intro x
    have := away x
    have := parents d e x live
    simp only [raise,lower,update_apply]
    grind
  · intro x
    have := once x
    simp only [update_apply]
    grind
  · simp [straight,linked,decide_false]

/-! The operations. -/

def Roomy (s : Cache) : Prop := ∀ d < s.next, ∀ e ∈ s.heap d, e.refcnt + 1 < 2^31

def Leaf (s : State) (d : Nat) (parent : Option Nat) : Prop :=
  (∀ c < s.cache.next, isChild s.cache d c = false) ∧ parent ≠ some d ∧ s.removed d = false

def MovesLeaf (s : State) : Op → Prop
  | .move d parent _ => Leaf s d parent
  | _ => True

def Careful (s : State) (op : Op) : Prop := Legal s op ∧ Roomy s.cache ∧ MovesLeaf s op
def Good (s : State) : Prop := ∃ lists kids, Inv s lists kids

lemma Inv.roomy (inv : Inv s lists kids) (roomy : Roomy s.cache) (live : s.cache.heap d = some e) :
    e.refcnt + 1 < 2^31 := roomy d (inv.below live) e live

def Room (s : Cache) (parent : Option Nat) : Prop := ∀ p ∈ parent, ∀ e ∈ s.heap p, e.refcnt + 1 < 2^31

lemma Inv.adopted (inv : Inv s lists kids) (room : Room s.cache parent) (own : ∀ p, parent = some p → 0 < s.held p) :
    ∃ heap, (∀ p e, parent = some p → s.cache.heap p = some e →
        heap = update s.cache.heap p (some { e with refcnt := e.refcnt + 1 })) ∧
      (parent = none → heap = s.cache.heap) ∧
      Inv { s with cache := { s.cache with heap := heap }, held := raise s.held parent } lists kids := by
  rcases parent with _ | p
  · exact ⟨s.cache.heap,nofun,fun _ => rfl,inv⟩
  obtain ⟨e,live⟩ := inv.live (own p rfl)
  obtain ⟨c,done,rfl,next⟩ := inv.dref live (room p rfl e live)
  refine ⟨update s.cache.heap p (some { e with refcnt := e.refcnt + 1 }),?_,nofun,?_⟩
  · rintro q e' eq there
    cases eq
    cases live.symm.trans there
    rfl
  have held : raise s.held (some p) = update s.held p (s.held p + 1) := by
    funext x
    simp only [raise,update_apply,some.injEq]
    grind
  rw [held]
  exact next

lemma raisePos {held : Nat → Nat} (eq : parent = some p) : 0 < raise held parent p := by
  rw [raise,if_pos eq]
  omega

lemma raiseLower : lower (raise s.held parent) parent = s.held := by
  funext x
  simp only [raise,lower]
  omega

def Keeps (heap heap' : Nat → Option Entry) : Prop :=
  ∀ x e', heap' x = some e' → ∃ e, heap x = some e ∧ e' = { e with refcnt := e'.refcnt }

lemma Inv.alloc (inv : Inv s lists kids) (roomy : Roomy s.cache)
    (own : HeldParent s parent) (short : path.length < pathMax) (vnode mount : Nat) :
    ∃ c lists', dentryAlloc s.cache true parent vnode mount path = some (c,some s.cache.next) ∧
      c.heap s.cache.next = some ⟨1,vnode,mount,path,parent⟩ ∧
      (∀ x e', x ≠ s.cache.next → c.heap x = some e' → ∃ e, s.cache.heap x = some e ∧ e' = { e with refcnt := e'.refcnt }) ∧
      Inv (s.gain c (some s.cache.next)) lists' (hang kids s.cache.next parent) := by
  have own : ∀ p, parent = some p → 0 < s.held p := fun p eq => own p eq
  obtain ⟨dead,_⟩ := inv.fresh s.cache.next (le_refl _)
  have unheld := inv.free _ dead
  obtain ⟨heap,some',none',up⟩ := inv.adopted (fun _ _ _ live => inv.roomy roomy live) own
  have next := up.add vnode mount path parent short fun _ eq => raisePos eq
  rw [raiseLower] at next
  have held : update s.held s.cache.next (s.held s.cache.next + 1) = update s.held s.cache.next 1 := by rw [unheld]
  simp only [State.gain,held]
  rcases parent with _ | p
  · cases none' rfl
    refine ⟨_,_,rfl,update_self _ _ _,fun x e' ne live => ?_,next⟩
    exact ⟨e',(update_of_ne ne _ _).symm.trans live,rfl⟩
  obtain ⟨e,live⟩ := inv.live (own p rfl)
  have ne : p ≠ s.cache.next := fun eq => nomatch (eq ▸ live).symm.trans dead
  have comm := some' p e rfl live
  refine ⟨_,_,?_,update_self _ _ _,fun x e' other there => ?_,next⟩
  · simp only [dentryAlloc,if_true,adopt,Dentry.dref,write,update_of_ne ne,live,map_some,
      insertHead,comm,hangMem,int32Small (Int.le_of_lt (by have := inv.count p e live; omega)) (inv.roomy roomy live),
      update_comm ne]
  have there : heap x = some e' := (update_of_ne other _ _).symm.trans there
  rw [comm,update_apply] at there
  grind

lemma Inv.unlinks (inv : Inv s lists kids) (live : s.cache.heap d = some e) (kept : s.removed d = false) :
    Good { s with cache := dentryRemove s.cache d, removed := update s.removed d true } := by
  have mine := inv.listedHome live
  have linked := inv.linkedMore live
  have below := inv.below live
  have off := inv.offEvery live
  obtain ⟨fresh,link,family,listed,child,parents,count,short,free,once,straight⟩ := inv
  refine ⟨_,kids,?_,(link.remove mine).insert _ off,family,?_,child,parents,count,short,free,?_,?_⟩
  · intro x le
    have ne := ne_of_gt (lt_of_lt_of_le below le)
    exact ⟨(fresh x le).1,(update_of_ne ne true s.removed).trans (fresh x le).2⟩
  · intro h x
    have member := relistMember (d := d) link (home s d e) h x
    have := listed h x
    rw [update_apply]
    simp only [home,update_apply,dentryRemove,unlink,insertHead] at this member ⊢
    grind
  · intro x
    have := once x
    simp only [dentryRemove,unlink,insertHead,update_apply]
    grind
  · simp [dentryRemove,unlink,insertHead,straight,linked,decide_false]

lemma Inv.release (inv : Inv s lists kids) (own : 0 < s.held d) :
    ∃ c, release s.cache d = some c ∧ Good { s with cache := c, held := update s.held d (s.held d - 1) } := by
  have few : (liveSet s.cache).card ≤ s.cache.next + 1 := by
    have := Finset.card_filter_le (Finset.range s.cache.next) fun d => (s.cache.heap d).isSome
    rw [Finset.card_range] at this
    exact le_succ_of_le this
  obtain ⟨c,lists',kids',done,_,next⟩ := inv.drele own few
  exact ⟨c,done,lists',kids',next⟩

lemma dreleKeeps {c' : Cache} (done : Dentry.drele fuel c d = some c') : Keeps c.heap c'.heap := by
  induction fuel generalizing c d with
  | zero => cases done
  | succ fuel ih => ?_
  simp only [Dentry.drele] at done
  split at done
  · cases done
  rename_i e live
  split at done
  · cases done
    intro x e' there
    simp only [write,update_apply] at there
    grind
  have freed : ∀ x e', update (update c.heap d (some { e with refcnt := int32 (e.refcnt - 1) })) d
    none x = some e' → c.heap x = some e' := fun x e' there => by
    rw [update_idem,update_apply] at there
    grind
  split at done
  · cases done
    exact fun x e' there => ⟨e',freed x e' there,rfl⟩
  intro x e' there
  obtain ⟨e'',here,eq⟩ := ih done x e' there
  exact ⟨e'',freed x e'' here,eq⟩

lemma Inv.releaseShared (inv : Inv s lists kids) (live : s.cache.heap d = some e) (own : 0 < s.held d)
    (shared : 1 < s.held d + (kids d).length) :
    Dentry.release s.cache d = some (s.cache.write d { e with refcnt := e.refcnt - 1 }) ∧
      Inv { s with
        cache := s.cache.write d { e with refcnt := e.refcnt - 1 }
        held := update s.held d (s.held d - 1) } lists kids := by
  obtain ⟨eq,pos,small⟩ := inv.count d e live
  have left : int32 (e.refcnt - 1) = e.refcnt - 1 := int32Small (by omega) (by omega)
  have next := inv.recount live (s.held d - 1) (by omega) (by omega)
  have same : ((s.held d - 1 : Nat) : Int) + (kids d).length = e.refcnt - 1 := by omega
  rw [same] at next
  refine ⟨?_,next⟩
  rw [Dentry.release,Dentry.drele]
  simp only [live,left]
  rw [if_pos (by omega)]

lemma Inv.leaf (inv : Inv s lists kids) (none : ∀ c < s.cache.next, isChild s.cache d c = false) : kids d = [] := by
  refine eq_nil_iff_forall_not_mem.mpr fun c mem => ?_
  obtain ⟨e,live,eq⟩ := (inv.child d c).mp mem
  have := none c (inv.below live)
  simp only [isChild,live,eq,decide_true] at this
  cases this

lemma Inv.moves (inv : Inv s lists kids) (room : Room s.cache parent)
    (own : 0 < s.held d) (holds : HeldParent s parent) (short : path.length < pathMax) (leaf : Leaf s d parent) :
    ∃ c, dentryMove s.cache d parent path = some c ∧ Good { s with cache := c } := by
  have holds : ∀ p, parent = some p → 0 < s.held p := fun p eq => holds p eq
  obtain ⟨alone,apart,kept⟩ := leaf
  have childless := inv.leaf alone
  obtain ⟨e,live⟩ := inv.live own
  obtain ⟨heap,some',none',up⟩ := inv.adopted room holds
  have same : heap d = some e := by
    rcases parent with _ | p
    · rw [none' rfl,live]
    obtain ⟨e',there⟩ := inv.live (holds p rfl)
    rw [some' p e' rfl there,update_of_ne (fun eq => apart (congrArg some eq.symm)),live]
  have next := up.rehang same childless kept short fun _ eq => raisePos eq
  rw [raiseLower] at next
  have empty : hang (unhang kids d e.parent) d parent d = [] := by
    rw [hang,if_neg apart,unhang,childless]
    split <;> rfl
  have walked : ∀ n, Lists.walk (hangMem (unhangMem s.cache.kids d e.parent) d parent) n (.first d) = [] := by
    intro n
    have chain := next.family.chain d
    rw [empty] at chain
    exact chain.walks (zero_le n)
  have adopted : adopt { s.cache with kids := unhangMem s.cache.kids d e.parent } d parent =
    some { s.cache with heap := heap, kids := hangMem (unhangMem s.cache.kids d e.parent) d parent } := by
    rcases parent with _ | p
    · rw [none' rfl]; rfl
    obtain ⟨e',there⟩ := inv.live (holds p rfl)
    have pos := inv.count p e' there
    simp only [adopt,Dentry.dref,there,map_some,some' p e' rfl there,write,hangMem,
      int32Small (Int.le_of_lt (show 0 < e'.refcnt + 1 by omega)) (room p rfl e' there)]
  have first : (if e.parent.isSome then { s.cache with kids := Lists.remove s.cache.kids d } else s.cache) =
    { s.cache with kids := unhangMem s.cache.kids d e.parent } := by
    unfold unhangMem
    split <;> rfl
  simp only [dentryMove,live,bind,bind_some,first,adopted,dentryChildrenRemove,walked,foldl_nil,unlink,
    same,write,insertHead]
  generalize old : e.parent = x at next ⊢
  rcases x with _ | p
  · exact ⟨_,rfl,_,_,next⟩
  obtain ⟨c,done,good⟩ := next.release (raisePos rfl)
  refine ⟨c,done,?_⟩
  have held : update (raise s.held (some p)) p (raise s.held (some p) p - 1) = s.held := by
    funext x
    simp only [raise,update_apply,some.injEq]
    grind
  rw [held] at good
  exact good

lemma goodStep {op : Op} (good : Good s) (careful : Careful s op) : ∃ t, step s op = some t ∧ Good t := by
  obtain ⟨lists,kids,inv⟩ := good
  obtain ⟨legal,roomy,leaf⟩ := careful
  cases op with
  | alloc memory parent vnode mount path =>
    rcases memory with _ | _
    · exact ⟨s,rfl,lists,kids,inv⟩
    obtain ⟨c,lists',done,_,_,next⟩ := inv.alloc roomy legal.1 legal.2 vnode mount
    exact ⟨_,by rw [step,done]; rfl,_,_,next⟩
  | lookup mount path => ?_
  | dref d =>
    obtain ⟨e,live⟩ := inv.live legal
    obtain ⟨c,done,_,next⟩ := inv.dref live (inv.roomy roomy live)
    exact ⟨_,by rw [step,done]; rfl,lists,kids,next⟩
  | drele d =>
    obtain ⟨c,done,next⟩ := inv.release legal
    exact ⟨_,by rw [step,done]; rfl,next⟩
  | remove d =>
    obtain ⟨e,live⟩ := inv.live legal.1
    exact ⟨_,rfl,inv.unlinks live legal.2⟩
  | move d parent path =>
    obtain ⟨c,done,next⟩ := inv.moves (fun _ _ _ live => inv.roomy roomy live) legal.1 legal.2.1 legal.2.2 leaf
    exact ⟨_,by rw [step,done]; rfl,next⟩
  simp only [step,dentryLookup]
  split
  · exact ⟨s,rfl,lists,kids,inv⟩
  rename_i d found
  have named := List.find?_some found
  rcases live : s.cache.heap d with _ | e
  · simp only [sameName,live] at named; cases named
  obtain ⟨c,done,_,next⟩ := inv.dref live (inv.roomy roomy live)
  exact ⟨_,by rw [done]; rfl,lists,kids,next⟩

/-! What the invariant says in the words of the cache's users. -/

section
variable (inv : Inv s lists kids)
include inv

lemma Inv.childCount (p : Nat) : children s.cache p = (kids p).length := by
  rw [children,countP_eq_length_filter]
  refine ((perm_ext_iff_of_nodup (nodup_range.filter _) (inv.family.nodup p)).mpr fun c => ?_).length_eq
  rw [inv.child p c,mem_filter,mem_range]
  simp only [isChild]
  constructor
  · rintro ⟨_,is⟩
    split at is
    · cases is
    next e live => exact ⟨e,live,of_decide_eq_true is⟩
  rintro ⟨e,live,eq⟩
  exact ⟨inv.below live,by rw [live]; exact decide_eq_true eq⟩

lemma Inv.walked (h : Head) : Lists.walk s.cache.link s.cache.next (.first h) = lists h := by
  refine (inv.link.chain h).walks ?_
  rw [← toFinset_card_of_nodup (inv.link.nodup h),← Finset.card_range s.cache.next]
  refine Finset.card_le_card fun d mem => ?_
  obtain ⟨e,live,_⟩ := (inv.listed h d).mp (mem_toFinset.mp mem)
  exact Finset.mem_range.mpr (inv.below live)

lemma Inv.findEq (mp : Nat) (path : List Char) :
    dentryFind s.cache mp path = (lists (.bucket (dentryHash mp path))).find? (sameName s.cache mp path) := by
  rw [dentryFind,inv.walked]

lemma Inv.named {mp : Nat} (short : path.length < pathMax) :
    Named s mp path d ↔ d ∈ lists (.bucket (dentryHash mp path)) ∧ sameName s.cache mp path d = true := by
  constructor
  · rintro ⟨kept,e,live,rfl,rfl⟩
    refine ⟨(inv.listed _ d).mpr ⟨e,live,?_⟩,?_⟩
    · rw [home,kept,if_neg Bool.false_ne_true]
    rw [sameName,live]
    exact decide_eq_true ⟨rfl,rfl⟩
  rintro ⟨mem,same⟩
  obtain ⟨e,live,eq⟩ := (inv.listed _ d).mp mem
  rw [sameName,live] at same
  obtain ⟨mount,take⟩ := of_decide_eq_true same
  rw [take_of_length_le (le_of_lt (inv.short d e live)),take_of_length_le (le_of_lt short)] at take
  refine ⟨?_,e,live,mount,take⟩
  rw [home] at eq
  cases kept : s.removed d with
  | false => rfl
  | true => rw [kept] at eq; cases eq

lemma Inv.holds : Holds s := by
  refine ⟨?_,inv.once,inv.straight,?_,?_,?_⟩
  · intro d e h live
    constructor
    · rintro ⟨l,chain,mem⟩
      rw [(inv.link.chain h).unique chain] at mem
      obtain ⟨e',there,eq⟩ := (inv.listed h d).mp mem
      cases live.symm.trans there
      exact eq
    rintro rfl
    exact ⟨_,inv.link.chain _,(inv.listed _ d).mpr ⟨e,live,rfl⟩⟩
  · intro d e live
    rw [inv.childCount,(inv.count d e live).1]
  · intro mp path d short found
    rw [inv.findEq] at found
    exact (inv.named short).mpr ⟨mem_of_find?_eq_some found,List.find?_some found⟩
  intro mp path d short named
  rw [inv.findEq]
  refine isSome_iff_exists.mp (List.find?_isSome.mpr ⟨d,?_⟩)
  exact (inv.named short).mp named

end

def Start (s : State) : Prop :=
  (∀ d, s.cache.heap d = none ∧ s.held d = 0 ∧ s.removed d = false ∧ s.cache.linked d = 0 ∧ s.cache.unlinked d = 0) ∧
  (∀ h, s.cache.link.next (.first h) = none) ∧ (∀ p, s.cache.kids.next (.first p) = none) ∧ s.cache.stray = false

lemma goodStart (start : Start s) : Good s := by
  obtain ⟨empty,link,kids,straight⟩ := start
  refine ⟨fun _ => [],fun _ => [],?_⟩
  refine ⟨fun d _ => ⟨(empty d).1,(empty d).2.2.1⟩,⟨fun h => .nil (link h),fun _ => nodup_nil,nofun⟩,
    ⟨fun h => .nil (kids h),fun _ => nodup_nil,nofun⟩,?_,?_,?_,?_,?_,fun d _ => (empty d).2.1,?_,straight⟩
  · intro h d
    simp [empty d]
  · intro p d
    simp [empty d]
  · intro d e p live
    cases (empty d).1.symm.trans live
  · intro d e live
    cases (empty d).1.symm.trans live
  · intro d e live
    cases (empty d).1.symm.trans live
  intro d
  simp [empty d]

lemma goodReach (reach : Reach step Careful Start s) : Good s := by
  refine invariant (P := Good) (fun _ => goodStart) (fun s op t good careful taken => ?_) reach
  obtain ⟨u,there,next⟩ := goodStep good careful
  cases taken.symm.trans there
  exact next

theorem cacheHolds (reach : Reach step Careful Start s) : Holds s ∧ ∀ op, Careful s op → ∃ t, step s op = some t := by
  have good := goodReach reach
  refine ⟨?_,fun op careful => ?_⟩
  · obtain ⟨lists,kids,inv⟩ := good
    exact inv.holds
  obtain ⟨t,taken,_⟩ := goodStep good careful
  exact ⟨t,taken⟩

instance (s : State) (parent : Option Nat) : Decidable (HeldParent s parent) := by
  unfold HeldParent
  infer_instance

instance (s : State) : ∀ op, Decidable (Legal s op)
  | .alloc _ parent _ _ path => inferInstanceAs (Decidable (HeldParent s parent ∧ path.length < pathMax))
  | .lookup _ path => inferInstanceAs (Decidable (path.length < pathMax))
  | .dref d => inferInstanceAs (Decidable (0 < s.held d))
  | .drele d => inferInstanceAs (Decidable (0 < s.held d))
  | .remove d => inferInstanceAs (Decidable (0 < s.held d ∧ s.removed d = false))
  | .move d parent path => inferInstanceAs (Decidable (0 < s.held d ∧ HeldParent s parent ∧ path.length < pathMax))

instance (s : Cache) : Decidable (Roomy s) := by
  unfold Roomy
  infer_instance

instance (s : State) (d : Nat) (parent : Option Nat) : Decidable (Leaf s d parent) := by
  unfold Leaf
  infer_instance

instance (s : State) : ∀ op, Decidable (MovesLeaf s op)
  | .move d parent _ => inferInstanceAs (Decidable (Leaf s d parent))
  | .alloc _ _ _ _ _ => .isTrue trivial
  | .lookup _ _ => .isTrue trivial
  | .dref _ => .isTrue trivial
  | .drele _ => .isTrue trivial
  | .remove _ => .isTrue trivial

instance (s : State) (op : Op) : Decidable (Careful s op) := by
  unfold Careful
  infer_instance

def emptyCache : State :=
  ⟨⟨0,fun _ => none,⟨fun _ => none,fun _ => .first .fake⟩,⟨fun _ => none,fun _ => .first 0⟩,fun _ => 0,fun _ => 0,false⟩,
    fun _ => 0,fun _ => false⟩

lemma emptyStarts : Start emptyCache := ⟨fun _ => ⟨rfl,rfl,rfl,rfl,rfl⟩,fun _ => rfl,fun _ => rfl,rfl⟩

def openedFile : List Op :=
  [.alloc true none 1 7 ['/'],.alloc true (some 0) 2 7 ['/','a'],.alloc true (some 1) 3 7 ['/','a','/','f']]

def renameLeaf : List Op :=
  openedFile ++ [.drele 2,.move 1 (some 0) ['/','b'],.lookup 7 ['/','b'],.remove 1,.drele 1,.lookup 7 ['/','b'],.drele 1]

theorem cacheHoldsRenamed : Reach step Careful Start (final step Careful emptyCache renameLeaf) ∧
    Holds (final step Careful emptyCache renameLeaf) := by
  have reach : Reach step Careful Start (final step Careful emptyCache renameLeaf) :=
    reachFinal renameLeaf emptyStarts rfl
  exact ⟨reach,(cacheHolds reach).1⟩

def renameOpen : List Op := openedFile ++ [.move 1 (some 0) ['/','b']]

theorem moveUnlinksChildren :
    ∃ s t, Reach step Legal Start s ∧ ¬ Holds s ∧ step s (.drele 2) = some t ∧ t.cache.stray = true := by
  refine ⟨final step Legal emptyCache renameOpen, after step (final step Legal emptyCache renameOpen) (.drele 2),
    reachFinal renameOpen emptyStarts rfl,?_,afterTaken rfl,rfl⟩
  intro holds
  have live : Named (final step Legal emptyCache renameOpen) 7 ['/','a','/','f'] 2 :=
    ⟨rfl,⟨1,3,7,['/','a','/','f'],some 1⟩,rfl,rfl,rfl⟩
  obtain ⟨d,found⟩ := holds.finds 7 ['/','a','/','f'] 2 (by decide) live
  have none : dentryFind (final step Legal emptyCache renameOpen).cache 7 ['/','a','/','f'] = none := rfl
  cases none.symm.trans found

end OsvKernel.Dentry
