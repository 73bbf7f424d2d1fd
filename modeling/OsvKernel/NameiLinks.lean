import OsvKernel.NameiPaths

/-! namei from a cache that holds only the mount roots: each round allocates a chain of dentries below
the root of one mount, and gives the whole chain back when it meets a link. -/
namespace OsvKernel.Namei
open List Option Nat Dentry PathConv Segments Words
open Function (update update_apply update_of_ne update_self)

def IsRoot (W : World) (d : Nat) : Prop := ∃ m ∈ W.mounts, m.root = d

structure Rooted (W : World) (rootOf : Mount → Nat) (base : Nat → Nat) (s : State) : Prop where
  bound : ∀ m ∈ W.mounts, 0 < base m.root ∧ base m.root + 3 < 2^31
  root : ∀ m ∈ W.mounts, ∃ r, s.cache.heap m.root = some ⟨r,rootOf m,m.id,['/'],none⟩
  kept : ∀ d, s.removed d = false

structure Idle (W : World) (rootOf : Mount → Nat) (base : Nat → Nat) (s : State) : Prop
    extends Rooted W rootOf base s where
  good : Good s
  held : s.held = base
  only : ∀ d e, s.cache.heap d = some e → IsRoot W d

structure Walking (W : World) (rootOf : Mount → Nat) (base : Nat → Nat) (m : Mount) (s : State) (lists : Head → List Nat)
    (kids : Nat → List Nat) (done : Names) (cur v : Nat) : Prop extends Rooted W rootOf base s where
  inv : Inv s lists kids
  held : s.held = raise base (some cur)
  here : ∃ r parent, s.cache.heap cur = some ⟨r,v,m.id,showPath done false,parent⟩
  tree : ∀ d e, s.cache.heap d = some e → IsRoot W d ∨ base d = 0 ∧ e.path.length ≤ (showPath done false).length ∧
    ∃ p e', e.parent = some p ∧ s.cache.heap p = some e' ∧ e'.path.length < e.path.length
  few : ∀ d, (kids d).length ≤ 1
  leaf : kids cur = []

variable {W : World} {rootOf : Mount → Nat} {base : Nat → Nat} {m : Mount} {s : State} {lists : Head → List Nat}
  {kids : Nat → List Nat} {done : Names} {cur v : Nat}

lemma Rooted.next {c : Cache} {held : Nat → Nat} (rooted : Rooted W rootOf base s) (keeps : Keeps s.cache.heap c.heap)
    (live : ∀ m ∈ W.mounts, ∃ e, c.heap m.root = some e) : Rooted W rootOf base ⟨c,held,s.removed⟩ := by
  refine ⟨rooted.bound,fun m mem => ?_,rooted.kept⟩
  obtain ⟨e,there⟩ := live m mem
  obtain ⟨r,old⟩ := rooted.root m mem
  obtain ⟨e',here,same⟩ := keeps _ e there
  cases old.symm.trans here
  exact ⟨e.refcnt,there.trans (congrArg some same)⟩

lemma Idle.enter (idle : Idle W rootOf base s) (mem : m ∈ W.mounts) : ∃ c lists kids, dref s.cache m.root = some c ∧
      Walking W rootOf base m ⟨c,raise base (some m.root),s.removed⟩ lists kids [] m.root (rootOf m) := by
  obtain ⟨lists,kids,inv⟩ := idle.good
  obtain ⟨r,live⟩ := idle.root m mem
  have childless : ∀ d, kids d = [] := fun d => eq_nil_iff_forall_not_mem.mpr fun c mem => by
    obtain ⟨e,here,eq⟩ := (inv.child d c).mp mem
    obtain ⟨k,inside,rfl⟩ := idle.only c e here
    obtain ⟨r,root⟩ := idle.root k inside
    cases root.symm.trans here
    cases eq
  obtain ⟨_,small⟩ := idle.bound m mem
  have count := (inv.count _ _ live).1
  rw [childless,idle.held] at count
  simp only [length_nil] at count
  obtain ⟨c,took,rfl,next⟩ := inv.dref live (show r + 1 < 2^31 by omega)
  have held : update s.held m.root (s.held m.root + 1) = raise base (some m.root) := by
    funext x
    simp only [raise,update_apply,some.injEq,idle.held]
    grind
  rw [held] at next
  have keeps : Keeps s.cache.heap (s.cache.write m.root ⟨r + 1,rootOf m,m.id,['/'],none⟩).heap := by
    intro x e there
    simp only [Cache.write,update_apply] at there
    grind
  refine ⟨_,lists,kids,took,⟨?_,next,rfl,⟨r + 1,none,update_self _ _ _⟩,?_,fun d => ?_,childless _⟩⟩
  · refine idle.toRooted.next keeps fun k inside => ?_
    obtain ⟨r,root⟩ := idle.root k inside
    simp only [Cache.write,update_apply]
    grind
  · intro d e there
    obtain ⟨e',here,_⟩ := keeps d e there
    exact .inl (idle.only d e' here)
  rw [childless]
  exact zero_le 1

lemma Walking.roomy (walking : Walking W rootOf base m s lists kids done cur v) : Roomy s.cache := by
  intro d _ e live
  have count := (walking.inv.count d e live).1
  have few := walking.few d
  have held : s.held d ≤ base d + 1 := by
    rw [walking.held,raise]
    split <;> omega
  rcases walking.tree d e live with ⟨k,mem,rfl⟩ | ⟨zero,_⟩
  · have := walking.bound k mem
    omega
  · omega

variable {path c target name : List Char} {names rest dir : Names} {slash : Bool} {w n : Nat}

section
variable (walking : Walking W rootOf base m s lists kids done cur v)
include walking

lemma Walking.misses (short : path.length < pathMax) (long : (showPath done false).length < path.length) :
    dentryFind s.cache m.id path = none := by
  rcases found : dentryFind s.cache m.id path with _ | d
  · rfl
  obtain ⟨_,e,live,_,rfl⟩ := walking.inv.holds.found m.id path d short found
  have positive := showPos done false
  rcases walking.tree d e live with ⟨k,mem,rfl⟩ | ⟨_,le,_⟩
  · obtain ⟨r,root⟩ := walking.root k mem
    cases root.symm.trans live
    simp only [length_singleton] at long
    omega
  · omega

lemma Walking.enters (w : Nat) (short : path.length < pathMax) (shown : path = showPath names false)
    (long : (showPath done false).length < path.length) :
    ∃ c c' lists' kids', dentryAlloc s.cache true (some cur) w m.id path = some (c,some s.cache.next) ∧
      release c cur = some c' ∧
      Walking W rootOf base m ⟨c',raise base (some s.cache.next),s.removed⟩ lists' kids' names s.cache.next w := by
  obtain ⟨r,parent,here⟩ := walking.here
  obtain ⟨dead,_⟩ := walking.inv.fresh _ (le_refl s.cache.next)
  have own : 0 < s.held cur := by rw [walking.held]; exact raisePos rfl
  have apart : cur ≠ s.cache.next := fun eq => by cases (eq ▸ here).symm.trans dead
  have orphan := walking.inv.orphan dead
  have owns : HeldParent s (some cur) := fun p eq => some.inj eq ▸ own
  obtain ⟨c,lists',made,new,others,inv⟩ := walking.inv.alloc walking.roomy owns short w m.id
  have family : hang kids s.cache.next (some cur) cur = [s.cache.next] := by rw [hang,if_pos rfl,walking.leaf]
  have held : (s.gain c (some s.cache.next)).held cur = s.held cur := update_of_ne apart _ _
  obtain ⟨e,live⟩ := inv.live (held ▸ own)
  have kept : e.path = showPath done false := by
    obtain ⟨e',old,same⟩ := others cur e apart live
    cases here.symm.trans old
    rw [same]
  obtain ⟨released,next⟩ := inv.releaseShared live (held ▸ own) (by rw [held,family,length_singleton]; omega)
  have keeps : ∀ x e', x ≠ s.cache.next → (c.write cur { e with refcnt := e.refcnt - 1 }).heap x = some e' →
    ∃ e, s.cache.heap x = some e ∧ e' = { e with refcnt := e'.refcnt } := by
    intro x e' ne there
    by_cases same : x = cur
    · subst x
      obtain ⟨e'',old,eq⟩ := others cur e apart live
      simp only [Cache.write,update_self,some.injEq] at there
      subst there
      exact ⟨e'',old,by rw [eq]⟩
    · exact others x e' ne ((update_of_ne same _ _).symm.trans there)
  have unheld : base s.cache.next = 0 := by
    have := walking.inv.free _ dead
    rw [walking.held,raise] at this
    omega
  have heldNext : update (s.gain c (some s.cache.next)).held cur ((s.gain c (some s.cache.next)).held cur - 1) =
    raise base (some s.cache.next) := by
    funext x
    simp only [State.gain,walking.held,raise,update_apply,some.injEq]
    grind
  rw [heldNext] at next
  have newest : (c.write cur { e with refcnt := e.refcnt - 1 }).heap s.cache.next = some ⟨1,w,m.id,path,some cur⟩ :=
    (update_of_ne apart.symm _ _).trans new
  refine ⟨c,_,lists',_,made,released,⟨⟨walking.bound,?_,walking.kept⟩,next,rfl,⟨1,some cur,?_⟩,?_,?_,?_⟩⟩
  · intro k mem
    obtain ⟨r',root⟩ := walking.root k mem
    have ne : k.root ≠ s.cache.next := fun eq => by cases (eq ▸ root).symm.trans dead
    obtain ⟨e',there⟩ := next.live (d := k.root) (by
      have := (walking.bound k mem).1
      simp only [raise]
      omega)
    obtain ⟨e'',old,same⟩ := keeps _ e' ne there
    cases root.symm.trans old
    exact ⟨e'.refcnt,there.trans (congrArg some same)⟩
  · rw [← shown]
    exact newest
  · intro x e' there
    by_cases fresh : x = s.cache.next
    · subst x
      cases newest.symm.trans there
      refine .inr ⟨unheld,by rw [shown],cur,{ e with refcnt := e.refcnt - 1 },rfl,update_self _ _ _,?_⟩
      rw [kept]
      exact long
    obtain ⟨e'',old,same⟩ := keeps x e' fresh there
    rcases walking.tree x e'' old with root | ⟨zero,le,p,ep,up,above,less⟩
    · exact .inl root
    rw [same] at there ⊢
    obtain ⟨e3,live'⟩ := next.parent x _ p there up
    have ne : p ≠ s.cache.next := fun eq => by cases (eq ▸ above).symm.trans dead
    obtain ⟨e4,old',same'⟩ := keeps p e3 ne live'
    cases above.symm.trans old'
    refine .inr ⟨zero,?_,p,e3,up,live',by rw [same']; exact less⟩
    rw [shown] at long
    exact le_trans le (le_of_lt long)
  · intro d
    rw [hang]
    split
    next eq =>
      cases eq
      rw [walking.leaf]
      exact le_refl 1
    next => exact walking.few d
  · rw [hang,if_neg (fun eq => apart (some.inj eq)),orphan]

lemma onlyRoots {c : Cache} {lists' : Head → List Nat} {kids' : Nat → List Nat} (inv : Inv ⟨c,base,s.removed⟩ lists' kids')
    (keeps : Keeps s.cache.heap c.heap) (n d : Nat) (e : Entry) (live : c.heap d = some e)
    (near : (showPath done false).length < e.path.length + n) : IsRoot W d := by
  induction n generalizing d e with
  | zero =>
    obtain ⟨e',old,same⟩ := keeps d e live
    rcases walking.tree d e' old with root | ⟨_,le,_⟩
    · exact root
    rw [same] at near
    exact absurd near (by simp only [Nat.add_zero]; omega)
  | succ n ih => ?_
  obtain ⟨e',old,same⟩ := keeps d e live
  rcases walking.tree d e' old with root | ⟨zero,le,_⟩
  · exact root
  obtain ⟨count,pos,_⟩ := inv.count d e live
  have some' : kids' d ≠ [] := by
    intro empty
    rw [empty,show (⟨c,base,s.removed⟩ : State).held d = base d from rfl,zero] at count
    simp only [length_nil] at count
    omega
  obtain ⟨x,rest,eq⟩ := exists_cons_of_ne_nil some'
  obtain ⟨ex,there,up⟩ := (inv.child d x).mp (eq ▸ (.head _))
  obtain ⟨ex',oldx,samex⟩ := keeps x ex there
  rcases walking.tree x ex' oldx with ⟨k,mem,rfl⟩ | ⟨_,_,p,ep,up',above,less⟩
  · obtain ⟨r,root⟩ := walking.root k mem
    cases root.symm.trans oldx
    rw [samex] at up
    cases up
  rw [samex] at up
  cases up'.symm.trans up
  cases above.symm.trans old
  have root := ih x ex there (by rw [samex]; rw [same] at near; simp only at near ⊢; omega)
  obtain ⟨k,mem,rfl⟩ := root
  obtain ⟨r,root⟩ := walking.root k mem
  cases root.symm.trans oldx
  cases up'

lemma Walking.leaves : ∃ c, release s.cache cur = some c ∧ Idle W rootOf base ⟨c,base,s.removed⟩ := by
  have own : 0 < s.held cur := by rw [walking.held]; exact raisePos rfl
  obtain ⟨c,released,lists',kids',inv⟩ := walking.inv.release own
  have keeps : Keeps s.cache.heap c.heap := dreleKeeps released
  have held : update s.held cur (s.held cur - 1) = base := by
    funext x
    simp only [walking.held,raise,update_apply,some.injEq]
    grind
  rw [held] at inv
  have rooted : Rooted W rootOf base ⟨c,base,s.removed⟩ := walking.toRooted.next keeps fun k mem => inv.live (walking.bound k mem).1
  refine ⟨c,released,⟨rooted,⟨lists',kids',inv⟩,rfl,?_⟩⟩
  intro d e live
  exact onlyRoots walking inv keeps ((showPath done false).length + 1) d e live (by omega)

end

/-! The strings of one round. -/

def endsSlash (l : List Char) : Bool := l.getLast? = some '/'

lemma endsAppend {l l' : List Char} (more : l' ≠ []) : endsSlash (l ++ l') = endsSlash l' := by
  rw [endsSlash,endsSlash,getLast?_append_of_ne_nil _ more]

lemma endsSegment (segment : Segment '/' c) : endsSlash c = false :=
  decide_eq_false fun last => segment.2 (mem_of_getLast? last)

lemma endsTail (clean : Proper rest) (more : rest ≠ []) (slash : Bool) : endsSlash (tailOf rest slash) = slash := by
  cases slash
  swap
  · exact endsAppend (cons_ne_nil '/' [])
  obtain ⟨front,n,rfl⟩ := (eq_nil_or_concat' rest).resolve_left more
  have segment := clean n (mem_append_right _ (.head _))
  have split : tailOf (front ++ [n]) false = (flat '/' front ++ ['/']) ++ n := by simp [tailOf,slashIf]
  rw [split,endsAppend segment.1]
  exact endsSegment segment

-- A name is followed by a slash where another name or the final slash follows.
lemma cutMore {p q : List Char} (segment : Segment '/' c) (drop : p.dropWhile (· = '/') = c ++ q)
    (edge : q = [] ∨ q.head? = some '/') (ends : slash = endsSlash p) :
    (q.head? = some '/' ↔ components q ≠ [] ∨ slash = true) ∧ (components q ≠ [] → slash = endsSlash q) := by
  have filled : c ++ q ≠ [] := fun nil => segment.1 (append_eq_nil_iff.mp nil).1
  have split := takeWhile_append_dropWhile (p := fun c : Char => decide (c = '/')) (l := p)
  rw [drop] at split
  rw [← split,endsAppend filled] at ends
  rcases edge with rfl | head
  · rw [append_nil,endsSegment segment] at ends
    simp [ends,components,segments]
  have more : q ≠ [] := by rintro rfl; cases head
  rw [endsAppend more] at ends
  refine ⟨iff_of_true head ?_,fun _ => ends⟩
  by_cases none : components q = []
  · refine .inr (ends.trans (decide_eq_true ?_))
    have all := dropWhile_eq_nil_iff.mp (segmentsNone none)
    exact (getLast?_eq_getLast_of_ne_nil more).trans (congrArg some (of_decide_eq_true (all _ (getLast_mem more))))
  · exact .inl none

lemma followShown {ms : Names} (read : W.readlink w = .ok target) :
    nameiFollowLink W w (flat '/' (done ++ [c])) c (tailOf (ms ++ done ++ c::rest) slash) (flat '/' ms).length =
      .ok (relink (ms ++ done) rest slash target (tailOf (ms ++ done ++ c::rest) slash)) := by
  have first : tailOf (ms ++ done ++ c::rest) slash = flat '/' (ms ++ done) ++ ('/'::c ++ tailOf rest slash) := by
    simp [tailOf]
  have second : tailOf (ms ++ done ++ c::rest) slash = flat '/' ms ++ flat '/' (done ++ [c]) ++ tailOf rest slash := by
    simp [tailOf]
  have left : (tailOf (ms ++ done ++ c::rest) slash).drop ((flat '/' ms).length + (flat '/' (done ++ [c])).length) =
    tailOf rest slash := by
    rw [second,← length_append,drop_left]
  have dir : (tailOf (ms ++ done ++ c::rest) slash).take
    ((flat '/' ms).length + ((flat '/' (done ++ [c])).length - c.length - 1)) = flat '/' (ms ++ done) := by
    have len : (flat '/' ms).length + ((flat '/' (done ++ [c])).length - c.length - 1) = (flat '/' (ms ++ done)).length := by
      simp only [flatAppend,flatCons,flatNil,append_nil,length_append,length_cons]
      omega
    rw [len,first,take_left]
  simp only [nameiFollowLink,read,left,dir,relink]
  split <;> rfl

def Meets (rootOf : Mount → Nat) (base : Nat → Nat) (W : World) (removed : Nat → Bool) (slash : Bool) (fp : List Char)
    (out : Option (Cache × Outcome)) : Found → Prop
  | .ok m names v => ∃ c d r parent, out = some (c,.found (some d)) ∧
    c.heap d = some ⟨r,v,m.id,showPath names false,parent⟩
  | .error e => ∃ c, out = some (c,.error e)
  | .link dir rest target => ∃ c, out = some (c,.follow (relink dir rest slash target fp)) ∧
    Idle W rootOf base ⟨c,base,removed⟩

lemma Walking.fails (walking : Walking W rootOf base m s lists kids done cur v) (e : Errno) :
    ∃ c, failWith s.cache cur e = some (c,.error e) := by
  obtain ⟨c,released,_⟩ := walking.leaves
  exact ⟨c,by rw [failWith,released]; rfl⟩

lemma nodeNext (short : (flat '/' (done ++ [c])).length < pathMax) :
    cap (cap (flat '/' done ++ ['/']) ++ c) = flat '/' (done ++ [c]) := by
  have len : (flat '/' (done ++ [c])).length = (flat '/' done ++ ['/']).length + c.length := by
    simp only [flatAppend,flatCons,flatNil,append_nil,length_append,length_cons,length_nil]
    omega
  rw [capShort (l := flat '/' done ++ ['/']) (by omega)]
  have eq : flat '/' done ++ ['/'] ++ c = flat '/' (done ++ [c]) := by simp
  rw [eq]
  exact capShort short

section
variable (walking : Walking W rootOf base m s lists kids done cur v) (short : path.length < pathMax) (long : (showPath done false).length < path.length)
include walking short long

lemma Walking.nextError {x : Errno} (bad : W.lookup v name = .error x) :
    nextDentry W m s.cache cur path name = some (s.cache,.error x) := by
  obtain ⟨r,parent,here⟩ := walking.here
  simp [nextDentry,dentryLookup,walking.misses short long,bind,bind_some,here,bad]

lemma Walking.nextOk {d : Nat}
    {c : Cache}
    (memory : W.memory = true) (good : W.lookup v name = .ok w)
    (made : dentryAlloc s.cache true (some cur) w m.id path = some (c,some d)) :
    nextDentry W m s.cache cur path name = some (c,.ok d) := by
  obtain ⟨r,parent,here⟩ := walking.here
  simp [nextDentry,dentryLookup,walking.misses short long,bind,bind_some,here,good,memory,made]

end

lemma showNext (done : Names) (filled : c ≠ []) : flat '/' (done ++ [c]) = showPath (done ++ [c]) false ∧
      (showPath done false).length < (flat '/' (done ++ [c])).length := by
  have shown : flat '/' (done ++ [c]) = showPath (done ++ [c]) false := by
    rw [showPath,if_neg (by simp)]
    simp [tailOf,slashIf]
  refine ⟨shown,?_⟩
  have positive := length_pos_iff.mpr filled
  by_cases empty : done = []
  · subst empty
    simpa [showPath] using positive
  rw [showPath,if_neg empty]
  simp [tailOf,slashIf]

lemma walks (memory : W.memory = true) {p fp : List Char} {len : Nat} (dp : Option Nat)
    (walking : Walking W rootOf base m s lists kids done cur v) (pieces : components p = rest)
    (ends : rest ≠ [] → slash = endsSlash p) (fuel : rest.length < n) (short : (flat '/' (done ++ rest)).length < pathMax)
    (strict : (∃ dir after target, specWalk W m slash v done rest = .link dir after target) →
      fp = tailOf (components m.path ++ done ++ rest) slash ∧ len = (flat '/' (components m.path)).length)
    (last : rest = [] → dp = some cur) :
    Meets rootOf base W s.removed slash fp (walkLoop W m len fp n s.cache p (flat '/' done) cur dp)
      (specWalk W m slash v done rest) := by
  induction rest generalizing s lists kids done cur v n p dp with
  | nil =>
    obtain ⟨r,parent,here⟩ := walking.here
    obtain ⟨n,rfl⟩ := Nat.exists_eq_add_of_lt fuel
    simp only [walkLoop,segmentsNone pieces,if_true,last rfl]
    exact ⟨s.cache,cur,r,parent,rfl,here⟩
  | cons c rest ih => ?_
  obtain ⟨n,rfl⟩ := Nat.exists_eq_add_of_lt fuel
  have mem : c ∈ components p := pieces ▸ mem_cons_self
  have segment : Segment '/' c := segmentsMem mem
  obtain ⟨q,skip,edge,rfl⟩ := segmentsCut pieces
  obtain ⟨took,dropped⟩ := takeSegment segment.2 edge
  obtain ⟨more,onward⟩ := cutMore segment skip edge (ends (cons_ne_nil _ _))
  have filled : c ++ q ≠ [] := fun nil => segment.1 (append_eq_nil_iff.mp nil).1
  have same : done ++ c::segments '/' q = done ++ [c] ++ segments '/' q := by simp
  have node : (flat '/' (done ++ [c])).length < pathMax := by
    rw [same,flatAppend,length_append] at short
    omega
  obtain ⟨shown,long⟩ := showNext done segment.1
  simp only [walkLoop,skip,filled,if_false,took,dropped,nodeNext node]
  rcases found : W.lookup v c with x | w
  · simp only [specWalk,found,walking.nextError node long found,bind,bind_some]
    exact walking.fails x
  obtain ⟨c1,c2,lists',kids',made,released,on⟩ := walking.enters w node shown long
  obtain ⟨r,parent,here⟩ := on.here
  have here : c2.heap s.cache.next = some ⟨r,w,m.id,showPath (done ++ [c]) false,parent⟩ := here
  simp only [walking.nextOk node long memory found made,bind,bind_some,released,here,more]
  by_cases link : W.vtype w = .VLNK
  · simp only [specWalk,found,link,if_true] at strict ⊢
    rcases read : W.readlink w with x | target
    · simp only [nameiFollowLink,read]
      exact on.fails x
    obtain ⟨rfl,rfl⟩ := strict ⟨_,_,target,by rw [read]⟩
    obtain ⟨c3,left,idle⟩ := on.leaves
    simp only [followShown read,left,map_some]
    exact ⟨c3,rfl,idle⟩
  simp only [link,if_false]
  by_cases stop : (segments '/' q ≠ [] ∨ slash = true) ∧ W.vtype w ≠ .VDIR
  · simp only [specWalk,found,link,if_false]
    rw [if_pos stop,if_pos stop]
    exact on.fails .ENOTDIR
  have walk : specWalk W m slash v done (c::segments '/' q) = specWalk W m slash w (done ++ [c]) (segments '/' q) := by
    simp only [specWalk,found,link,if_false]
    rw [if_neg stop]
  rw [if_neg stop,walk]
  rw [walk] at strict
  refine ih (some s.cache.next) on rfl onward (by rw [length_cons]; omega) (same ▸ short) (fun met => ?_) fun _ => rfl
  obtain ⟨eq,point⟩ := strict met
  exact ⟨by simpa using eq,point⟩

lemma Idle.misses (idle : Idle W rootOf base s) (short : path.length < pathMax)
    (long : 1 < path.length) (mp : Nat) : dentryFind s.cache mp path = none := by
  obtain ⟨lists,kids,inv⟩ := idle.good
  rcases found : dentryFind s.cache mp path with _ | d
  · rfl
  obtain ⟨_,e,live,_,rfl⟩ := inv.holds.found mp path d short found
  obtain ⟨k,mem,rfl⟩ := idle.only d e live
  obtain ⟨r,root⟩ := idle.root k mem
  cases root.symm.trans live
  exact absurd long (lt_irrefl 1)

lemma Idle.hits (idle : Idle W rootOf base s) (mounted : Mounted W) (mem : m ∈ W.mounts) :
    ∃ c r, dentryLookup s.cache m.id ['/'] = some (c,some m.root) ∧ c.heap m.root = some ⟨r,rootOf m,m.id,['/'],none⟩ := by
  obtain ⟨lists,kids,inv⟩ := idle.good
  obtain ⟨r,root⟩ := idle.root m mem
  obtain ⟨d,found⟩ := inv.holds.finds m.id ['/'] m.root (by decide) ⟨idle.kept _,_,root,rfl,rfl⟩
  obtain ⟨_,e,live,same,_⟩ := inv.holds.found m.id ['/'] d (by decide) found
  have here : d = m.root := by
    obtain ⟨k,inside,rfl⟩ := idle.only d e live
    obtain ⟨r',root'⟩ := idle.root k inside
    cases root'.symm.trans live
    rw [mounted.numbered k inside m mem same]
  subst here
  refine ⟨s.cache.write m.root ⟨int32 (r + 1),rootOf m,m.id,['/'],none⟩,int32 (r + 1),?_,update_self _ _ _⟩
  simp [dentryLookup,found,dref,root,map_some]

lemma passesFrom (memory : W.memory = true) (idle : Idle W rootOf base s) {fp p : List Char} (mem : m ∈ W.mounts)
    (root : vfsFindroot W.mounts fp = some (m,p)) (more : components p ≠ []) (ends : slash = endsSlash p)
    (short : p.length + 1 < pathMax)
    (strict : (∃ dir rest target, specWalk W m slash (rootOf m) [] (components p) = .link dir rest target) →
      fp = tailOf (components m.path ++ components p) slash ∧ fp.length - p.length - 1 = (flat '/' (components m.path)).length) :
    Meets rootOf base W s.removed slash fp (pass W s.cache fp) (specWalk W m slash (rootOf m) [] (components p)) := by
  have some' : p ≠ [] := by rintro rfl; exact more rfl
  have bound : (flat '/' (components p)).length ≤ p.length + 1 ∧ (components p).length ≤ p.length := segmentsLength '/' p
  obtain ⟨c,lists,kids,took,walking⟩ := idle.enter mem
  have long := length_pos_iff.mpr some'
  have miss : dentryLookup s.cache m.id ('/'::p) = some (s.cache,none) := by
    rw [dentryLookup,idle.misses (show ('/'::p).length < pathMax from short) (Nat.succ_lt_succ long)]
  simp only [pass,root,capShort (l := '/'::p) short,miss,bind,bind_some,took]
  exact walks memory none walking rfl (fun _ => ends) (by omega) (by rw [nil_append]; omega) (by simpa using strict)
    fun bad => absurd bad more

-- A path with empty components, of which vfs_findroot makes what it makes of its names.
def Loose (W : World) (fp : List Char) (names : Names) (slash : Bool) : Prop :=
  ∃ m p, vfsFindroot W.mounts fp = some (m,p) ∧ findMount W.mounts names = some m ∧
    names = components m.path ++ components p ∧ (p = [] ∨ components p ≠ [] ∧ slash = endsSlash p ∧ p.length + 1 < pathMax)

lemma passesRoot (mounted : Mounted W) (idle : Idle W rootOf base s) {fp : List Char} (mem : m ∈ W.mounts)
    (root : vfsFindroot W.mounts fp = some (m,[])) :
    Meets rootOf base W s.removed slash fp (pass W s.cache fp) (specWalk W m slash (rootOf m) [] []) := by
  obtain ⟨c,r,hit,there⟩ := idle.hits mounted mem
  simp only [pass,root,capShort (show ['/'].length < pathMax by decide),hit,bind,bind_some]
  exact ⟨c,m.root,r,none,rfl,there⟩

lemma passesShown (mounted : Mounted W) (memory : W.memory = true) (idle : Idle W rootOf base s) (clean : Proper names)
    (short : (showPath names slash).length < pathMax) :
    Meets rootOf base W s.removed slash (showPath names slash) (pass W s.cache (showPath names slash))
      (specPass W rootOf names slash) := by
  have root := findrootShown mounted slash clean
  rw [specPass]
  rcases found : findMount W.mounts names with _ | m
  · rw [found,map_none] at root
    simp only [pass,root]
    exact ⟨s.cache,rfl⟩
  obtain ⟨mem,rest,rfl⟩ := findMember found
  have left : (components m.path ++ rest).drop (components m.path).length = rest := drop_left
  rw [found,map_some,left] at root
  dsimp only
  rw [left]
  by_cases more : rest = []
  · subst more
    rw [show (tailOf [] slash).tail = [] by cases slash <;> rfl] at root
    exact passesRoot mounted idle mem root
  have proper : Proper rest := fun n mem => clean n (mem_append_right _ mem)
  have shown : showPath (components m.path ++ rest) slash = tailOf (components m.path ++ rest) slash :=
    if_neg fun nil => more (append_eq_nil_iff.mp nil).2
  have split : tailOf (components m.path ++ rest) slash = flat '/' (components m.path) ++ tailOf rest slash := by simp [tailOf]
  have key : '/'::(tailOf rest slash).tail = tailOf rest slash := by
    obtain ⟨n,rest,rfl⟩ := exists_cons_of_ne_nil more
    simp [tailOf]
  have pieces : components (tailOf rest slash).tail = rest := by
    refine (segmentsSep '/' _).symm.trans ?_
    rw [key]
    cases slash
    · simpa [tailOf,slashIf] using segmentsFlat proper
    · exact segmentsFlatSep proper
  have len := congrArg List.length key
  have whole := congrArg List.length split
  rw [length_append] at whole
  rw [length_cons] at len
  have filled : (tailOf rest slash).tail ≠ [] := fun nil => more (by rw [← pieces,nil]; rfl)
  have ends : slash = endsSlash (tailOf rest slash).tail := by
    rw [← endsAppend (l := ['/']) filled,singleton_append,key,endsTail proper more]
  have done := passesFrom memory idle mem root (by rwa [pieces]) ends (by rw [shown] at short; omega)
    fun _ => ⟨by rw [pieces,shown],by rw [shown]; omega⟩
  rwa [pieces] at done

lemma passesLoose (mounted : Mounted W) (memory : W.memory = true) (idle : Idle W rootOf base s) {fp : List Char}
    (loose : Loose W fp names slash) (plain : ∀ dir rest target, specPass W rootOf names slash ≠ .link dir rest target) :
    Meets rootOf base W s.removed slash fp (pass W s.cache fp) (specPass W rootOf names slash) := by
  obtain ⟨m,p,root,found,rfl,rest⟩ := loose
  have left : (components m.path ++ components p).drop (components m.path).length = components p := drop_left
  simp only [specPass,found,left] at plain ⊢
  rcases rest with rfl | ⟨more,ends,short⟩
  · exact passesRoot mounted idle (findMember found).1 root
  exact passesFrom memory idle (findMember found).1 root more ends short
    fun ⟨dir,rest,target,met⟩ => absurd met (plain dir rest target)

/-! The rounds, one for each link. -/

def LinksFit (W : World) (rootOf : Mount → Nat) (n : Nat) (fp : List Char) (names : Names) (slash : Bool) : Prop :=
  fp.length < pathMax ∧
    match specPass W rootOf names slash with
    | .link dir rest target => fp = showPath names slash ∧
      match n with
      | n+1 => LinkFits dir target ∧ (flat '/' dir).length + target.length < pathMax ∧
        LinksFit W rootOf n (onward dir rest slash target) (join dir target ++ rest) (slashAfter rest slash target)
      | 0 => True
    | _ => fp = showPath names slash ∨ Loose W fp names slash
termination_by structural n

lemma LinksFit.short {fp : List Char} (fits : LinksFit W rootOf n fp names slash) : fp.length < pathMax := by
  unfold LinksFit at fits
  exact fits.1

lemma LinksFit.meets (mounted : Mounted W) (memory : W.memory = true) (idle : Idle W rootOf base s) {fp : List Char}
    (clean : Proper names) (fits : LinksFit W rootOf n fp names slash) :
    Meets rootOf base W s.removed slash fp (pass W s.cache fp) (specPass W rootOf names slash) := by
  unfold LinksFit at fits
  obtain ⟨short,links⟩ := fits
  by_cases shown : fp = showPath names slash
  · subst shown
    exact passesShown mounted memory idle clean short
  split at links
  · exact absurd links.1 shown
  next plain => exact passesLoose mounted memory idle (links.resolve_left shown) plain

end OsvKernel.Namei
