import OsvKernel.NameiPaths
import OsvKernel.Rename

/-! What sys_rename leaves in the dentry cache. The key it gives to dentry_move is the last name of the
destination alone, which no lookup ever asks for. -/
namespace OsvKernel.Rename
open List Option Runs Function Nat Lists Dentry PathConv Namei Segments

structure CachedTree (s : State) : Prop where
  good : Good s
  named : ∀ d e, s.cache.heap d = some e → s.removed d = false → ∃ ns, Proper ns ∧ e.path = showPath ns false ∧
    (ns ≠ [] → ∃ p, e.parent = some p ∧ Named s e.mount (showPath ns.dropLast false) p)
  unique : ∀ mp path d d', Named s mp path d → Named s mp path d' → d = d'

structure Holding (s : State) (p : Pair) : Prop where
  counts : ∀ d, (p.dp2.toList ++ [p.ddp2,p.dp1,p.ddp1]).count d ≤ s.held d
  kept : s.removed p.dp1 = false ∧ ∀ d ∈ p.dp2, s.removed d = false
  room : Room s.cache (some p.ddp2)

def Under (old path : List Char) : Prop :=
  path.head? = some '/' ∧ path.length < pathMax ∧ components old <+: components path

structure Coherent (W : World) (e : Entry) (d : Nat) (dest : List Char) (c : Cache) : Prop where
  gone : ∀ path, Under e.path path → dentryFind c e.mount path = none
  same : 1 < e.refcnt → ∃ c', namei W c dest = some (c',.ok (some d))

variable {W : World} {c c' : Cache} {s : State} {d : Nat} {e : Entry} {p : Pair}

/-! A dentry whose path does not start with a '/' is not found. -/

structure Off (d : Nat) (c : Cache) : Prop where
  old : d < c.next
  path : ∀ e, c.heap d = some e → e.path.head? ≠ some '/'

lemma Keeps.trans {a b h : Nat → Option Entry} (first : Keeps a b) (second : Keeps b h) : Keeps a h := by
  intro x e' there
  obtain ⟨e,here,eq⟩ := second x e' there
  obtain ⟨e0,before,eq0⟩ := first x e here
  refine ⟨e0,before,?_⟩
  rw [eq,eq0]

lemma dreleNext {fuel : Nat} (done : drele fuel c d = some c') : c'.next = c.next := by
  induction fuel generalizing c d with
  | zero => cases done
  | succ fuel ih => ?_
  simp only [drele] at done
  split at done
  · cases done
  split at done
  · cases done
    rfl
  split at done
  · cases done
    rfl
  have same := ih done
  exact same

lemma Off.keep (off : Off d c) (next : c.next ≤ c'.next) (keeps : Keeps c.heap c'.heap) : Off d c' := by
  refine ⟨lt_of_lt_of_le off.old next,fun e there => ?_⟩
  obtain ⟨e0,here,eq⟩ := keeps d e there
  rw [eq]
  exact off.path e0 here

lemma Off.release {x : Nat} (off : Off d c) (done : Dentry.release c x = some c') : Off d c' :=
  off.keep (le_of_eq (dreleNext done).symm) (dreleKeeps done)

variable {ds : List Nat} {x mp ddp v : Nat} {path node fp dest src : List Char} {parent : Option Nat} {m : Mount}
  {out : Outcome} {F : Files} {c1 : Cache} {ns : Names}

lemma drefKeeps (done : dref c x = some c') : c'.next = c.next ∧ Keeps c.heap c'.heap := by
  obtain ⟨e,live,rfl⟩ := map_eq_some_iff.mp done
  refine ⟨rfl,fun y e' there => ?_⟩
  simp only [Cache.write,update_apply] at there
  grind

lemma Off.dref (off : Off d c) (done : Dentry.dref c x = some c') : Off d c' :=
  off.keep (le_of_eq (drefKeeps done).1.symm) (drefKeeps done).2

lemma sameNameHead (head : path.head? = some '/') (same : sameName c mp path d = true) :
    ∃ e, c.heap d = some e ∧ e.path.head? = some '/' := by
  unfold sameName at same
  split at same
  · cases same
  rename_i e live
  refine ⟨e,live,?_⟩
  have eq := (of_decide_eq_true same).2
  have first := congrArg head? eq
  rwa [head?_take,head?_take,if_neg (by decide),if_neg (by decide),head] at first

lemma Off.find (off : Off d c) (head : path.head? = some '/') (found : dentryFind c mp path = some x) : x ≠ d := by
  rintro rfl
  obtain ⟨e,live,slash⟩ := sameNameHead head (find?_some found)
  exact off.path e live slash

lemma Off.lookup {hit : Option Nat} (off : Off d c) (head : path.head? = some '/')
    (done : dentryLookup c mp path = some (c',hit)) : Off d c' ∧ hit ≠ some d := by
  unfold dentryLookup at done
  split at done
  · cases done
    exact ⟨off,nofun⟩
  rename_i x found
  obtain ⟨c1,took,eq⟩ := map_eq_some_iff.mp done
  cases eq
  exact ⟨off.dref took,fun eq => off.find head found (some.inj eq)⟩

lemma Off.alloc {memory : Bool} {new : Option Nat} {vnode mount : Nat} (off : Off d c)
    (done : dentryAlloc c memory parent vnode mount path = some (c',new)) : Off d c' ∧ new ≠ some d := by
  unfold dentryAlloc at done
  split at done
  swap
  next =>
    cases done
    exact ⟨off,nofun⟩
  obtain ⟨c1,took,eq⟩ := map_eq_some_iff.mp done
  cases eq
  have ne := Nat.ne_of_lt off.old
  have first : Off d { c.write c.next ⟨1,vnode,mount,path,parent⟩ with
      next := c.next + 1, kids := init c.kids c.next } := by
    refine ⟨lt_succ_of_lt off.old,fun e live => off.path e ?_⟩
    exact (update_of_ne ne _ _).symm.trans live
  refine ⟨?_,fun eq => ne (some.inj eq).symm⟩
  rcases parent with _ | q
  · cases took
    exact ⟨first.old,first.path⟩
  obtain ⟨c2,gained,rfl⟩ := map_eq_some_iff.mp took
  have second := first.dref gained
  exact ⟨second.old,second.path⟩

lemma capHead {l : List Char} (head : l.head? = some '/') : (cap l).head? = some '/' := by
  rw [cap,head?_take,if_neg (by decide)]
  exact head

lemma nodeHead (start : node = [] ∨ node.head? = some '/') (name : List Char) :
    (cap (cap (node ++ ['/']) ++ name)).head? = some '/' := by
  have first : (node ++ ['/']).head? = some '/' := by
    rcases start with rfl | head
    · rfl
    rw [head?_append,head]
    rfl
  refine capHead ?_
  rw [head?_append,capHead first]
  rfl

lemma Off.next {name : List Char} {out : Except Errno Nat} (off : Off d c)
    (head : node.head? = some '/') (done : nextDentry W m c ddp node name = some (c',out)) :
    Off d c' ∧ out ≠ .ok d := by
  obtain ⟨⟨c1,hit⟩,looked,done⟩ := bind_eq_some_iff.mp done
  obtain ⟨off,other⟩ := off.lookup head looked
  cases hit
  case some x =>
    cases done
    exact ⟨off,fun eq => other (congrArg some (Except.ok.inj eq))⟩
  obtain ⟨e,_,done⟩ := bind_eq_some_iff.mp done
  split at done
  · cases done
    exact ⟨off,nofun⟩
  obtain ⟨⟨c2,new⟩,made,done⟩ := bind_eq_some_iff.mp done
  obtain ⟨off,other⟩ := off.alloc made
  rcases new with _ | x
  · cases done
    exact ⟨off,nofun⟩
  cases done
  exact ⟨off,fun eq => other (congrArg some (Except.ok.inj eq))⟩

lemma Off.fail {err : Errno} (off : Off d c) (done : failWith c x err = some (c',out)) :
    Off d c' ∧ out ≠ .found (some d) := by
  obtain ⟨c1,left,eq⟩ := map_eq_some_iff.mp done
  cases eq
  exact ⟨off.release left,nofun⟩

lemma Off.walk {len n : Nat} {left : List Char} {dp : Option Nat}
    (off : Off d c) (start : node = [] ∨ node.head? = some '/') (other : dp ≠ some d)
    (done : walkLoop W m len fp n c left node ddp dp = some (c',out)) : Off d c' ∧ out ≠ .found (some d) := by
  induction n generalizing c left node ddp dp with
  | zero => cases done
  | succ n ih => ?_
  simp only [walkLoop] at done
  split at done
  · cases done
    exact ⟨off,fun eq => other (Outcome.found.inj eq)⟩
  obtain ⟨⟨c1,next⟩,took,done⟩ := bind_eq_some_iff.mp done
  have head := nodeHead start (takeWhile (· ≠ '/') (left.dropWhile (· = '/')))
  obtain ⟨off,other⟩ := off.next head took
  rcases next with x | x
  · exact off.fail done
  have fresh : some x ≠ some d := fun eq => other (congrArg _ (some.inj eq))
  obtain ⟨c2,released,done⟩ := bind_eq_some_iff.mp done
  have off := off.release released
  obtain ⟨e,_,done⟩ := bind_eq_some_iff.mp done
  split at done
  · split at done
    · exact off.fail done
    · obtain ⟨c3,left,eq⟩ := map_eq_some_iff.mp done
      cases eq
      exact ⟨off.release left,nofun⟩
  split at done
  · exact off.fail done
  · exact ih off (.inr head) fresh done

lemma Off.pass (off : Off d c) (done : Namei.pass W c fp = some (c',out)) : Off d c' ∧ out ≠ .found (some d) := by
  unfold Namei.pass at done
  split at done
  · cases done
    exact ⟨off,nofun⟩
  obtain ⟨⟨c1,hit⟩,looked,done⟩ := bind_eq_some_iff.mp done
  obtain ⟨off,other⟩ := off.lookup (capHead rfl) looked
  cases hit
  case some x =>
    cases done
    exact ⟨off,fun eq => other (Outcome.found.inj eq)⟩
  obtain ⟨c2,took,done⟩ := bind_eq_some_iff.mp done
  have other : (none : Option Nat) ≠ some d := nofun
  exact (off.dref took).walk (.inl rfl) other done

lemma Off.loop {c : Cache} {n : Nat} {fp : List Char} {r : Except Errno (Option Nat)} (off : Off d c)
    (done : nameiLoop W n c fp = some (c',r)) : r ≠ .ok (some d) := by
  unfold nameiLoop at done
  obtain ⟨⟨c1,out⟩,round,done⟩ := bind_eq_some_iff.mp done
  obtain ⟨off,other⟩ := off.pass round
  rcases out with dp | x | fp'
  · cases done
    exact fun eq => other (congrArg _ (Except.ok.inj eq))
  · cases done
    exact nofun
  match n with
  | 0 =>
    cases done
    exact nofun
  | n+1 => exact off.loop done

/-! The checks. -/

lemma leaveNot {r : Except Errno Unit} : leave c ds r ≠ some (c',.ok p) := by
  intro done
  obtain ⟨_,_,eq⟩ := map_eq_some_iff.mp done
  cases eq

lemma afterSlashClean (path : List Char) : '/' ∉ afterSlash path ∧ (afterSlash path).length ≤ path.length := by
  refine ⟨fun mem => ?_,?_⟩
  · have := all_eq_true.mp (all_takeWhile (l := path.reverse)) _ (mem_reverse.mp mem)
    simp at this
  have := ( takeWhile_prefix (l := path.reverse) (· ≠ '/')).length_le
  rw [length_reverse] at this
  rw [afterSlash,length_reverse]
  exact this

lemma renameCheckName {ts : Bool} {v1 : Nat} {v2 : Option Nat} {q : Pair}
    (done : renameCheck W F c src dest ts v1 v2 q = some (c',.ok p)) :
    '/' ∉ p.dname ∧ p.dname.length ≤ dest.length := by
  unfold renameCheck at done
  simp only at done
  split at done
  · exact absurd done leaveNot
  split at done
  · exact absurd done leaveNot
  split at done
  · exact absurd done leaveNot
  split at done
  · exact absurd done leaveNot
  obtain ⟨dv1,_,done⟩ := bind_eq_some_iff.mp done
  obtain ⟨dv2,_,done⟩ := bind_eq_some_iff.mp done
  split at done
  · exact absurd done leaveNot
  · exact absurd done leaveNot
  split at done
  · exact absurd done leaveNot
  cases done
  exact afterSlashClean dest

lemma strippedShort (path : List Char) : (stripped path).1.length ≤ path.length := by
  unfold stripped
  split
  · have := (dropWhile_suffix (l := path.reverse) (· = '/')).length_le
    rw [length_reverse] at this
    rw [stripTrailing,length_reverse]
    exact this
  · exact le_refl _

lemma preparedName (done : renamePrepare W F c src dest = some (c',.ok p)) :
    '/' ∉ p.dname ∧ p.dname.length ≤ dest.length := by
  obtain ⟨⟨c1,x | ddp1⟩,_,done⟩ := bind_eq_some_iff.mp done
  · cases some.inj done
  obtain ⟨⟨c2,x | dp1⟩,_,done⟩ := bind_eq_some_iff.mp done
  · exact absurd done leaveNot
  obtain ⟨v1,_,done⟩ := bind_eq_some_iff.mp done
  split at done
  · exact absurd done leaveNot
  obtain ⟨⟨c3,x | ddp2⟩,_,done⟩ := bind_eq_some_iff.mp done
  · exact absurd done leaveNot
  obtain ⟨⟨c4,found⟩,_,done⟩ := bind_eq_some_iff.mp done
  simp only at done
  have short := strippedShort dest
  split at done
  · obtain ⟨v2,_,done⟩ := bind_eq_some_iff.mp done
    obtain ⟨clean,le⟩ := renameCheckName done
    exact ⟨clean,le_trans le short⟩
  · obtain ⟨clean,le⟩ := renameCheckName done
    exact ⟨clean,le_trans le short⟩
  · exact absurd done leaveNot

/-! The move. -/

lemma unlinkAll (l : List Nat) (c : Cache) :
    (l.foldl Cache.unlink c).heap = c.heap ∧ (l.foldl Cache.unlink c).next = c.next := by
  induction l generalizing c with
  | nil => exact ⟨rfl,rfl⟩
  | cons x l ih => exact ih (c.unlink x)

lemma adoptKeeps (done : adopt c d parent = some c') : c'.next = c.next ∧ Keeps c.heap c'.heap := by
  rcases parent with _ | q
  · cases done
    exact ⟨rfl,fun x e there => ⟨e,there,rfl⟩⟩
  obtain ⟨c1,took,rfl⟩ := map_eq_some_iff.mp done
  obtain ⟨next,keeps⟩ := drefKeeps took
  exact ⟨next,keeps⟩

structure Moved (d : Nat) (path : List Char) (c c' : Cache) : Prop where
  next : c'.next = c.next
  path : ∀ e, c'.heap d = some e → e.path = path
  others : ∀ x e', x ≠ d → c'.heap x = some e' → ∃ e, c.heap x = some e ∧ e' = { e with refcnt := e'.refcnt }

lemma Moved.keep (moved : Moved d path c c1) (next : c'.next = c1.next)
    (keeps : Keeps c1.heap c'.heap) : Moved d path c c' := by
  refine ⟨next.trans moved.next,fun e there => ?_,fun x e' ne there => ?_⟩
  · obtain ⟨e1,here,eq⟩ := keeps d e there
    rw [eq]
    exact moved.path e1 here
  obtain ⟨e1,here,eq⟩ := keeps x e' there
  obtain ⟨e0,before,eq0⟩ := moved.others x e1 ne here
  exact ⟨e0,before,by rw [eq,eq0]⟩

lemma dentryMoved (done : dentryMove c d parent path = some c') : Moved d path c c' := by
  obtain ⟨e,live,done⟩ := bind_eq_some_iff.mp done
  obtain ⟨c1,took,done⟩ := bind_eq_some_iff.mp done
  obtain ⟨next,keeps⟩ := adoptKeeps took
  have same : ∀ b : Bool, (if b then { c with kids := remove c.kids d } else c).next = c.next ∧
    (if b then { c with kids := remove c.kids d } else c).heap = c.heap := by
    intro b
    cases b <;> exact ⟨rfl,rfl⟩
  rw [(same _).1] at next
  rw [(same _).2] at keeps
  obtain ⟨heap,next'⟩ := unlinkAll (walk c1.kids c1.next (.first d)) c1
  obtain ⟨e',_,done⟩ := bind_eq_some_iff.mp done
  have moved : Moved d path c ((((dentryChildrenRemove c1 d).unlink d).write d
    { e' with path := path, parent := parent }).insertHead (.bucket (dentryHash e.mount path)) d) := by
    refine ⟨next'.trans next,fun e'' there => ?_,fun x e'' ne there => ?_⟩
    · simp only [Cache.insertHead,Cache.write,update_self,some.injEq] at there
      rw [← there]
    have there : (dentryChildrenRemove c1 d).heap x = some e'' := (update_of_ne ne _ _).symm.trans there
    rw [dentryChildrenRemove,heap] at there
    exact keeps x e'' there
  split at done
  · cases done
    exact moved
  · exact moved.keep (dreleNext done) (dreleKeeps done)

lemma releasesKeeps (done : releases c ds = some c') : c'.next = c.next ∧ Keeps c.heap c'.heap := by
  induction ds generalizing c with
  | nil =>
    cases done
    exact ⟨rfl,fun x e there => ⟨e,there,rfl⟩⟩
  | cons x ds ih =>
    obtain ⟨c1,first,rest⟩ := bind_eq_some_iff.mp done
    obtain ⟨next,keeps⟩ := ih rest
    exact ⟨next.trans (dreleNext first),Keeps.trans (dreleKeeps first) keeps⟩

lemma finishMoved (done : renameFinish c p = some c') : Moved p.dp1 p.dname c c' := by
  obtain ⟨c1,move,done⟩ := bind_eq_some_iff.mp done
  obtain ⟨next,keeps⟩ := releasesKeeps done
  refine (dentryMoved move).keep (next.trans ?_) ?_
  · cases p.dp2 <;> rfl
  · cases dp2 : p.dp2 <;> rw [dp2] at keeps <;> exact keeps

lemma finishOff (clean : '/' ∉ p.dname) (old : p.dp1 < c.next) (done : renameFinish c p = some c') : Off p.dp1 c' := by
  have moved := finishMoved done
  refine ⟨moved.next ▸ old,fun e live head => clean ?_⟩
  rw [← moved.path e live]
  exact mem_of_mem_head? head

/-! A rename of a dentry that nobody else refers to. -/

lemma goodReleases (good : Good s) (counts : ∀ d, ds.count d ≤ s.held d) :
    ∃ c held, releases s.cache ds = some c ∧ Good ⟨c,held,s.removed⟩ := by
  induction ds generalizing s with
  | nil => exact ⟨s.cache,s.held,rfl,good⟩
  | cons x ds ih => ?_
  obtain ⟨lists,kids,inv⟩ := good
  have own : 0 < s.held x := by
    have := counts x
    rw [count_cons_self] at this
    omega
  obtain ⟨c,first,next⟩ := inv.release own
  obtain ⟨c',held,rest,last⟩ := ih next fun d => by
    have := counts d
    rw [count_cons] at this
    simp only [update_apply]
    grind
  exact ⟨c',held,by rw [releases,foldlM_cons,first]; exact rest,last⟩

lemma showComponents (proper : Proper ns) : components (showPath ns false) = ns := by
  by_cases empty : ns = []
  · subst empty
    decide
  rw [showPath,if_neg empty,tailOf,slashIf]
  simpa using segmentsFlat proper

lemma CachedTree.climbs (tree : CachedTree s) {ms : Names} (proper : Proper ns)
    (named : Named s mp (showPath ns false) d) (above : ms <+: ns) (other : ms ≠ ns) :
    ∃ q x ex, Named s mp (showPath ms false) q ∧ s.cache.heap x = some ex ∧ ex.parent = some q := by
  induction ns using reverseRecOn generalizing d with
  | nil => exact absurd (prefix_nil.mp above) other
  | append_singleton ns n ih => ?_
  obtain ⟨kept,e,live,rfl,path⟩ := named
  obtain ⟨ks,clean,shown,up⟩ := tree.named d e live kept
  have same : ks = ns ++ [n] := by rw [← showComponents clean,← shown,path,showComponents proper]
  subst same
  obtain ⟨q,parent,named⟩ := up (by simp)
  rw [dropLast_concat] at named
  have upper := (prefix_concat_iff.mp above).resolve_left other
  by_cases here : ms = ns
  · subst here
    exact ⟨q,d,e,named,live,parent⟩
  · exact ih (fun x mem => proper x (mem_append_left _ mem)) named upper here

lemma Holding.alone {lists : Head → List Nat} {kids : Nat → List Nat} (holding : Holding s p) (inv : Inv s lists kids)
    (live : s.cache.heap p.dp1 = some e) (single : e.refcnt = 1) :
    kids p.dp1 = [] ∧ p.ddp2 ≠ p.dp1 ∧ 0 < s.held p.dp1 := by
  have count := (inv.count _ _ live).1
  have own := holding.counts p.dp1
  simp only [count_append,count_cons,count_nil,beq_self_eq_true,if_true] at own
  refine ⟨length_eq_zero_iff.mp (by omega),fun same => ?_,by omega⟩
  rw [same,beq_self_eq_true,if_pos rfl] at own
  omega

lemma renameFinishes (tree : CachedTree s) (holding : Holding s p) (short : p.dname.length < pathMax)
    (live : s.cache.heap p.dp1 = some e) (single : e.refcnt = 1) :
    ∃ c held removed, renameFinish s.cache p = some c ∧ Good ⟨c,held,removed⟩ ∧
      ∀ d, removed d = false → s.removed d = false := by
  obtain ⟨lists,kids,inv⟩ := tree.good
  obtain ⟨childless,apart,own⟩ := holding.alone inv live single
  have leaf : Leaf s p.dp1 (some p.ddp2) := by
    refine ⟨fun x _ => ?_,fun eq => apart (some.inj eq),holding.kept.1⟩
    rcases child : isChild s.cache p.dp1 x with _ | _
    · rfl
    unfold isChild at child
    split at child
    · cases child
    rename_i ex there
    have mem := (inv.child _ x).mpr ⟨ex,there,of_decide_eq_true child⟩
    rw [childless] at mem
    cases mem
  have held : ∀ d ∈ p.dp2.toList ++ [p.ddp2,p.dp1,p.ddp1], 0 < s.held d := fun d mem =>
    lt_of_lt_of_le (count_pos_iff.mpr mem) (holding.counts d)
  have parent : HeldParent s (some p.ddp2) := fun q eq => some.inj eq ▸ held _ (by simp)
  obtain ⟨c1,moved,good⟩ := inv.moves holding.room own parent short leaf
  rcases dp2 : p.dp2 with _ | x
  · obtain ⟨c,held,left,good⟩ := goodReleases good holding.counts
    refine ⟨c,held,s.removed,?_,good,fun _ => id⟩
    simp only [renameFinish,moved,bind,bind_some]
    rw [dp2] at left ⊢
    exact left
  obtain ⟨lists',kids',inv'⟩ := good
  obtain ⟨ex,there⟩ := inv'.live (held x (by simp [dp2]))
  have good := inv'.unlinks there (holding.kept.2 x dp2)
  obtain ⟨c,held,left,good⟩ := goodReleases good holding.counts
  refine ⟨c,held,_,?_,good,fun d kept => ?_⟩
  · simp only [renameFinish,moved,bind,bind_some]
    rw [dp2] at left ⊢
    exact left
  simp only [update_apply] at kept
  grind

theorem renameCoherent {F : Files} {src dest : List Char}
    (prepared : renamePrepare W F c src dest = some (s.cache,.ok p))
    (accepted : vopRename F s.cache (stripped src).1 p = some (.ok ())) (fits : dest.length < pathMax)
    (tree : CachedTree s) (holding : Holding s p) (live : s.cache.heap p.dp1 = some e) (after : World) :
    (∃ c', sysRename W F c src dest = some (c',.ok ()) ∧ Coherent after e p.dp1 dest c') ↔ e.refcnt = 1 := by
  obtain ⟨clean,short⟩ := preparedName prepared
  have whole : sysRename W F c src dest = (renameFinish s.cache p).map fun c' => (c',.ok ()) := by
    simp only [sysRename,prepared,accepted,bind,bind_some]
    cases renameFinish s.cache p <;> rfl
  rw [whole]
  constructor
  · rintro ⟨c',done,coherent⟩
    obtain ⟨lists,kids,inv⟩ := tree.good
    obtain ⟨c1,finish,eq⟩ := map_eq_some_iff.mp done
    cases eq
    have off := finishOff clean (inv.below live) finish
    by_contra more
    have positive := inv.count _ _ live
    obtain ⟨c2,found⟩ := coherent.same (by omega)
    exact off.loop found rfl
  intro single
  obtain ⟨c',held,removed,finish,⟨lists,kids,inv⟩,before⟩ := renameFinishes tree holding (by omega) live single
  have moved := finishMoved finish
  refine ⟨c',by rw [finish]; rfl,⟨fun path under => ?_,fun more => absurd more (by omega)⟩⟩
  obtain ⟨head,short,above⟩ := under
  rcases found : dentryFind c' e.mount path with _ | d
  · rfl
  obtain ⟨kept,e1,there,mount,rfl⟩ := inv.holds.found e.mount path d short found
  have other : d ≠ p.dp1 := by
    rintro rfl
    rw [moved.path e1 there] at head
    exact clean (mem_of_mem_head? head)
  obtain ⟨e0,here,eq⟩ := moved.others d e1 other there
  have named : Named s e.mount e1.path d := ⟨before d kept,e0,here,by rw [← mount,eq],by rw [eq]⟩
  have renamed : Named s e.mount e.path p.dp1 := ⟨holding.kept.1,e,live,rfl,rfl⟩
  obtain ⟨ns,proper,shown,_⟩ := tree.named d e0 here (before d kept)
  obtain ⟨ms,clean',old,_⟩ := tree.named _ e live holding.kept.1
  have path : e1.path = showPath ns false := by rw [eq]; exact shown
  rw [path] at above named
  rw [old] at above renamed
  rw [showComponents proper,showComponents clean'] at above
  by_cases same : ms = ns
  · exact absurd (tree.unique _ _ _ _ named (same ▸ renamed)) other
  obtain ⟨q,x,ex,up,child,parent⟩ := tree.climbs proper named above same
  rw [tree.unique _ _ _ _ up renamed] at parent
  obtain ⟨lists',kids',inv'⟩ := tree.good
  have mem := (inv'.child p.dp1 x).mpr ⟨ex,child,parent⟩
  rw [(holding.alone inv' live single).1] at mem
  cases mem

def dirWorld : World where
  mounts := [⟨7,['/'],0⟩]
  lookup
    | 1,['a'] => .ok 2
    | 2,['x'] => .ok 3
    | 3,['f'] => .ok 4
    | _,_ => .error .ENOENT
  vtype
    | 4 => .VREG
    | _ => .VDIR
  readlink _ := .error (.vop 22)
  memory := true
  maxSymlinks := 8

def willing : Files where
  access _ := .ok ()
  emptyDir _ := true
  rename _ _ _ _ _ _ := .ok ()
  mountOf _ := 7

def cached (ops : List Op) : State := (Runs.replay step emptyCache ops).getD emptyCache
def mounted : List Op := [.alloc true none 1 7 ['/']]

def fileOpen : List Op :=
  mounted ++ [.alloc true (some 0) 2 7 ['/','a'],.alloc true (some 1) 3 7 ['/','a','/','x'],
    .alloc true (some 2) 4 7 ['/','a','/','x','/','f'],.drele 1,.drele 2]

lemma cachedGood {ops : List Op} (taken : (replay (guarded step Careful) emptyCache ops).isSome = true) :
    Good (cached ops) := by
  obtain ⟨t,taken⟩ := isSome_iff_exists.mp taken
  have run := replayGuarded taken
  rw [cached,run]
  exact goodReach (reachGuarded (.init emptyStarts) taken)

def hits : List Op := [.lookup 7 ['/'],.lookup 7 ['/','a'],.lookup 7 ['/']]
def misses : List Op := [.lookup 7 ['/'],.alloc true (some 0) 2 7 ['/','a'],.lookup 7 ['/']]

lemma prepared {c2 c3 : Cache} (root : pass dirWorld c ['/'] = some (c1,.found (some 0)) ∧ vnodeOf c1 0 = some 1)
    (source : nameiLastNofollow dirWorld c1 ['/','a'] 0 = some (c2,.ok 1) ∧ vnodeOf c2 1 = some 2)
    (again : pass dirWorld c2 ['/'] = some (c3,.found (some 0)) ∧ vnodeOf c3 0 = some 1)
    (target : nameiLastNofollow dirWorld c3 ['/','b'] 0 = some (c3,.error .ENOENT)) :
    renamePrepare dirWorld willing c ['/','a'] ['/','b'] = some (c3,.ok ⟨0,1,0,none,['b']⟩) := by
  have looked : ∀ {c c' path}, path = ['/','a'] ∨ path = ['/','b'] → pass dirWorld c ['/'] = some (c',.found (some 0)) →
    vnodeOf c' 0 = some 1 → lookup dirWorld c path = some (c',.ok 0) := by
    rintro c c' path (rfl | rfl) hit there <;>
    · change bind (nameiLoop dirWorld 7 c ['/']) _ = _
      unfold nameiLoop
      simp only [hit,bind,bind_some,there]
      rfl
  unfold renamePrepare
  rw [show stripped ['/','a'] = (['/','a'],false) by decide,show stripped ['/','b'] = (['/','b'],false) by decide]
  simp only [looked (.inl rfl) root.1 root.2,source.1,source.2,looked (.inr rfl) again.1 again.2,target,bind,bind_some]
  simp only [renameCheck,again.2]
  rfl

lemma hitsPrepared : renamePrepare dirWorld willing (cached fileOpen).cache ['/','a'] ['/','b'] =
      some ((cached (fileOpen ++ hits)).cache,.ok ⟨0,1,0,none,['b']⟩) :=
  @prepared _ (cached (fileOpen ++ hits.take 1)).cache (cached (fileOpen ++ hits.take 2)).cache _ ⟨rfl,rfl⟩ ⟨rfl,rfl⟩
    ⟨rfl,rfl⟩ rfl

lemma missesPrepared : renamePrepare dirWorld willing (cached mounted).cache ['/','a'] ['/','b'] =
      some ((cached (mounted ++ misses)).cache,.ok ⟨0,1,0,none,['b']⟩) :=
  @prepared _ (cached (mounted ++ misses.take 1)).cache (cached (mounted ++ misses.take 2)).cache _ ⟨rfl,rfl⟩ ⟨rfl,rfl⟩
    ⟨rfl,rfl⟩ rfl

lemma treeOf (good : Good s)
    (shown : ∀ d < s.cache.next, ∀ e ∈ s.cache.heap d, Proper (components e.path) ∧ e.path = showPath (components e.path) false)
    (up : ∀ d < s.cache.next, ∀ e ∈ s.cache.heap d, components e.path ≠ [] → ∃ p ∈ e.parent, s.removed p = false ∧
      ∃ above ∈ s.cache.heap p, above.mount = e.mount ∧ above.path = showPath (components e.path).dropLast false)
    (apart : ∀ d < s.cache.next, ∀ d' < s.cache.next, ∀ e ∈ s.cache.heap d, ∀ e' ∈ s.cache.heap d',
      e.path = e'.path → d = d') : CachedTree s := by
  obtain ⟨lists,kids,inv⟩ := good
  refine ⟨⟨lists,kids,inv⟩,fun d e live _ => ?_,fun mp path d d' first second => ?_⟩
  · obtain ⟨proper,path⟩ := shown d (inv.below live) e live
    exact ⟨_,proper,path,up d (inv.below live) e live⟩
  obtain ⟨_,e,live,_,rfl⟩ := first
  obtain ⟨_,e',live',_,same⟩ := second
  exact apart d (inv.below live) d' (inv.below live') e live e' live' same.symm

lemma missesTree : CachedTree (cached (mounted ++ misses)) :=
  treeOf (cachedGood rfl) (by decide) (by decide) (by decide)

lemma hitsTree : CachedTree (cached (fileOpen ++ hits)) :=
  treeOf (cachedGood rfl) (by decide) (by decide) (by decide)

lemma holdingOf {ops : List Op} (held : 2 ≤ (cached ops).held 0 ∧ 1 ≤ (cached ops).held 1)
    (kept : (cached ops).removed 1 = false) (root : (cached ops).cache.heap 0 = some ⟨4,1,7,['/'],none⟩) :
    Holding (cached ops) ⟨0,1,0,none,['b']⟩ := by
  refine ⟨fun d => ?_,⟨kept,nofun⟩,?_⟩
  · match d with
    | 0 => exact held.1
    | 1 => exact held.2
    | d+2 => exact zero_le _
  rintro q eq e there
  cases eq
  cases root.symm.trans there
  decide

theorem renameCoherentUnused : ∃ c, sysRename dirWorld willing (cached mounted).cache ['/','a'] ['/','b'] = some (c,.ok ()) ∧
      dentryFind c 7 ['/','a'] = none := by
  have root : (cached (mounted ++ misses)).cache.heap 0 = some ⟨4,1,7,['/'],none⟩ := rfl
  have dir : (cached (mounted ++ misses)).cache.heap 1 = some ⟨1,2,7,['/','a'],some 0⟩ := rfl
  have holding := @holdingOf (mounted ++ misses) (by decide) rfl root
  obtain ⟨c,done,coherent⟩ :=
    (renameCoherent missesPrepared rfl (by decide) missesTree holding dir dirWorld).mpr rfl
  exact ⟨c,done,coherent.gone _ ⟨rfl,by decide,prefix_refl _⟩⟩

def renamedWorld : World :=
  { dirWorld with
    lookup := fun v name => if v = 1 ∧ name = ['b'] then .ok 2 else if v = 1 then .error .ENOENT else dirWorld.lookup v name }

theorem openFileForked : CachedTree (cached (fileOpen ++ hits)) ∧ Holding (cached (fileOpen ++ hits)) ⟨0,1,0,none,['b']⟩ ∧
    renamePrepare dirWorld willing (cached fileOpen).cache ['/','a'] ['/','b'] =
      some ((cached (fileOpen ++ hits)).cache,.ok ⟨0,1,0,none,['b']⟩) ∧
    (cached (fileOpen ++ hits)).cache.heap 1 = some ⟨2,2,7,['/','a'],some 0⟩ ∧
    let out := sysRename dirWorld willing (cached fileOpen).cache ['/','a'] ['/','b']
    out.map Prod.snd = some (.ok ()) ∧
    (out.bind fun (c,_) => dentryFind c 7 ['/','a','/','x','/','f']) = some 3 ∧
    (out.bind fun (c,_) => (namei renamedWorld c ['/','b']).map Prod.snd) = some (.ok (some 4)) := by
  refine ⟨hitsTree,?_,hitsPrepared,by decide +kernel,by decide +kernel,by decide +kernel,by decide +kernel⟩
  exact @holdingOf (fileOpen ++ hits) (by decide) rfl rfl

end OsvKernel.Rename
