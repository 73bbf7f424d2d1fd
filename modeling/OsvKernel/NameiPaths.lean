import OsvKernel.Namei

/-! Path resolution on lists of names, and how the strings of namei show them. -/
namespace OsvKernel.Namei
open List Option Dentry PathConv Segments

abbrev Names := List (List Char)
def slashIf (slash : Bool) : List Char := if slash then ['/'] else []
def tailOf (names : Names) (slash : Bool) : List Char := flat '/' names ++ slashIf slash
def showPath (names : Names) (slash : Bool) : List Char := if names = [] then ['/'] else tailOf names slash

/-! The meaning of a path. -/

def nearerNames (names : Names) (best : Option Mount) (m : Mount) : Option Mount :=
  if components m.path <+: names ∧ ∀ b ∈ best, (components b.path).length < (components m.path).length then some m
  else best

def findMount (mounts : List Mount) (names : Names) : Option Mount := mounts.foldl (nearerNames names) none

inductive Found where
  | ok (m : Mount) (names : Names) (vnode : Nat)
  | error (e : Errno)
  | link (dir rest : Names) (target : List Char)

def specWalk (W : World) (m : Mount) (slash : Bool) : Nat → Names → Names → Found
  | v,done,[] => .ok m done v
  | v,done,c::rest =>
    match W.lookup v c with
    | .error e => .error e
    | .ok w =>
      if W.vtype w = .VLNK then
        match W.readlink w with
        | .error e => .error e
        | .ok target => .link (components m.path ++ done) rest target
      else if (rest ≠ [] ∨ slash = true) ∧ W.vtype w ≠ .VDIR then .error .ENOTDIR
      else specWalk W m slash w (done ++ [c]) rest

def specPass (W : World) (rootOf : Mount → Nat) (names : Names) (slash : Bool) : Found :=
  match findMount W.mounts names with
  | none => .error .ENOTDIR
  | some m => specWalk W m slash (rootOf m) [] (names.drop (components m.path).length)

def join (dir : Names) (target : List Char) : Names :=
  normalise (if target.head? = some '/' then [] else dir) (components target)

def asks (target : List Char) : Bool :=
  match target.splitOn '/' with
  | [n] => n = []
  | pieces => pieces.getLast? = some [] ∨ pieces.getLast? = some dot

def slashAfter (rest : Names) (slash : Bool) (target : List Char) : Bool := slash || (rest.isEmpty && asks target)

inductive Result where
  | ok (m : Mount) (names : Names) (vnode : Nat)
  | error (e : Errno)

abbrev Proper (names : Names) : Prop := ∀ n ∈ names, Segment '/' n

lemma matchLoopWhole (path root : List Char) (len : Nat) (inside : root <+: path) :
    matchLoop path root len = (len + root.length,path.drop root.length,[]) := by
  induction root generalizing path len with
  | nil => cases path <;> rfl
  | cons d root ih => ?_
  obtain ⟨rest,rfl⟩ := inside
  have next := ih (root ++ rest) (len + 1) ⟨rest,rfl⟩
  simp only [cons_append,matchLoop,ne_eq,not_true_eq_false,if_false,next,length_cons,drop_succ_cons]
  congr 1
  omega

lemma matchLoopPart {path root : List Char} (len : Nat) (differ : ¬ root <+: path) :
    (matchLoop path root len).2.2 ≠ [] := by
  induction root generalizing path len with
  | nil => exact absurd nil_prefix differ
  | cons d root ih => ?_
  rcases path with _ | ⟨c,path⟩
  · simp [matchLoop]
  simp only [matchLoop]
  split
  · simp
  rename_i same
  refine ih _ fun inside => differ ?_
  rw [Decidable.not_not.mp same]
  exact cons_prefix_cons.mpr ⟨rfl,inside⟩

lemma tailOfHead (names : Names) (slash : Bool) : tailOf names slash = [] ∨ (tailOf names slash).head? = some '/' := by
  cases names with
  | nil => cases slash <;> simp [tailOf,slashIf]
  | cons n names => simp [tailOf]

variable {l target : List Char} {ms names rest : Names} {slash : Bool} {best : Option Mount} {m : Mount}
  {mounts : List Mount}

lemma takeSegment {n : List Char} (clean : '/' ∉ n) (ends : l = [] ∨ l.head? = some '/') :
    (n ++ l).takeWhile (· ≠ '/') = n ∧ (n ++ l).dropWhile (· ≠ '/') = l := by
  have all : ∀ c ∈ n, decide (c ≠ '/') = true := fun c mem => decide_eq_true fun same => clean (same ▸ mem)
  rw [takeWhile_append_of_pos all,dropWhile_append_of_pos all]
  rcases l with _ | ⟨c,l⟩
  · simp
  have same : c = '/' := by simpa using ends
  simp [same]

lemma flatLong {m : List Char} (filled : m ≠ []) (ms : Names) : 1 < (flat '/' (m::ms)).length := by
  have positive := length_pos_iff.mpr filled
  rw [flatCons,length_cons,length_append]
  omega

lemma flatPrefix {rest : List Char} (proper : Proper ms) (clean : Proper names)
    (ends : rest = [] ∨ rest.head? = some '/') (same : flat '/' ms ++ rest = tailOf names slash) : ms <+: names := by
  induction ms generalizing names with
  | nil => exact nil_prefix
  | cons m ms ih => ?_
  obtain ⟨filled,out⟩ := proper m (.head _)
  rcases names with _ | ⟨n,names⟩
  · have len := congrArg length same
    have long := flatLong filled ms
    have short : (tailOf [] slash).length ≤ 1 := by cases slash <;> decide
    rw [length_append] at len
    omega
  obtain ⟨_,out'⟩ := clean n (.head _)
  have same : m ++ (flat '/' ms ++ rest) = n ++ tailOf names slash := by simpa [tailOf,append_assoc] using same
  have head : flat '/' ms ++ rest = [] ∨ (flat '/' ms ++ rest).head? = some '/' := by
    cases ms with
    | nil => simpa using ends
    | cons => simp
  have first := (takeSegment out head).1.symm.trans ((congrArg _ same).trans (takeSegment out' (tailOfHead names slash)).1)
  subst first
  have rest := ih (fun x mem => proper x (.tail _ mem)) (fun x mem => clean x (.tail _ mem))
    (append_cancel_left same)
  exact cons_prefix_cons.mpr ⟨rfl,rest⟩

lemma showPathHead (names : Names) (slash : Bool) : (showPath names slash).head? = some '/' := by
  cases names with
  | nil => rfl
  | cons n names => simp [showPath,tailOf]

lemma countMatchShown (slash : Bool) (proper : Proper ms) (clean : Proper names) :
    countMatch (showPath names slash) (showPath ms false) = if ms <+: names then (showPath ms false).length else 0 := by
  have head := showPathHead names slash
  by_cases whole : showPath ms false <+: showPath names slash
  · obtain ⟨rest,eq⟩ := whole
    have loop := matchLoopWhole (showPath names slash) (showPath ms false) 0 ⟨rest,eq⟩
    have left : (showPath names slash).drop (showPath ms false).length = rest := by rw [← eq,drop_left]
    simp only [countMatch,loop,left,Nat.zero_add,ne_eq,not_true_eq_false,if_false,head,and_true]
    rcases ms with _ | ⟨m,ms⟩
    · rw [if_pos (by rfl),if_pos nil_prefix]
      rfl
    have shown : showPath (m::ms) false = flat '/' (m::ms) := by simp [showPath,tailOf,slashIf]
    have long := flatLong (proper m (.head _)).1 ms
    rw [← shown] at long
    rw [if_neg (Nat.ne_of_gt long)]
    by_cases ends : rest = [] ∨ rest.head? = some '/'
    · have more : names ≠ [] := by
        rintro rfl
        have len := congrArg length eq
        have short : (showPath [] slash).length = 1 := rfl
        rw [length_append] at len
        omega
      rw [if_pos ends,if_pos (flatPrefix proper clean ends (by rw [← shown,eq,showPath,if_neg more]))]
    rw [if_neg ends,if_neg]
    rintro ⟨after,rfl⟩
    refine ends ?_
    rw [shown,showPath,if_neg (by simp)] at eq
    have : rest = tailOf after slash := by
      rw [tailOf,flatAppend,append_assoc] at eq
      exact append_cancel_left eq
    exact this ▸ tailOfHead after slash
  have part := matchLoopPart 0 whole
  simp only [countMatch,part,ne_eq,not_false_eq_true,if_true]
  rw [if_neg]
  rintro ⟨after,rfl⟩
  refine whole ?_
  cases ms
  case cons m ms => exact ⟨tailOf after slash,by simp [showPath,tailOf,slashIf]⟩
  cases after with
  | nil => exact prefix_refl _
  | cons n after => exact ⟨n ++ tailOf after slash,by simp [showPath,tailOf]⟩

lemma showSplit (slash : Bool) (more : ms ≠ []) :
    showPath (ms ++ rest) slash = showPath ms false ++ tailOf rest slash := by
  rw [showPath,if_neg (by simp [more]),showPath,if_neg more]
  simp [tailOf,slashIf]

lemma showLt (proper : Proper rest) (more : rest ≠ []) :
    (showPath ms false).length < (showPath (ms ++ rest) false).length := by
  obtain ⟨n,rest,rfl⟩ := exists_cons_of_ne_nil more
  have long := flatLong (proper n (.head _)).1 rest
  by_cases empty : ms = []
  · subst empty
    simpa [showPath,tailOf,slashIf] using long
  rw [showSplit false empty,length_append,tailOf,length_append]
  omega

lemma showLtIff {ks : Names} (clean : Proper names) (first : ms <+: names) (second : ks <+: names) :
    (showPath ms false).length < (showPath ks false).length ↔ ms.length < ks.length := by
  constructor
  · intro lt
    by_contra le
    obtain ⟨rest,rfl⟩ := prefix_of_prefix_length_le second first (Nat.not_lt.mp le)
    have proper : Proper rest := fun n mem => clean n (first.subset (mem_append_right _ mem))
    by_cases more : rest = []
    · subst more
      simp at lt
    · exact Nat.lt_asymm lt (showLt proper more)
  intro lt
  obtain ⟨rest,rfl⟩ := prefix_of_prefix_length_le first second (Nat.le_of_lt lt)
  refine showLt (fun n mem => clean n (second.subset (mem_append_right _ mem))) ?_
  rintro rfl
  simp at lt

structure Mounted (W : World) : Prop where
  shown : ∀ m ∈ W.mounts, m.path = showPath (components m.path) false
  named : ∀ m ∈ W.mounts, ∀ n ∈ components m.path, Name n
  numbered : ∀ m ∈ W.mounts, ∀ k ∈ W.mounts, m.id = k.id → m = k

lemma showPos (names : Names) (slash : Bool) : 0 < (showPath names slash).length := by
  cases names with
  | nil => exact Nat.one_pos
  | cons n names => simp [showPath,tailOf]

def measured (m : Mount) : Mount × Nat := (m,(showPath (components m.path) false).length)

lemma nearerShown (slash : Bool) (clean : Proper names)
    (shown : m.path = showPath (components m.path) false) (proper : Proper (components m.path))
    (above : ∀ b ∈ best, components b.path <+: names) :
    nearer (showPath names slash) (best.map measured) m = (nearerNames names best m).map measured := by
  have count := countMatchShown slash proper clean
  rw [← shown] at count
  simp only [nearer,nearerNames,count]
  by_cases inside : components m.path <+: names
  swap
  · simp only [inside,if_false,false_and]
    exact if_neg (by simp)
  simp only [inside,if_true,true_and]
  rcases best with _ | b
  · have positive := showPos (components m.path) false
    rw [← shown] at positive
    rw [if_pos (by simpa using positive),if_pos (by simp)]
    simp [measured,← shown]
  have iff := showLtIff clean (above b rfl) inside
  rw [← shown] at iff
  simp only [map_some,measured,elim_some,gt_iff_lt,iff,mem_def,some.injEq,forall_eq']
  split
  · simp [measured,← shown]
  · rfl

lemma nearerAbove (above : ∀ b ∈ best, components b.path <+: names) :
    ∀ b ∈ nearerNames names best m, components b.path <+: names := by
  intro b mem
  unfold nearerNames at mem
  split at mem
  next here =>
    cases mem
    exact here.1
  next => exact above b mem

lemma findFold (slash : Bool) (clean : Proper names) (best : Option Mount)
    (shown : ∀ m ∈ mounts, m.path = showPath (components m.path) false)
    (above : ∀ b ∈ best, components b.path <+: names) :
    mounts.foldl (nearer (showPath names slash)) (best.map measured) =
      (mounts.foldl (nearerNames names) best).map measured := by
  induction mounts generalizing best with
  | nil => rfl
  | cons m mounts ih =>
    have here := nearerShown slash clean (shown m (.head _)) (fun n mem => segmentsMem mem) above
    rw [foldl_cons,foldl_cons,here]
    exact ih _ (fun k mem => shown k (.tail _ mem)) (nearerAbove above)

lemma foldMember (best : Option Mount)
    (above : ∀ b ∈ best, components b.path <+: names) (found : mounts.foldl (nearerNames names) best = some m) :
    (m ∈ mounts ∨ best = some m) ∧ components m.path <+: names := by
  induction mounts generalizing best with
  | nil => exact ⟨.inr found,above m found⟩
  | cons k mounts ih => ?_
  obtain ⟨here,inside⟩ := ih _ (nearerAbove above) found
  refine ⟨?_,inside⟩
  rcases here with mem | eq
  · exact .inl (.tail _ mem)
  unfold nearerNames at eq
  split at eq
  · cases eq
    exact .inl (.head _)
  · exact .inr eq

lemma findMember (found : findMount mounts names = some m) : m ∈ mounts ∧ components m.path <+: names := by
  obtain ⟨here,inside⟩ := foldMember none nofun found
  exact ⟨here.resolve_right nofun,inside⟩

lemma dropShown (ms : Names) (slash : Bool) (clean : Proper rest) :
    (let root := (showPath (ms ++ rest) slash).drop (showPath ms false).length
      if root.head? = some '/' then root.tail else root) = (tailOf rest slash).tail := by
  by_cases empty : ms = []
  · subst empty
    rcases rest with _ | ⟨n,rest⟩
    · cases slash <;> rfl
    obtain ⟨filled,out⟩ := clean n (.head _)
    obtain ⟨c,n,rfl⟩ := exists_cons_of_ne_nil filled
    have other : c ≠ '/' := fun same => out (same ▸ (.head _))
    simp [showPath,tailOf,other]
  rw [showSplit slash empty,drop_left]
  rcases tailOfHead rest slash with nil | head
  · simp [nil]
  · simp [head]

lemma findrootShown {W : World} (mounted : Mounted W) (slash : Bool) (clean : Proper names) :
    vfsFindroot W.mounts (showPath names slash) =
      (findMount W.mounts names).map fun m => (m,(tailOf (names.drop (components m.path).length) slash).tail) := by
  have fold := findFold slash clean none mounted.shown nofun
  rw [map_none] at fold
  rw [vfsFindroot,fold,findMount]
  rcases found : W.mounts.foldl (nearerNames names) none with _ | m
  · rfl
  obtain ⟨rest,eq⟩ := (findMember found).2
  have proper : Proper rest := fun n mem => clean n (eq ▸ mem_append_right _ mem)
  have drop := dropShown (components m.path) slash proper
  rw [eq] at drop
  have left : names.drop (components m.path).length = rest := by rw [← eq,drop_left]
  simp only [map_some,measured,left]
  exact congrArg (fun p => some (m,p)) drop

/-! The path after a link. -/

def relink (dir rest : Names) (slash : Bool) (target fp : List Char) : List Char :=
  if target.head? = some '/' then cap (target ++ tailOf rest slash)
  else cap ((pathConv (flat '/' dir) target).getD fp ++ cap (tailOf rest slash))

def Leading (target : List Char) : Prop :=
  dotdot ∉ (components target).dropWhile fun n => n = dot ∨ n = dotdot

structure LinkFits (dir : Names) (target : List Char) : Prop where
  absolute : target.head? = some '/' → ∀ n ∈ components target, Name n
  relative : target.head? ≠ some '/' → dir ≠ [] ∧ Leading target ∧
    (target.head? = some '.' → (target.splitOn '/').head? = some dot ∨ (target.splitOn '/').head? = some dotdot)

-- The path that is left after a link.
def onward (dir rest : Names) (slash : Bool) (target : List Char) : List Char :=
  (if target.head? = some '/' then target else showPath (join dir target) (asks target)) ++ tailOf rest slash

lemma capShort (short : l.length < pathMax) : cap l = l := take_of_length_le (by omega)

end OsvKernel.Namei
