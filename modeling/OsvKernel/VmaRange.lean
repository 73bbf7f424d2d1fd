import OsvKernel.VmaSweep

/-! evacuate and protect as changes of what each address of the range is mapped to.
An attribute is the kind with the file offset of the address itself, the permission
and the flags. -/
namespace OsvKernel.VmaList
open List Option Nat

def Within (v p : Vma) : Prop := v.start ≤ p.start ∧ p.stop ≤ v.stop ∧ (p.start < p.stop ∨ p.start = v.start ∧ p.stop = v.stop)

structure Replaces (v : Vma) (ps : List Vma) : Prop where
  ordered : ps.Pairwise Before
  within : ∀ p ∈ ps, Within v p
  fit : ∀ p ∈ ps, Fit p
  solid : v.kind ≠ .balloon → ∀ p ∈ ps, p.kind ≠ .balloon

def Keeps (v : Vma) (ps : List Vma) : Prop := v.start = v.stop → ∃ p ∈ ps, p.start = v.start ∧ p.stop = v.stop

variable {p v w : Vma} {f : Vma → List Vma} {l A B M : List Vma} {perm : BitVec 32} {a : Nat}

lemma Before.within {q : Vma} (order : Before v w) (left : Within v p) (right : Within w q) : Before p q := by
  obtain ⟨less,apart⟩ := order
  obtain ⟨_,high,spread⟩ := left
  have low := right.1
  refine ⟨?_,by omega⟩
  rcases spread with some | same
  · omega
  omega

lemma Within.refl : Within v v := ⟨Nat.le_refl _,Nat.le_refl _,.inr ⟨rfl,rfl⟩⟩

lemma Within.trans {u : Vma} (left : Within u v) (right : Within v w) : Within u w := by
  obtain ⟨low,high,spread⟩ := left
  obtain ⟨above,below,some⟩ := right
  exact ⟨by omega,by omega,by omega⟩

lemma orderedFlatMap (ordered : l.Pairwise Before) (each : ∀ v ∈ l, Replaces v (f v)) : (l.flatMap f).Pairwise Before := by
  refine pairwise_flatMap.mpr ⟨fun v mem => (each v mem).ordered,?_⟩
  refine ordered.imp_of_mem (fun {v w} left right order p mine q yours => ?_)
  exact order.within ((each v left).within p mine) ((each w right).within q yours)

lemma Inv.replace (h : Inv (A ++ (M ++ B))) (each : ∀ v ∈ M, Replaces v (f v))
    (keeps : ∀ v ∈ M, Keeps v (f v)) : Inv (A ++ (M.flatMap f ++ B)) := by
  obtain ⟨front,tail,across⟩ := pairwise_append.mp h.ordered
  obtain ⟨middle,back,beyond⟩ := pairwise_append.mp tail
  have member : ∀ v ∈ A ++ (M ++ B), ∀ t, v.start = t ∧ v.stop = t →
    ∃ p ∈ A ++ (M.flatMap f ++ B), p.start = t ∧ p.stop = t := by
    rintro v mem t ⟨low,high⟩
    rcases mem_append.mp mem with before | rest
    · exact ⟨v,mem_append_left _ before,low,high⟩
    rcases mem_append.mp rest with inside | after
    · obtain ⟨p,new,one,two⟩ := keeps v inside (low.trans high.symm)
      exact ⟨p,mem_append_right _ (mem_append_left _ (mem_flatMap.mpr ⟨v,inside,new⟩)), one.trans low,two.trans high⟩
    · exact ⟨v,mem_append_right _ (mem_append_right _ after),low,high⟩
  refine ⟨?_,fun p mem => ?_,?_,?_⟩
  · refine pairwise_append.mpr ⟨front,pairwise_append.mpr ⟨orderedFlatMap middle each,back,?_⟩,?_⟩
    · intro p mem b after
      obtain ⟨v,inside,new⟩ := mem_flatMap.mp mem
      exact (beyond v inside b after).within ((each v inside).within p new) Within.refl
    · intro a before p mem
      rcases mem_append.mp mem with new | after
      · obtain ⟨v,inside,part⟩ := mem_flatMap.mp new
        exact (across a before v (mem_append_left _ inside)).within Within.refl ((each v inside).within p part)
      · exact across a before p (mem_append_right _ after)
  · rcases mem_append.mp mem with before | rest
    · exact h.fit p (mem_append_left _ before)
    · rcases mem_append.mp rest with new | after
      · obtain ⟨v,inside,part⟩ := mem_flatMap.mp new
        exact (each v inside).fit p part
      · exact h.fit p (mem_append_right _ (mem_append_right _ after))
  · obtain ⟨v,mem,zero⟩ := h.low
    exact member v mem 0 zero
  obtain ⟨v,mem,top⟩ := h.high
  exact member v mem sentinelEnd top

structure Plain (l : List Vma) : Prop where
  inv : Inv l
  solid : ∀ v ∈ l, v.kind ≠ .balloon

lemma Plain.replace (h : Plain (A ++ (M ++ B)))
    (each : ∀ v ∈ M, Replaces v (f v)) (keeps : ∀ v ∈ M, Keeps v (f v)) : Plain (A ++ (M.flatMap f ++ B)) := by
  refine ⟨h.inv.replace each keeps,fun p mem => ?_⟩
  rcases mem_append.mp mem with before | rest
  · exact h.solid p (mem_append_left _ before)
  rcases mem_append.mp rest with new | after
  · obtain ⟨v,inside,part⟩ := mem_flatMap.mp new
    exact (each v inside).solid (h.solid v (mem_append_right _ (mem_append_left _ inside))) p part
  · exact h.solid p (mem_append_right _ (mem_append_right _ after))

lemma Replaces.flatMap {ps : List Vma} (parts : Replaces v ps)
    (each : ∀ p ∈ ps, Replaces p (f p)) : Replaces v (ps.flatMap f) := by
  refine ⟨orderedFlatMap parts.ordered each,fun q mem => ?_,fun q mem => ?_,fun solid q mem => ?_⟩
  · obtain ⟨p,inside,new⟩ := mem_flatMap.mp mem
    exact (parts.within p inside).trans ((each p inside).within q new)
  · obtain ⟨p,inside,new⟩ := mem_flatMap.mp mem
    exact (each p inside).fit q new
  obtain ⟨p,inside,new⟩ := mem_flatMap.mp mem
  exact (each p inside).solid (parts.solid solid p inside) q new

lemma Replaces.single (fit : Fit p) (start : p.start = v.start) (stop : p.stop = v.stop)
    (kind : p.kind = v.kind) : Replaces v [p] := by
  refine ⟨pairwise_singleton _ _,fun q mem => ?_,fun q mem => ?_,fun solid q mem => ?_⟩
  · rw [mem_singleton.mp mem]
    exact ⟨le_of_eq start.symm,le_of_eq stop,.inr ⟨start,stop⟩⟩
  · exact mem_singleton.mp mem ▸ fit
  rw [mem_singleton.mp mem,kind]
  exact solid

variable {start stop : Nat} {skip : Vma → Bool} {check : Vma → Option Errno} {act : Vma → Option Vma}

def parts (start stop : Nat) (v : Vma) : List Vma := firstPart start stop v::laterParts start stop v

lemma lowerWithin (edge : Nat) (v : Vma) : Within v (lower edge v) := by
  by_cases inside : Inside edge v
  · rw [lowerIn inside]
    exact ⟨le_refl _,le_of_lt inside.2,.inl inside.1⟩
  rw [lowerOut inside]
  exact Within.refl

lemma Fit.parts (h : Fit v) (one : start % 4096 = 0) (two : stop % 4096 = 0) : Replaces v (parts start stop v) := by
  refine ⟨?_,fun p mem => ?_,fun p mem => ?_,fun solid p mem => ?_⟩
  · have ordered := orderedParts start stop (pairwise_singleton Before v)
    rwa [append_nil] at ordered
  · rcases mem_cons.mp mem with rfl | later
    · exact (lowerWithin stop v).trans (lowerWithin start _)
    · rcases mem_append.mp later with front | back
      · obtain ⟨inside,rfl⟩ := upperCases front
        obtain ⟨first,last,_⟩ := lowerBounds stop v
        exact ⟨le_of_lt (first ▸ inside.1),last,.inl inside.2⟩
      · obtain ⟨inside,rfl⟩ := upperCases back
        exact ⟨le_of_lt inside.1,le_refl _,.inl inside.2⟩
  · rcases mem_cons.mp mem with rfl | later
    · exact (h.lower two).lower one
    · exact h.later one two later
  rcases mem_cons.mp mem with rfl | later
  · have kind := (lowerBounds start (VmaList.lower stop v)).2.2.1.trans (lowerBounds stop v).2.2.1
    exact kind ▸ solid
  · exact laterSolid solid later

lemma treatedParts (unskipped : skip v = false) :
    treated start stop skip act v = (parts start stop v).flatMap (finish start stop act) := by
  unfold treated parts
  rw [if_neg (by simp [unskipped]),flatMap_cons]

lemma Found.fit (f : Found l start stop A M B) (h : Inv l) : ∀ v ∈ M, Fit v :=
  fun v mem => h.fit v (f.list ▸ mem_append_right _ (mem_append_left _ mem))

lemma Found.front (f : Found l start stop A M B) (h : Inv l) (low : 0 < start) (lt : start < stop) : A ≠ [] := by
  rintro rfl
  obtain ⟨v,mem,zero,empty⟩ := h.low
  rw [f.list,nil_append] at mem
  rcases mem_append.mp mem with inside | after
  · have := (f.inside v inside).2
    omega
  have := f.above v after
  omega

lemma Found.spread (f : Found l start stop A M B) (h : Inv l) (low : 0 < start)
    (high : stop ≤ sentinelEnd) : ∀ v ∈ M, v.start ≠ v.stop := by
  intro v mem empty
  obtain ⟨near,reach⟩ := f.inside v mem
  rcases (f.fit h v mem).nonempty empty with zero | top
  · omega
  omega

lemma Found.spec (f : Found l start stop A M B) (h : Inv l) (u : Uniform skip check)
    (low : 0 < start) (lt : start < stop) (one : start % 4096 = 0) (two : stop % 4096 = 0) :
    overRange l start stop (visit start stop skip check act) = swept start stop skip check act B A M := by
  have ordered := h.ordered
  rw [f.list] at ordered
  have enough : (M.map (weight start stop)).sum < 3*l.length+1 := by
    have le := weightsLe start stop M
    have shorter := congrArg length f.list
    rw [length_append,length_append] at shorter
    omega
  rw [f.over h.ordered]
  exact sweepSpec u (le_of_lt lt) one two (pairwise_append.mp ordered).2.1 (f.fit h) enough (f.front h low lt)

lemma uniformEvacuate : Uniform (fun _ => false) (fun _ => none) :=
  ⟨fun _ _ => rfl,fun _ _ => rfl,fun _ _ => rfl,fun _ _ => rfl⟩

lemma uniformProtect (perm : BitVec 32) : Uniform (fun v => v.perm == perm) (fun v => v.validatePerm perm) :=
  ⟨fun _ _ => rfl,fun _ _ => rfl,fun _ _ => rfl,fun v edge => validateShift v edge perm⟩

lemma evacuateReplaces (fit : Fit v) (one : start % 4096 = 0) (two : stop % 4096 = 0) :
    Replaces v (treated start stop (fun _ => false) (fun _ => none) v) := by
  rw [treatedParts rfl]
  refine (fit.parts one two).flatMap (fun p mem => ?_)
  unfold finish
  split
  · exact ⟨Pairwise.nil,by simp,by simp,by simp⟩
  · exact Replaces.single ((fit.parts one two).fit p mem) rfl rfl rfl

lemma evacuateSpec (h : Inv l) (low : 0 < start) (lt : start < stop) (high : stop ≤ sentinelEnd)
    (one : start % 4096 = 0) (two : stop % 4096 = 0)
    (solid : ∀ v ∈ l, v.start < stop → start < v.stop → v.kind ≠ .balloon) :
    ∃ A M B, Found l start stop A M B ∧
      evacuate l start stop = .done (A ++ (M.flatMap (treated start stop (fun _ => false) (fun _ => none)) ++ B)) ∧
      Inv (A ++ (M.flatMap (treated start stop (fun _ => false) (fun _ => none)) ++ B)) := by
  obtain ⟨A,M,B,f⟩ := h.found lt (by omega)
  have spread := f.spread h low high
  refine ⟨A,M,B,f,?_,?_⟩
  · refine (f.spec h uniformEvacuate low lt one two).trans (sweptGood (fun v mem => .inr ⟨rfl,?_⟩) A)
    obtain ⟨near,reach⟩ := f.inside v mem
    have le := (f.fit h v mem).le
    have ne := spread v mem
    have there : v ∈ l := f.list ▸ mem_append_right _ (mem_append_left _ mem)
    exact solid v there near (by omega)
  have whole := h
  rw [f.list] at whole
  exact whole.replace (fun v mem => evacuateReplaces (f.fit h v mem) one two)
    (fun v mem empty => absurd empty (spread v mem))

lemma protectFit (fit : Fit p) (passed : p.validatePerm perm = none) :
    Fit { p with perm := perm } :=
  ⟨fit.startPage,fit.stopPage,fit.le,fit.top,fit.nonempty,passed,fit.small⟩

lemma partsSame (u : Uniform skip check) (mem : p ∈ parts start stop v) : skip p = skip v ∧ check p = check v := by
  rcases mem_cons.mp mem with rfl | later
  · obtain ⟨one,two⟩ := u.lower stop v
    obtain ⟨three,four⟩ := u.lower start (lower stop v)
    exact ⟨three.trans one,four.trans two⟩
  · exact u.later later

lemma protectReplaces {v : Vma} {perm : BitVec 32} (fit : Fit v) (one : start % 4096 = 0) (two : stop % 4096 = 0)
    (good : Good (fun v => v.perm == perm) (fun v => v.validatePerm perm) v) :
    Replaces v (treated start stop (fun v => v.perm == perm) (fun v => some { v with perm := perm }) v) ∧
    Keeps v (treated start stop (fun v => v.perm == perm) (fun v => some { v with perm := perm }) v) := by
  cases skipped : v.perm == perm
  case true =>
    have whole : treated start stop (fun v => v.perm == perm) (fun v => some { v with perm := perm }) v = [v] :=
      if_pos skipped
    rw [whole]
    exact ⟨Replaces.single fit rfl rfl rfl,fun _ => ⟨v,by simp⟩⟩
  obtain ⟨passed,_⟩ := good.resolve_left (by simp [skipped])
  rw [treatedParts skipped]
  have same : ∀ p ∈ parts start stop v, p.validatePerm perm = none :=
    fun p mem => (partsSame (uniformProtect perm) mem).2.trans passed
  have each : ∀ p ∈ parts start stop v, ∃ q, finish start stop (fun v => some { v with perm := perm }) p = [q] ∧
    Fit q ∧ q.start = p.start ∧ q.stop = p.stop ∧ q.kind = p.kind := by
    intro p mem
    have part := (fit.parts one two).fit p mem
    unfold finish
    split
    · exact ⟨_,rfl,protectFit part (same p mem),rfl,rfl,rfl⟩
    · exact ⟨p,rfl,part,rfl,rfl,rfl⟩
  refine ⟨(fit.parts one two).flatMap (fun p mem => ?_),fun empty => ?_⟩
  · obtain ⟨q,eq,fits,first,last,kind⟩ := each p mem
    rw [eq]
    exact Replaces.single fits first last kind
  obtain ⟨q,eq,_,first,last,_⟩ := each (firstPart start stop v) (.head _)
  have inside := (lowerWithin stop v).trans (lowerWithin start (lower stop v))
  have bounds := ((fit.lower two).lower one).le
  refine ⟨q,mem_flatMap.mpr ⟨_,.head _,eq ▸ mem_singleton_self q⟩,?_,?_⟩
  · rw [first]
    exact (lowerBounds start _).1.trans (lowerBounds stop v).1
  rw [last]
  obtain ⟨low,high,_⟩ := inside
  unfold firstPart
  omega

def Result.All (P : List Vma → Prop) : Result → Prop
  | .done l => P l
  | .failed _ l => P l
  | .abort => True

lemma sweptPlain {perm : BitVec 32} (one : start % 4096 = 0) (two : stop % 4096 = 0) {before M B : List Vma}
    (h : Plain (before ++ (M ++ B))) : (swept start stop (fun v => v.perm == perm) (fun v => v.validatePerm perm)
      (fun v => some { v with perm := perm }) B before M).All Plain := by
  induction M generalizing before with
  | nil => exact h
  | cons v M ih => ?_
  rw [swept]
  split
  next good =>
    have fit : Fit v := h.inv.fit v (by simp)
    obtain ⟨replaces,keeps⟩ := @protectReplaces start stop v perm fit one two good
    have next := Plain.replace (A := before) (M := [v]) (B := M ++ B)
      (f := treated start stop (fun v => v.perm == perm) (fun v => some { v with perm := perm })) (by simpa using h)
      (fun w mem => mem_singleton.mp mem ▸ replaces) (fun w mem => mem_singleton.mp mem ▸ keeps)
    refine ih ?_
    simpa using next
  split
  · exact h
  · trivial

structure Attr where
  kind : Kind
  perm : BitVec 32
  flags : BitVec 32
  deriving DecidableEq

def Vma.Has (v : Vma) (a : Nat) : Prop := v.start ≤ a ∧ a < v.stop

instance (v : Vma) (a : Nat) : Decidable (v.Has a) := by
  unfold Vma.Has
  infer_instance

def Vma.attrAt (v : Vma) (a : Nat) : Attr := ⟨v.kind.shift (a - v.start),v.perm,v.flags⟩
def attr (l : List Vma) (a : Nat) : Option Attr := (l.find? (fun v => decide (v.Has a))).map (fun v => v.attrAt a)
def Shows (l : List Vma) (a : Nat) (x : Attr) : Prop := ∃ v ∈ l, v.Has a ∧ v.attrAt a = x

lemma hasUnique (ordered : l.Pairwise Before) (left : v ∈ l) (right : w ∈ l)
    (mine : v.Has a) (yours : w.Has a) : v = w := by
  by_contra ne
  have clash : ∀ x y : Vma, Before x y → x.Has a → y.Has a → False := by
    intro x y order one two
    have := order.2
    have := one.2
    have := two.1
    omega
  obtain ⟨C,D,rfl⟩ := append_of_mem left
  obtain ⟨_,tail,across⟩ := pairwise_append.mp ordered
  rcases mem_append.mp right with before | rest
  · exact clash w v (across w before v (.head _)) yours mine
  rcases mem_cons.mp rest with same | after
  · exact ne same.symm
  · exact clash v w ((pairwise_cons.mp tail).1 w after) mine yours

variable {x : Attr}

lemma attrShows (ordered : l.Pairwise Before) : attr l a = some x ↔ Shows l a x := by
  unfold attr
  rw [map_eq_some_iff]
  constructor
  · rintro ⟨v,found,rfl⟩
    exact ⟨v,mem_of_find?_eq_some found,by simpa using find?_some found,rfl⟩
  rintro ⟨v,mem,has,rfl⟩
  cases found : l.find? (fun v => decide (v.Has a)) with
  | none => exact absurd has (by simpa using find?_eq_none.mp found v mem)
  | some w =>
    have same := hasUnique ordered (mem_of_find?_eq_some found) mem (by simpa using find?_some found) has
    exact ⟨w,rfl,by rw [same]⟩

lemma showsAppend {m : List Vma} : Shows (l ++ m) a x ↔ Shows l a x ∨ Shows m a x := by
  unfold Shows
  simp only [mem_append,or_and_right,exists_or]

lemma showsCons : Shows (v::l) a x ↔ (v.Has a ∧ v.attrAt a = x) ∨ Shows l a x := by
  simp [Shows]

lemma showsFlatMap : Shows (l.flatMap f) a x ↔ ∃ v ∈ l, Shows (f v) a x := by
  unfold Shows
  simp only [mem_flatMap]
  constructor
  · rintro ⟨p,⟨v,mem,new⟩,rest⟩
    exact ⟨v,mem,p,new,rest⟩
  rintro ⟨v,mem,p,new,rest⟩
  exact ⟨p,⟨v,mem,new⟩,rest⟩

lemma attrBeyond {edge : Nat} (low : v.start ≤ edge) (high : edge ≤ a) :
    (v.beyond edge).attrAt a = v.attrAt a := by
  unfold Vma.attrAt Vma.beyond
  dsimp only
  rw [Kind.shiftShift]
  have sum : edge - v.start + (a - edge) = a - v.start := by omega
  rw [sum]

lemma showsCut (edge : Nat) (v : Vma) : Shows (lower edge v::upper edge v) a x ↔ v.Has a ∧ v.attrAt a = x := by
  by_cases inside : Inside edge v
  swap
  · rw [lowerOut inside,upperOut inside,showsCons]
    simp [Shows]
  rw [lowerIn inside,upperIn inside,showsCons,showsCons]
  have none : ¬ Shows [] a x := by simp [Shows]
  simp only [none,or_false]
  obtain ⟨low,high⟩ := inside
  constructor
  · rintro (⟨⟨above,below⟩,eq⟩ | ⟨⟨above,below⟩,eq⟩)
    · exact ⟨⟨above,lt_trans below high⟩,eq⟩
    · rw [attrBeyond (le_of_lt low) above] at eq
      exact ⟨⟨le_trans (le_of_lt low) above,below⟩,eq⟩
  rintro ⟨⟨above,below⟩,eq⟩
  rcases lt_or_ge a edge with less | more
  · exact .inl ⟨⟨above,less⟩,eq⟩
  · exact .inr ⟨⟨more,below⟩,by rw [attrBeyond (le_of_lt low) more,eq]⟩

lemma showsParts (v : Vma) {a : Nat} {x : Attr} : Shows (parts start stop v) a x ↔ v.Has a ∧ v.attrAt a = x := by
  unfold parts firstPart laterParts
  rw [← cons_append,showsAppend,showsCut,← showsCut stop v,showsCons]

lemma lowerUncut (edge : Nat) (v : Vma) : ¬ Inside edge (lower edge v) := by
  by_cases inside : Inside edge v
  · rw [lowerIn inside]
    exact fun cut => lt_irrefl _ cut.2
  · rwa [lowerOut inside]

lemma partsUncut (le : start ≤ stop) (mem : p ∈ parts start stop v) : ¬ Inside start p ∧ ¬ Inside stop p := by
  rcases mem_cons.mp mem with rfl | later
  · refine ⟨lowerUncut start _,fun cut => lowerUncut stop v ?_⟩
    obtain ⟨first,last,_⟩ := lowerBounds start (lower stop v)
    exact ⟨first ▸ cut.1,lt_of_lt_of_le cut.2 last⟩
  · exact laterUncut le later

lemma partInRange {v p : Vma} {a : Nat} (le : start ≤ stop) (mem : p ∈ parts start stop v) (has : p.Has a) :
    contains start stop p ↔ start ≤ a ∧ a < stop := by
  obtain ⟨one,two⟩ := partsUncut le mem
  obtain ⟨low,high⟩ := has
  unfold Inside at one two
  unfold contains
  omega

lemma showsEvacuated (le : start ≤ stop) (v : Vma) : Shows (treated start stop (fun _ => false) (fun _ => none) v) a x ↔
      ¬ (start ≤ a ∧ a < stop) ∧ v.Has a ∧ v.attrAt a = x := by
  rw [treatedParts rfl,showsFlatMap,← @showsParts start stop v]
  constructor
  · rintro ⟨p,mem,q,new,has,eq⟩
    unfold finish at new
    split at new
    · cases new
    rename_i out
    cases mem_singleton.mp new
    exact ⟨fun range => out ((partInRange le mem has).mpr range),p,mem,has,eq⟩
  rintro ⟨out,p,mem,has,eq⟩
  refine ⟨p,mem,p,?_,has,eq⟩
  unfold finish
  rw [if_neg (fun inside => out ((partInRange le mem has).mp inside))]
  exact mem_singleton_self p

lemma showsProtected (le : start ≤ stop) (v : Vma) :
    Shows (treated start stop (fun v => v.perm == perm) (fun v => some { v with perm := perm }) v) a x ↔
      v.Has a ∧ (if start ≤ a ∧ a < stop then { v.attrAt a with perm := perm } else v.attrAt a) = x := by
  cases skipped : v.perm == perm
  case true =>
    have whole : treated start stop (fun v => v.perm == perm) (fun v => some { v with perm := perm }) v = [v] :=
      if_pos skipped
    have same : { v.attrAt a with perm := perm } = v.attrAt a := by
      unfold Vma.attrAt
      rw [eq_of_beq skipped]
    rw [whole,same,ite_self,showsCons]
    simp [Shows]
  rw [treatedParts skipped,showsFlatMap]
  constructor
  · rintro ⟨p,mem,q,new,has,eq⟩
    unfold finish at new
    split at new
    next inside =>
      cases mem_singleton.mp new
      have range := (@partInRange start stop v p a le mem has).mp inside
      obtain ⟨mine,shown⟩ := (@showsParts start stop v _ _).mp ⟨p,mem,has,rfl⟩
      rw [if_pos range,shown]
      exact ⟨mine,eq⟩
    next out =>
      cases mem_singleton.mp new
      obtain ⟨mine,shown⟩ := (@showsParts start stop v _ _).mp ⟨p,mem,has,rfl⟩
      rw [if_neg (fun range => out ((partInRange le mem has).mpr range)),shown]
      exact ⟨mine,eq⟩
  rintro ⟨has,eq⟩
  obtain ⟨p,mem,mine,shown⟩ := (@showsParts start stop v _ _).mpr ⟨has,rfl⟩
  by_cases range : start ≤ a ∧ a < stop
  · rw [if_pos range,← shown] at eq
    refine ⟨p,mem,{ p with perm := perm },?_,mine,eq⟩
    unfold finish
    rw [if_pos ((partInRange le mem mine).mpr range)]
    exact mem_singleton_self _
  rw [if_neg range,← shown] at eq
  refine ⟨p,mem,p,?_,mine,eq⟩
  unfold finish
  rw [if_neg (fun inside => range ((partInRange le mem mine).mp inside))]
  exact mem_singleton_self p

lemma Found.outside (f : Found l start stop A M B) (mem : v ∈ A ∨ v ∈ B) (has : v.Has a) : ¬ (start ≤ a ∧ a < stop) := by
  obtain ⟨low,high⟩ := has
  rcases mem with before | after
  · have := (f.below v before).2
    omega
  have := f.above v after
  omega

lemma Found.shown (f : Found l start stop A M B) (h : Inv l) {g : Vma → List Vma}
    (change : Attr → Option Attr) (now : Inv (A ++ (M.flatMap g ++ B)))
    (each : ∀ v ∈ M, ∀ a x, Shows (g v) a x ↔
      v.Has a ∧ (if start ≤ a ∧ a < stop then change (v.attrAt a) else some (v.attrAt a)) = some x) (a : Nat) :
    attr (A ++ (M.flatMap g ++ B)) a = if start ≤ a ∧ a < stop then (attr l a).bind change else attr l a := by
  have step : ∀ x, attr (A ++ (M.flatMap g ++ B)) a = some x ↔ ∃ v ∈ l, v.Has a ∧
    (if start ≤ a ∧ a < stop then change (v.attrAt a) else some (v.attrAt a)) = some x := by
    intro x
    rw [attrShows now.ordered,showsAppend,showsAppend,showsFlatMap,f.list]
    constructor
    · rintro (⟨v,mem,has,rfl⟩ | ⟨v,mem,shown⟩ | ⟨v,mem,has,rfl⟩)
      · exact ⟨v,mem_append_left _ mem,has,by rw [if_neg (f.outside (.inl mem) has)]⟩
      · exact ⟨v,mem_append_right _ (mem_append_left _ mem),(each v mem a x).mp shown⟩
      · exact ⟨v,mem_append_right _ (mem_append_right _ mem),has,by rw [if_neg (f.outside (.inr mem) has)]⟩
    rintro ⟨v,mem,has,eq⟩
    rcases mem_append.mp mem with before | rest
    · rw [if_neg (f.outside (.inl before) has)] at eq
      exact .inl ⟨v,before,has,some.inj eq⟩
    rcases mem_append.mp rest with inside | after
    · exact .inr (.inl ⟨v,inside,(each v inside a x).mpr ⟨has,eq⟩⟩)
    rw [if_neg (f.outside (.inr after) has)] at eq
    exact .inr (.inr ⟨v,after,has,some.inj eq⟩)
  apply ext
  intro x
  rw [step]
  split
  swap
  · rw [attrShows h.ordered]
    simp only [some.injEq,Shows]
  rename_i range
  rw [bind_eq_some_iff]
  constructor
  · rintro ⟨v,mem,has,eq⟩
    exact ⟨v.attrAt a,(attrShows h.ordered).mpr ⟨v,mem,has,rfl⟩,eq⟩
  rintro ⟨y,shown,eq⟩
  obtain ⟨v,mem,has,rfl⟩ := (attrShows h.ordered).mp shown
  exact ⟨v,mem,has,eq⟩

structure Between (start stop : Nat) : Prop where
  low : 0 < start
  le : start ≤ stop
  high : stop ≤ sentinelEnd
  startPage : start % 4096 = 0
  stopPage : stop % 4096 = 0

lemma evacuateEmpty : evacuate l start start = .done l := by
  unfold evacuate overRange findIntersectingVmas
  rw [if_pos (le_refl start)]
  rfl

lemma protectEmpty (lt : start < 2^64) : protect l start 0 perm = .done l := by
  unfold protect overRange findIntersectingVmas
  dsimp only
  rw [add_zero,mod_eq_of_lt lt,if_pos (le_refl start)]
  rfl

lemma protectEq {l : List Vma} {perm : BitVec 32} {size : Nat} (h : Inv l) (b : Between start stop) (lt : start < stop)
    (sum : (start + size) % 2^64 = stop) : ∃ A M B, Found l start stop A M B ∧ protect l start size perm =
      swept start stop (fun v => v.perm == perm) (fun v => v.validatePerm perm) (fun v => some { v with perm := perm }) B A M := by
  obtain ⟨A,M,B,f⟩ := h.found lt (le_trans b.le b.high)
  refine ⟨A,M,B,f,?_⟩
  dsimp only [protect]
  rw [sum]
  exact f.spec h (uniformProtect perm) b.low lt b.startPage b.stopPage

theorem pageSemantics {l : List Vma} (h : Inv l) (b : Between start stop) :
    ((∀ v ∈ l, v.start < stop → start < v.stop → v.kind ≠ .balloon) → ∃ l', evacuate l start stop = .done l' ∧ Inv l' ∧
        ∀ a, attr l' a = if start ≤ a ∧ a < stop then none else attr l a) ∧
    ∀ perm l', protect l start (stop - start) perm = .done l' → Inv l' ∧
      ∀ a, attr l' a = if start ≤ a ∧ a < stop then (attr l a).map (fun x => { x with perm := perm }) else attr l a := by
  have top : sentinelEnd = 0x800000000000 := rfl
  have high := b.high
  rcases eq_or_lt_of_le b.le with same | lt
  · subst same
    have none : ∀ a, ¬ (start ≤ a ∧ a < start) := fun a => by omega
    refine ⟨fun _ => ⟨l,evacuateEmpty,h,fun a => (if_neg (none a)).symm⟩,fun perm l' done => ?_⟩
    rw [Nat.sub_self,protectEmpty (by omega)] at done
    cases done
    exact ⟨h,fun a => (if_neg (none a)).symm⟩
  refine ⟨fun solid => ?_,fun perm l' done => ?_⟩
  · obtain ⟨A,M,B,f,done,now⟩ := evacuateSpec h b.low lt b.high b.startPage b.stopPage solid
    refine ⟨_,done,now,fun a => ?_⟩
    rw [f.shown h (fun _ => none) now (fun v mem a x => ?_) a]
    · simp
    rw [showsEvacuated b.le]
    by_cases range : start ≤ a ∧ a < stop
    · simp [range]
    · simp [range]
  have sum : (start + (stop - start)) % 2^64 = stop := by
    rw [Nat.add_sub_cancel' b.le]
    exact mod_eq_of_lt (by omega)
  obtain ⟨A,M,B,f,eq⟩ := @protectEq start stop l perm _ h b lt sum
  rw [eq] at done
  have good := sweptDone done
  rw [sweptGood good A] at done
  cases done
  have whole := h
  rw [f.list] at whole
  have now := whole.replace (fun v mem => (protectReplaces (f.fit h v mem) b.startPage b.stopPage (good v mem)).1)
    (fun v mem => (protectReplaces (f.fit h v mem) b.startPage b.stopPage (good v mem)).2)
  refine ⟨now,fun a => ?_⟩
  rw [f.shown h (fun x => some { x with perm := perm }) now (fun v mem a x => ?_) a]
  · simp only [map_eq_bind]
    rfl
  rw [showsProtected b.le]
  by_cases range : start ≤ a ∧ a < stop
  · simp [range]
  · simp [range]

def lowSentinel : Vma := ⟨0,0,0,0,.anon⟩
def highSentinel : Vma := ⟨sentinelEnd,sentinelEnd,0,0,.anon⟩

lemma lowFit : Fit lowSentinel :=
  ⟨rfl,rfl,le_refl 0,by decide,fun _ => .inl rfl,rfl,nofun⟩

lemma highFit : Fit highSentinel :=
  ⟨rfl,rfl,le_refl _,le_refl _,fun _ => .inr rfl,rfl,nofun⟩

lemma singleInv (fit : Fit v) (low : 0 < v.start) (high : v.start < sentinelEnd) : Inv [lowSentinel,v,highSentinel] := by
  refine ⟨?_,by simp [fit,lowFit,highFit],⟨lowSentinel,by simp,rfl,rfl⟩,⟨highSentinel,by simp,rfl,rfl⟩⟩
  have top := fit.top
  have pos : 0 < sentinelEnd := by decide
  simp only [pairwise_cons,mem_cons,not_mem_nil,or_false,forall_eq_or_imp,forall_eq,Before,lowSentinel,
    highSentinel,Pairwise.nil,and_true,false_implies,implies_true]
  exact ⟨⟨⟨low,zero_le _⟩,pos,zero_le _⟩,high,top⟩

-- Three pages of a file from offset 0x5000 on.
def sampleFile : File := ⟨1,true,false,false⟩
def fileMapping : Vma := ⟨0x200000000000,0x200000003000,permRead,mmapSmall ||| mmapFile,.file sampleFile 0x5000⟩

lemma fileFit : Fit fileMapping := by
  refine ⟨rfl,rfl,by decide,by decide,fun same => absurd same (by decide),rfl,fun f o kind => ?_⟩
  decide

theorem pageSemanticsFile : ∃ l, evacuate [lowSentinel,fileMapping,highSentinel] 0x200000001000 0x200000002000 = .done l ∧
    attr l 0x200000001000 = none ∧
    attr l 0x200000002000 = some ⟨.file sampleFile 0x7000,permRead,mmapSmall ||| mmapFile⟩ := by
  have inv := singleInv fileFit (by decide) (by decide)
  obtain ⟨l,done,_,shown⟩ := (@pageSemantics 0x200000001000 0x200000002000 _ inv
    ⟨by decide,by decide,by decide,by decide,by decide⟩).1 (by decide)
  refine ⟨l,done,?_,?_⟩
  · rw [shown,if_pos (by decide)]
  rw [shown,if_neg (by decide)]
  decide

def balloonMapping : Vma := ⟨0x200000000000,0x200000200000,permRead ||| permWrite,mmapJvmBalloon,.balloon⟩

lemma balloonFit : Fit balloonMapping := by
  refine ⟨rfl,rfl,by decide,by decide,fun same => absurd same (by decide),rfl,nofun⟩

theorem balloonAborts : ∃ l start stop, Inv l ∧ Between start stop ∧ ¬ ∃ l', evacuate l start stop = .done l' := by
  refine ⟨[lowSentinel,balloonMapping,highSentinel],0x200000000000,0x200000200000,
    singleInv balloonFit (by decide) (by decide),⟨by decide,by decide,by decide,rfl,rfl⟩,?_⟩
  have aborted : evacuate [lowSentinel,balloonMapping,highSentinel] 0x200000000000 0x200000200000 = .abort := by
    decide
  rintro ⟨l,done⟩
  rw [aborted] at done
  cases done

end OsvKernel.VmaList
