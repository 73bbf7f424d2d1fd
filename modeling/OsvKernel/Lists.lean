import Mathlib

/-! Doubly linked lists with heads whose links live in a memory. An element knows the slot that points
at it, so it is taken out without its head; whether it was in a list at all is nobody's business. -/
namespace Lists
open List Function

inductive Slot (H E : Type) where
  | first (h : H)
  | after (e : E)
  deriving DecidableEq

structure Mem (H E : Type) where
  next : Slot H E → Option E
  prev : E → Slot H E

variable {H E : Type}

inductive Chain (m : Mem H E) : Slot H E → List E → Prop where
  | nil {s} (stop : m.next s = none) : Chain m s []
  | cons {s e l} (here : m.next s = some e) (back : m.prev e = s) (rest : Chain m (.after e) l) : Chain m s (e::l)

variable {m m' : Mem H E} {s : Slot H E} {l : List E} {e f : E} {h : H} {lists : H → List E}

section
variable (chain : Chain m s l)
include chain

lemma Chain.frame (first : m'.next s = m.next s)
    (nexts : ∀ e ∈ l, m'.next (.after e) = m.next (.after e)) (prevs : ∀ e ∈ l, m'.prev e = m.prev e) : Chain m' s l := by
  induction chain with
  | nil stop => exact .nil (first.trans stop)
  | @cons s e l here back rest ih =>
    refine .cons (first.trans here) ((prevs e (.head _)).trans back) (ih (nexts e (.head _)) ?_ ?_)
    · exact fun x mem => nexts x (.tail _ mem)
    · exact fun x mem => prevs x (.tail _ mem)

lemma Chain.headEq : m.next s = l.head? := by
  cases chain with
  | nil stop => exact stop
  | cons here back rest => exact here

lemma Chain.unique {k : List E} (other : Chain m s k) : k = l := by
  induction chain generalizing k with
  | nil stop =>
    cases other with
    | nil => rfl
    | cons here back rest => cases stop.symm.trans here
  | cons here back rest ih => ?_
  rcases other with stop | ⟨there,_,rest'⟩
  · cases stop.symm.trans here
  cases here.symm.trans there
  rw [ih rest']

lemma Chain.prevSlot (mem : e ∈ l) : m.prev e = s ∨ ∃ y ∈ l, m.prev e = .after y := by
  induction chain with
  | nil stop => cases mem
  | @cons s x l here back rest ih => ?_
  rcases mem_cons.mp mem with rfl | mem
  · exact .inl back
  rcases ih mem with there | ⟨y,inside,there⟩
  · exact .inr ⟨x,.head _,there⟩
  · exact .inr ⟨y,.tail _ inside,there⟩

lemma Chain.nextMem (mem : e ∈ l) (next : m.next (.after e) = some f) : f ∈ l := by
  induction chain with
  | nil stop => cases mem
  | @cons s x l here back rest ih => ?_
  rcases mem_cons.mp mem with rfl | mem
  · refine mem_cons_of_mem _ (mem_of_head? ?_)
    rw [← rest.headEq,next]
  · exact .tail _ (ih mem)

end

def walk (m : Mem H E) : Nat → Slot H E → List E
  | 0,_ => []
  | n+1,s =>
    match m.next s with
    | none => []
    | some e => e::walk m n (.after e)

lemma Chain.walks (chain : Chain m s l) {n : Nat} (enough : l.length ≤ n) : walk m n s = l := by
  induction chain generalizing n with
  | @nil s stop =>
    cases n with
    | zero => rfl
    | succ n => rw [walk,stop]
  | @cons s e l here back rest ih => ?_
  rcases n with _ | n
  · exact absurd enough (Nat.not_succ_le_zero _)
  simp only [walk,here]
  rw [ih (Nat.le_of_succ_le_succ enough)]

section
variable [DecidableEq H] [DecidableEq E]

def init (m : Mem H E) (h : H) : Mem H E := ⟨update m.next (.first h) none,m.prev⟩

def point (prev : E → Slot H E) (s : Slot H E) : Option E → E → Slot H E
  | none => prev
  | some f => update prev f s

def insertHead (m : Mem H E) (h : H) (e : E) : Mem H E :=
  let old := m.next (.first h)
  ⟨update (update m.next (.after e) old) (.first h) (some e),
    update (point m.prev (.after e) old) e (.first h)⟩

def remove (m : Mem H E) (e : E) : Mem H E :=
  let next := m.next (.after e)
  ⟨update m.next (m.prev e) next,point m.prev (m.prev e) next⟩

omit [DecidableEq H] in
lemma pointOther {prev : E → Slot H E} {o : Option E} {x : E} (ne : o ≠ some x) : point prev s o x = prev x := by
  cases o with
  | none => rfl
  | some f => exact update_of_ne (fun same => ne (congrArg some same.symm)) _ _

lemma insertNextFirst (m : Mem H E) (h : H) (e : E) : (insertHead m h e).next (.first h) = some e :=
  update_self _ _ _

lemma insertNextOwn (m : Mem H E) (h : H) (e : E) : (insertHead m h e).next (.after e) = m.next (.first h) := by
  have ne : (.after e : Slot H E) ≠ .first h := nofun
  simp [insertHead,update_self]

lemma insertNextOther (ne : s ≠ .first h) (off : s ≠ .after e) : (insertHead m h e).next s = m.next s := by
  simp [insertHead,update_of_ne ne,update_of_ne off]

lemma insertPrevSelf (m : Mem H E) (h : H) (e : E) : (insertHead m h e).prev e = .first h :=
  update_self _ _ _

lemma insertPrevOld (old : m.next (.first h) = some f) (ne : f ≠ e) : (insertHead m h e).prev f = .after e := by
  simp [insertHead,old,point,update_of_ne ne,update_self]

lemma insertPrevOther {x : E} (off : x ≠ e) (ne : m.next (.first h) ≠ some x) :
    (insertHead m h e).prev x = m.prev x := by
  simp [insertHead,update_of_ne off,pointOther ne]

lemma removeNextPrev (m : Mem H E) (e : E) : (remove m e).next (m.prev e) = m.next (.after e) :=
  update_self _ _ _

lemma removeNextOther (ne : s ≠ m.prev e) : (remove m e).next s = m.next s := update_of_ne ne _ _

lemma removePrevNext (next : m.next (.after e) = some f) : (remove m e).prev f = m.prev e := by
  simp [remove,next,point,update_self]

lemma removePrevOther {x : E} (ne : m.next (.after e) ≠ some x) : (remove m e).prev x = m.prev x := pointOther ne

lemma Chain.remove {pre post : List E} (chain : Chain m s (pre ++ e::post)) (nodup : (pre ++ e::post).Nodup)
    (outside : ∀ x ∈ pre ++ e::post, s ≠ .after x) : Chain (remove m e) s (pre ++ post) := by
  induction pre generalizing s with
  | nil => ?_
  | cons b pre ih =>
    obtain ⟨fresh,nodup⟩ := nodup_cons.mp nodup
    cases chain with
    | cons here back rest => ?_
    have mem : e ∈ pre ++ e::post := by simp
    have away : s ≠ m.prev e := by
      rcases rest.prevSlot mem with there | ⟨y,inside,there⟩
      · exact there ▸ outside b (.head _)
      · exact there ▸ outside y (.tail _ inside)
    refine .cons ((removeNextOther away).trans here) ((removePrevOther fun next => ?_).trans back) (ih rest nodup ?_)
    · exact fresh (rest.nextMem mem next)
    intro x inside same
    cases same
    exact fresh inside
  obtain ⟨fresh,nodup⟩ := nodup_cons.mp nodup
  cases chain with
  | cons here back rest => ?_
  have first : (remove m e).next s = m.next (.after e) := back ▸ removeNextPrev m e
  cases rest with
  | nil stop => exact .nil (first.trans stop)
  | @cons _ f l next back' rest => ?_
  obtain ⟨apart,_⟩ := nodup_cons.mp nodup
  have keeps : ∀ x ∈ e::f::l, (remove m e).next (.after x) = m.next (.after x) := fun x mem =>
    removeNextOther (fun same => outside x mem (back.symm.trans same.symm))
  refine .cons (first.trans next) ((removePrevNext next).trans back) (rest.frame ?_ ?_ ?_)
  · exact keeps f (by simp)
  · exact fun x mem => keeps x (by simp [mem])
  intro x mem
  refine removePrevOther fun same => ?_
  cases next.symm.trans same
  exact apart mem

structure Agree (m : Mem H E) (lists : H → List E) : Prop where
  chain : ∀ h, Chain m (.first h) (lists h)
  nodup : ∀ h, (lists h).Nodup
  apart : ∀ h k e, e ∈ lists h → e ∈ lists k → h = k

lemma Agree.init (agree : Agree m lists) (empty : lists h = []) : Agree (init m h) lists := by
  refine ⟨fun k => ?_,agree.nodup,agree.apart⟩
  by_cases same : k = h
  · subst k
    rw [empty]
    exact .nil (update_self _ _ _)
  refine (agree.chain k).frame (update_of_ne (fun eq => same (Slot.first.inj eq)) _ _) ?_ fun _ _ => rfl
  intro e _
  have ne : (.after e : Slot H E) ≠ .first h := nofun
  exact update_of_ne ne none m.next

lemma Agree.insert (agree : Agree m lists) (h : H) (fresh : ∀ k, e ∉ lists k) :
    Agree (insertHead m h e) (update lists h (e::lists h)) := by
  have keeps : ∀ k, ∀ x ∈ lists k, (insertHead m h e).next (.after x) = m.next (.after x) := by
    intro k x mem
    refine insertNextOther nofun fun same => ?_
    cases same
    exact fresh k mem
  constructor
  · intro k
    by_cases same : k = h
    swap
    · rw [update_of_ne same]
      refine (agree.chain k).frame (insertNextOther (fun eq => same (Slot.first.inj eq)) nofun) (keeps k) ?_
      intro x mem
      refine insertPrevOther (fun eq => fresh k (eq ▸ mem)) fun eq => ?_
      rw [(agree.chain h).headEq] at eq
      exact same (agree.apart k h x mem (mem_of_head? eq))
    subst k
    rw [update_self]
    refine .cons (insertNextFirst m h e) (insertPrevSelf m h e) ?_
    have own := insertNextOwn m h e
    have chain := agree.chain h
    have nodup := agree.nodup h
    have keep := keeps h
    have fresh := fresh h
    generalize lists h = l at chain nodup keep fresh
    cases chain with
    | nil stop => exact .nil (own.trans stop)
    | @cons _ f l here back rest => ?_
    have ne : f ≠ e := fun eq => fresh (eq ▸ (.head _))
    refine .cons (own.trans here) (insertPrevOld here ne) (rest.frame (keep f (.head _)) ?_ ?_)
    · exact fun x mem => keep x (.tail _ mem)
    intro x mem
    refine insertPrevOther (fun eq => fresh (eq ▸ mem_cons_of_mem _ mem)) fun eq => ?_
    cases here.symm.trans eq
    exact (nodup_cons.mp nodup).1 mem
  · intro k
    by_cases same : k = h
    · subst k
      rw [update_self]
      exact nodup_cons.mpr ⟨fresh h,agree.nodup h⟩
    rw [update_of_ne same]
    exact agree.nodup k
  intro j k x
  have apart := agree.apart j k x
  simp only [update_apply]
  grind

lemma Agree.remove (agree : Agree m lists) (mem : e ∈ lists h) :
    Agree (remove m e) (update lists h ((lists h).erase e)) := by
  have inside : ∀ k, k ≠ h → ∀ x ∈ lists k, x ∉ lists h := fun k ne x here there => ne (agree.apart k h x here there)
  have back := (agree.chain h).prevSlot mem
  constructor
  · intro k
    by_cases same : k = h
    · subst k
      rw [update_self]
      have chain := agree.chain h
      have nodup := agree.nodup h
      obtain ⟨pre,post,eq⟩ := append_of_mem mem
      rw [eq] at chain nodup ⊢
      have off : e ∉ pre := fun there => (nodup_append.mp nodup).2.2 e there e (.head _) rfl
      rw [erase_append_right _ off,erase_cons_head]
      exact chain.remove nodup fun _ _ => nofun
    rw [update_of_ne same]
    refine (agree.chain k).frame (removeNextOther ?_) (fun x there => removeNextOther ?_)
      fun x there => removePrevOther fun next => ?_
    · rcases back with eq | ⟨y,_,eq⟩
      · exact fun slot => same (Slot.first.inj (slot.trans eq))
      · exact fun slot => nomatch slot.trans eq
    · rcases back with eq | ⟨y,own,eq⟩
      · exact fun slot => nomatch slot.trans eq
      · exact fun slot => inside k same x there (Slot.after.inj (slot.trans eq) ▸ own)
    · exact inside k same x there ((agree.chain h).nextMem mem next)
  · intro k
    by_cases same : k = h
    · subst k
      rw [update_self]
      exact (agree.nodup h).erase e
    rw [update_of_ne same]
    exact agree.nodup k
  intro j k x
  have apart := agree.apart j k x
  have sub : x ∈ (lists h).erase e → x ∈ lists h := mem_of_mem_erase
  simp only [update_apply]
  grind

end

end Lists
