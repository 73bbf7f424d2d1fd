import OsvKernel.PageRangeRuns

/-! The positions of the bitmap that free and initial_add read and write, each with the size that the bitmap has at
that moment. -/
namespace OsvKernel.PageRange
open List Option Runs Blocks

def setTouches (s : State) (pr : Nat) : List Nat := [getBitmapIdx pr,getBitmapIdx pr + (s.size pr - 1)]

def freeTouches (s : State) (stray : Nat → Bool) (pr : Nat) : List Nat :=
  let merged := joinPrev s stray pr
  [prevIdx pr,getBitmapIdx merged.2 + merged.1.size merged.2] ++ setTouches (joinNext merged.1 stray merged.2) merged.2

def deferredTouches (s : State) (stray : Nat → Bool) : List Nat :=
  match s.deferredFree with
  | some p => freeTouches s stray p
  | none => []

def initialAddTouches (s : State) (stray : Nat → Bool) (pr cap : Nat) : Option (List (Nat × Nat)) :=
  let idx := getBitmapIdx pr + s.size pr
  if idx > s.nbits then do
    let merged := joinInitial s pr
    let probe := if s.nbits > prevIdx pr then [prevIdx pr] else []
    let t ← resize { insert false merged.1 merged.2 with bits := fun _ => false } idx cap
    some (probe.map (·,s.nbits) ++ ((headers t).flatMap (setTouches t)).map (·,t.nbits) ++
      (deferredTouches (setAllBits t) stray).map (·,t.nbits))
  else some ((freeTouches s stray pr).map (·,s.nbits))

def touches (w : World) : Op → Option (List (Nat × Nat))
  | .initialAdd pr size cap stray => initialAddTouches (construct w.st pr size) stray pr cap
  | .free b stray =>
    some ((freeTouches (construct w.st b.block.start b.block.len) stray b.block.start).map (·,w.st.nbits))
  | .freePage _ page stray => some ((freeTouches (construct w.st page 1) stray page).map (·,w.st.nbits))
  | .alloc _ => none
  | .allocAligned .. => none

def Inside (l : List (Nat × Nat)) : Prop := ∀ x ∈ l, x.1 < x.2

def Within (w : World) : Op → Prop
  | .initialAdd pr size _ _ =>
    if w.st.nbits < pr+size then ∀ c, w.st.store = some (0,c) → (pr+size+63)/64 ≤ c else pr ≠ 0
  | .free b _ => b.block.start ≠ 0 ∧ b.block.stop < w.st.nbits
  | .freePage _ page _ => page ≠ 0 ∧ page+1 < w.st.nbits
  | .alloc _ => True
  | .allocAligned .. => True

lemma insideMap {l : List Nat} {n : Nat} : Inside (l.map (·,n)) ↔ ∀ i ∈ l, i < n := by
  simp [Inside]

lemma insideAppend {k l : List (Nat × Nat)} : Inside (k ++ l) ↔ Inside k ∧ Inside l := by
  simp only [Inside,mem_append,or_imp,forall_and]

section
variable {s : State} {live : List Live} {pages : Nat → Nat} {p n : Nat} {t : State} {hand : List Block}

lemma Held.prevInside (h : Held s live (⟨p,n⟩::hand) pages) (pos : 0 < n) : prevIdx p < s.nbits ↔ p ≠ 0 := by
  have small := h.tags.small
  have room : p < s.nbits := h.inRange (.head _) (startHas (b := ⟨p,n⟩) pos)
  rcases Nat.eq_zero_or_pos p with rfl | above
  · rw [prevIdxZero]
    omega
  rw [prevIdxPos above (by omega)]
  omega

lemma Held.setInside (h : Held s live (⟨p,n⟩::hand) pages) (size : s.size p = n) (pos : 0 < n) :
    ∀ i ∈ setTouches s p, i < s.nbits := by
  have room := h.roomOf (.head _) pos
  have idx := idxOfLt h (h.inRange (.head _) (startHas (b := ⟨p,n⟩) pos))
  dsimp only at room
  simp only [setTouches,idx,size,mem_cons,not_mem_nil,or_false,forall_eq_or_imp,forall_eq]
  omega

lemma Held.freeInside (stray : Nat → Bool) (h : Held s live [⟨p,n⟩] pages) (size : s.size p = n) (pos : 0 < n) :
    (∀ i ∈ freeTouches s stray p, i < s.nbits) ↔ p ≠ 0 ∧ p+n < s.nbits := by
  have first := h.prevInside pos
  dsimp only [freeTouches]
  rw [forall_mem_append]
  simp only [mem_cons,not_mem_nil,or_false,forall_eq_or_imp,forall_eq]
  by_cases above : p ≠ 0
  swap
  · exact ⟨fun inside => absurd (first.mp inside.1.1) above,fun ok => absurd ok.1 above⟩
  obtain ⟨m,prev,sized,some,stop⟩ := @Held.joinPrev n p stray s live pages h size pos fun zero => absurd zero above
  have same := (Book.joinPrev s stray p).nbits
  have idx := idxOfLt prev (prev.inRange (.head _) (startHas (b := ⟨_,m⟩) some))
  dsimp only at idx
  rw [idx,sized,stop]
  constructor
  · exact fun inside => ⟨above,inside.1.2⟩
  rintro ⟨_,high⟩
  obtain ⟨k,next,sized,some⟩ := @Held.joinNext _ _ stray _ _ _ prev sized some (by omega)
  have last := next.setInside sized some
  rw [(Book.joinNext _ stray _).nbits,same] at last
  exact ⟨⟨first.mpr above,high⟩,last⟩

lemma Held.freeLiveInside (stray : Nat → Bool) {rest : List Live} {b : Live} (h : Held s live [] pages)
    (perm : live.Perm (b::rest)) (size : s.size b.block.start = b.block.len) :
    (∀ i ∈ freeTouches s stray b.block.start, i < s.nbits) ↔ b.block.start ≠ 0 ∧ b.block.stop < s.nbits :=
  (h.take perm).freeInside stray size (h.tags.clear b (perm.mem_iff.mpr (.head _))).positive

lemma Held.headersInside (h : Held s live [] pages) : ∀ i ∈ (headers s).flatMap (setTouches s), i < s.nbits := by
  intro i mem
  obtain ⟨a,header,here⟩ := mem_flatMap.mp mem
  have room := h.headerRoom header
  have pos := h.shape.positive a header
  have idx : getBitmapIdx a = a := idxOfLt h (by omega)
  simp only [setTouches,idx,mem_cons,not_mem_nil,or_false] at here
  omega

lemma Book.choose (ok : choose s n = some (t,p)) : Book s t := by
  unfold PageRange.choose at ok
  dsimp only at ok
  split at ok
  · cases ok
  split at ok
  · split at ok
    · cases ok
    · split at ok
      · cases ok
      · cases ok
        exact ⟨rfl,rfl,rfl⟩
  split at ok
  · cases ok
  cases ok
  exact ⟨rfl,rfl,rfl⟩

lemma Book.allocPlain (ok : alloc false s n = some (t,p)) : Book s t := by
  obtain ⟨c,found,rfl⟩ := allocEq ok
  exact (Book.choose found).trans (splitTailBook false c n p)

lemma resizeDefers {numBits cap : Nat} (ok : resize s numBits cap = some t) (idle : s.deferredFree = none) :
    (t.deferredFree = none ∧ ∀ q c, s.store = some (q,c) → (numBits+63)/64 ≤ c) ∨
      ∃ q c, s.store = some (q,c) ∧ c < (numBits+63)/64 ∧ t.deferredFree = some q := by
  unfold resize at ok
  dsimp only at ok
  split at ok
  swap
  next empty =>
    obtain ⟨⟨c,q⟩,got,last⟩ := bind_eq_some_iff.mp ok
    cases last
    exact .inl ⟨(Book.allocPlain got).deferred.trans idle,fun q' c' here => nomatch empty.symm.trans here⟩
  rename_i q c stored
  split at ok
  next fits =>
    cases ok
    refine .inl ⟨idle,fun q' c' here => ?_⟩
    cases stored.symm.trans here
    exact fits
  next short =>
    obtain ⟨_,_,last⟩ := bind_eq_some_iff.mp ok
    cases last
    exact .inr ⟨q,c,stored,Nat.lt_of_not_le short,rfl⟩

lemma Ready.grownInside {cap : Nat} {stray : Nat → Bool} {l : List (Nat × Nat)} (h : Ready s live pages)
    (size : s.size p = n) (pos : 0 < n) (free : ∀ q, Block.Has ⟨p,n⟩ q → pages q = 0) (small : p+n < 2^32)
    (grow : s.nbits < p+n) (enough : (p+n+63)/64 ≤ cap) (ok : initialAddTouches s stray p cap = some l) :
    Inside l ↔ ∀ c, s.store = some (0,c) → (p+n+63)/64 ≤ c := by
  have idx : getBitmapIdx p = p := Nat.mod_eq_of_lt (by omega)
  unfold initialAddTouches at ok
  dsimp only at ok
  rw [idx,size,if_pos grow] at ok
  obtain ⟨c,resized,last⟩ := bind_eq_some_iff.mp ok
  cases last
  have probe : ∀ i ∈ if s.nbits > prevIdx p then [prevIdx p] else [], i < s.nbits := by
    intro i mem
    split at mem
    next lt => rwa [mem_singleton.mp mem]
    · cases mem
  obtain ⟨bits,eq⟩ := setAllBitsFrame c
  have same : headers c = headers (setAllBits c) ∧ setTouches c = setTouches (setAllBits c) ∧
    c.nbits = (setAllBits c).nbits ∧ c.deferredFree = (setAllBits c).deferredFree := by
    rw [eq]
    exact ⟨rfl,rfl,rfl,rfl⟩
  have booked := (h.joinInitial size pos small free).2.2.trans
    (Book.insert false (PageRange.joinInitial s p).1 (PageRange.joinInitial s p).2)
  have defers := resizeDefers resized (booked.deferred.trans h.idle)
  dsimp only at defers
  rw [booked.store] at defers
  obtain ⟨nbits,result⟩ := h.retagged size pos free small grow enough resized
  rw [insideAppend,insideAppend,insideMap,insideMap,insideMap,same.1,same.2.1,same.2.2.1]
  rcases result with ⟨idle,held⟩ | ⟨q,old,stored,deferred,sized,stop,held⟩
  · have none : deferredTouches (setAllBits c) stray = [] := by rw [deferredTouches,idle]
    rw [none]
    rcases defers with ⟨_,fits⟩ | ⟨_,_,_,_,some⟩
    · exact ⟨fun _ c here => fits 0 c here,fun _ => ⟨⟨probe,held.headersInside⟩,nofun⟩⟩
    · cases (same.2.2.2.trans idle).symm.trans some
  have all : deferredTouches (setAllBits c) stray = freeTouches (setAllBits c) stray q := by rw [deferredTouches,deferred]
  have freed := held.freeLiveInside stray (b := ⟨⟨q,getSize old⟩,false⟩) perm_middle sized
  have high : q + getSize old < (setAllBits c).nbits := by omega
  dsimp only [Block.stop] at freed
  rw [all,freed]
  rcases defers with ⟨none,_⟩ | ⟨q',c',here,short,_⟩
  · cases (same.2.2.2.trans deferred).symm.trans none
  cases stored.symm.trans here
  constructor
  · rintro ⟨_,above,_⟩ c zero
    cases stored.symm.trans zero
    exact absurd rfl above
  intro fits
  refine ⟨⟨probe,held.headersInside⟩,fun zero => ?_,high⟩
  subst zero
  have := fits old stored
  omega

end

theorem boundsHold {w : World} (reach : Runs.Reach exec (fun w op => Legal w op ∧ Quiet w op) Started w) {op : Op}
    (legal : Legal w op) (small : ∀ pr size cap stray, op = .initialAdd pr size cap stray → pr + size < 2^32)
    {l : List (Nat × Nat)} (all : touches w op = some l) : Inside l ↔ Within w op := by
  have h := reachInv reach
  cases op with
  | initialAdd pr size cap stray => ?_
  | alloc size | allocAligned size offset alignment fill => cases all
  | free b stray =>
    cases all
    have mem : b ∈ bitmapLive w.st ++ w.live := mem_append_right _ legal
    have off := h.held.liveHeader mem (startHas (h.held.tags.clear b mem).positive)
    rw [insideMap]
    exact (h.held.construct b.block.len off).freeLiveInside stray (perm_cons_erase mem) (constructSelf _ _ _)
  | freePage b page stray =>
    cases all
    obtain ⟨there,fill,has⟩ := legal
    have mem : b ∈ bitmapLive w.st ++ w.live := mem_append_right _ there
    have off := h.held.liveHeader mem has
    have held := (h.held.construct 1 off).takePage (perm_cons_erase mem) fill has
    rw [insideMap]
    exact held.freeInside stray (constructSelf _ _ _) Nat.one_pos
  obtain ⟨pos,_,fresh,enough⟩ := legal
  have low := small pr size cap stray rfl
  have off := h.notHeader (fresh pr (startHas (b := ⟨pr,size⟩) pos))
  have ready := h.construct size off
  dsimp only [Within]
  split
  next grow => exact ready.grownInside (constructSelf _ _ _) pos fresh low grow enough all
  rename_i within
  have idx : getBitmapIdx pr = pr := Nat.mod_eq_of_lt (by omega)
  have room : pr + size ≤ w.st.nbits := Nat.le_of_not_lt within
  obtain ⟨held,below⟩ := ready.fresh pos fresh room
  unfold touches initialAddTouches at all
  dsimp only at all
  rw [idx,constructSelf,if_neg (show ¬pr + size > (construct w.st pr size).nbits from within)] at all
  cases all
  have freed := held.freeInside stray (constructSelf _ _ _) pos
  rw [insideMap]
  change (∀ i ∈ freeTouches (construct w.st pr size) stray pr, i < (construct w.st pr size).nbits) ↔ _
  rw [freed]
  exact ⟨fun ok => ok.1,fun ok => ⟨ok,below⟩⟩

def lentFirst : World := Runs.after exec (Runs.after exec blank addLow) (.alloc 1)
def returnFirst : Op := .free ⟨⟨2,1⟩,false⟩ fun _ => true

set_option maxRecDepth 20000

theorem boundsHoldFirst :
    touches lentFirst returnFirst = some [(1,64),(3,64),(2,64),(63,64)] ∧ Inside [(1,64),(3,64),(2,64),(63,64)] := by
  have reach : Reach exec (fun w op => Legal w op ∧ Quiet w op) Started lentFirst :=
    addLowReach.next (o := .alloc 1) ⟨Nat.one_pos,trivial⟩ (afterTaken rfl)
  have legal : Legal lentFirst returnFirst := by
    show _ ∈ lentFirst.live
    decide
  have all : touches lentFirst returnFirst = some [(1,64),(3,64),(2,64),(63,64)] := by decide
  have short : lentFirst.st.nbits = 64 := by decide
  refine ⟨all,(boundsHold reach legal nofun all).mpr ⟨by decide,?_⟩⟩
  rw [short]
  decide

theorem boundsPassed : Runs.Reach exec Legal Started lent ∧ Legal lent (returnLast false) ∧
      ∃ l, touches lent (returnLast false) = some l ∧ (64,64) ∈ l :=
  ⟨lentReach addLowLegal lendLastLegal,returnLastLegal false,[(62,64),(64,64),(2,64),(63,64)],by decide,by decide⟩

end OsvKernel.PageRange
