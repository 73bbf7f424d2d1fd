import OsvKernel.PageRangeTags

/-! What each operation of the allocator does to the blocks: allocation moves the
front or an aligned middle of one free range to the live blocks, free takes one
block back and joins it with the neighbours that its boundary tags report. -/
namespace OsvKernel.PageRange
open List Option Bool Nat BitVec Blocks

variable {n k a b shift offset alignment : Nat} {s t : State} {useBitmap : Bool} {live : List Live} {hand owned : List Block} {pages : Nat → Nat}

lemma powIlog2Le (pos : 0 < n) : 2^(ilog2 n) ≤ n := by
  unfold ilog2
  split
  · exact pos
  · exact log2_self_le (by omega)

lemma lePowIlog2Roundup (n : Nat) : n ≤ 2^(ilog2Roundup n) := by
  unfold ilog2Roundup
  split
  · simpa
  have lt := lt_log2_self (n := n-1)
  omega

lemma candidatesBit {i : Nat} (on : (candidates s k).getLsbD i = true) :
    i < 17 ∧ s.notEmpty.getLsbD i = true ∧ k ≤ i := by
  unfold candidates at on
  dsimp only at on
  split at on
  · simp only [getLsbD_setWidth,and_eq_true] at on
    exact ⟨lt_of_getLsbD on.2,on.2,by omega⟩
  simp only [getLsbD_and,getLsbD_setWidth,getLsbD_not,getLsbD_ofNat,
    testBit_two_pow_sub_one,and_eq_true,not_eq_true',and_eq_false_iff,
    decide_eq_true_eq,decide_eq_false_iff_not] at on
  obtain ⟨⟨wide,set⟩,_,masked⟩ := on
  refine ⟨lt_of_getLsbD set,set,?_⟩
  rcases masked with out | out
  · exact absurd wide out
  omega

lemma Shape.choose (h : Shape s owned pages) (ok : choose s n = some (t,a)) :
    a ∈ headers s ∧ n ≤ s.size a ∧ Unlinked s t a ∧ Shape t (freeBlock s a::owned) pages := by
  unfold PageRange.choose at ok
  dsimp only at ok
  split at ok
  · cases ok
  rename_i some
  have on := getLsbD_true_ctz_of_ne_zero some
  obtain ⟨wide,_,least⟩ := candidatesBit on
  split at ok
  · split at ok
    · cases ok
    rename_i top
    split at ok
    · cases ok
    cases ok
    have mem : a ∈ s.huge := mem_of_getLast? top
    exact ⟨memHeaders.mpr (.inl mem),by omega,removeHugeUnlinked mem,h.removeHuge mem⟩
  rename_i other
  have small : (candidates s (min (ilog2Roundup n) maxOrder)).ctz.toNat < maxOrder := by
    have : maxOrder = 16 := rfl
    omega
  split at ok
  · cases ok
  rename_i first
  cases ok
  have mem := mem_of_head? first
  have header := memHeaders.mpr (.inr ⟨_,small,mem⟩)
  have filed := h.filedList _ small a mem
  have order : ilog2Roundup n ≤ ilog2 (s.size a) := by omega
  have fits : n ≤ s.size a := calc
    n ≤ 2^(ilog2Roundup n) := lePowIlog2Roundup n
    _ ≤ 2^(ilog2 (s.size a)) := Nat.pow_le_pow_right (by decide) order
    _ ≤ s.size a := powIlog2Le (h.positive a header)
  exact ⟨header,fits,removeListUnlinked small mem,h.removeList small mem⟩

lemma Shape.chooseOne (h : Shape s owned pages) (mem : b ∈ headers s) : ∃ t a, PageRange.choose s 1 = some (t,a) := by
  have order : min (ilog2Roundup 1) maxOrder = 0 := rfl
  have wide : ∀ k < 17, s.notEmpty.getLsbD k = true → candidates s 0 ≠ 0 := by
    intro k hk on zero
    have bit : (candidates s 0).getLsbD k = true := by
      simp only [candidates,if_true,getLsbD_setWidth,on,Bool.and_true]
      exact decide_eq_true (by omega)
    rw [zero] at bit
    simp at bit
  have nonzero : candidates s 0 ≠ 0 := by
    rcases memHeaders.mp mem with huge | ⟨k,hk,list⟩
    · exact wide maxOrder (by decide) (h.markHuge.mpr (ne_nil_of_mem huge))
    · exact wide k (lt_trans hk (by decide)) ((h.markList k hk).mpr (ne_nil_of_mem list))
  obtain ⟨low,on,_⟩ := candidatesBit (getLsbD_true_ctz_of_ne_zero nonzero)
  dsimp only [PageRange.choose]
  rw [order,if_neg nonzero]
  split
  next top =>
    rw [top] at on
    obtain ⟨range,last⟩ := isSome_iff_exists.mp (List.getLast?_isSome.mpr (h.markHuge.mp on))
    have pos := h.positive range (memHeaders.mpr (.inl (mem_of_getLast? last)))
    rw [last]
    dsimp only
    rw [if_neg (by omega)]
    exact ⟨_,_,rfl⟩
  next other =>
    have small : (candidates s 0).ctz.toNat < maxOrder := by
      have : maxOrder = 16 := rfl
      omega
    obtain ⟨range,first⟩ := isSome_iff_exists.mp (isSome_head?.mpr ((h.markList _ small).mp on))
    rw [first]
    exact ⟨_,_,rfl⟩

lemma constructSelf (s : State) (a n : Nat) : (construct s a n).size a = n :=
  Function.update_self _ _ _

lemma constructOther (ne : b ≠ a) : (construct s a n).size b = s.size b :=
  Function.update_of_ne ne _ _

lemma Shape.insertPart (useBitmap : Bool) (h : Shape s (⟨a,n⟩::owned) pages)
    (pos : 0 < n) : Shape (PageRange.insert useBitmap (PageRange.construct s a n) a) owned pages := by
  have built := h.construct n (h.ownedNotHeader (.head _) (startHas (b := ⟨a,n⟩) pos))
  have sized := constructSelf s a n
  exact Shape.insert useBitmap (by rwa [freeBlock,sized]) (by rwa [sized])

lemma Held.insertPart (h : Held s live (⟨a,n⟩::hand) pages)
    (pos : 0 < n) : Held (PageRange.insert true (PageRange.construct s a n) a) live hand pages := by
  have built := h.construct n (h.handHeader (.head _) (startHas (b := ⟨a,n⟩) pos))
  have sized := constructSelf s a n
  exact Held.insert (by rwa [freeBlock,sized]) (by rwa [sized])

lemma Held.resize (h : Held s live (⟨a,n⟩::hand) pages)
    (pos : 0 < n) : Held (PageRange.construct s a n) live (⟨a,n⟩::hand) pages :=
  h.construct n (h.handHeader (.head _) (startHas (b := ⟨a,n⟩) pos))

lemma Held.giveSized (fill : Bool) (h : Held s live (⟨a,n⟩::hand) pages) (size : s.size a = n) (pos : 0 < n) :
    Held (setBits s a false fill) (⟨⟨a,n⟩,fill⟩::live) hand pages := by
  subst n
  exact h.give fill pos

lemma coverSplit (a m n : Nat) (rest : List Block) (q : Nat) :
    cover (⟨a,m⟩::⟨a+m,n⟩::rest) q = cover (⟨a,m+n⟩::rest) q := by
  simp only [coverCons]
  rw [hitsSplit]
  omega

lemma coverSwap (a b : Block) (rest : List Block) (q : Nat) : cover (a::b::rest) q = cover (b::a::rest) q := by
  simp only [coverCons]
  omega

lemma Shape.splitFront (h : Shape s (⟨a,k⟩::owned) pages) (le : n ≤ k) : Shape s (⟨a+n,k-n⟩::⟨a,n⟩::owned) pages := by
  refine h.exchange (fun q => ?_)
  rw [coverSwap,coverSplit,Nat.add_sub_cancel' le]

lemma Held.splitFront (h : Held s live (⟨a,k⟩::hand) pages) (le : n ≤ k) : Held s live (⟨a+n,k-n⟩::⟨a,n⟩::hand) pages := by
  refine h.exchange (fun q => ?_)
  rw [coverSwap,coverSplit,Nat.add_sub_cancel' le]

def splitTail (useBitmap : Bool) (s : State) (size pr : Nat) : State :=
  if s.size pr > size then construct (insert useBitmap (construct s (pr + size) (s.size pr - size)) (pr + size)) pr size
  else s

lemma allocEq (ok : alloc useBitmap s n = some (t,a)) : ∃ c, choose s n = some (c,a) ∧
      t = if useBitmap then setBits (splitTail useBitmap c n a) a false false else splitTail useBitmap c n a := by
  unfold alloc at ok
  obtain ⟨⟨c,b⟩,found,rest⟩ := bind_eq_some_iff.mp ok
  cases rest
  exact ⟨c,found,rfl⟩

lemma setBitsSize (s : State) (a : Nat) (v fill : Bool) : (setBits s a v fill).size = s.size := by
  obtain ⟨bits,eq⟩ := setBitsFrame s a v fill
  rw [eq]

lemma splitTailSize (fits : n ≤ s.size a) : (splitTail useBitmap s n a).size a = n := by
  unfold splitTail
  split
  · exact constructSelf _ _ _
  · omega

lemma splitTailBook (useBitmap : Bool) (s : State) (n a : Nat) : Book s (splitTail useBitmap s n a) := by
  unfold splitTail
  split
  · exact (Book.construct _ _ _).trans ((Book.insert _ _ _).trans (Book.construct _ _ _))
  · exact Book.refl s

lemma Shape.splitTail (useBitmap : Bool) (h : Shape s (freeBlock s a::owned) pages) (pos : 0 < n) (fits : n ≤ s.size a) :
    Shape (splitTail useBitmap s n a) (⟨a,n⟩::owned) pages := by
  unfold PageRange.splitTail
  split
  · have parted := (h.splitFront fits).insertPart useBitmap (by omega)
    exact parted.construct n (parted.ownedNotHeader (.head _) (startHas (b := ⟨a,n⟩) pos))
  have exact : s.size a = n := by omega
  rwa [freeBlock,exact] at h

lemma Held.splitTail (h : Held s live (freeBlock s a::hand) pages)
    (pos : 0 < n) (fits : n ≤ s.size a) : Held (splitTail true s n a) live (⟨a,n⟩::hand) pages := by
  unfold PageRange.splitTail
  split
  · exact ((h.splitFront fits).insertPart (by omega)).resize pos
  have exact : s.size a = n := by omega
  rwa [freeBlock,exact] at h

lemma Unlinked.book (u : Unlinked s t a) : Book s t := ⟨u.nbits,u.store,u.deferred⟩

lemma Shape.allocPlain (h : Shape s owned pages) (pos : 0 < n)
    (ok : alloc false s n = some (t,a)) : Shape t (⟨a,n⟩::owned) pages ∧ Book s t := by
  obtain ⟨c,found,rfl⟩ := allocEq ok
  obtain ⟨_,fits,u,shape⟩ := h.choose found
  have block : freeBlock c a = freeBlock s a := by rw [freeBlock,freeBlock,u.size]
  rw [← block] at shape
  exact ⟨shape.splitTail false pos (by rwa [u.size]),u.book.trans (splitTailBook _ _ _ _)⟩

lemma Held.alloc (h : Held s live hand pages) (pos : 0 < n) (ok : alloc true s n = some (t,a)) :
    Held t (⟨⟨a,n⟩,false⟩::live) hand pages ∧ Book s t ∧ t.size a = n := by
  obtain ⟨c,found,rfl⟩ := allocEq ok
  obtain ⟨_,fits,u,shape⟩ := h.shape.choose found
  have taken := h.unlink shape u
  have block : freeBlock c a = freeBlock s a := by rw [freeBlock,freeBlock,u.size]
  rw [← block] at taken
  have fits : n ≤ c.size a := by rwa [u.size]
  have sized : (PageRange.splitTail true c n a).size a = n := splitTailSize fits
  exact ⟨(taken.splitTail pos fits).giveSized false sized pos,
    u.book.trans ((splitTailBook true c n a).trans (Book.setBits (PageRange.splitTail true c n a) a false false)),
    (congrFun (setBitsSize _ a false false) a).trans sized⟩

lemma sizeSubLe {a b : Nat} (le : b ≤ a) : sizeSub a b = a - b := by
  rw [sizeSub,Nat.sub_eq_zero_of_le le,Nat.sub_zero,mod_self,Nat.add_zero]

lemma cutTailEq {s : State} {shift a : Nat} (lt : shift < s.size a) : cutTail s shift a = if shift = 0 then s else
    construct (insert true (construct s (a + s.size a - shift) shift) (a + s.size a - shift)) a (s.size a - shift) := by
  unfold cutTail
  split
  · rfl
  have ne : a ≠ a + s.size a - shift := by omega
  dsimp only
  rw [sizeSubLe (show shift ≤ a + s.size a by omega),insertSize,constructOther ne,sizeSubLe (le_of_lt lt)]

lemma cutHeadEq {s : State} {n a : Nat} (fits : n ≤ s.size a) : cutHead s n a = if s.size a = n then (s,a) else
    (construct (insert true (construct s a (s.size a - n)) a) (a + (s.size a - n)) n,a + (s.size a - n)) := by
  unfold cutHead
  split
  · rfl
  dsimp only
  rw [insertSize,constructSelf,sizeSubLe fits]

lemma Held.splitBack (h : Held s live (⟨a,k⟩::hand) pages) (le : n ≤ k) :
    Held s live (⟨a + k - n,n⟩::⟨a,k-n⟩::hand) pages := by
  have parted := h.splitFront (sub_le k n)
  rwa [Nat.sub_sub_self le,← Nat.add_sub_assoc le] at parted

lemma cutTailSize {s : State} {shift a : Nat} (lt : shift < s.size a) :
    (cutTail s shift a).size a = s.size a - shift := by
  rw [cutTailEq lt]
  split
  · omega
  · exact constructSelf _ _ _

lemma cutTailBook (s : State) (shift a : Nat) : Book s (cutTail s shift a) := by
  unfold cutTail
  split
  · exact Book.refl s
  · exact (Book.construct _ _ _).trans ((Book.insert _ _ _).trans (Book.construct _ _ _))

lemma Held.cutTail (h : Held s live (freeBlock s a::hand) pages)
    (lt : shift < s.size a) : Held (cutTail s shift a) live (⟨a,s.size a - shift⟩::hand) pages := by
  rw [cutTailEq lt]
  split
  next zero =>
    subst shift
    exact h
  exact ((h.splitBack (le_of_lt lt)).insertPart (by omega)).resize (by omega)

lemma cutHeadStart (fits : n ≤ s.size a) :
    (cutHead s n a).2 = a + s.size a - n ∧ (cutHead s n a).1.size (cutHead s n a).2 = n := by
  rw [cutHeadEq fits]
  split
  next all => exact ⟨by omega,all⟩
  exact ⟨(Nat.add_sub_assoc fits a).symm,constructSelf _ _ _⟩

lemma cutHeadBook (s : State) (n a : Nat) : Book s (cutHead s n a).1 := by
  unfold cutHead
  split
  · exact Book.refl s
  · exact (Book.construct _ _ _).trans ((Book.insert _ _ _).trans (Book.construct _ _ _))

lemma Held.cutHead (h : Held s live (freeBlock s a::hand) pages)
    (pos : 0 < n) (fits : n ≤ s.size a) : Held (cutHead s n a).1 live (⟨a + s.size a - n,n⟩::hand) pages := by
  rw [cutHeadEq fits]
  split
  next all =>
    rw [all,Nat.add_sub_cancel]
    rwa [freeBlock,all] at h
  have kept := ((h.splitBack fits).exchange (fun q => coverSwap _ _ hand q)).insertPart (by omega)
  rw [← Nat.add_sub_assoc fits]
  exact kept.resize pos

lemma removeSize (s : State) (a : Nat) : (remove s a).size = s.size := by
  dsimp only [remove]
  split <;> rfl

lemma carveStart (fill : Bool) (pos : 0 < n) (fits : n + shift ≤ s.size a) :
    (carve s n shift fill a).2 = a + s.size a - shift - n := by
  have size := removeSize s a
  have tail := @cutTailSize (remove s a) shift a (by rw [size]; omega)
  rw [size] at tail
  dsimp only [carve]
  rw [(cutHeadStart (by rw [tail]; omega)).1,tail]
  omega

lemma Held.carveParts (h : Held s live hand pages) (mem : a ∈ headers s) (pos : 0 < n) (fits : n + shift ≤ s.size a) :
    (PageRange.remove s a).size = s.size ∧
      Held (PageRange.remove s a) live (freeBlock (PageRange.remove s a) a::hand) pages ∧
      shift < (PageRange.remove s a).size a ∧
      (PageRange.cutTail (PageRange.remove s a) shift a).size a = s.size a - shift ∧
      Held (PageRange.cutTail (PageRange.remove s a) shift a) live
        (freeBlock (PageRange.cutTail (PageRange.remove s a) shift a) a::hand) pages ∧
      n ≤ (PageRange.cutTail (PageRange.remove s a) shift a).size a := by
  have size := removeSize s a
  have taken := h.remove mem
  rw [freeBlock,← size] at taken
  have lt : shift < (PageRange.remove s a).size a := by rw [size]; omega
  have front := cutTailSize lt
  have tail := taken.cutTail lt
  rw [← front] at tail
  rw [size] at front
  exact ⟨size,taken,lt,front,tail,by omega⟩

lemma Held.carve (fill : Bool) (h : Held s live hand pages)
    (mem : a ∈ headers s) (pos : 0 < n) (fits : n + shift ≤ s.size a) :
    Held (carve s n shift fill a).1 (⟨⟨(PageRange.carve s n shift fill a).2,n⟩,fill⟩::live) hand pages ∧
      Book s (PageRange.carve s n shift fill a).1 ∧
      (PageRange.carve s n shift fill a).1.size (PageRange.carve s n shift fill a).2 = n := by
  obtain ⟨-,-,-,-,tail,enough⟩ := h.carveParts mem pos fits
  have head := tail.cutHead pos enough
  obtain ⟨start,sized⟩ := cutHeadStart enough
  rw [← start] at head
  exact ⟨head.giveSized fill sized pos,(Book.remove s a).trans ((cutTailBook _ shift a).trans
    ((cutHeadBook _ n a).trans (Book.setBits _ _ _ _))),(congrFun (setBitsSize _ _ _ _) _).trans sized⟩

lemma forEachMem (mem : a ∈ forEach s k) : a ∈ headers s := by
  simp only [forEach,mem_append,mem_flatMap,mem_reverse,mem_range'_1] at mem
  rcases mem with here | ⟨order,bound,there⟩
  · exact memHeaders.mpr (.inl here)
  · exact memHeaders.mpr (.inr ⟨order,by omega,there⟩)

lemma expectedEq (inside : offset ≤ 1) (small : n ≤ physPage)
    (end32 : a + s.size a < 2^32) : (physPage + a + s.size a + (pages64 - n) + offset) % pages64 =
      physPage + a + s.size a - n + offset := by
  have phys : physPage = 0xffff800000000 := rfl
  have wrap : pages64 = 0x10000000000000 := rfl
  have unfolded : physPage + a + s.size a + (pages64 - n) + offset =
    (physPage + a + s.size a - n + offset) + pages64 := by omega
  rw [unfolded,add_mod_right]
  exact mod_eq_of_lt (by omega)

lemma fitsLe (inside : offset ≤ 1) (small : n ≤ physPage)
    (end32 : a + s.size a < 2^32) (ok : fits s n offset alignment a = true) :
    n + alignmentShift s n offset alignment a ≤ s.size a := by
  have fit := of_decide_eq_true ok
  have phys : physPage = 0xffff800000000 := rfl
  have wrap : pages64 = 0x10000000000000 := rfl
  have bound : alignmentShift s n offset alignment a ≤ physPage + a + s.size a - n + offset := by
    dsimp only [alignmentShift]
    rw [expectedEq inside small end32]
    omega
  rw [mod_eq_of_lt (by omega)] at fit
  exact fit

lemma Held.headerRoom (h : Held s live hand pages) (mem : a ∈ headers s) : a + s.size a ≤ s.nbits := by
  have pos := h.shape.positive a mem
  have one := coverOfMem (Shape.freeBlockMem mem) (freeBlockLast pos)
  have total := h.shape.counted (a + s.size a - 1)
  have bound := h.shape.once (a + s.size a - 1)
  have lt := h.tags.room (a + s.size a - 1) (by omega)
  omega

lemma Held.allocAligned {fill : Bool}
    (h : Held s live hand pages) (pos : 0 < n) (inside : offset ≤ 1) (small : n ≤ physPage)
    (ok : allocAligned s n offset alignment fill = some (t,a)) :
    Held t (⟨⟨a,n⟩,fill⟩::live) hand pages ∧ Book s t ∧ t.size a = n ∧ (physPage + a + offset) % alignment = 0 := by
  unfold PageRange.allocAligned at ok
  split at ok
  · cases ok
  rename_i header found
  have mem := forEachMem (mem_of_find?_eq_some found)
  have room := h.headerRoom mem
  have bound := h.tags.small
  have fits := fitsLe inside small (by omega) (List.find?_some found)
  obtain ⟨held,book,sized⟩ := h.carve fill mem pos fits
  have start := carveStart fill pos fits
  rw [some.inj ok] at held book sized start
  refine ⟨held,book,sized,?_⟩
  dsimp only at start
  have shift : alignmentShift s n offset alignment header = (physPage + header + s.size header - n + offset) -
    (physPage + header + s.size header - n + offset) / alignment * alignment := by
    dsimp only [alignmentShift]
    rw [expectedEq inside small (by omega)]
  have down := div_mul_le_self (physPage + header + s.size header - n + offset) alignment
  have multiple : physPage + a + offset =
    (physPage + header + s.size header - n + offset) / alignment * alignment := by omega
  rw [multiple]
  exact mul_mod_left _ _

end OsvKernel.PageRange
