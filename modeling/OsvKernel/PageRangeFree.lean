import OsvKernel.PageRangeOps

/-! Coalescing. A set bit below a block in hand is the last page of a free range,
a set bit above it the first page of one: a live block, a filled one and a page
that was never added all show a zero there. -/
namespace OsvKernel.PageRange
open List Blocks

variable {n p : Nat} {stray : Nat → Bool} {s : State} {live : List Live} {hand owned : List Block} {pages : Nat → Nat}

lemma Shape.freeOrOwned (h : Shape s owned pages) {q : Nat} (one : pages q ≠ 0) :
    (∃ a ∈ headers s, (freeBlock s a).Has q) ∨ ∃ b ∈ owned, b.Has q := by
  have total := h.counted q
  have some : 0 < cover (freeBlocks s) q ∨ 0 < cover owned q := by omega
  rcases some with free | out
  · obtain ⟨b,mem,has⟩ := memOfCover free
    obtain ⟨a,header,rfl⟩ := mem_map.mp mem
    exact .inl ⟨a,header,has⟩
  · exact .inr (memOfCover out)

lemma Shape.ownedApart {b : Block} {owned : List Block} (h : Shape s (b::owned) pages)
    {c : Block} (mem : c ∈ owned) : Apart b c := by
  intro q both
  have total := h.counted q
  have bound := h.once q
  have one := hitsOfHas both.1
  have two := coverOfMem mem both.2
  rw [coverCons] at total
  omega

section
variable (h : Shape s (⟨p,n⟩::blocksOf live) pages) (pos : 0 < n) (clear : ∀ b ∈ live, Clear s b)
include h pos clear

lemma Shape.prevHeader (gap : pages (p-1) = 0 → s.bits (p-1) = false) (above : 0 < p) (bit : s.bits (p-1) = true) :
    s.last (p-1) ∈ headers s ∧ s.last (p-1) + s.size (s.last (p-1)) = p := by
  have given : pages (p-1) ≠ 0 := fun zero => by
    have off := gap zero
    rw [bit] at off
    cases off
  have first := startHas (b := ⟨p,n⟩) pos
  rcases h.freeOrOwned given with ⟨a,header,has⟩ | ⟨b,mem,has⟩
  · obtain ⟨low,high⟩ := freeBlockHas.mp has
    have stop : ¬ p < a + s.size a := fun inside =>
      h.apart header (.head _) p ⟨freeBlockHas.mpr ⟨by omega,inside⟩,first⟩
    have tail := h.tail a header
    have last : a + s.size a - 1 = p - 1 := by omega
    rw [last] at tail
    rw [tail]
    exact ⟨header,by omega⟩
  rcases mem_cons.mp mem with rfl | there
  · have low := has.1
    dsimp only at low
    omega
  obtain ⟨c,live,rfl⟩ := mem_map.mp there
  obtain ⟨low,high⟩ := has
  have stop : ¬ p < c.block.start + c.block.len := fun inside =>
    h.ownedApart there p ⟨first,by omega,inside⟩
  have off := (clear c live).last
  have last : c.block.start + c.block.len - 1 = p - 1 := by omega
  rw [last,bit] at off
  cases off

lemma Shape.nextHeader (gap : pages (p+n) = 0 → s.bits (p+n) = false) (bit : s.bits (p+n) = true) : p+n ∈ headers s := by
  have given : pages (p+n) ≠ 0 := fun zero => by
    have off := gap zero
    rw [bit] at off
    cases off
  have last : Block.Has ⟨p,n⟩ (p+n-1) := hasMk.mpr ⟨by omega,by omega⟩
  rcases h.freeOrOwned given with ⟨a,header,has⟩ | ⟨b,mem,has⟩
  · obtain ⟨low,high⟩ := freeBlockHas.mp has
    have first : ¬ a < p+n := fun inside =>
      h.apart header (.head _) (p+n-1) ⟨freeBlockHas.mpr ⟨by omega,by omega⟩,last⟩
    have same : a = p+n := by omega
    exact same ▸ header
  rcases mem_cons.mp mem with rfl | there
  · have high := has.2
    dsimp only at high
    omega
  obtain ⟨c,live,rfl⟩ := mem_map.mp there
  obtain ⟨low,high⟩ := has
  have first : ¬ c.block.start < p+n := fun inside =>
    h.ownedApart there (p+n-1) ⟨last,by omega,by omega⟩
  have off := (clear c live).first
  have same : c.block.start = p+n := by omega
  rw [same,bit] at off
  cases off

end

lemma coverJoin (a m n : Nat) (rest : List Block) (q : Nat) :
    cover (⟨a,m+n⟩::rest) q = cover (⟨a,m⟩::⟨a+m,n⟩::rest) q := (coverSplit a m n rest q).symm

lemma Shape.mergePrev (h : Shape s (⟨p,n⟩::owned) pages) (size : s.size p = n)
    (mem : s.last (p-1) ∈ headers s) (meet : s.last (p-1) + s.size (s.last (p-1)) = p) :
    Shape (mergePrev s p).1 (⟨(mergePrev s p).2,
      (mergePrev s p).1.size (mergePrev s p).2⟩::owned) pages := by
  have u := h.unlinked mem
  have taken := h.remove mem
  have pos := h.positive _ mem
  dsimp only [PageRange.mergePrev]
  rw [constructSelf,u.size,size]
  refine Shape.construct ?_ _ (taken.ownedNotHeader (.head _) (startHas (b := freeBlock _ _) pos))
  refine taken.exchange (fun q => ?_)
  rw [coverJoin,meet]
  rfl

lemma mergePrevSize (h : Shape s owned pages) (size : s.size p = n) (mem : s.last (p-1) ∈ headers s) :
    (mergePrev s p).1.size (mergePrev s p).2 = s.size (s.last (p-1)) + n := by
  dsimp only [mergePrev]
  rw [constructSelf,(h.unlinked mem).size,size]

lemma Held.mergePrev (h : Held s live (⟨p,n⟩::hand) pages) (size : s.size p = n)
    (mem : s.last (p-1) ∈ headers s) (meet : s.last (p-1) + s.size (s.last (p-1)) = p) :
    Held (mergePrev s p).1 live (⟨(mergePrev s p).2,
      (mergePrev s p).1.size (mergePrev s p).2⟩::hand) pages := by
  have u := h.shape.unlinked mem
  have taken := h.remove mem
  have pos := h.shape.positive _ mem
  dsimp only [PageRange.mergePrev]
  rw [constructSelf,u.size,size]
  refine Held.construct ?_ _ (taken.handHeader (.head _) (startHas (b := freeBlock _ _) pos))
  refine taken.exchange (fun q => ?_)
  rw [coverJoin,meet]
  rfl

lemma Held.mergeNext (h : Held s live (⟨p,n⟩::hand) pages) (size : s.size p = n) (pos : 0 < n) (mem : p+n ∈ headers s) :
    Held (mergeNext s p) live (⟨p,(mergeNext s p).size p⟩::hand) pages := by
  subst n
  have u := h.shape.unlinked mem
  have taken := h.remove mem
  dsimp only [mergeNext]
  rw [constructSelf,u.size]
  refine Held.construct ?_ _ (taken.handHeader (.tail _ (.head _))
    (startHas (b := ⟨p,s.size p⟩) pos))
  refine taken.exchange (fun q => ?_)
  rw [coverJoin,coverSwap]
  rfl

lemma mergePrevBook (s : State) (p : Nat) : Book s (mergePrev s p).1 :=
  (Book.remove s _).trans (Book.construct _ _ _)

lemma mergeNextBook (s : State) (p : Nat) : Book s (mergeNext s p) :=
  (Book.remove s _).trans (Book.construct _ _ _)

lemma Book.joinPrev (s : State) (stray : Nat → Bool) (p : Nat) : Book s (joinPrev s stray p).1 := by
  unfold PageRange.joinPrev
  split
  · exact mergePrevBook s p
  · exact Book.refl s

lemma Book.joinNext (s : State) (stray : Nat → Bool) (p : Nat) : Book s (joinNext s stray p) := by
  unfold PageRange.joinNext
  split
  · exact mergeNextBook s p
  · exact Book.refl s

lemma Book.free (s : State) (stray : Nat → Bool) (p : Nat) : Book s (free s stray p) := by
  dsimp only [PageRange.free]
  exact (Book.joinPrev s stray p).trans ((Book.joinNext _ stray _).trans (Book.insert _ _ _))

lemma Book.freeBuilt (s : State) (a n : Nat) (stray : Nat → Bool) :
    Book s (PageRange.free (PageRange.construct s a n) stray a) :=
  (Book.construct s a n).trans (Book.free (PageRange.construct s a n) stray a)

lemma prevIdxPos (above : 0 < p) (small : p < 2^32) : prevIdx p = p-1 := by
  have idx : getBitmapIdx p = p := Nat.mod_eq_of_lt small
  rw [prevIdx,idx]
  cases p with
  | zero => omega
  | succ p => rfl

lemma prevIdxZero : prevIdx 0 = 2^32-1 := rfl

lemma Held.joinPrev (h : Held s live [⟨p,n⟩] pages)
    (size : s.size p = n) (pos : 0 < n) (below : p = 0 → outside s.nbits stray (2^32-1) = false) :
    ∃ m, Held (joinPrev s stray p).1 live [⟨(joinPrev s stray p).2,m⟩] pages ∧
      (joinPrev s stray p).1.size (joinPrev s stray p).2 = m ∧ 0 < m ∧
      (joinPrev s stray p).2 + m = p+n := by
  have small := h.tags.small
  unfold PageRange.joinPrev
  split
  swap
  · exact ⟨n,h,size,pos,rfl⟩
  rename_i bit
  unfold bitAt at bit
  have room : p < s.nbits := h.inRange (.head _) (startHas (b := ⟨p,n⟩) pos)
  rcases Nat.eq_zero_or_pos p with rfl | above
  · rw [prevIdxZero,if_neg (by omega),below rfl] at bit
    cases bit
  rw [prevIdxPos above (by omega),if_pos (by omega)] at bit
  obtain ⟨mem,meet⟩ := Shape.prevHeader h.shape pos h.tags.clear (h.tags.gap _) above bit
  have sum := mergePrevSize h.shape size mem
  refine ⟨_,h.mergePrev size mem meet,rfl,by omega,?_⟩
  rw [sum,← Nat.add_assoc]
  exact congrArg (· + n) meet

lemma Held.joinNext (h : Held s live [⟨p,n⟩] pages)
    (size : s.size p = n) (pos : 0 < n) (beyond : s.nbits ≤ p+n → outside s.nbits stray (p+n) = false) :
    ∃ m, Held (joinNext s stray p) live [⟨p,m⟩] pages ∧ (joinNext s stray p).size p = m ∧ 0 < m := by
  have idx : getBitmapIdx p = p := idxOfLt h (h.inRange (.head _) (startHas (b := ⟨p,n⟩) pos))
  unfold PageRange.joinNext
  rw [idx,size]
  split
  swap
  · exact ⟨n,h,size,pos⟩
  rename_i bit
  unfold bitAt at bit
  split at bit
  · have mem := Shape.nextHeader h.shape pos h.tags.clear (h.tags.gap _) bit
    have sum : (PageRange.mergeNext s p).size p = n + s.size (p+n) := by
      dsimp only [PageRange.mergeNext]
      rw [constructSelf,(h.shape.unlinked (size ▸ mem)).size,size]
    exact ⟨_,h.mergeNext size pos mem,rfl,by omega⟩
  rw [beyond (by omega)] at bit
  cases bit

lemma Held.free (h : Held s live [⟨p,n⟩] pages)
    (size : s.size p = n) (pos : 0 < n) (below : p = 0 → outside s.nbits stray (2^32-1) = false)
    (beyond : s.nbits ≤ p+n → outside s.nbits stray (p+n) = false) :
    Held (free s stray p) live [] pages := by
  obtain ⟨m,prev,sized,some,stop⟩ := h.joinPrev size pos below
  have same := (Book.joinPrev s stray p).nbits
  obtain ⟨k,next,sized,some⟩ := prev.joinNext sized some (by rw [same,stop]; exact beyond)
  exact Held.insert (by rwa [freeBlock,sized]) (by rwa [sized])

lemma Held.freeLive {rest} {b : Live} (h : Held s live [] pages)
    (perm : live.Perm (b::rest)) (size : s.size b.block.start = b.block.len)
    (below : b.block.start = 0 → outside s.nbits stray (2^32-1) = false)
    (beyond : s.nbits ≤ b.block.stop → outside s.nbits stray b.block.stop = false) :
    Held (PageRange.free s stray b.block.start) rest [] pages :=
  (h.take perm).free size (h.tags.clear b (perm.mem_iff.mpr (.head _))).positive below beyond

end OsvKernel.PageRange
