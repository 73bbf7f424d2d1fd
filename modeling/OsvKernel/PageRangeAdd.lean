import OsvKernel.PageRangeFree

/-! Growing the memory. A range beyond the bitmap is linked without its bits, the
bitmap is cleared and resized, possibly into a buffer that comes from the very
ranges it describes, and the bits are then set afresh for every free range; the
old buffer is freed only after that. -/
namespace OsvKernel.PageRange
open List Option Nat Blocks

def bitmapLive (s : State) : List Live :=
  match s.store with
  | none => []
  | some (p,c) => [⟨⟨p,getSize c⟩,false⟩]

variable {s t c : State} {n cap p q : Nat} {b : Block} {pages : Nat → Nat} {stray : Nat → Bool} {live : List Live} {hand owned : List Block}

lemma bitmapLiveOf (store : t.store = s.store) : bitmapLive t = bitmapLive s := by
  unfold bitmapLive
  rw [store]

lemma Book.bitmapLive (b : Book s t) : bitmapLive t = bitmapLive s := bitmapLiveOf b.store

lemma insertPlainBits (s : State) (a : Nat) : (insert false s a).bits = s.bits := by
  obtain ⟨lists,huge,notEmpty,eq⟩ := linkFrame { s with last := Function.update s.last (a + s.size a - 1) a } a
  unfold insert
  rw [eq]
  rfl

lemma splitTailPlainBits (s : State) (n a : Nat) : (splitTail false s n a).bits = s.bits := by
  unfold splitTail
  split
  · exact insertPlainBits _ _
  · rfl

lemma allocPlainBits {a : Nat} (h : Shape s owned pages)
    (ok : alloc false s n = some (t,a)) : t.bits = s.bits := by
  obtain ⟨c,found,rfl⟩ := allocEq ok
  obtain ⟨_,_,u,_⟩ := h.choose found
  exact (splitTailPlainBits c n a).trans u.bits

lemma foldSetFree {l : List Nat}
    (fit : ∀ a ∈ l, getBitmapIdx a = a ∧ 0 < s.size a ∧ a + s.size a ≤ s.nbits) :
    ∃ bits, l.foldl (fun s pr => setBits s pr true false) s = { s with bits := bits } ∧
      (∀ a ∈ l, bits a = true ∧ bits (a + s.size a - 1) = true) ∧
      (∀ q, s.bits q = true → bits q = true) ∧
      (∀ q, bits q = true → s.bits q = true ∨ ∃ a ∈ l, (freeBlock s a).Has q) := by
  induction l generalizing s with
  | nil => exact ⟨s.bits,rfl,by simp,fun q on => on,fun q on => .inl on⟩
  | cons a l ih => ?_
  obtain ⟨idx,pos,room⟩ := fit a (.head _)
  have set := setEndBits (v := true) idx pos room
  obtain ⟨bits,eq,ends,grow,only⟩ := ih (s := { s with
    bits := Function.update (Function.update s.bits a true) (a + s.size a - 1) true })
    (fun b mem => fit b (.tail _ mem))
  dsimp only at ends grow only
  refine ⟨bits,?_,?_,?_,?_⟩
  · rw [foldl_cons,set,eq]
  · intro b mem
    rcases mem_cons.mp mem with rfl | mem
    · exact ⟨grow _ (by simp [updateTwice]),grow _ (by simp)⟩
    · exact ends b mem
  · intro q on
    exact grow q (by rw [updateTwice]; split <;> trivial)
  intro q on
  rcases only q on with old | ⟨b,mem,has⟩
  · rw [updateTwice] at old
    split at old
    next which =>
      refine .inr ⟨a,.head _,freeBlockHas.mpr ?_⟩
      omega
    · exact .inl old
  · exact .inr ⟨b,.tail _ mem,has⟩

lemma setAllBitsFrame (s : State) : ∃ bits, setAllBits s = { s with bits := bits } := by
  have fold : ∀ (l : List Nat) (s : State),
    ∃ bits, l.foldl (fun s pr => PageRange.setBits s pr true false) s = { s with bits := bits } := by
    intro l
    induction l with
    | nil => exact fun s => ⟨s.bits,rfl⟩
    | cons a l ih => ?_
    intro s
    obtain ⟨one,first⟩ := setBitsFrame s a true false
    obtain ⟨all,rest⟩ := ih { s with bits := one }
    exact ⟨all,by rw [foldl_cons,first,rest]⟩
  exact fold _ s

lemma Shape.retag (h : Shape s (blocksOf live) pages) (zero : s.bits = fun _ => false)
    (small : s.nbits < 2^32) (room : ∀ q, pages q = 1 → q < s.nbits) (positive : ∀ b ∈ live, 0 < b.block.len) :
    Held (setAllBits s) live [] pages ∧ Book s (setAllBits s) ∧ (setAllBits s).size = s.size := by
  have inside : ∀ a ∈ headers s, ∀ q, (freeBlock s a).Has q → pages q = 1 := by
    intro a mem q has
    have one := coverOfMem (Shape.freeBlockMem mem) has
    have total := h.counted q
    have bound := h.once q
    omega
  have fit : ∀ a ∈ headers s, getBitmapIdx a = a ∧ 0 < s.size a ∧ a + s.size a ≤ s.nbits := by
    intro a mem
    have pos := h.positive a mem
    have last := room _ (inside a mem _ (freeBlockLast pos))
    exact ⟨mod_eq_of_lt (by omega),pos,by omega⟩
  obtain ⟨bits,eq,ends,_,only⟩ := foldSetFree fit
  have free : ∀ q, bits q = true → ∃ a ∈ headers s, (freeBlock s a).Has q := by
    intro q on
    rcases only q on with old | found
    · rw [zero] at old
      cases old
    · exact found
  have clear : ∀ b ∈ live, ∀ q, b.block.Has q → bits q = false := by
    intro b mem q has
    rcases on : bits q with _ | _
    · rfl
    obtain ⟨a,header,inFree⟩ := free q on
    exact absurd ⟨inFree,has⟩ (h.apart header (mem_map_of_mem mem) q)
  have fold : setAllBits s = { s with bits := bits } := eq
  rw [fold]
  refine ⟨⟨h.bits bits,small,room,ends,?_,?_⟩,⟨rfl,rfl,rfl⟩,rfl⟩
  · intro b mem
    have pos := positive b mem
    exact ⟨pos,clear b mem _ (startHas pos),clear b mem _ (lastHas pos),fun _ q has => clear b mem q has⟩
  intro q none
  rcases on : bits q with _ | _
  · exact on
  obtain ⟨a,header,has⟩ := free q on
  have one := inside a header q has
  omega

structure Resized (s t : State) (live : List Live) (pages : Nat → Nat) (numBits : Nat) : Prop where
  bits : t.bits = fun _ => false
  nbits : t.nbits = numBits
  result : (t.deferredFree = none ∧ (∀ b ∈ bitmapLive t, 0 < b.block.len) ∧
      Shape t (blocksOf (bitmapLive t ++ live)) pages) ∨
    ∃ p c, s.store = some (p,c) ∧ t.deferredFree = some p ∧ t.size p = getSize c ∧
      (∀ b ∈ bitmapLive t, 0 < b.block.len) ∧
      Shape t (blocksOf (bitmapLive t ++ ⟨⟨p,getSize c⟩,false⟩::live)) pages

lemma Shape.restore (h : Shape s owned pages) (store : Option (Nat × Nat))
    (deferred : Option Nat) : Shape { s with store := store, deferredFree := deferred } owned pages :=
  ⟨h.counted,h.once,h.positive,h.filedList,h.filedHuge,h.markList,h.markHuge,h.tail⟩

lemma resizeShape {numBits : Nat}
    (h : Shape s (blocksOf (bitmapLive s ++ live)) pages) (zero : s.bits = fun _ => false)
    (positive : ∀ b ∈ bitmapLive s, 0 < b.block.len) (idle : s.deferredFree = none)
    (pos : 0 < numBits) (enough : (numBits+63)/64 ≤ cap) (ok : resize s numBits cap = some t) :
    Resized s t live pages numBits := by
  have sized : 0 < getSize cap := by
    unfold getSize
    omega
  have reset : (fun i => if i < s.nbits then s.bits i else false) = fun _ => false := by
    funext i
    rw [zero]
    split <;> rfl
  unfold resize at ok
  dsimp only at ok
  rw [reset] at ok
  have base : Shape { s with bits := fun _ => false, nbits := numBits } (blocksOf (bitmapLive s ++ live)) pages :=
    ⟨h.counted,h.once,h.positive,h.filedList,h.filedHuge,h.markList,h.markHuge,h.tail⟩
  split at ok
  swap
  next stored =>
    obtain ⟨⟨c,q⟩,got,last⟩ := bind_eq_some_iff.mp ok
    cases last
    obtain ⟨shape,book⟩ := base.allocPlain sized got
    have before : bitmapLive s = [] := by rw [bitmapLive,stored]
    rw [before] at shape
    have plain := allocPlainBits base got
    refine ⟨plain,book.nbits,.inl ⟨book.deferred.trans idle,?_,?_⟩⟩
    · intro b mem
      rw [mem_singleton.mp mem]
      exact sized
    · exact shape.restore _ _
  rename_i p c stored
  have before : bitmapLive s = [⟨⟨p,getSize c⟩,false⟩] := by rw [bitmapLive,stored]
  split at ok
  · cases ok
    exact ⟨rfl,rfl,.inl ⟨idle,positive,base⟩⟩
  obtain ⟨⟨d,q⟩,got,last⟩ := bind_eq_some_iff.mp ok
  cases last
  obtain ⟨shape,book⟩ := base.allocPlain sized got
  rw [before] at shape positive
  have old := positive _ (.head _)
  have off := shape.ownedNotHeader
    (.tail _ (.head _)) (startHas (b := ⟨p,getSize c⟩) old)
  have built := shape.construct (getSize c) off
  have plain := allocPlainBits base got
  refine ⟨plain,book.nbits,.inr ⟨p,c,stored,rfl,constructSelf _ _ _,?_,?_⟩⟩
  · intro b mem
    rw [mem_singleton.mp mem]
    exact sized
  · exact built.restore _ _

def withBlock (pages : Nat → Nat) (b : Block) (q : Nat) : Nat := pages q + hits b q

lemma Shape.fresh (h : Shape s owned pages)
    (free : ∀ q, Block.Has ⟨p,n⟩ q → pages q = 0) : Shape s (⟨p,n⟩::owned) (withBlock pages ⟨p,n⟩) := by
  refine ⟨?_,?_,h.positive,h.filedList,h.filedHuge,h.markList,h.markHuge,h.tail⟩
  · intro q
    have total := h.counted q
    rw [coverCons,withBlock]
    omega
  intro q
  have bound := h.once q
  unfold withBlock hits
  split
  · rw [free q (by assumption)]
  · omega

lemma withBlockOne (one : withBlock pages b q = 1) : pages q = 1 ∨ b.Has q := by
  unfold withBlock hits at one
  split at one
  · exact .inr (by assumption)
  · exact .inl (by omega)

lemma withBlockZero (zero : withBlock pages b q = 0) : pages q = 0 := by
  unfold withBlock at zero
  omega

structure Ready (s : State) (live : List Live) (pages : Nat → Nat) : Prop where
  held : Held s (bitmapLive s ++ live) [] pages
  idle : s.deferredFree = none
  top : ∀ i, s.nbits = i+1 → pages i = 1

lemma Held.roomLive (h : Held s live hand pages) {b : Live} (mem : b ∈ live) :
    b.block.stop ≤ s.nbits :=
  (h.take (perm_cons_erase mem)).roomOf (.head _) (h.tags.clear b mem).positive

lemma Ready.fresh (h : Ready s live pages) (pos : 0 < n)
    (free : ∀ q, Block.Has ⟨p,n⟩ q → pages q = 0) (within : p+n ≤ s.nbits) :
    Held s (bitmapLive s ++ live) [⟨p,n⟩] (withBlock pages ⟨p,n⟩) ∧ p+n < s.nbits := by
  constructor
  · refine ⟨h.held.shape.fresh free,h.held.tags.small,?_,h.held.tags.set,h.held.tags.clear,?_⟩
    · intro q one
      rcases withBlockOne one with old | ⟨_,high⟩
      · exact h.held.tags.room q old
      · exact lt_of_lt_of_le high within
    · exact fun q zero => h.held.tags.gap q (withBlockZero zero)
  refine lt_of_le_of_ne within fun last => ?_
  have one := h.top (p+n-1) (by omega)
  have zero := free (p+n-1) (hasMk.mpr ⟨by omega,by omega⟩)
  omega

lemma Ready.add (h : Ready s live pages) (size : s.size p = n) (pos : 0 < n)
    (free : ∀ q, Block.Has ⟨p,n⟩ q → pages q = 0) (within : p+n ≤ s.nbits)
    (below : p = 0 → outside s.nbits stray (2^32-1) = false) :
    Ready (PageRange.free s stray p) live (withBlock pages ⟨p,n⟩) := by
  obtain ⟨held,high⟩ := h.fresh pos free within
  have freed := held.free size pos below fun beyond => absurd high (not_lt.mpr beyond)
  have book := Book.free s stray p
  generalize PageRange.free s stray p = t at freed book
  rw [← book.bitmapLive] at freed
  refine ⟨freed,book.deferred.trans h.idle,?_⟩
  intro i last
  have one := h.top i (book.nbits ▸ last)
  have bound := freed.shape.once i
  unfold withBlock at bound ⊢
  omega

lemma Ready.joinInitial (h : Ready s live pages) (size : s.size p = n)
    (pos : 0 < n) (small : p+n < 2^32) (free : ∀ q, Block.Has ⟨p,n⟩ q → pages q = 0) :
    Shape (joinInitial s p).1 (⟨(PageRange.joinInitial s p).2,
        (joinInitial s p).1.size (joinInitial s p).2⟩::blocksOf (bitmapLive s ++ live))
      (withBlock pages ⟨p,n⟩) ∧
    0 < (joinInitial s p).1.size (joinInitial s p).2 ∧ Book s (joinInitial s p).1 := by
  have fresh := h.held.shape.fresh free
  unfold PageRange.joinInitial
  split
  swap
  · dsimp only
    rw [size]
    exact ⟨fresh,pos,Book.refl s⟩
  rename_i bit
  have below := h.held.tags.small
  rcases Nat.eq_zero_or_pos p with rfl | above
  · rw [prevIdxZero] at bit
    omega
  rw [prevIdxPos above (by omega)] at bit
  obtain ⟨mem,meet⟩ := Shape.prevHeader fresh pos h.held.tags.clear
    (fun zero => h.held.tags.gap _ (withBlockZero zero)) above bit.2
  have grown := mergePrevSize fresh size mem
  exact ⟨fresh.mergePrev size mem meet,by omega,mergePrevBook s p⟩

lemma Held.freeDeferred {b : Live}
    (h : Held s (bitmapLive s ++ b::live) [] pages) (deferred : s.deferredFree = some b.block.start)
    (size : s.size b.block.start = b.block.len) (below : b.block.start = 0 → outside s.nbits stray (2^32-1) = false)
    (beyond : b.block.stop < s.nbits) :
    Held (freeDeferred s stray) (bitmapLive (PageRange.freeDeferred s stray) ++ live) [] pages ∧
      (freeDeferred s stray).deferredFree = none ∧
      (freeDeferred s stray).nbits = s.nbits := by
  have freed := Held.freeLive h perm_middle size below (by omega)
  have book := Book.free s stray b.block.start
  have shape : PageRange.freeDeferred s stray =
    { PageRange.free s stray b.block.start with deferredFree := none } := by
    rw [PageRange.freeDeferred,deferred]
  have live : bitmapLive { PageRange.free s stray b.block.start with deferredFree := none } = bitmapLive s :=
    bitmapLiveOf book.store
  rw [shape,live]
  generalize PageRange.free s stray b.block.start = t at freed book
  exact ⟨⟨freed.shape.restore t.store none,freed.tags.congr rfl rfl rfl (fun _ mem => mem)⟩,rfl,book.nbits⟩

lemma initialAddGrow (size : s.size p = n)
    (small : p+n < 2^32) (pos : 0 < n) (grow : s.nbits < p+n) (ok : initialAdd s stray p cap = some t) :
    ∃ c, resize { insert false (joinInitial s p).1 (joinInitial s p).2 with bits := fun _ => false } (p+n) cap =
      some c ∧ t = freeDeferred (setAllBits c) stray := by
  have idx : getBitmapIdx p = p := mod_eq_of_lt (by omega)
  unfold initialAdd at ok
  dsimp only at ok
  rw [idx,size,if_pos grow] at ok
  obtain ⟨c,resized,last⟩ := bind_eq_some_iff.mp ok
  cases last
  exact ⟨c,resized,rfl⟩

section
variable (h : Ready s live pages) (size : s.size p = n) (pos : 0 < n) (free : ∀ q, Block.Has ⟨p,n⟩ q → pages q = 0) (small : p+n < 2^32)
include h size pos free small

lemma Ready.relink (enough : (p+n+63)/64 ≤ cap)
    (ok : PageRange.resize { insert false (PageRange.joinInitial s p).1 (PageRange.joinInitial s p).2 with
      bits := fun _ => false } (p+n) cap = some c) :
    Resized s c live (withBlock pages ⟨p,n⟩) (p+n) := by
  obtain ⟨joined,some,book⟩ := h.joinInitial size pos small free
  have linked := (joined.insert false some).bits (fun _ => false)
  have booked := book.trans (Book.insert false (PageRange.joinInitial s p).1 (PageRange.joinInitial s p).2)
  have same : bitmapLive { insert false (PageRange.joinInitial s p).1 (PageRange.joinInitial s p).2 with
      bits := fun _ => false } = bitmapLive s := bitmapLiveOf booked.store
  obtain ⟨zero,nbits,result⟩ := resizeShape (same ▸ linked) rfl
    (fun b mem => (h.held.tags.clear b (mem_append_left _ (same ▸ mem))).positive)
    (booked.deferred.trans h.idle) (by omega) enough ok
  refine ⟨zero,nbits,?_⟩
  rcases result with fits | ⟨q,old,stored,rest⟩
  · exact .inl fits
  · exact .inr ⟨q,old,booked.store.symm.trans stored,rest⟩

lemma Ready.retagged (grow : s.nbits < p+n) (enough : (p+n+63)/64 ≤ cap)
    (ok : PageRange.resize { insert false (PageRange.joinInitial s p).1 (PageRange.joinInitial s p).2 with
      bits := fun _ => false } (p+n) cap = some c) :
    (setAllBits c).nbits = p+n ∧ (((setAllBits c).deferredFree = none ∧
          Held (setAllBits c) (bitmapLive (setAllBits c) ++ live) [] (withBlock pages ⟨p,n⟩)) ∨
        ∃ q old, s.store = some (q,old) ∧ (setAllBits c).deferredFree = some q ∧ (setAllBits c).size q = getSize old ∧
          q + getSize old ≤ s.nbits ∧
          Held (setAllBits c) (bitmapLive (setAllBits c) ++ ⟨⟨q,getSize old⟩,false⟩::live) [] (withBlock pages ⟨p,n⟩)) := by
  have clear := h.held.tags.clear
  have room : ∀ q, withBlock pages ⟨p,n⟩ q = 1 → q < p+n := by
    intro q one
    rcases withBlockOne one with old | ⟨_,high⟩
    · exact lt_trans (h.held.tags.room q old) grow
    · exact high
  obtain ⟨zero,nbits,result⟩ := h.relink size pos free small enough ok
  rcases result with ⟨idle,positive,shape⟩ | ⟨q,old,stored,deferred,sized,positive,shape⟩
  · obtain ⟨held,book,_⟩ := shape.retag zero (by omega) (by rwa [nbits]) (fun b mem => by
      rcases mem_append.mp mem with own | other
      · exact positive b own
      · exact (clear b (mem_append_right _ other)).positive)
    exact ⟨book.nbits.trans nbits,.inl ⟨book.deferred.trans idle,book.bitmapLive ▸ held⟩⟩
  have owner : bitmapLive s = [⟨⟨q,getSize old⟩,false⟩] := by rw [bitmapLive,stored]
  have mine : (⟨⟨q,getSize old⟩,false⟩ : Live) ∈ bitmapLive s ++ live :=
    mem_append_left _ (owner ▸ (.head _))
  obtain ⟨held,book,same⟩ := shape.retag zero (by omega) (by rwa [nbits]) (fun b mem => by
    rcases mem_append.mp mem with own | other
    · exact positive b own
    rcases mem_cons.mp other with rfl | other
    · exact (clear _ mine).positive
    · exact (clear b (mem_append_right _ other)).positive)
  have stop := h.held.roomLive mine
  rw [← book.bitmapLive] at held
  exact ⟨book.nbits.trans nbits,.inr ⟨q,old,stored,book.deferred.trans deferred,by rw [same]; exact sized,stop,held⟩⟩

lemma Ready.grown (grow : s.nbits < p+n) (enough : (p+n+63)/64 ≤ cap)
    (below : ∀ c, s.store = some (0,c) → outside (p+n) stray (2^32-1) = false)
    (ok : initialAdd s stray p cap = some t) : Ready t live (withBlock pages ⟨p,n⟩) := by
  have top : ∀ i, p+n = i+1 → withBlock pages ⟨p,n⟩ i = 1 := by
    intro i last
    have has : Block.Has ⟨p,n⟩ i := hasMk.mpr ⟨by omega,by omega⟩
    rw [withBlock,hitsOfHas has,free i has]
  obtain ⟨c,resized,rfl⟩ := initialAddGrow size small pos grow ok
  obtain ⟨nbits,⟨idle,held⟩ | ⟨q,old,stored,deferred,sized,stop,held⟩⟩ :=
    h.retagged size pos free small grow enough resized
  · have still : freeDeferred (setAllBits c) stray = setAllBits c := by rw [freeDeferred,idle]
    rw [still]
    exact ⟨held,idle,by rwa [nbits]⟩
  obtain ⟨freed,idle,kept⟩ := held.freeDeferred (b := ⟨⟨q,getSize old⟩,false⟩) deferred sized
    (fun first => by rw [nbits]; exact below old (first ▸ stored)) (by rw [nbits]; exact lt_of_le_of_lt stop grow)
  exact ⟨freed,idle,by rwa [kept,nbits]⟩

lemma Ready.initialAdd (enough : (p+n+63)/64 ≤ cap) (first : p = 0 → outside s.nbits stray (2^32-1) = false)
    (below : ∀ c, s.store = some (0,c) → outside (p+n) stray (2^32-1) = false)
    (ok : initialAdd s stray p cap = some t) : Ready t live (withBlock pages ⟨p,n⟩) := by
  rcases lt_or_ge s.nbits (p+n) with grow | within
  · exact h.grown size pos free small grow enough below ok
  have idx : getBitmapIdx p = p := mod_eq_of_lt (by omega)
  unfold PageRange.initialAdd at ok
  dsimp only at ok
  rw [idx,size,if_neg (by omega)] at ok
  rw [← some.inj ok]
  exact h.add size pos free within first

end

end OsvKernel.PageRange
