import OsvKernel.PageRange
import OsvKernel.Buckets

/-! The containers of the page range allocator: which headers are linked, where
they are filed, and what the back pointers say. `owned` are the blocks outside of
the containers, live or in the hands of a running operation; the pages of both
together are counted against the pages the allocator was given. -/
namespace OsvKernel.PageRange
open List Nat Blocks Function

def orders : List Nat := (List.range' 0 maxOrder).reverse

lemma ordersNodup : orders.Nodup := by decide

variable {k a i : Nat} {s : State} {b : Block} {owned : List Block} {pages : Nat → Nat}

lemma memOrders : k ∈ orders ↔ k < maxOrder := by simp [orders]

def headers (s : State) : List Nat := forEach s 0

lemma headersEq (s : State) : headers s = s.huge ++ orders.flatMap s.lists := rfl

lemma memHeaders : a ∈ headers s ↔ a ∈ s.huge ∨ ∃ k < maxOrder, a ∈ s.lists k := by
  simp only [headersEq,mem_append,mem_flatMap,memOrders]

def freeBlock (s : State) (a : Nat) : Block := ⟨a,s.size a⟩
def freeBlocks (s : State) : List Block := (headers s).map (freeBlock s)

lemma getMark (b : BitVec 17) (hi : i < 17) : (mark b k).getLsbD i = (b.getLsbD i || decide (i = k)) := by
  simp only [mark,BitVec.getLsbD_or,BitVec.getLsbD_shiftLeft,BitVec.getLsbD_one]
  rcases lt_trichotomy i k with h | h | h
  · simp [h,Nat.ne_of_lt h]
  · simp [h]; omega
  have away : i - k ≠ 0 := by omega
  simp [away,ne_of_gt h]

lemma getUnmark (b : BitVec 17) (hi : i < 17) : (unmark b k).getLsbD i = (b.getLsbD i && !decide (i = k)) := by
  simp only [unmark,BitVec.getLsbD_and,BitVec.getLsbD_not,BitVec.getLsbD_shiftLeft,BitVec.getLsbD_one]
  rcases lt_trichotomy i k with h | h | h
  · simp [h,hi,Nat.ne_of_lt h]
  · simp [h]
  have away : i - k ≠ 0 := by omega
  simp [away,hi,ne_of_gt h]

lemma freeBlockHas {q : Nat} :
    (freeBlock s a).Has q ↔ a ≤ q ∧ q < a + s.size a := Iff.rfl

lemma freeBlockLast (pos : 0 < s.size a) :
    (freeBlock s a).Has (a + s.size a - 1) := freeBlockHas.mpr ⟨by omega,by omega⟩

structure Shape (s : State) (owned : List Block) (pages : Nat → Nat) : Prop where
  counted : ∀ q, cover (freeBlocks s) q + cover owned q = pages q
  once : ∀ q, pages q ≤ 1
  positive : ∀ a ∈ headers s, 0 < s.size a
  filedList : ∀ k < maxOrder, ∀ a ∈ s.lists k, ilog2 (s.size a) = k
  filedHuge : ∀ a ∈ s.huge, maxOrder ≤ ilog2 (s.size a)
  markList : ∀ k < maxOrder, s.notEmpty.getLsbD k = true ↔ s.lists k ≠ []
  markHuge : s.notEmpty.getLsbD maxOrder = true ↔ s.huge ≠ []
  tail : ∀ a ∈ headers s, s.last (a + s.size a - 1) = a

lemma Shape.exchange {other} (h : Shape s owned pages)
    (same : ∀ q, cover other q = cover owned q) : Shape s other pages :=
  ⟨fun q => by rw [same q]; exact h.counted q,h.once,h.positive,h.filedList,h.filedHuge, h.markList,h.markHuge,h.tail⟩

lemma Shape.freeBlockMem (mem : a ∈ headers s) :
    freeBlock s a ∈ freeBlocks s := mem_map_of_mem mem

lemma Shape.apart (h : Shape s owned pages) (mem : a ∈ headers s) (other : b ∈ owned) : Apart (freeBlock s a) b := by
  intro q both
  have one := coverOfMem (Shape.freeBlockMem mem) both.1
  have two := coverOfMem other both.2
  have total := h.counted q
  have bound := h.once q
  omega

lemma Shape.ownedNotHeader (h : Shape s owned pages) (mem : b ∈ owned) (has : b.Has a) : a ∉ headers s := by
  intro header
  exact h.apart header mem a ⟨startHas (b := freeBlock s a) (h.positive a header),has⟩

lemma freeBlocksConstruct {n : Nat} (off : a ∉ headers s) :
    freeBlocks (construct s a n) = freeBlocks s := by
  refine map_congr_left (fun b mem => ?_)
  have ne : b ≠ a := fun eq => off (eq ▸ mem)
  simp [freeBlock,construct,update_of_ne ne]

lemma Shape.construct (h : Shape s owned pages) (n : Nat) (off : a ∉ headers s) : Shape (construct s a n) owned pages := by
  have same : ∀ b ∈ headers s, (PageRange.construct s a n).size b = s.size b := by
    intro b mem
    have ne : b ≠ a := fun eq => off (eq ▸ mem)
    exact update_of_ne ne _ _
  refine ⟨?_,h.once,?_,?_,?_,h.markList,h.markHuge,?_⟩
  · intro q
    rw [freeBlocksConstruct off]
    exact h.counted q
  · intro b mem
    rw [same b mem]
    exact h.positive b mem
  · intro k hk b mem
    rw [same b (memHeaders.mpr (.inr ⟨k,hk,mem⟩))]
    exact h.filedList k hk b mem
  · intro b mem
    rw [same b (memHeaders.mpr (.inl mem))]
    exact h.filedHuge b mem
  intro b mem
  rw [same b mem]
  exact h.tail b mem

lemma insertBySizePerm (size : Nat → Nat) (a : Nat) (l : List Nat) : (insertBySize size a l).Perm (a::l) := by
  induction l with
  | nil => exact Perm.refl _
  | cons b l ih => ?_
  simp only [insertBySize]
  split
  · exact Perm.refl _
  · exact (ih.cons b).trans (Perm.swap a b l)

lemma headersLink (s : State) (a : Nat) : (headers (link s a)).Perm (a::headers s) := by
  dsimp only [link]
  split
  · exact (insertBySizePerm s.size a s.huge).append_right _
  rename_i small
  have mem : ilog2 (s.size a) ∈ orders := memOrders.mpr (by omega)
  have push := Buckets.flatMapPush (f := s.lists) a ordersNodup mem
  exact (push.append_left s.huge).trans perm_middle

lemma linkSize (s : State) (a : Nat) : (link s a).size = s.size := by
  unfold link; dsimp only; split <;> rfl

lemma linkLast (s : State) (a : Nat) : (link s a).last = s.last := by
  unfold link; dsimp only; split <;> rfl

lemma freeBlocksLink (s : State) (a : Nat) : (freeBlocks (link s a)).Perm (freeBlock s a::freeBlocks s) := by
  have size : freeBlock (link s a) = freeBlock s := by funext b; simp [freeBlock,linkSize]
  rw [freeBlocks,size]
  exact (headersLink s a).map _

lemma linkFiledList (filed : ∀ k < maxOrder, ∀ b ∈ s.lists k, ilog2 (s.size b) = k) :
    ∀ k < maxOrder, ∀ b ∈ (link s a).lists k, ilog2 ((link s a).size b) = k := by
  intro k hk b mem
  rw [linkSize]
  unfold link at mem
  dsimp only at mem
  split at mem
  · exact filed k hk b mem
  by_cases same : k = ilog2 (s.size a)
  · subst k
    simp only [update_self,mem_cons] at mem
    rcases mem with rfl | mem
    · rfl
    exact filed _ hk b mem
  simp only [update_of_ne same] at mem
  exact filed k hk b mem

lemma linkFiledHuge (filed : ∀ b ∈ s.huge, maxOrder ≤ ilog2 (s.size b)) :
    ∀ b ∈ (link s a).huge, maxOrder ≤ ilog2 ((link s a).size b) := by
  intro b mem
  rw [linkSize]
  unfold link at mem
  dsimp only at mem
  split at mem
  next large =>
    have mem := (insertBySizePerm s.size a s.huge).mem_iff.mp mem
    rcases mem_cons.mp mem with rfl | mem
    · exact large
    · exact filed b mem
  · exact filed b mem

lemma linkMarkList (marked : ∀ k < maxOrder, s.notEmpty.getLsbD k = true ↔ s.lists k ≠ []) :
    ∀ k < maxOrder, (link s a).notEmpty.getLsbD k = true ↔ (link s a).lists k ≠ [] := by
  intro k hk
  have wide : k < 17 := lt_trans hk (by decide)
  dsimp only [link]
  split
  · simp [getMark _ wide,Nat.ne_of_lt hk,marked k hk]
  rw [getMark _ wide]
  by_cases same : k = ilog2 (s.size a)
  · subst k; simp
  · simp [same,marked k hk]

lemma linkMarkHuge (marked : s.notEmpty.getLsbD maxOrder = true ↔ s.huge ≠ []) :
    (link s a).notEmpty.getLsbD maxOrder = true ↔ (link s a).huge ≠ [] := by
  dsimp only [link]
  split
  · have some : insertBySize s.size a s.huge ≠ [] := by
      intro empty
      have len := (insertBySizePerm s.size a s.huge).length_eq
      simp [empty] at len
    simp [getMark _ (show maxOrder < 17 by decide),some]
  next small =>
    have ne : maxOrder ≠ ilog2 (s.size a) := by omega
    simp [getMark _ (show maxOrder < 17 by decide),ne,marked]

lemma Shape.link (h : Shape s (freeBlock s a::owned) pages)
    (pos : 0 < s.size a) (back : s.last (a + s.size a - 1) = a) : Shape (link s a) owned pages := by
  refine ⟨?_,h.once,?_,linkFiledList h.filedList,linkFiledHuge h.filedHuge,
    linkMarkList h.markList,linkMarkHuge h.markHuge,?_⟩
  · intro q
    have total := h.counted q
    have moved := coverPerm (freeBlocksLink s a) q
    rw [coverCons] at total moved
    omega
  · intro b mem
    rw [linkSize]
    rcases mem_cons.mp ((headersLink s a).mem_iff.mp mem) with rfl | mem
    · exact pos
    · exact h.positive b mem
  intro b mem
  rw [linkSize,linkLast]
  rcases mem_cons.mp ((headersLink s a).mem_iff.mp mem) with rfl | mem
  · exact back
  · exact h.tail b mem

lemma setBitFrame (s : State) (i : Nat) (v : Bool) :
    ∃ bits, setBit s i v = { s with bits := bits } := by
  unfold setBit
  split
  · exact ⟨_,rfl⟩
  · exact ⟨s.bits,rfl⟩

lemma foldSetBitFrame (s : State) (f : Nat → Nat) (v : Bool) (l : List Nat) :
    ∃ bits, l.foldl (fun s idx => setBit s (f idx) v) s = { s with bits := bits } := by
  induction l generalizing s with
  | nil => exact ⟨s.bits,rfl⟩
  | cons i l ih => ?_
  obtain ⟨one,h⟩ := setBitFrame s (f i) v
  obtain ⟨rest,hr⟩ := ih (setBit s (f i) v)
  refine ⟨rest,?_⟩
  rw [foldl_cons,hr,h]

lemma setBitsFrame (s : State) (a : Nat) (v fill : Bool) :
    ∃ bits, setBits s a v fill = { s with bits := bits } := by
  dsimp only [setBits]
  split
  · exact foldSetBitFrame s _ v _
  obtain ⟨one,h⟩ := setBitFrame s (getBitmapIdx a) v
  obtain ⟨two,hr⟩ := setBitFrame (setBit s (getBitmapIdx a) v) (getBitmapIdx a + (s.size a - 1)) v
  exact ⟨two,by rw [hr,h]⟩

lemma Shape.bits (h : Shape s owned pages) (bits : Nat → Bool) :
    Shape { s with bits := bits } owned pages :=
  ⟨h.counted,h.once,h.positive,h.filedList,h.filedHuge,h.markList,h.markHuge,h.tail⟩

lemma Shape.setBits (h : Shape s owned pages) (a : Nat) (v fill : Bool) : Shape (setBits s a v fill) owned pages := by
  obtain ⟨bits,eq⟩ := setBitsFrame s a v fill
  rw [eq]
  exact h.bits bits

lemma Shape.writeLast (h : Shape s owned pages) (mem : b ∈ owned) {e : Nat} (inside : b.Has e) (value : Nat) :
    Shape { s with last := update s.last e value } owned pages := by
  refine ⟨h.counted,h.once,h.positive,h.filedList,h.filedHuge,h.markList,h.markHuge,?_⟩
  intro a header
  have pos := h.positive a header
  have ne : a + s.size a - 1 ≠ e := by
    intro eq
    exact h.apart header mem e ⟨eq ▸ freeBlockLast pos,inside⟩
  show update s.last e value (a + s.size a - 1) = a
  rw [update_of_ne ne]
  exact h.tail a header

lemma Shape.insert (useBitmap : Bool) (h : Shape s (freeBlock s a::owned) pages) (pos : 0 < s.size a) :
    Shape (insert useBitmap s a) owned pages := by
  have written := h.writeLast (.head _) (freeBlockLast pos) a
  have linked := Shape.link (s := { s with last := update s.last (a + s.size a - 1) a })
    written pos (update_self _ _ _)
  dsimp only [PageRange.insert]
  split
  · exact linked.setBits a true false
  · exact linked

lemma headersRemoveHuge (mem : a ∈ s.huge) : (headers s).Perm (a::headers (removeHuge s a)) :=
  (perm_cons_erase mem).append_right _

lemma headersRemoveList (hk : k < maxOrder) (mem : a ∈ s.lists k) : (headers s).Perm (a::headers (removeList s k a)) := by
  have erase := Buckets.flatMapErase ordersNodup (memOrders.mpr hk) mem
  exact (erase.append_left s.huge).trans perm_middle

structure Unlinked (s t : State) (a : Nat) : Prop where
  perm : (headers s).Perm (a::headers t)
  size : t.size = s.size
  last : t.last = s.last
  bits : t.bits = s.bits
  nbits : t.nbits = s.nbits
  store : t.store = s.store
  deferred : t.deferredFree = s.deferredFree

lemma Unlinked.freeBlocks {t : State} (u : Unlinked s t a) :
    (freeBlocks s).Perm (freeBlock s a::freeBlocks t) := by
  have size : freeBlock t = freeBlock s := by funext b; simp [freeBlock,u.size]
  rw [PageRange.freeBlocks,PageRange.freeBlocks,size]
  exact u.perm.map _

lemma removeHugeUnlinked (mem : a ∈ s.huge) : Unlinked s (removeHuge s a) a :=
  ⟨headersRemoveHuge mem,rfl,rfl,rfl,rfl,rfl,rfl⟩

lemma removeListUnlinked (hk : k < maxOrder) (mem : a ∈ s.lists k) : Unlinked s (removeList s k a) a :=
  ⟨headersRemoveList hk mem,rfl,rfl,rfl,rfl,rfl,rfl⟩

lemma removeHugeMark (marked : s.notEmpty.getLsbD maxOrder = true ↔ s.huge ≠ [])
    (mem : a ∈ s.huge) : (removeHuge s a).notEmpty.getLsbD maxOrder = true ↔ (removeHuge s a).huge ≠ [] := by
  have full := marked.mpr (ne_nil_of_mem mem)
  dsimp only [removeHuge]
  cases rest : s.huge.erase a with
  | nil => simp [getUnmark _ (show maxOrder < 17 by decide)]
  | cons b l => simp [full]

lemma removeListMark (hk : k < maxOrder) (marked : s.notEmpty.getLsbD k = true ↔ s.lists k ≠ []) (mem : a ∈ s.lists k) :
    (removeList s k a).notEmpty.getLsbD k = true ↔ (removeList s k a).lists k ≠ [] := by
  have wide : k < 17 := lt_trans hk (by decide)
  have full : s.notEmpty.getLsbD k = true := marked.mpr (ne_nil_of_mem mem)
  dsimp only [removeList]
  rw [update_self]
  cases rest : (s.lists k).erase a with
  | nil => simp [getUnmark _ wide]
  | cons b l => simp [full]

lemma Shape.removeHuge (h : Shape s owned pages) (mem : a ∈ s.huge) :
    Shape (removeHuge s a) (freeBlock s a::owned) pages := by
  have u := removeHugeUnlinked mem
  have kept : ∀ b ∈ headers (PageRange.removeHuge s a), b ∈ headers s := fun b hb =>
    u.perm.mem_iff.mpr (.tail _ hb)
  refine ⟨?_,h.once,fun b hb => h.positive b (kept b hb),h.filedList,
    fun b hb => h.filedHuge b (mem_of_mem_erase hb),?_,removeHugeMark h.markHuge mem,
    fun b hb => h.tail b (kept b hb)⟩
  · intro q
    have total := h.counted q
    have moved := coverPerm u.freeBlocks q
    rw [coverCons] at moved ⊢
    omega
  intro k hk
  have wide : k < 17 := lt_trans hk (by decide)
  have ne : k ≠ maxOrder := Nat.ne_of_lt hk
  dsimp only [PageRange.removeHuge]
  split
  · simp [getUnmark _ wide,ne,h.markList k hk]
  · exact h.markList k hk

lemma Shape.removeList (h : Shape s owned pages) (hk : k < maxOrder) (mem : a ∈ s.lists k) :
    Shape (removeList s k a) (freeBlock s a::owned) pages := by
  have u := removeListUnlinked hk mem
  have kept : ∀ b ∈ headers (PageRange.removeList s k a), b ∈ headers s := fun b hb =>
    u.perm.mem_iff.mpr (.tail _ hb)
  have sub : ∀ i, ∀ b ∈ (PageRange.removeList s k a).lists i, b ∈ s.lists i := by
    intro i b hb
    simp only [PageRange.removeList] at hb
    by_cases same : i = k
    · subst i
      rw [update_self] at hb
      exact mem_of_mem_erase hb
    · rwa [update_of_ne same] at hb
  refine ⟨?_,h.once,fun b hb => h.positive b (kept b hb), fun i hi b hb => h.filedList i hi b (sub i b hb),h.filedHuge,?_,?_,
    fun b hb => h.tail b (kept b hb)⟩
  · intro q
    have total := h.counted q
    have moved := coverPerm u.freeBlocks q
    rw [coverCons] at moved ⊢
    omega
  · intro i hi
    by_cases same : i = k
    · subst i
      exact removeListMark hk (h.markList k hk) mem
    have wide : i < 17 := lt_trans hi (by decide)
    dsimp only [PageRange.removeList]
    rw [update_of_ne same]
    split
    · simp [getUnmark _ wide,same,h.markList i hi]
    · exact h.markList i hi
  have ne := ne_of_gt hk
  dsimp only [PageRange.removeList]
  split
  · simp [getUnmark _ (show maxOrder < 17 by decide),ne,h.markHuge]
  · exact h.markHuge

section
variable (h : Shape s owned pages) (mem : a ∈ headers s)
include h mem

lemma Shape.inHuge (large : maxOrder ≤ ilog2 (s.size a)) : a ∈ s.huge := by
  rcases memHeaders.mp mem with here | ⟨k,hk,there⟩
  · exact here
  have := h.filedList k hk a there
  omega

lemma Shape.inList (small : ilog2 (s.size a) < maxOrder) : a ∈ s.lists (ilog2 (s.size a)) := by
  rcases memHeaders.mp mem with here | ⟨k,hk,there⟩
  · have := h.filedHuge a here
    omega
  · rwa [h.filedList k hk a there]

lemma Shape.unlinked : Unlinked s (remove s a) a := by
  dsimp only [remove]
  split
  · exact removeHugeUnlinked (h.inHuge mem (by assumption))
  · exact removeListUnlinked (by omega) (h.inList mem (by omega))

lemma Shape.remove : Shape (remove s a) (freeBlock s a::owned) pages := by
  dsimp only [PageRange.remove]
  split
  · exact h.removeHuge (h.inHuge mem (by assumption))
  · exact h.removeList (by omega) (h.inList mem (by omega))

end

end OsvKernel.PageRange
