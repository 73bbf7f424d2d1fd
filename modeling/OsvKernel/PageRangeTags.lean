import OsvKernel.PageRangeShape

/-! The boundary tags. Only the bits of the two end pages of a block mean anything,
and of every page of a block that was filled; a bit inside another block is stale.
Pages that were never added keep a zero, so a block next to them has no neighbour. -/
namespace OsvKernel.PageRange
open List Blocks
open Function (update update_apply update_of_ne)

structure Live where
  block : Block
  fill : Bool
  deriving DecidableEq, Repr

def blocksOf (live : List Live) : List Block := live.map Live.block

@[simp] lemma blocksOfCons (b : Live) (live : List Live) :
    blocksOf (b::live) = b.block::blocksOf live := rfl

structure Clear (s : State) (b : Live) : Prop where
  positive : 0 < b.block.len
  first : s.bits b.block.start = false
  last : s.bits (b.block.start + b.block.len - 1) = false
  filled : b.fill = true → ∀ q, b.block.Has q → s.bits q = false

structure Tags (s : State) (live : List Live) (pages : Nat → Nat) : Prop where
  small : s.nbits < 2^32
  room : ∀ q, pages q = 1 → q < s.nbits
  set : ∀ a ∈ headers s, s.bits a = true ∧ s.bits (a + s.size a - 1) = true
  clear : ∀ b ∈ live, Clear s b
  gap : ∀ q, pages q = 0 → s.bits q = false

structure Held (s : State) (live : List Live) (hand : List Block) (pages : Nat → Nat) : Prop where
  shape : Shape s (hand ++ blocksOf live) pages
  tags : Tags s live pages

variable {b : Block} {q i a : Nat} {s t : State} {v : Bool} {live : List Live} {hand : List Block} {pages : Nat → Nat}

section
variable (h : Held s live hand pages)
include h

lemma Held.exchange {other}
    (same : ∀ q, cover other q = cover hand q) : Held s live other pages :=
  ⟨h.shape.exchange (fun q => by rw [coverAppend,coverAppend,same q]),h.tags⟩

lemma Held.perm {other} (perm : live.Perm other) :
    Held s other hand pages := by
  refine ⟨h.shape.exchange (fun q => ?_),h.tags.small,h.tags.room,h.tags.set,
    fun b mem => h.tags.clear b (perm.mem_iff.mpr mem),h.tags.gap⟩
  rw [coverAppend,coverAppend,blocksOf,blocksOf,coverPerm (perm.map Live.block)]

lemma Held.pagesOfHand (mem : b ∈ hand) (has : b.Has q) : pages q = 1 := by
  have total := h.shape.counted q
  have one := coverOfMem mem has
  have bound := h.shape.once q
  rw [coverAppend] at total
  omega

lemma Held.handLive (mem : b ∈ hand) {c : Live} (other : c ∈ live) : Apart b c.block := by
  intro q both
  have total := h.shape.counted q
  have bound := h.shape.once q
  have one := coverOfMem mem both.1
  have two : 1 ≤ cover (blocksOf live) q := coverOfMem (mem_map_of_mem other) both.2
  rw [coverAppend] at total
  omega

lemma Held.handHeader (mem : b ∈ hand) (has : b.Has q) : q ∉ headers s :=
  h.shape.ownedNotHeader (mem_append_left _ mem) has

lemma Held.inRange (mem : b ∈ hand) (has : b.Has q) : q < s.nbits := h.tags.room q (h.pagesOfHand mem has)

lemma idxOfLt (lt : q < s.nbits) :
    getBitmapIdx q = q := Nat.mod_eq_of_lt (Nat.lt_trans lt h.tags.small)

end

lemma setBitBits (lt : i < s.nbits) :
    setBit s i v = { s with bits := update s.bits i v } := if_pos lt

lemma setEndBits (idx : getBitmapIdx a = a) (pos : 0 < s.size a) (room : a + s.size a ≤ s.nbits) :
    setBits s a v false = { s with
      bits := update (update s.bits a v) (a + s.size a - 1) v } := by
  have first : a < s.nbits := by omega
  have last : a + s.size a - 1 < s.nbits := by omega
  have same : a + (s.size a - 1) = a + s.size a - 1 := by omega
  simp only [setBits,idx,Bool.false_eq_true,if_false,same]
  rw [setBitBits first]
  exact setBitBits (s := { s with bits := update s.bits a v }) last

lemma foldSetBits {n : Nat} (room : a + n ≤ s.nbits) :
    (List.range n).foldl (fun s idx => setBit s (a+idx) v) s =
      { s with bits := fun q => if a ≤ q ∧ q < a+n then v else s.bits q } := by
  induction n with
  | zero =>
    have none : ∀ q, ¬ (a ≤ q ∧ q < a+0) := fun q => by omega
    simp only [range_zero,foldl_nil,none,if_false]
  | succ n ih => ?_
  rw [range_succ,foldl_append,ih (by omega)]
  have lt : a+n < s.nbits := by omega
  simp only [foldl_cons,foldl_nil,setBit,if_pos lt]
  congr 1
  funext q
  by_cases last : q = a+n
  · subst q
    simp
  rw [update_of_ne last]
  have same : (a ≤ q ∧ q < a+n) ↔ (a ≤ q ∧ q < a+(n+1)) := by omega
  simp only [same]

lemma setFillBits (idx : getBitmapIdx a = a) (pos : 0 < s.size a) (room : a + s.size a ≤ s.nbits) :
    setBits s a v true = { s with
      bits := fun q => if a ≤ q ∧ q < a + s.size a then v else s.bits q } := by
  have len : s.size a - 1 + 1 = s.size a := by omega
  simp only [setBits,idx,if_true,len]
  exact foldSetBits room

lemma Held.roomOf (h : Held s live hand pages) (mem : b ∈ hand) (pos : 0 < b.len) : b.start + b.len ≤ s.nbits := by
  have lt := h.inRange mem (lastHas pos)
  omega

lemma Held.handIdx (h : Held s live hand pages) (mem : freeBlock s a ∈ hand) (pos : 0 < s.size a) : getBitmapIdx a = a :=
  idxOfLt h (h.inRange mem (startHas (b := freeBlock s a) pos))

lemma Tags.congr (h : Tags s live pages) (nbits : t.nbits = s.nbits)
    (bits : t.bits = s.bits) (size : t.size = s.size) (sub : ∀ a ∈ headers t, a ∈ headers s) :
    Tags t live pages := by
  refine ⟨nbits ▸ h.small,fun q one => nbits ▸ h.room q one,?_,?_,?_⟩
  · intro a mem
    rw [bits,size]
    exact h.set a (sub a mem)
  · intro b mem
    have c := h.clear b mem
    exact ⟨c.positive,bits ▸ c.first,bits ▸ c.last,fun f q has => bits ▸ c.filled f q has⟩
  intro q zero
  rw [bits]
  exact h.gap q zero

lemma Held.unlink (h : Held s live hand pages)
    (shape : Shape t (freeBlock s a::(hand ++ blocksOf live)) pages) (u : Unlinked s t a) :
    Held t live (freeBlock s a::hand) pages :=
  ⟨shape,h.tags.congr u.nbits u.bits u.size (fun _ mem => u.perm.mem_iff.mpr (.tail _ mem))⟩

lemma Held.remove (h : Held s live hand pages) (mem : a ∈ headers s) :
    Held (remove s a) live (freeBlock s a::hand) pages :=
  h.unlink (h.shape.remove mem) (h.shape.unlinked mem)

lemma Held.construct (h : Held s live hand pages) (n : Nat)
    (off : a ∉ headers s) : Held (construct s a n) live hand pages := by
  refine ⟨h.shape.construct n off,h.tags.small,h.tags.room,?_,?_,h.tags.gap⟩
  · intro b mem
    have ne : b ≠ a := fun eq => off (eq ▸ mem)
    simp only [PageRange.construct,update_of_ne ne]
    exact h.tags.set b mem
  intro b mem
  have c := h.tags.clear b mem
  exact ⟨c.positive,c.first,c.last,c.filled⟩

lemma linkFrame (s : State) (a : Nat) :
    ∃ lists huge notEmpty, link s a = { s with lists := lists, huge := huge, notEmpty := notEmpty } := by
  dsimp only [link]
  split <;> exact ⟨_,_,_,rfl⟩

lemma headersInsert (useBitmap : Bool) (s : State) (a : Nat) : (headers (insert useBitmap s a)).Perm (a::headers s) := by
  have linked := headersLink { s with last := update s.last (a + s.size a - 1) a } a
  rcases useBitmap with _ | _
  · exact linked
  obtain ⟨bits,eq⟩ := setBitsFrame (link { s with last := update s.last (a + s.size a - 1) a } a)
    a true false
  simp only [insert,if_true,eq]
  exact linked

lemma insertFrame (useBitmap : Bool) (s : State) (a : Nat) : ∃ lists huge notEmpty bits last, insert useBitmap s a =
      { s with lists := lists, huge := huge, notEmpty := notEmpty, bits := bits, last := last } := by
  obtain ⟨lists,huge,notEmpty,eq⟩ := linkFrame { s with last := update s.last (a + s.size a - 1) a } a
  unfold insert
  rw [eq]
  rcases useBitmap with _ | _
  · exact ⟨lists,huge,notEmpty,s.bits,_,rfl⟩
  obtain ⟨bits,set⟩ := setBitsFrame { s with
    last := update s.last (a + s.size a - 1) a, lists := lists, huge := huge, notEmpty := notEmpty }
    a true false
  exact ⟨lists,huge,notEmpty,bits,_,set⟩

lemma insertSize (useBitmap : Bool) (s : State) (a : Nat) : (insert useBitmap s a).size = s.size := by
  obtain ⟨lists,huge,notEmpty,bits,last,eq⟩ := insertFrame useBitmap s a
  rw [eq]

lemma insertBits (idx : getBitmapIdx a = a) (pos : 0 < s.size a) (room : a + s.size a ≤ s.nbits) :
    (insert true s a).bits = update (update s.bits a true) (a + s.size a - 1) true := by
  obtain ⟨lists,huge,notEmpty,eq⟩ := linkFrame { s with last := update s.last (a + s.size a - 1) a } a
  have set := setEndBits (s := { s with
    last := update s.last (a + s.size a - 1) a, lists := lists, huge := huge, notEmpty := notEmpty })
    (v := true) idx pos room
  unfold insert
  rw [eq]
  exact congrArg State.bits set

lemma updateTwice {f : Nat → Bool} {j : Nat} :
    update (update f i v) j v q = if q = i ∨ q = j then v else f q := by
  simp only [update_apply]
  split <;> rename_i one
  · simp [one]
  · simp [one]

structure Book (s t : State) : Prop where
  nbits : t.nbits = s.nbits
  store : t.store = s.store
  deferred : t.deferredFree = s.deferredFree

lemma Book.refl (s : State) : Book s s := ⟨rfl,rfl,rfl⟩

lemma Book.trans {u : State} (one : Book s t) (two : Book t u) : Book s u :=
  ⟨two.nbits.trans one.nbits,two.store.trans one.store,two.deferred.trans one.deferred⟩

lemma Book.construct (s : State) (a n : Nat) : Book s (construct s a n) := ⟨rfl,rfl,rfl⟩

lemma Book.insert (useBitmap : Bool) (s : State) (a : Nat) : Book s (insert useBitmap s a) := by
  obtain ⟨lists,huge,notEmpty,bits,last,eq⟩ := insertFrame useBitmap s a
  rw [eq]
  exact ⟨rfl,rfl,rfl⟩

lemma Book.setBits (s : State) (a : Nat) (v fill : Bool) : Book s (setBits s a v fill) := by
  obtain ⟨bits,eq⟩ := setBitsFrame s a v fill
  rw [eq]
  exact ⟨rfl,rfl,rfl⟩

lemma Book.remove (s : State) (a : Nat) : Book s (remove s a) := by
  dsimp only [PageRange.remove]
  split <;> exact ⟨rfl,rfl,rfl⟩

lemma Held.insert (h : Held s live (freeBlock s a::hand) pages)
    (pos : 0 < s.size a) : Held (insert true s a) live hand pages := by
  have mem : freeBlock s a ∈ freeBlock s a::hand := .head _
  have bits := insertBits (h.handIdx mem pos) pos (h.roomOf mem pos)
  have first : (freeBlock s a).Has a := startHas pos
  have last := freeBlockLast pos
  have book := Book.insert true s a
  have off : ∀ q, ¬ (freeBlock s a).Has q → (PageRange.insert true s a).bits q = s.bits q := by
    intro q out
    have neFirst : q ≠ a := fun eq => out (eq ▸ first)
    have neLast : q ≠ a + s.size a - 1 := fun eq => out (eq ▸ last)
    rw [bits,updateTwice,if_neg (not_or.mpr ⟨neFirst,neLast⟩)]
  refine ⟨h.shape.insert true pos,book.nbits ▸ h.tags.small,fun q one => book.nbits ▸ h.tags.room q one,?_,?_,?_⟩
  · intro b header
    rw [insertSize,bits,updateTwice,updateTwice]
    rcases mem_cons.mp ((headersInsert true s a).mem_iff.mp header) with rfl | old
    · simp
    obtain ⟨one,two⟩ := h.tags.set b old
    simp only [one,two,ite_self,and_self]
  · intro b there
    have apart := h.handLive mem there
    have c := h.tags.clear b there
    refine ⟨c.positive,?_,?_,?_⟩
    · rw [off _ (fun has => apart _ ⟨has,startHas c.positive⟩)]
      exact c.first
    · rw [off _ (fun has => apart _ ⟨has,lastHas c.positive⟩)]
      exact c.last
    intro filled q has
    rw [off q (fun here => apart q ⟨here,has⟩)]
    exact c.filled filled q has
  intro q zero
  rw [off q (fun has => by have one := h.pagesOfHand mem has; omega)]
  exact h.tags.gap q zero

lemma setClear (fill : Bool) (idx : getBitmapIdx a = a) (pos : 0 < s.size a) (room : a + s.size a ≤ s.nbits) :
    ∃ bits, setBits s a false fill = { s with bits := bits } ∧
      (∀ q, bits q = true → s.bits q = true ∧ ¬ (fill = true ∧ (freeBlock s a).Has q)) ∧
      bits a = false ∧ bits (a + s.size a - 1) = false ∧
      (∀ q, ¬ (freeBlock s a).Has q → bits q = s.bits q) := by
  have first : (freeBlock s a).Has a := startHas pos
  have last := freeBlockLast pos
  cases fill
  case true =>
    refine ⟨_,setFillBits idx pos room,?_,if_pos first,if_pos last,fun q out => if_neg out⟩
    intro q on
    split at on
    · cases on
    next out => exact ⟨on,fun both => out both.2⟩
  refine ⟨_,setEndBits idx pos room,?_,?_,?_,?_⟩
  · intro q
    rw [updateTwice]
    split <;> simp
  · rw [updateTwice,if_pos (.inl rfl)]
  · rw [updateTwice,if_pos (.inr rfl)]
  intro q out
  have neFirst : q ≠ a := fun eq => out (eq ▸ first)
  have neLast : q ≠ a + s.size a - 1 := fun eq => out (eq ▸ last)
  rw [updateTwice,if_neg (not_or.mpr ⟨neFirst,neLast⟩)]

lemma Held.give (fill : Bool) (h : Held s live (freeBlock s a::hand) pages) (pos : 0 < s.size a) :
    Held (setBits s a false fill) (⟨freeBlock s a,fill⟩::live) hand pages := by
  have mem : freeBlock s a ∈ freeBlock s a::hand := .head _
  have idx := h.handIdx mem pos
  have room := h.roomOf mem pos
  obtain ⟨bits,eq,kept,one,two,three⟩ := setClear fill idx pos room
  rw [eq]
  refine ⟨(h.shape.bits bits).exchange (fun q => ?_),h.tags.small,h.tags.room,?_,?_,?_⟩
  · simp only [coverAppend,blocksOfCons,coverCons]
    omega
  · intro b header
    have apart := h.shape.apart header (mem_append_left _ mem)
    have positive := h.shape.positive b header
    obtain ⟨setFirst,setLast⟩ := h.tags.set b header
    have outFirst : ¬ (freeBlock s a).Has b := fun has => apart b ⟨startHas (b := freeBlock s b) positive,has⟩
    have outLast : ¬ (freeBlock s a).Has (b + s.size b - 1) := fun has =>
      apart _ ⟨freeBlockLast positive,has⟩
    exact ⟨(three _ outFirst).trans setFirst,(three _ outLast).trans setLast⟩
  · intro b there
    have low : ∀ q, s.bits q = false → bits q = false := by
      intro q off
      cases on : bits q with
      | false => rfl
      | true => exact absurd ((kept q on).1.symm.trans off) (by simp)
    rcases mem_cons.mp there with rfl | there
    · refine ⟨pos,one,two,fun filled q has => ?_⟩
      cases on : bits q with
      | false => exact on
      | true => exact absurd ⟨filled,has⟩ (kept q on).2
    have c := h.tags.clear b there
    exact ⟨c.positive,low _ c.first,low _ c.last,fun filled q has => low _ (c.filled filled q has)⟩
  intro q zero
  have out : ¬ (freeBlock s a).Has q := fun has => by have one := h.pagesOfHand mem has; omega
  exact (three q out).trans (h.tags.gap q zero)

lemma Held.take {rest} {b : Live} (h : Held s live hand pages) (perm : live.Perm (b::rest)) :
    Held s rest (b.block::hand) pages := by
  refine ⟨h.shape.exchange (fun q => ?_),h.tags.small,h.tags.room,h.tags.set,?_,h.tags.gap⟩
  · have moved := coverPerm (perm.map Live.block) q
    simp only [map_cons,coverCons] at moved
    simp only [coverAppend,coverCons,blocksOf]
    omega
  · exact fun c there => h.tags.clear c (perm.mem_iff.mpr (.tail _ there))

end OsvKernel.PageRange
