import OsvKernel.PageRangeRuns

/-! What alloc finds. The tree of huge ranges is ordered by size, so its last range is the largest; the linear
search in the list below the rounded-up order finds a range and does not return it. -/
namespace OsvKernel.PageRange
open List Option Runs Nat BitVec Blocks

def Sorted (s : State) : Prop := s.huge.Pairwise fun a b => s.size a ≤ s.size b

section
variable {s t : State} {p n : Nat}

lemma memHuge (mem : p ∈ s.huge) : p ∈ headers s := memHeaders.mpr (.inl mem)

lemma headersConstruct (s : State) (p n : Nat) : headers (construct s p n) = headers s := rfl

lemma Sorted.construct (sorted : Sorted s) (n : Nat) (off : p ∉ headers s) : Sorted (construct s p n) := by
  refine sorted.imp_of_mem fun {a b} memA memB le => ?_
  have neA : a ≠ p := fun same => off (memHuge (same ▸ memA))
  have neB : b ≠ p := fun same => off (memHuge (same ▸ memB))
  rwa [constructOther neA,constructOther neB]

lemma insertBySizeSorted (size : Nat → Nat) {l : List Nat} (sorted : l.Pairwise fun a b => size a ≤ size b) (p : Nat) :
    (insertBySize size p l).Pairwise fun a b => size a ≤ size b := by
  induction l with
  | nil => exact pairwise_singleton _ p
  | cons a rest ih => ?_
  obtain ⟨above,sortedRest⟩ := pairwise_cons.mp sorted
  unfold insertBySize
  split
  next less =>
    refine pairwise_cons.mpr ⟨fun b mem => ?_,sorted⟩
    rcases mem_cons.mp mem with rfl | later
    · exact le_of_lt less
    · exact le_trans (le_of_lt less) (above b later)
  rename_i more
  refine pairwise_cons.mpr ⟨fun b mem => ?_,ih sortedRest⟩
  rcases mem_cons.mp ((insertBySizePerm size p rest).mem_iff.mp mem) with rfl | later
  · exact Nat.le_of_not_lt more
  · exact above b later

section
variable (sorted : Sorted s)
include sorted

lemma Sorted.link (p : Nat) : Sorted (link s p) := by
  dsimp only [PageRange.link]
  split
  · exact insertBySizeSorted s.size sorted p
  · exact sorted

lemma Sorted.setBits (p : Nat) (value fill : Bool) : Sorted (setBits s p value fill) := by
  obtain ⟨bits,eq⟩ := setBitsFrame s p value fill
  rw [eq]
  exact sorted

lemma Sorted.insert (useBitmap : Bool) (p : Nat) : Sorted (insert useBitmap s p) := by
  have linked := Sorted.link (s := { s with last := Function.update s.last (p + s.size p - 1) p }) sorted p
  dsimp only [PageRange.insert]
  split
  · exact linked.setBits p true false
  · exact linked

lemma Sorted.removeHuge (p : Nat) : Sorted (removeHuge s p) :=
  Pairwise.sublist erase_sublist sorted

lemma Sorted.remove (p : Nat) : Sorted (remove s p) := by
  dsimp only [PageRange.remove]
  split
  · exact sorted.removeHuge p
  · exact sorted

lemma Sorted.choose (ok : choose s n = some (t,p)) : Sorted t := by
  unfold PageRange.choose at ok
  dsimp only at ok
  split at ok
  · cases ok
  split at ok
  · split at ok
    · cases ok
    · split at ok
      · cases ok
      · cases ok
        exact sorted.removeHuge p
  split at ok
  · cases ok
  cases ok
  exact sorted

lemma Sorted.insertPart (useBitmap : Bool) (off : p ∉ headers s) :
    Sorted (PageRange.insert useBitmap (PageRange.construct s p n) p) := (sorted.construct n off).insert useBitmap p

end

variable {owned : List Block} {live : List Live} {hand : List Block} {pages : Nat → Nat} {a : Nat} {useBitmap : Bool}

lemma Sorted.splitTail (sorted : Sorted s) (useBitmap : Bool) (h : Shape s (freeBlock s a::owned) pages) (pos : 0 < n)
    (fits : n ≤ s.size a) : Sorted (splitTail useBitmap s n a) := by
  unfold PageRange.splitTail
  split
  next more =>
    have front := h.splitFront fits
    have parted := front.insertPart useBitmap (by omega)
    have inserted := sorted.insertPart (n := s.size a - n) useBitmap
      (front.ownedNotHeader mem_cons_self (startHas (b := ⟨a+n,s.size a - n⟩) (by dsimp only; omega)))
    exact inserted.construct n (parted.ownedNotHeader (.head _) (startHas (b := ⟨a,n⟩) pos))
  · exact sorted

lemma Sorted.alloc (sorted : Sorted s) (h : Shape s owned pages) (pos : 0 < n)
    (ok : alloc useBitmap s n = some (t,a)) : Sorted t := by
  obtain ⟨c,found,rfl⟩ := allocEq ok
  obtain ⟨_,fits,u,shape⟩ := h.choose found
  have block : freeBlock c a = freeBlock s a := by rw [freeBlock,freeBlock,u.size]
  rw [← block] at shape
  have tail := (sorted.choose found).splitTail useBitmap shape pos (by rwa [u.size])
  split
  · exact tail.setBits a false false
  · exact tail

variable {shift : Nat}

section
variable (sorted : Sorted s) {stray : Nat → Bool}
include sorted

lemma Sorted.cutTail (h : Held s live (freeBlock s a::hand) pages) (lt : shift < s.size a) :
    Sorted (cutTail s shift a) := by
  have done := h.cutTail lt
  rw [cutTailEq lt] at done ⊢
  split
  · exact sorted
  rename_i some
  rw [if_neg some] at done
  have back := h.splitBack (le_of_lt lt)
  have inserted := sorted.insertPart (n := shift) true (back.handHeader (.head _)
    (startHas (b := ⟨a + s.size a - shift,shift⟩) (pos_of_ne_zero some)))
  have pos : 0 < s.size a - shift := by omega
  have off := done.handHeader (.head _) (startHas (b := ⟨a,s.size a - shift⟩) pos)
  rw [headersConstruct] at off
  exact inserted.construct _ off

lemma Sorted.cutHead (h : Held s live (freeBlock s a::hand) pages) (pos : 0 < n) (fits : n ≤ s.size a) :
    Sorted (cutHead s n a).1 := by
  have done := h.cutHead pos fits
  rw [cutHeadEq fits] at done ⊢
  split
  · exact sorted
  rename_i more
  rw [if_neg more] at done
  have mine := h.handHeader mem_cons_self (startHas (b := freeBlock s a) (by unfold freeBlock; dsimp only; omega))
  have inserted := sorted.insertPart (n := s.size a - n) true mine
  have off := done.handHeader (.head _) (startHas (b := ⟨a + s.size a - n,n⟩) pos)
  rw [headersConstruct,Nat.add_sub_assoc fits] at off
  exact inserted.construct n off

lemma Sorted.carve (fill : Bool) (h : Held s live hand pages) (mem : a ∈ headers s)
    (pos : 0 < n) (fits : n + shift ≤ s.size a) : Sorted (carve s n shift fill a).1 := by
  obtain ⟨-,taken,lt,-,tail,enough⟩ := h.carveParts mem pos fits
  have cut := ((sorted.remove a).cutTail taken lt).cutHead tail pos enough
  exact cut.setBits _ false fill

lemma Sorted.allocAligned {offset alignment : Nat} {fill : Bool} (h : Held s live hand pages)
    (pos : 0 < n) (inside : offset ≤ 1) (small : n ≤ physPage)
    (ok : allocAligned s n offset alignment fill = some (t,a)) : Sorted t := by
  unfold PageRange.allocAligned at ok
  split at ok
  · cases ok
  rename_i header found
  have mem := forEachMem (mem_of_find?_eq_some found)
  have room := h.headerRoom mem
  have bound := h.tags.small
  have fits := fitsLe inside small (by omega) (find?_some found)
  have carved := sorted.carve fill h mem pos fits
  rwa [some.inj ok] at carved

lemma Sorted.mergePrev (off : (mergePrev s p).2 ∉ headers (PageRange.mergePrev s p).1) :
    Sorted (mergePrev s p).1 := by
  unfold PageRange.mergePrev at off ⊢
  dsimp only at off ⊢
  rw [headersConstruct] at off
  exact (sorted.remove _).construct _ off

lemma Sorted.mergeNext (off : p ∉ headers (mergeNext s p)) : Sorted (PageRange.mergeNext s p) := by
  unfold PageRange.mergeNext at off ⊢
  dsimp only at off ⊢
  rw [headersConstruct] at off
  exact (sorted.remove _).construct _ off

lemma Sorted.joinPrev
    (off : (joinPrev s stray p).2 ∉ headers (PageRange.joinPrev s stray p).1) : Sorted (PageRange.joinPrev s stray p).1 := by
  unfold PageRange.joinPrev at off ⊢
  split
  next bit =>
    rw [if_pos bit] at off
    exact sorted.mergePrev off
  · exact sorted

lemma Sorted.joinNext (off : p ∉ headers (joinNext s stray p)) : Sorted (PageRange.joinNext s stray p) := by
  unfold PageRange.joinNext at off ⊢
  split
  next bit =>
    rw [if_pos bit] at off
    exact sorted.mergeNext off
  · exact sorted

lemma Sorted.free (h : Held s live [⟨p,n⟩] pages) (size : s.size p = n)
    (pos : 0 < n) (below : p = 0 → outside s.nbits stray (2^32-1) = false)
    (beyond : s.nbits ≤ p+n → outside s.nbits stray (p+n) = false) : Sorted (free s stray p) := by
  obtain ⟨m,prev,sized,some,stop⟩ := h.joinPrev size pos below
  have same := (Book.joinPrev s stray p).nbits
  have first := sorted.joinPrev (prev.handHeader (.head _) (startHas (b := ⟨_,m⟩) some))
  obtain ⟨k,next,sized,some⟩ := prev.joinNext sized some (by rw [same,stop]; exact beyond)
  have second := first.joinNext (next.handHeader (.head _) (startHas (b := ⟨_,k⟩) some))
  exact second.insert true _

lemma Sorted.freeLive {rest : List Live} (stray : Nat → Bool) {b : Live} (h : Held s live [] pages)
    (perm : live.Perm (b::rest)) (size : s.size b.block.start = b.block.len)
    (below : b.block.start = 0 → outside s.nbits stray (2^32-1) = false)
    (beyond : s.nbits ≤ b.block.stop → outside s.nbits stray b.block.stop = false) :
    Sorted (PageRange.free s stray b.block.start) :=
  sorted.free (h.take perm) size (h.tags.clear b (perm.mem_iff.mpr (.head _))).positive below beyond

lemma Sorted.setAllBits : Sorted (setAllBits s) := by
  obtain ⟨bits,eq⟩ := setAllBitsFrame s
  rw [eq]
  exact sorted

lemma Sorted.resize {numBits cap : Nat} (h : Shape s (blocksOf (bitmapLive s ++ live)) pages)
    (positive : ∀ b ∈ bitmapLive s, 0 < b.block.len) (pos : 0 < numBits) (enough : (numBits+63)/64 ≤ cap)
    (ok : resize s numBits cap = some t) : Sorted t := by
  have sized : 0 < getSize cap := by
    unfold getSize
    omega
  unfold PageRange.resize at ok
  dsimp only at ok
  have base : Shape { s with bits := fun i => if i < s.nbits then s.bits i else false, nbits := numBits }
    (blocksOf (bitmapLive s ++ live)) pages :=
    ⟨h.counted,h.once,h.positive,h.filedList,h.filedHuge,h.markList,h.markHuge,h.tail⟩
  have still : Sorted { s with bits := fun i => if i < s.nbits then s.bits i else false, nbits := numBits } := sorted
  split at ok
  next p c stored =>
    have before : bitmapLive s = [⟨⟨p,getSize c⟩,false⟩] := by rw [bitmapLive,stored]
    split at ok
    · cases ok
      exact sorted
    obtain ⟨⟨d,q⟩,got,last⟩ := bind_eq_some_iff.mp ok
    cases last
    obtain ⟨shape,_⟩ := base.allocPlain sized got
    rw [before] at shape positive
    have off : p ∉ headers d := shape.ownedNotHeader (.tail _ (.head _))
      (startHas (b := ⟨p,getSize c⟩) (positive _ (.head _)))
    exact (still.alloc base sized got).construct (getSize c) off
  obtain ⟨⟨c,q⟩,got,last⟩ := bind_eq_some_iff.mp ok
  cases last
  have allocated := still.alloc base sized got
  exact allocated

end

end

variable {cap n p size : Nat} {live : List Live} {pages : Nat → Nat} {s t : State} {stray : Nat → Bool} {w : World}

lemma Ready.sortedGrown (h : Ready s live pages) (sorted : Sorted s) (size : s.size p = n) (pos : 0 < n)
    (free : ∀ q, Block.Has ⟨p,n⟩ q → pages q = 0) (small : p+n < 2^32) (grow : s.nbits < p+n) (enough : (p+n+63)/64 ≤ cap)
    (below : ∀ c, s.store = some (0,c) → outside (p+n) stray (2^32-1) = false)
    (ok : PageRange.initialAdd s stray p cap = some t) : Sorted t := by
  obtain ⟨c,resized,rfl⟩ := initialAddGrow size small pos grow ok
  obtain ⟨joined,some,book⟩ := h.joinInitial size pos small free
  have moved : Sorted (PageRange.joinInitial s p).1 := by
    have off := joined.ownedNotHeader (.head _) (startHas (b := ⟨_,_⟩) some)
    unfold PageRange.joinInitial at off ⊢
    split
    next bit =>
      rw [if_pos bit] at off
      exact sorted.mergePrev off
    · exact sorted
  have again : Sorted c := by
    have booked := book.trans (Book.insert false (PageRange.joinInitial s p).1 (PageRange.joinInitial s p).2)
    have linked := (joined.insert false some).bits fun _ => false
    have inserted := moved.insert false (PageRange.joinInitial s p).2
    generalize insert false (PageRange.joinInitial s p).1 (PageRange.joinInitial s p).2 = u at resized booked linked inserted
    have same := bitmapLiveOf booked.store
    refine Sorted.resize (s := { u with bits := fun _ => false }) inserted (same ▸ linked) ?_ (by omega)
      enough resized
    exact fun b mem => (h.held.tags.clear b (mem_append_left _ (same ▸ mem))).positive
  obtain ⟨nbits,⟨idle,_⟩ | ⟨q,old,stored,deferred,sized,stop,held⟩⟩ := h.retagged size pos free small grow enough resized
  · have still : freeDeferred (setAllBits c) stray = setAllBits c := by rw [freeDeferred,idle]
    rw [still]
    exact again.setAllBits
  have freed := again.setAllBits.freeLive stray (b := ⟨⟨q,getSize old⟩,false⟩) held perm_middle sized
    (fun first => by rw [nbits]; exact below old (first ▸ stored))
    (fun wide => by rw [nbits] at wide; exact absurd wide (by dsimp only [Block.stop]; omega))
  rw [freeDeferred,deferred]
  dsimp only at freed ⊢
  generalize PageRange.free (setAllBits c) stray q = u at freed ⊢
  exact freed

lemma Ready.sortedAdd (h : Ready s live pages) (sorted : Sorted s) (size : s.size p = n) (pos : 0 < n)
    (free : ∀ q, Block.Has ⟨p,n⟩ q → pages q = 0) (small : p+n < 2^32) (enough : (p+n+63)/64 ≤ cap)
    (first : p = 0 → outside s.nbits stray (2^32-1) = false)
    (below : ∀ c, s.store = some (0,c) → outside (p+n) stray (2^32-1) = false)
    (ok : PageRange.initialAdd s stray p cap = some t) : Sorted t := by
  rcases lt_or_ge s.nbits (p+n) with grow | within
  · exact h.sortedGrown sorted size pos free small grow enough below ok
  have idx : getBitmapIdx p = p := mod_eq_of_lt (by omega)
  unfold PageRange.initialAdd at ok
  dsimp only at ok
  rw [idx,size,if_neg (by omega)] at ok
  rw [← some.inj ok]
  obtain ⟨held,high⟩ := h.fresh pos free within
  exact sorted.free held size pos first fun beyond => absurd high (not_lt.mpr beyond)

lemma stepSorted {t : World} {op : Op} (h : Inv w) (sorted : Sorted w.st) (legal : Legal w op) (quiet : Quiet w op)
    (ok : exec w op = some t) : Sorted t.st := by
  cases op with
  | initialAdd pr size cap stray =>
    obtain ⟨pos,_,fresh,enough⟩ := legal
    obtain ⟨small,first,below⟩ := quiet
    obtain ⟨s,added,last⟩ := bind_eq_some_iff.mp ok
    cases last
    have off := h.notHeader (fresh pr (startHas (b := ⟨pr,size⟩) pos))
    exact (h.construct size off).sortedAdd (sorted.construct size off) (constructSelf _ _ _) pos fresh small enough first
      below added
  | alloc size =>
    cases ok
    cases got : alloc true w.st size with
    | none => exact sorted
    | some r => exact sorted.alloc h.held.shape legal got
  | allocAligned size offset alignment fill =>
    obtain ⟨pos,inside,_⟩ := legal
    cases ok
    cases got : allocAligned w.st size offset alignment fill with
    | none => exact sorted
    | some r => exact sorted.allocAligned h.held pos inside quiet got
  | free b stray =>
    rw [← some.inj ok]
    have mem : b ∈ bitmapLive w.st ++ w.live := mem_append_right _ legal
    have off := h.held.liveHeader mem (startHas (h.held.tags.clear b mem).positive)
    have freed := (sorted.construct b.block.len off).freeLive stray (h.held.construct b.block.len off) (perm_cons_erase mem)
      (constructSelf _ _ _) quiet.1 quiet.2
    generalize free (construct w.st b.block.start b.block.len) stray b.block.start = u at freed ⊢
    exact freed
  | freePage b page stray => ?_
  obtain ⟨there,fill,has⟩ := legal
  rw [← some.inj ok]
  have mem : b ∈ bitmapLive w.st ++ w.live := mem_append_right _ there
  have off := h.held.liveHeader mem has
  have held := (h.held.construct 1 off).takePage (perm_cons_erase mem) fill has
  have freed := (sorted.construct 1 off).free held (constructSelf _ _ _) one_pos quiet.1 quiet.2
  generalize free (construct w.st page 1) stray page = u at freed ⊢
  exact freed

lemma reachSorted (reach : Reach exec (fun w op => Legal w op ∧ Quiet w op) Started w) : Inv w ∧ Sorted w.st := by
  refine invariant (P := fun w => Inv w ∧ Sorted w.st) ?_ ?_ reach
  · intro w first
    refine ⟨startInv first,?_⟩
    obtain ⟨ram,words,rfl⟩ := first
    exact Pairwise.nil
  intro w op t inv ok taken
  exact ⟨stepInv inv.1 ok.1 ok.2 taken,stepSorted inv.1 inv.2 ok.1 ok.2 taken⟩

/-! The search. -/

lemma candidatesOf {k i : Nat} (on : s.notEmpty.getLsbD i = true) (le : k ≤ i) : candidates s k ≠ 0 := by
  have low := lt_of_getLsbD on
  have bit : (candidates s k).getLsbD i = true := by
    dsimp only [candidates]
    split
    · simp only [getLsbD_setWidth,on,Bool.and_true]
      exact decide_eq_true (by omega)
    simp only [getLsbD_and,getLsbD_setWidth,getLsbD_not,getLsbD_ofNat,
      testBit_two_pow_sub_one,on]
    simp
    omega
  intro zero
  rw [zero] at bit
  simp at bit

lemma ltPowIlog2 (n : Nat) : n < 2^(ilog2 n + 1) := by
  unfold ilog2
  split
  · simp
    omega
  · exact lt_log2_self

def exactOrder (size : Nat) : Nat := min (ilog2Roundup size) maxOrder

lemma Shape.candidatesIff {s owned pages} (h : Shape s owned pages) (size : Nat) :
    candidates s (exactOrder size) ≠ 0 ↔ ∃ a ∈ headers s, 2^exactOrder size ≤ s.size a := by
  have top : exactOrder size ≤ maxOrder := min_le_right _ _
  constructor
  · intro some
    obtain ⟨low,on,least⟩ := candidatesBit (getLsbD_true_ctz_of_ne_zero some)
    generalize (candidates s (exactOrder size)).ctz.toNat = k at low on least
    rcases lt_or_ge k maxOrder with list | huge
    · obtain ⟨a,mem⟩ := exists_mem_of_ne_nil _ ((h.markList k list).mp on)
      have header := memHeaders.mpr (.inr ⟨k,list,mem⟩)
      have filed := h.filedList k list a mem
      refine ⟨a,header,Nat.le_trans (Nat.pow_le_pow_right (by decide) least) ?_⟩
      rw [← filed]
      exact powIlog2Le (h.positive a header)
    have last : k = maxOrder := le_antisymm (by have : maxOrder = 16 := rfl; omega) huge
    rw [last] at on
    obtain ⟨a,mem⟩ := exists_mem_of_ne_nil _ (h.markHuge.mp on)
    refine ⟨a,memHuge mem,Nat.le_trans (Nat.pow_le_pow_right (by decide) (top.trans (h.filedHuge a mem))) ?_⟩
    exact powIlog2Le (h.positive a (memHuge mem))
  rintro ⟨a,header,big⟩
  have order : exactOrder size ≤ ilog2 (s.size a) := by
    have := lt_of_le_of_lt big (ltPowIlog2 (s.size a))
    exact Nat.lt_succ_iff.mp ((Nat.pow_lt_pow_iff_right (by decide)).mp this)
  rcases memHeaders.mp header with mem | ⟨k,list,mem⟩
  · exact candidatesOf (h.markHuge.mpr (ne_nil_of_mem mem)) top
  rw [h.filedList k list a mem] at order
  exact candidatesOf ((h.markList k list).mpr (ne_nil_of_mem mem)) order

lemma Sorted.le_last (sorted : Sorted s) {a b : Nat} (last : s.huge.getLast? = some b) (mem : a ∈ s.huge) :
    s.size a ≤ s.size b := by
  obtain ⟨front,eq⟩ := getLast?_eq_some_iff.mp last
  unfold Sorted at sorted
  rw [eq] at sorted mem
  rcases mem_append.mp mem with before | here
  · exact (pairwise_append.mp sorted).2.2 a before b mem_cons_self
  · rw [mem_singleton.mp here]

lemma allocNone : alloc useBitmap s size = none ↔ choose s size = none := by
  unfold alloc
  cases choose s size with
  | none => exact Iff.rfl
  | some r => simp

lemma Shape.chooseFails {s owned pages} (h : Shape s owned pages) (sorted : Sorted s)
    (some : candidates s (exactOrder size) ≠ 0) (failed : PageRange.choose s size = none) :
    ∀ a ∈ headers s, s.size a < size := by
  obtain ⟨low,on,least⟩ := candidatesBit (getLsbD_true_ctz_of_ne_zero some)
  unfold PageRange.choose at failed
  change (if candidates s (exactOrder size) = 0 then none else _) = none at failed
  rw [if_neg some] at failed
  split at failed
  swap
  next other =>
    change (candidates s (exactOrder size)).ctz.toNat ≠ maxOrder at other
    have small : (candidates s (exactOrder size)).ctz.toNat < maxOrder := by
      have : maxOrder = 16 := rfl
      omega
    split at failed
    next empty => exact absurd (head?_eq_none_iff.mp empty) ((h.markList _ small).mp on)
    · cases failed
  rename_i huge
  change (candidates s (exactOrder size)).ctz.toNat = maxOrder at huge
  rw [huge] at on
  split at failed
  next empty => exact absurd (getLast?_eq_none_iff.mp empty) (h.markHuge.mp on)
  rename_i range last
  split at failed
  swap
  · cases failed
  rename_i less
  intro a header
  rcases memHeaders.mp header with mem | ⟨k,list,mem⟩
  · exact lt_of_le_of_lt (sorted.le_last last mem) less
  -- a listed range is smaller than every huge one
  have filed := h.filedList k list a mem
  have own := ltPowIlog2 (s.size a)
  have large := h.filedHuge range (mem_of_getLast? last)
  have below : 2^(ilog2 (s.size a) + 1) ≤ 2^ilog2 (s.size range) := Nat.pow_le_pow_right (by decide) (by omega)
  have bound := powIlog2Le (h.positive range (memHuge (mem_of_getLast? last)))
  omega

def Findable (w : World) (size : Nat) : Prop :=
  (∃ b ∈ freeBlocks w.st, size ≤ b.len) → ∃ b ∈ freeBlocks w.st, 2^exactOrder size ≤ b.len

theorem allocComplete {w : World} (reach : Runs.Reach exec (fun w op => Legal w op ∧ Quiet w op) Started w)
    (useBitmap : Bool) (size : Nat) :
    (alloc useBitmap w.st size = none → ∀ b ∈ freeBlocks w.st, b.len < size) ↔ Findable w size := by
  obtain ⟨inv,sorted⟩ := reachSorted reach
  have shape := inv.held.shape
  have found : (∃ b ∈ freeBlocks w.st, 2^exactOrder size ≤ b.len) ↔ candidates w.st (exactOrder size) ≠ 0 := by
    rw [shape.candidatesIff]
    exact ⟨fun ⟨b,mem,le⟩ => by obtain ⟨a,header,rfl⟩ := mem_map.mp mem; exact ⟨a,header,le⟩,
      fun ⟨a,header,le⟩ => ⟨_,mem_map_of_mem header,le⟩⟩
  rw [allocNone,Findable,found]
  constructor
  · rintro complete ⟨b,mem,le⟩ zero
    have failed : choose w.st size = none := by
      unfold choose
      exact if_pos zero
    have := complete failed b mem
    omega
  intro findable failed b mem
  by_contra large
  have less := shape.chooseFails sorted (findable ⟨b,mem,Nat.le_of_not_lt large⟩) failed
  obtain ⟨a,header,rfl⟩ := mem_map.mp mem
  exact large (less a header)

def addSeven : Op := .initialAdd 1 7 1 (fun _ => false)
def seven : World := Runs.after exec blank addSeven

set_option maxRecDepth 20000

lemma sevenReach {ok : World → Op → Prop} (one : ok blank addSeven) : Reach exec ok Started seven :=
  .next (.init ⟨_,_,rfl⟩) one (afterTaken (by decide))

lemma sevenLegal : Legal blank addSeven := ⟨by decide,by decide,fun _ _ => rfl,by decide⟩

lemma sevenQuiet : Quiet blank addSeven := ⟨by decide,fun _ => rfl,nofun⟩

theorem allocCompleteFour : freeBlocks seven.st = [⟨2,6⟩] ∧
      (alloc true seven.st 4 = none → ∀ b ∈ freeBlocks seven.st, b.len < 4) := by
  have free : freeBlocks seven.st = [⟨2,6⟩] := by decide
  refine ⟨free,(allocComplete (sevenReach ⟨sevenLegal,sevenQuiet⟩) true 4).mpr fun _ => ?_⟩
  rw [free]
  exact ⟨_,.head _,by decide⟩

theorem allocMissesFive :
    Runs.Reach exec Legal Started seven ∧ freeBlocks seven.st = [⟨2,6⟩] ∧ (alloc true seven.st 5).isNone = true :=
  ⟨sevenReach sevenLegal,by decide,by decide⟩

end OsvKernel.PageRange
