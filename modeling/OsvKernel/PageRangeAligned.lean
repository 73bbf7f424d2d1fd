import OsvKernel.PageRangeRuns

/-! alloc_aligned as its callers see it: where the range it returns comes from, what becomes of the rest of it, and that
the search misses no range that would do. -/
namespace OsvKernel.PageRange
open List Nat Runs Blocks

variable {s : State} {a n offset alignment : Nat} {live : List Live} {hand owned : List Block} {pages : Nat → Nat}

def nonempty (bs : List Block) : List Block := bs.filter fun b => decide (0 < b.len)

lemma insertPartBlocks (off : a ∉ headers s) :
    (freeBlocks (insert true (construct s a n) a)).Perm (⟨a,n⟩::freeBlocks s) := by
  have size : freeBlock (insert true (construct s a n) a) = freeBlock (construct s a n) := by
    funext b
    rw [freeBlock,freeBlock,insertSize]
  have inserted := (headersInsert true (construct s a n) a).map (freeBlock (construct s a n))
  rw [map_cons,← size,← freeBlocks] at inserted
  rw [← freeBlocksConstruct (n := n) off]
  refine inserted.trans (Perm.of_eq ?_)
  rw [size,freeBlock,constructSelf]
  rfl

lemma notInserted {b : Nat} (off : b ∉ headers s) (other : b ≠ a) : b ∉ headers (insert true (construct s a n) a) := by
  intro mem
  rcases mem_cons.mp ((headersInsert true (construct s a n) a).mem_iff.mp mem) with here | there
  · exact other here
  · exact off there

lemma cutTailBlocks {shift : Nat} (lt : shift < s.size a) (off : ∀ q, (freeBlock s a).Has q → q ∉ headers s) :
    (freeBlocks (cutTail s shift a)).Perm (nonempty [⟨a + s.size a - shift,shift⟩] ++ freeBlocks s) := by
  rw [cutTailEq lt]
  split
  · next zero => simp [zero,nonempty]
  next some =>
  have tail := off (a + s.size a - shift) (freeBlockHas.mpr ⟨by omega,by omega⟩)
  have head := off a (freeBlockHas.mpr ⟨le_refl a,by omega⟩)
  rw [freeBlocksConstruct (notInserted head (by omega))]
  refine (insertPartBlocks tail).trans (Perm.of_eq ?_)
  simp [nonempty,pos_of_ne_zero some]

lemma cutHeadBlocks (pos : 0 < n) (fits : n ≤ s.size a) (off : ∀ q, (freeBlock s a).Has q → q ∉ headers s) :
    (freeBlocks (cutHead s n a).1).Perm (nonempty [⟨a,s.size a - n⟩] ++ freeBlocks s) := by
  rw [cutHeadEq fits]
  split
  · next all => simp [all,nonempty]
  next more =>
  have head := off a (freeBlockHas.mpr ⟨le_refl a,by omega⟩)
  have ret := off (a + (s.size a - n)) (freeBlockHas.mpr ⟨by omega,by omega⟩)
  dsimp only
  rw [freeBlocksConstruct (notInserted ret (by omega))]
  refine (insertPartBlocks head).trans (Perm.of_eq ?_)
  simp [nonempty,show 0 < s.size a - n by omega]

lemma Held.carveBlocks {shift} (h : Held s live hand pages) (mem : a ∈ headers s) (pos : 0 < n)
    (fits : n + shift ≤ s.size a) (fill : Bool) :
    (freeBlocks (PageRange.carve s n shift fill a).1).Perm
      (nonempty [⟨a,s.size a - shift - n⟩,⟨a + s.size a - shift,shift⟩] ++ (freeBlocks s).erase (freeBlock s a)) := by
  obtain ⟨size,taken,lt,front,tail,enough⟩ := h.carveParts mem pos fits
  have removed : (freeBlocks (PageRange.remove s a)).Perm ((freeBlocks s).erase (freeBlock s a)) := by
    have parted := (h.shape.unlinked mem).freeBlocks.erase (freeBlock s a)
    rw [erase_cons_head] at parted
    exact parted.symm
  have first := cutTailBlocks lt fun q => taken.handHeader mem_cons_self
  have second := cutHeadBlocks pos enough fun q => tail.handHeader mem_cons_self
  obtain ⟨bits,eq⟩ := setBitsFrame (PageRange.cutHead (PageRange.cutTail (PageRange.remove s a) shift a) n a).1
    (PageRange.cutHead (PageRange.cutTail (PageRange.remove s a) shift a) n a).2 false fill
  rw [PageRange.carve,eq]
  rw [front] at second
  rw [size] at first
  refine (second.trans ((first.trans (removed.append_left _)).append_left _)).trans (Perm.of_eq ?_)
  rw [← append_assoc,nonempty,nonempty,nonempty,← filter_append]
  rfl

def Placed (s : State) (n offset alignment : Nat) : Option (State × Nat) → Prop
  | some (t,a) => (physPage + a + offset) % alignment = 0 ∧ ∃ h ∈ headers s, h ≤ a ∧ a + n ≤ h + s.size h ∧
    (freeBlocks t).Perm
      (nonempty [⟨h,a - h⟩,⟨a + n,h + s.size h - (a + n)⟩] ++ (freeBlocks s).erase (freeBlock s h))
  | none => ∀ h ∈ headers s, (s.size h : Int) < n + ((physPage : Int) + h + s.size h - n + offset) % alignment

-- A range that is too small is not taken for one that fits by the sum wrapping around.
def Unwrapped (s : State) (n offset alignment : Nat) : Prop :=
  ∀ h ∈ forEach s (max (ilog2 n) 1 - 1), s.size h < n → s.size h < (n + alignmentShift s n offset alignment h) % pages64

lemma ilog2Mono {m : Nat} (le : n ≤ m) : ilog2 n ≤ ilog2 m := by
  unfold ilog2
  split
  · exact zero_le _
  rw [if_neg (by omega),log2_eq_log_two,log2_eq_log_two]
  exact log_mono_right le

lemma Shape.visited (h : Shape s owned pages) (mem : a ∈ headers s) (le : n ≤ s.size a) :
    a ∈ forEach s (max (ilog2 n) 1 - 1) := by
  simp only [forEach,mem_append,mem_flatMap,mem_reverse,mem_range'_1]
  rcases memHeaders.mp mem with huge | ⟨k,hk,list⟩
  · exact .inl huge
  have order := h.filedList k hk a list
  have mono := ilog2Mono le
  exact .inr ⟨k,by omega,list⟩

lemma shiftMod (inside : offset ≤ 1) (small : n ≤ physPage) (end32 : a + s.size a < 2^32) :
    alignmentShift s n offset alignment a = (physPage + a + s.size a - n + offset) % alignment := by
  dsimp only [alignmentShift]
  rw [expectedEq inside small end32]
  have := div_add_mod (physPage + a + s.size a - n + offset) alignment
  rw [mul_comm] at this
  omega

lemma shiftSmall (inside : offset ≤ 1) (small : n ≤ physPage) (end32 : a + s.size a < 2^32) :
    (n + alignmentShift s n offset alignment a) % pages64 = n + alignmentShift s n offset alignment a := by
  have phys : physPage = 0xffff800000000 := rfl
  have wrap : pages64 = 0x10000000000000 := rfl
  have bound := mod_le (physPage + a + s.size a - n + offset) alignment
  rw [shiftMod inside small end32]
  exact mod_eq_of_lt (by omega)

lemma notFits : fits s n offset alignment a = false ↔
    s.size a < (n + alignmentShift s n offset alignment a) % pages64 := by
  rw [fits,decide_eq_false_iff_not,ge_iff_le,not_le]

lemma Held.placedFound {fill found} (h : Held s live hand pages) (pos : 0 < n) (inside : offset ≤ 1)
    (small : n ≤ physPage) (ok : PageRange.allocAligned s n offset alignment fill = some found) :
    Placed s n offset alignment (some found) := by
  have aligned := (h.allocAligned pos inside small ok).2.2.2
  unfold PageRange.allocAligned at ok
  split at ok
  · cases ok
  rename_i header first
  have mem := forEachMem (mem_of_find?_eq_some first)
  have room := h.headerRoom mem
  have bound := h.tags.small
  have fits := fitsLe inside small (by omega) (List.find?_some first)
  have start := carveStart fill pos fits
  have blocks := h.carveBlocks mem pos fits fill
  rw [Option.some.inj ok] at start blocks
  refine ⟨aligned,header,mem,by omega,by omega,?_⟩
  rwa [show found.2 - header = s.size header - alignmentShift s n offset alignment header - n by omega,
    show found.2 + n = header + s.size header - alignmentShift s n offset alignment header by omega,
    show header + s.size header - (header + s.size header - alignmentShift s n offset alignment header) =
      alignmentShift s n offset alignment header by omega]

lemma Held.placedNowhere (h : Held s live hand pages) (inside : offset ≤ 1) (small : n ≤ physPage)
    (nowhere : ∀ a ∈ forEach s (max (ilog2 n) 1 - 1), fits s n offset alignment a = false) :
    Placed s n offset alignment none := by
  intro a mem
  have room := h.headerRoom mem
  have bound := h.tags.small
  have phys : physPage = 0xffff800000000 := rfl
  have cast : (physPage : Int) + a + s.size a - n + offset = ((physPage + a + s.size a - n + offset : Nat) : Int) := by omega
  rw [cast,← Int.natCast_mod,← shiftMod inside small (by omega)]
  by_cases large : n ≤ s.size a
  · have short := notFits.mp (nowhere a (h.shape.visited mem large))
    rw [shiftSmall inside small (by omega)] at short
    omega
  · omega

lemma Held.notPlaced {found : State × Nat} (h : Held s live hand pages) (beyond : 2^32 ≤ n) :
    ¬ Placed s n offset alignment (some found) := by
  rintro ⟨-,a,mem,le,inRange,-⟩
  have room := h.headerRoom mem
  have bound := h.tags.small
  omega

lemma Held.placed (h : Held s live hand pages) (pos : 0 < n) (inside : offset ≤ 1) (small : n ≤ physPage) (fill : Bool) :
    Placed s n offset alignment (PageRange.allocAligned s n offset alignment fill) := by
  cases found : PageRange.allocAligned s n offset alignment fill
  case some r => exact h.placedFound pos inside small found
  refine h.placedNowhere inside small fun a mem => ?_
  unfold PageRange.allocAligned at found
  split at found
  · next nothing => simpa using find?_eq_none.mp nothing a mem
  · cases found

-- std_malloc refuses 2^63 bytes and more; malloc_large rounds up to pages and adds one.
def callersMax : Nat := 2^51 + 1

theorem allocAlignedPlaced {w : World} {n offset alignment k : Nat}
    (reach : Reach exec (fun w op => Legal w op ∧ Quiet w op) Started w) (pos : 0 < n)
    (inside : offset ≤ 1) (power : alignment = 2^k) (fill : Bool) :
    (n ≤ callersMax → Placed w.st n offset alignment (allocAligned w.st n offset alignment fill)) ∧
      (Placed w.st n offset alignment (allocAligned w.st n offset alignment fill) ↔ Unwrapped w.st n offset alignment) := by
  have held := (reachInv reach).held
  have bound := held.tags.small
  have phys : physPage = 0xffff800000000 := rfl
  refine ⟨fun le => held.placed pos inside (le.trans (by decide)) fill,?_⟩
  by_cases small : n ≤ physPage
  · refine iff_of_true (held.placed pos inside small fill) fun a mem short => ?_
    · have room := held.headerRoom (forEachMem mem)
      rw [shiftSmall inside small (by omega)]
      omega
  -- No range is that large, so the search is right exactly when it finds none.
  have short : ∀ a ∈ headers w.st, w.st.size a < n := by
    intro a mem
    have room := held.headerRoom mem
    omega
  unfold allocAligned
  split
  · next nothing =>
    refine iff_of_true (fun a mem => ?_) fun a mem _ => notFits.mp (by simpa using find?_eq_none.mp nothing a mem)
    have less := short a mem
    have mod := Int.emod_nonneg ((physPage : Int) + a + w.st.size a - n + offset)
      (b := alignment) (by rw [power]; exact_mod_cast (Nat.two_pow_pos k).ne')
    omega
  next header first =>
  have mem := mem_of_find?_eq_some first
  refine iff_of_false ?_ fun all => ?_
  · exact held.notPlaced (by omega)
  have miss := notFits.mpr (all header mem (short header (forEachMem mem)))
  rw [List.find?_some first] at miss
  cases miss

def low : World := Runs.after exec blank addLow

set_option maxRecDepth 20000 in
theorem allocAlignedPlacedLow : Placed low.st 4 1 4 (allocAligned low.st 4 1 4 true) := by
  have placed := allocAlignedPlaced (w := low) (n := 4) addLowReach (by decide) (Nat.le_refl 1) (show 4 = 2^2 from rfl) true
  exact placed.1 (by unfold callersMax; omega)

end OsvKernel.PageRange
