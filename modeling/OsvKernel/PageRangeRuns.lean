import OsvKernel.PageRangeAdd
import OsvKernel.Runs

/-! Runs of the page range allocator. The world keeps, beside the allocator's
state, the ranges that were handed out and not yet freed and the ranges that were
added. `stray` is what the bitset yields when it is read outside of its words. -/
namespace OsvKernel.PageRange
open List Option Runs Blocks

structure World where
  st : State
  live : List Live
  added : List Block

inductive Op where
  | initialAdd (pr size cap : Nat) (stray : Nat → Bool)
  | alloc (size : Nat)
  | allocAligned (size offset alignment : Nat) (fill : Bool)
  | free (b : Live) (stray : Nat → Bool)
  | freePage (b : Live) (page : Nat) (stray : Nat → Bool)

def pieces (b : Block) (page : Nat) : List Live :=
  ([⟨⟨b.start,page - b.start⟩,true⟩,⟨⟨page+1,b.stop - (page+1)⟩,true⟩] : List Live).filter
    (fun c => decide (0 < c.block.len))

def hand (w : World) (n : Nat) (fill : Bool) : Option (State × Nat) → World
  | none => w
  | some (t,a) => { w with st := t, live := ⟨⟨a,n⟩,fill⟩::w.live }

def exec (w : World) : Op → Option World
  | .initialAdd pr size cap stray => do
    let t ← initialAdd (construct w.st pr size) stray pr cap
    some { w with st := t, added := ⟨pr,size⟩::w.added }
  | .alloc size => some (hand w size false (alloc true w.st size))
  | .allocAligned size offset alignment fill =>
    some (hand w size fill (allocAligned w.st size offset alignment fill))
  | .free b stray =>
    some { w with st := free (construct w.st b.block.start b.block.len) stray b.block.start
                  live := w.live.erase b }
  | .freePage b page stray =>
    some { w with st := free (construct w.st page 1) stray page
                  live := pieces b.block page ++ w.live.erase b }

/-- What the callers promise. Physical memory is mapped in an area of 2^32 pages;
a bitmap buffer has room for the words it is allocated for. -/
def Legal (w : World) : Op → Prop
  | .initialAdd pr size cap _ => 0 < size ∧ pr + size ≤ 2^32 ∧
    (∀ q, Block.Has ⟨pr,size⟩ q → cover w.added q = 0) ∧ (pr+size+63)/64 ≤ cap
  | .alloc size => 0 < size
  | .allocAligned size offset alignment _ => 0 < size ∧ offset ≤ 1 ∧ ∃ k, alignment = 2^k
  | .free b _ => b ∈ w.live
  | .freePage b page _ => b ∈ w.live ∧ b.fill = true ∧ b.block.Has page

def QuietFree (w : World) (b : Block) (stray : Nat → Bool) : Prop :=
  (b.start = 0 → outside w.st.nbits stray (2^32-1) = false) ∧
    (w.st.nbits ≤ b.stop → outside w.st.nbits stray b.stop = false)

def Quiet (w : World) : Op → Prop
  | .initialAdd pr size _ stray => pr + size < 2^32 ∧
    (pr = 0 → outside w.st.nbits stray (2^32-1) = false) ∧
    (∀ c, w.st.store = some (0,c) → outside (pr+size) stray (2^32-1) = false)
  | .alloc _ => True
  | .allocAligned size _ _ _ => size ≤ physPage
  | .free b stray => QuietFree w b.block stray
  | .freePage _ page stray => QuietFree w ⟨page,1⟩ stray

def Started (w : World) : Prop := ∃ ram words, w = ⟨empty ram words,[],[]⟩
def Inv (w : World) : Prop := Ready w.st w.live (cover w.added)

lemma emptyShape (ram words : Nat → Nat) : Shape (empty ram words) [] (cover []) := by
  have none : headers (empty ram words) = [] := by simp [headersEq,empty,flatMap_eq_nil_iff]
  refine ⟨?_,fun q => by simp,by simp [none],by simp [empty],by simp [empty],?_,?_,by simp [none]⟩
  · intro q
    rw [freeBlocks,none]
    rfl
  · intro k hk
    simp [empty]
  · simp [empty]

variable {w : World} {q page : Nat} {t : State} {live : List Live} {b : Live} {op : Op} {ok : World → Op → Prop}
  {s : State} {hand : List Block} {pages : Nat → Nat}
  {bs : List Block}

lemma startInv (first : Started w) : Inv w := by
  obtain ⟨ram,words,rfl⟩ := first
  refine ⟨⟨emptyShape ram words,Nat.two_pow_pos 32,fun q one => ?_,fun a mem => ?_,fun b mem => ?_,fun q _ => rfl⟩,
    rfl,fun i last => ?_⟩
  · cases one
  · simp [headersEq,empty] at mem
  · cases mem
  · cases last

lemma Ready.construct {p : Nat} (h : Ready s live pages) (n : Nat) (off : p ∉ headers s) :
    Ready (construct s p n) live pages :=
  ⟨h.held.construct n off,h.idle,h.top⟩

lemma Ready.notHeader (h : Ready s live pages) (zero : pages q = 0) : q ∉ headers s := by
  intro mem
  have first : (freeBlock s q).Has q := startHas (h.held.shape.positive q mem)
  have one := coverOfMem (Shape.freeBlockMem mem) first
  have total := h.held.shape.counted q
  omega

lemma Inv.given {n : Nat} {fill : Bool} {a : Nat} (h : Inv w)
    (held : Held t (⟨⟨a,n⟩,fill⟩::(bitmapLive w.st ++ w.live)) [] (cover w.added)) (book : Book w.st t) :
    Inv { w with st := t, live := ⟨⟨a,n⟩,fill⟩::w.live } := by
  have moved := held.perm perm_middle.symm
  rw [← book.bitmapLive] at moved
  exact ⟨moved,book.deferred.trans h.idle,fun i last => h.top i (book.nbits ▸ last)⟩

lemma Inv.freed (h : Inv w) (held : Held t (bitmapLive w.st ++ live) [] (cover w.added)) (book : Book w.st t) :
    Inv { w with st := t, live := live } := by
  rw [← book.bitmapLive] at held
  exact ⟨held,book.deferred.trans h.idle,fun i top => h.top i (book.nbits ▸ top)⟩

lemma Held.liveHeader (h : Held s live hand pages) (mem : b ∈ live) (has : b.block.Has q) : q ∉ headers s :=
  h.shape.ownedNotHeader (mem_append_right _ (mem_map_of_mem mem)) has

lemma Held.put {b : Block} (h : Held s live (b::hand) pages) (pos : 0 < b.len)
    (zero : ∀ q, b.Has q → s.bits q = false) : Held s (⟨b,true⟩::live) hand pages := by
  refine ⟨h.shape.exchange (fun q => ?_),h.tags.small,h.tags.room,h.tags.set,?_,h.tags.gap⟩
  · simp only [coverAppend,coverCons,blocksOfCons]
    omega
  intro c mem
  rcases mem_cons.mp mem with rfl | other
  · exact ⟨pos,zero _ (startHas pos),zero _ (lastHas pos),fun _ q has => zero q has⟩
  · exact h.tags.clear c other

lemma Held.putPart {b : Block} (h : Held s live (b::hand) pages)
    (zero : ∀ q, b.Has q → s.bits q = false) :
    Held s (([⟨b,true⟩] : List Live).filter (fun c => decide (0 < c.block.len)) ++ live) hand pages := by
  rcases Nat.eq_zero_or_pos b.len with none | pos
  · have dropped : ([⟨b,true⟩] : List Live).filter (fun c => decide (0 < c.block.len)) = [] := by simp [none]
    rw [dropped]
    refine h.exchange (fun q => ?_)
    have off : hits b q = 0 := hitsOfNot (fun has => by have := has.1; have := has.2; omega)
    rw [coverCons,off,Nat.zero_add]
  have kept : ([⟨b,true⟩] : List Live).filter (fun c => decide (0 < c.block.len)) = [⟨b,true⟩] := by simp [pos]
  rw [kept]
  exact h.put pos zero

lemma hitsAround {b : Block} (has : b.Has page) (q : Nat) :
    hits b q = hits ⟨b.start,page - b.start⟩ q + hits ⟨page,1⟩ q + hits ⟨page+1,b.stop - (page+1)⟩ q := by
  obtain ⟨low,high⟩ := has
  have one := hitsSplit b.start (page - b.start) (1 + (b.stop - (page+1))) q
  have two := hitsSplit page 1 (b.stop - (page+1)) q
  have mid : b.start + (page - b.start) = page := by omega
  have len : page - b.start + (1 + (b.stop - (page+1))) = b.len := by
    unfold Block.stop
    omega
  have whole : hits b q = hits ⟨b.start,b.len⟩ q := rfl
  rw [len,mid] at one
  omega

lemma coverNonempty (l : List Live) (q : Nat) :
    cover (blocksOf (l.filter (fun c => decide (0 < c.block.len)))) q = cover (blocksOf l) q := by
  induction l with
  | nil => rfl
  | cons c l ih => ?_
  rcases Nat.eq_zero_or_pos c.block.len with none | pos
  · have off : hits c.block q = 0 := hitsOfNot (fun has => by have := has.1; have := has.2; omega)
    rw [filter_cons_of_neg (by simp [none]),blocksOfCons,coverCons,off,ih,Nat.zero_add]
  · rw [filter_cons_of_pos (by simp [pos]),blocksOfCons,blocksOfCons,coverCons,coverCons,ih]

lemma Held.takePage {rest} (h : Held s live [] pages)
    (perm : live.Perm (b::rest)) (fill : b.fill = true) (has : b.block.Has page) :
    Held s (pieces b.block page ++ rest) [⟨page,1⟩] pages := by
  have zero := (h.tags.clear b (perm.mem_iff.mpr mem_cons_self)).filled fill
  have parts : Held s rest [⟨page+1,b.block.stop - (page+1)⟩,⟨b.block.start,page - b.block.start⟩,⟨page,1⟩] pages := by
    refine (h.take perm).exchange (fun q => ?_)
    simp only [coverCons,coverNil,hitsAround has q]
    omega
  obtain ⟨low,high⟩ := has
  have upper := parts.putPart (fun q inside => zero q (by
    obtain ⟨above,below⟩ := hasMk.mp inside
    unfold Block.stop at below
    exact ⟨by omega,by omega⟩))
  have lower := upper.putPart (fun q inside => zero q (by
    obtain ⟨above,below⟩ := hasMk.mp inside
    exact ⟨by omega,by omega⟩))
  rw [← append_assoc,← filter_append] at lower
  exact lower

lemma stepInv {t : World} (h : Inv w) (legal : Legal w op) (quiet : Quiet w op)
    (ok : exec w op = some t) : Inv t := by
  cases op with
  | initialAdd pr size cap stray =>
    obtain ⟨pos,_,fresh,enough⟩ := legal
    obtain ⟨small,first,below⟩ := quiet
    obtain ⟨s,added,last⟩ := bind_eq_some_iff.mp ok
    cases last
    have off := h.notHeader (fresh pr (startHas (b := ⟨pr,size⟩) pos))
    have ready := (h.construct size off).initialAdd (constructSelf _ _ _) pos fresh small enough first below added
    have pages : withBlock (cover w.added) ⟨pr,size⟩ = cover (⟨pr,size⟩::w.added) := by
      funext q
      rw [withBlock,coverCons,Nat.add_comm]
    rw [pages] at ready
    exact ready
  | alloc size =>
    cases ok
    rcases got : alloc true w.st size with _ | r
    · exact h
    obtain ⟨held,book,_⟩ := h.held.alloc legal got
    exact h.given held book
  | allocAligned size offset alignment fill =>
    obtain ⟨pos,inside,_⟩ := legal
    cases ok
    rcases got : allocAligned w.st size offset alignment fill with _ | r
    · exact h
    obtain ⟨held,book,_⟩ := h.held.allocAligned pos inside quiet got
    exact h.given held book
  | free b stray =>
    rw [← some.inj ok]
    have mem : b ∈ bitmapLive w.st ++ w.live := mem_append_right _ legal
    have off := h.held.liveHeader mem (startHas (h.held.tags.clear b mem).positive)
    have perm : (bitmapLive w.st ++ w.live).Perm (b::(bitmapLive w.st ++ w.live.erase b)) :=
      ((perm_cons_erase legal).append_left _).trans perm_middle
    exact h.freed ((h.held.construct b.block.len off).freeLive perm (constructSelf _ _ _) quiet.1 quiet.2)
      (Book.freeBuilt w.st b.block.start b.block.len stray)
  | freePage b page stray => ?_
  obtain ⟨there,fill,has⟩ := legal
  rw [← some.inj ok]
  have mem : b ∈ bitmapLive w.st ++ w.live := mem_append_right _ there
  have off := h.held.liveHeader mem has
  have perm : (bitmapLive w.st ++ w.live).Perm (b::(bitmapLive w.st ++ w.live.erase b)) :=
    ((perm_cons_erase there).append_left _).trans perm_middle
  have held := (h.held.construct 1 off).takePage perm fill has
  have freed := held.free (constructSelf _ _ _) Nat.one_pos quiet.1 quiet.2
  refine h.freed (freed.perm ?_) (Book.freeBuilt w.st page 1 stray)
  rw [← append_assoc,← append_assoc]
  exact perm_append_comm.append_right _

lemma reachInv (reach : Reach exec (fun w op => Legal w op ∧ Quiet w op) Started w) : Inv w :=
  invariant (fun _ first => startInv first) (fun _ _ _ inv ok taken => stepInv inv ok.1 ok.2 taken) reach

structure BoundaryTags (w : World) : Prop where
  disjoint : (freeBlocks w.st).Pairwise Apart
  filedList : ∀ k < maxOrder, ∀ a ∈ w.st.lists k, ilog2 (w.st.size a) = k
  filedHuge : ∀ a ∈ w.st.huge, maxOrder ≤ ilog2 (w.st.size a)
  markList : ∀ k < maxOrder, w.st.notEmpty.getLsbD k = true ↔ w.st.lists k ≠ []
  markHuge : w.st.notEmpty.getLsbD maxOrder = true ↔ w.st.huge ≠ []
  tail : ∀ a ∈ headers w.st, w.st.last (a + w.st.size a - 1) = a
  inside : ∀ b ∈ freeBlocks w.st ++ blocksOf (bitmapLive w.st ++ w.live), 0 < b.len ∧ b.stop ≤ w.st.nbits
  set : ∀ b ∈ freeBlocks w.st, w.st.bits b.start = true ∧ w.st.bits (b.start + b.len - 1) = true
  clear : ∀ b ∈ bitmapLive w.st ++ w.live, Clear w.st b

lemma Inv.apart (h : Inv w) : (freeBlocks w.st).Pairwise Apart := by
  refine pairwiseApart (fun q => ?_)
  have total := h.held.shape.counted q
  have bound := h.held.shape.once q
  omega

theorem boundaryTagsHold {w : World}
    (reach : Reach exec (fun w op => Legal w op ∧ Quiet w op) Started w) : BoundaryTags w := by
  have h := reachInv reach
  have shape := h.held.shape
  refine ⟨h.apart,shape.filedList,shape.filedHuge,shape.markList,shape.markHuge,shape.tail,?_,?_,h.held.tags.clear⟩
  · intro b mem
    rcases mem_append.mp mem with free | out
    · obtain ⟨a,header,rfl⟩ := mem_map.mp free
      exact ⟨shape.positive a header,h.held.headerRoom header⟩
    obtain ⟨c,live,rfl⟩ := mem_map.mp out
    exact ⟨(h.held.tags.clear c live).positive,h.held.roomLive live⟩
  intro b mem
  obtain ⟨a,header,rfl⟩ := mem_map.mp mem
  exact h.held.tags.set a header

-- 63 pages from page 1 on, so the bitmap is one full word and page 63 the last one.
def blank : World := ⟨empty (fun _ => 1) (fun _ => 0),[],[]⟩
def addLow : Op := .initialAdd 1 63 1 (fun _ => false)
def lendLast : Op := .allocAligned 1 0 1 false
def returnLast (stray : Bool) : Op := .free ⟨⟨63,1⟩,false⟩ (fun _ => stray)
def lent : World := Runs.after exec (Runs.after exec blank addLow) lendLast
def returned (stray : Bool) : World := Runs.after exec lent (returnLast stray)

lemma addLowLegal : Legal blank addLow :=
  ⟨by decide,by decide,fun _ _ => rfl,by decide⟩

lemma lendLastLegal : Legal (after exec blank addLow) lendLast := ⟨by decide,by decide,0,rfl⟩

set_option maxRecDepth 20000

lemma returnLastLegal (stray : Bool) : Legal lent (returnLast stray) := by
  show _ ∈ lent.live
  decide

lemma addLowTaken : exec blank addLow = some (after exec blank addLow) := afterTaken (by decide)

lemma lentReach (one : ok blank addLow) (two : ok (after exec blank addLow) lendLast) : Reach exec ok Started lent :=
  .next (.next (.init ⟨_,_,rfl⟩) one addLowTaken) two (afterTaken (by decide))

lemma returnedReach (stray : Bool) (one : ok blank addLow)
    (two : ok (after exec blank addLow) lendLast) (three : ok lent (returnLast stray)) :
    Reach exec ok Started (returned stray) :=
  .next (lentReach one two) three (afterTaken rfl)

lemma addLowQuiet : Quiet blank addLow :=
  ⟨by decide,fun _ => rfl,nofun⟩

lemma addLowReach : Reach exec (fun w op => Legal w op ∧ Quiet w op) Started (after exec blank addLow) :=
  .next (.init ⟨_,_,rfl⟩) ⟨addLowLegal,addLowQuiet⟩ addLowTaken

lemma returnLastQuiet : Quiet lent (returnLast false) := by
  refine ⟨fun _ => ?_,fun _ => ?_⟩ <;> simp [outside]

lemma lendLastQuiet : Quiet (after exec blank addLow) lendLast := by
  unfold Quiet lendLast physPage
  decide

theorem boundaryTagsReturned : BoundaryTags (returned false) :=
  boundaryTagsHold (returnedReach false ⟨addLowLegal,addLowQuiet⟩
    ⟨lendLastLegal,lendLastQuiet⟩ ⟨returnLastLegal false,returnLastQuiet⟩)

theorem boundaryTagsLost : ∃ w, Reach exec Legal Started w ∧ ¬ BoundaryTags w := by
  refine ⟨returned true,returnedReach true addLowLegal lendLastLegal (returnLastLegal true),fun tags => ?_⟩
  have free : (⟨2,63⟩ : Block) ∈ freeBlocks (returned true).st := by decide
  have room := (tags.inside _ (mem_append_left _ free)).2
  have short : (returned true).st.nbits = 64 := by decide
  rw [short] at room
  exact absurd room (by decide)

def pagesOf (bs : List Block) : Set Nat := { q | ∃ b ∈ bs, b.Has q }

lemma memPagesOf : q ∈ pagesOf bs ↔ 0 < cover bs q :=
  ⟨fun ⟨_,mem,has⟩ => coverOfMem mem has,memOfCover⟩

structure Conserved (w : World) : Prop where
  freeLive : Disjoint (pagesOf (freeBlocks w.st)) (pagesOf (blocksOf w.live))
  freeBitmap : Disjoint (pagesOf (freeBlocks w.st)) (pagesOf (blocksOf (bitmapLive w.st)))
  liveBitmap : Disjoint (pagesOf (blocksOf w.live)) (pagesOf (blocksOf (bitmapLive w.st)))
  total : pagesOf (freeBlocks w.st) ∪ pagesOf (blocksOf w.live) ∪ pagesOf (blocksOf (bitmapLive w.st)) =
    pagesOf w.added
  apart : (blocksOf w.live).Pairwise Apart

lemma Inv.counted (h : Inv w) (q : Nat) :
    cover (freeBlocks w.st) q + cover (blocksOf w.live) q + cover (blocksOf (bitmapLive w.st)) q = cover w.added q ∧
      cover w.added q ≤ 1 := by
  have total := h.held.shape.counted q
  have split : blocksOf (bitmapLive w.st ++ w.live) = blocksOf (bitmapLive w.st) ++ blocksOf w.live :=
    map_append
  rw [split,nil_append,coverAppend] at total
  exact ⟨by omega,h.held.shape.once q⟩

lemma disjointOf {as : List Block} (once : ∀ q, cover as q + cover bs q ≤ 1) :
    Disjoint (pagesOf as) (pagesOf bs) := by
  rw [Set.disjoint_left]
  intro q one two
  have bound := once q
  have left := memPagesOf.mp one
  have right := memPagesOf.mp two
  omega

lemma Inv.conserved (h : Inv w) : Conserved w := by
  refine ⟨disjointOf (fun q => ?_),disjointOf (fun q => ?_),disjointOf (fun q => ?_),?_,pairwiseApart (fun q => ?_)⟩
  · have := h.counted q; omega
  · have := h.counted q; omega
  · have := h.counted q; omega
  · ext q
    have := h.counted q
    simp only [Set.mem_union,memPagesOf]
    omega
  · have := h.counted q; omega

def Op.freed : Op → Option Block
  | .free b _ => some b.block
  | .freePage _ page _ => some ⟨page,1⟩
  | _ => none

lemma coverEraseLive (mem : b ∈ live) (q : Nat) :
    cover (blocksOf live) q = cover (blocksOf (live.erase b)) q + hits b.block q := by
  have moved := coverPerm ((perm_cons_erase mem).map Live.block) q
  rw [map_cons,coverCons] at moved
  exact moved.trans (Nat.add_comm _ _)

lemma freedStep {t : World} {c : Block} (legal : Legal w op) (freed : op.freed = some c)
    (ok : exec w op = some t) : t.added = w.added ∧ Book w.st t.st ∧
      ∀ q, cover (blocksOf w.live) q = cover (blocksOf t.live) q + hits c q := by
  cases op with
  | initialAdd pr size cap stray | alloc size | allocAligned size offset alignment fill => cases freed
  | free b stray =>
    cases freed
    rw [← some.inj ok]
    dsimp only
    exact ⟨rfl,Book.freeBuilt w.st b.block.start b.block.len stray,coverEraseLive legal⟩
  | freePage b page stray => ?_
  obtain ⟨mem,_,has⟩ := legal
  cases freed
  rw [← some.inj ok]
  dsimp only
  refine ⟨rfl,Book.freeBuilt w.st page 1 stray,fun q => ?_⟩
  have apart : blocksOf (pieces b.block page ++ w.live.erase b) =
    blocksOf (pieces b.block page) ++ blocksOf (w.live.erase b) := map_append
  have rest := coverNonempty [⟨⟨b.block.start,page - b.block.start⟩,true⟩, ⟨⟨page+1,b.block.stop - (page+1)⟩,true⟩] q
  simp only [blocksOf,map_cons,map_nil,coverCons,coverNil] at rest
  rw [apart,coverAppend,coverEraseLive mem q,hitsAround has q]
  unfold blocksOf pieces
  omega

theorem pagesConserved {w : World}
    (reach : Reach exec (fun w op => Legal w op ∧ Quiet w op) Started w) :
    Conserved w ∧ ∀ op c t, Legal w op → Quiet w op → op.freed = some c → exec w op = some t →
      pagesOf (freeBlocks t.st) = pagesOf (freeBlocks w.st) ∪ { q | c.Has q } := by
  have h := reachInv reach
  refine ⟨h.conserved,fun op c t legal quiet freed ok => ?_⟩
  obtain ⟨added,book,live⟩ := freedStep legal freed ok
  ext q
  have before := h.counted q
  have now := (stepInv h legal quiet ok).counted q
  have moved := live q
  rw [added,book.bitmapLive] at now
  simp only [Set.mem_union,memPagesOf,Set.mem_ofPred_eq]
  rcases Decidable.em (c.Has q) with has | out
  · rw [hitsOfHas has] at moved
    simp only [has,or_true,iff_true]
    omega
  rw [hitsOfNot out] at moved
  simp only [out,or_false]
  omega

theorem pagesConservedReturned : Conserved lent ∧
    pagesOf (freeBlocks (returned false).st) = pagesOf (freeBlocks lent.st) ∪ { q | Block.Has ⟨63,1⟩ q } := by
  obtain ⟨conserved,step⟩ := pagesConserved (lentReach ⟨addLowLegal,addLowQuiet⟩ ⟨lendLastLegal,lendLastQuiet⟩)
  exact ⟨conserved,step _ _ _ (returnLastLegal false) returnLastQuiet rfl (afterTaken rfl)⟩

theorem strayPageAbsorbed : ∃ w, Reach exec Legal Started w ∧ ¬ Conserved w := by
  refine ⟨returned true,returnedReach true addLowLegal lendLastLegal (returnLastLegal true),fun conserved => ?_⟩
  have free : 64 ∈ pagesOf (freeBlocks (returned true).st) := memPagesOf.mpr (by decide)
  have given : 64 ∈ pagesOf (returned true).added :=
    conserved.total ▸ Set.mem_union_left _ (Set.mem_union_left _ free)
  exact absurd (memPagesOf.mp given) (by decide)

end OsvKernel.PageRange
