import OsvKernel.PageTable
import OsvKernel.Tiling

/-! Which entries map_range hands to page(), and which it leaves alone. The virtual
address of an entry is read off its place in the tree and compared with the base_virt
the walker computes on its way down. -/
namespace OsvKernel.PageTable
open List Function Nat Words

def span : Nat → Place → Nat
  | _, [] => 0
  | level, i::up => i.val*pageSizeLevel level + span (level+1) up

def virt (level : Nat) (place : Place) : Nat := signExtend (span level place)

open Call

lemma signExtendEq (v : Nat) : signExtend v = if v % 2^48 < 2^47 then v % 2^48 else v % 2^48 + (2^64 - 2^48) := by
  have shifted : (BitVec.ofNat 64 v <<< 16).toNat = v*2^16 % 2^64 := by
    rw [BitVec.toNat_shiftLeft,BitVec.toNat_ofNat,shiftLeft_eq]
    omega
  unfold signExtend
  rcases sign : (BitVec.ofNat 64 v <<< 16).msb with _ | _
  · rw [BitVec.sshiftRight_eq_of_msb_false sign,BitVec.toNat_ushiftRight,shifted,shiftRight_eq_div_pow]
    rw [BitVec.msb_eq_decide,shifted,decide_eq_false_iff_not] at sign
    split <;> omega
  rw [BitVec.sshiftRight_eq_of_msb_true sign,BitVec.toNat_not,BitVec.toNat_ushiftRight,BitVec.toNat_not,
    shifted,shiftRight_eq_div_pow]
  rw [BitVec.msb_eq_decide,shifted,decide_eq_true_eq] at sign
  split <;> omega

lemma signExtendAdd (p q : Nat) : signExtend (signExtend p + q) = signExtend (p + q) := by
  have same : (signExtend p + q) % 2^48 = (p + q) % 2^48 := by
    rw [signExtendEq p]
    split <;> omega
  rw [signExtendEq,signExtendEq (p + q),same]

lemma pageSizeLevelSucc (level : Nat) : pageSizeLevel (level+1) = 512*pageSizeLevel level := by
  unfold pageSizeLevel
  rw [show 12 + 9*(level+1) = 9 + (12 + 9*level) by omega,Nat.pow_add]

lemma pageSizeLevelPos (level : Nat) : 0 < pageSizeLevel level := Nat.two_pow_pos _

lemma spanBound {level : Nat} {place : Place} (depth : place.length + level = 4) :
    pageSizeLevel level ∣ span level place ∧ span level place + pageSizeLevel level ≤ 2^48 := by
  induction place generalizing level with
  | nil =>
    have four : level = 4 := by simpa using depth
    subst four
    exact ⟨Nat.dvd_zero _,by decide⟩
  | cons i up ih => ?_
  obtain ⟨divides,bound⟩ := @ih (level+1) (by simp at depth; omega)
  have i511 := i.isLt
  rw [pageSizeLevelSucc] at divides bound
  refine ⟨(Nat.dvd_add_right (Nat.dvd_mul_left _ _)).mpr (dvd_of_mul_left_dvd divides),?_⟩
  have most : i.val*pageSizeLevel level ≤ 511*pageSizeLevel level := mul_le_mul_right _ (by omega)
  simp only [span]
  omega

lemma virtCases {level : Nat} {place : Place} (depth : place.length + level = 4) :
    (span level place < 2^47 ∧ virt level place = span level place) ∨
      (2^47 ≤ span level place ∧ virt level place = span level place + (2^64 - 2^48)) := by
  have bound := (spanBound depth).2
  have pos := pageSizeLevelPos level
  rw [virt,signExtendEq,mod_eq_of_lt (by omega)]
  split <;> omega

lemma virtBelow {level : Nat} {place : Place} (depth : place.length + level = 4) (inner : level < 4) :
    pageSizeLevel level ∣ virt level place ∧ virt level place + pageSizeLevel level ≤ 2^64 := by
  obtain ⟨divides,bound⟩ := spanBound depth
  have top : pageSizeLevel level ∣ 2^64 - 2^48 :=
    dvd_trans (pow_dvd_pow 2 (by omega : 12 + 9*level ≤ 39)) (by decide)
  rcases virtCases depth with ⟨_,eq⟩ | ⟨_,eq⟩ <;> rw [eq]
  · exact ⟨divides,by omega⟩
  · exact ⟨Nat.dvd_add divides top,by omega⟩

lemma virtChild {level : Nat} {up : Place} (depth : up.length + (level+1) = 4) (inner : level < 3)
    (i : Fin 512) : virt level (i::up) = virt (level+1) up + i.val*pageSizeLevel level := by
  obtain ⟨⟨q,eq⟩,bound⟩ := spanBound depth
  have i511 := i.isLt
  have child := virtCases (show (i::up).length + level = 4 by simp; omega)
  have parent := virtCases depth
  simp only [span] at child
  rw [eq] at bound child parent
  have sizes : level = 0 ∨ level = 1 ∨ level = 2 := by omega
  rcases sizes with rfl | rfl | rfl <;> simp only [pageSizeLevel] at bound child parent ⊢ <;> omega

lemma virtTop {i j : Fin 512} (half : i.val < 256 ↔ j.val < 256) (le : i.val ≤ j.val) :
    virt 3 [j] = virt 3 [i] + (j.val - i.val)*pageSizeLevel 3 := by
  have first := virtCases (show [i].length + 3 = 4 from rfl)
  have later := virtCases (show [j].length + 3 = 4 from rfl)
  simp only [span,pageSizeLevel] at first later ⊢
  omega

lemma baseEq (level : Nat) (i : Fin 512) (up : Place) :
    signExtend (virt (level+1) up + i.val*pageSizeLevel level) = virt level (i::up) := by
  rw [virt,signExtendAdd,add_comm]
  rfl

def Call.level : Call → Nat
  | .small .. => 0
  | .huge .. => 1

def Call.place : Call → Place
  | .small place _ _ => place
  | .huge place _ _ _ => place

def Call.offset : Call → Nat
  | .small _ _ offset => offset
  | .huge _ _ offset _ => offset

def Call.done : Call → Bool
  | .small .. => true
  | .huge _ _ _ done => done

def Call.onTable : Call → Bool
  | .small .. => false
  | .huge _ pte _ _ => !pte.isEmpty && !pte.isLarge

def Call.base (c : Call) : Nat := virt c.level c.place
def Call.size (c : Call) : Nat := pageSizeLevel c.level

section
variable (place : Place) (small : Entry 0) (large : Entry 1) (offset : Nat) (done : Bool)

@[simp] lemma smallBase : (Call.small place small offset).base = virt 0 place := rfl
@[simp] lemma smallSize : (Call.small place small offset).size = pageSizeLevel 0 := rfl
@[simp] lemma smallOffset : (Call.small place small offset).offset = offset := rfl
@[simp] lemma hugeBase : (huge place large offset done).base = virt 1 place := rfl
@[simp] lemma hugeSize : (huge place large offset done).size = pageSizeLevel 1 := rfl
@[simp] lemma hugeOffset : (huge place large offset done).offset = offset := rfl

end

def Entry.child : {n : Nat} → Entry (n+1) → Fin 512 → Entry n
  | _, .table entries, i => entries i
  | n, .empty, _ => makeEmptyPte n
  | _, .huge x _, i => .word (piece x i)

def Entry.Opens : {n : Nat} → Entry n → Prop
  | _, .huge x _ => x.getLsbD 0 = true
  | _, _ => True

structure Thorough {σ : Type} (op : PageOp σ) : Prop where
  allocates : op.allocateIntermediate = true
  splits : op.splitLarge = true
  visitsEmpty : op.skipEmpty = false
  loops : op.once = false
  sizes : 0 < op.nrPageSizes ∧ op.nrPageSizes ≤ 2
  declines : ∀ s pte offset, pte.Opens → (op.pageHuge s pte offset).2.2 = false →
    (op.pageHuge s pte offset).2.1.Opens
  enters : ∀ s pte offset, pte.Opens → (op.intermediatePagePre s pte offset).2.Opens

section
variable (lo hi : Nat)

def Apart (level : Nat) (place : Place) : Prop :=
  virt level place + pageSizeLevel level ≤ lo ∨ hi ≤ virt level place

def Openable : (level : Nat) → Place → Entry level → Prop
  | 0, _, _ => True
  | level+1, place, pte =>
      (¬ Apart lo hi (level+1) place → pte.Opens) ∧ ∀ i, Openable level (i::place) (pte.child i)

def Kept : (level : Nat) → Place → Entry level → Entry level → Prop
  | 0, place, old, new => Apart lo hi 0 place → new = old
  | level+1, place, old, new => (Apart lo hi (level+1) place → new = old) ∧
      ∀ i, Kept level (i::place) (old.child i) (new.child i)

variable {σ : Type} (op : PageOp σ) (vmaStart : Nat)

structure Proper (c : Call) : Prop where
  offset : c.offset = sub64 c.base vmaStart
  inside : lo ≤ c.base ∧ c.base + c.size ≤ hi
  leaf : op.descend = true → c.onTable = false

structure Trace (a b : Nat) (calls : List Call) : Prop where
  tiles : Tiles Call.base Call.size a (calls.filter Call.done) b
  proper : ∀ c ∈ calls, Proper lo hi op vmaStart c

def Goes (a b level : Nat) (place : Place) (pte : Entry level) (w : Walk σ)
    (result : Option (Entry level × Walk σ)) : Prop :=
  ∃ pte' w' calls, result = some (pte',w') ∧ w'.calls = w.calls ++ calls ∧
    Trace lo hi op vmaStart a b calls ∧ Kept lo hi level place pte pte'

end

section
variable {lo hi vmaStart : Nat} {σ : Type} {op : PageOp σ}

lemma Trace.append {a b c : Nat} {xs ys : List Call} (first : Trace lo hi op vmaStart a b xs)
    (second : Trace lo hi op vmaStart b c ys) : Trace lo hi op vmaStart a c (xs ++ ys) := by
  constructor
  · rw [filter_append]
    exact first.tiles.append second.tiles
  intro c mem
  rcases mem_append.mp mem with left | right
  · exact first.proper c left
  · exact second.proper c right

variable {c : Call}

lemma Trace.settled (proper : Proper lo hi op vmaStart c) (done : c.done = true) :
    Trace lo hi op vmaStart c.base (c.base + c.size) [c] := by
  constructor
  · rw [filter_cons_of_pos done,filter_nil]
    exact .one (pageSizeLevelPos _)
  · simpa using proper

lemma Trace.declined (proper : Proper lo hi op vmaStart c) (done : c.done = false) (a : Nat) :
    Trace lo hi op vmaStart a a [c] := by
  constructor
  · rw [filter_cons_of_neg (by simp [done]),filter_nil]
    exact .nil a
  · simpa using proper

lemma Kept.refl (level : Nat) (place : Place) (pte : Entry level) : Kept lo hi level place pte pte := by
  induction level generalizing place with
  | zero => exact fun _ => rfl
  | succ level ih => exact ⟨fun _ => rfl,fun i => ih _ _⟩

lemma Kept.trans {level : Nat} {place : Place} {a b c : Entry level} (first : Kept lo hi level place a b)
    (second : Kept lo hi level place b c) : Kept lo hi level place a c := by
  induction level generalizing place with
  | zero => exact fun apart => (second apart).trans (first apart)
  | succ level ih => exact ⟨fun apart => (second.1 apart).trans (first.1 apart),fun i => ih (first.2 i) (second.2 i)⟩

lemma Kept.inside {level : Nat} {place : Place} (depth : place.length + level = 4) (inner : level < 4)
    (low : lo ≤ virt level place) (high : virt level place + pageSizeLevel level ≤ hi)
    (old new : Entry level) : Kept lo hi level place old new := by
  have meets : ¬ Apart lo hi level place := by
    have pos := pageSizeLevelPos level
    unfold Apart
    omega
  induction level generalizing place with
  | zero => exact fun apart => absurd apart meets
  | succ level ih => ?_
  refine ⟨fun apart => absurd apart meets,fun i => ?_⟩
  have at_ := virtChild depth (by omega) i
  have most : (i.val + 1)*pageSizeLevel level ≤ 512*pageSizeLevel level := mul_le_mul_right _ i.isLt
  rw [pageSizeLevelSucc] at high
  rw [add_mul] at most
  have pos := pageSizeLevelPos level
  have below : ¬ Apart lo hi level (i::place) := by
    unfold Apart
    omega
  exact ih (by simp; omega) (by omega) (by omega) (by omega) _ _ below

end

section
variable {lo hi vmaStart slop : Nat} {σ : Type} {op : PageOp σ}

def Walks (lo hi vmaStart : Nat) (op : PageOp σ) (level : Nat) (below : Below σ level) : Prop :=
  ∀ place pte w, place.length + level = 4 → ¬ Apart lo hi level place → Openable lo hi level place pte →
    let a := max lo (virt level place)
    let b := min hi (virt level place + pageSizeLevel level)
    Goes lo hi op vmaStart a b level place pte w (below place a (b - a) (virt level place) pte w)

def Clamps (lo hi vcur vend slop level base : Nat) : Prop :=
  clamp vcur vend base ((base + pageSizeLevel level - 1) % 2^64) slop =
    (max lo base,min hi (base + pageSizeLevel level) - 1)

variable {b vcur vend v : Nat} {pte : Entry 1} {vcur vend base : Nat}

lemma sizeEq {a : Nat} (lt : a < b) (small : b - a < 2^64) : (sub64 (b - 1) a + 1) % 2^64 = b - a := by
  rw [sub64,if_pos (Nat.le_sub_one_of_lt lt),Nat.mod_eq_of_lt] <;> omega

lemma visitPart {level : Nat} {below : Below σ level} {place : Place}
    (clamps : Clamps lo hi vcur vend slop level base) (pos : max lo base < min hi (base + pageSizeLevel level))
    (fits : base + pageSizeLevel level ≤ 2^64) (low : level < 4)
    (part : op.nrPageSizes ≤ level ∨ base < lo ∨ hi < base + pageSizeLevel level) (pte : Entry level)
    (w : Walk σ) : visit op vmaStart slop level below place vcur vend base pte w =
      below place (max lo base) (min hi (base + pageSizeLevel level) - max lo base) base pte w := by
  have step : pageSizeLevel level ≤ 2^39 := Nat.pow_le_pow_right (by decide) (by omega)
  dsimp only [visit]
  rw [clamps]
  dsimp only
  rw [if_neg (by omega),sizeEq pos (by omega)]

section
variable (h : Thorough op) {below : Below σ 1}
include h

lemma visitSmall {below : Below σ 0} {place : Place}
    (clamps : Clamps lo hi vcur vend slop 0 (virt 0 place)) (depth : place.length = 4)
    (low : lo ≤ virt 0 place) (high : virt 0 place + pageSizeLevel 0 ≤ hi) (pte : Entry 0) (w : Walk σ) :
    Goes lo hi op vmaStart (virt 0 place) (virt 0 place + pageSizeLevel 0) 0 place pte w
      (visit op vmaStart slop 0 below place vcur vend (virt 0 place) pte w) := by
  have fits := (@virtBelow 0 _ depth (by decide)).2
  have pos := pageSizeLevelPos 0
  have sizes := h.sizes.1
  dsimp only [visit]
  rw [clamps]
  dsimp only
  rw [if_pos (by omega),h.visitsEmpty,Bool.false_and,if_neg Bool.false_ne_true,if_pos rfl]
  have proper : Proper lo hi op vmaStart (.small place pte (sub64 (virt 0 place) vmaStart)) :=
    ⟨by rw [smallOffset,smallBase],by rw [smallBase,smallSize]; exact ⟨low,high⟩,fun _ => rfl⟩
  have trace := Trace.settled proper rfl
  rw [smallBase,smallSize] at trace
  exact ⟨_,_,_,rfl,rfl,trace,.inside depth (by decide) low high _ _⟩

lemma visitFull {level : Nat} {below : Below σ level} {place : Place}
    (clamps : Clamps lo hi vcur vend slop level base) (upper : 0 < level ∧ level < 4)
    (sized : level < op.nrPageSizes) (low : lo ≤ base) (high : base + pageSizeLevel level ≤ hi)
    (fits : base + pageSizeLevel level ≤ 2^64) (pte : Entry level) (w : Walk σ) :
    visit op vmaStart slop level below place vcur vend base pte w =
      visitWhole op vmaStart level below place base (pageSizeLevel level) base pte w := by
  have pos := pageSizeLevelPos level
  have step : pageSizeLevel level ≤ 2^39 := Nat.pow_le_pow_right (by decide) (by omega)
  have first : max lo base = base := max_eq_right low
  have last : min hi (base + pageSizeLevel level) = base + pageSizeLevel level := min_eq_right high
  dsimp only [visit]
  rw [clamps]
  dsimp only
  rw [first,last,if_pos (by omega),h.visitsEmpty,Bool.false_and,if_neg Bool.false_ne_true,if_neg (by omega),
    sizeEq (by omega) (by omega),Nat.add_sub_cancel_left]

lemma lowerGoes (walks : Walks lo hi vmaStart op 1 below)
    {place : Place} (depth : place.length + 1 = 4) (low : lo ≤ virt 1 place)
    (high : virt 1 place + pageSizeLevel 1 ≤ hi) (offset : Nat) (old : Entry 1) (opens : pte.Opens)
    (w : Walk σ) :
    Goes lo hi op vmaStart (virt 1 place) (virt 1 place + pageSizeLevel 1) 1 place old w
      ((below place (virt 1 place) (pageSizeLevel 1) (virt 1 place) (intermediatePagePre op 1 offset pte w).1
        (intermediatePagePre op 1 offset pte w).2).map fun r => intermediatePagePost op 1 offset r.1 r.2) := by
  have pos := pageSizeLevelPos 1
  have meets : ¬ Apart lo hi 1 place := by
    unfold Apart
    omega
  have entered : Openable lo hi 1 place (intermediatePagePre op 1 offset pte w).1 :=
    ⟨fun _ => h.enters w.mapper pte offset opens,fun _ => trivial⟩
  obtain ⟨pte',w',calls,result,logged,trace,_⟩ :=
    walks place _ (intermediatePagePre op 1 offset pte w).2 depth meets entered
  rw [Nat.max_eq_right low,Nat.min_eq_right high,Nat.add_sub_cancel_left] at result
  rw [max_eq_right low,min_eq_right high] at trace
  rw [result]
  exact ⟨_,_,calls,rfl,logged,trace,.inside depth (by decide) low high _ _⟩

lemma visitHuge (walks : Walks lo hi vmaStart op 1 below)
    {place : Place} (depth : place.length + 1 = 4) (low : lo ≤ virt 1 place)
    (high : virt 1 place + pageSizeLevel 1 ≤ hi) (opens : pte.Opens) (w : Walk σ) :
    Goes lo hi op vmaStart (virt 1 place) (virt 1 place + pageSizeLevel 1) 1 place pte w
      (visitWhole op vmaStart 1 below place (virt 1 place) (pageSizeLevel 1) (virt 1 place) pte w) := by
  dsimp only [visitWhole]
  cases table : op.descend && !pte.isEmpty && !pte.isLarge
  case true => exact lowerGoes h walks depth low high _ pte opens w
  have leaf : op.descend = true → (!pte.isEmpty && !pte.isLarge) = false := by
    intro descend
    rw [descend,Bool.true_and] at table
    exact table
  rcases answer : op.pageHuge w.mapper pte (sub64 (virt 1 place) vmaStart) with ⟨mapper,pte',done⟩
  have called : page op 1 place (sub64 (virt 1 place) vmaStart) pte w =
      some (done,pte',⟨mapper,w.calls ++ [.huge place pte (sub64 (virt 1 place) vmaStart) done]⟩) := by
    simp only [page,answer]
  have proper : Proper lo hi op vmaStart (.huge place pte (sub64 (virt 1 place) vmaStart) done) :=
    ⟨by rw [hugeOffset,hugeBase],by rw [hugeBase,hugeSize]; exact ⟨low,high⟩,leaf⟩
  rw [if_neg Bool.false_ne_true,called,Option.bind_some]
  cases done
  case true =>
    have trace := Trace.settled proper rfl
    rw [hugeBase,hugeSize] at trace
    exact ⟨_,_,_,rfl,rfl,trace,.inside depth (by decide) low high _ _⟩
  have opens' : pte'.Opens := by
    have kept := h.declines w.mapper pte (sub64 (virt 1 place) vmaStart) opens
    rw [answer] at kept
    exact kept rfl
  obtain ⟨last,w',calls,result,logged,trace,kept⟩ :=
    lowerGoes h walks depth low high (sub64 (virt 1 place) vmaStart) pte opens'
      ⟨mapper,w.calls ++ [.huge place pte (sub64 (virt 1 place) vmaStart) false]⟩
  exact ⟨last,w',_,result,logged.trans (append_assoc _ _ _),(Trace.declined proper rfl _).append trace,kept⟩

lemma visitGoes (range : lo < hi) (grid : pageSizeLevel 0 ∣ lo ∧ pageSizeLevel 0 ∣ hi) {level : Nat}
    {below : Below σ level} (walks : 0 < level → Walks lo hi vmaStart op level below) {place : Place}
    (depth : place.length + level = 4) (inner : level < 4) {vcur vend : Nat}
    (clamps : Clamps lo hi vcur vend slop level (virt level place)) (meets : ¬ Apart lo hi level place)
    {pte : Entry level} (opens : Openable lo hi level place pte) (w : Walk σ) :
    Goes lo hi op vmaStart (max lo (virt level place)) (min hi (virt level place + pageSizeLevel level)) level place
      pte w (visit op vmaStart slop level below place vcur vend (virt level place) pte w) := by
  obtain ⟨multiple,fits⟩ := virtBelow depth inner
  have pos := pageSizeLevelPos level
  have met : lo < virt level place + pageSizeLevel level ∧ virt level place < hi := by
    unfold Apart at meets
    omega
  cases level
  case succ level =>
    by_cases whole : level + 1 < op.nrPageSizes ∧ lo ≤ virt (level+1) place ∧
        virt (level+1) place + pageSizeLevel (level+1) ≤ hi
    · obtain ⟨sized,low,high⟩ := whole
      have one : level = 0 := by have := h.sizes.2; omega
      subst one
      rw [visitFull h clamps ⟨by omega,inner⟩ sized low high fits,max_eq_right low,min_eq_right high]
      exact visitHuge h (walks (by omega)) depth low high (opens.1 meets) w
    rw [visitPart clamps (by omega) fits inner (by omega)]
    exact walks (by omega) place pte w depth meets opens
  have low : lo ≤ virt 0 place := by
    obtain ⟨a,rfl⟩ := grid.1
    obtain ⟨b,eq⟩ := multiple
    have lt : pageSizeLevel 0*a < pageSizeLevel 0*(b + 1) := by rw [mul_add]; omega
    have le := Nat.lt_succ_iff.mp (Nat.lt_of_mul_lt_mul_left lt)
    rw [eq]
    exact mul_le_mul_left _ le
  have high : virt 0 place + pageSizeLevel 0 ≤ hi := by
    obtain ⟨a,rfl⟩ := grid.2
    obtain ⟨b,eq⟩ := multiple
    have lt : pageSizeLevel 0*b < pageSizeLevel 0*a := by omega
    have le : b + 1 ≤ a := Nat.lt_of_mul_lt_mul_left lt
    have scaled := mul_le_mul_left (pageSizeLevel 0) le
    rw [mul_add] at scaled
    omega
  rw [max_eq_right low,min_eq_right high]
  exact visitSmall h clamps depth low high pte w

end

lemma entriesGoes {level : Nat} {below : Below σ level} {up : Place} {vcur vend : Nat}
    (visits : ∀ (j : Fin 512) pte w, ¬ Apart lo hi level (j::up) → Openable lo hi level (j::up) pte →
      Goes lo hi op vmaStart (max lo (virt level (j::up))) (min hi (virt level (j::up) + pageSizeLevel level)) level
        (j::up) pte w (visit op vmaStart slop level below (j::up) vcur vend (virt level (j::up)) pte w))
    {left : Nat} {idx : Fin 512} {base : Nat} {pt : Fin 512 → Entry level} {w : Walk σ}
    (room : idx.val + left < 512)
    (line : ∀ j : Fin 512, idx.val ≤ j.val → j.val ≤ idx.val + left →
      virt level (j::up) = base + (j.val - idx.val)*pageSizeLevel level)
    (fits : base + (left+1)*pageSizeLevel level ≤ 2^64) (first : lo < base + pageSizeLevel level)
    (last : base + left*pageSizeLevel level < hi)
    (opens : ∀ j : Fin 512, idx.val ≤ j.val → Openable lo hi level (j::up) (pt j)) :
    ∃ pt' w' calls, entries op vmaStart slop level below up vcur vend left idx base pt w = some (pt',w') ∧
      w'.calls = w.calls ++ calls ∧
      Trace lo hi op vmaStart (max lo base) (min hi (base + (left+1)*pageSizeLevel level)) calls ∧
      ∀ j, Kept lo hi level (j::up) (pt j) (pt' j) := by
  have pos := pageSizeLevelPos level
  induction left generalizing idx base pt w with
  | zero =>
    have here : virt level (idx::up) = base := by simpa using line idx (le_refl _) (le_refl _)
    have meets : ¬ Apart lo hi level (idx::up) := by
      unfold Apart
      omega
    obtain ⟨pte,w',calls,result,logged,trace,kept⟩ := visits idx (pt idx) w meets (opens idx (le_refl _))
    rw [here] at result trace
    refine ⟨update pt idx pte,w',calls,?_,logged,?_,?_⟩
    · unfold entries
      rw [result]
    · simpa using trace
    intro j
    by_cases same : j = idx
    · subst same
      simpa using kept
    rw [update_of_ne same]
    exact Kept.refl ..
  | succ left ih => ?_
  have here : virt level (idx::up) = base := by simpa using line idx (le_refl _) (by omega)
  have span : (left+1+1)*pageSizeLevel level = pageSizeLevel level + (left+1)*pageSizeLevel level := by
    rw [add_mul (left+1) 1]
    omega
  have span' : (left+1)*pageSizeLevel level = pageSizeLevel level + left*pageSizeLevel level := by
    rw [add_mul left 1]
    omega
  have meets : ¬ Apart lo hi level (idx::up) := by
    unfold Apart
    omega
  obtain ⟨pte,w1,calls,result,logged,trace,kept⟩ := visits idx (pt idx) w meets (opens idx (le_refl _))
  rw [here] at result trace
  have next : (idx + 1).val = idx.val + 1 := by rw [Fin.val_add,Fin.val_one,mod_eq_of_lt (by omega)]
  have wraps : (base + pageSizeLevel level) % 2^64 = base + pageSizeLevel level := mod_eq_of_lt (by omega)
  have meet : min hi (base + pageSizeLevel level) = max lo (base + pageSizeLevel level) := by omega
  obtain ⟨pt',w',later,result',logged',trace',kept'⟩ := @ih (idx+1) (base + pageSizeLevel level)
    (update pt idx pte) w1 (by omega)
    (fun j low high => by
      have eq := line j (by omega) (by omega)
      have one : j.val - idx.val = (j.val - (idx + 1).val) + 1 := by omega
      rw [eq,one,add_mul]
      omega)
    (by omega) (by omega) (by omega)
    (fun j low => by
      have ne : j ≠ idx := fun same => by rw [same] at low; omega
      rw [update_of_ne ne]
      exact opens j (by omega))
  refine ⟨pt',w',calls ++ later,?_,?_,?_,?_⟩
  · unfold entries
    rw [result]
    dsimp only
    rw [wraps,result']
  · rw [logged',logged,append_assoc]
  · have all := (meet ▸ trace).append trace'
    rw [span,← add_assoc]
    exact all
  intro j
  refine Kept.trans ?_ (kept' j)
  by_cases same : j = idx
  · subst same
    simpa using kept
  rw [update_of_ne same]
  exact Kept.refl ..

lemma openEq (h : Thorough op) {level : Nat} {pte : Entry (level+1)} (opens : pte.Opens) (offset : Nat)
    (w : Walk σ) : openLevel op offset pte w = some (.table pte.child) := by
  cases pte with
  | table entries => rfl
  | empty =>
    simp only [openLevel,h.allocates,if_true]
    rfl
  | huge x large =>
    have valid : x.getLsbD 0 = true := opens
    simp only [openLevel,valid,h.splits,if_true]
    rfl

lemma ptIndexIn {base level : Nat} (multiple : pageSizeLevel (level+1) ∣ base) (low : base ≤ v)
    (high : v < base + pageSizeLevel (level+1)) :
    base + (ptIndex v level).val*pageSizeLevel level ≤ v ∧
      v < base + (ptIndex v level).val*pageSizeLevel level + pageSizeLevel level := by
  obtain ⟨q,rfl⟩ := multiple
  have pos := pageSizeLevelPos level
  obtain ⟨x,rfl⟩ := Nat.exists_eq_add_of_le low
  rw [pageSizeLevelSucc] at high ⊢
  have small : x / pageSizeLevel level < 512 := by
    rw [div_lt_iff_lt_mul pos]
    omega
  have index : (ptIndex (512*pageSizeLevel level*q + x) level).val = x / pageSizeLevel level := by
    have assoc : 512*pageSizeLevel level*q + x = x + pageSizeLevel level*(512*q) := by
      rw [mul_comm 512,mul_assoc,add_comm]
    simp only [ptIndex,Fin.ofNat]
    rw [assoc,add_mul_div_left _ _ pos,add_mul_mod_self_left,mod_eq_of_lt small]
  have split := div_add_mod x (pageSizeLevel level)
  have rest := mod_lt x pos
  rw [index,mul_comm (x / pageSizeLevel level)]
  omega

lemma clampsOf {level base : Nat} (first : max (alignDown vcur slop) base = max lo base)
    (last : min (vend ||| (slop - 1)) (base + pageSizeLevel level - 1) = min hi (base + pageSizeLevel level) - 1)
    (fits : base + pageSizeLevel level ≤ 2^64) : Clamps lo hi vcur vend slop level base := by
  have pos := pageSizeLevelPos level
  unfold Clamps clamp
  rw [mod_eq_of_lt (by omega),first,last]

structure Rounded (lo hi slop : Nat) : Prop where
  range : lo < hi
  top : hi ≤ 2^64
  power : ∃ k, slop = 2^k ∧ 12 ≤ k ∧ k ≤ 21
  low : slop ∣ lo
  high : slop ∣ hi

lemma Rounded.grid (r : Rounded lo hi slop) : pageSizeLevel 0 ∣ lo ∧ pageSizeLevel 0 ∣ hi := by
  obtain ⟨k,rfl,small,_⟩ := r.power
  have divides := pow_dvd_pow 2 small
  exact ⟨divides.trans r.low,divides.trans r.high⟩

lemma Rounded.down (r : Rounded lo hi slop) (lt : v < 2^64) (multiple : slop ∣ v) : alignDown v slop = v := by
  obtain ⟨k,rfl,_,_⟩ := r.power
  rw [alignDownEq (by omega) lt,mod_eq_zero_of_dvd multiple]
  rfl

lemma Rounded.up (r : Rounded lo hi slop) (pos : 0 < v) (multiple : slop ∣ v) : (v - 1) ||| (slop - 1) = v - 1 := by
  obtain ⟨k,rfl,_,_⟩ := r.power
  obtain ⟨q,rfl⟩ := multiple
  have two := Nat.two_pow_pos k
  obtain ⟨q,rfl⟩ := exists_eq_succ_of_ne_zero (show q ≠ 0 by rintro rfl; omega)
  rw [orMask]
  have quotient : (2^k*(q+1) - 1) / 2^k = q := by
    rw [mul_add,mul_one,show 2^k*q + 2^k - 1 = 2^k - 1 + 2^k*q by omega,add_mul_div_left _ _ two,
      div_eq_of_lt (by omega),zero_add]
  rw [succ_eq_add_one,quotient,mul_add]
  omega

lemma tableGoes (h : Thorough op) (r : Rounded lo hi slop) {level : Nat} {below : Below σ level}
    (walks : 0 < level → Walks lo hi vmaStart op level below) {up : Place} (depth : up.length + (level+1) = 4)
    {pte : Entry (level+1)} (opens : pte.Opens) (children : ∀ i, Openable lo hi level (i::up) (pte.child i))
    {vcur vend size base : Nat} (ends : vend = (vcur + size + (2^64 - 1)) % 2^64)
    (root : base = virt (level+1) up)
    (order : (ptIndex vcur level).val ≤ (ptIndex vend level).val)
    (line : ∀ j : Fin 512, (ptIndex vcur level).val ≤ j.val → j.val ≤ (ptIndex vend level).val →
      virt level (j::up) = virt level (ptIndex vcur level::up) + (j.val - (ptIndex vcur level).val)*pageSizeLevel level)
    (first : lo < virt level (ptIndex vcur level::up) + pageSizeLevel level)
    (last : virt level (ptIndex vend level::up) < hi)
    (clamps : ∀ j : Fin 512, Clamps lo hi vcur vend slop level (virt level (j::up))) (w : Walk σ) :
    ∃ pt w' calls, walkTable op vmaStart slop level below up vcur size base pte w = some (.table pt,w') ∧
      w'.calls = w.calls ++ calls ∧
      Trace lo hi op vmaStart (max lo (virt level (ptIndex vcur level::up)))
        (min hi (virt level (ptIndex vend level::up) + pageSizeLevel level)) calls ∧
      ∀ i, Kept lo hi level (i::up) (pte.child i) (pt i) := by
  have inner : level < 4 := by omega
  have below511 := (ptIndex vend level).isLt
  have lastLine := line _ order (le_refl _)
  have fits := (virtBelow (show (ptIndex vend level::up).length + level = 4 by simp; omega) inner).2
  have scaled : ((ptIndex vend level).val - (ptIndex vcur level).val + 1)*pageSizeLevel level =
      ((ptIndex vend level).val - (ptIndex vcur level).val)*pageSizeLevel level + pageSizeLevel level := by
    rw [add_mul,one_mul]
  obtain ⟨pt,w',calls,result,logged,trace,kept⟩ := @entriesGoes lo hi vmaStart slop σ op level below up vcur vend
    (fun j pte w meets opens => visitGoes h r.range r.grid walks (by simp; omega) inner (clamps j) meets opens w)
    ((ptIndex vend level).val - (ptIndex vcur level).val) (ptIndex vcur level)
    (virt level (ptIndex vcur level::up)) pte.child w (by omega)
    (fun j low high => line j low (by omega)) (by omega) first (by omega) (fun j _ => children j)
  refine ⟨pt,w',calls,?_,logged,?_,kept⟩
  · unfold walkTable
    rw [openEq h opens]
    dsimp only
    rw [← ends,h.loops,if_neg Bool.false_ne_true,root,baseEq,result]
    rfl
  rw [scaled] at trace
  rw [lastLine,add_assoc]
  exact trace

lemma Rounded.coarse (r : Rounded lo hi slop) {level base : Nat} (multiple : pageSizeLevel (level+1) ∣ base) :
    slop ∣ base := by
  obtain ⟨k,rfl,_,large⟩ := r.power
  exact (pow_dvd_pow 2 (by omega : k ≤ 12 + 9*(level+1))).trans multiple

lemma childRoom (base level : Nat) (j : Fin 512) :
    base + j.val*pageSizeLevel level + pageSizeLevel level ≤ base + pageSizeLevel (level+1) := by
  have room : (j.val + 1)*pageSizeLevel level ≤ 512*pageSizeLevel level := mul_le_mul_right _ j.isLt
  rw [add_mul,one_mul] at room
  rw [pageSizeLevelSucc,add_assoc]
  exact Nat.add_le_add_left room base

lemma clipLast {x y : Nat} (le : x ≤ y) : min (min hi y - 1) (x - 1) = min hi x - 1 := by omega

lemma clipReach {x y : Nat} (le : x ≤ y) (reach : min hi y ≤ x) : min hi x = min hi y := by omega

lemma tableWalks (h : Thorough op) (r : Rounded lo hi slop) {level : Nat} (inner : level < 3)
    {below : Below σ level} (walks : 0 < level → Walks lo hi vmaStart op level below) :
    Walks lo hi vmaStart op (level+1) (walkTable op vmaStart slop level below) := by
  intro place pte w depth meets opens a b
  obtain ⟨multiple,fits⟩ := virtBelow depth (by omega)
  have pos := pageSizeLevelPos (level+1)
  have step := pageSizeLevelPos level
  have range := r.range
  have top := r.top
  have met : lo < virt (level+1) place + pageSizeLevel (level+1) ∧ virt (level+1) place < hi := by
    unfold Apart at meets
    omega
  have lt : a < b := by omega
  have ends : b - 1 = (a + (b - a) + (2^64 - 1)) % 2^64 := by omega
  have child := virtChild depth inner
  have low := ptIndexIn multiple (show virt (level+1) place ≤ a by omega) (by omega)
  have high := ptIndexIn multiple (show virt (level+1) place ≤ b - 1 by omega) (by omega)
  have order : (ptIndex a level).val ≤ (ptIndex (b - 1) level).val := by
    have scaled : (ptIndex a level).val*pageSizeLevel level < ((ptIndex (b - 1) level).val + 1)*pageSizeLevel level := by
      rw [add_mul]
      omega
    exact Nat.lt_succ_iff.mp (Nat.lt_of_mul_lt_mul_right scaled)
  have down : alignDown a slop = a := by
    refine r.down (by omega) ?_
    rcases le_total lo (virt (level+1) place) with le | le
    · rw [show a = virt (level+1) place from max_eq_right le]
      exact r.coarse multiple
    rw [show a = lo from max_eq_left le]
    exact r.low
  have up : (b - 1) ||| (slop - 1) = b - 1 := by
    refine r.up (by omega) ?_
    rcases le_total hi (virt (level+1) place + pageSizeLevel (level+1)) with le | le
    · rw [show b = hi from min_eq_left le]
      exact r.high
    rw [show b = virt (level+1) place + pageSizeLevel (level+1) from min_eq_right le]
    exact r.coarse (Nat.dvd_add multiple (Nat.dvd_refl _))
  have clamps : ∀ j : Fin 512, Clamps lo hi a (b - 1) slop level (virt level (j::place)) := by
    intro j
    have room := childRoom (virt (level+1) place) level j
    rw [child j]
    refine clampsOf ?_ ?_ (room.trans fits)
    · rw [down,max_assoc,max_eq_right (Nat.le_add_right _ _)]
    rw [up]
    exact clipLast room
  obtain ⟨pt,w',calls,result,logged,trace,kept⟩ := tableGoes h r walks depth (opens.1 meets) opens.2 ends rfl order
    (fun j first _ => by
      have le : (ptIndex a level).val*pageSizeLevel level ≤ j.val*pageSizeLevel level := mul_le_mul_right _ first
      rw [child,child,Nat.sub_mul]
      omega)
    (by rw [child]; omega) (by rw [child]; omega) clamps w
  refine ⟨_,w',calls,result,logged,?_,⟨fun apart => absurd apart meets,kept⟩⟩
  have from_ : max lo (virt level (ptIndex a level::place)) = a := by rw [child]; omega
  have to_ : min hi (virt level (ptIndex (b - 1) level::place) + pageSizeLevel level) = b := by
    rw [child]
    exact clipReach (childRoom _ level _) (Nat.le_of_pred_lt high.2)
  rw [from_,to_] at trace
  exact trace

lemma Rounded.le (r : Rounded lo hi slop) (lt : v < 2^64) (multiple : slop ∣ b) (le : b ≤ v) : b ≤ alignDown v slop := by
  obtain ⟨k,rfl,_,_⟩ := r.power
  obtain ⟨q,rfl⟩ := multiple
  rw [alignDownPow (by omega),mod_eq_of_lt lt]
  have quotient : q ≤ v / 2^k := (Nat.le_div_iff_mul_le (Nat.two_pow_pos k)).mpr (by rw [Nat.mul_comm]; exact le)
  exact mul_le_mul_left _ quotient

lemma Rounded.lt (r : Rounded lo hi slop) (multiple : slop ∣ b) (lt : v < b) : v ||| (slop - 1) < b := by
  obtain ⟨k,rfl,_,_⟩ := r.power
  obtain ⟨q,rfl⟩ := multiple
  have two := Nat.two_pow_pos k
  have quotient : v / 2^k + 1 ≤ q := (div_lt_iff_lt_mul two).mpr (by rw [mul_comm]; exact lt)
  have scaled := mul_le_mul_left (2^k) quotient
  rw [mul_add] at scaled
  rw [orMask]
  omega

lemma mapLevelWalks (h : Thorough op) (r : Rounded lo hi slop) {level : Nat} (inner : level < 4) (upper : 0 < level) :
    Walks lo hi vmaStart op level (mapLevel op vmaStart slop level) := by
  induction level with
  | zero => omega
  | succ level ih => exact tableWalks h r (by omega) (fun upper => ih (by omega) upper)

def OneHalf (vstart size : Nat) : Prop :=
  vstart + size ≤ 2^47 ∨ (2^64 - 2^47 ≤ vstart ∧ vstart + size ≤ 2^64)

lemma topIndex {v : Nat} (half : v < 2^47 ∨ (2^64 - 2^47 ≤ v ∧ v < 2^64)) :
    virt 3 [ptIndex v 3] ≤ v ∧ v < virt 3 [ptIndex v 3] + pageSizeLevel 3 ∧ ((ptIndex v 3).val < 256 ↔ v < 2^47) := by
  have cases := virtCases (show [ptIndex v 3].length + 3 = 4 from rfl)
  have index : (ptIndex v 3).val = v / 2^39 % 512 := rfl
  simp only [span,pageSizeLevel] at cases ⊢
  omega

lemma mapRangeRounded (h : Thorough op) (r : Rounded lo hi slop) {vstart size : Nat} (pos : 0 < size)
    (half : OneHalf vstart size) (low : alignDown vstart slop = lo) (high : (vstart + size - 1) ||| (slop - 1) = hi - 1)
    {root : Entry 4} (openable : ∀ i, Openable lo hi 3 [i] (root.child i)) (mapper : σ) :
    ∃ pt w, mapRange op vmaStart vstart size slop root mapper = some (.table pt,w) ∧
      Trace lo hi op vmaStart lo hi w.calls ∧ ∀ i, Kept lo hi 3 [i] (root.child i) (pt i) := by
  have range := r.range
  unfold OneHalf at half
  obtain ⟨first,firstEnd,firstHalf⟩ := @topIndex vstart (by omega)
  obtain ⟨last,lastEnd,lastHalf⟩ := @topIndex (vstart + size - 1) (by omega)
  have sameHalf : (ptIndex vstart 3).val < 256 ↔ (ptIndex (vstart + size - 1) 3).val < 256 := by
    rw [firstHalf,lastHalf]
    omega
  have order : (ptIndex vstart 3).val ≤ (ptIndex (vstart + size - 1) 3).val := by
    have a := virtCases (show [ptIndex vstart 3].length + 3 = 4 from rfl)
    have b := virtCases (show [ptIndex (vstart + size - 1) 3].length + 3 = 4 from rfl)
    simp only [span,pageSizeLevel] at a b lastEnd
    omega
  have opens : root.Opens := by cases root <;> trivial
  have line : ∀ j : Fin 512, (ptIndex vstart 3).val ≤ j.val → j.val ≤ (ptIndex (vstart + size - 1) 3).val →
      virt 3 [j] = virt 3 [ptIndex vstart 3] + (j.val - (ptIndex vstart 3).val)*pageSizeLevel 3 := by
    intro j from_ to_
    exact virtTop (by omega) from_
  have clamps : ∀ j : Fin 512, Clamps lo hi vstart (vstart + size - 1) slop 3 (virt 3 [j]) := by
    intro j
    have fits := (virtBelow (show [j].length + 3 = 4 from rfl) (by decide)).2
    refine clampsOf (by rw [low]) ?_ fits
    rw [high]
    omega
  have base : 0 = virt 4 [] := by decide
  have ends : vstart + size - 1 = (vstart + size + (2^64 - 1)) % 2^64 := by omega
  have start : virt 3 [ptIndex vstart 3] ≤ lo := by
    rw [← low]
    exact r.le (by omega) (@Rounded.coarse lo hi slop r 2 _ (virtBelow (by rfl) (by decide)).1) first
  have stop : hi ≤ virt 3 [ptIndex (vstart + size - 1) 3] + pageSizeLevel 3 := by
    have multiple : slop ∣ virt 3 [ptIndex (vstart + size - 1) 3] + pageSizeLevel 3 :=
      @Rounded.coarse lo hi slop r 2 _ (Nat.dvd_add (virtBelow (by rfl) (by decide)).1 (Nat.dvd_refl _))
    have lt := r.lt multiple lastEnd
    omega
  have below : lo ≤ vstart := by
    obtain ⟨k,rfl,_,_⟩ := r.power
    rw [← low,alignDownEq (by omega) (by omega)]
    exact sub_le _ _
  have above : vstart + size - 1 ≤ hi - 1 := high ▸ left_le_or
  obtain ⟨pt,w,calls,result,logged,trace,kept⟩ := tableGoes h r (mapLevelWalks h r (by decide)) rfl opens openable
    ends base order line (by omega) (by omega) clamps ⟨mapper,[]⟩
  refine ⟨pt,w,result,?_,kept⟩
  rw [max_eq_left start,min_eq_left stop] at trace
  rw [logged,nil_append]
  exact trace

lemma roundedPages {vstart size : Nat} (aligned : pageSize ∣ vstart ∧ pageSize ∣ size) (pos : 0 < size)
    (half : OneHalf vstart size) : Rounded vstart (vstart + size) pageSize where
  range := by omega
  top := by unfold OneHalf at half; omega
  power := ⟨12,rfl,by decide,by decide⟩
  low := aligned.1
  high := Nat.dvd_add aligned.1 aligned.2

theorem mapRangeTiles {op : PageOp σ} (h : Thorough op) (vmaStart : Nat) {vstart size : Nat}
    (aligned : pageSize ∣ vstart ∧ pageSize ∣ size) (pos : 0 < size) (half : OneHalf vstart size) {root : Entry 4}
    (openable : ∀ i, Openable vstart (vstart + size) 3 [i] (root.child i)) (mapper : σ) :
    ∃ root' w, mapRange op vmaStart vstart size pageSize root mapper = some (root',w) ∧
      (w.calls.filter Call.done).Pairwise (fun c d => c.base + c.size ≤ d.base) ∧
      (∀ v, (vstart ≤ v ∧ v < vstart + size) ↔ ∃ c ∈ w.calls.filter Call.done, c.base ≤ v ∧ v < c.base + c.size) ∧
      (∀ c ∈ w.calls, c.offset = sub64 c.base vmaStart ∧ vstart ≤ c.base ∧ c.base + c.size ≤ vstart + size ∧
        (op.descend = true → c.onTable = false)) ∧
      ∀ i, Kept vstart (vstart + size) 3 [i] (root.child i) (root'.child i) := by
  have r := roundedPages aligned pos half
  have lt : vstart < 2^64 := by unfold OneHalf at half; omega
  obtain ⟨pt,w,result,trace,kept⟩ := @mapRangeRounded _ _ vmaStart _ _ _ h r _ _ pos half (r.down lt r.low)
    (r.up (by omega) r.high) _ openable mapper
  refine ⟨_,w,result,trace.tiles.ordered,trace.tiles.covers,?_,kept⟩
  intro c mem
  have proper := trace.proper c mem
  exact ⟨proper.offset,proper.inside.1,proper.inside.2,proper.leaf⟩

end

lemma openableEmpty (lo hi level : Nat) (place : Place) : Openable lo hi level place (makeEmptyPte level) := by
  induction level generalizing place with
  | zero => trivial
  | succ level ih => exact ⟨fun _ => trivial,fun i => ih _⟩

def populate (huge : Bool) : PageOp Unit where
  allocateIntermediate := true
  skipEmpty := false
  descend := true
  once := false
  splitLarge := true
  nrPageSizes := 2
  page _ _ offset := ((),.word (BitVec.ofNat 64 offset ||| 0x67#64),true)
  pageHuge _ pte _ := ((),if huge then .huge 0xe7#64 (by decide) else pte,huge)
  intermediatePagePre _ pte _ := ((),pte)
  intermediatePagePost _ pte _ := ((),pte)
  subPage _ pte _ := ((),pte)

lemma populateThorough (huge : Bool) : Thorough (populate huge) where
  allocates := rfl
  splits := rfl
  visitsEmpty := rfl
  loops := rfl
  sizes := ⟨succ_pos 1,le_refl 2⟩
  declines := by
    intro s pte offset opens done
    cases huge with
    | true => cases done
    | false => exact opens
  enters := fun _ _ _ opens => opens

theorem mapRangeTilesPopulate : ∃ root' w,
    mapRange (populate true) 0x1ff000 0x1ff000 0x202000 pageSize .empty () = some (root',w) ∧
      ∀ v, (0x1ff000 ≤ v ∧ v < 0x401000) ↔ ∃ c ∈ w.calls.filter Call.done, c.base ≤ v ∧ v < c.base + c.size := by
  obtain ⟨root',w,result,_,covers,_⟩ := mapRangeTiles (populateThorough true) 0x1ff000
    (show pageSize ∣ 0x1ff000 ∧ pageSize ∣ 0x202000 by decide) (by decide) (show OneHalf 0x1ff000 0x202000 from .inl (by decide))
    (show ∀ i, Openable _ _ 3 [i] (Entry.child .empty i) from fun i => openableEmpty _ _ 3 [i]) ()
  exact ⟨root',w,result,covers⟩

theorem declinedOverlaps : ((mapRange (populate false) 0 0 0x200000 pageSize .empty ()).map fun r =>
        (r.2.calls.take 2).map fun c => (c.level,c.base,c.size)) = some [(1,0,0x200000),(0,0,0x1000)] ∧
      ((mapRange {populate true with skipEmpty := true} 0 0 0x1000 pageSize .empty ()).map fun r =>
        r.2.calls.length) = some 0 := by
  constructor <;> decide +kernel

end OsvKernel.PageTable
