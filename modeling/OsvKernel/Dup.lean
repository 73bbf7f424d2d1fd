import OsvKernel.FileTable

/-! dup, dup3 and fcntl(F_DUPFD) of fs/vfs/main.cc, each call at once. D is FDMAX; gfdt outside [0, D) is the memory
beside the array. -/
namespace OsvKernel.Dup
open Function FileTable List State Option Words

inductive Errno where
  | EBADF | EINVAL | EMFILE
  deriving DecidableEq

inductive Call where
  | dup (oldfd : Int)
  | dup3 (oldfd newfd : Int) (flags : BitVec 32)
  | dupfd (fd arg : Int)

def Call.source : Call → Int
  | .dup oldfd => oldfd
  | .dup3 oldfd _ _ => oldfd
  | .dupfd fd _ => fd

def oCloexec : BitVec 32 := 0x80000

variable {F : Type} [DecidableEq F]

abbrev Table (F : Type) := State Unit F
def fhold (s : Table F) (fp : F) : Table F := s.setCount fp (int32 (s.count fp + 1))

def fdrop (s : Table F) (fp : F) : Table F :=
  s.setCount fp (if int32 (s.count fp - 1) = 0 then intMin else int32 (s.count fp - 1))

def fget (D : Nat) (s : Table F) (fd : Int) : Option (F × Table F) :=
  (if Valid D fd then (s.gfdt fd).filter fun fp => 0 < s.count fp else none).map fun fp => (fp,fhold s fp)

def fdalloc (D : Nat) (s : Table F) (fp : F) (minFd : Int) : Except Errno Int × Table F :=
  match ((range (D - minFd).toNat).map fun k : Nat => minFd + k).find? fun fd => (s.gfdt fd).isNone with
  | some fd => (.ok fd,(fhold s fp).put fd (some fp))
  | none => (.error .EMFILE,fdrop (fhold s fp) fp)

def fdset (D : Nat) (s : Table F) (fd : Int) (fp : F) : Except Errno Int × Table F :=
  if Valid D fd then (.ok fd,match s.gfdt fd with
    | some orig => fdrop ((fhold s fp).put fd (some fp)) orig
    | none => (fhold s fp).put fd (some fp))
  else (.error .EBADF,s)

def exec (D : Nat) (s : Table F) : Call → Except Errno Int × Table F
  | .dup oldfd => match fget D s oldfd with
    | none => (.error .EBADF,s)
    | some (fp,t) => (fdalloc D t fp 0).map id fun t => fdrop t fp
  | .dup3 oldfd newfd flags =>
    if flags &&& ~~~oCloexec ≠ 0 ∨ oldfd = newfd then (.error .EINVAL,s)
    else match fget D s oldfd with
      | none => (.error .EBADF,s)
      | some (fp,t) => (fdset D t newfd fp).map id fun t => fdrop t fp
  | .dupfd fd arg => match fget D s fd with
    | none => (.error .EBADF,s)
    -- An error of _fdalloc goes to out_errno, past fdrop.
    | some (fp,t) => match fdalloc D t fp arg with
      | (.error e,t) => (.error e,t)
      | (.ok n,t) => (.ok n,fdrop t fp)

-- The source's count follows the slots that hold it, and a failing call changes nothing.
def Balanced (D : Nat) (s : Table F) (c : Call) (out : Except Errno Int × Table F) : Prop :=
  (∀ fp, s.gfdt c.source = some fp → out.2.count fp - s.count fp = slots D out.2 fp - slots D s fp) ∧
    (∀ e, out.1 = .error e → out.2 = s) ∧ ∀ fd arg n, c = .dupfd fd arg → out.1 = .ok n → arg ≤ n ∧ Valid D n

-- A call that adds a slot leaves the count an int, and F_DUPFD finds its slot inside the table.
def Fits (D : Nat) (s : Table F) (fp : F) : Call → Prop
  | .dup _ => (∃ n, Valid D n ∧ s.gfdt n = none) → s.count fp + 1 < 2^31
  | .dup3 oldfd newfd flags => ¬ (flags &&& ~~~oCloexec ≠ 0 ∨ oldfd = newfd) → Valid D newfd → s.gfdt newfd ≠ some fp →
    s.count fp + 1 < 2^31
  | .dupfd _ arg => s.count fp + 1 < 2^31 ∧ (∃ n, arg ≤ n ∧ Valid D n ∧ s.gfdt n = none) ∧
    ∀ n, arg ≤ n → n < 0 → s.gfdt n ≠ none

def Room (D : Nat) (s : Table F) (c : Call) : Prop := ∀ fp t, fget D s c.source = some (fp,t) → Fits D s fp c

variable {D : Nat} {s t : Table F} {fp : F} {fd n minFd : Int} {c : Call}

lemma fgetSome (got : fget D s fd = some (fp,t)) : s.gfdt fd = some fp ∧ 0 < s.count fp ∧ t = fhold s fp := by
  obtain ⟨found,here,eq⟩ := map_eq_some_iff.mp got
  cases eq
  obtain ⟨-,here⟩ := ite_none_right_eq_some.mp here
  obtain ⟨held,pos⟩ := filter_eq_some_iff.mp here
  exact ⟨held,of_decide_eq_true pos,rfl⟩

lemma int32Ne {n : Int} (pos : 0 < n) (small : n < 2^32) : int32 n ≠ 0 := by
  intro zero
  obtain ⟨k,eq⟩ := Int.dvd_of_bmod_eq_zero zero
  omega

lemma holdSelf : (fhold s fp).count fp = int32 (s.count fp + 1) := update_self _ _ _

lemma holdAgain : (fhold (fhold s fp) fp).count fp = int32 (s.count fp + 1 + 1) := by
  rw [holdSelf,holdSelf,int32Add]

-- An fdrop that does not reach 0 takes one fhold back.
lemma dropSelf {n : Int} (count : t.count fp = int32 (n + 1)) (more : int32 n ≠ 0) : (fdrop t fp).count fp = int32 n := by
  have eq : int32 (t.count fp - 1) = int32 n := by rw [count,Int.sub_eq_add_neg,int32Add,Int.add_neg_cancel_right]
  rw [fdrop,eq,if_neg more]
  exact update_self _ _ _

lemma dropHold (int : int32 (s.count fp) = s.count fp) (more : s.count fp ≠ 0) : fdrop (fhold s fp) fp = s := by
  have back := dropSelf (t := fhold s fp) holdSelf (int.symm ▸ more)
  have same : (fdrop (fhold s fp) fp).count = s.count := by
    funext g
    by_cases eq : g = fp
    · rw [eq,back,int]
    · exact (update_of_ne eq _ _).trans (update_of_ne eq _ _)
  exact congrArg (fun count => { s with count := count }) same

lemma unchanged {e : Errno} : Balanced D s c (.error e,s) :=
  ⟨fun _ _ => (Int.sub_self _).trans (Int.sub_self _).symm,fun _ _ => rfl,nofun⟩

lemma occupiedOne : occupied (some fp) fp = 1 := if_pos rfl

lemma installed (got : s.gfdt c.source = some fp) (pos : 0 < s.count fp) (int : s.count fp < 2^31) (valid : Valid D n)
    (table : t.gfdt = (s.put n (some fp)).gfdt) (counts : t.count fp = int32 (s.count fp + 1 - occupied (s.gfdt n) fp))
    (low : ∀ fd arg, c = .dupfd fd arg → arg ≤ n) :
    Balanced D s c (.ok n,t) ↔ (s.gfdt n ≠ some fp → s.count fp + 1 < 2^31) := by
  have moved := slotsPut (s := s) valid (some fp) fp
  have same : slots D t fp = slots D (s.put n (some fp)) fp := by unfold slots; rw [table]
  rw [occupiedOne] at moved
  refine ⟨fun balanced fresh => ?_,fun room => ⟨fun other source => ?_,(fun _ bad => by cases bad),fun fd arg m eq done => ?_⟩⟩
  · have count := balanced.1 fp got
    have none : occupied (s.gfdt n) fp = 0 := if_neg fresh
    by_contra full
    have top : s.count fp = 2^31 - 1 := by omega
    rw [none,top] at counts
    have wrapped : t.count fp = -2^31 := counts.trans (by decide)
    dsimp only at count
    omega
  · cases got.symm.trans source
    have now : t.count fp = s.count fp + 1 - occupied (s.gfdt n) fp := by
      rw [counts]
      by_cases held : s.gfdt n = some fp
      · rw [held,occupiedOne]
        exact int32Small (by omega) (by omega)
      · rw [show occupied (s.gfdt n) fp = 0 from if_neg held]
        exact int32Small (by omega) (by have := room held; omega)
    dsimp only
    omega
  · cases done
    exact ⟨low fd arg eq,valid⟩

lemma fdallocCases (s : Table F) (fp : F) (minFd : Int) :
    (∃ n, minFd ≤ n ∧ n < D ∧ s.gfdt n = none ∧
      fdalloc D (fhold s fp) fp minFd = (.ok n,(fhold (fhold s fp) fp).put n (some fp)) ∧
      ∀ k, minFd ≤ k → k < n → s.gfdt k ≠ none) ∨
    (∀ n, minFd ≤ n → n < D → s.gfdt n ≠ none) ∧
      fdalloc D (fhold s fp) fp minFd = (.error .EMFILE,fdrop (fhold (fhold s fp) fp) fp) := by
  have table : (fhold s fp).gfdt = s.gfdt := rfl
  have slot {k : Int} (le : minFd ≤ k) : minFd + (k - minFd).toNat = k := by omega
  simp only [fdalloc,find?_map,table]
  cases found : (range (D - minFd).toNat).find? ((fun fd => (s.gfdt fd).isNone) ∘ fun k : Nat => minFd + k) with
  | some n =>
    obtain ⟨free,inside,first⟩ := find?_range_eq_some.mp found
    refine .inl ⟨minFd + n,by omega,by have := mem_range.mp inside; omega,isNone_iff_eq_none.mp free,rfl,fun k le lt here => ?_⟩
    have taken := first (k - minFd).toNat (by omega)
    simp only [comp_apply,slot le,here] at taken
    cases taken
  | none =>
    refine .inr ⟨fun n le lt here => ?_,rfl⟩
    have taken := find?_eq_none.mp found (n - minFd).toNat (mem_range.mpr (by omega))
    simp only [comp_apply,slot le,here] at taken
    exact taken rfl

section
variable (got : fget D s c.source = some (fp,fhold s fp)) (int : s.count fp < 2^31)

include got int

lemma heldOnce : fdrop (fhold s fp) fp = s ∧ int32 (s.count fp) ≠ 0 ∧ int32 (s.count fp + 1) ≠ 0 := by
  obtain ⟨-,pos,-⟩ := fgetSome got
  exact ⟨dropHold (int32Small (by omega) int) (by omega),int32Ne pos (by omega),int32Ne (by omega) (by omega)⟩

lemma heldTwice : fdrop (fhold (fhold s fp) fp) fp = fhold s fp :=
  dropHold (by rw [holdSelf]; exact Int.bmod_bmod ..) (by rw [holdSelf]; exact (heldOnce got int).2.2)

lemma gains {o : Option F} (other : s.gfdt n ≠ some fp) :
    (fdrop ((fhold (fhold s fp) fp).put n o) fp).count fp = int32 (s.count fp + 1 - occupied (s.gfdt n) fp) := by
  rw [show occupied (s.gfdt n) fp = 0 from if_neg other]
  exact (dropSelf holdAgain (heldOnce got int).2.2).trans (congrArg int32 (Int.sub_zero _).symm)

lemma adds (valid : Valid D n) (free : s.gfdt n = none) (low : ∀ fd arg, c = .dupfd fd arg → arg ≤ n) :
    Balanced D s c (.ok n,fdrop ((fhold (fhold s fp) fp).put n (some fp)) fp) ↔ s.count fp + 1 < 2^31 := by
  obtain ⟨source,pos,-⟩ := fgetSome got
  have other : s.gfdt n ≠ some fp := by rw [free]; exact fun bad => by cases bad
  refine (installed source pos int valid ?_ (gains got int other) low).trans ⟨fun room => room other,fun room _ => room⟩
  rfl

end

variable {oldfd newfd arg : Int} {flags : BitVec 32}

lemma dupRight (got : fget D s oldfd = some (fp,fhold s fp)) (int : s.count fp < 2^31) :
    Balanced D s (.dup oldfd) (exec D s (.dup oldfd)) ↔ Fits D s fp (.dup oldfd) := by
  simp only [exec,got]
  rcases fdallocCases (D := D) s fp 0 with ⟨n,le,lt,free,eq,-⟩ | ⟨full,eq⟩
  · rw [eq]
    exact (adds (c := .dup oldfd) got int ⟨le,lt⟩ free nofun).trans ⟨fun room _ => room,fun room => room ⟨n,⟨le,lt⟩,free⟩⟩
  · rw [eq,Prod.map,heldTwice (c := .dup oldfd) got int,(heldOnce (c := .dup oldfd) got int).1]
    exact iff_of_true unchanged fun ⟨n,valid,free⟩ => absurd free (full n valid.1 valid.2)

lemma dup3Counts (got : fget D s oldfd = some (fp,fhold s fp)) (int : s.count fp < 2^31) (valid : Valid D newfd) :
    (fdrop (fdset D (fhold s fp) newfd fp).2 fp).count fp = int32 (s.count fp + 1 - occupied (s.gfdt newfd) fp) := by
  have table : (fhold s fp).gfdt newfd = s.gfdt newfd := rfl
  obtain ⟨-,kept,more⟩ := heldOnce (c := .dup oldfd) got int
  rw [fdset,if_pos valid]
  simp only [table]
  cases old : s.gfdt newfd with
  | none =>
    have counts := gains (n := newfd) (c := .dup oldfd) (o := some fp) got int (by rw [old]; exact fun bad => by cases bad)
    rwa [old] at counts
  | some orig => ?_
  by_cases eq : fp = orig
  · subst eq
    rw [occupiedOne]
    exact (dropSelf (dropSelf holdAgain more) kept).trans (congrArg int32 (Int.add_sub_cancel _ _).symm)
  · rw [show occupied (some orig) fp = 0 from if_neg fun same => eq (some.inj same).symm]
    refine (dropSelf ?_ more).trans (congrArg int32 (Int.sub_zero _).symm)
    exact (update_of_ne eq _ _).trans holdAgain

lemma dup3Right (got : fget D s oldfd = some (fp,fhold s fp)) (int : s.count fp < 2^31) :
    Balanced D s (.dup3 oldfd newfd flags) (exec D s (.dup3 oldfd newfd flags)) ↔ Fits D s fp (.dup3 oldfd newfd flags) := by
  obtain ⟨source,pos,-⟩ := fgetSome got
  simp only [exec,got]
  by_cases bad : flags &&& ~~~oCloexec ≠ 0 ∨ oldfd = newfd
  · rw [if_pos bad]
    exact iff_of_true unchanged fun ok => absurd bad ok
  rw [if_neg bad]
  by_cases valid : Valid D newfd
  · have counts := dup3Counts got int valid
    rw [fdset,if_pos valid] at counts ⊢
    refine (installed (c := .dup3 oldfd newfd flags) source pos int valid ?_ counts nofun).trans
      ⟨fun room _ _ => room,fun room => room bad valid⟩
    dsimp only
    split <;> rfl
  · rw [fdset,if_neg valid,Prod.map,(heldOnce (c := .dup oldfd) got int).1]
    exact iff_of_true unchanged fun _ good => absurd good valid

lemma dupfdRight (got : fget D s fd = some (fp,fhold s fp)) (int : s.count fp < 2^31) :
    Balanced D s (.dupfd fd arg) (exec D s (.dupfd fd arg)) ↔ Fits D s fp (.dupfd fd arg) := by
  simp only [exec,got]
  rcases fdallocCases (D := D) s fp arg with ⟨n,le,lt,free,eq,first⟩ | ⟨full,eq⟩
  · rw [eq]
    by_cases low : 0 ≤ n
    · refine (adds (c := .dupfd fd arg) got int ⟨low,lt⟩ free ?_).trans ⟨fun room => ?_,fun room => room.1⟩
      · rintro _ _ ⟨⟩
        exact le
      · exact ⟨room,⟨n,le,⟨low,lt⟩,free⟩,fun k le neg => first k le (by omega)⟩
    · exact iff_of_false (fun balanced => low (balanced.2.2 _ _ _ rfl rfl).2.1) fun room => room.2.2 n le (by omega) free
  · rw [eq]
    -- The reference of fget stays.
    refine iff_of_false (fun balanced => ?_) fun ⟨_,⟨n,le,valid,free⟩,_⟩ => full n le valid.2 free
    obtain ⟨source,pos,-⟩ := fgetSome got
    have left := congrArg (fun t => State.count t fp) (balanced.2.1 _ rfl)
    simp only [heldTwice (c := .dupfd fd arg) got int,holdSelf] at left
    rw [← int32Small (Int.le_of_lt pos) int,int32Add,int32,int32,Int.bmod_eq_bmod_iff_bmod_sub_eq_zero,add_sub_cancel_left] at left
    exact absurd left (by decide)

theorem dupBalanced (D : Nat) (s : Table F) (c : Call) (ints : ∀ fp, s.count fp < 2^31) :
    Balanced D s c (exec D s c) ↔ Room D s c := by
  cases got : fget D s c.source with
  | none =>
    have same : ∃ e, exec D s c = (.error e,s) := by
      cases c <;> simp only [Call.source] at got <;> simp only [exec,got] <;> first | exact ⟨_,rfl⟩ | (split <;> exact ⟨_,rfl⟩)
    obtain ⟨e,same⟩ := same
    exact iff_of_true (same ▸ unchanged) fun fp t other => by cases got.symm.trans other
  | some r => ?_
  obtain ⟨fp,t⟩ := r
  obtain ⟨-,-,rfl⟩ := fgetSome got
  have fits : Room D s c ↔ Fits D s fp c :=
    ⟨fun room => room _ _ got,fun fits fp' t' other => by cases got.symm.trans other; exact fits⟩
  rw [fits]
  cases c with
  | dup oldfd => exact dupRight got (ints fp)
  | dup3 oldfd newfd flags => exact dup3Right got (ints fp)
  | dupfd fd arg => exact dupfdRight got (ints fp)

def full : Table Unit := ⟨fun fd => if fd = 0 then some () else none,fun _ => 1,fun _ => [],fun _ _ => 0,fun _ => true,
  fun _ => 0,fun _ => 0,fun _ => false⟩

theorem dupBalancedTwo : Balanced 2 full (.dupfd 0 1) (exec 2 full (.dupfd 0 1)) :=
  (dupBalanced 2 full (.dupfd 0 1) (by decide)).mpr fun () _ _ => ⟨by decide,⟨1,by decide,by decide,rfl⟩,fun _ _ _ => by omega⟩

theorem referenceLeft : (exec 1 full (.dupfd 0 0)).1 = .error .EMFILE ∧ (exec 1 full (.dupfd 0 0)).2.count () = 2 ∧
    (exec 1 full (.dupfd 0 (-1))).1 = .ok (-1) := by decide

end OsvKernel.Dup
