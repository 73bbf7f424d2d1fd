import OsvKernel.VmaList

/-! What one loop over the vma list does. A visited vma is replaced by its parts,
those inside the range being acted on; everything else stays where it is. -/
namespace OsvKernel.VmaList
open List Option

def Before (a b : Vma) : Prop := a.start < b.start ∧ a.stop ≤ b.start

structure Fit (v : Vma) : Prop where
  startPage : v.start % 4096 = 0
  stopPage : v.stop % 4096 = 0
  le : v.start ≤ v.stop
  top : v.stop ≤ sentinelEnd
  nonempty : v.start = v.stop → v.start = 0 ∨ v.start = sentinelEnd
  perm : v.validatePerm v.perm = none
  small : ∀ f o, v.kind = .file f o → v.flags ||| mmapSmall = v.flags

structure Inv (l : List Vma) : Prop where
  ordered : l.Pairwise Before
  fit : ∀ v ∈ l, Fit v
  low : ∃ v ∈ l, v.start = 0 ∧ v.stop = 0
  high : ∃ v ∈ l, v.start = sentinelEnd ∧ v.stop = sentinelEnd

variable {n edge fuel : Nat} {v p s : Vma} {l rest before B M P Q A : List Vma} {body : Vma → List Vma → Step}

open Vma

lemma alignDownPage (page : n % 4096 = 0) (lt : n < 2^64) : alignDown n 4096 = n := by
  have down := @alignDownEq n 12 (by decide) lt
  rw [show (2 : Nat)^12 = 4096 from rfl] at down
  omega

lemma alignUpPage (page : n % 4096 = 0) (lt : n + 4095 < 2^64) : alignUp n 4096 = n := by
  have up := @alignUpEq n 12 (by decide) (by omega)
  rw [show (2 : Nat)^12 = 4096 from rfl] at up
  omega

def Kind.shift (d : Nat) : Kind → Kind
  | .file f offset => .file f ((offset + d) % 2^64)
  | k => k

lemma Kind.shiftShift (k : Kind) (c d : Nat) : (k.shift c).shift d = k.shift (c+d) := by
  cases k with
  | file f offset => simp [Kind.shift,Nat.mod_add_mod,Nat.add_assoc]
  | anon | balloon => rfl

def Vma.upto (v : Vma) (edge : Nat) : Vma := { v with stop := edge }
def Vma.beyond (v : Vma) (edge : Nat) : Vma := { v with start := edge, kind := v.kind.shift (edge - v.start) }

def Inside (edge : Nat) (v : Vma) : Prop := v.start < edge ∧ edge < v.stop
  deriving Decidable

def lower (edge : Nat) (v : Vma) : Vma := if Inside edge v then v.upto edge else v
def upper (edge : Nat) (v : Vma) : List Vma := if Inside edge v then [v.beyond edge] else []

lemma lowerIn (inside : Inside edge v) : lower edge v = v.upto edge := if_pos inside
lemma upperIn (inside : Inside edge v) : upper edge v = [v.beyond edge] := if_pos inside
lemma lowerOut (out : ¬ Inside edge v) : lower edge v = v := if_neg out
lemma upperOut (out : ¬ Inside edge v) : upper edge v = [] := if_neg out

lemma Fit.below (h : Fit v) : v.stop + 4095 < 2^64 := by
  have top := h.top
  unfold sentinelEnd at top
  omega

lemma validateShift (v : Vma) (edge : Nat) (perm : BitVec 32) :
    (v.beyond edge).validatePerm perm = v.validatePerm perm := by
  unfold validatePerm beyond
  cases v.kind <;> rfl

lemma shiftNotBalloon {k : Kind} {d : Nat} (ne : k ≠ .balloon) : k.shift d ≠ .balloon := by
  cases k with
  | file f offset => exact nofun
  | anon => exact ne
  | balloon => exact absurd rfl ne

section
variable (h : Fit v) (page : edge % 4096 = 0)
include h page

lemma Fit.upto (inside : Inside edge v) : Fit (v.upto edge) :=
  ⟨h.startPage,page,Nat.le_of_lt inside.1,Nat.le_trans (Nat.le_of_lt inside.2) h.top,
    fun same => absurd same (Nat.ne_of_lt inside.1),h.perm,h.small⟩

lemma Fit.beyond (inside : Inside edge v) : Fit (v.beyond edge) := by
  refine ⟨page,h.stopPage,Nat.le_of_lt inside.2,h.top,fun same => absurd same (Nat.ne_of_lt inside.2),?_,fun f o kind => ?_⟩
  · rw [validateShift]
    exact h.perm
  cases old : v.kind with
  | file g p => exact h.small g p old
  | anon | balloon => simp [Vma.beyond,old,Kind.shift] at kind

lemma Fit.lower : Fit (lower edge v) := by
  unfold VmaList.lower
  split
  · exact h.upto page (by assumption)
  · exact h

end

lemma insertFront (first : ∀ w ∈ l, v.start < w.start) : insertVma v l = v::l := by
  cases l with
  | nil => rfl
  | cons a l => exact if_pos (first a (.head _))

lemma splitEq (h : Fit v) (page : edge % 4096 = 0) (apart : ∀ w ∈ rest, v.stop ≤ w.start) (solid : v.kind ≠ .balloon) :
    split edge v rest = .keep (lower edge v) (upper edge v ++ rest) := by
  have bound := h.below
  unfold split
  by_cases inside : Inside edge v
  swap
  · rw [lowerOut inside,upperOut inside]
    have out : edge ≤ v.start ∨ edge ≥ v.stop := by
      unfold Inside at inside
      omega
    cases kind : v.kind with
    | balloon => exact absurd kind solid
    | anon | file f offset => exact if_pos out
  rw [lowerIn inside,upperIn inside]
  obtain ⟨above,below⟩ := inside
  have out : ¬ (edge ≤ v.start ∨ edge ≥ v.stop) := by omega
  have front : v.set v.start edge = v.upto edge := by
    unfold Vma.set Vma.upto
    rw [alignDownPage h.startPage (by omega),alignUpPage page (by omega)]
  have first : ∀ w ∈ rest, (v.beyond edge).start < w.start := fun w mem => Nat.lt_of_lt_of_le below (apart w mem)
  cases kind : v.kind with
  | balloon => exact absurd kind solid
  | anon =>
    have back : anonVma edge v.stop v.perm v.flags = v.beyond edge := by
      unfold anonVma beyond
      rw [alignDownPage page (by omega),alignUpPage h.stopPage bound,kind]
      rfl
    dsimp only
    rw [if_neg out,front,back,insertFront first]
    rfl
  | file f offset => ?_
  have back : fileVma edge v.stop v.perm v.flags f (v.offset offset edge) = .ok (v.beyond edge) := by
    have same : (⟨alignDown edge 4096,alignUp v.stop 4096,v.perm,v.flags ||| mmapSmall,
      .file f (v.offset offset edge)⟩ : Vma) = v.beyond edge := by
      unfold Vma.beyond Vma.offset
      rw [alignDownPage page (by omega),alignUpPage h.stopPage bound,h.small f offset kind,kind]
      rfl
    have valid := (validateShift v edge v.perm).trans h.perm
    dsimp only [fileVma]
    rw [same,valid]
  dsimp only
  rw [if_neg out,back]
  dsimp only
  rw [front,insertFront first]
  rfl

section Parts
variable (start stop : Nat) (skip : Vma → Bool) (check : Vma → Option Errno) (act : Vma → Option Vma)

def firstPart (v : Vma) : Vma := lower start (lower stop v)
def laterParts (v : Vma) : List Vma := upper start (lower stop v) ++ upper stop v
def finish (v : Vma) : List Vma := if contains start stop v then (act v).toList else [v]

def treated (v : Vma) : List Vma :=
  if skip v then [v] else finish start stop act (firstPart start stop v) ++ (laterParts start stop v).flatMap (finish start stop act)

structure Uniform : Prop where
  skipUpto : ∀ v edge, skip (Vma.upto v edge) = skip v
  skipBeyond : ∀ v edge, skip (Vma.beyond v edge) = skip v
  checkUpto : ∀ v edge, check (Vma.upto v edge) = check v
  checkBeyond : ∀ v edge, check (Vma.beyond v edge) = check v

def Good (v : Vma) : Prop := skip v = true ∨ (check v = none ∧ v.kind ≠ .balloon)
  deriving Decidable

end Parts

variable {start stop : Nat} {skip : Vma → Bool} {check : Vma → Option Errno} {act : Vma → Option Vma}

lemma lowerBounds (edge : Nat) (v : Vma) : (lower edge v).start = v.start ∧ (lower edge v).stop ≤ v.stop ∧
    (lower edge v).kind = v.kind ∧ (lower edge v).perm = v.perm ∧ (lower edge v).flags = v.flags := by
  unfold lower
  split
  next inside => exact ⟨rfl,Nat.le_of_lt inside.2,rfl,rfl,rfl⟩
  · exact ⟨rfl,Nat.le_refl _,rfl,rfl,rfl⟩

lemma upperCases (mem : p ∈ upper edge v) : Inside edge v ∧ p = v.beyond edge := by
  unfold upper at mem
  split at mem
  · exact ⟨by assumption,mem_singleton.mp mem⟩
  · cases mem

lemma laterUncut (le : start ≤ stop) (mem : p ∈ laterParts start stop v) : ¬ Inside start p ∧ ¬ Inside stop p := by
  rcases mem_append.mp mem with front | back
  swap
  · obtain ⟨_,rfl⟩ := upperCases back
    exact ⟨fun cut => absurd cut.1 (Nat.not_lt.mpr le),fun cut => Nat.lt_irrefl _ cut.1⟩
  obtain ⟨inside,rfl⟩ := upperCases front
  obtain ⟨same,_⟩ := lowerBounds stop v
  refine ⟨fun cut => Nat.lt_irrefl _ cut.1,fun cut => ?_⟩
  have above : v.start < stop := same ▸ Nat.lt_of_lt_of_le inside.1 le
  by_cases more : Inside stop v
  · rw [lowerIn more] at cut
    exact Nat.lt_irrefl _ cut.2
  rw [lowerOut more] at cut
  exact more ⟨above,cut.2⟩

lemma laterWhole (le : start ≤ stop) (mem : p ∈ laterParts start stop v) :
    firstPart start stop p = p ∧ laterParts start stop p = [] := by
  obtain ⟨one,two⟩ := laterUncut le mem
  unfold firstPart laterParts
  rw [lowerOut two,lowerOut one,upperOut two,upperOut one]
  exact ⟨rfl,rfl⟩

lemma laterLength (start stop : Nat) (v : Vma) : (laterParts start stop v).length ≤ 2 := by
  have one : ∀ edge (v : Vma), (upper edge v).length ≤ 1 := by
    intro edge v
    unfold upper
    split <;> simp
  have front := one start (lower stop v)
  have back := one stop v
  unfold laterParts
  rw [length_append]
  omega

lemma Uniform.lower (u : Uniform skip check) (edge : Nat) (v : Vma) :
    skip (lower edge v) = skip v ∧ check (lower edge v) = check v := by
  unfold VmaList.lower
  split
  · exact ⟨u.skipUpto v edge,u.checkUpto v edge⟩
  · exact ⟨rfl,rfl⟩

lemma Uniform.later (u : Uniform skip check) (mem : p ∈ laterParts start stop v) :
    skip p = skip v ∧ check p = check v := by
  rcases mem_append.mp mem with front | back
  · obtain ⟨_,rfl⟩ := upperCases front
    obtain ⟨skipped,checked⟩ := u.lower stop v
    exact ⟨(u.skipBeyond _ _).trans skipped,(u.checkBeyond _ _).trans checked⟩
  obtain ⟨_,rfl⟩ := upperCases back
  exact ⟨u.skipBeyond _ _,u.checkBeyond _ _⟩

lemma laterSolid (solid : v.kind ≠ .balloon) (mem : p ∈ laterParts start stop v) : p.kind ≠ .balloon := by
  rcases mem_append.mp mem with front | back
  · obtain ⟨_,rfl⟩ := upperCases front
    obtain ⟨_,_,kind,_⟩ := lowerBounds stop v
    exact shiftNotBalloon (kind ▸ solid)
  obtain ⟨_,rfl⟩ := upperCases back
  exact shiftNotBalloon solid

lemma Fit.later (h : Fit v) (one : start % 4096 = 0) (two : stop % 4096 = 0)
    (mem : p ∈ laterParts start stop v) : Fit p := by
  rcases mem_append.mp mem with front | back
  · obtain ⟨inside,rfl⟩ := upperCases front
    exact (h.lower two).beyond one inside
  obtain ⟨inside,rfl⟩ := upperCases back
  exact h.beyond two inside

lemma orderedCut (ordered : (v::rest).Pairwise Before) : (lower edge v::(upper edge v ++ rest)).Pairwise Before := by
  by_cases inside : Inside edge v
  swap
  · rw [lowerOut inside,upperOut inside]
    exact ordered
  rw [lowerIn inside,upperIn inside]
  obtain ⟨first,others⟩ := pairwise_cons.mp ordered
  refine pairwise_cons.mpr ⟨fun w mem => ?_,pairwise_cons.mpr ⟨fun w mem => ?_,others⟩⟩
  · rcases mem_cons.mp mem with rfl | old
    · exact ⟨inside.1,Nat.le_refl edge⟩
    · have after := (first w old).2
      exact ⟨(first w old).1,Nat.le_of_lt (Nat.lt_of_lt_of_le inside.2 after)⟩
  have after := (first w mem).2
  exact ⟨Nat.lt_of_lt_of_le inside.2 after,after⟩

lemma orderedParts (start stop : Nat) (ordered : (v::rest).Pairwise Before) :
    (firstPart start stop v::(laterParts start stop v ++ rest)).Pairwise Before := by
  unfold firstPart laterParts
  rw [append_assoc]
  exact orderedCut (orderedCut ordered)

lemma visitGood {v : Vma} {rest : List Vma} (h : Fit v) (one : start % 4096 = 0) (two : stop % 4096 = 0)
    (ordered : (v::rest).Pairwise Before) (unskipped : skip v = false) (passed : check v = none)
    (solid : v.kind ≠ .balloon) : visit start stop skip check act v rest =
      settle start stop act (firstPart start stop v) (laterParts start stop v ++ rest) := by
  have apart : ∀ w ∈ rest, v.stop ≤ w.start := fun w mem => ((pairwise_cons.mp ordered).1 w mem).2
  have kind : (lower stop v).kind ≠ .balloon := (lowerBounds stop v).2.2.1 ▸ solid
  have next : ∀ w ∈ upper stop v ++ rest, (lower stop v).stop ≤ w.start := fun w mem =>
    ((pairwise_cons.mp (orderedCut ordered)).1 w mem).2
  unfold visit
  rw [unskipped,passed,splitEq h two apart solid]
  dsimp only [Step.andThen,Bool.false_eq_true,if_false]
  rw [if_neg (by decide),splitEq (h.lower two) one next kind]
  dsimp only
  rw [← append_assoc]
  rfl

def weight (start stop : Nat) (v : Vma) : Nat := 1 + (laterParts start stop v).length

lemma weightsLater (le : start ≤ stop) :
    ((laterParts start stop v).map (weight start stop)).sum = (laterParts start stop v).length := by
  have ones : (laterParts start stop v).map (weight start stop) = (laterParts start stop v).map (fun _ => 1) := by
    refine map_congr_left (fun p mem => ?_)
    rw [weight,(laterWhole le mem).2]
    rfl
  rw [ones]
  simp

lemma weightsLe (start stop : Nat) (l : List Vma) : (l.map (weight start stop)).sum ≤ 3*l.length := by
  induction l with
  | nil => exact Nat.le_refl 0
  | cons v l ih =>
    have two := laterLength start stop v
    rw [map_cons,sum_cons,length_cons,weight]
    omega

lemma treatedLater (u : Uniform skip check) (le : start ≤ stop) (unskipped : skip v = false)
    (mem : p ∈ laterParts start stop v) : treated start stop skip act p = finish start stop act p := by
  obtain ⟨first,later⟩ := laterWhole le mem
  have same := (u.later mem).1.trans unskipped
  unfold treated
  rw [same,first,later]
  simp

lemma settleSweep {last : Option Nat} {more : List Vma}
    {i j : Vma} (step : body i rest = settle start stop act j more) (off : last ≠ some i.start) (kept : before ≠ []) :
    sweep body last (fuel+1) before (i::rest) = sweep body last fuel (before ++ finish start stop act j) more := by
  rw [sweep,if_neg off,step]
  by_cases inside : contains start stop j
  · unfold settle finish
    rw [if_pos inside,if_pos inside]
    cases act j
    case some i => rfl
    dsimp only
    rw [if_neg kept,toList_none,append_nil]
  unfold settle finish
  rw [if_neg inside,if_neg inside]

lemma beforeLast (ordered : ((v::rest) ++ B).Pairwise Before) : B.head?.map Vma.start ≠ some v.start := by
  rcases B with _ | ⟨b,B⟩
  · exact nofun
  intro same
  have less := ((pairwise_cons.mp ordered).1 b (by simp)).1
  have equal := some.inj same
  omega

lemma sweepEnd (B : List Vma) : sweep body (B.head?.map Vma.start) (fuel+1) before B = .done (before ++ B) := by
  cases B with
  | nil | cons b B => simp [sweep]

def swept (start stop : Nat) (skip : Vma → Bool) (check : Vma → Option Errno) (act : Vma → Option Vma) (B : List Vma) :
    List Vma → List Vma → Result
  | before,[] => .done (before ++ B)
  | before,v::M =>
    if Good skip check v then swept start stop skip check act B (before ++ treated start stop skip act v) M
    else
      match check v with
      | some e => .failed e (before ++ v::(M ++ B))
      | none => .abort

lemma sweptLater (u : Uniform skip check) (le : start ≤ stop) (unskipped : skip v = false) (passed : check v = none)
    (solid : v.kind ≠ .balloon) {parts : List Vma} (sub : ∀ p ∈ parts, p ∈ laterParts start stop v) (before : List Vma) :
    swept start stop skip check act B before (parts ++ M) =
      swept start stop skip check act B (before ++ parts.flatMap (finish start stop act)) M := by
  induction parts generalizing before with
  | nil => rw [nil_append,flatMap_nil,append_nil]
  | cons p parts ih => ?_
  have mem := sub p (.head _)
  have good : Good skip check p := .inr ⟨(u.later mem).2.trans passed,laterSolid solid mem⟩
  rw [cons_append,swept,if_pos good,treatedLater u le unskipped mem,
    ih (fun q inside => sub q (.tail _ inside)),flatMap_cons,append_assoc]

lemma sweepSpec (u : Uniform skip check) (le : start ≤ stop) (one : start % 4096 = 0) (two : stop % 4096 = 0) (ordered : (M ++ B).Pairwise Before) (fit : ∀ v ∈ M, Fit v)
    (enough : (M.map (weight start stop)).sum < fuel) (kept : before ≠ []) :
    sweep (visit start stop skip check act) (B.head?.map Vma.start) fuel before (M ++ B) =
      swept start stop skip check act B before M := by
  induction fuel generalizing before M with
  | zero => omega
  | succ fuel ih => ?_
  rcases M with _ | ⟨v,M⟩
  · exact sweepEnd B
  have lead : weight start stop v = 1 + (laterParts start stop v).length := rfl
  rw [map_cons,sum_cons] at enough
  have off := beforeLast ordered
  have fits := fit v (.head _)
  have others : ∀ w ∈ M, Fit w := fun w mem => fit w (.tail _ mem)
  have tail := (pairwise_cons.mp ordered).2
  rw [swept]
  cases skipped : skip v
  case true =>
    have step : visit start stop skip check act v (M ++ B) = .keep v (M ++ B) := if_pos skipped
    have whole : treated start stop skip act v = [v] := if_pos skipped
    rw [cons_append,sweep,if_neg off,step,if_pos (.inl skipped),whole]
    exact ih tail others (by omega) (by simp)
  by_cases good : Good skip check v
  · obtain ⟨passed,solid⟩ := good.resolve_left (by simp [skipped])
    have step := @visitGood start stop skip check act v (M ++ B) fits one two ordered skipped passed solid
    have parts : (laterParts start stop v ++ (M ++ B)).Pairwise Before :=
      (pairwise_cons.mp (orderedParts start stop ordered)).2
    have whole : treated start stop skip act v = finish start stop act (firstPart start stop v) ++
      (laterParts start stop v).flatMap (finish start stop act) := if_neg (by simp [skipped])
    rw [← append_assoc] at step parts
    rw [if_pos good,cons_append,settleSweep step off kept,ih parts
      (fun w mem => (mem_append.mp mem).elim (fun new => fits.later one two new) (others w))
      (by rw [map_append,sum_append,weightsLater le]; omega)
      (by simp [kept]),sweptLater u le skipped passed solid (fun p mem => mem),whole,append_assoc]
  rw [if_neg good,cons_append,sweep,if_neg off]
  cases checked : check v
  case some e =>
    have step : visit start stop skip check act v (M ++ B) = .failed e v (M ++ B) := by
      unfold visit
      rw [skipped,checked]
      rfl
    rw [step]
  have balloon := Decidable.not_not.mp (fun solid => good (.inr ⟨checked,solid⟩))
  have step : visit start stop skip check act v (M ++ B) = .abort := by
    unfold visit split
    rw [skipped,checked,balloon]
    rfl
  rw [step]

lemma sweptGood (good : ∀ v ∈ M, Good skip check v) (before : List Vma) :
    swept start stop skip check act B before M = .done (before ++ (M.flatMap (treated start stop skip act) ++ B)) := by
  induction M generalizing before with
  | nil => rfl
  | cons v M ih =>
    rw [swept,if_pos (good v mem_cons_self),ih (fun w mem => good w (.tail _ mem)),flatMap_cons,
      append_assoc,append_assoc]

lemma sweptDone (done : swept start stop skip check act B before M = .done l) : ∀ v ∈ M, Good skip check v := by
  induction M generalizing before with
  | nil => exact nofun
  | cons v M ih => ?_
  rw [swept] at done
  split at done
  next good =>
    intro w mem
    rcases mem_cons.mp mem with rfl | old
    · exact good
    · exact ih done w old
  · split at done <;> cases done

lemma sweptSolid (solid : ∀ v ∈ M, v.kind ≠ .balloon) : swept start stop skip check act B before M ≠ .abort := by
  induction M generalizing before with
  | nil => exact nofun
  | cons v M ih => ?_
  rw [swept]
  split
  · exact ih (fun w mem => solid w (.tail _ mem))
  rename_i bad
  cases checked : check v with
  | some e => exact nofun
  | none => exact absurd (.inr ⟨checked,solid v (.head _)⟩) bad

lemma cutAt (ordered : l.Pairwise Before) (t : Nat) :
    ∃ P Q, l = P ++ Q ∧ (∀ v ∈ P, v.start < t) ∧ ∀ v ∈ Q, t ≤ v.start := by
  induction l with
  | nil => exact ⟨[],[],rfl,by simp,by simp⟩
  | cons v l ih => ?_
  obtain ⟨first,rest⟩ := pairwise_cons.mp ordered
  rcases Nat.lt_or_ge v.start t with low | high
  · obtain ⟨P,Q,rfl,below,above⟩ := ih rest
    exact ⟨v::P,Q,rfl,by simpa using ⟨low,below⟩,above⟩
  refine ⟨[],v::l,rfl,by simp,fun w mem => ?_⟩
  rcases mem_cons.mp mem with rfl | old
  · exact high
  · exact Nat.le_trans high (Nat.le_of_lt (first w old).1)

lemma lowerBoundAppend {t : Nat} (below : ∀ v ∈ P, v.start < t) (above : ∀ v ∈ Q, t ≤ v.start) :
    lowerBound (P ++ Q) t = Q.head? := by
  have none : P.find? (fun v => decide (t ≤ v.start)) = none :=
    find?_eq_none.mpr (fun v mem => by simpa using below v mem)
  unfold lowerBound
  rw [find?_append,none,none_or]
  cases Q with
  | nil => rfl
  | cons q Q => exact find?_cons_of_pos (by simpa using above q mem_cons_self)

lemma takeWhileAppend {P Q : List Vma} {p : Vma → Bool} (yes : ∀ v ∈ P, p v = true) (no : ∀ v ∈ Q.head?, p v = false) :
    (P ++ Q).takeWhile p = P ∧ (P ++ Q).dropWhile p = Q := by
  induction P with
  | nil =>
    rcases Q with _ | ⟨q,Q⟩
    · exact ⟨rfl,rfl⟩
    have off := no q rfl
    simp [off]
  | cons a P ih =>
    have on := yes a (.head _)
    have rest := ih (fun v mem => yes v (.tail _ mem))
    simpa [on] using rest

structure Found (l : List Vma) (start stop : Nat) (A M B : List Vma) : Prop where
  list : l = A ++ (M ++ B)
  below : ∀ v ∈ A, v.start < start ∧ v.stop ≤ start
  inside : ∀ v ∈ M, v.start < stop ∧ (start ≤ v.start ∨ start < v.stop)
  above : ∀ v ∈ B, stop ≤ v.start
  range : findIntersectingVmas l start stop = some (M.head?.map Vma.start,if M = [] then none else B.head?.map Vma.start)

structure Cut (P Q B : List Vma) (start stop : Nat) : Prop where
  below : ∀ v ∈ P, v.start < start
  near : ∀ v ∈ Q, start ≤ v.start ∧ v.start < stop
  far : ∀ v ∈ B, stop ≤ v.start
  lt : start < stop

lemma Inv.cut (h : Inv l) (lt : start < stop) : ∃ P Q B, l = P ++ (Q ++ B) ∧ Cut P Q B start stop := by
  obtain ⟨P,R,rfl,below,above⟩ := cutAt h.ordered start
  obtain ⟨Q,B,rfl,near,far⟩ := cutAt (pairwise_append.mp h.ordered).2.1 stop
  exact ⟨P,Q,B,rfl,below,fun v mem => ⟨above v (mem_append_left _ mem),near v mem⟩,far,lt⟩

lemma Cut.above (c : Cut P Q B start stop) : ∀ v ∈ Q ++ B, start ≤ v.start := by
  intro v mem
  rcases mem_append.mp mem with near | far
  · exact (c.near v near).1
  · exact Nat.le_trans (Nat.le_of_lt c.lt) (c.far v far)

lemma Cut.search {t : Vma} (c : Cut P Q B start stop) (first : (Q ++ B).head? = some s)
    (chosen : reaching (P ++ (Q ++ B)) start s = some t) : findIntersectingVmas (P ++ (Q ++ B)) start stop =
      if t.start ≥ stop then some (none,none) else some (some t.start,B.head?.map Vma.start) := by
  have bound : lowerBound (P ++ (Q ++ B)) stop = B.head? := by
    rw [← append_assoc]
    refine lowerBoundAppend (fun v mem => ?_) c.far
    rcases mem_append.mp mem with one | two
    · exact Nat.lt_trans (c.below v one) c.lt
    · exact (c.near v two).2
  unfold findIntersectingVmas
  rw [if_neg (Nat.not_le.mpr c.lt),lowerBoundAppend c.below c.above,first]
  dsimp only [bind,Option.bind]
  rw [chosen]
  dsimp only
  rw [bound]

lemma Cut.plain (c : Cut P Q B start stop) (short : ∀ v ∈ P, v.stop ≤ start)
    (first : (Q ++ B).head? = some s) (chosen : reaching (P ++ (Q ++ B)) start s = some s) :
    Found (P ++ (Q ++ B)) start stop P Q B := by
  refine ⟨rfl,fun v mem => ⟨c.below v mem,short v mem⟩,fun v mem => ⟨(c.near v mem).2,.inl (c.near v mem).1⟩,c.far,?_⟩
  rw [c.search first chosen]
  cases Q
  case cons q Q =>
    cases first
    rw [if_neg (Nat.not_le.mpr (c.near s mem_cons_self).2)]
    rfl
  have out := c.far s (mem_of_head? first)
  rw [if_pos out]
  rfl

lemma Cut.reach (c : Cut (P ++ [p]) Q B start stop) (short : ∀ v ∈ P, v.stop ≤ start)
    (reaches : p.stop > start) (first : (Q ++ B).head? = some s)
    (chosen : reaching (P ++ [p] ++ (Q ++ B)) start s = some p) :
    Found (P ++ [p] ++ (Q ++ B)) start stop P (p::Q) B := by
  have less := c.below p (by simp)
  refine ⟨by simp,fun v mem => ⟨c.below v (mem_append_left _ mem),short v mem⟩,fun v mem => ?_,c.far,?_⟩
  · rcases mem_cons.mp mem with rfl | old
    · exact ⟨Nat.lt_trans less c.lt,.inr reaches⟩
    · exact ⟨(c.near v old).2,.inl (c.near v old).1⟩
  have stops := Nat.lt_trans less c.lt
  rw [c.search first chosen,if_neg (Nat.not_le.mpr stops)]
  rfl

lemma prevAppend {P R : List Vma} {p s : Vma} (first : R.head? = some s) (below : ∀ v ∈ P ++ [p], v.start < s.start) :
    prev (P ++ [p] ++ R) s.start = some p := by
  have taken := @takeWhileAppend (P ++ [p]) R (fun v => decide (v.start < s.start))
    (fun v mem => by simpa using below v mem) (fun v mem => by
      rw [first] at mem
      cases mem
      simp)
  unfold prev
  rw [taken.1]
  simp

lemma reachingBack {P R : List Vma} {p s : Vma} (first : R.head? = some s) (gap : start < s.start)
    (below : ∀ v ∈ P ++ [p], v.start < start) :
    reaching (P ++ [p] ++ R) start s = some (if p.stop > start then p else s) := by
  rw [reaching,if_pos gap,prevAppend first fun v mem => Nat.lt_trans (below v mem) gap]
  rfl

lemma Inv.found {l : List Vma} (h : Inv l) (lt : start < stop) (le : start ≤ sentinelEnd) :
    ∃ A M B, Found l start stop A M B := by
  obtain ⟨P,Q,B,rfl,c⟩ := h.cut lt
  obtain ⟨_,tail,across⟩ := pairwise_append.mp h.ordered
  obtain ⟨s,rest,eq⟩ : ∃ s rest, Q ++ B = s::rest := by
    obtain ⟨w,mem,top,_⟩ := h.high
    cases same : Q ++ B
    case cons s rest => exact ⟨s,rest,rfl⟩
    rw [same,append_nil] at mem
    have := c.below w mem
    omega
  have first : (Q ++ B).head? = some s := by rw [eq]; rfl
  have member := mem_of_head? first
  rcases Nat.eq_or_lt_of_le (c.above s member) with same | gap
  · refine ⟨P,Q,B,c.plain (fun v mem => ?_) first (if_neg (by omega))⟩
    have order := (across v mem s member).2
    omega
  rcases eq_nil_or_concat' P with rfl | ⟨P,p,rfl⟩
  · obtain ⟨w,lowest,low,_⟩ := h.low
    rw [nil_append] at lowest
    have := c.above w lowest
    rw [eq] at lowest tail
    rcases mem_cons.mp lowest with rfl | old
    · omega
    have := ((pairwise_cons.mp tail).1 w old).1
    omega
  have chosen := @reachingBack start P (Q ++ B) p s first gap c.below
  have before : ∀ v ∈ P, v.stop ≤ start := by
    intro v mem
    have order := (pairwise_append.mp (pairwise_append.mp h.ordered).1).2.2 v mem p (by simp)
    exact Nat.le_trans order.2 (Nat.le_of_lt (c.below p (by simp)))
  by_cases reaches : p.stop > start
  · rw [if_pos reaches] at chosen
    exact ⟨P,p::Q,B,c.reach before reaches first chosen⟩
  rw [if_neg reaches] at chosen
  refine ⟨P ++ [p],Q,B,c.plain (fun v mem => ?_) first chosen⟩
  rcases mem_append.mp mem with old | last
  · exact before v old
  rw [mem_singleton.mp last]
  omega

section
variable (f : Found l start stop A M B) (ordered : l.Pairwise Before)
include f ordered

lemma Found.keys {m : Vma} (shape : M = m::rest) :
    l.takeWhile (fun v => decide (v.start ≠ m.start)) = A ∧ l.dropWhile (fun v => decide (v.start ≠ m.start)) = M ++ B := by
  subst shape
  rw [f.list] at ordered ⊢
  refine takeWhileAppend (fun v mem => ?_) (fun v mem => ?_)
  · have less := ((pairwise_append.mp ordered).2.2 v mem m (by simp)).1
    exact decide_eq_true (Nat.ne_of_lt less)
  cases mem
  exact decide_eq_false (by simp)

lemma Found.over : overRange l start stop body = sweep body (B.head?.map Vma.start) (3*l.length+1) A (M ++ B) := by
  unfold overRange
  rw [f.range]
  cases shape : M
  case cons m rest =>
    obtain ⟨taken,dropped⟩ := f.keys ordered shape
    unfold forRange
    simp only [head?_cons,map_some,taken,dropped,shape,reduceCtorEq,if_false]
  rw [nil_append,sweepEnd]
  have all := f.list
  rw [shape,nil_append] at all
  rw [← all]
  rfl

lemma Found.visited : visited l (M.head?.map Vma.start,if M = [] then none else B.head?.map Vma.start) = M := by
  rcases shape : M with _ | ⟨m,rest⟩
  · rfl
  obtain ⟨_,dropped⟩ := f.keys ordered shape
  unfold VmaList.visited
  simp only [head?_cons,map_some,dropped,shape,reduceCtorEq,if_false]
  rw [f.list,shape] at ordered
  have after := (pairwise_append.mp ordered).2.1
  refine (takeWhileAppend (fun v mem => ?_) (fun v mem => ?_)).1
  · obtain ⟨C,D,split⟩ := append_of_mem mem
    rw [split,append_assoc] at after
    exact decide_eq_true (beforeLast (pairwise_append.mp after).2.1)
  have there := mem
  rw [there]
  exact decide_eq_false (by simp)

end

end OsvKernel.VmaList
