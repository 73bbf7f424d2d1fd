import OsvKernel.TimerSet

/-! expire() of timer_set: which timers it takes, where it leaves the others, and what _next
is after it. -/
namespace OsvKernel.TimerSet
open List Nat BitsetIter Function

variable {T : Type} {timeout : T → Int} {s s' : State T}

structure Spliced (s s' : State T) (l : List Nat) : Prop where
  buckets : ∀ i, s'.buckets i = if i ∈ l then [] else s.buckets i
  expired : s'.expired = s.expired ++ l.flatMap s.buckets
  marks : ∀ i, s'.nonEmptyBuckets.getLsbD i = true ↔ s.nonEmptyBuckets.getLsbD i = true ∧ i ∉ l
  last : s'.last = s.last

lemma spliced {l : List Nat} (nodup : l.Nodup) (inside : ∀ i ∈ l, i < 64) :
    Spliced s (l.foldl splice s) l := by
  induction l generalizing s with
  | nil => exact ⟨by simp,by simp,by simp,rfl⟩
  | cons k l ih => ?_
  obtain ⟨apart,nodup⟩ := nodup_cons.mp nodup
  have tail := @ih (splice s k) nodup fun i here => inside i (.tail k here)
  have off : ∀ i, i ∈ l → i ≠ k := fun i here same => apart (same ▸ here)
  refine ⟨fun i => ?_,?_,fun i => ?_,tail.last⟩
  · rw [foldl_cons,tail.buckets]
    by_cases same : i = k
    · subst i
      simp [apart,splice]
    · simp [splice,same]
  · have rest : l.flatMap (splice s k).buckets = l.flatMap s.buckets :=
      flatMap_congr fun i here => update_of_ne (off i here) _ _
    rw [foldl_cons,tail.expired,rest,flatMap_cons,← append_assoc]
    rfl
  rw [foldl_cons,tail.marks]
  change (assign s.nonEmptyBuckets k false).getLsbD i = true ∧ i ∉ l ↔ _
  rw [getLsbDAssign (inside k mem_cons_self)]
  by_cases same : i = k
  · subst i
    simp
  · simp [same]

structure Drained (timeout : T → Int) (s s' : State T) (now : Int) (index : Nat) (p : List T) : Prop where
  last : s'.last = s.last
  done : s'.buckets index = []
  buckets : ∀ j, j ≠ index → s'.buckets j =
    s.buckets j ++ p.filter fun t => now < timeout t ∧ getIndex s.last (timeout t) = j
  expired : s'.expired = s.expired ++ p.filter fun t => timeout t ≤ now
  marks : ∀ j, j ≠ index → (s'.nonEmptyBuckets.getLsbD j = true ↔
    s.nonEmptyBuckets.getLsbD j = true ∨ ∃ t ∈ p, now < timeout t ∧ getIndex s.last (timeout t) = j)
  next : s'.next ≤ s.next
  nextLow : ∀ t ∈ p, now < timeout t → s'.next ≤ timeout t
  nextFrom : s'.next = s.next ∨ ∃ t ∈ p, now < timeout t ∧ s'.next = timeout t

variable {index i : Nat} {now : Int} {p : List T} {t x : T}

lemma drainedDue (due : timeout t ≤ now)
    (rest : Drained timeout {s with buckets := update s.buckets index p, expired := s.expired ++ [t]} s' now index p) :
    Drained timeout s s' now index (t::p) := by
  have early : ¬now < timeout t := by omega
  refine ⟨rest.last,rest.done,fun j other => ?_,?_,fun j other => ?_,rest.next,?_,?_⟩
  · rw [rest.buckets j other]
    simp [early,other]
  · rw [rest.expired]
    simp [due]
  · rw [rest.marks j other]
    simp [early]
  · simpa [early] using rest.nextLow
  · simpa [early] using rest.nextFrom

lemma drainedLater (early : 0 ≤ s.last)
    (high : timeout t ≤ maxTimestamp) (later : now < timeout t) (moved : getIndex s.last (timeout t) ≠ index)
    (rest : Drained timeout (insert timeout {s with buckets := update s.buckets index p} t).1 s' now index p) :
    Drained timeout s s' now index (t::p) := by
  obtain ⟨last,expired⟩ := @insertFrame T timeout {s with buckets := update s.buckets index p} t
  have bound := getIndexBelow early high
  have notDue : ¬timeout t ≤ now := by omega
  have low := @insertNext T timeout {s with buckets := update s.buckets index p} t
  have next := rest.next
  have from' := rest.nextFrom
  refine ⟨rest.last.trans last,rest.done,fun j other => ?_,?_,fun j other => ?_,?_,?_,?_⟩
  · rw [rest.buckets j other,insertBuckets,last]
    by_cases same : getIndex s.last (timeout t) = j
    · subst j
      simp [later,moved]
    rw [update_of_ne (fun eq => same eq.symm)]
    simp [same,other]
  · rw [rest.expired,expired]
    simp [notDue]
  · rw [rest.marks j other,insertMarks,last,getLsbDAssign bound]
    by_cases same : j = getIndex s.last (timeout t)
    · simp [same,later]
    have apart : getIndex s.last (timeout t) ≠ j := fun eq => same eq.symm
    simp [same,apart]
  · rcases low with ⟨less,eq,-⟩ | ⟨less,eq,-⟩ <;> simp only at less eq <;> omega
  · intro u here after
    rcases mem_cons.mp here with rfl | here
    · rcases low with ⟨less,eq,-⟩ | ⟨less,eq,-⟩ <;> simp only at less eq <;> omega
    · exact rest.nextLow u here after
  rcases from' with same | ⟨u,here,after,eq⟩
  · rcases low with ⟨-,eq,-⟩ | ⟨-,eq,-⟩
    · exact .inr ⟨t,.head _,later,same.trans eq⟩
    · exact .inl (same.trans eq)
  · exact .inr ⟨u,.tail t here,after,eq⟩

lemma drained {now : Int} {index : Nat} {p : List T} {fuel : Nat} (enough : p.length < fuel)
    (early : 0 ≤ s.last) (list : s.buckets index = p) (high : ∀ t ∈ p, timeout t ≤ maxTimestamp)
    (moved : ∀ t ∈ p, now < timeout t → getIndex s.last (timeout t) ≠ index) :
    ∃ s', redistribute timeout now index fuel s = some s' ∧ Drained timeout s s' now index p := by
  induction p generalizing s fuel with
  | nil =>
    obtain ⟨fuel,rfl⟩ := exists_eq_succ_of_ne_zero (by omega : fuel ≠ 0)
    refine ⟨s,by simp [redistribute,list],?_⟩
    exact ⟨rfl,list,by simp,by simp,by simp,Int.le_refl _,by simp,.inl rfl⟩
  | cons t p ih => ?_
  obtain ⟨fuel,rfl⟩ := exists_eq_succ_of_ne_zero (by omega : fuel ≠ 0)
  have short : p.length < fuel := by
    simp only [length_cons] at enough
    omega
  have tailHigh := fun u here => high u (.tail t here)
  have tailMoved := fun u here => moved u (.tail t here)
  rw [redistribute,list]
  dsimp only
  by_cases due : timeout t ≤ now
  · rw [if_pos due]
    obtain ⟨s',run,rest⟩ := @ih {s with buckets := update s.buckets index p, expired := s.expired ++ [t]}
      fuel short early (update_self ..) tailHigh tailMoved
    exact ⟨s',run,drainedDue due rest⟩
  rw [if_neg due]
  have away := moved t (.head _) (by omega)
  obtain ⟨last,-⟩ := @insertFrame T timeout {s with buckets := update s.buckets index p} t
  have bucket : (insert timeout {s with buckets := update s.buckets index p} t).1.buckets index = p := by
    rw [insertBuckets,update_of_ne (fun eq => away eq.symm)]
    exact update_self ..
  obtain ⟨s',run,rest⟩ := ih short (by rw [last]; exact early) bucket tailHigh (by rw [last]; exact tailMoved)
  exact ⟨s',run,drainedLater early (high t (.head _)) (by omega) away rest⟩

structure Cleared (timeout : T → Int) (s s' : State T) (now : Int) : Prop where
  last : s'.last = now
  members : ∀ j x, x ∈ s'.buckets j ↔ j < getIndex s.last now ∧ x ∈ s.buckets j ∨
    x ∈ s.buckets (getIndex s.last now) ∧ now < timeout x ∧ getIndex now (timeout x) = j
  once : ∀ j, (s'.buckets j).Nodup
  marks : ∀ j, s'.nonEmptyBuckets.getLsbD j = true ↔ s'.buckets j ≠ []
  expired : ∀ x, x ∈ s'.expired ↔ x ∈ s.expired ∨ Active s x ∧ timeout x ≤ now
  expiredOnce : s'.expired.Nodup
  next : s'.next ≤ maxTimestamp
  nextLow : ∀ x ∈ s.buckets (getIndex s.last now), now < timeout x → s'.next ≤ timeout x
  nextFrom : s'.next = maxTimestamp ∨
    ∃ x ∈ s.buckets (getIndex s.last now), now < timeout x ∧ s'.next = timeout x

lemma Filed.moved (filed : Filed timeout s) (order : s.last ≤ now)
    (inside : x ∈ s.buckets (getIndex s.last now)) (later : now < timeout x) :
    getIndex s.last now < getIndex now (timeout x) :=
  getIndexMove filed.early order (filed.times _ x inside) (filed.placed _ x inside) later

lemma Filed.dueAbove (filed : Filed timeout s) (high : now ≤ maxTimestamp)
    (above : getIndex s.last now < i) (inside : x ∈ s.buckets i) : timeout x ≤ now := by
  have index := filed.placed i x inside
  exact Int.le_of_lt (getIndexOrder filed.early high (filed.times i x inside) (by omega))

lemma Filed.laterBelow (filed : Filed timeout s) (high : now ≤ maxTimestamp)
    (below : i < getIndex s.last now) (inside : x ∈ s.buckets i) : now < timeout x := by
  have index := filed.placed i x inside
  exact getIndexOrder filed.early (filed.times i x inside) high (by omega)

section cleared
variable {now : Int} {l : List Nat} {mid : State T}

def Covers (s : State T) (now : Int) (l : List Nat) : Prop :=
  ∀ i, i ∈ l ↔ getIndex s.last now < i ∧ s.nonEmptyBuckets.getLsbD i = true

section
variable (some : Spliced s mid l) (filed : Filed timeout s)
include some filed

lemma Spliced.above (range : Covers s now l) (j : Nat) :
    mid.buckets j = if getIndex s.last now < j then [] else s.buckets j := by
  rw [some.buckets]
  by_cases above : getIndex s.last now < j
  · rw [if_pos above]
    split
    · rfl
    rename_i out
    by_contra nonempty
    exact out ((range j).mpr ⟨above,(filed.marks j).mpr nonempty⟩)
  · rw [if_neg above,if_neg fun inside => above ((range j).mp inside).1]

lemma Spliced.memExpired (range : Covers s now l) :
    x ∈ mid.expired ↔ x ∈ s.expired ∨ ∃ i, getIndex s.last now < i ∧ x ∈ s.buckets i := by
  rw [some.expired,mem_append,mem_flatMap]
  refine or_congr_right (exists_congr fun i => ?_)
  rw [range i]
  refine ⟨fun inside => ⟨inside.1.1,inside.2⟩,fun inside => ⟨⟨inside.1,?_⟩,inside.2⟩⟩
  exact (filed.marks i).mpr (ne_nil_of_mem inside.2)

lemma Spliced.expiredNodup (nodup : l.Nodup) : mid.expired.Nodup := by
  rw [some.expired]
  refine filed.expiredOnce.append (nodup_flatMap.mpr ⟨fun i _ => filed.once i,?_⟩) ?_
  · refine nodup.imp fun {i j} other => ?_
    exact fun x first second => filed.ne first second other rfl
  intro x old spliced
  obtain ⟨i,-,inside⟩ := mem_flatMap.mp spliced
  exact filed.apart i x inside old

end

lemma Spliced.cleared {s₂ : State T} (some : Spliced s mid l) (nodup : l.Nodup) (range : Covers s now l)
    (filed : Filed timeout s) (order : s.last ≤ now) (high : now ≤ maxTimestamp)
    (drain : Drained timeout {mid with last := now, next := maxTimestamp} s₂ now (getIndex s.last now)
      (s.buckets (getIndex s.last now))) :
    Cleared timeout s
      {s₂ with nonEmptyBuckets := assign s₂.nonEmptyBuckets (getIndex s.last now) (!(s₂.buckets (getIndex s.last now)).isEmpty)}
      now := by
  have bound := getIndexBelow filed.early high
  have members : ∀ j x, x ∈ s₂.buckets j ↔ j < getIndex s.last now ∧ x ∈ s.buckets j ∨
    x ∈ s.buckets (getIndex s.last now) ∧ now < timeout x ∧ getIndex now (timeout x) = j := by
    intro j x
    by_cases same : j = getIndex s.last now
    · rw [same,drain.done]
      refine ⟨fun gone => absurd gone not_mem_nil,?_⟩
      rintro (⟨below,-⟩ | ⟨inside,later,index⟩)
      · omega
      have above := filed.moved order inside later
      omega
    rw [drain.buckets j same,mem_append,mem_filter,some.above filed range,decide_eq_true_iff]
    refine or_congr_left ?_
    split
    · refine ⟨fun gone => absurd gone not_mem_nil,fun below => ?_⟩
      omega
    · exact ⟨fun inside => ⟨by omega,inside⟩,And.right⟩
  constructor
  case last => exact drain.last
  case members => exact members
  case once =>
    intro j
    by_cases same : j = getIndex s.last now
    · change (s₂.buckets j).Nodup
      rw [same,drain.done]
      exact nodup_nil
    change (s₂.buckets j).Nodup
    rw [drain.buckets j same,some.above filed range]
    refine List.Nodup.append ?_ ((filed.once _).filter _) ?_
    · split
      · exact nodup_nil
      · exact filed.once j
    intro x old new
    split at old
    · exact not_mem_nil old
    · exact filed.ne old (mem_of_mem_filter new) same rfl
  case marks =>
    intro j
    rw [getLsbDAssign bound]
    by_cases same : j = getIndex s.last now
    · simp [same,drain.done]
    rw [if_neg same,drain.marks j same]
    change _ ↔ s₂.buckets j ≠ []
    have old : mid.nonEmptyBuckets.getLsbD j = true ↔ mid.buckets j ≠ [] := by
      rw [some.marks,filed.marks,some.buckets]
      split <;> simp [*]
    rw [drain.buckets j same,old,ne_eq,ne_eq,append_eq_nil_iff,not_and_or]
    refine or_congr_right ?_
    simp [filter_eq_nil_iff]
  case expired =>
    intro x
    change x ∈ s₂.expired ↔ _
    rw [drain.expired,mem_append,mem_filter,some.memExpired filed range,decide_eq_true_iff,filed.active,or_assoc]
    refine or_congr_right ⟨?_,?_⟩
    · rintro (⟨i,above,inside⟩ | ⟨inside,due⟩)
      · exact ⟨⟨i,inside⟩,filed.dueAbove high above inside⟩
      · exact ⟨⟨_,inside⟩,due⟩
    rintro ⟨⟨i,inside⟩,due⟩
    rcases lt_trichotomy i (getIndex s.last now) with below | rfl | above
    · have later := filed.laterBelow high below inside
      omega
    · exact .inr ⟨inside,due⟩
    · exact .inl ⟨i,above,inside⟩
  case expiredOnce =>
    change s₂.expired.Nodup
    rw [drain.expired]
    refine (some.expiredNodup filed nodup).append ((filed.once _).filter _) ?_
    intro x old new
    have inside := mem_of_mem_filter new
    rcases (some.memExpired filed range).mp old with old | ⟨i,above,other⟩
    · exact filed.apart _ x inside old
    · exact filed.ne inside other (by omega) rfl
  case next => exact drain.next
  case nextLow => exact drain.nextLow
  case nextFrom => exact drain.nextFrom

lemma expireCleared (filed : Filed timeout s) (order : s.last ≤ now) (high : now ≤ maxTimestamp) :
    ∃ s', expire timeout s now = some (refreshNext timeout s') ∧ Cleared timeout s s' now := by
  have range : Covers s now (forEachSet s.nonEmptyBuckets (getIndex s.last now + 1)) := fun i => memForEachSet
  have nodup := forEachSetNodup s.nonEmptyBuckets (getIndex s.last now + 1)
  have inside : ∀ i ∈ forEachSet s.nonEmptyBuckets (getIndex s.last now + 1), i < 64 := by
    intro i here
    by_contra above
    have bit := (memForEachSet.mp here).2
    rw [BitVec.getLsbD_of_ge _ i (by omega)] at bit
    exact absurd bit (by decide)
  have some := @spliced T s _ nodup inside
  have list := some.above filed range (getIndex s.last now)
  rw [if_neg (lt_irrefl _)] at list
  obtain ⟨s₂,run,drain⟩ := @drained T timeout
    {(forEachSet s.nonEmptyBuckets (getIndex s.last now + 1)).foldl splice s with last := now, next := maxTimestamp}
    now (getIndex s.last now) (s.buckets (getIndex s.last now)) _ (lt_succ_self _)
    (Int.le_trans filed.early order) list (fun t here => filed.times _ t here)
    (fun t here later => by
      have above := filed.moved order here later
      exact ne_of_gt above)
  refine ⟨_,?_,some.cleared nodup range filed order high drain⟩
  unfold expire
  rw [if_neg (by omega)]
  dsimp only
  rw [list,run]
  rfl

def Least (timeout : T → Int) (s : State T) (n : Int) : Prop :=
  (∀ x, ¬Active s x) ∧ n = maxTimestamp ∨
    (∃ x, Active s x ∧ timeout x = n) ∧ ∀ x, Active s x → n ≤ timeout x

lemma foldMin (p : List T) (n : Int) : p.foldl (fun n t => min n (timeout t)) n ≤ n ∧
      (∀ t ∈ p, p.foldl (fun n t => min n (timeout t)) n ≤ timeout t) ∧
      (p.foldl (fun n t => min n (timeout t)) n = n ∨ ∃ t ∈ p, p.foldl (fun n t => min n (timeout t)) n = timeout t) := by
  induction p generalizing n with
  | nil => exact ⟨Int.le_refl n,by simp,.inl rfl⟩
  | cons u p ih => ?_
  obtain ⟨low,each,some⟩ := ih (min n (timeout u))
  rw [foldl_cons]
  refine ⟨by omega,fun t here => ?_,?_⟩
  · rcases mem_cons.mp here with rfl | here
    · omega
    exact each t here
  rcases some with same | ⟨t,here,same⟩
  · by_cases less : n ≤ timeout u
    · exact .inl (by omega)
    · exact .inr ⟨u,.head _,by omega⟩
  · exact .inr ⟨t,.tail u here,same⟩

lemma refreshFrame : refreshNext timeout s = {s with next := (refreshNext timeout s).next} := by
  unfold refreshNext
  split <;> rfl

variable {j : Nat}

section
variable (clear : Cleared timeout s s' now)
include clear

section
variable (filed : Filed timeout s)
include filed

lemma Cleared.times (inside : x ∈ s'.buckets j) : timeout x ≤ maxTimestamp := by
  rcases (clear.members j x).mp inside with ⟨-,old⟩ | ⟨old,-⟩
  · exact filed.times j x old
  · exact filed.times _ x old

lemma Cleared.later (high : now ≤ maxTimestamp) (inside : x ∈ s'.buckets j) : now < timeout x := by
  rcases (clear.members j x).mp inside with ⟨below,old⟩ | ⟨-,later,-⟩
  · exact filed.laterBelow high below old
  · exact later

lemma Cleared.placed (order : s.last ≤ now) (high : now ≤ maxTimestamp) (inside : x ∈ s'.buckets j) :
    getIndex s'.last (timeout x) = j := by
  rw [clear.last]
  rcases (clear.members j x).mp inside with ⟨below,old⟩ | ⟨-,-,index⟩
  · have index := filed.placed j x old
    rw [getIndexKeep filed.early order high (filed.times j x old) (by omega),index]
  · exact index

lemma Cleared.refresh (order : s.last ≤ now) (high : now ≤ maxTimestamp) : (refreshNext timeout s').next ≤ maxTimestamp ∧
      (∀ j x, x ∈ s'.buckets j → (refreshNext timeout s').next ≤ timeout x) ∧
      ((∃ j x, x ∈ s'.buckets j ∧ timeout x = (refreshNext timeout s').next) ∨
        (∀ j x, x ∉ s'.buckets j) ∧ (refreshNext timeout s').next = maxTimestamp) := by
  have early : 0 ≤ s'.last := by
    have low := filed.early
    have last := clear.last
    omega
  have ordered : ∀ {i j x y}, x ∈ s'.buckets i → y ∈ s'.buckets j → i < j → timeout y < timeout x := by
    intro i j x y first second below
    have indexX := clear.placed filed order high first
    have indexY := clear.placed filed order high second
    exact getIndexOrder early (clear.times filed first) (clear.times filed second) (by omega)
  unfold refreshNext
  split
  next again =>
    obtain ⟨top,some⟩ := again
    have bit := (clear.marks _).mp (getLastSetBit some)
    obtain ⟨low,each,from'⟩ := @foldMin T timeout (s'.buckets (getLastSet s'.nonEmptyBuckets)) s'.next
    obtain ⟨u,head⟩ := exists_mem_of_ne_nil _ bit
    refine ⟨Int.le_trans low clear.next,fun j x inside => ?_,.inl ?_⟩
    · have below := getLastSetAbove ((clear.marks j).mpr (ne_nil_of_mem inside))
      rcases lt_or_eq_of_le below with below | rfl
      · have less := ordered inside head below
        have least := each u head
        exact Int.le_trans least (Int.le_of_lt less)
      · exact each x inside
    rcases from' with same | ⟨t,inside,same⟩
    · refine ⟨_,u,head,?_⟩
      have least := each u head
      have bound := clear.times filed head
      exact Int.le_antisymm (Int.le_trans bound (Int.le_of_eq (top.symm.trans same.symm))) least
    · exact ⟨_,t,inside,same.symm⟩
  rename_i again
  rcases clear.nextFrom with top | ⟨t,inside,later,same⟩
  · have none : s'.nonEmptyBuckets = 0 := by
      by_contra some
      exact again ⟨top,some⟩
    have gone : ∀ j x, x ∉ s'.buckets j := by
      intro j x inside
      have bit := (clear.marks j).mpr (ne_nil_of_mem inside)
      rw [none] at bit
      simp at bit
    exact ⟨clear.next,fun j x inside => absurd inside (gone j x),.inr ⟨gone,top⟩⟩
  have back := (clear.members _ t).mpr (.inr ⟨inside,later,rfl⟩)
  have above := filed.moved order inside later
  refine ⟨clear.next,fun j x left => ?_,.inl ⟨_,t,back,same.symm⟩⟩
  rcases (clear.members j x).mp left with ⟨below,-⟩ | ⟨old,after,-⟩
  · have less := ordered left back (by omega)
    omega
  · exact clear.nextLow x old after

end

lemma Cleared.filed (filed : Filed timeout s) (order : s.last ≤ now)
    (high : now ≤ maxTimestamp) : Filed timeout (refreshNext timeout s') := by
  obtain ⟨nextMax,nextLow,-⟩ := clear.refresh filed order high
  rw [refreshFrame]
  constructor
  case early => exact clear.last ▸ Int.le_trans filed.early order
  case late => exact clear.last ▸ high
  case times => exact fun j x inside => clear.times filed inside
  case placed => exact fun j x inside => clear.placed filed order high inside
  case marks => exact clear.marks
  case once => exact clear.once
  case expiredOnce => exact clear.expiredOnce
  case apart =>
    intro j x inside gone
    rcases (clear.expired x).mp gone with old | ⟨-,due⟩
    · rcases (clear.members j x).mp inside with ⟨-,here⟩ | ⟨here,-⟩ <;> exact filed.apart _ x here old
    have later := clear.later filed high inside
    omega
  case nextMax => exact nextMax
  case nextLow => exact nextLow

end

structure Expires (timeout : T → Int) (s s' : State T) (now : Int) : Prop where
  last : s'.last = now
  active : ∀ x, Active s' x ↔ Active s x ∧ now < timeout x
  expired : ∀ x, x ∈ s'.expired ↔ x ∈ s.expired ∨ Active s x ∧ timeout x ≤ now
  least : Least timeout s' (getNextTimeout s')

lemma Cleared.expires (clear : Cleared timeout s s' now) (filed : Filed timeout s) (order : s.last ≤ now)
    (high : now ≤ maxTimestamp) : Expires timeout s (refreshNext timeout s') now := by
  have filed' := clear.filed filed order high
  obtain ⟨-,nextLow,nextFrom⟩ := clear.refresh filed order high
  have frame := @refreshFrame T timeout s'
  have same : (refreshNext timeout s').buckets = s'.buckets := by rw [frame]
  have last : (refreshNext timeout s').last = now := by
    rw [frame]
    exact clear.last
  have next : getNextTimeout (refreshNext timeout s') = (refreshNext timeout s').next := by
    unfold getNextTimeout
    rcases nextFrom with ⟨j,x,inside,top⟩ | ⟨-,top⟩
    · have later := clear.later filed high inside
      omega
    · omega
  refine ⟨last,fun x => ?_,fun x => ?_,?_⟩
  · rw [filed'.active,filed.active,same]
    constructor
    · rintro ⟨j,inside⟩
      refine ⟨?_,clear.later filed high inside⟩
      rcases (clear.members j x).mp inside with ⟨-,old⟩ | ⟨old,-⟩ <;> exact ⟨_,old⟩
    rintro ⟨⟨i,inside⟩,later⟩
    rcases lt_trichotomy i (getIndex s.last now) with below | rfl | above
    · exact ⟨i,(clear.members i x).mpr (.inl ⟨below,inside⟩)⟩
    · exact ⟨_,(clear.members _ x).mpr (.inr ⟨inside,later,rfl⟩)⟩
    have due := filed.dueAbove high above inside
    omega
  · rw [frame]
    exact clear.expired x
  rw [next]
  unfold Least
  simp only [filed'.active,same]
  rcases nextFrom with ⟨j,x,inside,eq⟩ | ⟨none,top⟩
  · exact .inr ⟨⟨x,⟨j,inside⟩,eq⟩,fun y ⟨i,here⟩ => nextLow i y here⟩
  · exact .inl ⟨fun x ⟨j,inside⟩ => none j x inside,top⟩

lemma expireSpec (filed : Filed timeout s) (order : s.last ≤ now) (high : now ≤ maxTimestamp) :
    ∃ s', expire timeout s now = some s' ∧ Filed timeout s' ∧ Expires timeout s s' now := by
  obtain ⟨s',run,clear⟩ := expireCleared filed order high
  exact ⟨_,run,clear.filed filed order high,clear.expires filed order high⟩

end cleared
section runs
variable [DecidableEq T]

structure Timers (T : Type) where
  set : State T
  timeout : T → Int

inductive Op (T : Type) where
  | insert (timer : T) (timestamp : Int)
  | remove (timer : T)
  | expire (now : Int)
  | popExpired

def step (s : Timers T) : Op T → Option (Timers T)
  | .insert timer timestamp =>
    let timeout := update s.timeout timer timestamp
    some ⟨(insert timeout s.set timer).1,timeout⟩
  | .remove timer => some {s with set := remove s.timeout s.set timer}
  | .expire now => (expire s.timeout s.set now).map fun set => {s with set := set}
  | .popExpired => some {s with set := (popExpired s.set).1}

def InRange (timestamp : Int) : Prop := -2^63 ≤ timestamp ∧ timestamp ≤ maxTimestamp
  deriving Decidable

/-- The preconditions that timer-set.hh states. -/
def Allowed (s : Timers T) : Op T → Prop
  | .insert timer timestamp => ¬Active s.set timer ∧ timer ∉ s.set.expired ∧ InRange timestamp
  | .remove timer => Active s.set timer
  | .expire now => s.set.last ≤ now ∧ InRange now
  | .popExpired => True

def Effect (s s' : Timers T) : Op T → Prop
  | .insert timer timestamp =>
    (∀ x, Active s'.set x ↔ Active s.set x ∨ x = timer) ∧ s'.set.expired = s.set.expired ∧
      s'.timeout = update s.timeout timer timestamp
  | .remove timer =>
    (∀ x, Active s'.set x ↔ Active s.set x ∧ x ≠ timer) ∧ s'.set.expired = s.set.expired ∧
      s'.timeout = s.timeout
  | .expire now => Expires s.timeout s.set s'.set now ∧ s'.timeout = s.timeout
  | .popExpired =>
    (∀ x, Active s'.set x ↔ Active s.set x) ∧ s'.timeout = s.timeout ∧
      s.set.expired = (popExpired s.set).2.toList ++ s'.set.expired

lemma stepEffect {s : Timers T} (filed : Filed s.timeout s.set) (op : Op T) (allowed : Allowed s op) :
    ∃ s', step s op = some s' ∧ Filed s'.timeout s'.set ∧ Effect s s' op := by
  cases op with
  | insert timer timestamp => ?_
  | remove timer => exact ⟨_,rfl,filed.remove allowed,fun x => removeActive filed allowed,rfl,rfl⟩
  | expire now =>
    obtain ⟨set,run,filed',effect⟩ := expireSpec filed allowed.1 allowed.2.2
    refine ⟨{s with set := set},?_,filed',effect,rfl⟩
    change (expire s.timeout s.set now).map _ = _
    rw [run]
    rfl
  | popExpired =>
    refine ⟨_,rfl,?_,fun x => Iff.rfl,rfl,?_⟩
    · exact {filed with
        expiredOnce := filed.expiredOnce.tail
        apart := fun i t inside gone => filed.apart i t inside (mem_of_mem_tail gone)}
    change s.set.expired = s.set.expired.head?.toList ++ s.set.expired.tail
    cases s.set.expired <;> rfl
  obtain ⟨fresh,out,-,high⟩ := allowed
  have filed' : Filed (update s.timeout timer timestamp) s.set := by
    refine filed.congr fun i t inside => update_of_ne ?_ _ _
    rintro rfl
    exact fresh (filed.active.mpr ⟨i,inside⟩)
  have high' : update s.timeout timer timestamp timer ≤ maxTimestamp := by
    rw [update_self]
    exact high
  exact ⟨_,rfl,filed'.insert fresh out high',fun x => insertActive filed' fresh out high', (insertFrame timer).2,rfl⟩

def Start (s : Timers T) : Prop := s.set = make
def Reachable : Timers T → Prop := Runs.Reach step Allowed Start

theorem timersFiled {s : Timers T} (reach : Reachable s) :
    Filed s.timeout s.set ∧ ∀ op, Allowed s op → ∃ s', step s op = some s' ∧ Effect s s' op := by
  have filed : Filed s.timeout s.set := by
    refine @Runs.invariant _ _ _ _ _ (fun s : Timers T => Filed s.timeout s.set) ?_ ?_ s reach
    · intro s first
      change s.set = make at first
      rw [first]
      exact makeFiled
    intro s op s' filed allowed taken
    obtain ⟨next,step,filed',-⟩ := stepEffect filed op allowed
    rw [taken] at step
    exact Option.some.inj step ▸ filed'
  refine ⟨filed,fun op allowed => ?_⟩
  obtain ⟨s',step,-,effect⟩ := stepEffect filed op allowed
  exact ⟨s',step,effect⟩

end runs

instance (s : Timers (Fin 4)) (op : Op (Fin 4)) : Decidable (Allowed s op) := by
  cases op <;> unfold Allowed <;> infer_instance

def sharedRun : List (Op (Fin 4)) := [.insert 0 3,.insert 1 9,.insert 2 12,.insert 3 20,.remove 0]

set_option maxRecDepth 20000

lemma sharedReachable : Reachable (Runs.final step Allowed ⟨make,fun _ => 0⟩ sharedRun) :=
  Runs.reachFinal sharedRun (rfl : Start ⟨make,fun _ => 0⟩) (by decide)

theorem timersFiledShared :
    let s := Runs.final step Allowed ⟨make,fun _ => 0⟩ sharedRun
    s.set.buckets 59 = [1,2] ∧ s.set.next = 3 ∧ ∃ s', step s (.expire 10) = some s' ∧ Expires s.timeout s.set s'.set 10 := by
  obtain ⟨-,effect⟩ := timersFiled sharedReachable
  obtain ⟨s',taken,expires,-⟩ := effect (.expire 10) (by decide)
  exact ⟨by decide,by decide,s',taken,expires⟩

end OsvKernel.TimerSet
