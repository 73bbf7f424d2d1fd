import OsvKernel.LfMutexInv

/-! Every step of lockfree::mutex keeps the invariants, and what they give in every
reachable state: one holder, one popper, every record popped and woken once, no failed
assert, and no waiter that nobody will wake. -/
namespace OsvKernel.LfMutex
open List Function Option Bool Nat

section
variable {T : Type} [Fintype T] [DecidableEq T] {s s' : State T} {t u : T} {q : Pc T}

structure Inv (s : State T) : Prop where
  tokens : Tokens s
  records : Records s
  protocol : Protocol s

def Pc.shape (p : Pc T) : Bool × Bool × List T × List T × Bool := (p.live,p.locking,p.care,p.taken,p.fresh)

variable {p : Pc T} {c : Caller T} {woken : Bool} {w : T} {count : Int}

open State Pc

lemma Records.still (h : Records s) (at_ : s.pc t = p) (pc : s'.pc = update s.pc t q)
    (lists : s'.pushlist = s.pushlist ∧ s'.poplist = s.poplist)
    (same : s'.woken = s.woken ∧ s'.wakes = s.wakes ∧ s'.pops = s.pops) (shape : q.shape = p.shape) : Records s' := by
  simp only [Pc.shape,Prod.mk.injEq,← at_] at shape
  obtain ⟨live,locking,care,taken,fresh⟩ := shape
  exact h.shift pc ⟨same.1,same.2.1⟩ live locking (fun w => by rw [lists.1,lists.2,care,fresh])
    (fun w => by rw [same.2.2,taken])

lemma Inv.quiet (h : Inv s) (at_ : s.pc t = p) (token : q.carries (s.woken t) = p.carries (s.woken t))
    (weight : q.weight = p.weight) (owns : q.owns = p.owns) (shape : q.shape = p.shape)
    (here : Knows s t q)
    (helper : s.handoff ≠ 0 → s.pushlist ≠ [] ∨ s.poplist ≠ [] → q.checks s.handoff = true ∨ p.checks s.handoff = false) :
    Inv (s.goto t q) where
  tokens := h.tokens.shift at_ rfl (fun _ _ => rfl) (flagsSame rfl rfl) token (by rw [weight]; rfl) owns rfl
  records := h.records.still at_ rfl ⟨rfl,rfl⟩ ⟨rfl,rfl,rfl⟩ shape
  protocol := h.protocol.keep rfl ⟨rfl,rfl,rfl⟩ id (fun _ _ => rfl) here fun published full => by
    rw [at_]
    exact (helper published full).imp id fun idle => ⟨rfl,idle⟩

lemma Inv.adjust (h : Inv s) (at_ : s.pc t = p) {owner : Option T} {depth : BitVec 32}
    (tokens : Tokens {s.goto t q with count := count,owner := owner,depth := depth}) (shape : q.shape = p.shape)
    (here : Knows {s.goto t q with count := count,owner := owner,depth := depth} t q) (idle : p.checks s.handoff = false) :
    Inv {s.goto t q with count := count,owner := owner,depth := depth} where
  tokens := tokens
  records := h.records.still at_ rfl ⟨rfl,rfl⟩ ⟨rfl,rfl,rfl⟩ shape
  protocol := h.protocol.keep rfl ⟨rfl,rfl,rfl⟩ id (fun _ _ => rfl) here fun _ _ => .inr ⟨rfl,by rw [at_]; exact idle⟩

lemma Inv.knowsAt (h : Inv s) (at_ : s.pc t = p) : Knows s t p := at_ ▸ h.protocol.knows t

section
variable (h : Inv s)
include h

variable {c : Caller T} {old : Option T} {seen : Nat} {other : T} {nested : Bool}

lemma pushLoadInv (at_ : s.pc t = .pushLoad c) (old : Option T) : Inv (s.goto t (.pushCas c old)) := by
  have knows := h.knowsAt at_
  exact h.quiet at_ rfl rfl rfl rfl knows fun _ _ => .inr rfl

lemma pushRetryInv (at_ : s.pc t = .pushCas c old) (head : Option T) : Inv (s.goto t (.pushCas c head)) := by
  have knows := h.knowsAt at_
  exact h.quiet at_ rfl rfl rfl rfl knows fun _ _ => .inr rfl

omit h in
lemma leaveLike (c : Caller T) (woken : Bool) : c.leave.carries woken = c.granted woken ∧ c.leave.weight = c.weight ∧
    c.leave.owns = (loadHandoff c).owns ∧ c.leave.shape = (loadHandoff c).shape := by
  cases c with
  | send record nested => cases nested <;> exact ⟨rfl,rfl,rfl,rfl⟩
  | _ => exact ⟨rfl,rfl,rfl,rfl⟩

omit h in
lemma leaveKnows (s : State T) (t : T) (c : Caller T) : Knows s t c.leave := by
  cases c with
  | send record nested => cases nested <;> trivial
  | _ => trivial

lemma loadHandoffInv (at_ : s.pc t = .loadHandoff c) :
    Inv (s.goto t (if s.handoff = 0 then c.leave else .emptyPop c s.handoff)) := by
  obtain ⟨token,weight,owns,shape⟩ := leaveLike c (s.woken t)
  split
  next zero => exact h.quiet at_ token weight owns shape (leaveKnows s t c) fun published => absurd zero published
  next published =>
    exact h.quiet at_ rfl rfl rfl rfl ⟨published,h.protocol.sequence⟩ fun _ _ => .inl (by simp [checks])

lemma emptyPopInv (at_ : s.pc t = .emptyPop c seen) :
    Inv (s.goto t (if s.poplist = [] then .emptyPush c seen else .casHandoff c seen)) := by
  have knows := h.knowsAt at_
  split
  next empty =>
    exact h.quiet at_ rfl rfl rfl rfl ⟨knows,fun _ => empty⟩ fun _ _ =>
      (eq_false_or_eq_true _)
  rename_i full
  exact h.quiet at_ rfl rfl rfl rfl ⟨knows,fun _ => .inr full⟩ fun _ _ =>
    (eq_false_or_eq_true _)

lemma emptyPushInv (at_ : s.pc t = .emptyPush c seen) :
    Inv (s.goto t (if s.pushlist = [] then c.leave else .casHandoff c seen)) := by
  obtain ⟨token,weight,owns,shape⟩ := leaveLike c (s.woken t)
  have knows := h.knowsAt at_
  split
  next empty =>
    refine h.quiet at_ token weight owns shape (leaveKnows s t c) fun _ full => ?_
    -- the queue is empty if the handoff is still the one this thread saw
    rcases same : (emptyPush c seen).checks s.handoff with _ | _
    · exact .inr rfl
    have current : seen = s.handoff := by simpa [checks] using same
    exact absurd (knows.2 current.symm) (by simpa [empty] using full)
  next full => exact h.quiet at_ rfl rfl rfl rfl ⟨knows.1,fun _ => .inl full⟩ fun _ _ => eq_false_or_eq_true _

lemma pushInv (at_ : s.pc t = .pushCas c old) :
    Inv {s.goto t (.loadHandoff c) with pushlist := c.item t::s.pushlist} := by
  have knows := h.knowsAt at_
  refine ⟨?_,?_,?_⟩
  · exact h.tokens.shift at_ rfl (fun _ _ => rfl) (flagsSame rfl rfl) rfl rfl rfl rfl
  · refine h.records.shift rfl ⟨rfl,rfl⟩ (by rw [at_]; rfl) (by rw [at_]; rfl) (fun w => ?_) (fun w => by rw [at_]; rfl)
    rw [at_]
    cases c
    case send record nested =>
      simp only [goto,Caller.item,care,fresh,Caller.unsent,Caller.isLock,count_cons,count_nil,toNat_false]
      omega
    case unlock => exact absurd rfl knows
    by_cases same : w = t
    · subst same
      simp [goto,Caller.item,care,fresh,Caller.unsent,Caller.isLock]
      omega
    · simp [goto,Caller.item,care,Caller.unsent,same,count_cons_of_ne (Ne.symm same)]
  · exact h.protocol.keep rfl ⟨rfl,rfl,rfl⟩ (fun _ => cons_ne_nil _ _) (fun _ _ => rfl) knows fun _ _ => .inl rfl

lemma casTakeInv (at_ : s.pc t = .casHandoff c s.handoff) :
    Inv {s.goto t (.popTest c) with handoff := 0} := by
  have knows := h.knowsAt at_
  obtain ⟨⟨published,_⟩,full⟩ := knows
  have none := h.tokens.out published
  have empty : c.granted (s.woken t) = 0 := by
    have zero := none t
    rw [at_] at zero
    exact zero
  have single : c.nests = 0 ∧ (c = .lock → s.woken t = false) := by
    cases c with
    | lock => exact ⟨rfl,fun _ => by simpa [Caller.granted] using empty⟩
    | send record nested => exact ⟨empty,nofun⟩
    | unlock => exact ⟨rfl,nofun⟩
  refine ⟨?_,h.records.still at_ rfl ⟨rfl,rfl⟩ ⟨rfl,rfl,rfl⟩ rfl,?_⟩
  · refine h.tokens.shift at_ rfl (fun _ _ => rfl) (flagsTaken published rfl rfl) ?_ rfl rfl rfl
    rw [← at_,none t]
    simp only [carries,single.1]
  · exact h.protocol.away rfl (fun u _ => none u) (le_refl _) (.inl rfl) ⟨single.2,fun _ => full rfl⟩

lemma casMissInv (at_ : s.pc t = .casHandoff c seen) (other : s.handoff ≠ seen) : Inv (s.goto t c.leave) := by
  obtain ⟨token,weight,owns,shape⟩ := leaveLike c (s.woken t)
  exact h.quiet at_ token weight owns shape (leaveKnows s t c) fun _ _ =>
    .inr (by simpa [checks] using fun same => other same.symm)

lemma Inv.alone (at_ : s.pc t = p) (carries : 0 < p.carries (s.woken t)) :
    s.handoff = 0 ∧ ∀ u, u ≠ t → (s.pc u).carries (s.woken u) = 0 := by
  rw [← at_] at carries
  refine ⟨(h.tokens.carrier carries).2.1,fun u off => ?_⟩
  by_contra some
  exact off (h.tokens.unique (pos_of_ne_zero some) carries)

omit h in
lemma popCarries {n : Nat} {woken : Bool} (eq : p.carries woken = 1 + n) : 0 < p.carries woken := by omega

lemma popTestInv (at_ : s.pc t = .popTest c) : Inv (s.goto t (if s.poplist = [] then .popExchange c else .popTake c)) := by
  have knows := h.knowsAt at_
  have zero := (h.alone at_ (popCarries rfl)).1
  split
  next empty =>
    exact h.quiet at_ rfl rfl rfl rfl ⟨knows.1,empty,fun caller => (knows.2 caller).resolve_right (· empty)⟩
      fun published => absurd zero published
  next full => exact h.quiet at_ rfl rfl rfl rfl ⟨knows.1,full⟩ fun published => absurd zero published

omit h in
lemma takeInv (h : Inv s) {p : Pc T} {c : Caller T} {record : T} {rest : List T} (at_ : s.pc t = p)
    (like : p = .popTake c ∧ s.poplist = record::rest ∨ p = .popReverse c [record] ∧ s.poplist = rest) :
    Inv {s.take t c record with poplist := rest} := by
  have knows := h.protocol.knows t
  have carries : p.carries (s.woken t) = 1 + c.nests := by rcases like with ⟨rfl,_⟩ | ⟨rfl,_⟩ <;> rfl
  have weight : p.weight = c.weight := by rcases like with ⟨rfl,_⟩ | ⟨rfl,_⟩ <;> rfl
  have owns : (popped c (some record)).owns = p.owns := by rcases like with ⟨rfl,_⟩ | ⟨rfl,_⟩ <;> rfl
  have kind : (popped c (some record)).live = p.live ∧ (popped c (some record)).locking = p.locking ∧
      p.taken = [] ∧ p.fresh = false := by rcases like with ⟨rfl,_⟩ | ⟨rfl,_⟩ <;> exact ⟨rfl,rfl,rfl,rfl⟩
  have asleep : c = .lock → s.woken t = false := by
    rw [at_] at knows
    rcases like with ⟨rfl,_⟩ | ⟨rfl,_⟩ <;> exact knows.1
  have lists : ∀ w, rest.count w + [record].count w = s.poplist.count w + p.care.count w := by
    intro w
    rcases like with ⟨rfl,eq⟩ | ⟨rfl,eq⟩
    · rw [eq,count_cons]
      simp [care,count_cons]
    rw [eq]
    rfl
  refine ⟨?_,?_,?_⟩
  · exact h.tokens.shift at_ rfl (fun _ _ => rfl) (flagsSame rfl rfl) carries.symm (by rw [weight]; rfl) owns rfl
  · refine h.records.shift rfl ⟨rfl,rfl⟩ (by rw [at_]; exact kind.1) (by rw [at_]; exact kind.2.1) (fun w => ?_) (fun w => ?_)
    · have moved := lists w
      rw [at_,kind.2.2.2]
      simp only [State.take,care,fresh,toList] at moved ⊢
      omega
    · rw [at_,kind.2.2.1]
      by_cases same : w = record
      · subst same
        simp [State.take,taken]
      · simp [State.take,taken,update_of_ne same,Ne.symm same]
  obtain ⟨zero,none⟩ := h.alone at_ (popCarries carries)
  exact h.protocol.away rfl none (le_refl _) (.inl zero) ⟨asleep,fun _ bad => by cases bad⟩

lemma popExchangeInv (at_ : s.pc t = .popExchange c) :
    Inv {s.goto t (.popReverse c s.pushlist) with pushlist := []} ∨ s.pushlist = [] := by
  have knows := h.knowsAt at_
  obtain ⟨zero,none⟩ := h.alone at_ (popCarries rfl)
  by_cases empty : s.pushlist = []
  · exact .inr empty
  refine .inl ⟨?_,?_,?_⟩
  · exact h.tokens.shift at_ rfl (fun _ _ => rfl) (flagsSame rfl rfl) rfl rfl rfl rfl
  · refine h.records.shift rfl ⟨rfl,rfl⟩ (by rw [at_]; rfl) (by rw [at_]; rfl) (fun w => ?_) (fun w => by rw [at_]; rfl)
    rw [at_]
    simp only [goto,care,fresh,count_nil]
    omega
  · exact h.protocol.away rfl none (le_refl _) (.inl zero) ⟨knows.1,empty⟩

lemma popNothingInv (at_ : s.pc t = .popExchange c) (empty : s.pushlist = []) : Inv (s.goto t (.popped c none)) := by
  have knows := h.knowsAt at_
  have zero := (h.alone at_ (popCarries rfl)).1
  exact h.quiet at_ rfl rfl rfl rfl ⟨knows.1,fun caller => absurd empty (knows.2.2 caller)⟩
    fun published => absurd zero published

lemma popReverseInv {record next : T} {r : List T} (at_ : s.pc t = .popReverse c (record::next::r)) :
    Inv {s.goto t (.popReverse c (next::r)) with poplist := record::s.poplist} := by
  have knows := h.knowsAt at_
  obtain ⟨zero,none⟩ := h.alone at_ (popCarries rfl)
  refine ⟨?_,?_,?_⟩
  · exact h.tokens.shift at_ rfl (fun _ _ => rfl) (flagsSame rfl rfl) rfl rfl rfl rfl
  · refine h.records.shift rfl ⟨rfl,rfl⟩ (by rw [at_]; rfl) (by rw [at_]; rfl) (fun w => ?_) (fun w => by rw [at_]; rfl)
    rw [at_]
    simp only [goto,care,fresh,count_cons]
    omega
  · exact h.protocol.away rfl none (le_refl _) (.inl zero) ⟨knows.1,cons_ne_nil _ _⟩

lemma retryInv (at_ : s.pc t = .popped .unlock none) : Inv (s.goto t .publish) := by
  have zero := (h.alone at_ (popCarries rfl)).1
  exact h.quiet at_ rfl rfl rfl rfl trivial fun published => absurd zero published

lemma toWakeInv (at_ : s.pc t = .popped c (some other)) (ne : other ≠ t) : Inv (s.goto t (.wake c other)) := by
  have knows := h.knowsAt at_
  have zero := (h.alone at_ (popCarries rfl)).1
  exact h.quiet at_ rfl rfl rfl rfl ⟨knows.1,ne⟩ fun published => absurd zero published

lemma Inv.foreign (at_ : s.pc t = .popped c (some other)) (caller : c ≠ .lock) : other ≠ t := by
  rintro rfl
  have lives := (h.records.live (show other ∈ (s.pc other).care by rw [at_]; simp [care])).1
  rw [at_] at lives
  cases c with
  | lock => exact caller rfl
  | _ => cases lives

lemma selfPopInv (at_ : s.pc t = .popped .lock (some t)) : Inv (s.goto t .storeOwner) where
  tokens := h.tokens.shift at_ rfl (fun _ _ => rfl) (flagsSame rfl rfl) rfl rfl rfl rfl
  records := by
    refine h.records.resume rfl ⟨rfl,rfl⟩ rfl ⟨rfl,rfl⟩ ⟨by rw [at_]; rfl,?_⟩ (fun w off => ?_) ⟨rfl,rfl,rfl,rfl⟩
    · rw [at_]
      simp [care]
    rw [at_]
    simp [care,Ne.symm off]
  protocol := h.protocol.keep rfl ⟨rfl,rfl,rfl⟩ id (fun _ _ => rfl) trivial fun _ _ => .inr ⟨rfl,by rw [at_]; rfl⟩

lemma wakeInv (at_ : s.pc t = .wake c other) : Inv {s.goto t c.leave with
      woken := update s.woken other true
      wakes := update s.wakes other (s.wakes other + 1)} := by
  have knows := h.knowsAt at_
  obtain ⟨zero,none⟩ := h.alone at_ (popCarries rfl)
  refine ⟨?_,?_,?_⟩
  · exact h.tokens.wake h.records at_ knows.2 knows.1 rfl rfl ⟨rfl,rfl,rfl⟩
  · exact h.records.wake at_ knows.2 rfl ⟨rfl,rfl⟩ ⟨rfl,rfl⟩ rfl
  · exact h.protocol.away rfl none (le_refl _) (.inl zero) (leaveKnows _ t c)

lemma resumeInv (at_ : s.pc t = p) (waits : p = .lockWait ∨ p = .sent) (woken : s.woken t = true) :
    Inv (s.goto t .storeOwner) where
  tokens := by
    refine h.tokens.shift at_ rfl (fun _ _ => rfl) (flagsSame rfl rfl) ?_ ?_ ?_ rfl
    · rw [woken]
      rcases waits with rfl | rfl <;> rfl
    · rcases waits with rfl | rfl <;> rfl
    · rcases waits with rfl | rfl <;> rfl
  records := by
    refine h.records.resume rfl ⟨rfl,rfl⟩ rfl ⟨rfl,rfl⟩ ⟨?_,by rw [woken]; exact succ_pos _⟩ (fun w _ => ?_)
      ⟨rfl,rfl,rfl,rfl⟩
    · rw [at_]
      rcases waits with rfl | rfl <;> rfl
    rw [at_]
    rcases waits with rfl | rfl <;> rfl
  protocol := h.protocol.keep rfl ⟨rfl,rfl,rfl⟩ id (fun _ _ => rfl) trivial fun _ _ => .inr ⟨rfl,by
    rw [at_]
    rcases waits with rfl | rfl <;> rfl⟩

omit h in
lemma callerCarries (eq : p.caller = some c) (woken : Bool) :
    p.carries woken = c.granted woken ∨ p.carries woken = 1 + c.nests := by
  cases p <;> cases eq <;> first | exact .inl rfl | exact .inr rfl

omit h in
lemma ownsCarries (owns : p.owns = true) (woken : Bool) : 0 < p.carries woken := by
  unfold Pc.owns at owns
  split at owns
  case h_2 nested | h_6 nested => subst owns; exact one_pos
  case h_7 =>
    split at owns <;> try cases owns
    rename_i caller
    rcases callerCarries caller woken with eq | eq <;> rw [eq]
    · exact one_pos
    · omega
  all_goals exact one_pos

lemma Inv.ownerHere (at_ : s.pc t = p) (carries : 0 < p.carries (s.woken t)) (owned : s.owner = some u) : u = t := by
  have owns := (h.tokens.owner u).mp owned
  rw [← at_] at carries
  exact h.tokens.unique (ownsCarries owns _) carries

lemma Inv.ownerIs (at_ : s.pc t = p) (owns : p.owns = true) : s.owner = some t := by
  rw [h.tokens.owner t,at_]
  exact owns

lemma Inv.others (at_ : s.pc t = p) (owns : p.owns = true) (off : u ≠ t) : s.owner ≠ some u := by
  rw [h.ownerIs at_ owns]
  intro same
  exact off (some.inj same).symm

lemma Inv.counted (at_ : s.pc t = p) : (p.weight : Int) ≤ s.count := by
  rw [← at_]
  exact h.tokens.weightLe t

lemma Inv.countNonneg : 0 ≤ s.count := by
  rw [h.tokens.count]
  exact Int.natCast_nonneg _

omit h in
lemma Inv.recount (h : Inv s) (at_ : s.pc t = p) {gain loss : Nat}
    (flags : Flags s {s.goto t q with count := count} gain loss)
    (token : q.carries (s.woken t) + gain = p.carries (s.woken t) + loss) (weight : count + p.weight = s.count + q.weight)
    (owns : q.owns = p.owns) (shape : q.shape = p.shape)
    (here : Knows {s.goto t q with count := count} t q) (idle : p.checks s.handoff = false) :
    Inv {s.goto t q with count := count} :=
  h.adjust at_ (h.tokens.shift at_ rfl (fun _ _ => rfl) flags token weight owns rfl) shape here idle

lemma Inv.redepth (at_ : s.pc t = p) (owns : p.owns = true) {depth : BitVec 32} (kept : q.owns = true)
    (flags : Flags s {s.goto t q with count := count,depth := depth} 0 0)
    (token : q.carries (s.woken t) = p.carries (s.woken t)) (weight : count + p.weight = s.count + q.weight)
    (shape : q.shape = p.shape)
    (here : Knows {s.goto t q with count := count,depth := depth} t q) (idle : p.checks s.handoff = false) :
    Inv {s.goto t q with count := count,depth := depth} :=
  h.adjust at_ (h.tokens.move rfl (fun _ _ => rfl) flags (by rw [at_]; exact token) (by rw [at_]; exact weight)
    ⟨fun _ => kept,fun _ => h.ownerIs at_ owns⟩ (fun _ _ => Iff.rfl)) shape here idle

lemma storeOwnerInv (at_ : s.pc t = .storeOwner) : Inv {s.goto t .held with owner := some t, depth := 1} := by
  have nobody : ∀ u, s.owner ≠ some u := by
    intro u owned
    have same := h.ownerHere at_ one_pos owned
    rw [same,h.tokens.owner t,at_] at owned
    cases owned
  refine h.adjust at_ ?_ rfl trivial rfl
  refine h.tokens.move rfl (fun _ _ => rfl) (flagsSame rfl rfl) (by rw [at_]; rfl) (by rw [at_]; rfl)
    ⟨fun _ => rfl,fun _ => rfl⟩ (fun u off => ?_)
  exact ⟨fun same => absurd (some.inj same).symm off,fun owned => absurd owned (nobody u)⟩

lemma recursiveInv (at_ : s.pc t = .lockOwner nested) (owned : s.owner = some t) : Inv (s.goto t .lockUncount) := by
  have owns := (h.tokens.owner t).mp owned
  rw [at_] at owns
  cases nested with
  | false => cases owns
  | true => exact h.quiet at_ rfl rfl rfl rfl trivial fun _ _ => .inr rfl

lemma newRecordInv (at_ : s.pc t = .lockOwner nested) (owned : s.owner ≠ some t) :
    Inv ((s.newRecord t).goto t (.pushLoad .lock)) := by
  cases nested
  case true => exact absurd (h.ownerIs at_ rfl) owned
  refine ⟨?_,?_,?_⟩
  · refine h.tokens.shift at_ rfl (fun u off => update_of_ne off _ _) (flagsSame rfl rfl) ?_ rfl rfl rfl
    simp [goto,newRecord,carries,caller,Caller.granted]
  · exact h.records.renew rfl ⟨rfl,rfl⟩ ⟨rfl,rfl,rfl⟩ ⟨by rw [at_]; rfl,by rw [at_]; rfl⟩ ⟨rfl,rfl,rfl⟩
  exact h.protocol.keep rfl ⟨rfl,rfl,rfl⟩ id (fun u off => update_of_ne off _ _) fun bad => by cases bad
    fun _ _ => .inr ⟨rfl,by rw [at_]; rfl⟩

lemma lockUncountInv (at_ : s.pc t = .lockUncount) :
    Inv {s.goto t .held with count := s.count - 1, depth := s.depth + 1} := by
  have two : (2 : Int) ≤ s.count := h.counted at_
  exact h.redepth at_ rfl rfl (flagsBusy rfl (by omega) (show s.count - 1 ≠ 0 by omega)) rfl
    (show s.count - 1 + 2 = s.count + 1 by omega) rfl trivial rfl

lemma unlockInv (at_ : s.pc t = .held) : Inv (s.goto t .unlockDepth) :=
  h.quiet at_ rfl rfl rfl rfl trivial fun _ _ => .inr rfl

lemma unlockDepthInv (at_ : s.pc t = .unlockDepth) :
    Inv {s.goto t (if s.depth - 1 = 0 then .unlockOwner else .held) with depth := s.depth - 1} := by
  split <;> exact h.redepth at_ rfl rfl (flagsSame rfl rfl) rfl rfl rfl trivial rfl

lemma unlockOwnerInv (at_ : s.pc t = .unlockOwner) : Inv {s.goto t .unlockCount with owner := none} :=
  h.adjust at_ (h.tokens.move rfl (fun _ _ => rfl) (flagsSame rfl rfl) (by rw [at_]; rfl) (by rw [at_]; rfl)
    ⟨nofun,nofun⟩ (fun _ off => ⟨nofun,fun owned => absurd owned (h.others at_ rfl off)⟩))
    rfl trivial rfl

lemma unlockCountInv (at_ : s.pc t = .unlockCount) :
    Inv {s.goto t (if s.count = 1 then .idle else .popTest .unlock) with count := s.count - 1} := by
  have one : (1 : Int) ≤ s.count := h.counted at_
  obtain ⟨zero,none⟩ := h.alone at_ one_pos
  split
  next last =>
    exact {
      tokens := h.tokens.shift at_ rfl (fun _ _ => rfl) (flagsFreed rfl (by omega) (show s.count - 1 = 0 by omega)) rfl
        (show s.count - 1 + 1 = s.count + 0 by omega) rfl rfl
      records := h.records.still at_ rfl ⟨rfl,rfl⟩ ⟨rfl,rfl,rfl⟩ rfl
      protocol := h.protocol.away rfl none (le_refl _) (.inl zero) trivial }
  rename_i more
  exact {
    tokens := h.tokens.shift at_ rfl (fun _ _ => rfl) (flagsBusy rfl (by omega) (show s.count - 1 ≠ 0 by omega)) rfl
      (show s.count - 1 + 1 = s.count + 0 by omega) rfl rfl
    records := h.records.still at_ rfl ⟨rfl,rfl⟩ ⟨rfl,rfl,rfl⟩ rfl
    protocol := h.protocol.away rfl none (le_refl _) (.inl zero) ⟨nofun,fun caller => absurd rfl caller⟩ }

lemma publishInv (at_ : s.pc t = .publish) : Inv {s.goto t (.emptyPop .unlock (s.sequence + 1)) with
      sequence := s.sequence + 1
      handoff := s.sequence + 1} := by
  obtain ⟨zero,none⟩ := h.alone at_ one_pos
  exact {
    tokens := h.tokens.shift at_ rfl (fun _ _ => rfl) (flagsPublished zero (succ_ne_zero _) rfl) rfl rfl rfl rfl
    records := h.records.still at_ rfl ⟨rfl,rfl⟩ ⟨rfl,rfl,rfl⟩ rfl
    protocol := h.protocol.away rfl none (le_succ _) (.inr ⟨rfl,le_refl _,by simp [checks]⟩)
      ⟨succ_ne_zero _,le_refl _⟩ }

lemma tryRecursiveInv (at_ : s.pc t = .tryOwner nested) (owned : s.owner = some t) :
    Inv {s.goto t .held with depth := s.depth + 1} := by
  have owns := (h.tokens.owner t).mp owned
  rw [at_] at owns
  cases nested with
  | false => cases owns
  | true => exact h.redepth at_ rfl rfl (flagsSame rfl rfl) rfl rfl rfl trivial rfl

lemma tryForeignInv (at_ : s.pc t = .tryOwner nested) (owned : s.owner ≠ some t) : Inv (s.goto t .tryHandoff) := by
  cases nested with
  | true => exact absurd (h.ownerIs at_ rfl) owned
  | false => exact h.quiet at_ rfl rfl rfl rfl trivial fun _ _ => .inr rfl

lemma tryHandoffInv (at_ : s.pc t = .tryHandoff) :
    Inv (s.goto t (if s.handoff = 0 then .idle else .tryCas s.handoff)) := by
  split
  · exact h.quiet at_ rfl rfl rfl rfl trivial fun _ _ => .inr rfl
  next published => exact h.quiet at_ rfl rfl rfl rfl ⟨published,h.protocol.sequence⟩ fun _ _ => .inr rfl

lemma tryTakeInv (at_ : s.pc t = .tryCas s.handoff) : Inv {s.goto t .tryCount with handoff := 0} := by
  have knows := h.knowsAt at_
  have none := h.tokens.out knows.1
  exact {
    tokens := h.tokens.shift at_ rfl (fun _ _ => rfl) (flagsTaken knows.1 rfl rfl) rfl rfl rfl rfl
    records := h.records.still at_ rfl ⟨rfl,rfl⟩ ⟨rfl,rfl,rfl⟩ rfl
    protocol := h.protocol.away rfl (fun u _ => none u) (le_refl _) (.inl rfl) trivial }

lemma tryMissInv (at_ : s.pc t = .tryCas seen) : Inv (s.goto t .idle) :=
  h.quiet at_ rfl rfl rfl rfl trivial fun _ _ => .inr rfl

lemma tryCountInv (at_ : s.pc t = .tryCount) : Inv {s.goto t .storeOwner with count := s.count + 1} := by
  have carries : 0 < (s.pc t).carries (s.woken t) := by rw [at_]; exact one_pos
  have busy := (h.tokens.carrier carries).2.2
  have nonneg := h.countNonneg
  exact h.recount at_ (flagsBusy rfl busy (show s.count + 1 ≠ 0 by omega)) rfl
    (show s.count + 1 + 0 = s.count + 1 by omega) rfl rfl trivial rfl

end

def Outside (nested : Bool) (p : Pc T) : Prop := p = if nested then .held else .idle

lemma outsideIs {nested : Bool} (eq : outside p = some nested) : Outside nested p := by
  cases p <;> simp only [outside,reduceCtorEq,some.injEq] at eq <;> subst eq <;> rfl

section
variable (h : Inv s) {nested : Bool}
include h

section
variable (at_ : Outside nested (s.pc t))
include at_

lemma Inv.freeOutside (free : s.count = 0) : nested = false := by
  rcases nested with _ | _
  · rfl
  have none := (h.tokens.idle free t).1
  rw [at_] at none
  cases none

lemma acquireInv (free : s.count = 0) :
    Inv {s.goto t .storeOwner with count := s.count + 1} := by
  cases h.freeOutside at_ free
  have at_ := at_
  exact h.recount at_ (flagsAcquired rfl free (show s.count + 1 ≠ 0 by omega)) rfl
    (show s.count + 1 + 0 = s.count + 1 by omega) rfl rfl trivial rfl

lemma contendInv (busy : s.count ≠ 0) :
    Inv {s.goto t (.lockOwner nested) with count := s.count + 1} := by
  have nonneg := h.countNonneg
  have flags : Flags s {s.goto t (.lockOwner nested) with count := s.count + 1} 0 0 :=
    flagsBusy rfl busy (show s.count + 1 ≠ 0 by omega)
  rcases nested with _ | _
  · have at_ := at_
    exact h.recount at_ flags rfl (show s.count + 1 + 0 = s.count + 1 by omega) rfl rfl trivial rfl
  have at_ := at_
  exact h.recount at_ flags rfl (show s.count + 1 + 1 = s.count + 2 by omega) rfl rfl trivial rfl

lemma tryContendInv : Inv (s.goto t (.tryOwner nested)) := by
  rcases nested with _ | _
  · have at_ := at_
    exact h.quiet at_ rfl rfl rfl rfl trivial fun _ _ => .inr rfl
  have at_ := at_
  exact h.quiet at_ rfl rfl rfl rfl trivial fun _ _ => .inr rfl

end

lemma parkInv (at_ : s.pc t = .idle) : Inv ((s.newRecord t).goto t .parked) where
  tokens := h.tokens.shift at_ rfl (fun u off => update_of_ne off _ _) (flagsSame rfl rfl) rfl rfl rfl rfl
  records := h.records.renew rfl ⟨rfl,rfl⟩ ⟨rfl,rfl,rfl⟩ ⟨by rw [at_]; rfl,by rw [at_]; rfl⟩ ⟨rfl,rfl,rfl⟩
  protocol := h.protocol.keep rfl ⟨rfl,rfl,rfl⟩ id (fun u off => update_of_ne off _ _) trivial
    fun _ _ => .inr ⟨rfl,by rw [at_]; rfl⟩

lemma Inv.asleep (at_ : s.pc t = p) (fresh : p.fresh = true) (live : p.live = true) : s.woken t = false := by
  have places := h.records.places t
  rw [at_,fresh,live] at places
  rcases woken : s.woken t with _ | _
  · rfl
  rw [woken] at places
  simp only [Bool.and_self,Bool.toNat_true] at places
  omega

lemma sendLockInv {record : T} (at_ : Outside nested (s.pc t)) (parked : s.pc record = .parked) :
    Inv {(s.goto record .sent).goto t
        (if s.count = 0 then .wake (.send record nested) record else .pushLoad (.send record nested)) with
      count := s.count + 1} := by
  have ne : t ≠ record := by
    rintro rfl
    rw [parked] at at_
    cases nested <;> cases at_
  have asleep := h.asleep parked rfl rfl
  have nonneg := h.countNonneg
  have still : (s.pc t).live = false ∧ (s.pc t).care = [] ∧ (s.pc t).fresh = false ∧
      (s.pc t).checks s.handoff = false := by
    rw [at_]
    cases nested <;> exact ⟨rfl,rfl,rfl,rfl⟩
  have shares : (s.pc t).weight = nested.toNat ∧ (s.pc t).owns = nested ∧ (s.pc t).carries (s.woken t) = nested.toNat := by
    rw [at_]
    cases nested <;> exact ⟨rfl,rfl,rfl⟩
  have first : Protocol (s.goto record .sent) := h.protocol.keep rfl ⟨rfl,rfl,rfl⟩ id (fun _ _ => rfl) trivial
    fun _ _ => .inr ⟨rfl,by rw [parked]; rfl⟩
  have idle : ((s.goto record .sent).pc t).checks s.handoff = false := by
    have elsewhere : (s.goto record .sent).pc t = s.pc t := update_of_ne ne _ _
    rw [elsewhere]
    exact still.2.2.2
  split
  next free =>
    cases h.freeOutside at_ free
    exact {
      tokens := h.tokens.send parked asleep ne rfl rfl rfl rfl shares.1.symm shares.2.1.symm
        (flagsAcquired rfl free (show s.count + 1 ≠ 0 by omega)) (by rw [shares.2.2]; rfl)
      records := h.records.send parked ne rfl ⟨rfl,rfl,rfl,rfl,rfl⟩ ⟨still.1,still.2.1,still.2.2.1⟩ ⟨rfl,rfl,rfl,rfl⟩
      protocol := first.keep rfl ⟨rfl,rfl,rfl⟩ id (fun _ _ => rfl) ⟨nofun,ne.symm⟩ fun _ _ => .inr ⟨rfl,idle⟩ }
  next busy =>
    exact {
      tokens := h.tokens.send parked asleep ne rfl rfl rfl rfl shares.1.symm shares.2.1.symm
        (flagsBusy rfl busy (show s.count + 1 ≠ 0 by omega)) (by rw [shares.2.2]; rfl)
      records := h.records.send parked ne rfl ⟨rfl,rfl,rfl,rfl,rfl⟩ ⟨still.1,still.2.1,still.2.2.1⟩ ⟨rfl,rfl,rfl,rfl⟩
      protocol := first.keep rfl ⟨rfl,rfl,rfl⟩ id (fun _ _ => rfl) nofun fun _ _ => .inr ⟨rfl,idle⟩ }

lemma poppedInv {c : Caller T} {other : Option T} (at_ : s.pc t = .popped c other) (taken : run s t = some s') :
    Inv s' := by
  rcases other with _ | other
  · cases c
    case lock | send record nested => simp [run,at_] at taken
    simp only [run,at_,some.injEq] at taken
    exact taken ▸ retryInv h at_
  cases c
  case unlock =>
    simp only [run,at_,some.injEq] at taken
    exact taken ▸ toWakeInv h at_ (h.foreign at_ nofun)
  case send record nested =>
    simp only [run,at_,some.injEq] at taken
    exact taken ▸ toWakeInv h at_ (h.foreign at_ nofun)
  have asleep := (h.records.live (show other ∈ (s.pc t).care by rw [at_]; simp [care])).2.1
  simp only [run,at_,thread,asleep,some.injEq] at taken
  by_cases same : other = t
  · subst same
    rw [if_pos (by simp)] at taken
    exact taken ▸ selfPopInv h at_
  rw [if_neg (by simpa using same)] at taken
  exact taken ▸ toWakeInv h at_ same

lemma runInv (taken : run s t = some s') : Inv s' := by
  cases at_ : s.pc t
  case popped c other => exact poppedInv h at_ taken
  case popReverse c r =>
    match r with
    | [] => simp [run,at_] at taken
    | [record] =>
      simp only [run,at_,some.injEq] at taken
      have popped := takeInv h at_ (.inr ⟨rfl,rfl⟩)
      exact taken ▸ popped
    | record::next::r =>
      simp only [run,at_,some.injEq] at taken
      exact taken ▸ popReverseInv h at_
  case popTake c =>
    rcases list : s.poplist with _ | ⟨record,rest⟩
    · simp [run,at_,list] at taken
    simp only [run,at_,list,some.injEq] at taken
    exact taken ▸ takeInv h at_ (.inl ⟨rfl,list⟩)
  all_goals simp only [run,at_,ite_none_right_eq_some,some.injEq,reduceCtorEq] at taken
  case sent => exact taken.2 ▸ resumeInv h at_ (.inr rfl) taken.1
  case lockWait => exact taken.2 ▸ resumeInv h at_ (.inl rfl) taken.1
  case storeOwner => exact taken ▸ storeOwnerInv h at_
  case lockOwner nested =>
    split at taken <;> rename_i owned <;> cases taken
    · exact recursiveInv h at_ owned
    · exact newRecordInv h at_ owned
  case lockUncount => exact taken ▸ lockUncountInv h at_
  case pushLoad c => exact taken ▸ pushLoadInv h at_ _
  case pushCas c old =>
    split at taken <;> cases taken
    · exact pushInv h at_
    · exact pushRetryInv h at_ _
  case loadHandoff c => exact taken ▸ loadHandoffInv h at_
  case emptyPop c seen => exact taken ▸ emptyPopInv h at_
  case emptyPush c seen => exact taken ▸ emptyPushInv h at_
  case casHandoff c seen =>
    split at taken <;> rename_i same <;> cases taken
    · exact casTakeInv h (same ▸ at_)
    · exact casMissInv h at_ same
  case popTest c => exact taken ▸ popTestInv h at_
  case popExchange c =>
    split at taken <;> rename_i empty <;> cases taken
    · exact popNothingInv h at_ empty
    · exact (popExchangeInv h at_).resolve_right empty
  case wake c other => exact taken ▸ wakeInv h at_
  case unlockDepth => exact taken ▸ unlockDepthInv h at_
  case unlockOwner => exact taken ▸ unlockOwnerInv h at_
  case unlockCount => exact taken ▸ unlockCountInv h at_
  case publish => exact taken ▸ publishInv h at_
  case tryOwner nested =>
    split at taken <;> rename_i owned <;> cases taken
    · exact tryRecursiveInv h at_ owned
    · exact tryForeignInv h at_ owned
  case tryHandoff => exact taken ▸ tryHandoffInv h at_
  case tryCas seen =>
    split at taken <;> rename_i same <;> cases taken
    · exact tryTakeInv h (same ▸ at_)
    · exact tryMissInv h at_
  case tryCount => exact taken ▸ tryCountInv h at_

lemma stepInv {act : Act T} (taken : step s act = some s') : Inv s' := by
  cases act <;> simp only [step] at taken
  case run t =>
    rw [ite_none_right_eq_some] at taken
    exact runInv h taken.2
  all_goals split at taken <;> try cases taken
  next at_ => exact pushRetryInv h at_ _
  next nested at_ =>
    by_cases free : s.count = 0
    · simp only [free,if_true]
      exact free ▸ acquireInv h (outsideIs at_) free
    simp only [free,if_false]
    exact contendInv h (outsideIs at_) free
  next nested at_ =>
    split at taken <;> rename_i free <;> cases taken
    · have acquired := acquireInv h (outsideIs at_) free
      rwa [free] at acquired
    · exact tryContendInv h (outsideIs at_)
  next at_ =>
    simp only [ite_none_right_eq_some,some.injEq] at taken
    exact taken.2 ▸ unlockInv h at_
  next at_ => exact parkInv h at_
  next at_ parked => exact sendLockInv h (outsideIs at_) parked

end

lemma initialInv : Inv (initial T) where
  tokens := ⟨by simp [initial,flags,total,carries,caller],by simp [initial,total,weight,caller],
    fun t => by simp [initial,owns,caller]⟩
  records := by
    constructor <;> intro w <;> simp [initial,total,care,fresh,live,locking,caller]
  protocol := ⟨le_refl _,fun t => trivial,fun published => absurd rfl published⟩

lemma reachableInv (reach : Reachable s) : Inv s :=
  Runs.invariant (fun _ first => first ▸ initialInv) (fun _ _ _ inv _ taken => stepInv inv taken) reach

def Pc.holds (woken : Bool) : Pc T → Bool
  | .held => true
  | .storeOwner => true
  | .lockUncount => true
  | .unlockDepth => true
  | .unlockOwner => true
  | .unlockCount => true
  | .tryCount => true
  | .lockOwner nested => nested
  | .tryOwner nested => nested
  | .lockWait => woken
  | .sent => woken
  | pc => match pc.caller with
      | some .lock => woken
      | some (.send _ nested) => nested
      | _ => false

def Pc.popping : Pc T → Bool
  | .popTest _ => true
  | .popTake _ => true
  | .popExchange _ => true
  | .popReverse .. => true
  | _ => false

def Pc.forUnlock (p : Pc T) : Bool :=
  match p.caller with
  | some .unlock => true
  | _ => false

def Pc.checking (handoff : Nat) (p : Pc T) : Bool := p.checks handoff && !p.forUnlock

def Pc.waking (handoff : Nat) : Pc T → Bool
  | .popTest _ => true
  | .popTake _ => true
  | .popExchange _ => true
  | .popReverse .. => true
  | .popped .. => true
  | .wake .. => true
  | .publish => true
  | pc => pc.checks handoff && pc.forUnlock

def InQueue (s : State T) (w : T) : Prop :=
  w ∈ s.pushlist ∨ w ∈ s.poplist ∨ ∃ t c r, s.pc t = .popReverse c r ∧ w ∈ r

lemma callerHolds (eq : p.caller = some c) (woken : Bool) : p.holds woken = decide (0 < c.granted woken) := by
  cases p <;> cases eq <;> rcases c with _ | ⟨_,_ | _⟩ | _ <;> cases woken <;> rfl

lemma holdsCarries (holds : p.holds woken = true) : 0 < p.carries woken := by
  cases caller : p.caller
  case some c =>
    rw [callerHolds caller,decide_eq_true_eq] at holds
    rcases callerCarries caller woken with eq | eq <;> omega
  cases p with
  | lockOwner nested | tryOwner nested => cases nested <;> first | exact one_pos | cases holds
  | lockWait | sent => cases woken <;> first | exact one_pos | cases holds
  | _ => first | (cases caller; done) | exact one_pos | cases holds

lemma callerWaking (eq : p.caller = some c) (woken : Bool) (handoff : Nat) :
    p.carries woken = c.granted woken ∨ p.waking handoff = true := by
  cases p <;> cases eq <;> first | exact .inl rfl | exact .inr rfl

lemma carriesHolds (carries : 0 < p.carries woken) (handoff : Nat) : p.holds woken = true ∨ p.waking handoff = true := by
  cases caller : p.caller
  case some c =>
    rcases callerWaking caller woken handoff with eq | waking
    · exact .inl (by rw [callerHolds caller,decide_eq_true_eq,← eq]; exact carries)
    · exact .inr waking
  cases p with
  | publish => exact .inr rfl
  | lockOwner nested | tryOwner nested => cases nested <;> first | exact .inl rfl | cases carries
  | lockWait | sent => cases woken <;> first | exact .inl rfl | cases carries
  | _ => first | (cases caller; done) | exact .inl rfl | cases carries

-- The depth is 0 under an owner only while unlock() is about to clear the owner.
def Deep (s : State T) : Prop := ∀ t, s.owner = some t → s.depth = 0 → s.pc t = .unlockOwner

def Pc.deepens : Pc T → Bool
  | .lockUncount => true
  | .tryOwner nested => nested
  | _ => false

-- No lock is nested 2^32 times.
def Shallow (s : State T) : Act T → Prop
  | .run t => (s.pc t).deepens = true → s.depth.toNat + 1 < 2^32
  | _ => True

lemma Deep.keep (deep : Deep s) (pc : s'.pc = update s.pc t q) (owner : s'.owner = s.owner) (depth : s'.depth = s.depth)
    (other : s.pc t ≠ .unlockOwner) : Deep s' := by
  intro u owned zero
  have there := deep u (owner ▸ owned) (depth ▸ zero)
  rw [pc,update_of_ne,there]
  rintro rfl
  exact other there

lemma deepened (few : s.depth.toNat + 1 < 2^32) : s.depth + 1 ≠ 0 := by bv_omega

lemma Deep.run (h : Inv s) (deep : Deep s) (shallow : Shallow s (.run t)) (taken : run s t = some s') : Deep s' := by
  unfold LfMutex.run at taken
  unfold Shallow at shallow
  cases at_ : s.pc t <;> simp only [at_] at taken shallow
  case storeOwner =>
    cases taken
    exact fun _ _ zero => absurd zero (show (1 : BitVec 32) ≠ 0 by decide)
  case lockUncount =>
    cases taken
    exact fun _ _ zero => absurd zero (deepened (shallow rfl))
  case unlockDepth =>
    cases taken
    intro u owned zero
    cases (h.ownerIs at_ rfl).symm.trans owned
    exact (update_self _ _ _).trans (if_pos zero)
  case unlockOwner =>
    cases taken
    exact fun _ owned => by cases owned
  case tryOwner nested =>
    split at taken <;> cases taken
    next owned =>
      have owns := (h.tokens.owner t).mp owned
      rw [at_] at owns
      exact fun _ _ zero => absurd zero (deepened (shallow owns))
    · exact deep.keep rfl rfl rfl (by simp [at_])
  all_goals
    repeat' split at taken
    all_goals
      cases taken
      try exact deep.keep rfl rfl rfl (by simp [at_])

lemma Deep.step (h : Inv s) (deep : Deep s) {act : Act T} (shallow : Shallow s act) (taken : step s act = some s') : Deep s' := by
  have outer {t : T} {nested : Bool} (place : outside (s.pc t) = some nested) : s.pc t ≠ .unlockOwner := by
    intro eq
    rw [eq] at place
    cases place
  cases act with
  | run t => exact deep.run h shallow (Option.ite_none_right_eq_some.mp taken).2
  | sendLock t record =>
    simp only [LfMutex.step] at taken
    split at taken <;> cases taken
    next place parked =>
      have first : Deep (s.goto record .sent) := deep.keep rfl rfl rfl (by simp [parked])
      refine first.keep (t := t) rfl rfl rfl ?_
      simp only [goto,update_apply]
      split
      · exact fun bad => by cases bad
      · exact outer place
  | spurious t | lock t | tryLock t | unlock t | park t =>
    simp only [LfMutex.step] at taken
    repeat' split at taken
    all_goals
      cases taken <;> refine deep.keep (t := t) rfl rfl rfl ?_ <;> first | exact outer (by assumption) | simp [*]

lemma Inv.asserts (h : Inv s) (deep : Deep s) (t : T) : asserts s t = true := by
  have knows := h.protocol.knows t
  unfold LfMutex.asserts
  cases at_ : s.pc t with
  | held => simpa using h.ownerIs at_ rfl
  | unlockDepth =>
    have counted : s.depth ≠ 0 := fun zero => by cases at_.symm.trans (deep t (h.ownerIs at_ rfl) zero)
    simpa using counted
  | popped c other => ?_
  | wake c other =>
    have asleep := (h.records.live (show other ∈ (s.pc t).care by rw [at_]; simp [care])).2.1
    simp [thread,asleep]
  | _ => rfl
  rw [at_] at knows
  rcases other with _ | other
  · cases c with
    | unlock => rfl
    | lock | send record nested => exact absurd rfl (knows.2 fun bad => by cases bad)
  have asleep := (h.records.live (show other ∈ (s.pc t).care by rw [at_]; simp [care])).2.1
  cases c
  case lock =>
    simp only [thread,asleep,knows.1 rfl]
    by_cases same : other = t <;> simp [same]
  case send record nested => rfl
  have ne := h.foreign at_ fun bad => by cases bad
  simpa [thread,asleep] using ne

lemma liveWeight (live : p.live = true) (stale : p.fresh = false) : 0 < p.weight := by
  cases caller : p.caller with
  | some c =>
    have weight : p.weight = c.weight ∧ p.live = c.isLock := by cases p <;> cases caller <;> exact ⟨rfl,by cases c <;> rfl⟩
    rw [weight.2] at live
    rw [weight.1]
    cases c <;> first | exact one_pos | cases live
  | none =>
    cases p with
    | parked => cases stale
    | _ => first | (cases caller; done) | exact one_pos | cases live

lemma checksWaking {handoff : Nat} (checks : p.checks handoff = true) (caller : p.forUnlock = true) :
    p.waking handoff = true := by
  cases p with
  | loadHandoff c => exact caller
  | emptyPop c seen | emptyPush c seen | casHandoff c seen => simp [waking,checks,caller]
  | _ => cases checks

lemma queuedCount (queued : w ∈ s.pushlist ∨ w ∈ s.poplist) : 0 < s.pushlist.count w + s.poplist.count w := by
  rcases queued with mem | mem
  · exact Nat.add_pos_left (count_pos_iff.mpr mem) _
  · exact Nat.add_pos_right _ (count_pos_iff.mpr mem)

lemma Inv.once (h : Inv s) (live : (s.pc w).live = true) :
    s.pops w ≤ 1 ∧ s.wakes w ≤ 1 ∧ (w ∈ s.pushlist ∨ w ∈ s.poplist → s.pops w = 0 ∧ s.wakes w = 0) := by
  have places := h.records.places w
  have pops := h.records.popsLe w live
  have wakes := h.records.wakes w live
  have taken := totalLe fun t => takenLeCare (s.pc t) w
  rw [live,Bool.true_and,Bool.toNat_true] at places
  refine ⟨by omega,by omega,fun queued => ?_⟩
  have counted := queuedCount queued
  exact ⟨by omega,by omega⟩

lemma Inv.queuedWeight (h : Inv s) (queued : w ∈ s.pushlist ∨ w ∈ s.poplist) : 0 < (s.pc w).weight := by
  have places := h.records.places w
  have counted := queuedCount queued
  have most := toNat_le (s.pc w).live
  have stale : (s.pc w).fresh = false := by
    rcases fresh : (s.pc w).fresh with _ | _
    · rfl
    rw [fresh,toNat_true] at places
    omega
  have live : (s.pc w).live = true := by
    cases live : (s.pc w).live
    case true => rfl
    rw [live,toNat_false] at places
    omega
  exact liveWeight live stale

theorem noStuckLock (reach : Reachable s) {w : T} (waits : InQueue s w)
    (nobody : ∀ t, (s.pc t).holds (s.woken t) = false) :
    (s.handoff ≠ 0 ∧ ∃ t, (s.pc t).checking s.handoff = true) ∨ ∃ t, (s.pc t).waking s.handoff = true := by
  have h := reachableInv reach
  by_cases carried : 0 < total fun t => (s.pc t).carries (s.woken t)
  · obtain ⟨t,carries⟩ := totalPos carried
    rcases carriesHolds carries s.handoff with holds | waking
    · rw [nobody t] at holds
      cases holds
    · exact .inr ⟨t,waking⟩
  have listed : w ∈ s.pushlist ∨ w ∈ s.poplist := by
    rcases waits with mem | mem | ⟨t,c,r,at_,mem⟩
    · exact .inl mem
    · exact .inr mem
    have le := leTotal (fun t => (s.pc t).carries (s.woken t)) t
    have carries : 0 < (s.pc t).carries (s.woken t) := by
      rw [at_]
      exact popCarries rfl
    omega
  have busy : s.count ≠ 0 := by
    have weight := h.tokens.weightLe w
    have pos := h.queuedWeight listed
    omega
  have published : s.handoff ≠ 0 := by
    have token := h.tokens.token
    intro zero
    simp only [flags,zero,busy,if_true,if_false] at token
    omega
  have full := listed.imp ne_nil_of_mem ne_nil_of_mem
  obtain ⟨t,checks⟩ := h.protocol.helper published full
  cases caller : (s.pc t).forUnlock with
  | false => exact .inl ⟨published,t,by simp [checking,checks,caller]⟩
  | true => exact .inr ⟨t,checksWaking checks caller⟩

end

def queuedRun : List (Act (Fin 2)) :=
  [.lock 0,.run 0,.lock 1,.run 1,.run 1,.run 1,.run 1,.unlock 0,.run 0,.run 0,.run 0]

def queuedState : State (Fin 2) := (Runs.replay step (initial (Fin 2)) queuedRun).getD (initial (Fin 2))

lemma queuedReachable : Reachable queuedState :=
  Runs.reachPlayed queuedRun rfl (fun _ _ _ => trivial) rfl

instance (s : State (Fin 2)) : (act : Act (Fin 2)) → Decidable (Shallow s act)
  | .run t => inferInstanceAs (Decidable ((s.pc t).deepens = true → s.depth.toNat + 1 < 2^32))
  | .spurious _ | .lock _ | .tryLock _ | .unlock _ | .park _ | .sendLock .. => .isTrue trivial

theorem noStuckLockQueued : InQueue queuedState 1 ∧
    ((queuedState.handoff ≠ 0 ∧ ∃ t, (queuedState.pc t).checking queuedState.handoff = true) ∨
      ∃ t, (queuedState.pc t).waking queuedState.handoff = true) := by
  have queued : InQueue queuedState 1 := .inl (by decide)
  exact ⟨queued,noStuckLock queuedReachable queued (by decide)⟩

end OsvKernel.LfMutex
