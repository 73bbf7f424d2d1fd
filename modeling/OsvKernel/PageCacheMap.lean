import OsvKernel.Backlinks
import OsvKernel.PageCache

/-! The reverse map of the page cache: in runs without the races and misuses that Allowed leaves
out, the ptes that a cached page lists are the ptes that map it. points says what a pte maps once
the get() under way on it has written it, or before the release() under way on it cleared it. -/
namespace OsvKernel.PageCache
open List Option Bool Runs
open Backlinks (Agree)
open Function

variable {T P R : Type} [DecidableEq P]

namespace Phase

def releases (p : P) : Phase P R → Bool
  | .releasing _ q _ _ => q = p
  | .checking _ q _ _ => q = p
  | _ => false

def writes (p : P) : Phase P R → Bool
  | .writing q _ => q = p
  | _ => false

def moves (p : P) : Phase P R → Bool
  | .moving _ q _ _ => q = p
  | _ => false

def addr : Phase P R → Option Nat
  | .writing _ pte => some pte.addr
  | .releasing _ _ _ old => old.map Entry.addr
  | .checking _ _ _ old => old.map Entry.addr
  | _ => none

def moveKey : Phase P R → Option Key
  | .moving k _ _ _ => some k
  | _ => none

end Phase

def Idle (s : State T P R) (p : P) : Prop := ∀ t, (s.phase t).writes p = false ∧ (s.phase t).releases p = false
def Unreleased (s : State T P R) (p : P) : Prop := ∀ t, (s.phase t).releases p = false
def Moving (s : State T P R) (k : Key) : Prop := ∃ t, (s.phase t).moveKey = some k

def Owned (s : State T P R) (k : Key) (p : P) : Prop :=
  ∀ e ∈ s.pte p, ∀ r, ∀ page ∈ s.heap r, page.addr = e.addr → page.key = k

def Fresh (cfg : Config) (s : State T P R) (a : Nat) : Prop :=
  a ≠ cfg.zeroPage ∧ (∀ r, ∀ page ∈ s.heap r, page.addr ≠ a) ∧
    (∀ p, Idle s p → ∀ e ∈ s.pte p, e.addr ≠ a) ∧ ∀ t, (s.phase t).addr ≠ some a

/-- The runs that keep the reverse map. A private write fault finds its pte in the list of the ARC
page, and not in the one of a page of the write cache. -/
def Allowed (cfg : Config) (s : State T P R) : Act T P R → Prop
  | .get _ k p _ write shared _ a won =>
    Owned s k p ∧ Unreleased s p ∧ won = true ∧ (write = true → Fresh cfg s a) ∧
      (write = true → shared = false →
        (∀ w ∈ s.writeCache k, ∀ page ∈ s.heap w, ¬ page.Lists p) ∧
        (s.writeCache k = none → ∀ c ∈ s.readCache k, ∀ page ∈ s.heap c, page.Lists p))
  | .fetched t hole won =>
    match s.phase t with
    | .fetching k p _ =>
      Owned s k p ∧ Unreleased s p ∧ won = true ∧
        (hole = true → ∀ e ∈ s.pte p, ∀ r, ∀ page ∈ s.heap r, page.addr ≠ e.addr)
    | _ => True
  | .write _ won => won = true
  | .release _ k p _ => Owned s k p ∧ Idle s p ∧ ∀ t, (s.phase t).moves p = false
  | .mapArcBuf k _ _ a => (∀ r, ∀ page ∈ s.heap r, page.buf ≠ none → page.key ≠ k) ∧ Fresh cfg s a
  | _ => True

/-- A pte maps a cached page exactly if the page lists it, an offset in the write cache is not
mapped from the ARC, and no assertion has failed. -/
structure Sound (s : State T P R) : Prop where
  mapped : ∀ r page p, s.heap r = some page → Idle s p → ((s.pte p).map Entry.addr = some page.addr ↔ page.Lists p)
  apart : ∀ k w c page b p, s.writeCache k = some w → ¬ Moving s k → s.heap c = some page → page.key = k →
    page.buf = some b → Idle s p → (s.pte p).map Entry.addr ≠ some page.addr
  ran : s.failed = false

def Unmapped (s s' : State T P R) : Prop :=
  ∀ r page p, s.heap r = some page → s'.heap r = none → Idle s' p → (s'.pte p).map Entry.addr ≠ some page.addr

section
variable (cfg : Config)

structure Filed (heap : R → Option (Page P)) (readCache writeCache : Key → Option R) (order : List R)
    (arcMap : List (Nat × R)) : Prop where
  write : ∀ k r, writeCache k = some r ↔ ∃ page, heap r = some page ∧ page.key = k ∧ page.buf = none
  read : ∀ k r, readCache k = some r ↔ ∃ page b, heap r = some page ∧ page.key = k ∧ page.buf = some b
  lru : ∀ r, r ∈ order ↔ ∃ page, heap r = some page ∧ page.buf = none
  arc : ∀ b r, (b,r) ∈ arcMap ↔ ∃ page, heap r = some page ∧ page.buf = some b
  lruOnce : order.Nodup
  arcOnce : (arcMap.map (·.2)).Nodup
  zero : ∀ r page, heap r = some page → page.addr ≠ cfg.zeroPage

end

def Known (s : State T P R) (k : Key) (a : Nat) (b : Option Nat) : Prop :=
  ∃ r page, s.heap r = some page ∧ page.key = k ∧ page.addr = a ∧ page.buf = b

def Keeps (s : State T P R) (points : P → Option Nat) (k : Key) (p : P) : Prop :=
  ∀ k' a b, Known s k' a b → points p = some a → k' = k

structure Leaves (s : State T P R) (points : P → Option Nat) (k : Key) (p : P) (old : Option Entry) : Prop where
  empty : s.pte p = none
  keeps : Keeps s points k p
  seen : points p = old.map Entry.addr ∨ points p = none ∧ ∀ k' a b, Known s k' a b → old.map Entry.addr ≠ some a

def Behind (s : State T P R) (p : P) (e : Entry) : Prop :=
  ∀ old k, s.pte p = some old → Known s k old.addr none → old.addr = e.addr

def Holds (s : State T P R) (points : P → Option Nat) (t : T) : Phase P R → Prop
  | .idle _ => True
  | .fetching _ _ _ => True
  | .moving k p _ w => s.writeLock = some t ∧ s.writeCache k = some w ∧ Unreleased s p ∧ Keeps s points k p
  | .writing p e =>
    s.writeLock = some t ∧ points p = some e.addr ∧ Unreleased s p ∧ (∀ k b, Known s k e.addr b → b = none) ∧
      Behind s p e
  | .releasing k p _ old => Leaves s points k p old
  | .checking k p _ old => Leaves s points k p old ∧ ∀ k' a b, Known s k' a b → points p = some a → b ≠ none

structure Facts (s : State T P R) (points : P → Option Nat) : Prop where
  still : ∀ p, Idle s p → points p = (s.pte p).map Entry.addr
  calls : ∀ t, Holds s points t (s.phase t)
  alone : ∀ t u p, (s.phase t).releases p → (s.phase u).releases p → t = u
  apart : ∀ k w a b p, s.writeCache k = some w → ¬ Moving s k → Known s k a (some b) → points p ≠ some a

structure Inv (cfg : Config) (s : State T P R) (points : P → Option Nat) : Prop where
  ran : s.failed = false
  agree : Agree Page.addr Page.Lists s.heap points
  filed : Filed cfg s.heap s.readCache s.writeCache s.writeLru s.arcMap
  facts : Facts s points

structure Drops (s s' : State T P R) (points points' : P → Option Nat) : Prop where
  gone : ∀ r page p, s.heap r = some page → s'.heap r = none → points' p ≠ some page.addr
  less : ∀ p, points' p = points p ∨ points' p = none
  ptes : ∀ p, s'.pte p = s.pte p ∨ s'.pte p = none ∧ points' p = none
  pages : ∀ r page, s'.heap r = some page → s.heap r = some page
  phase : s'.phase = s.phase
  lock : s'.writeLock = s.writeLock

variable {cfg : Config} {s s' s'' : State T P R} {points points' points'' : P → Option Nat} {r : R} {page page' : Page P}
  {t : T} {k : Key} {p : P} {a : Nat}

open State Entry

lemma Inv.sound (inv : Inv cfg s points) : Sound s where
  mapped r page p live idle := by
    rw [← inv.facts.still p idle]
    exact (inv.agree.listed r page p live).symm
  apart k w c page b p cached still live key arc idle := by
    rw [← inv.facts.still p idle]
    exact inv.facts.apart k w page.addr b p cached still ⟨c,page,live,key,rfl,arc⟩
  ran := inv.ran

lemma Drops.refl : Drops s s points points :=
  ⟨fun r page p live gone => by simp [live] at gone,fun _ => .inl rfl,fun _ => .inl rfl,fun _ _ => id,rfl,rfl⟩

lemma Drops.trans (first : Drops s s' points points') (second : Drops s' s'' points' points'') :
    Drops s s'' points points'' where
  gone r page p live gone := by
    rcases mid : s'.heap r with _ | page'
    · have away := first.gone r page p live mid
      rcases second.less p with eq | eq <;> simp [eq,away]
    have same := first.pages r page' mid
    cases live.symm.trans same
    exact second.gone r page p mid gone
  less p := by
    rcases second.less p with eq | eq
    · exact eq ▸ first.less p
    · exact .inr eq
  ptes p := by
    rcases second.ptes p with same | empty
    · rcases first.ptes p with before | ⟨none,away⟩
      · exact .inl (same.trans before)
      · refine .inr ⟨same.trans none,?_⟩
        rcases second.less p with eq | eq
        · exact eq.trans away
        · exact eq
    · exact .inr empty
  pages r page live := first.pages r page (second.pages r page live)
  phase := second.phase.trans first.phase
  lock := second.lock.trans first.lock

lemma Inv.pointsFresh (inv : Inv cfg s points) (fresh : Fresh cfg s a) (p : P) : points p ≠ some a := by
  obtain ⟨-,pages,ptes,calls⟩ := fresh
  by_cases idle : Idle s p
  · rw [inv.facts.still p idle]
    intro eq
    obtain ⟨e,present,same⟩ := map_eq_some_iff.mp eq
    exact ptes p idle e present same
  obtain ⟨t,busy⟩ := not_forall.mp idle
  have call := calls t
  have holds := inv.facts.calls t
  generalize at_ : s.phase t = x at busy call holds ⊢
  cases x with
  | writing q e =>
    have same : q = p := by simpa [Phase.writes,Phase.releases] using busy
    rw [← same,holds.2.1]
    exact call
  | releasing k q addr old => ?_
  | checking k q addr old =>
    have same : q = p := by simpa [Phase.writes,Phase.releases] using busy
    subst same
    rcases holds.1.seen with eq | ⟨eq,-⟩
    · exact eq ▸ call
    · simp [eq]
  | _ => simp [Phase.writes,Phase.releases] at busy
  have same : q = p := by simpa [Phase.writes,Phase.releases] using busy
  subst same
  rcases holds.seen with eq | ⟨eq,-⟩
  · exact eq ▸ call
  · simp [eq]

section
variable [DecidableEq R] {heap : R → Option (Page P)} {readCache writeCache : Key → Option R} {order : List R}
  {arcMap : List (Nat × R)} {b : Nat}

section
variable (filed : Filed cfg heap readCache writeCache order arcMap)
include filed

lemma Filed.store (live : heap r = some page)
    (key : page'.key = page.key) (addr : page'.addr = page.addr) (buf : page'.buf = page.buf) :
    Filed cfg (update heap r (some page')) readCache writeCache order arcMap := by
  obtain ⟨write,read,lru,arc,lruOnce,arcOnce,zero⟩ := filed
  constructor <;> grind [update_apply]

lemma Filed.deleteRead (live : heap r = some page) (buf : page.buf = some b) :
    Filed cfg (update heap r none) (update readCache page.key none) writeCache order (arcMap.filter (·.2 ≠ r)) := by
  have here := (filed.read page.key r).mpr ⟨page,b,live,rfl,buf⟩
  obtain ⟨write,read,lru,arc,lruOnce,arcOnce,zero⟩ := filed
  constructor
  case arcOnce => exact arcOnce.sublist (filter_sublist.map _)
  all_goals grind [update_apply]

lemma Filed.evict (live : heap r = some page) (buf : page.buf = none) {front : List R} (last : order = front ++ [r]) :
    Filed cfg (update heap r none) readCache (update writeCache page.key none) front arcMap := by
  have here := (filed.write page.key r).mpr ⟨page,live,rfl,buf⟩
  obtain ⟨write,read,lru,arc,lruOnce,arcOnce,zero⟩ := filed
  subst order
  obtain ⟨frontOnce,-,other⟩ := nodup_append.mp lruOnce
  have away : ∀ q ∈ front, q ≠ r := fun q mem => other q mem r (.head _)
  simp only [mem_append,mem_singleton] at lru
  constructor <;> grind [update_apply]

lemma Filed.insert (free : heap r = none)
    (missing : writeCache page.key = none) (buf : page.buf = none) (addr : page.addr ≠ cfg.zeroPage) :
    Filed cfg (update heap r (some page)) readCache (update writeCache page.key (some r)) (r::order) arcMap := by
  obtain ⟨write,read,lru,arc,lruOnce,arcOnce,zero⟩ := filed
  constructor <;> grind [update_apply]

lemma Filed.mapArcBuf (free : heap r = none)
    (missing : readCache page.key = none) (buf : page.buf = some b) (addr : page.addr ≠ cfg.zeroPage) :
    Filed cfg (update heap r (some page)) (update readCache page.key (some r)) writeCache order ((b,r)::arcMap) := by
  obtain ⟨write,read,lru,arc,lruOnce,arcOnce,zero⟩ := filed
  constructor <;> grind [update_apply]

end

end

def Phase.target : Phase P R → Option P
  | .moving _ p _ _ => some p
  | .writing p _ => some p
  | .releasing _ p _ _ => some p
  | .checking _ p _ _ => some p
  | _ => none

def Phase.locks : Phase P R → Bool
  | .moving _ _ _ _ => true
  | .writing _ _ => true
  | _ => false

lemma Keeps.of (keeps : Keeps s points k p) (known : ∀ k a b, Known s' k a b → Known s k a b)
    (same : points' p = points p ∨ points' p = none) : Keeps s' points' k p := by
  intro k' a b there at_
  rcases same with eq | eq
  · exact keeps k' a b (known k' a b there) (eq ▸ at_)
  · simp [eq] at at_

lemma Behind.of {e : Entry} (behind : Behind s p e) (known : ∀ k a b, Known s' k a b → Known s k a b)
    (same : (s'.pte p).map addr = (s.pte p).map addr) : Behind s' p e := by
  intro new k present there
  rw [present] at same
  obtain ⟨old,before,eq⟩ := map_eq_some_iff.mp same.symm
  rw [← eq]
  exact behind old k before (known k old.addr none (eq ▸ there))

variable {ph : Phase P R}

lemma Holds.frame (holds : Holds s points t ph) (known : ∀ k a b, Known s' k a b → Known s k a b)
    (lock : ph.locks = true → s'.writeLock = s.writeLock ∧ s'.writeCache = s.writeCache)
    (released : ∀ q, ph.locks = true → ph.target = some q → Unreleased s q → Unreleased s' q)
    (same : ∀ q, ph.target = some q → (s'.pte q).map addr = (s.pte q).map addr ∧ points' q = points q) :
    Holds s' points' t ph := by
  have leaves : ∀ k p old, (s'.pte p).map addr = (s.pte p).map addr ∧ points' p = points p →
      Leaves s points k p old → Leaves s' points' k p old := by
    rintro k p old ⟨pte,eq⟩ ⟨empty,keeps,seen⟩
    rw [empty] at pte
    refine ⟨map_eq_none_iff.mp pte,keeps.of known (.inl eq),?_⟩
    rw [eq]
    exact seen.imp_right fun gone => ⟨gone.1,fun k a b there => gone.2 k a b (known k a b there)⟩
  cases ph with
  | idle result | fetching k p pte => trivial
  | moving k p pte w =>
    obtain ⟨held,cached,free,keeps⟩ := holds
    exact ⟨(lock rfl).1.trans held,(lock rfl).2 ▸ cached,released p rfl rfl free,keeps.of known (.inl (same p rfl).2)⟩
  | writing p e =>
    obtain ⟨held,at_,free,write,behind⟩ := holds
    exact ⟨(lock rfl).1.trans held,(same p rfl).2.trans at_,released p rfl rfl free,
      fun k b there => write k b (known k e.addr b there),behind.of known (same p rfl).1⟩
  | releasing k p addr old => exact leaves k p old (same p rfl) holds
  | checking k p addr old =>
    refine ⟨leaves k p old (same p rfl) holds.1,fun k a b there at_ => ?_⟩
    exact holds.2 k a b (known k a b there) ((same p rfl).2 ▸ at_)

lemma Phase.releasesTarget (releases : ph.releases p = true) : ph.target = some p := by
  cases ph <;> simp_all [Phase.releases,Phase.target]

lemma Phase.writesTarget (writes : ph.writes p = true) : ph.target = some p := by
  cases ph <;> simp_all [Phase.writes,Phase.target]

lemma Phase.targetMoves (target : ph.target = none) : ph.moveKey = none := by
  cases ph <;> simp_all [Phase.target,Phase.moveKey]

lemma idleAt (nobody : ∀ u, (s.phase u).target ≠ some p) : Idle s p := fun u =>
  ⟨eq_false_iff.mpr fun writes => nobody u (Phase.writesTarget writes),
    eq_false_iff.mpr fun releases => nobody u (Phase.releasesTarget releases)⟩

structure Steps [DecidableEq T] (s s' : State T P R) (points points' : P → Option Nat) (t : T) (p : P) (next : Phase P R) : Prop where
  phase : s'.phase = update s.phase t next
  known : ∀ k a b, Known s' k a b → Known s k a b
  cache : ∀ k w, s'.writeCache k = some w → ¬ Moving s' k → s.writeCache k = some w
  lock : ∀ u, u ≠ t → (s.phase u).locks = true → s'.writeLock = s.writeLock ∧ s'.writeCache = s.writeCache
  away : ∀ q, q ≠ p → s'.pte q = s.pte q ∧ points' q = points q
  others : ∀ u, u ≠ t → (s.phase u).target ≠ some p
  source : ∀ q, (s.phase t).target = some q → q = p
  target : ∀ q, next.target = some q → q = p

section
variable [DecidableEq T] {next : Phase P R}

variable {q : P}

section
variable (steps : Steps s s' points points' t p next)
include steps

lemma Steps.idle (other : q ≠ p) (idle : Idle s' q) : Idle s q := by
  intro u
  by_cases same : u = t
  · subst u
    constructor
    · exact eq_false_iff.mpr fun writes => other (steps.source q (Phase.writesTarget writes))
    · exact eq_false_iff.mpr fun releases => other (steps.source q (Phase.releasesTarget releases))
  have kept := idle u
  rwa [steps.phase,update_of_ne same] at kept

lemma Steps.unreleased (other : q ≠ p) (free : Unreleased s q) : Unreleased s' q := by
  intro u
  rw [steps.phase,update_apply]
  split
  · exact eq_false_iff.mpr fun releases => other (steps.target q (Phase.releasesTarget releases))
  · exact free u

lemma Steps.fixed (quiet : (s.phase t).moveKey = none) (fixed : ¬ Moving s' k) : ¬ Moving s k := by
  rintro ⟨u,moving⟩
  by_cases same : u = t
  · subst u
    cases quiet.symm.trans moving
  refine fixed ⟨u,?_⟩
  rw [steps.phase,update_of_ne same,moving]

end

lemma Facts.step (facts : Facts s points) (steps : Steps s s' points points' t p next)
    (here : Holds s' points' t next) (still : Idle s' p → points' p = (s'.pte p).map addr)
    (moved : ∀ k a b, (s.phase t).moveKey = some k → next.moveKey ≠ some k → ¬ Known s' k a (some b))
    (apart : ∀ k w a b, s.writeCache k = some w → ¬ Moving s' k → Known s' k a (some b) → points' p ≠ some a) :
    Facts s' points' where
  still q idle := by
    by_cases same : q = p
    · exact same ▸ still (same ▸ idle)
    rw [(steps.away q same).1,(steps.away q same).2]
    exact facts.still q (steps.idle same idle)
  calls u := by
    rw [steps.phase,update_apply]
    split
    · subst u
      exact here
    rename_i other
    refine (facts.calls u).frame steps.known (steps.lock u other) ?_ ?_
    · intro q _ target
      exact steps.unreleased fun same => steps.others u other (same ▸ target)
    intro q target
    have away := steps.away q fun same => steps.others u other (same ▸ target)
    exact ⟨congrArg (Option.map addr) away.1,away.2⟩
  alone u v q first second := by
    rw [steps.phase,update_apply] at first second
    split at first <;> split at second
    · simp_all
    next other =>
      cases steps.target q (Phase.releasesTarget first)
      exact absurd (Phase.releasesTarget second) (steps.others v other)
    next other _ =>
      cases steps.target q (Phase.releasesTarget second)
      exact absurd (Phase.releasesTarget first) (steps.others u other)
    · exact facts.alone u v q first second
  apart k w a b q cached fixed there := by
    have cached' := steps.cache k w cached fixed
    by_cases same : q = p
    · exact same ▸ apart k w a b cached' fixed there
    rw [(steps.away q same).2]
    refine facts.apart k w a b q cached' ?_ (steps.known k a (some b) there)
    rintro ⟨u,moving⟩
    by_cases mine : u = t
    · subst u
      refine moved k a b moving (fun stays => fixed ⟨t,?_⟩) there
      rw [steps.phase,update_self,stays]
    refine fixed ⟨u,?_⟩
    rw [steps.phase,update_of_ne mine,moving]

lemma Facts.quiet (facts : Facts s points) (steps : Steps s s' points points t p next) (quiet : (s.phase t).moveKey = none)
    (here : Holds s' points t next) (still : Idle s' p → points p = (s'.pte p).map addr) : Facts s' points :=
  facts.step steps here still (fun _ _ _ moving => nomatch quiet.symm.trans moving) fun k w a b cached fixed there =>
    facts.apart k w a b p cached (steps.fixed quiet fixed) (steps.known k a (some b) there)

end

lemma knownStore [DecidableEq R] (heap : s'.heap = update s.heap r (some page')) (live : s.heap r = some page)
    (key : page'.key = page.key) (addr : page'.addr = page.addr) (buf : page'.buf = page.buf) :
    ∀ k a b, Known s' k a b → Known s k a b := by
  rintro k a b ⟨q,other,there,rfl,rfl,rfl⟩
  rw [heap,update_apply] at there
  split at there
  · cases there
    exact ⟨r,page,live,key.symm,addr.symm,buf.symm⟩
  · exact ⟨q,other,there,rfl,rfl,rfl⟩

lemma knownDelete [DecidableEq R] (heap : s'.heap = update s.heap r none) : ∀ k a b, Known s' k a b → Known s k a b := by
  rintro k a b ⟨q,other,there,key,addr,buf⟩
  rw [heap,update_apply] at there
  split at there
  · cases there
  exact ⟨q,other,there,key,addr,buf⟩

lemma Facts.holder (facts : Facts s points) (locks : (s.phase t).locks = true) : s.writeLock = some t := by
  have holds := facts.calls t
  cases at_ : s.phase t <;> simp only [at_,Phase.locks,false_eq_true] at locks
  all_goals
    rw [at_] at holds
    exact holds.1

lemma Facts.unlocked (facts : Facts s points) (free : s.writeLock = none) (u : T) : (s.phase u).locks = false :=
  eq_false_iff.mpr fun locks => nomatch free.symm.trans (facts.holder locks)

lemma atNobody (locks : ∀ u, u ≠ t → (s.phase u).locks = false) (free : Unreleased s p) :
    ∀ u, u ≠ t → (s.phase u).target ≠ some p := by
  intro u other at_
  have unlocked := locks u other
  have unreleased := free u
  cases ph : s.phase u <;> simp_all [Phase.locks,Phase.target,Phase.releases]

lemma Inv.keeps (inv : Inv cfg s points) (owned : Owned s k p) (idle : Idle s p) : Keeps s points k p := by
  rintro k' a b ⟨r,page,live,rfl,rfl,-⟩ at_
  rw [inv.facts.still p idle] at at_
  obtain ⟨e,present,same⟩ := map_eq_some_iff.mp at_
  exact owned e present r page live same.symm

lemma Inv.listsKey (inv : Inv cfg s points) (keeps : Keeps s points k p) (live : s.heap r = some page)
    (lists : page.Lists p) : page.key = k :=
  keeps page.key page.addr page.buf ⟨r,page,live,rfl,rfl,rfl⟩ ((inv.agree.listed r page p live).mp lists)

structure Edits (cfg : Config) (s s' : State T P R) (points : P → Option Nat) : Prop where
  ran : s'.failed = false
  agree : Agree Page.addr Page.Lists s'.heap points
  filed : Filed cfg s'.heap s'.readCache s'.writeCache s'.writeLru s'.arcMap
  known : ∀ k a b, Known s' k a b → Known s k a b
  gone : ∀ r page p, s.heap r = some page → s'.heap r = none → points p ≠ some page.addr
  pte : s'.pte = s.pte
  phase : s'.phase = s.phase
  cache : s'.writeCache = s.writeCache
  lock : s'.writeLock = s.writeLock

lemma Inv.aimed (inv : Inv cfg s points) (x : Option Nat) (free : ∀ r page, s.heap r = some page → ¬ page.Lists p)
    (away : ∀ r page, s.heap r = some page → x ≠ some page.addr) : Edits cfg s s (update points p x) :=
  ⟨inv.ran,inv.agree.aim x free away,inv.filed,fun _ _ _ => id,fun _ _ _ live gone => (nomatch gone.symm.trans live),
    rfl,rfl,rfl,rfl⟩

section
variable [DecidableEq R] {b : Nat}

lemma storeStays {q : R} (there : s.heap q ≠ none) : (s.store r page).heap q ≠ none := by
  simp only [store,update_apply]
  split
  · exact nofun
  · exact there

lemma Inv.linked (inv : Inv cfg s points) (live : s.heap r = some page)
    (only : ∀ q page', s.heap q = some page' → page'.Lists p → q = r) :
    Edits cfg s (s.store r {page with ptes := page.ptes.add p}) (update points p (some page.addr)) where
  ran := inv.ran
  agree := inv.agree.link live rfl (fun _ => PtepList.memAdd) only
  filed := inv.filed.store live rfl rfl rfl
  known := knownStore rfl live rfl rfl rfl
  gone _ _ _ there gone := absurd gone (storeStays (there ▸ nofun))
  pte := rfl
  phase := rfl
  cache := rfl
  lock := rfl

lemma Inv.unlinked (inv : Inv cfg s points) (x : Option Nat) (page' : Page P) (live : s.heap r = some page) (mine : page.Lists p)
    (key : page'.key = page.key) (addr : page'.addr = page.addr) (buf : page'.buf = page.buf)
    (drops : ∀ q, page'.Lists q ↔ page.Lists q ∧ q ≠ p) (away : ∀ r page, s.heap r = some page → x ≠ some page.addr) :
    Edits cfg s (s.store r page') (update points p x) where
  ran := inv.ran
  agree := inv.agree.unlink x live addr mine drops away
  filed := inv.filed.store live key addr buf
  known := knownStore rfl live key addr buf
  gone _ _ _ there gone := absurd gone (storeStays (there ▸ nofun))
  pte := rfl
  phase := rfl
  cache := rfl
  lock := rfl

lemma Inv.removed (inv : Inv cfg s points) (x : Option Nat) (live : s.heap r = some page) (arc : page.buf = some b)
    (mine : page.Lists p) (away : ∀ r page, s.heap r = some page → x ≠ some page.addr) :
    Edits cfg s (s.removeReadMapping r p) (update points p x) := by
  obtain ⟨rest,n,eq,drops,empty⟩ := PtepList.removeMem mine
  have edits : Edits cfg s (s.store r {page with ptes := rest}) (update points p x) :=
    inv.unlinked x _ live mine rfl rfl rfl drops away
  simp only [removeReadMapping,live,eq]
  split
  swap
  · exact edits
  rename_i last
  have nobody : ∀ q, q ∉ rest.toList := by simp [empty last]
  have agree : Agree Page.addr Page.Lists (update s.heap r none) (update points p x) := by
    have whole := edits.agree.delete (r := r) (update points p x) (update_self _ _ _)
      (fun q lists => absurd lists (nobody q)) (fun _ _ => rfl)
    rwa [store,update_idem] at whole
  refine ⟨inv.ran,agree,inv.filed.deleteRead live arc,knownDelete rfl,?_,rfl,rfl,rfl,rfl⟩
  intro q other p' there gone at_
  by_cases same : q = r
  · subst q
    cases live.symm.trans there
    exact nobody p' ((edits.agree.listed r _ p' (update_self _ _ _)).mpr at_)
  · simp [deleteRead,update_of_ne same,there] at gone

end

section
variable [DecidableEq T] {e : Entry}

lemma Inv.toWrite (inv : Inv cfg s points) (edits : Edits cfg s s' (update points p (some e.addr)))
    (free : Unreleased s p) (locks : ∀ u, u ≠ t → (s.phase u).locks = false)
    (source : ∀ q, (s.phase t).target = some q → q = p)
    (moved : ∀ k a b, (s.phase t).moveKey = some k → ¬ Known s k a (some b))
    (write : ∀ k b, Known s' k e.addr b → b = none) (behind : Behind s p e) :
    Inv cfg {s'.go t (.writing p e) with writeLock := some t} (update points p (some e.addr)) := by
  refine ⟨edits.ran,edits.agree,edits.filed,?_⟩
  refine inv.facts.step (t := t) (p := p)
    ⟨congrArg (update · t _) edits.phase,edits.known,fun k w cached _ => edits.cache ▸ cached,?_,?_,
      atNobody locks free,source,?_⟩ ?_ ?_ ?_ ?_
  · exact fun u other held => nomatch (locks u other).symm.trans held
  · exact fun q other => ⟨congrFun edits.pte q,update_of_ne other _ _⟩
  · exact fun q at_ => (some.inj at_).symm
  · refine ⟨rfl,update_self _ _ _,?_,write,behind.of edits.known (by rw [go,edits.pte])⟩
    intro u
    simp only [go,edits.phase,update_apply]
    split
    · rfl
    exact free u
  · intro idle
    have busy := (idle t).1
    simp [go,Phase.writes] at busy
  · exact fun k' a b moving _ there => moved k' a b moving (edits.known k' a (some b) there)
  intro k' w' a b _ _ there at_
  rw [update_self] at at_
  cases at_
  cases write k' (some b) there

lemma Facts.releaser (facts : Facts s points) (mine : (s.phase t).releases p = true) :
    ∀ u, u ≠ t → (s.phase u).target ≠ some p := by
  intro u other at_
  have holds := facts.calls u
  generalize ph : s.phase u = x at at_ holds ⊢
  cases x with
  | idle result | fetching k q pte => simp [Phase.target] at at_
  | moving k q pte w | writing q e =>
    cases at_
    cases mine.symm.trans (holds.2.2.1 t)
  | releasing k q addr old | checking k q addr old =>
    cases at_
    exact other (facts.alone u t p (by simp [ph,Phase.releases]) mine)

lemma Inv.left (inv : Inv cfg s points) (edits : Edits cfg s s' (update points p none))
    (mine : (s.phase t).releases p = true) (empty : s.pte p = none) (result : Option Bool) :
    Inv cfg (s'.go t (.idle result)) (update points p none) := by
  refine ⟨edits.ran,edits.agree,edits.filed,?_⟩
  have target := Phase.releasesTarget mine
  refine inv.facts.step (t := t) (p := p)
    ⟨congrArg (update · t _) edits.phase,edits.known,fun k w cached _ => edits.cache ▸ cached,
      fun _ _ _ => ⟨edits.lock,edits.cache⟩,?_,inv.facts.releaser mine,?_,nofun⟩ trivial ?_ ?_ ?_
  · exact fun q other => ⟨congrFun edits.pte q,update_of_ne other _ _⟩
  · exact fun q at_ => some.inj (at_.symm.trans target)
  · intro _
    simp [go,edits.pte,empty]
  · intro k a b moving
    cases ph : s.phase t <;> simp [ph,Phase.releases,Phase.moveKey] at mine moving
  intro k w a b _ _ _ at_
  rw [update_self] at at_
  cases at_

lemma Inv.goes (inv : Inv cfg s points) {next : Phase P R} (nobody : ∀ u, (s.phase u).target ≠ some p)
    (before : (s.phase t).target = none) (after : next.target = none) : Inv cfg (s.go t next) points := by
  have steps : Steps s (s.go t next) points points t p next :=
    ⟨rfl,fun _ _ _ => id,fun _ _ cached _ => cached,fun _ _ _ => ⟨rfl,rfl⟩,fun _ _ => ⟨rfl,rfl⟩,fun u _ => nobody u,
      fun q at_ => (nomatch before.symm.trans at_),fun q at_ => (nomatch after.symm.trans at_)⟩
  have quiet := Phase.targetMoves before
  refine ⟨inv.ran,inv.agree,inv.filed,inv.facts.quiet steps quiet ?_ ?_⟩
  · cases next <;> trivial
  · exact fun _ => inv.facts.still p (idleAt nobody)

variable {old : Option Entry}

lemma Inv.checks (inv : Inv cfg s points) {addr : Nat} (at_ : s.phase t = .releasing k p addr old)
    (missing : ∀ w page, s.writeCache k = some w → s.heap w = some page → old.map Entry.addr ≠ some page.addr) :
    Inv cfg (s.go t (.checking k p addr old)) points := by
  have leaves := inv.facts.calls t
  rw [at_] at leaves
  have mine : (s.phase t).releases p = true := by simp [at_,Phase.releases]
  have steps : Steps s (s.go t (.checking k p addr old)) points points t p (.checking k p addr old) :=
    ⟨rfl,fun _ _ _ => id,fun _ _ cached _ => cached,fun _ _ _ => ⟨rfl,rfl⟩,fun _ _ => ⟨rfl,rfl⟩,inv.facts.releaser mine,
      fun q there => some.inj (there.symm.trans (Phase.releasesTarget mine)),
      fun q there => (some.inj there).symm⟩
  have quiet : (s.phase t).moveKey = none := by simp [at_,Phase.moveKey]
  refine ⟨inv.ran,inv.agree,inv.filed,inv.facts.quiet steps quiet ⟨⟨leaves.empty,leaves.keeps,leaves.seen⟩,?_⟩ ?_⟩
  · rintro k' a b ⟨r,page,live,rfl,rfl,rfl⟩ points buf
    have key := leaves.keeps page.key page.addr page.buf ⟨r,page,live,rfl,rfl,rfl⟩ points
    have cached := (inv.filed.write k r).mpr ⟨page,live,key,buf⟩
    rcases leaves.seen with eq | ⟨eq,-⟩
    · exact missing r page cached live (eq.symm.trans points)
    · cases eq.symm.trans points
  intro idle
  have busy := (idle t).2
  simp [go,Phase.releases] at busy

lemma Inv.clears (inv : Inv cfg s points) (out : (s.phase t).target = none) (owned : Owned s k p) (idle : Idle s p)
    (unmoved : ∀ u, (s.phase u).moves p = false) (addr : Nat) :
    Inv cfg ({s with pte := update s.pte p none}.go t (.releasing k p addr (s.pte p))) points := by
  have nobody : ∀ u, (s.phase u).target ≠ some p := by
    intro u at_
    have unwritten := idle u
    have moves := unmoved u
    cases ph : s.phase u <;> simp_all [Phase.target,Phase.writes,Phase.releases,Phase.moves]
  have steps : Steps s ({s with pte := update s.pte p none}.go t (.releasing k p addr (s.pte p))) points points
      t p (.releasing k p addr (s.pte p)) :=
    ⟨rfl,fun _ _ _ => id,fun _ _ cached _ => cached,fun _ _ _ => ⟨rfl,rfl⟩,fun q other => ⟨update_of_ne other _ _,rfl⟩,fun u _ => nobody u,
      fun q at_ => (nomatch out.symm.trans at_),fun q there => (some.inj there).symm⟩
  have quiet := Phase.targetMoves out
  refine ⟨inv.ran,inv.agree,inv.filed,inv.facts.quiet steps quiet ⟨?_,inv.keeps owned idle,?_⟩ ?_⟩
  · exact update_self _ _ _
  · exact .inl (inv.facts.still p idle)
  intro calm
  have busy := (calm t).2
  simp [go,Phase.releases] at busy

lemma Inv.wrote (inv : Inv cfg s points) (at_ : s.phase t = .writing p e) (result : Option Bool) :
    Inv cfg {({s with pte := update s.pte p (some e)}.go t (.idle result)) with writeLock := none} points := by
  have holds := inv.facts.calls t
  rw [at_] at holds
  obtain ⟨held,aim,free,-,-⟩ := holds
  have unlocked : ∀ u, u ≠ t → (s.phase u).locks = false := fun u other =>
    eq_false_iff.mpr fun locks => other (some.inj ((inv.facts.holder locks).symm.trans held))
  have steps : Steps s {({s with pte := update s.pte p (some e)}.go t (.idle result)) with writeLock := none}
      points points t p (.idle result) :=
    ⟨rfl,fun _ _ _ => id,fun _ _ cached _ => cached,fun u other locks => (nomatch (unlocked u other).symm.trans locks),
      fun q other => ⟨update_of_ne other _ _,rfl⟩,atNobody unlocked free,
      fun q there => (some.inj ((congrArg Phase.target at_).symm.trans there)).symm,nofun⟩
  have quiet : (s.phase t).moveKey = none := by simp [at_,Phase.moveKey]
  refine ⟨inv.ran,inv.agree,inv.filed,inv.facts.quiet steps quiet trivial ?_⟩
  intro _
  simp [go,aim]

lemma Facts.grow (facts : Facts s points) {new : Option Nat}
    (known : ∀ k' a' b, Known s' k' a' b → Known s k' a' b ∨ a' = a ∧ b = new)
    (quiet : new ≠ none ∨ ∀ t, (s.phase t).locks = false) (unused : ∀ p, points p ≠ some a) (unseen : ∀ t, (s.phase t).addr ≠ some a) (pte : s'.pte = s.pte)
    (phase : s'.phase = s.phase) (lock : s'.writeLock = s.writeLock) (cache : s'.writeCache = s.writeCache) :
    Facts s' points := by
  have pointed : ∀ p k' a' b, Known s' k' a' b → points p = some a' → Known s k' a' b := by
    intro p k' a' b there at_
    rcases known k' a' b there with old | ⟨rfl,-⟩
    · exact old
    · exact absurd at_ (unused p)
  have leaves : ∀ k p old, old.map addr ≠ some a → Leaves s points k p old → Leaves s' points k p old := by
    rintro k p old fresh ⟨empty,keeps,seen⟩
    refine ⟨pte ▸ empty,fun k' a' b there at_ => keeps k' a' b (pointed p k' a' b there at_) at_,?_⟩
    refine seen.imp_right fun gone => ⟨gone.1,fun k' a' b there => ?_⟩
    rcases known k' a' b there with before | ⟨rfl,-⟩
    · exact gone.2 k' a' b before
    · exact fresh
  have unreleased : ∀ p, Unreleased s p → Unreleased s' p := fun p free u => phase ▸ free u
  constructor
  case still =>
    intro p idle
    rw [pte]
    exact facts.still p fun u => phase ▸ idle u
  case calls =>
    intro u
    have holds := facts.calls u
    have fresh := unseen u
    rw [phase]
    generalize ph : s.phase u = x at holds fresh ⊢
    cases x with
    | idle result | fetching k p pte => trivial
    | moving k p pte w =>
      obtain ⟨held,cached,free,keeps⟩ := holds
      exact ⟨lock.trans held,cache ▸ cached,unreleased p free,
        fun k' a' b there at_ => keeps k' a' b (pointed p k' a' b there at_) at_⟩
    | writing p e => ?_
    | releasing k p addr old => exact leaves k p old fresh holds
    | checking k p addr old =>
      exact ⟨leaves k p old fresh holds.1,fun k' a' b there at_ => holds.2 k' a' b (pointed p k' a' b there at_) at_⟩
    obtain ⟨held,at_,free,write,behind⟩ := holds
    refine ⟨lock.trans held,at_,unreleased p free,fun k b there => write k b (pointed p k e.addr b there at_),?_⟩
    intro old k present there
    rcases known k old.addr none there with before | ⟨-,none⟩
    · exact behind old k (pte ▸ present) before
    rcases quiet with arc | unlocked
    · exact absurd none.symm arc
    have locks := unlocked u
    simp [ph,Phase.locks] at locks
  case alone => exact phase ▸ facts.alone
  case apart =>
    intro k w a' b p cached fixed there at_
    refine facts.apart k w a' b p (cache ▸ cached) ?_ (pointed p k a' (some b) there at_) at_
    exact fun ⟨u,moving⟩ => fixed ⟨u,phase ▸ moving⟩

section
variable [DecidableEq R]

lemma knownAdd (page : Page P) (heap : s'.heap = update s.heap r (some page)) :
    ∀ k a b, Known s' k a b → Known s k a b ∨ a = page.addr ∧ b = page.buf := by
  rintro k a b ⟨q,other,there,rfl,rfl,rfl⟩
  rw [heap,update_apply] at there
  split at there
  · cases there
    exact .inr ⟨rfl,rfl⟩
  · exact .inl ⟨q,other,there,rfl,rfl,rfl⟩

lemma Inv.mapArcBuf (inv : Inv cfg s points) (free : s.heap r = none)
    (missing : ∀ q page, s.heap q = some page → page.buf ≠ none → page.key ≠ k)
    (fresh : Fresh cfg s a) (b : Nat) : Inv cfg (s.mapArcBuf k b r a) points := by
  have unused := inv.pointsFresh fresh
  obtain ⟨zero,pages,-,unseen⟩ := fresh
  have empty : s.readCache k = none := by
    rcases cached : s.readCache k with _ | c
    · rfl
    obtain ⟨page,b,live,key,buf⟩ := (inv.filed.read k c).mp cached
    exact absurd key (missing c page live (buf ▸ nofun))
  have agree := inv.agree.add (r := r) (o := {key := k,addr := a,ptes := .null,buf := some b,dirty := false})
    (fun p => not_mem_nil) pages unused
  simp only [State.mapArcBuf,empty,if_true]
  exact ⟨inv.ran,agree,inv.filed.mapArcBuf free empty rfl zero,
    inv.facts.grow (knownAdd _ rfl) (.inl nofun) unused unseen rfl rfl rfl rfl⟩

end

lemma Facts.reflag (facts : Facts s points) (known : ∀ k a b, Known s' k a b → Known s k a b)
    (pte : ∀ p, (s'.pte p).map addr = (s.pte p).map addr) (phase : s'.phase = s.phase)
    (lock : s'.writeLock = s.writeLock) (cache : s'.writeCache = s.writeCache) : Facts s' points where
  still p idle := by
    rw [pte]
    exact facts.still p fun u => phase ▸ idle u
  calls u := by
    rw [phase]
    exact (facts.calls u).frame known (fun _ => ⟨lock,cache⟩) (fun q _ _ free v => phase ▸ free v) fun q _ => ⟨pte q,rfl⟩
  alone := phase ▸ facts.alone
  apart k w a b p cached fixed there :=
    facts.apart k w a b p (cache ▸ cached) (fun ⟨u,moving⟩ => fixed ⟨u,phase ▸ moving⟩) (known k a (some b) there)

lemma Inv.flushes (inv : Inv cfg s points) (live : s.heap r = some page) (phase : s'.phase = s.phase)
    (lock : s'.writeLock = s.writeLock) (known : ∀ k a b, Known s' k a b → Known s k a b ∧ a ≠ page.addr)
    (pte : ∀ q, s'.pte q = if q ∈ page.ptes.toList then none else s.pte q)
    (points_ : ∀ q, points' q = if q ∈ page.ptes.toList then none else points q)
    (cache : ∀ k w, s'.writeCache k = some w → s.writeCache k = some w)
    (stay : ∀ t k p pte w, s.phase t = .moving k p pte w → s'.writeCache k = s.writeCache k)
    (unwritten : ∀ t p e, s.phase t = .writing p e → p ∉ page.ptes.toList) : Facts s' points' := by
  have facts := inv.facts
  have less : ∀ q, points' q = points q ∨ points' q = none := by
    intro q
    rw [points_]
    split
    · exact .inr rfl
    · exact .inl rfl
  have leaves : ∀ k p old, Leaves s points k p old → Leaves s' points' k p old := by
    rintro k p old ⟨empty,keeps,seen⟩
    refine ⟨by simp [pte,empty],keeps.of (fun k a b there => (known k a b there).1) (less p),?_⟩
    rw [points_]
    split
    next lists =>
      have at_ := (inv.agree.listed r page p live).mp lists
      refine .inr ⟨rfl,fun k a b there eq => (known k a b there).2 ?_⟩
      rcases seen with same | ⟨none,-⟩
      · exact some.inj (eq.symm.trans (same.symm.trans at_))
      · cases none.symm.trans at_
    · exact seen.imp_right fun gone => ⟨gone.1,fun k a b there => gone.2 k a b (known k a b there).1⟩
  have unreleased : ∀ p, Unreleased s p → Unreleased s' p := fun p free u => phase ▸ free u
  constructor
  case still =>
    intro p idle
    rw [pte,points_,facts.still p fun u => phase ▸ idle u]
    split <;> rfl
  case calls =>
    intro u
    have holds := facts.calls u
    rw [phase]
    generalize ph : s.phase u = x at holds ⊢
    cases x with
    | idle result | fetching k p pte => trivial
    | moving k p pte w =>
      obtain ⟨held,cached,free,keeps⟩ := holds
      exact ⟨lock.trans held,(stay u k p pte w ph).trans cached,unreleased p free,
        keeps.of (fun k a b there => (known k a b there).1) (less p)⟩
    | writing p e => ?_
    | releasing k p addr old => exact leaves k p old holds
    | checking k p addr old =>
      refine ⟨leaves k p old holds.1,fun k' a b there at_ => holds.2 k' a b (known k' a b there).1 ?_⟩
      rcases less p with same | none
      · exact same ▸ at_
      · cases none.symm.trans at_
    obtain ⟨held,at_,free,write,behind⟩ := holds
    have unlisted := unwritten u p e ph
    refine ⟨lock.trans held,?_,unreleased p free,fun k b there => write k b (known k e.addr b there).1,?_⟩
    · rw [points_,if_neg unlisted]
      exact at_
    · exact behind.of (fun k a b there => (known k a b there).1) (by rw [pte,if_neg unlisted])
  case alone => exact phase ▸ facts.alone
  intro k w a b p cached fixed there at_
  refine facts.apart k w a b p (cache k w cached) (fun ⟨u,moving⟩ => fixed ⟨u,phase ▸ moving⟩)
    (known k a (some b) there).1 ?_
  rcases less p with same | none
  · exact same ▸ at_
  · cases none.symm.trans at_

section
variable [DecidableEq R]

lemma Inv.purge (inv : Inv cfg s points) (live : s.heap r = some page) (ran : s'.failed = false)
    (heap : s'.heap = update s.heap r none)
    (filed : Filed cfg s'.heap s'.readCache s'.writeCache s'.writeLru s'.arcMap)
    (phase : s'.phase = s.phase) (lock : s'.writeLock = s.writeLock)
    (pte : ∀ q, s'.pte q = if q ∈ page.ptes.toList then none else s.pte q)
    (cache : ∀ k w, s'.writeCache k = some w → s.writeCache k = some w)
    (stay : ∀ t k p pte w, s.phase t = .moving k p pte w → s'.writeCache k = s.writeCache k)
    (unwritten : ∀ t p e, s.phase t = .writing p e → p ∉ page.ptes.toList) :
    ∃ points', Inv cfg s' points' ∧ Drops s s' points points' := by
  have listed := fun q => inv.agree.listed r page q live
  have there : ∀ q other, s'.heap q = some other → q ≠ r ∧ s.heap q = some other := by
    intro q other at_
    rw [heap,update_apply] at at_
    split at at_
    · cases at_
    exact ⟨‹_›,at_⟩
  have known : ∀ k a b, Known s' k a b → Known s k a b ∧ a ≠ page.addr := by
    rintro k a b ⟨q,other,at_,key,addr,buf⟩
    obtain ⟨away,before⟩ := there q other at_
    exact ⟨⟨q,other,before,key,addr,buf⟩,fun same => away (inv.agree.unique q r other page before live (addr.trans same))⟩
  have agree := inv.agree.delete (fun q => if q ∈ page.ptes.toList then none else points q) live
    (fun q lists => if_pos lists) (fun q lists => if_neg lists)
  refine ⟨_,⟨ran,heap ▸ agree,filed,inv.flushes live phase lock known pte (fun q => rfl) cache stay unwritten⟩,?_⟩
  refine ⟨?_,?_,?_,fun q other at_ => (there q other at_).2,phase,lock⟩
  · intro q other p before gone
    rw [heap,update_apply] at gone
    split at gone
    · subst q
      cases live.symm.trans before
      have lists := listed p
      split
      · exact nofun
      · exact fun at_ => absurd (lists.mpr at_) ‹_›
    · cases gone.symm.trans before
  · intro p
    split
    · exact .inr rfl
    · exact .inl rfl
  intro p
  rw [pte]
  split
  · exact .inr ⟨rfl,rfl⟩
  · exact .inl rfl

lemma Inv.drop (inv : Inv cfg s points) (live : s.heap r = some page) (arc : page.buf = some b) :
    ∃ points', Inv cfg (s.dropReadCachedPage r) points' ∧ Drops s (s.dropReadCachedPage r) points points' ∧
      (s.dropReadCachedPage r).heap = update s.heap r none := by
  have eq : s.dropReadCachedPage r = (s.flush page.ptes.toList).deleteRead r page := by simp [dropReadCachedPage,live]
  have unwritten : ∀ t p e, s.phase t = .writing p e → p ∉ page.ptes.toList := by
    intro t p e at_ lists
    have holds := inv.facts.calls t
    rw [at_] at holds
    obtain ⟨-,aim,-,write,-⟩ := holds
    have same := some.inj (((inv.agree.listed r page p live).mp lists).symm.trans aim)
    cases arc.symm.trans (write page.key page.buf ⟨r,page,live,rfl,same,rfl⟩)
  obtain ⟨points',inv',drops⟩ : ∃ points', Inv cfg ((s.flush page.ptes.toList).deleteRead r page) points' ∧
      Drops s ((s.flush page.ptes.toList).deleteRead r page) points points' :=
    inv.purge live inv.ran rfl (inv.filed.deleteRead live arc) rfl rfl (fun _ => rfl) (fun _ _ => id)
      (fun _ _ _ _ _ _ => rfl) unwritten
  rw [eq]
  exact ⟨points',inv',drops,rfl⟩

variable {rest : List R} {w : R}

lemma Inv.evict (inv : Inv cfg s points) (order : s.writeLru = w::rest) (more : rest ≠ [])
    (unwritten : ∀ t p e, s.phase t ≠ .writing p e) (front : ∀ t k p pte v, s.phase t = .moving k p pte v → v = w) :
    ∃ points', Inv cfg s.evict points' ∧ Drops s s.evict points points' ∧ s.evict.writeLru = w::rest.dropLast := by
  obtain ⟨init,r,rfl⟩ : ∃ init r, rest = init ++ [r] := ⟨_,_,(dropLast_append_getLast more).symm⟩
  have order' : s.writeLru = (w::init) ++ [r] := order
  obtain ⟨page,live,buf⟩ := (inv.filed.lru r).mp (by simp [order])
  have apart : w ≠ r := by
    have once := inv.filed.lruOnce
    rw [order',nodup_append] at once
    exact once.2.2 w (.head _) r (.head _)
  have stay : ∀ t k p pte v, s.phase t = .moving k p pte v → update s.writeCache page.key none k = s.writeCache k := by
    intro t k p pte v at_
    have holds := inv.facts.calls t
    rw [at_] at holds
    cases front t k p pte v at_
    refine update_of_ne (fun same => apart ?_) _ _
    have here := (inv.filed.write page.key r).mpr ⟨page,live,rfl,buf⟩
    exact some.inj (holds.2.1.symm.trans (same ▸ here))
  have filed := inv.filed.evict live buf order'
  have fewer : ∀ k v, update s.writeCache page.key none k = some v → s.writeCache k = some v := by
    intro k v cached
    rw [update_apply] at cached
    split at cached
    · cases cached
    exact cached
  obtain ⟨points',inv',drops⟩ : ∃ points', Inv cfg s.evict points' ∧ Drops s s.evict points points' := by
    simp only [evict,order',List.getLast?_concat,dropLast_concat,live]
    exact inv.purge live inv.ran rfl filed rfl rfl (fun _ => rfl) fewer stay (fun t p e at_ => absurd at_ (unwritten t p e))
  refine ⟨points',inv',drops,?_⟩
  simp only [evict,order',List.getLast?_concat,dropLast_concat,live]

lemma Inv.evictLoop (n : Nat) (inv : Inv cfg s points) (order : s.writeLru = w::rest)
    (more : n ≤ rest.length) (unwritten : ∀ t p e, s.phase t ≠ .writing p e)
    (front : ∀ t k p pte v, s.phase t = .moving k p pte v → v = w) :
    ∃ points', Inv cfg (evictLoop n s) points' ∧ Drops s (evictLoop n s) points points' := by
  induction n generalizing s points rest with
  | zero => exact ⟨points,inv,.refl⟩
  | succ n ih => ?_
  have some : rest ≠ [] := fun empty => by simp [empty] at more
  obtain ⟨points1,inv1,drops1,order1⟩ := inv.evict order some unwritten front
  obtain ⟨points2,inv2,drops2⟩ := ih inv1 order1 (by simp; omega) (drops1.phase ▸ unwritten) (drops1.phase ▸ front)
  exact ⟨points2,inv2,drops1.trans drops2⟩

end

section
variable [DecidableEq R]

lemma evictGo (s : State T P R) (next : Phase P R) (lock : Option T) :
    {s.evict.go t next with writeLock := lock} = evict {s.go t next with writeLock := lock} := by
  cases last : s.writeLru.getLast? with
  | none => simp [evict,go,fail,last]
  | some w => cases live : s.heap w <;> simp [evict,go,fail,flush,last,live]

lemma evictLoopGo (n : Nat) (s : State T P R) (next : Phase P R) (lock : Option T) :
    {(evictLoop n s).go t next with writeLock := lock} = evictLoop n {s.go t next with writeLock := lock} := by
  induction n generalizing s with
  | zero => rfl
  | succ n ih => rw [evictLoop,ih,evictGo,evictLoop]

def Goes (cfg : Config) (s s' : State T P R) : Prop :=
  ∃ points, Inv cfg s' points ∧ ∀ r page p, s.heap r = some page → s'.heap r = none → points p ≠ some page.addr

lemma Goes.unmapped (goes : Goes cfg s s') : s'.failed = false ∧ Unmapped s s' := by
  obtain ⟨points,inv,gone⟩ := goes
  refine ⟨inv.ran,fun r page p live dead idle => ?_⟩
  rw [← inv.facts.still p idle]
  exact gone r page p live dead

lemma Inv.same (inv : Inv cfg s' points) (heap : s'.heap = s.heap) : Goes cfg s s' :=
  ⟨points,inv,fun _ _ _ live dead => nomatch (heap ▸ dead).symm.trans live⟩

section
variable {w : R} {pte : Entry}

def State.adds (s : State T P R) (t : T) (k : Key) (p : P) (pte : Entry) (r : R) (a : Nat) : State T P R :=
  {State.go {s.store r {key := k,addr := a,ptes := .null,buf := none,dirty := false} with
      writeCache := update s.writeCache k (some r),writeLru := r::s.writeLru} t (.moving k p pte r) with
    writeLock := some t}

lemma insertAdds (s : State T P R) : {(s.insert cfg r k a).go t (.moving k p pte r) with writeLock := some t} =
    if (s.adds t k p pte r a).writeLru.length > cfg.lruMaxLength then
      evictLoop cfg.lruFreeCount (s.adds t k p pte r a) else s.adds t k p pte r a := by
  have order : (s.adds t k p pte r a).writeLru = r::s.writeLru := rfl
  rw [order]
  simp only [State.insert]
  split
  · exact evictLoopGo cfg.lruFreeCount _ _ _
  · rfl

lemma Inv.adds (inv : Inv cfg s points) (lock : s.writeLock = none) (out : (s.phase t).target = none)
    (nobody : ∀ u, (s.phase u).target ≠ some p) (keeps : Keeps s points k p) (missing : s.writeCache k = none)
    (free : s.heap r = none) (fresh : Fresh cfg s a) (pte : Entry) : Inv cfg (s.adds t k p pte r a) points := by
  have unused := inv.pointsFresh fresh
  obtain ⟨zero,pages,-,unseen⟩ := fresh
  let page : Page P := {key := k,addr := a,ptes := .null,buf := none,dirty := false}
  have known : ∀ k' a' b, Known (s.adds t k p pte r a) k' a' b → Known s k' a' b ∨ a' = a ∧ b = none := knownAdd page rfl
  have grown : Facts (s.store r page) points :=
    inv.facts.grow (knownAdd _ rfl) (.inr (inv.facts.unlocked lock)) unused unseen rfl rfl rfl rfl
  have quiet := Phase.targetMoves out
  have idle := idleAt nobody
  have moving : Moving (s.adds t k p pte r a) k := ⟨t,by simp [State.adds,State.go,Phase.moveKey]⟩
  have steps : Steps (s.store r page) (s.adds t k p pte r a) points points t p (.moving k p pte r) := by
    refine ⟨rfl,fun _ _ _ => id,?_,?_,fun _ _ => ⟨rfl,rfl⟩,fun u _ => nobody u,?_,?_⟩
    · intro k' w cached fixed
      have other : k' ≠ k := fun same => fixed (same ▸ moving)
      exact (update_of_ne other _ _).symm.trans cached
    · exact fun u _ locks => nomatch (inv.facts.unlocked lock u).symm.trans locks
    · exact fun q at_ => nomatch out.symm.trans at_
    · exact fun q at_ => (some.inj at_).symm
  have holds : Holds (s.adds t k p pte r a) points t (.moving k p pte r) := by
    refine ⟨rfl,update_self _ _ _,?_,?_⟩
    · intro u
      simp only [State.adds,State.go,State.store,update_apply]
      split
      · rfl
      exact (idle u).2
    intro k' a' b there at_
    rcases known k' a' b there with old | ⟨rfl,-⟩
    · exact keeps k' a' b old at_
    · exact absurd at_ (unused p)
  refine ⟨inv.ran,?_,inv.filed.insert free missing rfl zero,grown.step steps holds ?_ ?_ ?_⟩
  · exact inv.agree.add (fun q => not_mem_nil) pages unused
  · exact fun _ => inv.facts.still p idle
  · exact fun k a b moves => nomatch quiet.symm.trans moves
  · exact fun k w a b cached fixed there => grown.apart k w a b p cached (steps.fixed quiet fixed) there

lemma Inv.addsEvict (inv : Inv cfg (s.adds t k p pte r a) points) (unlocked : ∀ u, (s.phase u).locks = false) :
    ∃ points', Inv cfg {(s.insert cfg r k a).go t (.moving k p pte r) with writeLock := some t} points' ∧
      Drops (s.adds t k p pte r a) {(s.insert cfg r k a).go t (.moving k p pte r) with writeLock := some t} points points' := by
  rw [insertAdds]
  split
  swap
  · exact ⟨points,inv,.refl⟩
  rename_i long
  have enough : cfg.lruFreeCount ≤ s.writeLru.length := by
    have keeps := cfg.keeps
    simp [State.adds,State.go] at long
    omega
  have phases : ∀ u, u = t ∨ ((s.adds t k p pte r a).phase u).locks = false := by
    intro u
    by_cases same : u = t
    · exact .inl same
    refine .inr ?_
    simp only [State.adds,State.go,State.store,update_of_ne same]
    exact unlocked u
  have here : (s.adds t k p pte r a).phase t = .moving k p pte r := update_self _ _ _
  refine inv.evictLoop (w := r) cfg.lruFreeCount rfl enough ?_ ?_
  · intro u q e at_
    rcases phases u with rfl | free
    · cases here.symm.trans at_
    simp [at_,Phase.locks] at free
  intro u k' q e v at_
  rcases phases u with rfl | free
  · cases here.symm.trans at_
    rfl
  · simp [at_,Phase.locks] at free

section
variable (inv : Inv cfg s points)
include inv

lemma Inv.inserts (lock : s.writeLock = none) (out : (s.phase t).target = none)
    (nobody : ∀ u, (s.phase u).target ≠ some p) (keeps : Keeps s points k p) (missing : s.writeCache k = none)
    (free : s.heap r = none) (fresh : Fresh cfg s a) (pte : Entry) :
    Goes cfg s {(s.insert cfg r k a).go t (.moving k p pte r) with writeLock := some t} := by
  have added := inv.adds lock out nobody keeps missing free fresh pte
  obtain ⟨points',inv',drops⟩ := added.addsEvict (inv.facts.unlocked lock)
  refine ⟨points',inv',fun q other p' live dead => drops.gone q other p' ?_ dead⟩
  have away : q ≠ r := by
    rintro rfl
    cases free.symm.trans live
  exact (update_of_ne away _ _).trans live

lemma Inv.idleLists (idle : Idle s p) (present : s.pte p = some e)
    (live : s.heap r = some page) (same : page.addr = e.addr) : page.Lists p := by
  refine (inv.agree.listed r page p live).mpr ?_
  rw [inv.facts.still p idle,present,same]
  rfl

lemma Inv.mapWrite (cached : s.writeCache k = some w) (keeps : Keeps s points k p)
    (clean : ∀ a b, Known s k a (some b) → points p ≠ some a) (free : Unreleased s p)
    (locks : ∀ u, u ≠ t → (s.phase u).locks = false) (source : ∀ q, (s.phase t).target = some q → q = p)
    (moved : ∀ k a b, (s.phase t).moveKey = some k → ¬ Known s k a (some b)) (idle : Idle s p) (pte : Entry) :
    ∃ page, s.heap w = some page ∧ Inv cfg (s.mapWrite t w p pte) (update points p (some page.addr)) ∧
      ∀ r, s.heap r ≠ none → (s.mapWrite t w p pte).heap r ≠ none := by
  obtain ⟨page,live,key,buf⟩ := (inv.filed.write k w).mp cached
  have only : ∀ q page', s.heap q = some page' → page'.Lists p → q = w := by
    intro q page' there lists
    have same := inv.listsKey keeps there lists
    have at_ := (inv.agree.listed q page' p there).mp lists
    cases buf' : page'.buf
    case some b => exact absurd at_ (clean page'.addr b ⟨q,page',there,same,rfl,buf'⟩)
    have here := (inv.filed.write k q).mpr ⟨page',there,same,buf'⟩
    exact some.inj (here.symm.trans cached)
  have edits := inv.linked live only
  have eq : s.mapWrite t w p pte =
      {(s.store w {page with ptes := page.ptes.add p}).go t (.writing p (pte.modAddr page.addr)) with
        writeLock := some t} := by simp [State.mapWrite,live]
  rw [eq]
  refine ⟨page,live,?_,fun q there => storeStays there⟩
  refine inv.toWrite (e := pte.modAddr page.addr) edits free locks source moved ?_ ?_
  · intro k' b there
    obtain ⟨q,other,at_,rfl,same,rfl⟩ := edits.known k' _ b there
    cases inv.agree.unique q w other page at_ live same
    cases live.symm.trans at_
    exact buf
  rintro old k' present ⟨q,other,at_,-,same,-⟩
  cases only q other at_ (inv.idleLists idle present at_ same)
  cases live.symm.trans at_
  exact same.symm

lemma Inv.onlyRead (keeps : Keeps s points k p) (missing : s.writeCache k = none) {q : R}
    (live : s.heap q = some page) (lists : page.Lists p) : s.readCache k = some q := by
  have key := inv.listsKey keeps live lists
  cases buf : page.buf with
  | none => cases missing.symm.trans ((inv.filed.write k q).mpr ⟨page,live,key,buf⟩)
  | some b => exact (inv.filed.read k q).mpr ⟨page,b,live,key,buf⟩

lemma Inv.readFault (out : (s.phase t).target = none)
    (nobody : ∀ u, (s.phase u).target ≠ some p) (keeps : Keeps s points k p) (missing : s.writeCache k = none)
    (pte : Entry) : Goes cfg s (s.readFault t k p pte true) := by
  simp only [State.readFault]
  rcases cached : s.readCache k with _ | c
  · exact (inv.goes nobody out rfl).same rfl
  obtain ⟨page,b,live,key,arc⟩ := (inv.filed.read k c).mp cached
  have only : ∀ q page', s.heap q = some page' → page'.Lists p → q = c := fun q page' there lists =>
    some.inj ((inv.onlyRead keeps missing there lists).symm.trans cached)
  have edits := inv.linked live only
  simp only [live,writePte,if_true]
  have quiet := Phase.targetMoves out
  refine ⟨_,⟨edits.ran,edits.agree,edits.filed,?_⟩,edits.gone⟩
  refine inv.facts.step (t := t) (p := p) ⟨rfl,edits.known,fun _ _ cached _ => cached,fun _ _ _ => ⟨rfl,rfl⟩,?_,
    fun u _ => nobody u,fun q at_ => (nomatch out.symm.trans at_),nofun⟩ trivial ?_ ?_ ?_
  · exact fun q other => ⟨update_of_ne other _ _,update_of_ne other _ _⟩
  · intro _
    simp [go,modAddr]
  · exact fun k a b moves => nomatch quiet.symm.trans moves
  intro k' w a b' cached' _ there at_
  rw [update_self] at at_
  cases at_
  obtain ⟨q,other,found,rfl,same,-⟩ := edits.known k' page.addr (some b') there
  cases inv.agree.unique q c other page found live same
  cases live.symm.trans found
  rw [key,missing] at cached'
  cases cached'

end

lemma Phase.outTarget (out : ph.Out = true) : ph.target = none := by
  cases ph <;> simp_all [Phase.Out,Phase.target]

lemma Facts.nobody (facts : Facts s points) (lock : s.writeLock = none) (free : Unreleased s p) :
    ∀ u, (s.phase u).target ≠ some p := by
  intro u at_
  have unlocked := facts.unlocked lock u
  have unreleased := free u
  cases ph : s.phase u <;> simp_all [Phase.locks,Phase.target,Phase.releases]

lemma Facts.clean (facts : Facts s points) (lock : s.writeLock = none) (cached : s.writeCache k = some w)
    (there : Known s k a (some b)) : points p ≠ some a := by
  refine facts.apart k w a b p cached ?_ there
  rintro ⟨u,moving⟩
  have unlocked := facts.unlocked lock u
  cases ph : s.phase u <;> simp_all [Phase.locks,Phase.moveKey]

lemma Inv.toCopy (inv : Inv cfg s points) (edits : Edits cfg s s' (update points p (some a)))
    (lock : s.writeLock = none) (out : (s.phase t).target = none) (free : Unreleased s p)
    (away : ∀ r page, s.heap r = some page → page.addr ≠ a)
    (unlisted : ∀ r page, s.heap r = some page → page.buf = none → ¬ page.Lists p) (pte : Entry) :
    Goes cfg s {s'.go t (.writing p (pte.modAddr a)) with writeLock := some t} := by
  have idle := idleAt (inv.facts.nobody lock free)
  refine ⟨_,inv.toWrite (e := pte.modAddr a) edits free (fun u _ => inv.facts.unlocked lock u) ?_ ?_ ?_ ?_,edits.gone⟩
  · exact fun q at_ => nomatch out.symm.trans at_
  · exact fun k a b moves => nomatch (Phase.targetMoves out).symm.trans moves
  · intro k b there
    obtain ⟨r,page,live,-,same,-⟩ := edits.known k a b there
    exact absurd same (away r page live)
  rintro old k present ⟨r,page,live,-,same,buf⟩
  exact absurd (inv.idleLists idle present live same) (unlisted r page live buf)

variable {won : Bool}

section
variable (inv : Inv cfg s points)
include inv

lemma Inv.get (out : (s.phase t).Out = true) (lock : s.writeLock = none)
    (pte : Entry) {write shared : Bool} (unused : write = true → s.heap r = none)
    (allowed : Allowed cfg s (.get t k p pte write shared r a won)) :
    Goes cfg s (s.get cfg t k p pte write shared r a won) := by
  obtain ⟨owned,free,rfl,fresh,private_⟩ := allowed
  have out := Phase.outTarget out
  have nobody := inv.facts.nobody lock free
  have keeps := inv.keeps owned (idleAt nobody)
  have quiet := Phase.targetMoves out
  simp only [State.get]
  rcases cached : s.writeCache k with _ | w
  · rcases write with _ | _
    · exact inv.readFault out nobody keeps cached pte
    have fresh := fresh rfl
    cases shared
    case true => exact inv.inserts lock out nobody keeps cached (unused rfl) fresh pte
    have away : ∀ r page, s.heap r = some page → some a ≠ some page.addr := fun r page live same =>
      fresh.2.1 r page live (some.inj same).symm
    simp only [if_true,false_eq_true,if_false,removeReadMappingAt]
    rcases arc : s.readCache k with _ | c
    · have unlisted : ∀ r page, s.heap r = some page → ¬ page.Lists p := fun r page live lists =>
        nomatch arc.symm.trans (inv.onlyRead keeps cached live lists)
      exact inv.toCopy (inv.aimed (some a) unlisted away) lock out free fresh.2.1 (fun r page live _ => unlisted r page live) pte
    obtain ⟨page,b,live,key,buf⟩ := (inv.filed.read k c).mp arc
    have mine := (private_ rfl rfl).2 cached c arc page live
    have unlisted : ∀ r page, s.heap r = some page → page.buf = none → ¬ page.Lists p := by
      intro q other there write lists
      cases inv.agree.only live mine there lists
      cases live.symm.trans there
      cases write.symm.trans buf
    exact inv.toCopy (inv.removed (some a) live buf mine away) lock out free fresh.2.1 unlisted pte
  have maps : Goes cfg s (s.mapWrite t w p (pte.markCow (!shared))) := by
    obtain ⟨page,live,inv',stays⟩ := inv.mapWrite (t := t) cached keeps
      (fun a b there => inv.facts.clean lock cached there) free (fun u _ => inv.facts.unlocked lock u)
      (fun q at_ => nomatch out.symm.trans at_) (fun k a b moves => nomatch quiet.symm.trans moves)
      (idleAt nobody) (pte.markCow (!shared))
    exact ⟨_,inv',fun q other p live dead => absurd dead (stays q (live ▸ nofun))⟩
  rcases write with _ | _
  · exact maps
  cases shared
  case true => exact maps
  have fresh := fresh rfl
  have away : ∀ r page, s.heap r = some page → some a ≠ some page.addr := fun r page live same =>
    fresh.2.1 r page live (some.inj same).symm
  have unlisted : ∀ r page, s.heap r = some page → ¬ page.Lists p := by
    intro q page live lists
    have key := inv.listsKey keeps live lists
    cases buf : page.buf
    case some b => exact inv.facts.clean lock cached ⟨q,page,live,key,rfl,buf⟩ ((inv.agree.listed q page p live).mp lists)
    have here := (inv.filed.write k q).mpr ⟨page,live,key,buf⟩
    exact (private_ rfl rfl).1 q here page live lists
  exact inv.toCopy (inv.aimed (some a) unlisted away) lock out free fresh.2.1 (fun r page live _ => unlisted r page live) pte

lemma Inv.fetched (at_ : s.phase t = .fetching k p pte) (lock : s.writeLock = none)
    {hole : Bool} (allowed : Allowed cfg s (.fetched t hole won)) :
    Goes cfg s (s.fetched cfg t k p pte hole won) := by
  simp only [Allowed,at_] at allowed
  obtain ⟨owned,free,rfl,unmapped⟩ := allowed
  have out : (s.phase t).target = none := by simp [at_,Phase.target]
  have nobody := inv.facts.nobody lock free
  have idle := idleAt nobody
  simp only [fetched]
  cases cached : s.writeCache k
  case some w => exact (inv.goes nobody out rfl).same rfl
  rcases hole with _ | _
  · exact inv.readFault out nobody (inv.keeps owned idle) cached pte
  have unlisted : ∀ r page, s.heap r = some page → ¬ page.Lists p := by
    intro q page live lists
    have aim := (inv.agree.listed q page p live).mp lists
    rw [inv.facts.still p idle] at aim
    obtain ⟨e,present,same⟩ := map_eq_some_iff.mp aim
    exact unmapped rfl e present q page live same.symm
  exact inv.toCopy (inv.aimed _ unlisted fun r page live same => inv.filed.zero r page live (some.inj same).symm)
    lock out free inv.filed.zero (fun r page live _ => unlisted r page live) (pte.markCow true)

lemma Inv.dropped (k : Key) :
    ∃ points', Inv cfg (s.dropReadCachedPageAt k) points' ∧ Drops s (s.dropReadCachedPageAt k) points points' ∧
      ∀ a b, ¬ Known (s.dropReadCachedPageAt k) k a (some b) := by
  unfold dropReadCachedPageAt
  rcases cached : s.readCache k with _ | c
  · refine ⟨points,inv,.refl,?_⟩
    rintro a b ⟨q,page,live,key,-,buf⟩
    cases cached.symm.trans ((inv.filed.read k q).mpr ⟨page,b,live,key,buf⟩)
  obtain ⟨page,b,live,key,arc⟩ := (inv.filed.read k c).mp cached
  obtain ⟨points',inv',drops,heap⟩ := inv.drop live arc
  refine ⟨points',inv',drops,?_⟩
  rintro a b' ⟨q,other,there,key',-,buf⟩
  have here := (inv.filed.read k q).mpr ⟨other,b',drops.pages q other there,key',buf⟩
  cases cached.symm.trans here
  simp [heap] at there

lemma Inv.moved (at_ : s.phase t = .moving k p pte w) : Goes cfg s (s.moved t k p pte w) := by
  unfold State.moved
  obtain ⟨points1,inv1,drops,empty⟩ := inv.dropped k
  generalize s.dropReadCachedPageAt k = s1 at inv1 drops empty ⊢
  have at1 : s1.phase t = .moving k p pte w := drops.phase ▸ at_
  have holds := inv1.facts.calls t
  rw [at1] at holds
  obtain ⟨held,cached,free,keeps⟩ := holds
  have unlocked : ∀ u, u ≠ t → (s1.phase u).locks = false := fun u other =>
    eq_false_iff.mpr fun locks => other (some.inj ((inv1.facts.holder locks).symm.trans held))
  have idle1 : Idle s1 p := by
    refine fun u => ⟨?_,free u⟩
    by_cases same : u = t
    · rw [same,at1]
      rfl
    have locks := unlocked u same
    cases ph : s1.phase u <;> simp_all [Phase.locks,Phase.writes]
  obtain ⟨page,live,inv2,stays⟩ := inv1.mapWrite (t := t) cached keeps (fun a b there => absurd there (empty a b)) free
    unlocked (fun q aim => by simpa [at1,Phase.target] using aim.symm)
    (fun k' a b moves there => by
      simp only [at1,Phase.moveKey,some.injEq] at moves
      exact empty a b (moves ▸ there)) idle1 (pte.markCow false)
  refine ⟨_,inv2,fun q other p' before dead => ?_⟩
  have gone : s1.heap q = none := by
    cases there : s1.heap q with
    | none => rfl
    | some x => exact absurd dead (stays q (there ▸ nofun))
  rw [update_apply]
  split
  · intro same
    have apart := inv.agree.unique w q page other (drops.pages w page live) before (some.inj same)
    subst apart
    cases gone.symm.trans live
  · exact drops.gone q other p' before gone

end

lemma Leaves.lists (leaves : Leaves s points k p old) (inv : Inv cfg s points)
    (live : s.heap r = some page) (same : old.map addr = some page.addr) : page.Lists p := by
  refine (inv.agree.listed r page p live).mpr ?_
  rcases leaves.seen with eq | ⟨-,gone⟩
  · exact eq.trans same
  · exact absurd same (gone page.key page.addr page.buf ⟨r,page,live,rfl,rfl,rfl⟩)

lemma Inv.unmapWrite (inv : Inv cfg s points) {addr : Nat}
    (at_ : s.phase t = .releasing k p addr old) : Goes cfg s (s.unmapWrite t k p addr old) := by
  have leaves := inv.facts.calls t
  rw [at_] at leaves
  simp only [State.unmapWrite]
  rcases cached : s.writeCache k with _ | w
  · exact (inv.checks at_ fun w page found => nomatch cached.symm.trans found).same rfl
  obtain ⟨page,live,key,buf⟩ := (inv.filed.write k w).mp cached
  simp only [live]
  split
  next same =>
    have mine := leaves.lists inv live same
    obtain ⟨rest,n,eq,drops,-⟩ := PtepList.removeMem mine
    simp only [eq]
    have edits := inv.unlinked none {page with ptes := rest,dirty := page.dirty || old.any dirty} live mine
      rfl rfl rfl drops (fun _ _ _ => nofun)
    exact ⟨_,inv.left edits (by simp [at_,Phase.releases]) leaves.empty _,edits.gone⟩
  next differ =>
    refine (inv.checks at_ fun v other found there => ?_).same rfl
    cases cached.symm.trans found
    cases live.symm.trans there
    exact differ

lemma Inv.unmapRead (inv : Inv cfg s points) {addr : Nat}
    (at_ : s.phase t = .checking k p addr old) : Goes cfg s (s.unmapRead cfg t k p addr old) := by
  have holds := inv.facts.calls t
  rw [at_] at holds
  obtain ⟨leaves,arcOnly⟩ := holds
  have mine : (s.phase t).releases p = true := by simp [at_,Phase.releases]
  -- a page that still lists the pte is the one of the ARC, and has the address that was seen
  have found : ∀ q page, s.heap q = some page → page.Lists p →
      s.readCache k = some q ∧ old.map Entry.addr = some page.addr := by
    intro q page live lists
    have aim := (inv.agree.listed q page p live).mp lists
    have key := inv.listsKey leaves.keeps live lists
    have arc := arcOnly page.key page.addr page.buf ⟨q,page,live,rfl,rfl,rfl⟩ aim
    obtain ⟨b,buf⟩ := ne_none_iff_exists'.mp arc
    refine ⟨(inv.filed.read k q).mpr ⟨page,b,live,key,buf⟩,?_⟩
    rcases leaves.seen with eq | ⟨eq,-⟩
    · exact eq.symm.trans aim
    · cases eq.symm.trans aim
  simp only [State.unmapRead]
  rcases cached : s.readCache k with _ | c
  · have edits := inv.aimed none (fun q page live lists => nomatch cached.symm.trans (found q page live lists).1)
      (fun _ _ _ => nofun)
    exact ⟨_,inv.left edits mine leaves.empty _,edits.gone⟩
  obtain ⟨page,b,live,key,buf⟩ := (inv.filed.read k c).mp cached
  simp only [live]
  split
  next same =>
    have edits := inv.removed none live buf (leaves.lists inv live same) (fun _ _ _ => nofun)
    exact ⟨_,inv.left edits mine leaves.empty _,edits.gone⟩
  rename_i differ
  have edits := inv.aimed none (fun q other there lists => by
    obtain ⟨here,seen⟩ := found q other there lists
    cases cached.symm.trans here
    cases live.symm.trans there
    exact differ seen) (fun _ _ _ => nofun)
  exact ⟨_,inv.left edits mine leaves.empty _,edits.gone⟩

lemma Inv.dropAll (rs : List R) (inv : Inv cfg s points) (once : rs.Nodup)
    (arcs : ∀ r ∈ rs, ∃ page b, s.heap r = some page ∧ page.buf = some b) :
    ∃ points', Inv cfg (rs.foldl dropReadCachedPage s) points' ∧ Drops s (rs.foldl dropReadCachedPage s) points points' := by
  induction rs generalizing s points with
  | nil => exact ⟨points,inv,.refl⟩
  | cons r rs ih => ?_
  obtain ⟨apart,once⟩ := nodup_cons.mp once
  obtain ⟨page,b,live,arc⟩ := arcs r (.head _)
  obtain ⟨points1,inv1,drops1,heap⟩ := inv.drop live arc
  have rest : ∀ q ∈ rs, ∃ page b, (s.dropReadCachedPage r).heap q = some page ∧ page.buf = some b := by
    intro q mem
    have other : q ≠ r := fun same => apart (same ▸ mem)
    rw [heap,update_of_ne other]
    exact arcs q (.tail r mem)
  obtain ⟨points2,inv2,drops2⟩ := ih inv1 once rest
  exact ⟨points2,inv2,drops1.trans drops2⟩

lemma Inv.unmapsArcBuf (inv : Inv cfg s points) (b : Nat) :
    ∃ points', Inv cfg (s.unmapArcBuf b) points' ∧ Drops s (s.unmapArcBuf b) points points' := by
  refine inv.dropAll ((s.arcMap.filter (·.1 = b)).map (·.2)) (inv.filed.arcOnce.sublist (filter_sublist.map _)) ?_
  intro r mem
  obtain ⟨⟨b',r'⟩,entry,rfl⟩ := mem_map.mp mem
  obtain ⟨page,live,buf⟩ := (inv.filed.arc b' r').mp (mem_of_mem_filter entry)
  exact ⟨page,b',live,buf⟩

end

/-- Nothing is cached or mapped. -/
structure Start (s : State T P R) : Prop where
  ran : s.failed = false
  pte : ∀ p, s.pte p = none
  heap : ∀ r, s.heap r = none
  readCache : ∀ k, s.readCache k = none
  writeCache : ∀ k, s.writeCache k = none
  writeLru : s.writeLru = []
  arcMap : s.arcMap = []
  phase : ∀ t, s.phase t = .idle none

lemma Start.inv (start : Start s) : Inv cfg s fun _ => none := by
  obtain ⟨ran,pte,heap,readCache,writeCache,writeLru,arcMap,phase⟩ := start
  have unknown : ∀ k a b, ¬ Known s k a b := fun k a b ⟨r,page,live,_⟩ => nomatch (heap r).symm.trans live
  refine ⟨ran,?_,?_,?_⟩
  · constructor <;> simp [heap]
  · constructor <;> simp [heap,readCache,writeCache,writeLru,arcMap]
  constructor
  case still => simp [pte]
  case calls => simp [phase,Holds]
  case alone => simp [phase,Phase.releases]
  case apart => simp [writeCache]

lemma Inv.step (inv : Inv cfg s points) {act : Act T P R} (allowed : Allowed cfg s act)
    (taken : step cfg s act = some s') : Goes cfg s s' := by
  unfold PageCache.step at taken
  rw [if_neg (ne_true_of_eq_false inv.ran)] at taken
  cases act <;> dsimp only at taken
  case unmapArcBuf b =>
    cases taken
    obtain ⟨points',inv',drops⟩ := inv.unmapsArcBuf b
    exact ⟨points',inv',drops.gone⟩
  case touch p =>
    cases taken
    refine Inv.same ⟨inv.ran,inv.agree,inv.filed,inv.facts.reflag (fun _ _ _ => id) (fun q => ?_) rfl rfl rfl⟩ rfl
    simp only [update_apply]
    split
    next same => cases at_ : s.pte p <;> simp [same,at_]
    · rfl
  all_goals split at taken <;> try cases taken
  case get.isTrue pte _ _ _ _ _ can => exact inv.get can.1 can.2.1 pte can.2.2 allowed
  case release.isTrue addr out =>
    obtain ⟨owned,idle,unmoved⟩ := allowed
    exact (inv.clears (Phase.outTarget out) owned idle unmoved addr).same rfl
  case mapArcBuf.isTrue b _ _ free =>
    obtain ⟨missing,fresh⟩ := allowed
    exact ⟨points,inv.mapArcBuf free missing fresh b,fun r page p live dead => absurd dead (storeStays (live ▸ nofun))⟩
  next at_ =>
    obtain ⟨lock,taken⟩ := ite_none_right_eq_some.mp taken
    cases taken
    exact inv.fetched at_ lock allowed
  next at_ => exact inv.moved at_
  next at_ =>
    cases allowed
    exact (inv.wrote at_ (some true)).same rfl
  next at_ =>
    obtain ⟨-,taken⟩ := ite_none_right_eq_some.mp taken
    cases taken
    exact inv.unmapWrite at_
  next at_ => exact inv.unmapRead at_

abbrev Reachable (cfg : Config) : State T P R → Prop := Runs.Reach (step cfg) (Allowed cfg) Start

theorem reverseMapKept (reach : Reachable cfg s) :
    Sound s ∧ ∀ act s', Allowed cfg s act → step cfg s act = some s' → Unmapped s s' := by
  obtain ⟨points,inv⟩ : ∃ points, Inv cfg s points := by
    refine @invariant _ _ _ _ _ (fun s => ∃ points, Inv cfg s points) (fun s start => ⟨_,start.inv⟩) ?_ s reach
    rintro s act s' ⟨points,inv⟩ allowed taken
    obtain ⟨points',inv',-⟩ := inv.step allowed taken
    exact ⟨points',inv'⟩
  exact ⟨inv.sound,fun act s' allowed taken => (inv.step allowed taken).unmapped.2⟩

end

end

section
variable (cfg : Config) (s : State (Fin 2) (Fin 2) (Fin 3))

instance (p : Fin 2) : Decidable (Idle s p) := by unfold Idle; infer_instance
instance (p : Fin 2) : Decidable (Unreleased s p) := by unfold Unreleased; infer_instance
instance (k : Key) (p : Fin 2) : Decidable (Owned s k p) := by unfold Owned; infer_instance
instance (a : Nat) : Decidable (Fresh cfg s a) := by unfold Fresh; infer_instance

instance (act : Act (Fin 2) (Fin 2) (Fin 3)) : Decidable (Allowed cfg s act) := by
  cases act
  case fetched t hole won =>
    dsimp only [Allowed]
    cases s.phase t <;> infer_instance
  all_goals
    dsimp only [Allowed]
    infer_instance

end

def nothingCached : State (Fin 2) (Fin 2) (Fin 3) where
  pte _ := none
  heap _ := none
  readCache _ := none
  writeCache _ := none
  writeLru := []
  arcMap := []
  writtenBack := []
  phase _ := .idle none
  writeLock := none
  failed := false

lemma nothingCachedStart : Start nothingCached := by
  constructor <;> intros <;> rfl

def onePage : Config where
  lruMaxLength := 1
  lruFreeCount := 1
  zeroPage := 0
  keeps := by decide

def firstPage : Key := ⟨1,1,0⟩
def secondPage : Key := ⟨1,1,4096⟩
def leaf : Entry := ⟨0,true,false,true⟩

def evictRun : List (Act (Fin 2) (Fin 2) (Fin 3)) :=
  [.get 0 firstPage 0 leaf false true 0 0 true,.mapArcBuf firstPage 7 0 10,.fetched 0 false true,
    .get 1 firstPage 1 leaf false false 0 0 true,.release 0 firstPage 1 10,.unmapWrite 0,.unmapRead 0,
    .get 0 firstPage 0 leaf true true 1 11 true,.moved 0,.write 0 true,
    .get 1 secondPage 1 leaf true true 2 12 true,.moved 1,.write 1 true]

lemma evictReachable : Reachable onePage (final (step onePage) (Allowed onePage) nothingCached evictRun) :=
  reachFinal evictRun nothingCachedStart (by decide)

theorem reverseMapKeptEvicted :
    let s := final (step onePage) (Allowed onePage) nothingCached evictRun
    s.pte 0 = none ∧ (s.pte 1).map Entry.addr = some 12 ∧ s.writtenBack = [firstPage] ∧ Sound s :=
  ⟨by decide,by decide,by decide,(reverseMapKept evictReachable).1⟩

def staleRun : List (Act (Fin 2) (Fin 2) (Fin 3)) :=
  [.get 0 firstPage 0 leaf true true 0 11 true,.moved 0,.write 0 true,
    .get 1 firstPage 1 leaf false false 1 0 true,.write 1 true,
    .get 1 firstPage 1 leaf true false 1 12 true,.write 1 true]

def otherRun : List (Act (Fin 2) (Fin 2) (Fin 3)) :=
  [.get 0 firstPage 0 leaf false false 0 0 true,.mapArcBuf firstPage 7 0 10,.fetched 0 false true]

def otherFault : Act (Fin 2) (Fin 2) (Fin 3) := .get 1 firstPage 1 leaf true false 1 12 true

def assertRun : List (Act (Fin 2) (Fin 2) (Fin 3)) :=
  [.get 0 firstPage 0 leaf false false 0 0 true,.mapArcBuf firstPage 7 0 10,otherFault]

abbrev ran (run : List (Act (Fin 2) (Fin 2) (Fin 3))) : State (Fin 2) (Fin 2) (Fin 3) :=
  Runs.final (step onePage) (fun _ _ => True) nothingCached run

lemma ranReach {run : List (Act (Fin 2) (Fin 2) (Fin 3))}
    (taken : (replay (guarded (step onePage) fun _ _ => True) nothingCached run).isSome = true) :
    Reach (step onePage) (fun _ _ => True) Start (ran run) :=
  reachFinal run nothingCachedStart taken

theorem reverseMapBroken : (Reach (step onePage) (fun _ _ => True) Start (ran staleRun) ∧ Idle (ran staleRun) 1 ∧
      ((ran staleRun).pte 1).map Entry.addr = some 12 ∧
      ∃ page ∈ (ran staleRun).heap 0, page.addr = 11 ∧ page.Lists 1) ∧
    (Reach (step onePage) (fun _ _ => True) Start (ran (otherRun ++ [otherFault])) ∧
      (∃ page ∈ (ran otherRun).heap 0, page.addr = 10) ∧ (ran (otherRun ++ [otherFault])).heap 0 = none ∧
      Idle (ran (otherRun ++ [otherFault])) 0 ∧ ((ran (otherRun ++ [otherFault])).pte 0).map Entry.addr = some 10) ∧
    Reach (step onePage) (fun _ _ => True) Start (ran assertRun) ∧ (ran assertRun).failed = true := by
  refine ⟨⟨ranReach (by decide),by decide,by decide,?_⟩,⟨ranReach (by decide),?_,
    by decide,by decide,by decide⟩,ranReach (by decide),by decide⟩
  · exact ⟨⟨firstPage,11,.set [1,0],none,false⟩,by decide,rfl,by decide⟩
  · exact ⟨⟨firstPage,10,.one 0,some 7,false⟩,by decide,rfl⟩

end OsvKernel.PageCache
