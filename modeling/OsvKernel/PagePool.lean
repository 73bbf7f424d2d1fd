import OsvKernel.PageRangeRuns

/-! The page pools over the page range allocator: a buffer of pages for each CPU,
a global stack of batches, and the free page ranges behind it. A batch is stored
in one of its own pages, so the stack holds page numbers and `mem` says what such
a page contains. A thread that has passed a test, or holds a batch, while others
run is a flight. -/
namespace OsvKernel.PagePool
open List Option Runs Nat Blocks
open PageRange (freeBlocks World QuietFree blank blocksOf Live)
open Function

def l1Max : Nat := 512
def nrPages : Nat := 32

inductive Flight (n : Nat) where
  | refilling (c : Fin n)
  | popped (c : Fin n) (pb : Nat)
  | filling (c : Fin n) (pb : Nat)
  | returning (pb : Nat)
  | counting
  | taking
  | storing (batch : List (Option Nat))
  | dropping (batch : List (Option Nat))
  | releasing (batch : List (Option Nat))
  deriving DecidableEq

structure State (n : Nat) where
  world : World
  freeMemory : Nat
  buffer : Fin n → List (Option Nat)
  stack : List Nat
  mem : Nat → List (Option Nat)
  nr : Nat
  flights : List (Flight n)
  users : List Nat

variable {n : Nat}

-- _max, the capacity of the fixed-size stack.
def l2Max (n : Nat) : Nat := n * (l1Max / nrPages)

-- fetch_sub and fetch_add on 64 bits.
def onAlloc (m size : Nat) : Nat := if size ≤ m then m - size else m + 2^64 - size
def onFree (m size : Nat) : Nat := (m + size) % 2^64
def incNr (nr : Nat) : Nat := (nr + 1) % 2^64
def decNr (nr : Nat) : Nat := if nr = 0 then 2^64-1 else nr-1
def single (p : Nat) : Live := ⟨⟨p,1⟩,false⟩

def takePages : Nat → World → World × List (Option Nat)
  | 0,w => (w,[])
  | k+1,w =>
    match PageRange.alloc true w.st 1 with
    | none => let r := takePages k w; (r.1,none::r.2)
    | some (t,a) => let r := takePages k { w with st := t, live := single a::w.live }; (r.1,some a::r.2)

-- assert(v != nullptr) before each page is freed.
def freePages (stray : Nat → Bool) : List (Option Nat) → World × Nat → Option (World × Nat)
  | [],r => some r
  | none::_,_ => none
  | some v::rest,(w,m) => do
    let w ← PageRange.exec w (.free (single v) stray)
    freePages stray rest (w,onFree m 4096)

inductive Op (n : Nat) where
  | allocPageLocal (c : Fin n)
  | freePageLocal (c : Fin n) (v : Nat)
  | l1Refill (c : Fin n)
  | tryAllocPageBatch (c : Fin n)
  | refillDecNr (c : Fin n) (pb : Nat)
  | refillPush (c : Fin n) (pb : Nat)
  | l1Unfill (c : Fin n)
  | tryFreePageBatch (pb : Nat)
  | incNr
  | l2Refill
  | allocBatch
  | storeBatch (batch : List (Option Nat))
  | l2Unfill
  | unfillDecNr (batch : List (Option Nat))
  | freeBatch (batch : List (Option Nat)) (stray : Nat → Bool)
  | write (v : Nat) (content : List (Option Nat))

def land (s : State n) (f : Flight n) (more : List (Flight n)) : State n :=
  { s with flights := more ++ s.flights.erase f }

def exec (s : State n) : Op n → Option (State n)
  | .allocPageLocal c =>
    match s.buffer c with
    | [] => some s
    | page::rest => some { s with buffer := update s.buffer c rest, users := page.toList ++ s.users }
  | .freePageLocal c v =>
    if (s.buffer c).length = l1Max then some s
    else some { s with buffer := update s.buffer c (some v::s.buffer c), users := s.users.erase v }
  | .l1Refill c =>
    if (s.buffer c).length + nrPages < l1Max/2 then some { s with flights := .refilling c::s.flights } else some s
  | .tryAllocPageBatch c =>
    match s.stack with
    | [] => some s
    | pb::rest => some (land { s with stack := rest } (.refilling c) [.popped c pb])
  | .refillDecNr c pb => some (land { s with nr := decNr s.nr } (.popped c pb) [.filling c pb])
  | .refillPush c pb =>
    if (s.buffer c).length + nrPages ≤ l1Max then
      some (land { s with buffer := update s.buffer c ((s.mem pb).reverse ++ s.buffer c) } (.filling c pb) [])
    else some (land s (.filling c pb) [.returning pb])
  | .l1Unfill c =>
    if (s.buffer c).length > nrPages + l1Max/2 then
      match s.buffer c with
      | some pb::_ => some { s with
        buffer := update s.buffer c ((s.buffer c).drop nrPages)
        mem := update s.mem pb ((s.buffer c).take nrPages)
        flights := .returning pb::s.flights }
      | _ => none
    else some s
  | .tryFreePageBatch pb =>
    if s.stack.length < l2Max n then some (land { s with stack := pb::s.stack } (.returning pb) [.counting])
    else some s
  | .incNr => some (land { s with nr := incNr s.nr } .counting [])
  | .l2Refill => if s.nr < l2Max n / 2 then some { s with flights := .taking::s.flights } else some s
  | .allocBatch =>
    let r := takePages nrPages s.world
    some (land { s with world := r.1, freeMemory := onAlloc s.freeMemory (nrPages*4096) } .taking [.storing r.2])
  | .storeBatch batch =>
    match batch.getLast? with
    | some (some pb) =>
      let s := { s with mem := update s.mem pb batch }
      if s.stack.length < l2Max n then
        some (land { s with stack := pb::s.stack } (.storing batch) [.counting])
      else some (land s (.storing batch) [.releasing batch])
    | _ => none
  | .l2Unfill =>
    if s.nr > l2Max n / 2 then
      match s.stack with
      | [] => some s
      | pb::rest => some { s with stack := rest, flights := .dropping (s.mem pb)::s.flights }
    else some s
  | .unfillDecNr batch => some (land { s with nr := decNr s.nr } (.dropping batch) [.releasing batch])
  | .freeBatch batch stray => do
    let (w,m) ← freePages stray batch (s.world,s.freeMemory)
    some (land { s with world := w, freeMemory := m } (.releasing batch) [])
  | .write v content => some { s with mem := update s.mem v content }

/-- A step of a flight needs that flight; a page is freed, and written to, by its user. -/
def Legal (s : State n) : Op n → Prop
  | .freePageLocal _ v => v ∈ s.users
  | .tryAllocPageBatch c => .refilling c ∈ s.flights
  | .refillDecNr c pb => .popped c pb ∈ s.flights
  | .refillPush c pb => .filling c pb ∈ s.flights
  | .tryFreePageBatch pb => .returning pb ∈ s.flights
  | .incNr => .counting ∈ s.flights
  | .allocBatch => .taking ∈ s.flights
  | .storeBatch batch => .storing batch ∈ s.flights
  | .unfillDecNr batch => .dropping batch ∈ s.flights
  | .freeBatch batch _ => .releasing batch ∈ s.flights
  | .write v _ => v ∈ s.users
  | _ => True

variable {p q v pb : Nat} {w : World} {stray : Nat → Bool} {s : State n} {content rest : List (Option Nat)}
  {mem : Nat → List (Option Nat)} {f : Flight n} {flights : List (Flight n)} {stack : List Nat} {c : Fin n} {mem : Nat → List (Option Nat)}

open Flight

lemma singleInj : single p = single q ↔ p = q := by
  simp [single]

lemma countSingle {live : List Live} :
    (single p::live).count (single q) = live.count (single q) + [some p].count (some q) := by
  by_cases same : p = q
  · subst p
    simp
  have ne := mt singleInj.mp same
  simp [ne,same]

structure Taken (w w' : World) (batch : List (Option Nat)) (k : Nat) : Prop where
  inv : PageRange.Inv w'
  length : batch.length = k
  full : none ∉ batch
  live : ∀ q, w'.live.count (single q) = w.live.count (single q) + batch.count (some q)
  total : total (freeBlocks w'.st) + k = total (freeBlocks w.st)

lemma freeTotal {w' : World} {c : Block} (before : PageRange.Inv w) (now : PageRange.Inv w')
    (book : PageRange.Book w.st w'.st) (added : w'.added = w.added)
    (moved : ∀ q, cover (blocksOf w'.live) q = cover (blocksOf w.live) q + hits c q) :
    total (freeBlocks w'.st) + c.len = total (freeBlocks w.st) := by
  have same : ∀ q, cover (c::freeBlocks w'.st) q = cover (freeBlocks w.st) q := by
    intro q
    have old := (before.counted q).1
    have new := (now.counted q).1
    have step := moved q
    rw [book.bitmapLive,added] at new
    rw [coverCons]
    omega
  have size := totalOfCover same
  rw [totalCons] at size
  omega

lemma allocOne (h : PageRange.Inv w) (room : 0 < total (freeBlocks w.st)) :
    ∃ t a, PageRange.alloc true w.st 1 = some (t,a) ∧ Taken w { w with st := t, live := single a::w.live } [some a] 1 := by
  obtain ⟨b,mem⟩ : ∃ b, b ∈ PageRange.headers w.st := by
    cases none : PageRange.headers w.st with
    | nil => simp [freeBlocks,none,total] at room
    | cons b rest => exact ⟨b,.head _⟩
  obtain ⟨c,a,chosen⟩ := h.held.shape.chooseOne mem
  obtain ⟨t,got⟩ : ∃ t, PageRange.alloc true w.st 1 = some (t,a) := by
    unfold PageRange.alloc
    rw [chosen]
    exact ⟨_,rfl⟩
  have book := (h.held.alloc one_pos got).2.1
  have taken : PageRange.exec w (.alloc 1) = some { w with st := t, live := single a::w.live } := by
    rw [PageRange.exec,got]
    rfl
  have legal : PageRange.Legal w (.alloc 1) := one_pos
  have now := PageRange.stepInv h legal trivial taken
  refine ⟨t,a,got,now,rfl,by simp,fun q => countSingle,?_⟩
  refine freeTotal (c := ⟨a,1⟩) h now book rfl (fun q => ?_)
  rw [PageRange.blocksOfCons,coverCons,add_comm]
  rfl

lemma takePagesTaken {k : Nat} (h : PageRange.Inv w)
    (enough : k ≤ total (freeBlocks w.st)) : Taken w (takePages k w).1 (takePages k w).2 k := by
  induction k generalizing w with
  | zero => exact ⟨h,rfl,by simp [takePages],by simp [takePages],rfl⟩
  | succ k ih => ?_
  obtain ⟨t,a,got,one⟩ := allocOne h (by omega)
  have less := one.total
  have rest := ih one.inv (by omega)
  unfold takePages
  rw [got]
  dsimp only
  refine ⟨rest.inv,by rw [length_cons,rest.length],?_,fun q => ?_,?_⟩
  · rw [mem_cons,not_or]
    exact ⟨by simp,rest.full⟩
  · have split : (some a::(takePages k { w with st := t, live := single a::w.live }).2).count (some q) =
      (takePages k { w with st := t, live := single a::w.live }).2.count (some q) + [some a].count (some q) := by
      rw [count_cons,count_singleton]
    rw [split,rest.live q,one.live q]
    omega
  have more := rest.total
  omega

structure Freed (w w' : World) (batch : List (Option Nat)) : Prop where
  inv : PageRange.Inv w'
  nbits : w'.st.nbits = w.st.nbits
  live : ∀ q, w'.live.count (single q) + batch.count (some q) = w.live.count (single q)
  total : total (freeBlocks w'.st) = total (freeBlocks w.st) + batch.length

lemma freeTotalLt (h : PageRange.Inv w) : total (freeBlocks w.st) < 2^32 := by
  refine lt_of_le_of_lt (totalLe (n := w.st.nbits) (fun b mem => ?_) (fun q => ?_)) h.held.tags.small
  · obtain ⟨a,header,rfl⟩ := mem_map.mp mem
    exact h.held.headerRoom header
  have := h.counted q
  omega

lemma freeOne (h : PageRange.Inv w) (live : single v ∈ w.live) (quiet : QuietFree w ⟨v,1⟩ stray) :
    ∃ w', PageRange.exec w (.free (single v) stray) = some w' ∧ Freed w w' [some v] := by
  obtain ⟨w',taken⟩ : ∃ w', PageRange.exec w (.free (single v) stray) = some w' := ⟨_,rfl⟩
  have legal : PageRange.Legal w (.free (single v) stray) := live
  have now := PageRange.stepInv h legal quiet taken
  obtain ⟨added,book,moved⟩ := PageRange.freedStep legal rfl taken
  have rest : w'.live = w.live.erase (single v) := by rw [← some.inj taken]
  refine ⟨w',taken,now,book.nbits,fun q => ?_,?_⟩
  · rw [rest,← countSingle]
    exact ((perm_cons_erase live).count_eq _).symm
  have back : PageRange.Book w'.st w.st := ⟨book.nbits.symm,book.store.symm,book.deferred.symm⟩
  exact (freeTotal now h back added.symm moved).symm

lemma freePagesFreed {m : Nat} {batch : List (Option Nat)}
    (h : PageRange.Inv w) (full : none ∉ batch)
    (live : ∀ q, batch.count (some q) ≤ w.live.count (single q))
    (quiet : ∀ v, some v ∈ batch → QuietFree w ⟨v,1⟩ stray)
    (memory : m = 4096 * total (freeBlocks w.st)) :
    ∃ w', freePages stray batch (w,m) = some (w',4096 * total (freeBlocks w'.st)) ∧ Freed w w' batch := by
  induction batch generalizing w m with
  | nil => exact ⟨w,by rw [freePages,memory],h,rfl,by simp,rfl⟩
  | cons page rest ih => ?_
  rcases page with _ | v
  · exact absurd (.head _) full
  have own := live v
  rw [count_cons_self] at own
  obtain ⟨w',taken,one⟩ := freeOne h (count_pos_iff.mp (by omega)) (quiet v (.head _))
  have counted : onFree m 4096 = 4096 * total (freeBlocks w'.st) := by
    have bound := freeTotalLt one.inv
    have grown := one.total
    rw [length_singleton] at grown
    unfold onFree
    rw [memory,mod_eq_of_lt (by omega)]
    omega
  obtain ⟨w'',more,freed⟩ := ih one.inv (mt (.tail _) full) (fun q => by
    have all := live q
    have first := one.live q
    rw [count_cons] at all
    rw [count_singleton] at first
    omega)
    (fun u mem => by
      have calm := quiet u (.tail _ mem)
      unfold QuietFree at calm ⊢
      rwa [one.nbits]) counted
  refine ⟨w'',?_,freed.inv,freed.nbits.trans one.nbits,fun q => ?_,?_⟩
  · rw [freePages,taken]
    exact more
  · have first := one.live q
    have last := freed.live q
    rw [count_cons]
    rw [count_singleton] at first
    omega
  have first := one.total
  have last := freed.total
  rw [length_cons]
  rw [length_singleton] at first
  omega

def Flight.batch (mem : Nat → List (Option Nat)) : Flight n → List (Option Nat)
  | .popped _ pb => mem pb
  | .filling _ pb => mem pb
  | .returning pb => mem pb
  | .storing b => b
  | .dropping b => b
  | .releasing b => b
  | _ => []

def inBuffers (buffer : Fin n → List (Option Nat)) (q : Nat) : Nat :=
  ((List.finRange n).map (fun c => (buffer c).count (some q))).sum

def inStack (mem : Nat → List (Option Nat)) (stack : List Nat) (q : Nat) : Nat :=
  (stack.map (fun pb => (mem pb).count (some q))).sum

def inFlights (mem : Nat → List (Option Nat)) (flights : List (Flight n)) (q : Nat) : Nat :=
  (flights.map (fun f => (f.batch mem).count (some q))).sum

def places (s : State n) (q : Nat) : Nat :=
  s.users.count q + inBuffers s.buffer q + inStack s.mem s.stack q + inFlights s.mem s.flights q

structure Good (batch : List (Option Nat)) : Prop where
  length : batch.length = nrPages
  full : none ∉ batch

structure Stored (mem : Nat → List (Option Nat)) (pb : Nat) : Prop where
  good : Good (mem pb)
  own : some pb ∈ mem pb

def Flight.Ok (mem : Nat → List (Option Nat)) : Flight n → Prop
  | .popped _ pb => Stored mem pb
  | .filling _ pb => Stored mem pb
  | .returning pb => Stored mem pb
  | .storing b => Good b
  | .dropping b => Good b
  | .releasing b => Good b
  | _ => True

structure BufferOk (b : List (Option Nat)) : Prop where
  full : none ∉ b
  bounded : b.length ≤ l1Max

structure Inv (s : State n) : Prop where
  world : PageRange.Inv s.world
  memory : s.freeMemory = 4096 * total (freeBlocks s.world.st)
  owned : ∀ q, places s q ≤ s.world.live.count (single q)
  buffers : ∀ c, BufferOk (s.buffer c)
  stored : ∀ pb ∈ s.stack, Stored s.mem pb
  flights : ∀ f ∈ s.flights, f.Ok s.mem

lemma countLeCover (live : List Live) (q : Nat) : live.count (single q) ≤ cover (blocksOf live) q := by
  induction live with
  | nil => exact le_refl 0
  | cons b live ih => ?_
  rw [count_cons,PageRange.blocksOfCons,coverCons]
  split
  next same =>
    rw [eq_of_beq same]
    have one : hits (single q).block q = 1 := hitsOfHas (hasMk.mpr ⟨le_refl q,lt_succ_self q⟩)
    omega
  · omega

lemma Inv.once (h : Inv s) (q : Nat) : places s q + cover (freeBlocks s.world.st) q ≤ 1 := by
  have own := h.owned q
  have live := countLeCover s.world.live q
  have total := h.world.counted q
  omega

lemma inBuffersUpdate (buffer : Fin n → List (Option Nat)) (c : Fin n) (b : List (Option Nat)) (q : Nat) :
    inBuffers (update buffer c b) q + (buffer c).count (some q) = inBuffers buffer q + b.count (some q) :=
  Buckets.sumUpdate (fun l => l.count (some q)) b (nodup_finRange n) (mem_finRange c)

lemma inBuffersLe (buffer : Fin n → List (Option Nat)) (c : Fin n) (q : Nat) :
    (buffer c).count (some q) ≤ inBuffers buffer q :=
  single_le_sum (by simp) _ (mem_map.mpr ⟨c,mem_finRange c,rfl⟩)

@[simp] lemma inStackCons (mem : Nat → List (Option Nat)) (pb : Nat) (stack : List Nat) (q : Nat) :
    inStack mem (pb::stack) q = (mem pb).count (some q) + inStack mem stack q := by simp [inStack]

@[simp] lemma inFlightsCons (mem : Nat → List (Option Nat)) (f : Flight n) (flights : List (Flight n)) (q : Nat) :
    inFlights mem (f::flights) q = (f.batch mem).count (some q) + inFlights mem flights q := by simp [inFlights]

lemma inFlightsErase {f : Flight n} {flights : List (Flight n)}
    (there : f ∈ flights) (q : Nat) :
    inFlights mem flights q = (f.batch mem).count (some q) + inFlights mem (flights.erase f) q := by
  rw [← inFlightsCons]
  exact ((perm_cons_erase there).map _).sum_eq

lemma inStackLe {pb : Nat} {stack : List Nat} (there : pb ∈ stack) (q : Nat) :
    (mem pb).count (some q) ≤ inStack mem stack q :=
  single_le_sum (by simp) _ (mem_map.mpr ⟨pb,there,rfl⟩)

structure Unread (mem : Nat → List (Option Nat)) (stack : List Nat) (flights : List (Flight n))
    (v : Nat) (content : List (Option Nat)) : Prop where
  sameStack : ∀ q, inStack (update mem v content) stack q = inStack mem stack q
  sameFlights : ∀ q, inFlights (update mem v content) flights q = inFlights mem flights q
  stored : ∀ pb ∈ stack, Stored (update mem v content) pb
  ok : ∀ f ∈ flights, f.Ok (update mem v content)

lemma storedUpdate (stored : Stored mem pb) (ne : pb ≠ v) : Stored (update mem v content) pb := by
  have same : update mem v content pb = mem pb := update_of_ne ne _ _
  exact ⟨same ▸ stored.good,same ▸ stored.own⟩

lemma flightUpdate (ok : f.Ok mem) (off : (f.batch mem).count (some v) = 0) :
    f.batch (update mem v content) = f.batch mem ∧ f.Ok (update mem v content) := by
  have keep : ∀ pb, Stored mem pb → (mem pb).count (some v) = 0 →
    update mem v content pb = mem pb ∧ Stored (update mem v content) pb := by
    intro pb stored zero
    have ne : pb ≠ v := by
      rintro rfl
      exact count_eq_zero.mp zero stored.own
    exact ⟨update_of_ne ne _ _,storedUpdate stored ne⟩
  cases f with
  | popped c pb | filling c pb | returning pb => exact keep pb ok off
  | storing b | dropping b | releasing b => exact ⟨rfl,ok⟩
  | refilling c | counting | taking => exact ⟨rfl,trivial⟩

lemma unread (content : List (Option Nat)) (stored : ∀ pb ∈ stack, Stored mem pb) (ok : ∀ f ∈ flights, f.Ok mem)
    (off : inStack mem stack v + inFlights mem flights v = 0) : Unread mem stack flights v content := by
  have apart : ∀ pb ∈ stack, pb ≠ v := by
    rintro pb there rfl
    have one := count_pos_iff.mpr (stored pb there).own
    have le := @inStackLe mem _ _ there pb
    omega
  have away : ∀ f ∈ flights, (f.batch mem).count (some v) = 0 := by
    intro f there
    have split := @inFlightsErase n mem _ _ there v
    omega
  refine ⟨fun q => ?_,fun q => ?_,fun pb there => storedUpdate (stored pb there) (apart pb there),
    fun f there => (flightUpdate (ok f there) (away f there)).2⟩
  · refine congrArg sum (map_congr_left (fun pb there => ?_))
    rw [update_of_ne (apart pb there)]
  refine congrArg sum (map_congr_left (fun f there => ?_))
  rw [(flightUpdate (ok f there) (away f there)).1]

lemma Inv.move {t : State n} (h : Inv s) (world : t.world = s.world) (memory : t.freeMemory = s.freeMemory)
    (moved : ∀ q, places t q ≤ places s q) (buffers : ∀ c, BufferOk (t.buffer c))
    (stored : ∀ pb ∈ t.stack, Stored t.mem pb) (flights : ∀ f ∈ t.flights, f.Ok t.mem) : Inv t :=
  ⟨world ▸ h.world,by rw [memory,world]; exact h.memory,
    fun q => world ▸ le_trans (moved q) (h.owned q),buffers,stored,flights⟩

lemma Inv.erased (h : Inv s) (f : Flight n) : ∀ g ∈ s.flights.erase f, g.Ok s.mem :=
  fun g mem => h.flights g (mem_of_mem_erase mem)

lemma okCons (first : f.Ok mem) (rest : ∀ g ∈ flights, g.Ok mem) : ∀ g ∈ f::flights, g.Ok mem :=
  fun g there => (mem_cons.mp there).elim (fun eq => eq ▸ first) (rest g)

lemma bufferUpdate {buffer : Fin n → List (Option Nat)} {b : List (Option Nat)}
    (new : BufferOk b) (old : ∀ c, BufferOk (buffer c)) : ∀ d, BufferOk (update buffer c b d) := by
  intro d
  rcases eq_or_ne d c with rfl | other
  · rwa [update_self]
  rw [update_of_ne other]
  exact old d

lemma Inv.allocPageLocal (h : Inv s) {page : Option Nat}
    (top : s.buffer c = page::rest) :
    Inv { s with buffer := update s.buffer c rest, users := page.toList ++ s.users } := by
  obtain ⟨full,bound⟩ := h.buffers c
  rw [top] at full bound
  refine h.move rfl rfl (fun q => ?_)
    (bufferUpdate ⟨mt (.tail _) full,le_of_succ_le bound⟩ h.buffers) h.stored h.flights
  have moved := inBuffersUpdate s.buffer c rest q
  rcases page with _ | v
  · exact absurd (.head _) full
  rw [top,count_cons] at moved
  have user : ((some v).toList ++ s.users).count q = s.users.count q + if some v == some q then 1 else 0 := by
    rw [toList_some,singleton_append,count_cons]
    simp
  dsimp only [places]
  rw [user]
  omega

lemma Inv.freePageLocal (h : Inv s) (mine : v ∈ s.users) (room : (s.buffer c).length ≠ l1Max) :
    Inv { s with buffer := update s.buffer c (some v::s.buffer c), users := s.users.erase v } := by
  obtain ⟨full,bound⟩ := h.buffers c
  refine h.move rfl rfl (fun q => ?_)
    (bufferUpdate ⟨by simpa using full,by rw [length_cons]; omega⟩ h.buffers) h.stored h.flights
  have moved := inBuffersUpdate s.buffer c (some v::s.buffer c) q
  have user := (perm_cons_erase mine).count_eq q
  rw [count_cons] at moved user
  have same : (some v == some q) = (v == q) := rfl
  rw [same] at moved
  dsimp only [places]
  omega

lemma Inv.refillPush (h : Inv s) (there : .filling c pb ∈ s.flights) (room : (s.buffer c).length + nrPages ≤ l1Max) :
    Inv (land { s with buffer := update s.buffer c ((s.mem pb).reverse ++ s.buffer c) } (.filling c pb) []) := by
  have good := (h.flights _ there).good
  have all : BufferOk ((s.mem pb).reverse ++ s.buffer c) := by
    refine ⟨?_,?_⟩
    · rw [mem_append,mem_reverse,not_or]
      exact ⟨good.full,(h.buffers c).full⟩
    rw [length_append,length_reverse,good.length]
    omega
  refine h.move rfl rfl (fun q => ?_) (bufferUpdate all h.buffers) h.stored (h.erased _)
  have moved := inBuffersUpdate s.buffer c ((s.mem pb).reverse ++ s.buffer c) q
  have split := @inFlightsErase n s.mem _ _ there q
  rw [count_append,count_reverse] at moved
  unfold places land
  dsimp only [batch,nil_append] at split ⊢
  omega

lemma Inv.l1Unfill (h : Inv s) (top : s.buffer c = some pb::rest) (many : (s.buffer c).length > nrPages + l1Max/2) :
    Inv { s with buffer := update s.buffer c ((s.buffer c).drop nrPages)
                 mem := update s.mem pb ((s.buffer c).take nrPages)
                 flights := .returning pb::s.flights } := by
  obtain ⟨full,bound⟩ := h.buffers c
  have once := h.once pb
  have here := inBuffersLe s.buffer c pb
  have own : 0 < (s.buffer c).count (some pb) := count_pos_iff.mpr (top ▸ (.head _))
  have quiet : Unread s.mem s.stack s.flights pb ((s.buffer c).take nrPages) :=
    unread _ h.stored h.flights (by unfold places at once; omega)
  have stored : Stored (update s.mem pb ((s.buffer c).take nrPages)) pb := by
    refine ⟨⟨?_,?_⟩,?_⟩
    · rw [update_self,length_take]
      omega
    · rw [update_self]
      exact fun mem => full (mem_of_mem_take mem)
    rw [update_self,top]
    exact .head _
  have left : BufferOk ((s.buffer c).drop nrPages) :=
    ⟨fun mem => full (mem_of_mem_drop mem),by rw [length_drop]; omega⟩
  refine h.move rfl rfl (fun q => ?_) (bufferUpdate left h.buffers) quiet.stored (okCons stored quiet.ok)
  have moved := inBuffersUpdate s.buffer c ((s.buffer c).drop nrPages) q
  have cut : (s.buffer c).count (some q) =
    ((s.buffer c).take nrPages).count (some q) + ((s.buffer c).drop nrPages).count (some q) := by
    rw [← count_append,take_append_drop]
  have returned : (returning pb : Flight n).batch (update s.mem pb ((s.buffer c).take nrPages)) =
    (s.buffer c).take nrPages := update_self _ _ _
  dsimp only [places]
  rw [inFlightsCons,quiet.sameStack,quiet.sameFlights,returned]
  omega

lemma Inv.fly (h : Inv s) (there : f ∈ s.flights) {nr : Nat}
    {more : List (Flight n)} (ok : ∀ g ∈ more, g.Ok s.mem) (stored : ∀ pb ∈ stack, Stored s.mem pb)
    (same : ∀ q, inFlights s.mem more q + inStack s.mem stack q = (f.batch s.mem).count (some q) + inStack s.mem s.stack q) :
    Inv (land { s with stack := stack, nr := nr } f more) := by
  refine h.move rfl rfl (fun q => ?_) h.buffers stored (fun g mem => ?_)
  · have split := @inFlightsErase n s.mem _ _ there q
    have moved := same q
    have append : inFlights s.mem (more ++ s.flights.erase f) q =
      inFlights s.mem more q + inFlights s.mem (s.flights.erase f) q := by
      simp [inFlights]
    unfold places land
    dsimp only
    rw [append]
    omega
  rcases mem_append.mp mem with new | old
  · exact ok g new
  · exact h.erased f g old

lemma Inv.allocBatch (h : Inv s) (there : .taking ∈ s.flights)
    (enough : nrPages ≤ total (freeBlocks s.world.st)) :
    Inv (land { s with world := (takePages nrPages s.world).1
                       freeMemory := onAlloc s.freeMemory (nrPages*4096) } .taking
      [.storing (takePages nrPages s.world).2]) := by
  have taken := takePagesTaken h.world enough
  generalize takePages nrPages s.world = r at taken
  refine ⟨taken.inv,?_,fun q => ?_,h.buffers,h.stored,okCons ⟨taken.length,taken.full⟩ (h.erased _)⟩
  · have size := taken.total
    have memory := h.memory
    have count : nrPages = 32 := rfl
    show onAlloc s.freeMemory (nrPages*4096) = 4096 * total (freeBlocks r.1.st)
    rw [count] at size ⊢
    rw [onAlloc,memory,if_pos (by omega)]
    omega
  have live := taken.live q
  have own := h.owned q
  have split := @inFlightsErase n s.mem _ _ there q
  unfold places at own ⊢
  unfold land
  dsimp only [batch,cons_append,nil_append,count_nil] at split ⊢
  rw [inFlightsCons]
  dsimp only [batch]
  omega

lemma Good.last {batch : List (Option Nat)} (good : Good batch) : ∃ pb, batch.getLast? = some (some pb) := by
  have some : batch ≠ [] := by
    rintro rfl
    exact absurd good.length (by decide)
  rw [getLast?_eq_getLast_of_ne_nil some]
  cases last : batch.getLast some with
  | none => exact absurd (last ▸ getLast_mem some) good.full
  | some pb => exact ⟨pb,rfl⟩

lemma Inv.storeBatch (h : Inv s) {batch : List (Option Nat)}
    (there : .storing batch ∈ s.flights) (last : batch.getLast? = some (some pb))
    (next : (stack = pb::s.stack ∧ f = .counting) ∨ (stack = s.stack ∧ f = .releasing batch)) :
    Inv (land { s with mem := update s.mem pb batch, stack := stack } (.storing batch) [f]) := by
  have good : Good batch := h.flights _ there
  have own := mem_of_getLast? last
  have one : 0 < batch.count (some pb) := count_pos_iff.mpr own
  have once := h.once pb
  have split := @inFlightsErase n s.mem _ _ there
  have here := split pb
  dsimp only [Flight.batch] at here
  have quiet : Unread s.mem s.stack (s.flights.erase (.storing batch)) pb batch :=
    unread _ h.stored (h.erased _) (by unfold places at once; omega)
  have self : update s.mem pb batch pb = batch := update_self _ _ _
  have stored : Stored (update s.mem pb batch) pb := ⟨self.symm ▸ good,self.symm ▸ own⟩
  rcases next with ⟨rfl,rfl⟩ | ⟨rfl,rfl⟩
  · refine h.move rfl rfl (fun q => ?_) h.buffers (fun p mem => ?_) (okCons trivial quiet.ok)
    · have all := split q
      unfold places land
      dsimp only [Flight.batch,cons_append,nil_append] at all ⊢
      rw [inStackCons,inFlightsCons,quiet.sameStack,quiet.sameFlights,self]
      dsimp only [Flight.batch,count_nil]
      omega
    · rcases mem_cons.mp mem with rfl | old
      · exact stored
      · exact quiet.stored p old
  refine h.move rfl rfl (fun q => ?_) h.buffers quiet.stored (okCons good quiet.ok)
  have all := split q
  unfold places land
  dsimp only [Flight.batch,cons_append,nil_append] at all ⊢
  rw [inFlightsCons,quiet.sameStack,quiet.sameFlights]
  dsimp only [Flight.batch]
  omega

lemma Inv.l2Unfill (h : Inv s) {rest : List Nat} (top : s.stack = pb::rest) :
    Inv { s with stack := rest, flights := .dropping (s.mem pb)::s.flights } := by
  have stored := h.stored
  rw [top] at stored
  refine h.move rfl rfl (fun q => ?_) h.buffers (fun p mem => stored p (.tail _ mem))
    (okCons (stored pb (.head _)).good h.flights)
  dsimp only [places]
  rw [inFlightsCons,top,inStackCons]
  dsimp only [batch]
  omega

lemma Inv.freeBatch (h : Inv s) {batch : List (Option Nat)}
    (there : .releasing batch ∈ s.flights)
    (quiet : ∀ v, some v ∈ batch → QuietFree s.world ⟨v,1⟩ stray) :
    ∃ w m, freePages stray batch (s.world,s.freeMemory) = some (w,m) ∧
      Inv (land { s with world := w, freeMemory := m } (.releasing batch) []) := by
  have good := h.flights _ there
  have split := @inFlightsErase n s.mem _ _ there
  obtain ⟨w,done,freed⟩ := freePagesFreed h.world good.full (fun q => by
    have own := h.owned q
    have all := split q
    unfold places at own
    dsimp only [Flight.batch] at all
    omega) quiet h.memory
  refine ⟨w,_,done,freed.inv,rfl,fun q => ?_,h.buffers,h.stored,h.erased _⟩
  have own := h.owned q
  have all := split q
  have live := freed.live q
  unfold places at own ⊢
  unfold land
  dsimp only [Flight.batch,nil_append] at all ⊢
  omega

lemma Inv.write (h : Inv s) (mine : v ∈ s.users) (content : List (Option Nat)) :
    Inv { s with mem := update s.mem v content } := by
  have once := h.once v
  have own : 0 < s.users.count v := count_pos_iff.mpr mine
  have quiet : Unread s.mem s.stack s.flights v content :=
    unread _ h.stored h.flights (by unfold places at once; omega)
  refine h.move rfl rfl (fun q => ?_) h.buffers quiet.stored quiet.ok
  dsimp only [places]
  rw [quiet.sameStack,quiet.sameFlights]

def Supplied (s : State n) : Op n → Prop
  | .allocBatch => nrPages ≤ total (freeBlocks s.world.st)
  | .freeBatch batch stray => ∀ v, some v ∈ batch → QuietFree s.world ⟨v,1⟩ stray
  | _ => True

lemma stepInv {op : Op n} (h : Inv s) (legal : Legal s op) (supplied : Supplied s op) :
    ∃ t, exec s op = some t ∧ Inv t := by
  cases op <;> dsimp only [exec]
  case allocPageLocal c =>
    split
    · exact ⟨s,rfl,h⟩
    next top => exact ⟨_,rfl,h.allocPageLocal top⟩
  case freePageLocal c v =>
    split
    · exact ⟨s,rfl,h⟩
    next room => exact ⟨_,rfl,h.freePageLocal legal room⟩
  case l1Refill | l2Refill =>
    split
    · refine ⟨_,rfl,h.move rfl rfl (fun q => ?_) h.buffers h.stored (okCons trivial h.flights)⟩
      simp [places,batch]
    · exact ⟨s,rfl,h⟩
  case tryAllocPageBatch c =>
    split
    · exact ⟨s,rfl,h⟩
    rename_i pb rest top
    have stored := h.stored
    rw [top] at stored
    refine ⟨_,rfl,h.fly legal (okCons (stored pb mem_cons_self) (by simp))
      (fun p mem => stored p (.tail _ mem)) (fun q => ?_)⟩
    rw [top]
    simp [batch,inFlights]
  case refillDecNr c pb =>
    have stored := h.flights (.popped c pb) legal
    exact ⟨_,rfl,h.fly legal (okCons stored (by simp)) h.stored (fun q => by simp [batch,inFlights])⟩
  case refillPush c pb =>
    split
    next room => exact ⟨_,rfl,h.refillPush legal room⟩
    have stored := h.flights (.filling c pb) legal
    exact ⟨_,rfl,h.fly legal (okCons stored (by simp)) h.stored (fun q => by simp [batch,inFlights])⟩
  case l1Unfill c =>
    split
    next many =>
      split
      next top => exact ⟨_,rfl,h.l1Unfill top many⟩
      rename_i other
      rcases top : s.buffer c with _ | ⟨page,rest⟩
      · rw [top] at many
        exact absurd many (by simp)
      cases page with
      | none => exact absurd (top ▸ (.head _)) (h.buffers c).full
      | some pb => exact absurd top (other pb rest)
    · exact ⟨s,rfl,h⟩
  case tryFreePageBatch pb =>
    split
    · refine ⟨_,rfl,h.fly legal (okCons trivial (by simp)) (fun p mem => ?_) (fun q => ?_)⟩
      · rcases mem_cons.mp mem with rfl | old
        · exact h.flights _ legal
        · exact h.stored p old
      · simp [batch,inFlights]
    · exact ⟨s,rfl,h⟩
  case incNr => exact ⟨_,rfl,h.fly legal (by simp) h.stored (fun q => by simp [batch,inFlights])⟩
  case allocBatch => exact ⟨_,rfl,h.allocBatch legal supplied⟩
  case storeBatch batch =>
    obtain ⟨pb,last⟩ := Good.last (h.flights _ legal)
    rw [last]
    dsimp only
    split
    · exact ⟨_,rfl,h.storeBatch legal last (.inl ⟨rfl,rfl⟩)⟩
    · exact ⟨_,rfl,h.storeBatch legal last (.inr ⟨rfl,rfl⟩)⟩
  case l2Unfill =>
    split
    · split
      · exact ⟨s,rfl,h⟩
      next top => exact ⟨_,rfl,h.l2Unfill top⟩
    · exact ⟨s,rfl,h⟩
  case unfillDecNr batch =>
    have good := h.flights (.dropping batch) legal
    exact ⟨_,rfl,h.fly legal (okCons good (by simp)) h.stored (fun q => by simp [Flight.batch,inFlights])⟩
  case freeBatch batch stray =>
    obtain ⟨w,m,done,inv⟩ := h.freeBatch legal supplied
    refine ⟨_,?_,inv⟩
    rw [done]
    rfl
  case write v content => exact ⟨_,rfl,h.write legal content⟩

structure Started (s : State n) : Prop where
  world : Runs.Reach PageRange.exec (fun w op => PageRange.Legal w op ∧ PageRange.Quiet w op) PageRange.Started s.world
  memory : s.freeMemory = 4096 * total (freeBlocks s.world.st)
  buffers : ∀ c, s.buffer c = []
  stack : s.stack = []
  flights : s.flights = []
  users : s.users = []

lemma startInv (first : Started s) : Inv s := by
  refine ⟨PageRange.reachInv first.world,first.memory,fun q => ?_,fun c => ?_,by simp [first.stack],by simp [first.flights]⟩
  · have empty : inBuffers s.buffer q = 0 := by
      refine sum_eq_zero (fun x mem => ?_)
      obtain ⟨c,_,rfl⟩ := mem_map.mp mem
      rw [first.buffers c]
      rfl
    simp [places,empty,first.stack,first.flights,first.users,inStack,inFlights]
  rw [first.buffers c]
  exact ⟨by simp,by simp⟩

structure PoolsOk (s : State n) : Prop where
  buffers : ∀ c, none ∉ s.buffer c
  stack : ∀ pb ∈ s.stack, none ∉ s.mem pb
  flights : ∀ f ∈ s.flights, none ∉ f.batch s.mem
  once : ∀ q, places s q + cover (freeBlocks s.world.st) q ≤ 1
  bounded : ∀ c, (s.buffer c).length ≤ 512
  memory : s.freeMemory = 4096 * total (freeBlocks s.world.st)

lemma flightFull (ok : f.Ok mem) : none ∉ f.batch mem := by
  cases f with
  | popped c pb | filling c pb | returning pb => exact ok.good.full
  | storing b | dropping b | releasing b => exact ok.full
  | refilling c | counting | taking => exact not_mem_nil

theorem poolsHold {s : State n} (reach : Runs.Reach exec (fun s op => Legal s op ∧ Supplied s op) Started s) :
    PoolsOk s := by
  have h : Inv s := by
    refine invariant (P := Inv) (fun s first => startInv first) (fun s op t inv ok taken => ?_) reach
    obtain ⟨next,same,kept⟩ := stepInv inv ok.1 ok.2
    rw [taken] at same
    exact some.inj same ▸ kept
  exact ⟨fun c => (h.buffers c).full,fun pb mem => (h.stored pb mem).good.full,
    fun f mem => flightFull (h.flights f mem),h.once,fun c => (h.buffers c).bounded,h.memory⟩

def boot (w : World) : State 1 :=
  ⟨w,4096 * total (freeBlocks w.st),fun _ => [],[],fun _ => [],0,[],[]⟩

def asked (w : World) : State 1 := { boot w with flights := [.taking] }

def batchTaken (w : World) : State 1 :=
  land { asked w with world := (takePages nrPages w).1
                      freeMemory := onAlloc (asked w).freeMemory (nrPages*4096) } .taking
    [.storing (takePages nrPages w).2]

lemma askedTaken (w : World) : exec (boot w) .l2Refill = some (asked w) := rfl

lemma batchTakenReach {ok : State 1 → Op 1 → Prop} (first : Started (boot w))
    (one : ok (boot w) .l2Refill) (two : ok (asked w) .allocBatch) : Reach exec ok Started (batchTaken w) :=
  .next (.next (.init first) one (askedTaken w)) two rfl

lemma takingAsked (w : World) : Legal (asked w) .allocBatch := mem_cons_self

lemma bootStarted
    (reach : Reach PageRange.exec (fun w op => PageRange.Legal w op ∧ PageRange.Quiet w op) PageRange.Started w) :
    Started (boot w) := ⟨reach,rfl,fun _ => rfl,rfl,rfl,rfl⟩

def ample : World := Runs.after PageRange.exec blank PageRange.addLow

set_option maxRecDepth 20000

theorem poolsHoldAmple : PoolsOk (batchTaken ample) ∧ nrPages ≤ total (freeBlocks ample.st) := by
  have enough : nrPages ≤ total (freeBlocks ample.st) := by decide
  exact ⟨poolsHold (batchTakenReach (bootStarted PageRange.addLowReach) ⟨trivial,trivial⟩ ⟨takingAsked ample,enough⟩),enough⟩

-- Ten pages, of which the bitmap takes one: a batch finds nine.
def addTen : PageRange.Op := .initialAdd 1 10 1 (fun _ => false)
def scarce : World := Runs.after PageRange.exec blank addTen

theorem nullInBatch : ∃ s : State 1, Runs.Reach exec Legal Started s ∧ ¬ PoolsOk s := by
  have legal : PageRange.Legal blank addTen := ⟨by decide,by decide,fun _ _ => rfl,by decide⟩
  have quiet : PageRange.Quiet blank addTen :=
    ⟨by decide,fun _ => by decide,nofun⟩
  have world : Reach PageRange.exec (fun w op => PageRange.Legal w op ∧ PageRange.Quiet w op) PageRange.Started scarce :=
    .next (.init ⟨_,_,rfl⟩) ⟨legal,quiet⟩ (afterTaken (by decide))
  refine ⟨batchTaken scarce,batchTakenReach (bootStarted world) trivial (takingAsked scarce),fun ok => ?_⟩
  have null : none ∈ (takePages nrPages scarce).2 := by decide
  have full := ok.flights (.storing (takePages nrPages scarce).2) (.head _)
  rw [batch] at full
  exact full null

end OsvKernel.PagePool
