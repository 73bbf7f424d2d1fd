import OsvKernel.Align
import OsvKernel.Extremes
import OsvKernel.Runs

/-! Where load_object puts its objects. Addresses are 64-bit words; given is the address that set_base got. -/
namespace OsvKernel.Elf
open List Runs Nat
open Extremes (minElement)

def word : Nat := 2^64
def ptLoad : Nat := 1

structure Phdr where
  type : Nat
  vaddr : Nat
  memsz : Nat
  align : Nat
  deriving DecidableEq

def Phdr.isLoad (p : Phdr) : Bool := p.type = ptLoad
def Phdr.stop (p : Phdr) : Nat := p.vaddr + p.memsz
def below (a b : Phdr) : Bool := a.isLoad && a.vaddr < b.vaddr
def above (a b : Phdr) : Bool := a.isLoad && a.vaddr > b.vaddr

structure Table where
  phdrs : List Phdr
  loads : ∃ p ∈ phdrs, p.isLoad = true
  aligned : ∀ p ∈ phdrs, ∃ k < 64, p.align = 2^k
  vaddr : ∀ p ∈ phdrs, p.vaddr < word
  memsz : ∀ p ∈ phdrs, p.memsz < word

structure Object where
  phdrs : List Phdr
  given : Nat
  base : Nat
  stop : Nat
  deriving DecidableEq

def align (addr alignment offset : Nat) : Nat := (alignUp ((addr + word - offset) % word) alignment + offset) % word

def setBase (phdrs : List Phdr) (addr : Nat) : Option Object := do
  let p ← minElement below phdrs
  let base := (align addr p.align (p.vaddr &&& ((p.align + word - 1) % word)) + word - p.vaddr) % word
  let q ← minElement above phdrs
  some ⟨phdrs,addr,base,(base + q.vaddr + q.memsz) % word⟩

/-- _next_alloc and the objects, the last one first. -/
structure State where
  nextAlloc : Nat
  objects : List Object

def loadObject (s : State) (t : Table) : Option State := do
  let o ← setBase t.phdrs s.nextAlloc
  some ⟨o.stop,o::s.objects⟩

def Start (s : State) : Prop := s.nextAlloc < word ∧ s.objects = []

/-! What set_base is to find. -/

def loadsOf (phdrs : List Phdr) : List Phdr := phdrs.filter Phdr.isLoad
def lowest (phdrs : List Phdr) : Option Phdr := minElement (fun a b => a.vaddr < b.vaddr) (loadsOf phdrs)
def highest (phdrs : List Phdr) : Option Phdr := minElement (fun a b => a.vaddr > b.vaddr) (loadsOf phdrs)
def top (phdrs : List Phdr) : Nat := ((loadsOf phdrs).map Phdr.stop).foldr max 0

structure Placed (o : Object) (l : Phdr) : Prop where
  first : lowest o.phdrs = some l
  notBelow : o.given ≤ (o.base + l.vaddr) % word
  congruent : (o.base + l.vaddr) % word % l.align = l.vaddr % l.align
  stop : o.stop = (o.base + top o.phdrs) % word

def Occupies (o : Object) (x : Nat) : Prop := ∃ p ∈ loadsOf o.phdrs, ∃ i < p.memsz, x = (o.base + p.vaddr + i) % word
def Apart (a b : Object) : Prop := ∀ x, ¬(Occupies a x ∧ Occupies b x)

structure Sound (s : State) : Prop where
  placed : ∀ o ∈ s.objects, ∃ l, Placed o l
  apart : s.objects.Pairwise Apart

def Between (phdrs : List Phdr) : Prop :=
  ∀ f ∈ phdrs.head?, f.isLoad = true ∨ (∃ p ∈ loadsOf phdrs, p.vaddr < f.vaddr) ∧ ∃ p ∈ loadsOf phdrs, f.vaddr < p.vaddr

/-- No segment ends beyond the one with the highest address, and the object fits below the end of the addresses. -/
def ok (s : State) (t : Table) : Prop :=
  Between t.phdrs ∧ (∀ h ∈ highest t.phdrs, top t.phdrs ≤ h.stop) ∧
    ∀ l ∈ lowest t.phdrs, s.nextAlloc + l.align + (top t.phdrs - l.vaddr) ≤ word

lemma belowWeak : Extremes.Weak fun a b : Phdr => a.vaddr < b.vaddr := by
  constructor <;> simp only [decide_eq_true_eq] <;> omega

lemma aboveWeak : Extremes.Weak fun a b : Phdr => a.vaddr > b.vaddr := by
  constructor <;> simp only [decide_eq_true_eq] <;> omega

variable {phdrs : List Phdr} {k : Nat} {t : Table} {s : State}

lemma foundLoad {r : Phdr → Phdr → Bool} (weak : Extremes.Weak r)
    (first : ∀ f ∈ phdrs.head?, f.isLoad = true ∨ ∃ p ∈ loadsOf phdrs, r p f = true) :
    minElement (fun a b => a.isLoad && r a b) phdrs = minElement r (loadsOf phdrs) := by
  rcases phdrs with _ | ⟨f,rest⟩
  · rfl
  have fold := Extremes.foldFilter (p := Phdr.isLoad) (q := r) (fun _ _ => rfl) rest f
  rw [minElement,fold]
  by_cases load : f.isLoad = true
  · rw [loadsOf,filter_cons_of_pos load]
    rfl
  obtain ⟨p,mem,beats⟩ := (first f rfl).resolve_left load
  rw [loadsOf,filter_cons_of_neg load] at mem ⊢
  exact Extremes.foldBeaten weak mem beats

lemma leTop {p : Phdr} (mem : p ∈ loadsOf phdrs) : p.stop ≤ top phdrs := by
  unfold top
  generalize loadsOf phdrs = l at mem ⊢
  induction l with
  | nil => cases mem
  | cons a l ih =>
    rw [map_cons,foldr_cons]
    rcases mem_cons.mp mem with rfl | later
    · exact le_max_left _ _
    · exact le_trans (ih later) (le_max_right _ _)

lemma alignBounds {addr offset : Nat} (small : k < 64) (inside : offset < 2^k) (fits : addr + 2^k ≤ word) :
    addr ≤ align addr (2^k) offset ∧ align addr (2^k) offset < addr + 2^k ∧ align addr (2^k) offset % 2^k = offset := by
  have wide : word = 2^64 := rfl
  have pos := Nat.two_pow_pos k
  rcases lt_or_ge addr offset with less | more
  · have up : alignUp ((addr + word - offset) % word) (2^k) = 0 := by
      have inner : (addr + word - offset) % word = addr + word - offset := mod_eq_of_lt (by omega)
      have wrapped : (addr + word - offset + 2^k - 1) % 2^64 = addr + 2^k - 1 - offset := by
        rw [← wide]
        have sum : addr + word - offset + 2^k - 1 = addr + 2^k - 1 - offset + word := by omega
        rw [sum,add_mod_right]
        exact mod_eq_of_lt (by omega)
      rw [inner,alignUp,alignDownPow small,wrapped,div_eq_of_lt (by omega),mul_zero]
    have here : align addr (2^k) offset = offset := by
      rw [align,up,zero_add]
      exact mod_eq_of_lt (by omega)
    rw [here]
    exact ⟨less.le,by omega,mod_eq_of_lt inside⟩
  have inner : (addr + word - offset) % word = addr - offset := by
    have sum : addr + word - offset = addr - offset + word := by omega
    rw [sum,add_mod_right]
    exact mod_eq_of_lt (by omega)
  obtain ⟨low,high,multiple⟩ := alignUpBounds small (show addr - offset + 2^k - 1 < 2^64 by omega)
  have here : align addr (2^k) offset = alignUp (addr - offset) (2^k) + offset := by
    rw [align,inner]
    exact Nat.mod_eq_of_lt (by omega)
  rw [here]
  refine ⟨by omega,by omega,?_⟩
  rw [add_mod,multiple,zero_add,mod_mod]
  exact mod_eq_of_lt inside

lemma baseAdd {r low v : Nat} (le : low ≤ v) (small : low < word) :
    ((r + word - low) % word + v) % word = (r + (v - low)) % word := by
  unfold word at small ⊢
  omega

lemma offsetEq (v : Nat) (small : k < 64) : v &&& ((2^k + word - 1) % word) = v % 2^k := by
  have pos := Nat.two_pow_pos k
  have less : 2^k < word := Nat.pow_lt_pow_right (by decide) small
  have mask : (2^k + word - 1) % word = 2^k - 1 := by
    have sum : 2^k + word - 1 = 2^k - 1 + word := by omega
    rw [sum,add_mod_right]
    exact mod_eq_of_lt (by omega)
  rw [mask,and_two_pow_sub_one_eq_mod]

lemma searches (between : Between t.phdrs) : ∃ l h, lowest t.phdrs = some l ∧ highest t.phdrs = some h ∧
    minElement below t.phdrs = some l ∧ minElement above t.phdrs = some h := by
  obtain ⟨p,mem,load⟩ := t.loads
  have some : p ∈ loadsOf t.phdrs := mem_filter.mpr ⟨mem,load⟩
  have low : minElement below t.phdrs = lowest t.phdrs := by
    refine foundLoad belowWeak fun f first => (between f first).imp_right fun both => ?_
    obtain ⟨p,mem,less⟩ := both.1
    exact ⟨p,mem,decide_eq_true less⟩
  have high : minElement above t.phdrs = highest t.phdrs := by
    refine foundLoad aboveWeak fun f first => (between f first).imp_right fun both => ?_
    obtain ⟨p,mem,less⟩ := both.2
    exact ⟨p,mem,decide_eq_true less⟩
  rw [low,high]
  unfold lowest highest
  cases loads : loadsOf t.phdrs with
  | nil =>
    rw [loads] at some
    cases some
  | cons a rest => exact ⟨_,_,rfl,rfl,rfl,rfl⟩

lemma setBasePlaced {o : Object} (allowed : ok s t) (found : setBase t.phdrs s.nextAlloc = some o) :
    (∃ l, Placed o l) ∧ o.given = s.nextAlloc ∧ o.given ≤ o.stop ∧ o.stop < word ∧
      ∀ x, Occupies o x → o.given ≤ x ∧ x < o.stop := by
  obtain ⟨between,last,fits⟩ := allowed
  obtain ⟨l,h,first,final,low,high⟩ := searches between
  obtain ⟨inLoads,least⟩ := Extremes.minLeast belowWeak first
  have member := (mem_filter.mp inLoads).1
  obtain ⟨k,small,power⟩ := t.aligned l member
  have vaddr := t.vaddr l member
  have end_ := le_antisymm (leTop (Extremes.minLeast aboveWeak final).1) (last h final)
  have room := fits l first
  have starts := le_trans (le_add_right _ _) (leTop inLoads)
  unfold setBase at found
  rw [low,high] at found
  dsimp only [bind,Option.bind] at found
  rw [power,offsetEq l.vaddr small] at found
  rw [power] at room
  obtain ⟨notBelow,near,offset⟩ := alignBounds small (Nat.mod_lt l.vaddr (Nat.two_pow_pos k))
    (show s.nextAlloc + 2^k ≤ word by omega)
  generalize align s.nextAlloc (2^k) (l.vaddr % 2^k) = r at found notBelow near offset
  cases found
  have at_ : ∀ v, l.vaddr ≤ v → v ≤ top t.phdrs → ((r + word - l.vaddr) % word + v) % word = r + (v - l.vaddr) := by
    intro v le within
    rw [baseAdd le vaddr]
    exact mod_eq_of_lt (by omega)
  have put := at_ l.vaddr (le_refl _) starts
  have stops : ((r + word - l.vaddr) % word + h.vaddr + h.memsz) % word = r + (top t.phdrs - l.vaddr) := by
    rw [add_assoc]
    change (_ + h.stop) % word = _
    rw [end_]
    exact at_ _ starts (le_refl _)
  rw [Nat.sub_self,Nat.add_zero] at put
  refine ⟨⟨l,first,?_,?_,?_⟩,rfl,?_,?_,?_⟩
  · dsimp only
    rw [put]
    exact notBelow
  · dsimp only
    rw [put,power,offset]
  · dsimp only
    rw [stops,at_ _ starts (le_refl _)]
  · dsimp only
    rw [stops]
    omega
  · dsimp only
    rw [stops]
    omega
  rintro x ⟨p,mem,i,inside,rfl⟩
  have from_ := Nat.le_of_not_lt fun less => least p mem (decide_eq_true less)
  have upto : p.vaddr + p.memsz ≤ top t.phdrs := leTop mem
  dsimp only
  rw [stops,add_assoc,at_ (p.vaddr + i) (by omega) (by omega)]
  omega

structure Inv (s : State) : Prop where
  placed : ∀ o ∈ s.objects, ∃ l, Placed o l
  within : ∀ o ∈ s.objects, ∀ x, Occupies o x → o.given ≤ x ∧ x < o.stop
  before : ∀ o ∈ s.objects, o.stop ≤ s.nextAlloc
  order : s.objects.Pairwise fun later earlier => earlier.stop ≤ later.given

lemma Inv.loadObject {u : State} (inv : Inv s) (allowed : ok s t) (taken : loadObject s t = some u) :
    Inv u := by
  obtain ⟨o,found,eq⟩ := Option.bind_eq_some_iff.mp taken
  cases eq
  obtain ⟨placed,given,grows,_,within⟩ := setBasePlaced allowed found
  refine ⟨forall_mem_cons.mpr ⟨placed,inv.placed⟩,forall_mem_cons.mpr ⟨within,inv.within⟩,
    forall_mem_cons.mpr ⟨le_refl _,fun b mem => ?_⟩,pairwise_cons.mpr ⟨fun b mem => ?_,inv.order⟩⟩
  · have := inv.before b mem
    dsimp only
    omega
  rw [given]
  exact inv.before b mem

lemma Inv.sound (inv : Inv s) : Sound s := by
  refine ⟨inv.placed,inv.order.imp_of_mem fun {a b} memA memB before x both => ?_⟩
  have later := (inv.within a memA x both.1).1
  have earlier := (inv.within b memB x both.2).2
  omega

theorem objectsSound {s : State} (reach : Runs.Reach loadObject ok Start s) : Sound s := by
  have inv : Inv s := by
    refine invariant (P := Inv) ?_ (fun _ _ _ inv allowed taken => inv.loadObject allowed taken) reach
    rintro s ⟨_,none⟩
    refine ⟨?_,?_,?_,?_⟩ <;> rw [none]
    · exact nofun
    · exact nofun
    · exact nofun
    · exact List.Pairwise.nil
  exact inv.sound

def text : Phdr := ⟨ptLoad,0,0x1800,0x1000⟩
def data : Phdr := ⟨ptLoad,0x2000,0x500,0x1000⟩
def header : Phdr := ⟨6,0x40,0x200,8⟩
def stack : Phdr := ⟨0x6474e551,0,0,16⟩

lemma powers : ∀ p ∈ [header,text,data,stack], ∃ k < 64, p.align = 2^k := by
  intro p mem
  simp only [mem_cons,not_mem_nil,or_false] at mem
  rcases mem with rfl | rfl | rfl | rfl
  · exact ⟨3,by decide,rfl⟩
  · exact ⟨12,by decide,rfl⟩
  · exact ⟨12,by decide,rfl⟩
  · exact ⟨4,by decide,rfl⟩

def library : Table where
  phdrs := [header,text,data]
  loads := ⟨text,by decide,rfl⟩
  aligned := fun p mem => powers p (by simp only [mem_cons,not_mem_nil,or_false] at mem ⊢; tauto)
  vaddr := by decide
  memsz := by decide

def stacked : Table where
  phdrs := [stack,text]
  loads := ⟨text,by decide,rfl⟩
  aligned := fun p mem => powers p (by simp only [mem_cons,not_mem_nil,or_false] at mem ⊢; tauto)
  vaddr := by decide
  memsz := by decide

def empty : State := ⟨0x100000000000,[]⟩

lemma emptyStart : Start empty := ⟨by decide,rfl⟩

def two (t : Table) : State := Runs.after loadObject (Runs.after loadObject empty t) t

lemma twoReach {allowed : State → Table → Prop} (first : allowed empty t)
    (second : allowed (after loadObject empty t) t) (one : (loadObject empty t).isSome = true)
    (more : (loadObject (after loadObject empty t) t).isSome = true) : Reach loadObject allowed Start (two t) :=
  .next (.next (.init emptyStart) first (afterTaken one)) second (afterTaken more)

lemma libraryOk (low : s.nextAlloc < 2^63) : ok s library := by
  have between : Between library.phdrs := by
    intro f first
    cases first
    exact .inr ⟨⟨text,by decide,by decide⟩,data,by decide,by decide⟩
  refine ⟨between,fun h here => ?_,fun l here => ?_⟩
  · cases here
    decide
  have first : lowest library.phdrs = some text := rfl
  cases first.symm.trans here
  have end_ : top library.phdrs = 0x2500 := rfl
  rw [end_]
  unfold word
  dsimp only [text]
  omega

theorem objectsSoundTwice : (two library).objects.map Object.base = [0x100000003000,0x100000000000] ∧ Sound (two library) :=
  ⟨rfl,objectsSound (twoReach (libraryOk (by decide)) (libraryOk (by decide)) rfl
    rfl)⟩

def squeezed : Object := ⟨stacked.phdrs,0x100000000000,0x100000000000,0x100000000000⟩

theorem objectsOverlap :
    Runs.Reach loadObject (fun _ _ => True) Start (two stacked) ∧ (two stacked).objects = [squeezed,squeezed] ∧
      ¬Sound (two stacked) := by
  have both : (two stacked).objects = [squeezed,squeezed] := rfl
  refine ⟨twoReach trivial trivial rfl rfl,both,fun sound => ?_⟩
  have here : Occupies squeezed 0x100000000000 := ⟨text,by decide,0,by decide,rfl⟩
  have apart := sound.apart
  rw [both] at apart
  exact (pairwise_cons.mp apart).1 squeezed mem_cons_self 0x100000000000 ⟨here,here⟩

end OsvKernel.Elf
