import OsvKernel.Pool

/-! Where a pool keeps the pages that no object of is in use, and how many of them. -/
namespace OsvKernel.Pool
open List Function Option Runs

structure FullAtBack (s : State) : Prop where
  found : (∃ p ∈ s.free, s.nalloc p = 0) → haveFullPages s = true
  one : ∀ p ∈ s.free, ∀ q ∈ s.free, s.nalloc p = 0 → s.nalloc q = 0 → p = q

-- A page on the list becomes full only when the last one is full too or is that page, and no page is added next to a
-- full one.
def Tidy (w : World) : Op → Prop
  | .addPage _ => ∀ p ∈ w.st.free, w.st.nalloc p ≠ 0
  | .freeSameCpu obj => w.st.nalloc (toHeader obj) = 1 → w.st.localFree (toHeader obj) ≠ none →
    ∃ back, w.st.free.getLast? = some back ∧ (back = toHeader obj ∨ w.st.nalloc back = 0)
  | .alloc => True
  | .write _ _ => True

def Backed (s : State) : Prop := ∀ p ∈ s.free, s.nalloc p = 0 → s.free.getLast? = some p

variable {cfg : Config} {obj page p header : Nat} {l : List Nat} {w t : World} {s : State} {op : Op}

lemma haveFullIff : haveFullPages s = true ↔ ∃ p, s.free.getLast? = some p ∧ s.nalloc p = 0 := by
  unfold haveFullPages
  split <;> simp_all

lemma Backed.full (back : Backed s) : FullAtBack s :=
  ⟨fun ⟨p,mem,zero⟩ => haveFullIff.mpr ⟨p,back p mem zero,zero⟩,fun p here q there zero also =>
    some.inj ((back p here zero).symm.trans (back q there also))⟩

lemma getLastErase (last : l.getLast? = some p) (other : p ≠ page) : (l.erase page).getLast? = some p := by
  obtain ⟨ys,rfl⟩ := getLast?_eq_some_iff.mp last
  rw [erase_append]
  split
  · exact getLast?_concat
  rw [erase_of_not_mem (by simpa using other.symm)]
  exact getLast?_concat

lemma getLastCons (last : l.getLast? = some p) (a : Nat) : (a::l).getLast? = some p := by
  obtain ⟨ys,rfl⟩ := getLast?_eq_some_iff.mp last
  rw [← cons_append]
  exact getLast?_concat

lemma Inv.busy (h : Inv cfg w) (live : obj ∈ w.live) : w.st.nalloc (toHeader obj) ≠ 0 := by
  rw [(h.page _ (h.owned obj live)).nalloc]
  exact Nat.ne_of_gt (length_pos_of_mem (mem_filter.mpr ⟨live,by simp⟩))

lemma Backed.alloc (h : Inv cfg w) (back : Backed w.st) (got : alloc w.st = some (s,obj)) : Backed s := by
  have busy : s.nalloc (toHeader obj) ≠ 0 := (h.alloc got).1.busy (.head _)
  obtain ⟨header,rest,free,first,rfl⟩ := allocCases got
  have there := h.freeSub header (free ▸ (.head _))
  obtain ⟨l,linked,perm⟩ := (h.page header there).chain
  rw [first] at linked
  obtain ⟨tail,rfl,-⟩ := linked.headSome
  have mine := (chainObject (h.aligned header there) perm (.head _)).1
  rw [mine] at busy
  intro p mem zero
  have other : p ≠ header := fun same => busy (same ▸ zero)
  dsimp only at mem zero ⊢
  rw [update_of_ne other] at zero
  have inside : p ∈ rest := by
    split at mem
    · exact mem
    · exact (mem_cons.mp mem).resolve_left other
  have last := back p (free ▸ mem_cons_of_mem _ inside) zero
  rw [free] at last
  obtain ⟨a,rest,rfl⟩ := exists_cons_of_ne_nil (ne_nil_of_mem inside)
  rw [getLast?_cons_cons] at last
  split
  · exact last
  · exact getLastCons last header

lemma Backed.addPage (h : Inv cfg w) (tidy : Tidy w (.addPage page)) (fresh : page ∉ w.pages) :
    Backed (addPage cfg w.st page) := by
  obtain ⟨t,carved,eq⟩ := addPageCarved cfg w.st page
  rw [eq]
  intro p mem zero
  dsimp only at mem zero ⊢
  rw [carved.nalloc] at zero
  rw [carved.free] at mem ⊢
  rcases mem_append.mp mem with old | new
  · have other : p ≠ page := fun same => fresh (same ▸ h.freeSub p old)
    exact absurd ((update_of_ne other _ _).symm.trans zero) (tidy p old)
  rw [mem_singleton.mp new]
  exact getLast?_concat

lemma Backed.freeSameCpu (h : Inv cfg w) (back : Backed w.st) (live : obj ∈ w.live) (tidy : Tidy w (.freeSameCpu obj)) :
    Backed (freeSameCpu w.st obj).1 := by
  have busy := h.busy live
  have linked := (h.page _ (h.owned obj live)).linked
  have less : decrement (w.st.nalloc (toHeader obj)) = w.st.nalloc (toHeader obj) - 1 := if_neg busy
  simp only [Pool.freeSameCpu,less,update_self]
  dsimp only [Tidy] at tidy
  generalize toHeader obj = a at *
  split
  · intro p mem zero
    dsimp only at mem zero ⊢
    have other : p ≠ a := by
      rintro rfl
      split at mem
      · exact h.freeNodup.not_mem_erase mem
      · next nothing => exact linked.mp mem (by simpa using nothing)
    rw [update_of_ne other] at zero
    split
    · rw [if_pos ‹_›] at mem
      exact getLastErase (back p (mem_of_mem_erase mem) zero) other
    rw [if_neg ‹_›] at mem
    exact back p mem zero
  rename_i kept
  rw [haveFullIff] at kept
  dsimp only at kept
  have last : ∀ p ∈ w.st.free, p ≠ a → w.st.nalloc p = 0 →
    w.st.free.getLast? = some p ∧ update w.st.nalloc a (w.st.nalloc a - 1) p = 0 :=
    fun p mem other zero => ⟨back p mem zero,(update_of_ne other _ _).trans zero⟩
  intro p mem zero
  dsimp only at mem zero ⊢
  by_cases chained : w.st.localFree a = none
  · rw [relink] at mem ⊢
    simp only [chained,isNone_none,if_true,update_self] at mem ⊢
    by_cases same : p = a
    · subst same
      rw [update_self] at zero
      rw [if_neg (by simpa using zero)]
      exact getLast?_concat
    rw [update_of_ne same] at zero
    have inside : p ∈ w.st.free := by split at mem <;> simpa [same] using mem
    obtain ⟨here,also⟩ := last p inside same zero
    split
    · exact getLastCons here a
    · next empty => exact absurd ⟨by simpa using empty,p,here,also⟩ kept
  rw [relinkSame (by exact chained)] at mem ⊢
  by_cases same : p = a
  · subst same
    rw [update_self] at zero
    obtain ⟨q,at_,mine | full⟩ := tidy (by omega) chained
    · exact absurd ⟨zero,q,at_,by rw [mine,update_self,zero]⟩ kept
    have other : q ≠ p := by
      rintro rfl
      exact busy full
    exact absurd ⟨zero,q,at_,by rw [update_of_ne other,full]⟩ kept
  rw [update_of_ne same] at zero
  exact back p mem zero

lemma stepBacked (h : Inv cfg w) (back : Backed w.st) (legal : Legal w op) (tidy : Tidy w op)
    (ok : exec cfg w op = some t) : Backed t.st := by
  cases op with
  | alloc =>
    obtain ⟨⟨s,obj⟩,got,last⟩ := bind_eq_some_iff.mp ok
    cases last
    exact back.alloc h got
  | addPage page =>
    cases ok
    exact Backed.addPage h tidy legal.2.2
  | freeSameCpu obj =>
    cases ok
    exact back.freeSameCpu h legal tidy
  | write obj value =>
    cases ok
    exact back

theorem fullPagesAtBack {cfg : Config} {w : World}
    (reach : Runs.Reach (exec cfg) (fun w op => Legal w op ∧ Tidy w op) Started w) : FullAtBack w.st := by
  have both := invariant (P := fun w => Inv cfg w ∧ Backed w.st)
    (fun w first => ⟨startInv first,fun p mem => absurd mem (by simp [first.1])⟩)
    (fun _ _ _ inv ok taken => ⟨stepInv inv.1 ok.1 taken,stepBacked inv.1 inv.2 ok.1 ok.2 taken⟩) reach
  exact both.2.full

instance (w : World) (op : Op) : Decidable (Legal w op) := by
  unfold Legal
  split <;> infer_instance

instance (w : World) : (op : Op) → Decidable (Tidy w op)
  | .addPage _ => inferInstanceAs (Decidable (∀ p ∈ w.st.free, w.st.nalloc p ≠ 0))
  | .freeSameCpu obj => inferInstanceAs (Decidable (w.st.nalloc (toHeader obj) = 1 → w.st.localFree (toHeader obj) ≠ none →
    ∃ back ∈ w.st.free.getLast?, back = toHeader obj ∨ w.st.nalloc back = 0))
  | .alloc => .isTrue trivial
  | .write _ _ => .isTrue trivial

-- Two objects to a page.
def pair : Config := ⟨2000,by decide,by decide⟩

-- A page is added behind one with an object in use; that one is emptied by an alloc and comes back by a free.
def settled : World := final (exec pair) (fun w op => Legal w op ∧ Tidy w op) fresh
  [.addPage 4096,.alloc,.alloc,.freeSameCpu 4192,.addPage 8192,.alloc,.freeSameCpu 6192]

theorem fullPagesAtBackSecond : settled.st.free = [4096,8192] ∧ settled.st.nalloc 8192 = 0 ∧ FullAtBack settled.st :=
  ⟨rfl,rfl,fullPagesAtBack (reachFinal _ ⟨rfl,rfl,rfl,rfl⟩ rfl)⟩

-- Both pages are handed out, then one object of the first and both of the second come back.
def scattered : List Op :=
  [.addPage 4096,.alloc,.alloc,.addPage 8192,.alloc,.alloc,.freeSameCpu 4192,.freeSameCpu 8288,.freeSameCpu 10288]

theorem fullPageInFront : ∃ w, Runs.Reach (exec pair) Legal Started w ∧ ¬ FullAtBack w.st := by
  refine ⟨final (exec pair) Legal fresh scattered,reachFinal _ ⟨rfl,rfl,rfl,rfl⟩ rfl, fun full => ?_⟩
  have missed : haveFullPages (final (exec pair) Legal fresh scattered).st = false := rfl
  have found := full.found ⟨8192,by decide,rfl⟩
  exact absurd (missed.symm.trans found) (by decide)

end OsvKernel.Pool
