import Mathlib

/-! The first least element of a list, as a fold over it finds it. The relation is a strict order in which unrelated
elements count as equal. -/
namespace Extremes
open List

variable {α : Type} {r : α → α → Bool}

def better (r : α → α → Bool) (smallest a : α) : α := if r a smallest then a else smallest

def minElement (r : α → α → Bool) : List α → Option α
  | [] => none
  | a::l => some (l.foldl (better r) a)

structure Weak (r : α → α → Bool) : Prop where
  asymm : ∀ {a b}, r a b = true → ¬r b a = true
  split : ∀ {a b} c, r a b = true → r a c = true ∨ r c b = true

lemma foldFilter {p : α → Bool} {q : α → α → Bool} (same : ∀ a b, r a b = (p a && q a b)) (l : List α) (a : α) :
    l.foldl (better r) a = (l.filter p).foldl (better q) a := by
  induction l generalizing a with
  | nil => rfl
  | cons b l ih => ?_
  rcases here : p b with _ | _
  · have kept : better r a b = a := by rw [better,same,here]; rfl
    rw [foldl_cons,kept,ih,filter_cons_of_neg (by rw [here]; decide)]
  have next : better r a b = better q a b := by rw [better,better,same,here,Bool.true_and]
  rw [foldl_cons,next,ih,filter_cons_of_pos here,foldl_cons]

lemma foldBeaten (weak : Weak r) {l : List α} {a b : α} (mem : b ∈ l) (beats : r b a = true) :
    some (l.foldl (better r) a) = minElement r l := by
  induction l generalizing a with
  | nil => cases mem
  | cons c l ih => ?_
  rw [minElement,foldl_cons]
  by_cases here : r c a = true
  · rw [better,if_pos here]
  have other : r b c = true := (weak.split c beats).resolve_right here
  have later : b ∈ l := by
    rcases mem_cons.mp mem with rfl | later
    · exact absurd other (weak.asymm other)
    exact later
  rw [better,if_neg here,ih later beats,ih later other]

lemma foldLeast (weak : Weak r) (l : List α) (a : α) :
    l.foldl (better r) a ∈ a::l ∧ ∀ b ∈ a::l, ¬r b (l.foldl (better r) a) = true := by
  induction l generalizing a with
  | nil =>
    refine ⟨.head _,fun b mem less => ?_⟩
    rw [mem_singleton.mp mem] at less
    exact weak.asymm less less
  | cons c l ih => ?_
  obtain ⟨mem,least⟩ := ih (better r a c)
  rw [foldl_cons]
  generalize l.foldl (better r) (better r a c) = m at mem least
  have rest : ∀ b ∈ l, ¬r b m = true := fun b later => least b (.tail _ later)
  have best := least _ (.head _)
  unfold better at best mem
  split at best
  next less =>
    rw [if_pos less] at mem
    have first : ¬r a m = true := fun beats => (weak.split c beats).elim (weak.asymm less) best
    exact ⟨.tail a mem,forall_mem_cons.mpr ⟨first,forall_mem_cons.mpr ⟨best,rest⟩⟩⟩
  rename_i more
  rw [if_neg more] at mem
  have second : ¬r c m = true := fun beats => (weak.split a beats).elim more best
  refine ⟨?_,forall_mem_cons.mpr ⟨best,forall_mem_cons.mpr ⟨second,rest⟩⟩⟩
  rcases mem_cons.mp mem with rfl | later
  · exact .head _
  · exact .tail a (.tail c later)

lemma minLeast (weak : Weak r) {l : List α} {m : α} (found : minElement r l = some m) :
    m ∈ l ∧ ∀ b ∈ l, ¬r b m = true := by
  cases l with
  | nil => cases found
  | cons a l =>
    cases found
    exact foldLeast weak l a

end Extremes
