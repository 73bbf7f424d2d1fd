import Mathlib

/-! Owners that list who points at them. Each owner has an address of its own, and its list holds
exactly the pointers to that address. -/
namespace Backlinks
open Function

variable {R O A P : Type}

structure Agree (addr : O → A) (lists : O → P → Prop) (heap : R → Option O) (points : P → Option A) : Prop where
  listed : ∀ r o p, heap r = some o → (lists o p ↔ points p = some (addr o))
  unique : ∀ r q o o', heap r = some o → heap q = some o' → addr o = addr o' → r = q

variable {addr : O → A} {lists : O → P → Prop} {heap : R → Option O} {points : P → Option A} {r : R} {o o' : O} {p : P}

lemma Agree.only (agree : Agree addr lists heap points) {q : R} (live : heap r = some o) (mine : lists o p)
    (other : heap q = some o') (theirs : lists o' p) : q = r := by
  have here := (agree.listed r o p live).mp mine
  have there := (agree.listed q o' p other).mp theirs
  exact agree.unique q r o' o other live (Option.some.inj (there.symm.trans here))

section
variable [DecidableEq R]

lemma Agree.add (agree : Agree addr lists heap points) (empty : ∀ p, ¬ lists o p)
    (unused : ∀ q o', heap q = some o' → addr o' ≠ addr o) (fresh : ∀ p, points p ≠ some (addr o)) :
    Agree addr lists (update heap r (some o)) points := by
  constructor
  · intro q o' p live
    by_cases new : q = r
    · subst q
      cases update_self r (some o) heap ▸ live
      exact ⟨fun mem => absurd mem (empty p),fun eq => absurd eq (fresh p)⟩
    · exact agree.listed q o' p (update_of_ne new (some o) heap ▸ live)
  intro q u o1 o2 first second same
  simp only [update_apply] at first second
  grind [agree.unique]

lemma Agree.delete (agree : Agree addr lists heap points) (points' : P → Option A) (live : heap r = some o)
    (gone : ∀ p, lists o p → points' p = none) (kept : ∀ p, ¬ lists o p → points' p = points p) :
    Agree addr lists (update heap r none) points' := by
  constructor
  · intro q o' p other
    simp only [update_apply] at other
    by_cases mem : lists o p
    · have here := agree.listed r o p live
      have there := agree.listed q o' p
      have clash := agree.unique q r o' o
      grind
    rw [kept p mem]
    grind [agree.listed]
  intro q u o1 o2 first second same
  simp only [update_apply] at first second
  grind [agree.unique]

end

section
variable [DecidableEq P]

lemma Agree.aim (agree : Agree addr lists heap points) (x : Option A)
    (free : ∀ q o', heap q = some o' → ¬ lists o' p) (away : ∀ q o', heap q = some o' → x ≠ some (addr o')) :
    Agree addr lists heap (update points p x) := by
  refine ⟨fun q o' p' live => ?_,agree.unique⟩
  simp only [update_apply]
  grind [agree.listed]

variable [DecidableEq R]

lemma Agree.link (agree : Agree addr lists heap points) (live : heap r = some o) (same : addr o' = addr o)
    (adds : ∀ q, lists o' q ↔ q = p ∨ lists o q) (only : ∀ q o2, heap q = some o2 → lists o2 p → q = r) :
    Agree addr lists (update heap r (some o')) (update points p (some (addr o))) := by
  constructor
  · intro q o2 p' other
    have unique := agree.unique
    simp only [update_apply] at other ⊢
    by_cases new : q = r <;> grind [agree.listed]
  intro q u o1 o2 first second eq
  simp only [update_apply] at first second
  grind [agree.unique]

lemma Agree.unlink (agree : Agree addr lists heap points) (x : Option A) (live : heap r = some o)
    (same : addr o' = addr o) (mine : lists o p) (drops : ∀ q, lists o' q ↔ lists o q ∧ q ≠ p)
    (away : ∀ q o', heap q = some o' → x ≠ some (addr o')) :
    Agree addr lists (update heap r (some o')) (update points p x) := by
  constructor
  · intro q o2 p' other
    have only : ∀ o3, heap q = some o3 → lists o3 p → q = r := fun _ there theirs => agree.only live mine there theirs
    simp only [update_apply] at other ⊢
    by_cases new : q = r <;> grind [agree.listed]
  intro q u o1 o2 first second eq
  simp only [update_apply] at first second
  grind [agree.unique]

end

end Backlinks
