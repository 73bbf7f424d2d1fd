import Mathlib

/-! Lists of pieces that follow one another without a gap: from a to b each piece
starts where the one before it ends. -/
namespace OsvKernel

inductive Tiles {α : Type*} (start size : α → Nat) : Nat → List α → Nat → Prop where
  | nil (a : Nat) : Tiles start size a [] a
  | cons {a b : Nat} {x : α} {xs : List α} : start x = a → 0 < size x →
      Tiles start size (a + size x) xs b → Tiles start size a (x::xs) b

section
variable {α : Type*} {start size : α → Nat} {a b c : Nat} {xs ys : List α}

lemma Tiles.one {x : α} (pos : 0 < size x) : Tiles start size (start x) [x] (start x + size x) :=
  .cons rfl pos (.nil _)

section
variable (h : Tiles start size a xs b)
include h

lemma Tiles.append (tail : Tiles start size b ys c) : Tiles start size a (xs ++ ys) c := by
  induction h with
  | nil => exact tail
  | cons begins pos _ ih => exact .cons begins pos (ih tail)

lemma Tiles.le : a ≤ b := by
  induction h with
  | nil => exact Nat.le_refl _
  | cons _ _ _ ih => omega

lemma Tiles.within {x : α} (mem : x ∈ xs) :
    a ≤ start x ∧ start x + size x ≤ b := by
  induction h with
  | nil => simp at mem
  | cons begins _ tail ih => ?_
  rcases List.mem_cons.mp mem with rfl | later
  · exact ⟨Nat.le_of_eq begins.symm,begins ▸ tail.le⟩
  have rest := ih later
  exact ⟨by omega,rest.2⟩

lemma Tiles.ordered : xs.Pairwise fun x y => start x + size x ≤ start y := by
  induction h with
  | nil => exact .nil
  | cons begins _ tail ih => ?_
  refine List.pairwise_cons.mpr ⟨?_,ih⟩
  intro y mem
  rw [begins]
  exact (tail.within mem).1

lemma Tiles.covers (v : Nat) : (a ≤ v ∧ v < b) ↔ ∃ x ∈ xs, start x ≤ v ∧ v < start x + size x := by
  constructor
  · intro inside
    induction h with
    | nil => omega
    | @cons a b x xs begins _ _ ih => ?_
    by_cases first : v < a + size x
    · exact ⟨x,by simp,by omega,by omega⟩
    obtain ⟨y,mem,holds⟩ := ih ⟨by omega,inside.2⟩
    exact ⟨y,by simp [mem],holds⟩
  rintro ⟨x,mem,holds⟩
  have bounds := h.within mem
  omega

end

end
end OsvKernel
