import OsvKernel.NameiPaths

/-! Which mount vfs_findroot chooses. -/
namespace OsvKernel.VfsFindroot
open List Option Namei

-- The path of a mount: the root, or absolute without a slash at the end.
def Rooted (root : List Char) : Prop := root = ['/'] ∨ root.head? = some '/' ∧ 1 < root.length ∧ root.getLast? ≠ some '/'

def Covers (path root : List Char) : Prop :=
  root <+: path ∧ (root = ['/'] ∨ path.drop root.length = [] ∨ (path.drop root.length).head? = some '/')

variable {path root : List Char} {mounts : List Mount}

lemma Rooted.pos (rooted : Rooted root) : 0 < root.length := by
  rcases rooted with rfl | ⟨-,long,-⟩
  · exact Nat.one_pos
  · omega

lemma countMatchCovers (covers : Covers path root) : countMatch path root = root.length := by
  obtain ⟨inside,ends⟩ := covers
  have whole := matchLoopWhole path root 0 inside
  rw [Nat.zero_add] at whole
  simp only [countMatch,whole,ne_eq,not_true_eq_false,if_false]
  rcases ends with rfl | ends
  · obtain ⟨rest,rfl⟩ := inside
    rfl
  rw [if_pos ends]
  split
  next one => exact one.1.symm
  · rfl

lemma countMatchOff (rooted : Rooted root) (off : ¬ Covers path root) : countMatch path root = 0 := by
  by_cases inside : root <+: path
  swap
  · exact if_pos (matchLoopPart 0 inside)
  have whole := matchLoopWhole path root 0 inside
  rw [Nat.zero_add] at whole
  have ends : ¬ (path.drop root.length = [] ∨ (path.drop root.length).head? = some '/') := fun ends => off ⟨inside,.inr ends⟩
  have long : root.length ≠ 1 := by
    rcases rooted with rfl | ⟨-,long,-⟩
    · exact absurd ⟨inside,.inl rfl⟩ off
    omega
  simp only [countMatch,whole,ne_eq,not_true_eq_false,if_false,long,false_and,if_neg ends]

structure Nearest (mounts : List Mount) (path : List Char) (best : Option (Mount × Nat)) : Prop where
  off : best = none → ∀ m ∈ mounts, ¬ Covers path m.path
  near : ∀ m len, best = some (m,len) → m ∈ mounts ∧ Covers path m.path ∧ len = m.path.length ∧
    ∀ k ∈ mounts, Covers path k.path → k.path.length ≤ len

lemma Nearest.next {best : Option (Mount × Nat)} {m : Mount} (nearest : Nearest mounts path best) (rooted : Rooted m.path) :
    Nearest (mounts ++ [m]) path (nearer path best m) := by
  obtain ⟨off,near⟩ := nearest
  have longer : ∀ n, (∀ k ∈ mounts, Covers path k.path → k.path.length ≤ n) → (Covers path m.path → m.path.length ≤ n) →
      ∀ k ∈ mounts ++ [m], Covers path k.path → k.path.length ≤ n :=
    fun n old new => forall_mem_append.mpr ⟨old,forall_mem_singleton.mpr new⟩
  unfold nearer
  by_cases covers : Covers path m.path
  swap
  · rw [countMatchOff rooted covers]
    refine ⟨fun none => forall_mem_append.mpr ⟨off none,forall_mem_singleton.mpr covers⟩,fun k len eq => ?_⟩
    obtain ⟨mem,within,same,most⟩ := near k len eq
    exact ⟨mem_append_left _ mem,within,same,longer _ most fun inside => absurd inside covers⟩
  rw [countMatchCovers covers]
  dsimp only
  split
  next more =>
    refine ⟨nofun,fun k len eq => ?_⟩
    cases eq
    refine ⟨by simp,covers,rfl,longer _ (fun k old within => ?_) fun _ => Nat.le_refl _⟩
    cases best with
    | none => exact absurd within (off rfl k old)
    | some b => exact Nat.le_trans ((near b.1 b.2 rfl).2.2.2 k old within) (Nat.le_of_lt more)
  rename_i less
  refine ⟨fun none => ?_,fun k len eq => ?_⟩
  · rw [none] at less
    exact absurd rooted.pos less
  obtain ⟨mem,within,same,most⟩ := near k len eq
  rw [eq] at less
  exact ⟨mem_append_left _ mem,within,same,longer _ most fun _ => Nat.le_of_not_lt less⟩

lemma nearestAll (rooted : ∀ m ∈ mounts, Rooted m.path) : Nearest mounts path (mounts.foldl (nearer path) none) := by
  induction mounts using List.reverseRecOn with
  | nil => exact ⟨nofun,nofun⟩
  | append_singleton mounts m ih =>
    rw [foldl_append]
    exact (ih fun k mem => rooted k (mem_append_left _ mem)).next (rooted m (by simp))

theorem findrootNearest (mounts : List Mount) (path : List Char) (rooted : ∀ m ∈ mounts, Rooted m.path) :
    ((vfsFindroot mounts path).isSome ↔ ∃ m ∈ mounts, Covers path m.path) ∧
      ∀ m root, vfsFindroot mounts path = some (m,root) →
        m ∈ mounts ∧ Covers path m.path ∧ (∀ k ∈ mounts, Covers path k.path → k.path.length ≤ m.path.length) ∧
          (path = m.path ++ root ∧ root.head? ≠ some '/' ∨ path = m.path ++ '/'::root) := by
  obtain ⟨off,near⟩ := @nearestAll path mounts rooted
  unfold vfsFindroot
  generalize mounts.foldl (nearer path) none = best at off near ⊢
  rcases best with _ | b
  · exact ⟨by simpa using off rfl,nofun⟩
  obtain ⟨mem,covers,same,most⟩ := near b.1 b.2 rfl
  refine ⟨by simpa using ⟨b.1,mem,covers⟩,fun m root eq => ?_⟩
  obtain ⟨⟨⟩⟩ := eq
  refine ⟨mem,covers,same ▸ most,?_⟩
  obtain ⟨rest,whole⟩ := covers.1
  rw [same,← whole,drop_left]
  split
  next slash => exact .inr (by rw [cons_head?_tail slash])
  next other => exact .inl ⟨rfl,other⟩

def rootAndDev : List Mount := [⟨0,['/'],0⟩,⟨1,['/','d','e','v'],1⟩]

theorem findrootNearestDevice : Covers ['/','d','e','v','i','c','e'] ['/'] :=
  ((findrootNearest rootAndDev ['/','d','e','v','i','c','e'] (by simp [rootAndDev,Rooted])).2 ⟨0,['/'],0⟩
    ['d','e','v','i','c','e'] (by decide)).2.1

end OsvKernel.VfsFindroot
