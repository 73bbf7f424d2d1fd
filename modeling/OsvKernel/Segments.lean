import Mathlib

/-! Strings cut at a separator. The segments are the pieces that are not empty. -/
namespace Segments
open List

variable {α : Type} [DecidableEq α] {sep : α} {l n : List α} {names : List (List α)}

def segments (sep : α) (l : List α) : List (List α) := (l.splitOn sep).filter (· ≠ [])
def flat (sep : α) (names : List (List α)) : List α := names.flatMap (sep :: ·)
def Segment (sep : α) (n : List α) : Prop := n ≠ [] ∧ sep ∉ n

instance : Decidable (Segment sep n) := inferInstanceAs (Decidable (_ ∧ _))

lemma splitOnCons (sep c : α) (l : List α) :
    (c::l).splitOn sep = if c = sep then []::l.splitOn sep else (l.splitOn sep).modifyHead (c::·) := by
  simp only [splitOn_cons_eq_if_modifyHead,beq_iff_eq]

lemma splitOnCut (sep : α) (l : List α) : l.splitOn sep = l.takeWhile (· ≠ sep):: (match l.dropWhile (· ≠ sep) with
        | [] => []
        | _::rest => rest.splitOn sep) := by
  induction l with
  | nil => rfl
  | cons c l ih => ?_
  rw [splitOnCons]
  by_cases same : c = sep
  · simp [same]
  rw [if_neg same,ih]
  simp [same]

lemma segmentsSep (sep : α) (l : List α) : segments sep (sep::l) = segments sep l := by
  simp [segments,splitOnCons]

lemma splitOnAppend (out : sep ∉ n) (l : List α) : (n ++ sep::l).splitOn sep = n::l.splitOn sep := by
  refine splitOnP_append_cons_of_forall_mem (p := (· == sep)) (fun c mem => ?_) sep (beq_self_eq_true sep) l
  rw [beq_eq_false_iff_ne]
  rintro rfl
  exact out mem

lemma segmentsAppend (segment : Segment sep n) (l : List α) : segments sep (n ++ sep::l) = n::segments sep l := by
  rw [segments,splitOnAppend segment.2,filter_cons_of_pos (by simpa using segment.1)]
  rfl

lemma segmentsSingle (segment : Segment sep n) : segments sep n = [n] := by
  rw [segments,splitOn_eq_singleton segment.2,filter_cons_of_pos (by simpa using segment.1)]
  rfl

omit [DecidableEq α] in
@[simp] lemma flatNil (sep : α) : flat sep [] = [] := rfl

omit [DecidableEq α] in
@[simp] lemma flatCons (sep : α) (n : List α) (names : List (List α)) : flat sep (n::names) = sep::(n ++ flat sep names) := rfl

omit [DecidableEq α] in
@[simp] lemma flatAppend (sep : α) (names more : List (List α)) :
    flat sep (names ++ more) = flat sep names ++ flat sep more := flatMap_append

lemma segmentsFlat (proper : ∀ n ∈ names, Segment sep n) : segments sep (flat sep names) = names := by
  induction names with
  | nil => rfl
  | cons n names ih => ?_
  have segment := proper n (.head _)
  have rest := ih fun n mem => proper n (.tail _ mem)
  rw [flatCons,segmentsSep]
  rcases names with _ | ⟨next,names⟩
  · rw [flatNil,append_nil]
    exact segmentsSingle segment
  rw [flatCons,segmentsSep] at rest
  rw [flatCons,segmentsAppend segment,rest]

lemma segmentsFlatSep (proper : ∀ n ∈ names, Segment sep n) : segments sep (flat sep names ++ [sep]) = names := by
  have cut := splitOnP_append_cons (p := (· == sep)) (flat sep names) [] (beq_self_eq_true sep)
  rw [segments,splitOn,cut,filter_append]
  exact (append_nil _).trans (segmentsFlat proper)

lemma segmentsMem (mem : n ∈ segments sep l) : Segment sep n := by
  obtain ⟨piece,filled⟩ := mem_filter.mp mem
  refine ⟨by simpa using filled,?_⟩
  clear mem filled
  induction l generalizing n with
  | nil =>
    cases mem_singleton.mp piece
    exact not_mem_nil
  | cons c l ih => ?_
  rw [splitOnCons] at piece
  split at piece
  · rcases mem_cons.mp piece with rfl | piece
    · exact not_mem_nil
    · exact ih piece
  rename_i other
  rcases pieces : l.splitOn sep with _ | ⟨first,rest⟩
  · exact absurd pieces (splitOn_ne_nil sep l)
  rw [pieces,modifyHead_cons] at piece
  rcases mem_cons.mp piece with rfl | piece
  · rw [mem_cons,not_or]
    exact ⟨Ne.symm other,ih (pieces ▸ (.head _))⟩
  · exact ih (pieces ▸ mem_cons_of_mem _ piece)

lemma segmentsFirst {c : α} (other : c ≠ sep) (l : List α) : segments sep (c::l) =
    (c::l).takeWhile (· ≠ sep)::segments sep ((c::l).dropWhile (· ≠ sep)) := by
  rw [segments,splitOnCut,filter_cons_of_pos (by simp [other])]
  refine congrArg _ ?_
  rcases left : (c::l).dropWhile (· ≠ sep) with _ | ⟨d,rest⟩
  · rfl
  have same : d = sep := by
    have head := head?_dropWhile_not (· ≠ sep) (c::l)
    rw [left] at head
    simpa using head
  rw [same,segmentsSep]
  rfl

lemma segmentsNone (none : segments sep l = []) : l.dropWhile (· = sep) = [] := by
  induction l with
  | nil => rfl
  | cons c l ih => ?_
  by_cases same : c = sep
  · subst same
    rw [segmentsSep] at none
    simpa using ih none
  · rw [segmentsFirst same] at none
    cases none

-- Where a string that has a segment goes on after it.
lemma segmentsCut (cut : segments sep l = n::names) :
    ∃ q, l.dropWhile (· = sep) = n ++ q ∧ (q = [] ∨ q.head? = some sep) ∧ segments sep q = names := by
  induction l with
  | nil => cases cut
  | cons c l ih => ?_
  by_cases same : c = sep
  · subst same
    rw [segmentsSep] at cut
    simpa using ih cut
  rw [segmentsFirst same] at cut
  obtain ⟨rfl,rfl⟩ := cons.inj cut
  refine ⟨(c::l).dropWhile (· ≠ sep),?_,?_,rfl⟩
  · rw [takeWhile_append_dropWhile,dropWhile_cons_of_neg (by simpa using same)]
  rcases left : (c::l).dropWhile (· ≠ sep) with _ | ⟨d,rest⟩
  · exact .inl rfl
  have head := head?_dropWhile_not (· ≠ sep) (c::l)
  rw [left] at head
  exact .inr (by simpa using head)

def weight : List (List α) → Nat
  | [] => 0
  | [n] => n.length
  | n::names => n.length + 1 + weight names

lemma weightSplitOn (sep : α) (l : List α) : weight (l.splitOn sep) = l.length := by
  induction l with
  | nil => rfl
  | cons c l ih => ?_
  rw [splitOnCons]
  rcases pieces : l.splitOn sep with _ | ⟨first,rest⟩
  · exact absurd pieces (splitOn_ne_nil sep l)
  rw [pieces] at ih
  split
  · simp only [weight,length_nil,length_cons,ih]
    omega
  rw [modifyHead_cons]
  cases rest <;> simp only [weight,length_cons] at ih ⊢ <;> omega

-- The segments are no more than the string has room for.
lemma segmentsLength (sep : α) (l : List α) :
    (flat sep (segments sep l)).length ≤ l.length + 1 ∧ (segments sep l).length ≤ l.length := by
  rw [← weightSplitOn sep l,segments]
  generalize l.splitOn sep = pieces
  induction pieces with
  | nil => exact ⟨Nat.zero_le _,Nat.le_refl _⟩
  | cons n rest ih => ?_
  have more : weight rest + n.length ≤ weight (n::rest) ∧ (rest ≠ [] → weight (n::rest) = n.length + 1 + weight rest) := by
    cases rest <;> simp [weight] <;> omega
  by_cases empty : n = []
  · rw [filter_cons_of_neg (by simpa using empty)]
    omega
  have some := length_pos_iff.mpr empty
  rw [filter_cons_of_pos (by simpa using empty),flatCons,length_cons,length_cons,length_append]
  rcases rest with _ | ⟨next,rest⟩
  · simp [weight]
    omega
  have := more.2 (cons_ne_nil _ _)
  omega

end Segments
