import Mathlib

/-! Texts as C and C++ read them: numbers, and lines without their newlines, the last of them possibly without one. -/
namespace Lines
open List

def isSpace (c : Char) : Bool := [' ','\t','\n','\x0b','\x0c','\r'].contains c
def decimal (digits : List Char) : Nat := digits.foldl (fun v c => 10 * v + (c.toNat - '0'.toNat)) 0

def signed : List Char → Bool × List Char
  | '-'::s => (true,s)
  | '+'::s => (false,s)
  | s => (false,s)

def linesFrom (line : List Char) : List Char → List (List Char)
  | [] => if line = [] then [] else [line]
  | c::s => if c = '\n' then line::linesFrom [] s else linesFrom (line ++ [c]) s

def getlines (s : List Char) : List (List Char) := linesFrom [] s
def extent (lines : List (List Char)) : Nat := (lines.map fun line => line.length + 1).sum
def unended (s : List Char) : Nat := if s.getLast?.all (· = '\n') then 0 else 1

variable {s t line : List Char}

lemma linesFromPlain (plain : '\n' ∉ t) : linesFrom line (t ++ s) = linesFrom (line ++ t) s := by
  induction t generalizing line with
  | nil => rw [append_nil,nil_append]
  | cons c t ih =>
    have other : c ≠ '\n' := (ne_of_not_mem_cons plain).symm
    have rest : '\n' ∉ t := not_mem_of_not_mem_cons plain
    rw [cons_append,linesFrom,if_neg other,ih rest,append_assoc,singleton_append]

lemma getlinesEnded (plain : '\n' ∉ t) : getlines (t ++ '\n'::s) = t::getlines s := by
  rw [getlines,linesFromPlain plain,linesFrom,if_pos rfl,nil_append]
  rfl

lemma getlinesOpen (plain : '\n' ∉ t) (some : t ≠ []) : getlines t = [t] := by
  have whole := @linesFromPlain [] t [] plain
  rw [append_nil,nil_append] at whole
  rw [getlines,whole,linesFrom,if_neg some]

lemma unendedCons (c : Char) (some : s ≠ []) : unended (c::s) = unended s := by
  obtain ⟨b,s,rfl⟩ := exists_cons_of_ne_nil some
  rw [unended,unended,List.getLast?_cons_cons]

lemma unendedAppend (some : s ≠ []) : unended (t ++ s) = unended s := by
  induction t with
  | nil => rfl
  | cons c t ih => rw [cons_append,unendedCons c (by simp [some]),ih]

lemma unendedNewline (s : List Char) : unended ('\n'::s) = unended s := by
  by_cases none : s = []
  · rw [none]; rfl
  · exact unendedCons _ none

lemma unendedPlain (plain : '\n' ∉ t) (some : t ≠ []) : unended t = 1 := by
  have last : t.getLast some ≠ '\n' := fun same => plain (same ▸ getLast_mem some)
  rw [unended,List.getLast?_eq_getLast_of_ne_nil some]
  simp [last]

lemma extentFrom (plain : '\n' ∉ line) : extent (linesFrom line s) = (line ++ s).length + unended (line ++ s) := by
  induction s generalizing line with
  | nil =>
    rw [linesFrom,append_nil]
    split
    · next none => rw [none]; rfl
    · next some => rw [unendedPlain plain some]; simp [extent]
  | cons c s ih => ?_
  rw [linesFrom]
  split
  · next newline =>
    have rest := @ih [] (by simp)
    have ends : unended (line ++ c::s) = unended s := by rw [unendedAppend (cons_ne_nil c s),newline,unendedNewline]
    have split : extent (line::linesFrom [] s) = line.length + 1 + extent (linesFrom [] s) := by simp [extent]
    rw [nil_append] at rest
    rw [split,rest,ends,length_append,length_cons]
    omega
  next other =>
  rw [ih (by simp [plain,Ne.symm other]),append_assoc,singleton_append]

lemma extentGetlines (s : List Char) : extent (getlines s) = s.length + unended s := extentFrom (by simp)

end Lines
