import Mathlib

/-! Recursive locks and the threads that own them. -/
namespace OsvKernel.Locks

section
variable {T : Type} [DecidableEq T]

def acquire (t : T) : Option (T × Nat) → Option (Option (T × Nat))
  | none => some (some (t,1))
  | some (u,n) => if u = t then some (some (t,n + 1)) else none

def release (t : T) : Option (T × Nat) → Option (T × Nat)
  | none => none
  | some (u,n) => if u = t then (if n ≤ 1 then none else some (u,n - 1)) else some (u,n)

end

end OsvKernel.Locks
