import Mathlib

/-! A worker thread with a timer of its own. It sets the timer to a time that others may change, waits for the
timer or for a wake-up, and takes the lock again some time later: until then both may happen. -/
namespace Alarm

def s64 (x : Int) : Int := x.bmod (2 ^ 64)

lemma s64Fits {x : Int} (low : -2 ^ 63 ≤ x) (high : x < 2 ^ 63) : s64 x = x :=
  Int.bmod_eq_of_le (by omega) (by omega)

variable {τ : Type}

structure Worker (τ : Type) where
  timer : Option τ
  fired : Bool
  woken : Bool
  deriving DecidableEq

def Worker.wait (timer : Option τ) : Worker τ := ⟨timer,false,false⟩
def Worker.wake (w : Worker τ) : Worker τ := { w with woken := true }

def Worker.fire [LE τ] [DecidableLE τ] (now : τ) (w : Worker τ) : Option (Worker τ) :=
  match w.timer with
  | some time => if time ≤ now then some { w with fired := true } else none
  | none => none

def Worker.runnable (w : Worker τ) : Bool := w.fired || w.woken

end Alarm
