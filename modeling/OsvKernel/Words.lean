import Mathlib

/-! Machine arithmetic on Nat and Int: the difference of two 64-bit words and the value of a 32-bit int. -/
namespace Words

def sub64 (a b : Nat) : Nat := if b ≤ a then a - b else a + 2^64 - b

def int32 (x : Int) : Int := Int.bmod x (2^32)

lemma int32Add (x y : Int) : int32 (int32 x + y) = int32 (x + y) := Int.bmod_add_bmod

lemma int32Same {n : Int} (low : -2^31 ≤ n) (high : n < 2^31) : int32 n = n := Int.bmod_eq_of_le (by omega) (by omega)

lemma int32Small {n : Int} (low : 0 ≤ n) (high : n < 2^31) : int32 n = n := int32Same (by omega) high

end Words
