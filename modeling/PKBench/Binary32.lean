import Mathlib.Algebra.Order.Ring.Rat
import Mathlib.Data.Int.Log
import Mathlib.Data.Rat.Floor

/-!
# Single precision

The rationals a `float` stands for, and the rounding to them: 24 bits, the last of
which has a weight of `2 ^ -149` or more, to the nearest and, of two, to the even one. An
operation on `float`s is the exact one, rounded (`toFloat`). There is no largest `float`
here.
-/

namespace Binary32

/-- The weight of the last of the 24 bits of a `float`. -/
def ulp (x : ℚ) : ℚ := 2 ^ max (Int.log 2 |x| - 23) (-149)

/-- The nearest integer, and of two the even one. -/
def nearest (x : ℚ) : ℤ :=
  if Int.fract x < 1 / 2 ∨ (Int.fract x = 1 / 2 ∧ 2 ∣ ⌊x⌋) then ⌊x⌋ else ⌊x⌋ + 1

/-- **The `float` a number is rounded to.** -/
def toFloat (x : ℚ) : ℚ := nearest (x / ulp x) * ulp x

theorem ulp_pos (x : ℚ) : 0 < ulp x := zpow_pos two_pos _

theorem nearest_intCast (n : ℤ) : nearest n = n := by
  unfold nearest
  rw [Int.fract_intCast, if_pos (.inl one_half_pos), Int.floor_intCast]

/-- **A multiple of its last bit is a `float`.** -/
theorem toFloat_of_eq {x : ℚ} {n : ℤ} (h : x = n * ulp x) : toFloat x = x := by
  unfold toFloat
  have hdiv : x / ulp x = n := (div_eq_iff (ulp_pos x).ne').mpr h
  rw [hdiv, nearest_intCast]
  exact h.symm

/-- Integers of 24 bits are `float`s. -/
theorem toFloat_natCast {n : ℕ} (h : n < 2 ^ 24) : toFloat n = n := by
  rcases Nat.eq_zero_or_pos n with rfl | hpos
  · exact toFloat_of_eq (n := 0) (by simp)
  · have hlog : Int.log 2 (n : ℚ) = Nat.log 2 n := Int.log_natCast 2 n
    have hlt : Nat.log 2 n < 24 := Nat.log_lt_of_lt_pow hpos.ne' h
    obtain ⟨e, hexp⟩ : ∃ e : ℕ, max (Int.log 2 |(n : ℚ)| - 23) (-149) = -(e : ℤ) := by
      refine ⟨23 - Nat.log 2 n, ?_⟩
      rw [Nat.abs_cast, hlog]
      omega
    refine toFloat_of_eq (n := n * 2 ^ e) ?_
    unfold ulp
    rw [hexp, zpow_neg, zpow_natCast]
    push_cast
    rw [mul_inv_cancel_right₀ (by positivity)]

end Binary32
