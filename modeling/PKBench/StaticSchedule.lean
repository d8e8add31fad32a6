import Mathlib.Data.Nat.ModEq
import Mathlib.Algebra.Order.Group.Nat
import Mathlib.Algebra.BigOperators.Ring.Finset

/-!
# Static work sharing

A loop of `n` iterations shared by a team of `T` threads under a static
schedule without a chunk size is cut into `T` contiguous chunks: the first
`n % T` threads get one iteration more than the others. `staticShare` is that
share, thread by thread.
-/

/-- The iterations thread `t` of `T` gets of a loop of `n`. -/
def staticShare (n T t : ℕ) : ℕ := n / T + if t < n % T then 1 else 0

/-- When the team size divides the number of iterations all shares are equal. -/
theorem staticShare_of_dvd {n T : ℕ} (h : T ∣ n) (t : ℕ) : staticShare n T t = n / T := by
  rw [staticShare, Nat.mod_eq_zero_of_dvd h, if_neg (Nat.not_lt_zero t)]
  rfl

/-- The first thread gets the quotient rounded up. -/
theorem staticShare_zero (n T : ℕ) :
    staticShare n T 0 = n / T + if n % T = 0 then 0 else 1 := by
  rw [staticShare]
  by_cases h : n % T = 0
  · rw [if_pos h, if_neg (by omega)]
  · rw [if_neg h, if_pos (by omega)]

/-- No thread gets more than there is. -/
theorem staticShare_le (n T t : ℕ) : staticShare n T t ≤ n := by
  rw [staticShare]
  by_cases h : t < n % T
  · rw [if_pos h]
    have hmod : n % T + T * (n / T) = n := Nat.mod_add_div n T
    rcases Nat.eq_zero_or_pos T with hT | hT
    · rw [hT, Nat.div_zero]
      rw [hT, Nat.mod_zero] at h
      omega
    · have hle : n / T ≤ T * (n / T) := Nat.le_mul_of_pos_left _ hT
      omega
  · rw [if_neg h]
    exact Nat.div_le_self n T

/-- **A chunk that starts at its thread's multiple of the quotient stays inside
the loop.** -/
theorem mul_add_staticShare_le {n T t : ℕ} (hT : t < T) :
    n / T * t + staticShare n T t ≤ n := by
  have hmod : n % T + T * (n / T) = n := Nat.mod_add_div n T
  have hle : n / T * t + n / T ≤ T * (n / T) := by
    rw [← Nat.mul_succ, Nat.mul_comm T]
    exact Nat.mul_le_mul_left _ hT
  rw [staticShare]
  by_cases h : t < n % T
  · rw [if_pos h]
    omega
  · rw [if_neg h]
    omega

/-- Such a chunk reaches no further than the last whole multiple, unless there are
fewer iterations than threads. -/
theorem mul_add_staticShare_le_max {n T t : ℕ} (hT : t < T) :
    n / T * t + staticShare n T t ≤ max 1 (n / T * T) := by
  have hmodlt : n % T < T := Nat.mod_lt n (Nat.zero_lt_of_lt hT)
  rw [staticShare]
  rcases Nat.eq_zero_or_pos (n / T) with h0 | hpos
  · refine le_max_of_le_left ?_
    rw [h0]
    split <;> omega
  · refine le_max_of_le_right ?_
    by_cases hlt : t < n % T
    · have hstep : n / T * (t + 2) ≤ n / T * T := Nat.mul_le_mul_left _ (by omega)
      rw [Nat.mul_add] at hstep
      rw [if_pos hlt]
      omega
    · have hstep : n / T * (t + 1) ≤ n / T * T := Nat.mul_le_mul_left _ hT
      rw [Nat.mul_succ] at hstep
      rwa [if_neg hlt]

/-- **The shares of a team add up to the loop.** -/
theorem sum_staticShare (n : ℕ) {T : ℕ} (hT : 0 < T) :
    ∑ t ∈ Finset.range T, staticShare n T t = n := by
  have hfilter : (Finset.range T).filter (fun t => t < n % T) = Finset.range (n % T) := by
    ext t
    rw [Finset.mem_filter, Finset.mem_range, Finset.mem_range]
    exact ⟨fun h => h.2, fun h => ⟨h.trans (Nat.mod_lt n hT), h⟩⟩
  simp only [staticShare]
  rw [Finset.sum_add_distrib, Finset.sum_const, Finset.card_range, Finset.sum_boole, hfilter,
    Finset.card_range, nsmul_eq_mul]
  exact Nat.div_add_mod n T
