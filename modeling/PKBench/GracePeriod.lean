import Mathlib.Logic.Function.Basic
import Mathlib.Algebra.Order.Group.Nat

/-!
# Grace periods

Each of a number of threads says in a flag whether it is in a critical section, and
counts the sections it has entered. It sets the flag first and counts then. A barrier
reads all the counts, and then waits for each thread in turn until the thread's flag
is down or its count is another one.

The barrier does not read everything at once, and a thread may be seen between its
two writes. All the same, a thread that stays in its critical section is waited for,
from the moment its count is read on (`Barrier.Awaits`). A thread whose count is not
read yet is not, but it will be, unless it enters its section after that: then its
count has changed and the barrier does not care.
-/

namespace GracePeriod

/-- What a thread shows of itself. -/
structure Status where
  epoch : UInt64 := 0
  running : Bool := false

/-- **A barrier**: not begun, reading the counts, about to look at a flag, about to
look at a count because the flag is up, or passed. -/
inductive Barrier where
  | idle
  | collecting (i : ℕ) (prev : ℕ → UInt64)
  | polling (i : ℕ) (prev : ℕ → UInt64)
  | checking (i : ℕ) (prev : ℕ → UInt64)
  | passed

namespace Barrier

/-- The barrier begins. -/
def start : Barrier := .collecting 0 (fun _ => 0)

/-- **The next read of a barrier of `n` threads.** -/
def step (n : ℕ) (status : ℕ → Status) : Barrier → Option Barrier
  | .idle => none
  | .collecting i prev =>
      some (if i < n then .collecting (i + 1) (Function.update prev i (status i).epoch)
        else .polling 0 prev)
  | .polling i prev =>
      some (if i < n then
          if (status i).running then .checking i prev else .polling (i + 1) prev
        else .passed)
  | .checking i prev =>
      some (if (status i).epoch = prev i then .polling i prev else .polling (i + 1) prev)
  | .passed => none

/-- **The barrier does not pass a thread as long as it stays in its section.** -/
def Awaits (status : ℕ → Status) (u : ℕ) : Barrier → Prop
  | .idle => True
  | .collecting i prev => u < i → (status u).epoch = prev u
  | .polling i prev => i ≤ u ∧ (status u).epoch = prev u
  | .checking i prev => i ≤ u ∧ (status u).epoch = prev u
  | .passed => False

variable {n u : ℕ} {status status' : ℕ → Status} {b b' : Barrier}

/-- What other threads do does not matter. -/
theorem Awaits.congr (h : b.Awaits status u) (hu : status' u = status u) :
    b.Awaits status' u := by
  cases b with
  | idle => trivial
  | collecting i prev => rw [Awaits, hu]; exact h
  | polling i prev => rw [Awaits, hu]; exact h
  | checking i prev => rw [Awaits, hu]; exact h
  | passed => exact h

/-- **A thread in its section is waited for, whatever the barrier reads next.** -/
theorem Awaits.step (h : b.Awaits status u) (hn : u < n) (hrunning : (status u).running = true)
    (hs : b.step n status = some b') : b'.Awaits status u := by
  cases b with
  | idle => cases hs
  | collecting i prev =>
    obtain rfl := Option.some.inj hs
    by_cases hi : i < n
    · rw [if_pos hi]
      intro hu
      by_cases hui : u = i
      · rw [hui, Function.update_self]
      · rw [Function.update_of_ne hui]
        exact h (by omega)
    · rw [if_neg hi]
      exact ⟨Nat.zero_le u, h (by omega)⟩
  | polling i prev =>
    obtain rfl := Option.some.inj hs
    obtain ⟨hle, hepoch⟩ := h
    rw [if_pos (Nat.lt_of_le_of_lt hle hn)]
    by_cases hi : (status i).running = true
    · rw [if_pos hi]
      exact ⟨hle, hepoch⟩
    · rw [if_neg hi]
      have hne : i ≠ u := fun he => hi (he ▸ hrunning)
      exact ⟨by omega, hepoch⟩
  | checking i prev =>
    obtain rfl := Option.some.inj hs
    obtain ⟨hle, hepoch⟩ := h
    by_cases hi : (status i).epoch = prev i
    · rw [if_pos hi]
      exact ⟨hle, hepoch⟩
    · rw [if_neg hi]
      have hne : i ≠ u := fun he => hi (he ▸ hepoch)
      exact ⟨by omega, hepoch⟩
  | passed => cases hs

/-- A barrier that begins waits for every thread. -/
theorem awaits_start : start.Awaits status u := fun hu => absurd hu (Nat.not_lt_zero u)

end Barrier

end GracePeriod
