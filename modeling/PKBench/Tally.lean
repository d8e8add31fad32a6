import Mathlib.Data.Finset.Card
import Mathlib.Logic.Function.Basic

/-!
# Counting threads

How many of the first `n` values of a function have a property: the threads that
are through, the clients that are alive. The rules say how the count changes when
the value at one place does, and what it means for it to be as small or as large
as it can be.

Threads that come through one after the other leave a function that has the new
values below `n` and the old ones from there on (`update_ite_lt`).
-/

variable {α : Type} (P : α → Prop) [DecidablePred P]

/-- The number of `i < n` for which `f i` has the property. -/
def tally (f : ℕ → α) (n : ℕ) : ℕ := ((Finset.range n).filter (fun i => P (f i))).card

section Tally

variable {P} {f g : ℕ → α} {n i : ℕ} {a : α}

theorem tally_congr (h : ∀ i < n, (P (g i) ↔ P (f i))) : tally P g n = tally P f n :=
  congrArg Finset.card (Finset.filter_congr fun i hi => h i (Finset.mem_range.mp hi))

/-- All have the property. -/
theorem of_le_tally (h : n ≤ tally P f n) (hi : i < n) : P (f i) := by
  have hcard : ((Finset.range n).filter (fun i => P (f i))).card = (Finset.range n).card :=
    le_antisymm (Finset.card_filter_le _ _) (by rw [Finset.card_range]; exact h)
  exact Finset.card_filter_eq_iff.mp hcard i (Finset.mem_range.mpr hi)

/-- One has it not. -/
theorem tally_lt (hi : i < n) (h : ¬ P (f i)) : tally P f n < n :=
  lt_of_not_ge fun hle => h (of_le_tally hle hi)

/-- None has it. -/
theorem tally_eq_zero (h : ∀ i < n, ¬ P (f i)) : tally P f n = 0 := by
  rw [tally, Finset.card_eq_zero, Finset.filter_eq_empty_iff]
  exact fun i hi => h i (Finset.mem_range.mp hi)

/-- One more is looked at. -/
theorem tally_succ : tally P f (n + 1) = tally P f n + if P (f n) then 1 else 0 := by
  rw [tally, Finset.range_add_one, Finset.filter_insert]
  split
  · exact Finset.card_insert_of_notMem (by simp)
  · rfl

/-- One gains the property. -/
theorem tally_update_add_one (hi : i < n) (hold : ¬ P (f i)) (hnew : P a) :
    tally P (Function.update f i a) n = tally P f n + 1 := by
  have hnot : i ∉ (Finset.range n).filter (fun j => P (f j)) := by
    rw [Finset.mem_filter]
    exact fun hmem => hold hmem.2
  rw [tally, tally, ← Finset.card_insert_of_notMem hnot]
  congr 1
  ext j
  rw [Finset.mem_insert, Finset.mem_filter, Finset.mem_filter, Finset.mem_range]
  by_cases hji : j = i
  · subst hji
    simp [hi, hnew]
  · simp [hji]

/-- One loses it. -/
theorem tally_update_sub_one (hi : i < n) (hold : P (f i)) (hnew : ¬ P a) :
    tally P (Function.update f i a) n + 1 = tally P f n := by
  have hback := tally_update_add_one (f := Function.update f i a) (a := f i) hi
    (by rw [Function.update_self]; exact hnew) hold
  rw [← hback, Function.update_idem, Function.update_eq_self]

/-- One keeps it, or goes on without it. -/
theorem tally_update (h : P a ↔ P (f i)) : tally P (Function.update f i a) n = tally P f n := by
  refine tally_congr fun j _ => ?_
  by_cases hji : j = i
  · subst hji
    rw [Function.update_self]
    exact h
  · rw [Function.update_of_ne hji]

/-- The next thread comes through. -/
theorem update_ite_lt (f g : ℕ → α) (n : ℕ) :
    Function.update (fun i => if i < n then f i else g i) n (f n)
      = fun i => if i < n + 1 then f i else g i := by
  funext i
  by_cases hi : i = n
  · subst hi
    rw [Function.update_self, if_pos (Nat.lt_succ_self i)]
  · rw [Function.update_of_ne hi]
    by_cases hlt : i < n
    · rw [if_pos hlt, if_pos (Nat.lt_succ_of_lt hlt)]
    · rw [if_neg hlt, if_neg (by omega)]

end Tally
