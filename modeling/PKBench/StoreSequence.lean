import PKBench.ByteBuffer
import Mathlib.Algebra.Order.BigOperators.Group.Finset
import Mathlib.Algebra.Order.BigOperators.Group.List
import Mathlib.Algebra.BigOperators.Intervals
import Mathlib.Order.Interval.Finset.Nat

/-!
# Stores one after the other

A program that assembles its output piece by piece stores one list of bytes after
the other, and a later store may overwrite what an earlier one left. `storeAll` is
the memory after such stores, and `coverCount` how many of them reach an address.

The output is settled by the stores only where they reach: an address that none
of them reaches keeps what it held (`storeAll_of_coverCount_eq_zero`). If the
stores are to leave as many bytes as they copy, whatever the memory held before,
there is no room for an overlap: every address of the output is reached exactly
once and none beyond it at all (`coverCount_of_forall_holds`).
-/

namespace ByteBuffer

/-- **The memory after stores**, each a list of bytes with the address it goes to. -/
def storeAll (mem : ℕ → UInt8) : List (ℕ × List UInt8) → ℕ → UInt8
  | [] => mem
  | c :: copies => storeAll (store mem c.1 c.2) copies

/-- How many of the stores reach an address. -/
def coverCount (copies : List (ℕ × List UInt8)) (p : ℕ) : ℕ :=
  copies.countP (fun c => c.1 ≤ p ∧ p < c.1 + c.2.length)

/-- How many bytes are copied. -/
def copiedBytes (copies : List (ℕ × List UInt8)) : ℕ := (copies.map (fun c => c.2.length)).sum

theorem coverCount_cons (c : ℕ × List UInt8) (copies : List (ℕ × List UInt8)) (p : ℕ) :
    coverCount (c :: copies) p
      = coverCount copies p + if c.1 ≤ p ∧ p < c.1 + c.2.length then 1 else 0 := by
  simp only [coverCount, List.countP_cons, decide_eq_true_eq]

theorem copiedBytes_cons (c : ℕ × List UInt8) (copies : List (ℕ × List UInt8)) :
    copiedBytes (c :: copies) = c.2.length + copiedBytes copies := by
  rw [copiedBytes, List.map_cons, List.sum_cons]
  rfl

/-- An address that no store reaches. -/
theorem storeAll_of_coverCount_eq_zero {copies : List (ℕ × List UInt8)} {p : ℕ}
    (h : coverCount copies p = 0) (mem : ℕ → UInt8) : storeAll mem copies p = mem p := by
  induction copies generalizing mem with
  | nil => rfl
  | cons c copies ih =>
    rw [coverCount_cons, Nat.add_eq_zero_iff] at h
    obtain ⟨hrest, hc⟩ := h
    have hout : ¬ (c.1 ≤ p ∧ p < c.1 + c.2.length) := by
      intro hin
      rw [if_pos hin] at hc
      cases hc
    show storeAll (store mem c.1 c.2) copies p = _
    rw [ih hrest]
    rcases Nat.lt_or_ge p c.1 with hlt | hge
    · exact store_of_lt hlt
    · exact store_of_ge (Nat.le_of_not_lt (fun hlt => hout ⟨hge, hlt⟩))

/-- Added up over the addresses the stores reach the bytes they copy. -/
theorem sum_coverCount {copies : List (ℕ × List UInt8)} {m : ℕ}
    (h : ∀ c ∈ copies, c.1 + c.2.length ≤ m) :
    ∑ p ∈ Finset.range m, coverCount copies p = copiedBytes copies := by
  induction copies with
  | nil => exact Finset.sum_eq_zero (fun _ _ => rfl)
  | cons c copies ih =>
    have hend := h c List.mem_cons_self
    have hfilter : (Finset.range m).filter (fun p => c.1 ≤ p ∧ p < c.1 + c.2.length)
        = Finset.Ico c.1 (c.1 + c.2.length) := by
      ext p
      rw [Finset.mem_filter, Finset.mem_range, Finset.mem_Ico]
      exact ⟨fun hp => hp.2, fun hp => ⟨hp.2.trans_le hend, hp⟩⟩
    simp only [coverCount_cons]
    rw [Finset.sum_add_distrib, ih (fun c' hc' => h c' (List.mem_cons_of_mem c hc')),
      ← Finset.card_filter, hfilter, Nat.card_Ico, Nat.add_sub_cancel_left, copiedBytes_cons,
      Nat.add_comm]

/-- All stores end somewhere. -/
theorem exists_end (copies : List (ℕ × List UInt8)) (n : ℕ) :
    ∃ m, n ≤ m ∧ ∀ c ∈ copies, c.1 + c.2.length ≤ m := by
  refine ⟨n + (copies.map (fun c => c.1 + c.2.length)).sum, Nat.le_add_right _ _, fun c hc => ?_⟩
  have hmem : c.1 + c.2.length ∈ copies.map (fun c => c.1 + c.2.length) :=
    List.mem_map_of_mem (f := fun c : ℕ × List UInt8 => c.1 + c.2.length) hc
  exact (List.single_le_sum (fun _ _ => Nat.zero_le _) _ hmem).trans (Nat.le_add_left _ _)

/-- **Stores that reach every address below the number of bytes they copy reach each
once, and no other.** -/
theorem coverCount_of_covers {copies : List (ℕ × List UInt8)}
    (h : ∀ p < copiedBytes copies, 0 < coverCount copies p) (p : ℕ) :
    coverCount copies p = if p < copiedBytes copies then 1 else 0 := by
  obtain ⟨m, hm, hend⟩ := exists_end copies (max (p + 1) (copiedBytes copies))
  have hle : ∀ p ∈ Finset.range m,
      (if p < copiedBytes copies then 1 else 0) ≤ coverCount copies p := by
    intro p _
    by_cases hp : p < copiedBytes copies
    · rw [if_pos hp]
      exact h p hp
    · rw [if_neg hp]
      exact Nat.zero_le _
  have hfilter : (Finset.range m).filter (fun p => p < copiedBytes copies)
      = Finset.range (copiedBytes copies) := by
    ext p
    rw [Finset.mem_filter, Finset.mem_range, Finset.mem_range]
    exact ⟨fun hp => hp.2, fun hp => ⟨hp.trans_le ((le_max_right _ _).trans hm), hp⟩⟩
  have hsum : ∑ p ∈ Finset.range m, (if p < copiedBytes copies then 1 else 0)
      = ∑ p ∈ Finset.range m, coverCount copies p := by
    rw [sum_coverCount hend, ← Finset.card_filter, hfilter, Finset.card_range]
  have hp : p ∈ Finset.range m :=
    Finset.mem_range.mpr (Nat.lt_of_succ_le ((le_max_left _ _).trans hm))
  exact ((Finset.sum_eq_sum_iff_of_le hle).mp hsum p hp).symm

theorem apply_of_holds {mem : ℕ → UInt8} {bytes : List UInt8} (h : Holds mem 0 bytes) {p : ℕ}
    (hp : p < bytes.length) : mem p = bytes[p] := by
  have hlen : p < (load mem 0 bytes.length).length := by rwa [length_load]
  have hget := getElem_load mem 0 bytes.length hlen
  rw [Nat.zero_add] at hget
  rw [← hget]
  exact List.getElem_of_eq h hlen

/-- **Output that does not depend on what the memory held is stored without overlap**,
if it is as long as what is copied. -/
theorem coverCount_of_forall_holds {copies : List (ℕ × List UInt8)} {bytes : List UInt8}
    (hlen : bytes.length = copiedBytes copies)
    (h : ∀ mem, Holds (storeAll mem copies) 0 bytes) (p : ℕ) :
    coverCount copies p = if p < bytes.length then 1 else 0 := by
  rw [hlen]
  refine coverCount_of_covers (fun p hp => Nat.pos_of_ne_zero (fun hzero => ?_)) p
  -- two memories that differ at an address no store reaches
  rw [← hlen] at hp
  have h₀ := apply_of_holds (h (fun _ => 0)) hp
  have h₁ := apply_of_holds (h (fun _ => 1)) hp
  rw [storeAll_of_coverCount_eq_zero hzero] at h₀ h₁
  exact absurd (h₀.trans h₁.symm) (by decide)

end ByteBuffer
