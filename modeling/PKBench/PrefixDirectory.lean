import Mathlib.Algebra.Group.Nat.Defs
import Mathlib.Data.Nat.Bitwise
import Mathlib.Logic.Function.Basic

/-!
# Directories of extendible hash tables

The directory of an extendible hash table is indexed with the leading bits of a hash, as
many as its depth. An entry has a depth of its own, which is not greater, and all indices
that agree in so many leading bits have the same entry (`Sound`). An entry is split by
one more bit: one half of its indices goes to a new entry, and both have a depth one
greater. If the entry had the depth of the directory, the directory is doubled first.
`Splits` says what comes out in either case, index by index, and it keeps a directory
sound (`Sound.splits`).

Numbers are words of `w` bits; `leading w n d` are the `d` leading bits of `n`.
-/

/-- **A directory**, indexed with so many leading bits. -/
structure PrefixDirectory (α : Type) where
  depth : ℕ
  entry : ℕ → α

namespace PrefixDirectory

/-- The leading bits of a word. -/
def leading (w n d : ℕ) : ℕ := n / 2 ^ (w - d)

theorem leading_lt {w n d : ℕ} (hd : d ≤ w) (hn : n < 2 ^ w) : leading w n d < 2 ^ d := by
  refine Nat.div_lt_of_lt_mul ?_
  rw [← pow_add, Nat.sub_add_cancel hd]
  exact hn

/-- Fewer leading bits. -/
theorem leading_div {w n d e : ℕ} (hde : d ≤ e) (he : e ≤ w) :
    leading w n e / 2 ^ (e - d) = leading w n d := by
  unfold leading
  rw [Nat.div_div_eq_div_mul, ← pow_add]
  congr 2
  omega

/-- The last of the leading bits. -/
theorem testBit_eq_leading (w n d : ℕ) :
    n.testBit (w - d - 1) = decide (leading w n (d + 1) % 2 = 1) := by
  unfold leading
  rw [Nat.testBit_eq_decide_div_mod_eq, Nat.sub_sub]

variable {α : Type}

/-- **The indices of an entry** are those that agree in as many leading bits as its
depth. -/
structure Sound (D : PrefixDirectory α) (depth : α → ℕ) : Prop where
  le : ∀ x < 2 ^ D.depth, depth (D.entry x) ≤ D.depth
  same : ∀ x < 2 ^ D.depth, ∀ y < 2 ^ D.depth, D.entry y = D.entry x
    ↔ y / 2 ^ (D.depth - depth (D.entry x)) = x / 2 ^ (D.depth - depth (D.entry x))

variable [DecidableEq α] {D D' : PrefixDirectory α} {depth : α → ℕ} {a b : α}

/-- **An entry is split**: where the next bit is one, the new entry takes its place. -/
structure Splits (D D' : PrefixDirectory α) (depth : α → ℕ) (a b : α) : Prop where
  le : D.depth ≤ D'.depth
  lt : depth a < D'.depth
  entry : ∀ y < 2 ^ D'.depth, D'.entry y
    = if D.entry (y / 2 ^ (D'.depth - D.depth)) = a then
        if y / 2 ^ (D'.depth - depth a - 1) % 2 = 1 then b else a
      else D.entry (y / 2 ^ (D'.depth - D.depth))

/-- The depths after a split. -/
def splitDepth (depth : α → ℕ) (a b : α) : α → ℕ :=
  Function.update (Function.update depth a (depth a + 1)) b (depth a + 1)

theorem splitDepth_of_ne {c : α} (ha : c ≠ a) (hb : c ≠ b) : splitDepth depth a b c = depth c := by
  rw [splitDepth, Function.update_of_ne hb, Function.update_of_ne ha]

theorem splitDepth_right : splitDepth depth a b b = depth a + 1 := Function.update_self _ _ _

theorem splitDepth_left (hne : a ≠ b) : splitDepth depth a b a = depth a + 1 := by
  rw [splitDepth, Function.update_of_ne hne, Function.update_self]

/-- Numbers with the same half and the same last bit. -/
theorem eq_iff_half {m n : ℕ} : m = n ↔ m / 2 = n / 2 ∧ (m % 2 = 1 ↔ n % 2 = 1) := by
  omega

omit [DecidableEq α] in
/-- The two halves tell the bit. -/
theorem half_eq_half_iff (hne : a ≠ b) (p q : Prop) [Decidable p] [Decidable q] :
    (if p then b else a) = (if q then b else a) ↔ (p ↔ q) := by
  by_cases hp : p <;> by_cases hq : q <;> simp [hp, hq, hne, hne.symm]

section Split

variable (h : D.Sound depth) (hs : D.Splits D' depth a b)

include hs in
theorem Splits.div_lt {y : ℕ} (hy : y < 2 ^ D'.depth) :
    y / 2 ^ (D'.depth - D.depth) < 2 ^ D.depth := by
  refine Nat.div_lt_of_lt_mul ?_
  rw [← pow_add, Nat.sub_add_cancel hs.le]
  exact hy

include hs in
/-- Leading bits of an index, before and after. -/
theorem Splits.div_div {y d : ℕ} (hd : d ≤ D.depth) :
    y / 2 ^ (D'.depth - D.depth) / 2 ^ (D.depth - d) = y / 2 ^ (D'.depth - d) := by
  rw [Nat.div_div_eq_div_mul, ← pow_add]
  congr 2
  have := hs.le
  omega

include h hs in
/-- The indices of the two halves. -/
theorem Splits.agree {x y : ℕ} (hx : x < 2 ^ D'.depth) (hy : y < 2 ^ D'.depth)
    (hxa : D.entry (x / 2 ^ (D'.depth - D.depth)) = a) :
    y / 2 ^ (D'.depth - (depth a + 1)) = x / 2 ^ (D'.depth - (depth a + 1))
      ↔ D.entry (y / 2 ^ (D'.depth - D.depth)) = a
        ∧ (y / 2 ^ (D'.depth - depth a - 1) % 2 = 1
          ↔ x / 2 ^ (D'.depth - depth a - 1) % 2 = 1) := by
  have hhalf : ∀ z, z / 2 ^ (D'.depth - depth a - 1) / 2 = z / 2 ^ (D'.depth - depth a) := by
    intro z
    have := hs.lt
    rw [Nat.div_div_eq_div_mul, ← pow_succ]
    congr 2
    omega
  have hle : depth a ≤ D.depth := hxa ▸ h.le _ (hs.div_lt hx)
  have hsame := h.same _ (hs.div_lt hx) _ (hs.div_lt hy)
  rw [hxa, hs.div_div hle, hs.div_div hle] at hsame
  rw [← Nat.sub_sub, eq_iff_half, hhalf, hhalf, hsame]

include h hs in
/-- **A split keeps a directory sound.** -/
theorem Sound.splits (hne : a ≠ b) (hfresh : ∀ x < 2 ^ D.depth, D.entry x ≠ b) :
    D'.Sound (splitDepth depth a b) := by
  have hnew : ∀ y < 2 ^ D'.depth, D.entry (y / 2 ^ (D'.depth - D.depth)) ≠ b :=
    fun y hy => hfresh _ (hs.div_lt hy)
  -- an index of the entry, or of another one
  have hin : ∀ y < 2 ^ D'.depth, D.entry (y / 2 ^ (D'.depth - D.depth)) = a →
      D'.entry y = if y / 2 ^ (D'.depth - depth a - 1) % 2 = 1 then b else a :=
    fun y hy hya => (hs.entry y hy).trans (if_pos hya)
  have hout : ∀ y < 2 ^ D'.depth, D.entry (y / 2 ^ (D'.depth - D.depth)) ≠ a →
      D'.entry y = D.entry (y / 2 ^ (D'.depth - D.depth)) :=
    fun y hy hya => (hs.entry y hy).trans (if_neg hya)
  have hdepth : ∀ y < 2 ^ D'.depth, D.entry (y / 2 ^ (D'.depth - D.depth)) = a →
      splitDepth depth a b (D'.entry y) = depth a + 1 := by
    intro y hy hya
    rw [hin y hy hya]
    split
    · exact splitDepth_right
    · exact splitDepth_left hne
  refine ⟨fun x hx => ?_, fun x hx y hy => ?_⟩
  · by_cases hxa : D.entry (x / 2 ^ (D'.depth - D.depth)) = a
    · rw [hdepth x hx hxa]
      exact hs.lt
    · rw [hout x hx hxa, splitDepth_of_ne hxa (hnew x hx)]
      exact (h.le _ (hs.div_lt hx)).trans hs.le
  · by_cases hxa : D.entry (x / 2 ^ (D'.depth - D.depth)) = a
    · rw [hdepth x hx hxa, hs.agree h hx hy hxa, hin x hx hxa]
      by_cases hya : D.entry (y / 2 ^ (D'.depth - D.depth)) = a
      · rw [hin y hy hya, half_eq_half_iff hne]
        exact ⟨fun hbit => ⟨hya, hbit⟩, fun hy => hy.2⟩
      · rw [hout y hy hya]
        refine ⟨fun heq => ?_, fun hy => absurd hy.1 hya⟩
        split at heq
        · exact absurd heq (hnew y hy)
        · exact absurd heq hya
    · have hle := h.le _ (hs.div_lt hx)
      rw [hout x hx hxa, splitDepth_of_ne hxa (hnew x hx), ← hs.div_div hle, ← hs.div_div hle,
        ← h.same _ (hs.div_lt hx) _ (hs.div_lt hy)]
      by_cases hya : D.entry (y / 2 ^ (D'.depth - D.depth)) = a
      · have hxb := hnew x hx
        rw [hin y hy hya, hya]
        split
        · exact ⟨fun heq => absurd heq.symm hxb, fun heq => absurd heq.symm hxa⟩
        · exact Iff.rfl
      · rw [hout y hy hya]

include hs in
/-- **What a word finds after a split.** -/
theorem Splits.entry_leading {w n : ℕ} (hw : D'.depth ≤ w) (hn : n < 2 ^ w) :
    D'.entry (leading w n D'.depth)
      = if D.entry (leading w n D.depth) = a then
          if n.testBit (w - depth a - 1) then b else a
        else D.entry (leading w n D.depth) := by
  have hlt := hs.lt
  rw [hs.entry _ (leading_lt hw hn), leading_div hs.le hw, testBit_eq_leading,
    Nat.sub_sub, leading_div hlt hw]
  simp only [decide_eq_true_eq]

end Split

end PrefixDirectory
