import Mathlib.Data.Nat.ModEq
import Mathlib.Data.List.Range
import Mathlib.Data.List.Nodup
import Mathlib.Tactic.Ring

/-!
# Arcs of a cycle

A counter that is incremented before each use and wraps at `W` visits, from
the value `s`, the numbers `s + 1, …, s + k` modulo `W`. Several counters that
start at different values are meant to hand out different numbers, and whether
they do is a question about these arcs: where each starts, how long it is, and
how far round the cycle the next one begins.

`arc W s k` is the sequence the counter visits and `gap W s s'` the distance
from one start to another, read in the direction the counter moves.
`disjoint_arc_iff` says when two arcs share nothing: one of them is empty, or
neither reaches the start of the other. `nodup_arc_iff` says when one arc does
not meet itself.
-/

namespace CyclicArc

variable {W s s' k k' x : ℕ}

/-- The numbers a counter on the cycle of length `W` visits from `s`, when it
is incremented before each of `k` uses. -/
def arc (W s k : ℕ) : List ℕ := (List.range k).map (fun j => (s + j + 1) % W)

/-- How far the start `s'` lies ahead of the start `s` on the cycle. -/
def gap (W s s' : ℕ) : ℕ := (s' % W + (W - s % W)) % W

/-- **Neither arc reaches the start of the other**, unless one of them is
empty. -/
def Separated (W s k s' k' : ℕ) : Prop :=
  k = 0 ∨ k' = 0 ∨ (k ≤ gap W s s' ∧ k' ≤ gap W s' s)

instance : Decidable (Separated W s k s' k') :=
  inferInstanceAs (Decidable (_ ∨ _ ∨ _))

@[simp] theorem length_arc : (arc W s k).length = k := by
  rw [arc, List.length_map, List.length_range]

theorem mem_arc : x ∈ arc W s k ↔ ∃ j < k, (s + j + 1) % W = x := by
  simp only [arc, List.mem_map, List.mem_range]

/-- The first use of the counter, and what follows from there. -/
theorem arc_succ_left : arc W s (k + 1) = (s + 1) % W :: arc W (s + 1) k := by
  rw [arc, List.range_succ_eq_map, List.map_cons, List.map_map]
  refine congrArg _ (List.map_congr_left (fun j _ => ?_))
  show (s + (j + 1) + 1) % W = (s + 1 + j + 1) % W
  rw [Nat.add_right_comm s 1 j, Nat.add_assoc s j 1]

/-- Only the residue of the start matters. -/
theorem arc_mod : arc W (s % W) k = arc W s k := by
  refine List.map_congr_left (fun j _ => ?_)
  rw [Nat.add_assoc, Nat.add_assoc, Nat.mod_add_mod]

/-- Two arcs of one length are the same exactly when they are empty or start at
the same place. -/
theorem arc_eq_arc_iff : arc W s k = arc W s' k ↔ k = 0 ∨ s % W = s' % W := by
  constructor
  · intro h
    refine (Nat.eq_zero_or_pos k).imp_right (fun hk => ?_)
    obtain ⟨n, rfl⟩ := Nat.exists_eq_add_of_lt hk
    rw [Nat.zero_add, arc_succ_left, arc_succ_left] at h
    have hhead : s + 1 ≡ s' + 1 [MOD W] := (List.cons_eq_cons.mp h).1
    exact Nat.ModEq.add_right_cancel' 1 hhead
  · rintro (rfl | h)
    · rfl
    · rw [← arc_mod, h, arc_mod]

/-- An arc that does not pass the end of the cycle is an interval. -/
theorem arc_eq_range' (h : s + k < W) : arc W s k = List.range' (s + 1) k := by
  induction k generalizing s with
  | zero => rfl
  | succ k ih =>
    rw [arc_succ_left, List.range'_succ, ih (by omega), Nat.mod_eq_of_lt (by omega)]

theorem mem_arc_of_lt (h : s + k < W) : x ∈ arc W s k ↔ s < x ∧ x ≤ s + k := by
  rw [arc_eq_range' h, List.mem_range'_1]
  omega

/-! ## The distance between two starts -/

theorem gap_lt (hW : 0 < W) : gap W s s' < W := Nat.mod_lt _ hW

/-- Moving on by the gap leads from one start to the other. -/
theorem add_gap_mod (hW : 0 < W) : (s + gap W s s') % W = s' % W := by
  have h := Nat.mod_lt s hW
  rw [gap, Nat.add_mod_mod, ← Nat.mod_add_mod,
    show s % W + (s' % W + (W - s % W)) = s' % W + W by omega,
    Nat.add_mod_right, Nat.mod_mod]

/-- The two gaps between different starts go once round the cycle. -/
theorem gap_add_gap (hW : 0 < W) (h : gap W s s' ≠ 0) :
    gap W s s' + gap W s' s = W := by
  have hs := Nat.mod_lt s hW
  have hs' := Nat.mod_lt s' hW
  unfold gap at h ⊢
  rcases lt_trichotomy (s % W) (s' % W) with hlt | heq | hgt
  · rw [Nat.mod_eq_sub_mod (by omega), Nat.mod_eq_of_lt (by omega),
      Nat.mod_eq_of_lt (a := s % W + (W - s' % W)) (by omega)]
    omega
  · exact absurd (by rw [heq, Nat.add_sub_cancel' hs'.le, Nat.mod_self]) h
  · rw [Nat.mod_eq_of_lt (by omega),
      Nat.mod_eq_sub_mod (a := s % W + (W - s' % W)) (by omega),
      Nat.mod_eq_of_lt (a := s % W + (W - s' % W) - W) (by omega)]
    omega

/-- From zero the gap is the residue itself. -/
theorem gap_zero_left : gap W 0 s = s % W := by
  rw [gap, Nat.zero_mod, Nat.sub_zero, Nat.add_mod_right, Nat.mod_mod]

/-- Starts that are moved on together keep their gap. -/
theorem gap_add_left (hW : 0 < W) (d : ℕ) :
    gap W (d + s) (d + s') = gap W s s' := by
  have hlt : gap W (d + s) (d + s') < W := gap_lt hW
  have hlt' : gap W s s' < W := gap_lt hW
  have h : (d + s + gap W (d + s) (d + s')) % W = (d + s + gap W s s') % W := by
    rw [add_gap_mod hW, Nat.add_assoc d s, Nat.add_mod d (s + gap W s s'),
      add_gap_mod hW, ← Nat.add_mod]
  have h' := Nat.ModEq.add_left_cancel' (d + s) h
  rwa [Nat.ModEq, Nat.mod_eq_of_lt hlt, Nat.mod_eq_of_lt hlt'] at h'

/-! ## When arcs meet -/

/-- A position of one arc seen from the start of the other. -/
theorem arc_position (hW : 0 < W) (j' : ℕ) :
    (s' + j' + 1) % W = (s + (gap W s s' + j') + 1) % W := by
  have hgap : (s + gap W s s') % W = s' % W := add_gap_mod hW
  have h : (s' + (j' + 1)) % W = (s + gap W s s' + (j' + 1)) % W := by
    rw [← Nat.mod_add_mod, ← hgap, Nat.mod_add_mod]
  rw [Nat.add_assoc, h]
  ring_nf

/-- **An arc that passes the start of a non-empty arc meets it there.** -/
theorem not_disjoint_of_gap_lt (hW : 0 < W) (hk : gap W s s' < k)
    (hk' : 0 < k') : ¬ List.Disjoint (arc W s k) (arc W s' k') := by
  intro h
  refine h (mem_arc.mpr ⟨gap W s s', hk, rfl⟩) (mem_arc.mpr ⟨0, hk', ?_⟩)
  exact arc_position hW 0

/-- **Two arcs share nothing exactly when they are separated.** -/
theorem disjoint_arc_iff (hW : 0 < W) :
    List.Disjoint (arc W s k) (arc W s' k') ↔ Separated W s k s' k' := by
  constructor
  · intro h
    rcases Nat.eq_zero_or_pos k with hk | hk
    · exact Or.inl hk
    rcases Nat.eq_zero_or_pos k' with hk' | hk'
    · exact Or.inr (Or.inl hk')
    refine Or.inr (Or.inr ⟨?_, ?_⟩)
    · exact Nat.le_of_not_lt (fun hlt => not_disjoint_of_gap_lt hW hlt hk' h)
    · exact Nat.le_of_not_lt
        (fun hlt => not_disjoint_of_gap_lt hW hlt hk (List.disjoint_symm h))
  · rintro (rfl | rfl | ⟨h₁, h₂⟩)
    · exact List.disjoint_nil_left _
    · exact List.disjoint_nil_right _
    · intro x hx hx'
      obtain ⟨j, hj, rfl⟩ := mem_arc.mp hx
      obtain ⟨j', hj', he⟩ := mem_arc.mp hx'
      have hd : gap W s s' + gap W s' s = W := gap_add_gap hW (by omega)
      -- seen from `s`, the first arc stays before the gap and the second
      -- between the gap and the full turn
      rw [arc_position (s := s) hW, Nat.add_right_comm, Nat.add_right_comm s j] at he
      have he' := Nat.ModEq.add_left_cancel' (s + 1) he
      rw [Nat.ModEq, Nat.mod_eq_of_lt (by omega), Nat.mod_eq_of_lt (by omega)] at he'
      omega

/-- **An arc does not meet itself exactly when it is at most one turn
long.** -/
theorem nodup_arc_iff (hW : 0 < W) : (arc W s k).Nodup ↔ k ≤ W := by
  constructor
  · intro h
    by_contra hlt
    have hpos : ∀ i (hi : i < (arc W s k).length),
        (arc W s k)[i] = (s + i + 1) % W := by
      intro i hi
      simp only [arc, List.getElem_map, List.getElem_range]
    have h0 : 0 < (arc W s k).length := by rw [length_arc]; omega
    have hW' : W < (arc W s k).length := by rw [length_arc]; omega
    have heq : (arc W s k)[0] = (arc W s k)[W] := by
      rw [hpos 0 h0, hpos W hW', Nat.add_right_comm s W 1, Nat.add_mod_right]
    exact hW.ne ((List.Nodup.getElem_inj_iff h).mp heq)
  · intro hk
    refine List.Nodup.map_on (fun i hi j hj he => ?_) List.nodup_range
    rw [List.mem_range] at hi hj
    rw [Nat.add_right_comm, Nat.add_right_comm s j] at he
    have he' := Nat.ModEq.add_left_cancel' (s + 1) he
    rwa [Nat.ModEq, Nat.mod_eq_of_lt (by omega), Nat.mod_eq_of_lt (by omega)] at he'

/-- Counters that are moved on together stay separated, or stay
unseparated. -/
theorem separated_add_left (hW : 0 < W) (d : ℕ) :
    Separated W (d + s) k (d + s') k' ↔ Separated W s k s' k' := by
  unfold Separated
  rw [gap_add_left hW, gap_add_left hW]

/-- **Separation by a stride**: one start lies `d` ahead of the other. -/
theorem separated_add_iff (hW : 0 < W) (d : ℕ) :
    Separated W s k (s + d) k' ↔ k = 0 ∨ k' = 0 ∨ (k ≤ d % W ∧ k' ≤ W - d % W) := by
  have hgap : gap W s (s + d) = d % W := by
    rw [← gap_zero_left (s := d), ← gap_add_left (s := 0) hW s, Nat.add_zero]
  unfold Separated
  rw [hgap]
  rcases Nat.eq_zero_or_pos (d % W) with h0 | hpos
  · rw [h0]
    omega
  · have hsum : gap W s (s + d) + gap W (s + d) s = W := gap_add_gap hW (by omega)
    rw [show gap W (s + d) s = W - d % W by omega]

/-- **An arc against the interval from one.** It stays out of `[1, m]` exactly
when it is empty, or starts at or above `m` and stops before coming round
to one. -/
theorem separated_zero_iff {m : ℕ} (hm : 0 < m) (hmW : m < W) :
    Separated W 0 m s k ↔ (0 < k → m ≤ s % W ∧ s % W + k ≤ W) := by
  have hW : 0 < W := hm.trans hmW
  have hs := Nat.mod_lt s hW
  unfold Separated
  rw [gap_zero_left, gap, Nat.zero_mod, Nat.zero_add]
  rcases Nat.eq_zero_or_pos k with rfl | hk
  · simp
  · constructor
    · rintro (h | h | ⟨h₁, h₂⟩) _
      · omega
      · omega
      · rw [Nat.mod_eq_of_lt (by omega)] at h₂
        omega
    · intro h
      obtain ⟨h₁, h₂⟩ := h hk
      refine Or.inr (Or.inr ⟨h₁, ?_⟩)
      rw [Nat.mod_eq_of_lt (by omega)]
      omega

/-! ## Several counters -/

section Family

variable {n n' : ℕ} (start len start' len' : ℕ → ℕ)

/-- A property of every two of a number of counters. -/
theorem pairwise_range_iff {R : ℕ → ℕ → Prop} :
    (List.range n).Pairwise R ↔ ∀ t t', t < t' → t' < n → R t t' := by
  rw [List.pairwise_iff_getElem]
  simp only [List.length_range, List.getElem_range]
  exact ⟨fun h t t' hlt hn => h t t' (hlt.trans hn) hn hlt,
    fun h t t' _ hn hlt => h t t' hlt hn⟩

/-- **Counters hand out each number once** exactly when none goes more than
once round the cycle and every two are separated. -/
theorem nodup_arcs_iff (hW : 0 < W) :
    ((List.range n).flatMap (fun t => arc W (start t) (len t))).Nodup
      ↔ (∀ t < n, len t ≤ W)
        ∧ ∀ t t', t < t' → t' < n → Separated W (start t) (len t) (start t') (len t') := by
  rw [List.nodup_flatMap, pairwise_range_iff]
  simp only [List.mem_range, nodup_arc_iff hW, Function.onFun, disjoint_arc_iff hW]

/-- Sharing nothing with several lists is sharing nothing with each. -/
theorem disjoint_flatMap_range_iff {l : List ℕ} {f : ℕ → List ℕ} :
    List.Disjoint l ((List.range n).flatMap f) ↔ ∀ t < n, List.Disjoint l (f t) := by
  constructor
  · intro h t ht x hx hx'
    exact h hx (List.mem_flatMap.mpr ⟨t, List.mem_range.mpr ht, hx'⟩)
  · intro h x hx hx'
    obtain ⟨t, ht, hxt⟩ := List.mem_flatMap.mp hx'
    exact h t (List.mem_range.mp ht) hx hxt

/-- **Two groups of counters hand out different numbers** exactly when each of
the one is separated from each of the other. -/
theorem disjoint_arcs_iff (hW : 0 < W) :
    List.Disjoint ((List.range n).flatMap (fun t => arc W (start t) (len t)))
        ((List.range n').flatMap (fun t => arc W (start' t) (len' t)))
      ↔ ∀ t < n, ∀ t' < n', Separated W (start t) (len t) (start' t') (len' t') := by
  have hcomm : ∀ t' : ℕ,
      List.Disjoint ((List.range n).flatMap (fun t => arc W (start t) (len t)))
          (arc W (start' t') (len' t'))
        ↔ ∀ t < n, Separated W (start t) (len t) (start' t') (len' t') := by
    intro t'
    rw [List.disjoint_comm, disjoint_flatMap_range_iff]
    refine forall₂_congr (fun t _ => ?_)
    rw [List.disjoint_comm, disjoint_arc_iff hW]
  rw [disjoint_flatMap_range_iff]
  simp only [hcomm]
  exact ⟨fun h t ht t' ht' => h t' ht' t ht, fun h t' ht' t ht => h t ht t' ht'⟩

end Family

end CyclicArc
