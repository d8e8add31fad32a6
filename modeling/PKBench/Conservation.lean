import Mathlib.Data.List.Perm.Basic
import Mathlib.Data.List.Nodup
import Mathlib.Logic.ExistsUnique

/-!
# Things in places

A number of things are kept in places, each place holding a list of them. They
are conserved if each thing is in one place, and there once. This stays so when
some of what is in one place is put into another (`Conserved.transfer`), whatever
the order in the lists.
-/

variable {P I : Type}

/-- **The things in `valid` are conserved**: each of them is in one of the places,
once, and nothing else is. -/
structure Conserved (content : P → List I) (valid : I → Prop) : Prop where
  nodup : ∀ p, (content p).Nodup
  unique : ∀ p q i, i ∈ content p → i ∈ content q → p = q
  covers : ∀ i, (∃ p, i ∈ content p) ↔ valid i

namespace Conserved

variable {content content' : P → List I} {valid : I → Prop}

theorem existsUnique (h : Conserved content valid) {i : I} (hi : valid i) :
    ∃! p, i ∈ content p := by
  obtain ⟨p, hp⟩ := (h.covers i).mpr hi
  exact ⟨p, hp, fun q hq => h.unique q p i hq hp⟩

/-- **Some of what is in a place is put into another.** -/
theorem transfer (h : Conserved content valid) (src dest : P) (moved : List I)
    (hne : src ≠ dest) (hsrc : (content src).Perm (moved ++ content' src))
    (hdest : (content' dest).Perm (moved ++ content dest))
    (hother : ∀ p, p ≠ src → p ≠ dest → content' p = content p) :
    Conserved content' valid := by
  have hnodup := hsrc.nodup_iff.mp (h.nodup src)
  have hmoved : ∀ i ∈ moved, i ∈ content src := fun i hi =>
    hsrc.mem_iff.mpr (List.mem_append_left _ hi)
  -- where a thing is now, and where it was
  have hcases : ∀ p i, i ∈ content' p →
      (p = dest ∧ i ∈ moved) ∨ (i ∈ content p ∧ i ∉ moved) := by
    intro p i hi
    by_cases hp : p = dest
    · subst hp
      rcases List.mem_append.mp (hdest.mem_iff.mp hi) with hi | hi
      · exact .inl ⟨rfl, hi⟩
      · exact .inr ⟨hi, fun him => hne (h.unique _ _ i (hmoved i him) hi)⟩
    · by_cases hp' : p = src
      · subst hp'
        exact .inr ⟨hsrc.mem_iff.mpr (List.mem_append_right _ hi),
          fun him => List.disjoint_of_nodup_append hnodup him hi⟩
      · have hi' := hother p hp' hp ▸ hi
        exact .inr ⟨hi', fun him => hp' (h.unique _ _ i hi' (hmoved i him))⟩
  refine ⟨fun p => ?_, fun p q i hp hq => ?_, fun i => ?_⟩
  · by_cases hp : p = dest
    · subst hp
      refine hdest.nodup_iff.mpr (List.nodup_append'.mpr
        ⟨hnodup.of_append_left, h.nodup p, fun i him hi => ?_⟩)
      exact hne (h.unique _ _ i (hmoved i him) hi)
    · by_cases hp' : p = src
      · subst hp'
        exact hnodup.of_append_right
      · rw [hother p hp' hp]
        exact h.nodup p
  · rcases hcases p i hp with ⟨rfl, hi⟩ | ⟨hi, hnot⟩
    · rcases hcases q i hq with ⟨rfl, -⟩ | ⟨-, hnot⟩
      · rfl
      · exact absurd hi hnot
    · rcases hcases q i hq with ⟨-, hmem⟩ | ⟨hi', -⟩
      · exact absurd hmem hnot
      · exact h.unique p q i hi hi'
  · rw [← h.covers i]
    constructor
    · rintro ⟨p, hp⟩
      rcases hcases p i hp with ⟨-, hi⟩ | ⟨hi, -⟩
      · exact ⟨src, hmoved i hi⟩
      · exact ⟨p, hi⟩
    · rintro ⟨p, hp⟩
      by_cases hp' : p = src
      · subst hp'
        rcases List.mem_append.mp (hsrc.mem_iff.mp hp) with hi | hi
        · exact ⟨dest, hdest.mem_iff.mpr (List.mem_append_left _ hi)⟩
        · exact ⟨p, hi⟩
      · by_cases hpd : p = dest
        · subst hpd
          exact ⟨p, hdest.mem_iff.mpr (List.mem_append_right _ hp)⟩
        · exact ⟨p, (hother p hp' hpd).symm ▸ hp⟩

/-- Nothing moves. -/
theorem congr (h : Conserved content valid) (hsame : ∀ p, content' p = content p) :
    Conserved content' valid := by
  obtain rfl : content' = content := funext hsame
  exact h

end Conserved
