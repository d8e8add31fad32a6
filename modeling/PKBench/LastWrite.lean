import Mathlib.Data.List.Induction
import Mathlib.Data.List.Flatten
import Mathlib.Data.List.Perm.Basic
import Mathlib.Data.List.Nodup
import Mathlib.Logic.Function.Basic

/-!
# Last writes

Replaying writes into a map that overwrites leaves for each key the last write
to it. `lastWrite` picks that write out of a list, and `foldl_update_apply`
says that the map agrees.

When several threads replay each its own list, the writes come in some
interleaving (`Interleaves`): the threads' writes together, each thread's in
its order. Which write is last for a key then depends on the interleaving, but
not freely: it is the last of some thread, and any thread's may be it
(`exists_thread_of_interleaves`, `exists_interleaving`).
-/

namespace LastWrite

variable {α K V : Type} [DecidableEq K] (key : α → K)

/-- **The last write to a key.** -/
def lastWrite (l : List α) (k : K) : Option α := (l.filter (fun x => key x = k)).getLast?

theorem lastWrite_concat (l : List α) (x : α) (k : K) :
    lastWrite key (l ++ [x]) k = if key x = k then some x else lastWrite key l k := by
  unfold lastWrite
  rw [List.filter_append]
  by_cases h : key x = k
  · rw [if_pos h, List.filter_cons_of_pos (by simpa using h), List.filter_nil,
      List.getLast?_concat]
  · rw [if_neg h, List.filter_cons_of_neg (by simpa using h), List.filter_nil, List.append_nil]

/-- **A map that is written to in order holds the last write to each key.** -/
theorem foldl_update_apply (val : α → V) (l : List α) (k : K) :
    l.foldl (fun m x => Function.update m (key x) (some (val x))) (fun _ => none) k
      = (lastWrite key l k).map val := by
  induction l using List.reverseRecOn with
  | nil => rfl
  | append_singleton l x ih =>
    rw [List.foldl_append, List.foldl_cons, List.foldl_nil, lastWrite_concat]
    by_cases h : key x = k
    · rw [if_pos h, ← h, Function.update_self]
      rfl
    · rw [if_neg h, Function.update_of_ne (Ne.symm h), ih]

theorem mem_of_lastWrite {l : List α} {k : K} {x : α} (h : lastWrite key l k = some x) :
    x ∈ l ∧ key x = k := by
  have hmem := List.mem_filter.mp (List.mem_of_getLast? h)
  exact ⟨hmem.1, of_decide_eq_true hmem.2⟩

/-- A key that is written to has a last write. -/
theorem exists_lastWrite {l : List α} {k : K} {x : α} (hx : x ∈ l) (hk : key x = k) :
    ∃ y, lastWrite key l k = some y := by
  have hmem : x ∈ l.filter (fun x => key x = k) := List.mem_filter.mpr ⟨hx, decide_eq_true hk⟩
  exact ⟨_, List.getLast?_eq_some_getLast (List.ne_nil_of_mem hmem)⟩

/-- In a list with an order, the other writes to the key stand before the last. -/
theorem rel_lastWrite {R : α → α → Prop} {l : List α} (hl : l.Pairwise R) {k : K} {x y : α}
    (hlast : lastWrite key l k = some x) (hy : y ∈ l) (hk : key y = k) : y = x ∨ R y x := by
  obtain ⟨before, hbefore⟩ := List.getLast?_eq_some_iff.mp hlast
  have hpair := hl.filter (fun x => decide (key x = k))
  rw [hbefore] at hpair
  have hmem : y ∈ l.filter (fun x => key x = k) := List.mem_filter.mpr ⟨hy, decide_eq_true hk⟩
  rw [hbefore] at hmem
  rcases List.mem_append.mp hmem with hmem | hmem
  · exact Or.inr ((List.pairwise_append.mp hpair).2.2 y hmem x List.mem_cons_self)
  · exact Or.inl (List.mem_singleton.mp hmem)

/-! ## Interleavings -/

/-- **An interleaving** of the lists of several threads, whose elements are
distinct. -/
structure Interleaves (threads : List (List α)) (order : List α) : Prop where
  perm : order.Perm threads.flatten
  sublist : ∀ l ∈ threads, l.Sublist order

/-- A single thread writes in its order. -/
theorem interleaves_singleton_iff {l order : List α} : Interleaves [l] order ↔ order = l := by
  constructor
  · intro h
    have hperm : order.Perm l := by
      have hp := h.perm
      rwa [List.flatten_singleton] at hp
    exact ((h.sublist l List.mem_cons_self).eq_of_length hperm.length_eq.symm).symm
  · rintro rfl
    refine ⟨by rw [List.flatten_singleton], fun l' hl' => ?_⟩
    rw [List.mem_singleton.mp hl']

/-- **The last write of an interleaving is the last write of a thread.** -/
theorem exists_thread_of_interleaves {threads : List (List α)} {order : List α} {k : K} {x : α}
    (hnodup : threads.flatten.Nodup) (h : Interleaves threads order)
    (hlast : lastWrite key order k = some x) :
    ∃ l ∈ threads, lastWrite key l k = some x := by
  obtain ⟨hx, hk⟩ := mem_of_lastWrite key hlast
  obtain ⟨l, hl, hxl⟩ := List.mem_flatten.mp (h.perm.mem_iff.mp hx)
  refine ⟨l, hl, ?_⟩
  -- in front of its last write the interleaving has no second copy of it
  obtain ⟨before, hbefore⟩ := List.getLast?_eq_some_iff.mp hlast
  have hnot : x ∉ before := by
    have hnd : (order.filter (fun x => key x = k)).Nodup := (h.perm.nodup_iff.mpr hnodup).filter _
    rw [hbefore] at hnd
    exact fun hmem => (List.nodup_append.mp hnd).2.2 x hmem x List.mem_cons_self rfl
  have hsub : (l.filter (fun x => key x = k)).Sublist (before ++ [x]) :=
    hbefore ▸ (h.sublist l hl).filter _
  obtain ⟨l₁, l₂, heq, h₁, h₂⟩ := List.sublist_append_iff.mp hsub
  have hmem : x ∈ l.filter (fun x => key x = k) := List.mem_filter.mpr ⟨hxl, decide_eq_true hk⟩
  have hl₂ : l₂ = [x] := by
    rcases List.sublist_singleton.mp h₂ with rfl | h₂
    · rw [heq, List.append_nil] at hmem
      exact absurd (h₁.subset hmem) hnot
    · exact h₂
  unfold lastWrite
  rw [heq, hl₂, List.getLast?_concat]

/-- **Any thread may come last.** -/
theorem exists_interleaving {threads : List (List α)} {l : List α} (hl : l ∈ threads) {k : K}
    {x : α} (hlast : lastWrite key l k = some x) :
    ∃ order, Interleaves threads order ∧ lastWrite key order k = some x := by
  obtain ⟨ts₁, ts₂, rfl⟩ := List.append_of_mem hl
  refine ⟨(ts₁ ++ ts₂).flatten ++ l, ⟨?_, fun l' hl' => ?_⟩, ?_⟩
  · rw [List.flatten_append, List.flatten_append, List.flatten_cons, List.append_assoc]
    exact List.Perm.append_left _ List.perm_append_comm
  · rcases List.mem_append.mp hl' with hmem | hmem
    · exact (List.sublist_flatten_of_mem (List.mem_append_left _ hmem)).trans
        (List.sublist_append_left _ _)
    · rcases List.mem_cons.mp hmem with rfl | hmem
      · exact List.sublist_append_right _ _
      · exact (List.sublist_flatten_of_mem (List.mem_append_right _ hmem)).trans
          (List.sublist_append_left _ _)
  · unfold lastWrite at hlast ⊢
    rw [List.filter_append]
    exact List.mem_getLast?_append_of_mem_getLast? hlast

end LastWrite
