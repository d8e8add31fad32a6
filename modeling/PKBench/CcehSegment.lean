import Mathlib.Data.Finset.Card
import Mathlib.Data.List.Basic
import PKBench.PrefixDirectory

/-!
# The segments of a CCEH table

A segment is an array of slots. The low byte of its hash gives a key a slot to start
from, and the key is in one of the next 32, around the end of the array. A slot may also
hold a key that has moved to another segment with a split; such a key is told by its
leading bits, and its slot is free.

`Split` copies the slots whose next bit is one into a new segment, in the order of the
slots. A key then finds room, since the slot it was in is not yet taken – unless keys
around the end of the array have come first (`dropped_split`). A key without room is
dropped, with a message.
-/

namespace Cceh

open PrefixDirectory (leading)

/-- `INVALID`, the key of an empty slot. -/
def invalid : ℕ := 2 ^ 64 - 1

/-- `SENTINEL`, the key of a slot that is being filled. -/
def sentinel : ℕ := 2 ^ 64 - 2

/-- `kNumSlot`. -/
def numSlot : ℕ := 2 ^ 8 * 16 * 4 / 16

/-- `kNumPairPerCacheLine * kNumCacheLine`. -/
def numProbe : ℕ := 4 * 8

/-- The depth of a directory that is not doubled any more: the loop over its entries
counts them with an `unsigned`. -/
def maxDepth : ℕ := 32

/-- **`Pair`**: the value of an empty slot is not set. -/
structure Pair (V : Type) where
  key : ℕ := invalid
  value : Option V := none

/-- **`Segment`**, without its semaphore. -/
structure Segment (V : Type) where
  localDepth : ℕ
  slots : ℕ → Pair V := fun _ => {}

variable {V : Type}

/-- A slot is written. -/
def Segment.write (seg : Segment V) (s : ℕ) (p : Pair V) : Segment V :=
  { seg with slots := Function.update seg.slots s p }

section Probing

variable (hash : ℕ → UInt64)

/-- `(f_hash & kMask) * kNumPairPerCacheLine`, where the probing starts. -/
def home (key : ℕ) : ℕ := (hash key).toNat % 2 ^ 8 * 4

/-- The slots that are probed for a key, in their order. -/
def window (key : ℕ) : List ℕ :=
  (List.range numProbe).map (fun i => (home hash key + i) % numSlot)

/-- The slot with the key. -/
def Segment.find (seg : Segment V) (key : ℕ) : Option ℕ :=
  (window hash key).find? (fun loc => (seg.slots loc).key = key)

/-- The first slot that may be overwritten: it is empty, or its key has another pattern
and has moved. -/
def Segment.free (seg : Segment V) (key : ℕ) : Option ℕ :=
  (window hash key).find? (fun loc =>
    (leading 64 (hash (seg.slots loc).key).toNat seg.localDepth
        ≠ leading 64 (hash key).toNat seg.localDepth
      ∨ (seg.slots loc).key = invalid)
    ∧ (seg.slots loc).key ≠ sentinel)

/-- What `CCEH::Get` reads in the segment of the key. -/
def Segment.get (seg : Segment V) (key : ℕ) : Option V :=
  (seg.find hash key).bind (fun loc => (seg.slots loc).value)

/-- **`Segment::Insert4split`.** -/
def Segment.insert4split (seg : Segment V) (p : Pair V) : Option (Segment V) :=
  ((window hash p.key).find? (fun loc => (seg.slots loc).key = invalid)).map (fun loc =>
    seg.write loc p)

/-- The bit of a hash by which a segment of a depth is split: `f_hash & pattern`. -/
def splitBit (d : ℕ) (key : ℕ) : Bool := (hash key).toNat.testBit (64 - d - 1)

/-- One round of the loop in `Split`, with the number of keys that were dropped. -/
def splitRound (src : Segment V) (acc : Segment V × ℕ) (i : ℕ) : Segment V × ℕ :=
  if splitBit hash src.localDepth (src.slots i).key then
    match acc.1.insert4split hash (src.slots i) with
    | some seg => (seg, acc.2)
    | none => (acc.1, if (src.slots i).key = invalid then acc.2 else acc.2 + 1)
  else acc

/-- **`Segment::Split`**: the new segment. The old one stays as it is, and its depth is
raised when the directory knows the new one. -/
def Segment.split (src : Segment V) : Segment V × ℕ :=
  (List.range numSlot).foldl (splitRound hash src) ({ localDepth := src.localDepth + 1 }, 0)

end Probing

/-! ## What a segment holds -/

/-- A key that can be put: a word that is not one of the two marks. -/
def Valid (key : ℕ) : Prop := key < sentinel

theorem Valid.ne_invalid {key : ℕ} (h : Valid key) : key ≠ invalid :=
  (h.trans (show sentinel < invalid by decide)).ne

variable {hash : ℕ → UInt64}

/-- **A segment as it should be**: a key is near its home, in one slot, and has a value.
This is said of the keys that have moved, too. -/
structure Segment.Ok (hash : ℕ → UInt64) (seg : Segment V) : Prop where
  near : ∀ s < numSlot, (seg.slots s).key ≠ invalid → s ∈ window hash (seg.slots s).key
  inj : ∀ s < numSlot, ∀ s' < numSlot, (seg.slots s).key = (seg.slots s').key →
    (seg.slots s).key ≠ invalid → s = s'
  valid : ∀ s < numSlot, (seg.slots s).key ≠ invalid → Valid (seg.slots s).key
  written : ∀ s < numSlot, (seg.slots s).key ≠ invalid → (seg.slots s).value ≠ none

theorem lt_of_mem_window {key s : ℕ} (h : s ∈ window hash key) : s < numSlot := by
  obtain ⟨i, -, rfl⟩ := List.mem_map.mp h
  exact Nat.mod_lt _ (by decide)

variable {seg : Segment V} {s key : ℕ} {v : V}

/-- **The probing finds a key** in whatever slot it is. -/
theorem Segment.Ok.find_eq_some_iff (h : seg.Ok hash) (hkey : key ≠ invalid) :
    seg.find hash key = some s ↔ s < numSlot ∧ (seg.slots s).key = key := by
  have hfound : ∀ s', seg.find hash key = some s' → s' < numSlot ∧ (seg.slots s').key = key := by
    intro s' hs'
    exact ⟨lt_of_mem_window (List.mem_of_find?_eq_some hs'),
      of_decide_eq_true (List.find?_some (p := fun loc => decide ((seg.slots loc).key = key)) hs')⟩
  refine ⟨hfound s, fun ⟨hs, hk⟩ => ?_⟩
  have hmem : s ∈ window hash key := hk ▸ h.near s hs (hk.symm ▸ hkey)
  cases hfind : seg.find hash key with
  | none => exact absurd (decide_eq_true hk) (List.find?_eq_none.mp hfind s hmem)
  | some s' =>
    obtain ⟨hs', hk'⟩ := hfound s' hfind
    rw [h.inj s hs s' hs' (hk.trans hk'.symm) (hk.symm ▸ hkey)]

theorem Segment.Ok.find_eq_none_iff (h : seg.Ok hash) (hkey : key ≠ invalid) :
    seg.find hash key = none ↔ ∀ s < numSlot, (seg.slots s).key ≠ key := by
  constructor
  · intro hnone s hs hk
    exact absurd ((h.find_eq_some_iff hkey).mpr ⟨hs, hk⟩) (by rw [hnone]; exact nofun)
  · intro hno
    cases hfind : seg.find hash key with
    | none => rfl
    | some s =>
      obtain ⟨hs, hk⟩ := (h.find_eq_some_iff hkey).mp hfind
      exact absurd hk (hno s hs)

/-- **What is read** is what a slot holds. -/
theorem Segment.Ok.get_eq_some_iff (h : seg.Ok hash) (hkey : key ≠ invalid) :
    seg.get hash key = some v ↔ ∃ s < numSlot, seg.slots s = ⟨key, some v⟩ := by
  unfold Segment.get
  rw [Option.bind_eq_some_iff]
  constructor
  · rintro ⟨s, hs, hv⟩
    obtain ⟨hlt, hk⟩ := (h.find_eq_some_iff hkey).mp hs
    refine ⟨s, hlt, ?_⟩
    rw [← hk, ← hv]
  · rintro ⟨s, hs, hp⟩
    refine ⟨s, (h.find_eq_some_iff hkey).mpr ⟨hs, ?_⟩, ?_⟩ <;> rw [hp]

theorem Segment.Ok.get_eq_none_iff (h : seg.Ok hash) (hkey : key ≠ invalid) :
    seg.get hash key = none ↔ ∀ s < numSlot, (seg.slots s).key ≠ key := by
  rw [← h.find_eq_none_iff hkey]
  unfold Segment.get
  cases hfind : seg.find hash key with
  | none => exact ⟨fun _ => rfl, fun _ => rfl⟩
  | some s =>
    obtain ⟨hs, hk⟩ := (h.find_eq_some_iff hkey).mp hfind
    constructor
    · exact fun hnone => absurd hnone (h.written s hs (hk.symm ▸ hkey))
    · exact fun hnone => absurd hnone (Option.some_ne_none s)

/-- The keys of a segment, also of the slots that are free since their keys have moved. -/
def Segment.Keys (seg : Segment V) (P : ℕ → Prop) : Prop :=
  ∀ s < numSlot, (seg.slots s).key ≠ invalid → P (seg.slots s).key

/-- **Not more keys than are probed for** have the same leading bits, as many as a
directory can have. -/
def Spread (hash : ℕ → UInt64) (keys : Finset ℕ) : Prop :=
  ∀ key ∈ keys, (keys.filter (fun k => leading 64 (hash k).toNat maxDepth
    = leading 64 (hash key).toNat maxDepth)).card ≤ numProbe

theorem nodup_window (hash : ℕ → UInt64) (key : ℕ) : (window hash key).Nodup := by
  have hn : numSlot = 1024 := by decide
  have hm : numProbe = 32 := by decide
  refine List.Nodup.map_on (fun i hi j hj heq => ?_) List.nodup_range
  rw [List.mem_range, hm] at hi hj
  rw [hn] at heq
  omega

/-- **A segment with the greatest depth is not full**: the keys it would be full of have
the same leading bits. -/
theorem Segment.Ok.free_ne_none (h : seg.Ok hash) {keys : Finset ℕ} (hspread : Spread hash keys)
    (hkeys : seg.Keys (· ∈ keys)) (hmem : key ∈ keys) (hkey : Valid key)
    (hdepth : seg.localDepth = maxDepth) (hfind : seg.find hash key = none) :
    seg.free hash key ≠ none := by
  intro hfree
  have hslots : ∀ s ∈ window hash key, (seg.slots s).key ≠ invalid
      ∧ leading 64 (hash (seg.slots s).key).toNat maxDepth
        = leading 64 (hash key).toNat maxDepth := by
    intro s hs
    have hnot := List.find?_eq_none.mp hfree s hs
    rw [decide_eq_true_eq, hdepth] at hnot
    have hinvalid : (seg.slots s).key ≠ invalid := by
      intro heq
      exact hnot ⟨.inr heq, heq.symm ▸ show invalid ≠ sentinel by decide⟩
    refine ⟨hinvalid, by_contra (fun hne => hnot ⟨.inl hne, ?_⟩)⟩
    exact (h.valid s (lt_of_mem_window hs) hinvalid).ne
  have hne := (h.find_eq_none_iff hkey.ne_invalid).mp hfind
  let full := (window hash key).toFinset.image (fun s => (seg.slots s).key)
  have hcard : full.card = numProbe := by
    rw [Finset.card_image_of_injOn, List.toFinset_card_of_nodup (nodup_window hash key)]
    · unfold window
      rw [List.length_map, List.length_range]
    · intro s hs s' hs' heq
      rw [Finset.mem_coe, List.mem_toFinset] at hs hs'
      exact h.inj s (lt_of_mem_window hs) s' (lt_of_mem_window hs') heq (hslots s hs).1
  have hnew : key ∉ full := by
    intro hmem
    obtain ⟨s, hs, heq⟩ := Finset.mem_image.mp hmem
    exact hne s (lt_of_mem_window (List.mem_toFinset.mp hs)) heq
  have hle := (Finset.card_le_card (s := insert key full) (fun k hk => ?_)).trans
    (hspread key hmem)
  · rw [Finset.card_insert_of_notMem hnew, hcard] at hle
    exact absurd hle (Nat.not_succ_le_self _)
  · rw [Finset.mem_filter]
    rcases Finset.mem_insert.mp hk with rfl | hk
    · exact ⟨hmem, rfl⟩
    · obtain ⟨s, hs, rfl⟩ := Finset.mem_image.mp hk
      obtain ⟨hinvalid, hleading⟩ := hslots s (List.mem_toFinset.mp hs)
      exact ⟨hkeys s (lt_of_mem_window (List.mem_toFinset.mp hs)) hinvalid, hleading⟩

/-! ## Writing a slot -/

theorem slots_write_self (seg : Segment V) (s : ℕ) (p : Pair V) :
    (seg.write s p).slots s = p := by
  show Function.update seg.slots s p s = p
  rw [Function.update_self]

theorem slots_write_of_ne {s' : ℕ} (hne : s' ≠ s) (p : Pair V) :
    (seg.write s p).slots s' = seg.slots s' := by
  show Function.update seg.slots s p s' = seg.slots s'
  rw [Function.update_of_ne hne]

/-- **A key is written into a slot near its home**, and is in no other. -/
theorem Segment.Ok.write (h : seg.Ok hash) (hkey : Valid key) (hs : s ∈ window hash key)
    (hother : ∀ s' < numSlot, s' ≠ s → (seg.slots s').key ≠ key) :
    (seg.write s ⟨key, some v⟩).Ok hash where
  near s' hs' hne := by
    by_cases hss : s' = s
    · rw [hss, slots_write_self]
      exact hs
    · rw [slots_write_of_ne hss] at hne ⊢
      exact h.near s' hs' hne
  inj s₁ hs₁ s₂ hs₂ heq hne := by
    by_cases h₁ : s₁ = s <;> by_cases h₂ : s₂ = s
    · rw [h₁, h₂]
    · rw [h₁, slots_write_self, slots_write_of_ne h₂] at heq
      exact absurd heq.symm (hother s₂ hs₂ h₂)
    · rw [h₂, slots_write_self, slots_write_of_ne h₁] at heq
      exact absurd heq (hother s₁ hs₁ h₁)
    · rw [slots_write_of_ne h₁, slots_write_of_ne h₂] at heq
      rw [slots_write_of_ne h₁] at hne
      exact h.inj s₁ hs₁ s₂ hs₂ heq hne
  valid s' hs' hne := by
    by_cases hss : s' = s
    · rw [hss, slots_write_self]
      exact hkey
    · rw [slots_write_of_ne hss] at hne ⊢
      exact h.valid s' hs' hne
  written s' hs' hne := by
    by_cases hss : s' = s
    · rw [hss, slots_write_self]
      exact Option.some_ne_none v
    · rw [slots_write_of_ne hss] at hne ⊢
      exact h.written s' hs' hne

/-- What is read after a slot was written: the key that was there is gone. -/
theorem Segment.Ok.get_write (h : seg.Ok hash) (hkey : Valid key) (hs : s ∈ window hash key)
    (hother : ∀ s' < numSlot, s' ≠ s → (seg.slots s').key ≠ key) {k : ℕ} (hk : k ≠ invalid) :
    (seg.write s ⟨key, some v⟩).get hash k
      = if k = key then some v else if (seg.slots s).key = k then none
        else seg.get hash k := by
  have hok : (seg.write s ⟨key, some v⟩).Ok hash := h.write hkey hs hother
  have hlt := lt_of_mem_window hs
  split
  · next heq =>
    subst heq
    exact (hok.get_eq_some_iff hk).mpr ⟨s, hlt, slots_write_self seg s _⟩
  · next hne =>
    split
    · next hold =>
      rw [hok.get_eq_none_iff hk]
      intro s' hs'
      by_cases hss : s' = s
      · rw [hss, slots_write_self]
        exact Ne.symm hne
      · rw [slots_write_of_ne hss]
        intro heq
        exact hss (h.inj s' hs' s hlt (heq.trans hold.symm) (heq.symm ▸ hk))
    · next hold =>
      refine Option.ext (fun w => ?_)
      rw [hok.get_eq_some_iff hk, h.get_eq_some_iff hk]
      refine exists_congr (fun s' => and_congr_right (fun hs' => ?_))
      by_cases hss : s' = s
      · rw [hss, slots_write_self]
        constructor
        · exact fun heq => absurd (congrArg Pair.key heq).symm hne
        · exact fun heq => absurd (congrArg Pair.key heq) hold
      · rw [slots_write_of_ne hss]

/-- Only empty slots have changed. -/
theorem Segment.Ok.congr (h : seg.Ok hash) {seg' : Segment V}
    (hkey : ∀ s, (seg'.slots s).key = (seg.slots s).key)
    (hslot : ∀ s, (seg.slots s).key ≠ invalid → seg'.slots s = seg.slots s) : seg'.Ok hash where
  near s hs hne := by
    rw [hkey] at hne ⊢
    exact h.near s hs hne
  inj s₁ hs₁ s₂ hs₂ heq hne := by
    rw [hkey, hkey] at heq
    rw [hkey] at hne
    exact h.inj s₁ hs₁ s₂ hs₂ heq hne
  valid s hs hne := by
    rw [hkey] at hne ⊢
    exact h.valid s hs hne
  written s hs hne := by
    rw [hkey] at hne
    rw [hslot s hne]
    exact h.written s hs hne

/-! ## Splitting -/

section Split

variable {src : Segment V} {acc : Segment V × ℕ} {n : ℕ}

/-- **What `Split` has copied** after so many slots. -/
structure Copied (hash : ℕ → UInt64) (src : Segment V) (n : ℕ) (acc : Segment V × ℕ) : Prop where
  ok : acc.1.Ok hash
  localDepth : acc.1.localDepth = src.localDepth + 1
  of_mem : ∀ s < numSlot, (acc.1.slots s).key ≠ invalid →
    splitBit hash src.localDepth (acc.1.slots s).key = true
      ∧ ∃ i < n, src.slots i = acc.1.slots s
  mem : acc.2 = 0 → ∀ i < n, (src.slots i).key ≠ invalid →
    splitBit hash src.localDepth (src.slots i).key = true →
      ∃ s < numSlot, acc.1.slots s = src.slots i

theorem copied_zero (hash : ℕ → UInt64) (src : Segment V) :
    Copied hash src 0 ({ localDepth := src.localDepth + 1 }, 0) where
  ok :=
    { near := fun _ _ hne => absurd rfl hne
      inj := fun _ _ _ _ _ hne => absurd rfl hne
      valid := fun _ _ hne => absurd rfl hne
      written := fun _ _ hne => absurd rfl hne }
  localDepth := rfl
  of_mem _ _ hne := absurd rfl hne
  mem _ i hi := absurd hi (Nat.not_lt_zero i)

/-- A slot that is not copied. -/
theorem Copied.skip (h : Copied hash src n acc) {d : ℕ}
    (hskip : acc.2 + d = 0 → (src.slots n).key ≠ invalid →
      splitBit hash src.localDepth (src.slots n).key = true → False) :
    Copied hash src (n + 1) (acc.1, acc.2 + d) where
  ok := h.ok
  localDepth := h.localDepth
  of_mem s hs hne := by
    obtain ⟨hbit, i, hi, heq⟩ := h.of_mem s hs hne
    exact ⟨hbit, i, Nat.lt_succ_of_lt hi, heq⟩
  mem hzero i hi hne hbit := by
    rcases Nat.lt_succ_iff_lt_or_eq.mp hi with hi | rfl
    · exact h.mem (Nat.eq_zero_of_add_eq_zero_right hzero) i hi hne hbit
    · exact absurd (hskip hzero hne hbit) id

/-- A slot that is copied, into an empty one. -/
theorem Copied.copy (h : Copied hash src n acc) (hsrc : src.Ok hash) (hn : n < numSlot)
    (hbit : splitBit hash src.localDepth (src.slots n).key = true) {s : ℕ}
    (hs : s ∈ window hash (src.slots n).key) (hempty : (acc.1.slots s).key = invalid) :
    Copied hash src (n + 1) (acc.1.write s (src.slots n), acc.2) := by
  have hlt := lt_of_mem_window hs
  have hslot : ∀ s', (acc.1.slots s').key ≠ invalid →
      (acc.1.write s (src.slots n)).slots s' = acc.1.slots s' :=
    fun s' hne => slots_write_of_ne (fun hss => hne (by rw [hss]; exact hempty)) _
  refine ⟨?_, h.localDepth, fun s' hs' hne => ?_, fun hzero i hi hne hb => ?_⟩
  · by_cases hkey : (src.slots n).key = invalid
    · refine h.ok.congr (fun s' => ?_) hslot
      by_cases hss : s' = s
      · rw [hss, slots_write_self, hkey, hempty]
      · rw [slots_write_of_ne hss]
    · obtain ⟨w, hw⟩ := Option.ne_none_iff_exists'.mp (hsrc.written n hn hkey)
      have hp : src.slots n = ⟨(src.slots n).key, some w⟩ := by rw [← hw]
      rw [hp]
      -- a key that is there already was copied from another slot
      refine h.ok.write (hsrc.valid n hn hkey) hs (fun s' hs' _ heq => ?_)
      obtain ⟨-, i, hi, hi'⟩ := h.of_mem s' hs' (heq.symm ▸ hkey)
      have hin := hsrc.inj i (hi.trans hn) n hn ((congrArg Pair.key hi').trans heq)
        (by rw [hi', heq]; exact hkey)
      exact hi.ne hin
  · by_cases hss : s' = s
    · rw [hss, slots_write_self]
      exact ⟨hbit, n, Nat.lt_succ_self n, rfl⟩
    · rw [slots_write_of_ne hss] at hne ⊢
      obtain ⟨hb, i, hi, heq⟩ := h.of_mem s' hs' hne
      exact ⟨hb, i, Nat.lt_succ_of_lt hi, heq⟩
  · rcases Nat.lt_succ_iff_lt_or_eq.mp hi with hi | rfl
    · obtain ⟨s', hs', heq⟩ := h.mem hzero i hi hne hb
      exact ⟨s', hs', (hslot s' (by rw [heq]; exact hne)).trans heq⟩
    · exact ⟨s, hlt, slots_write_self _ _ _⟩

theorem Copied.round (h : Copied hash src n acc) (hsrc : src.Ok hash) (hn : n < numSlot) :
    Copied hash src (n + 1) (splitRound hash src acc n) := by
  unfold splitRound
  split
  · next hbit =>
    cases hins : acc.1.insert4split hash (src.slots n) with
    | some seg =>
      obtain ⟨s, hs, rfl⟩ := Option.map_eq_some_iff.mp hins
      have hempty := List.find?_some (p := fun loc => decide ((acc.1.slots loc).key = invalid)) hs
      exact h.copy hsrc hn hbit (List.mem_of_find?_eq_some hs) (of_decide_eq_true hempty)
    | none =>
      by_cases hkey : (src.slots n).key = invalid
      · simp only [if_pos hkey]
        exact h.skip (d := 0) (fun _ hne => absurd hkey hne)
      · simp only [if_neg hkey]
        exact h.skip (fun hzero => absurd hzero (Nat.succ_ne_zero _))
  · next hbit => exact h.skip (d := 0) (fun _ _ hb => hbit hb)

/-- The loop so far. -/
theorem splitRounds_succ (hash : ℕ → UInt64) (src : Segment V) (acc : Segment V × ℕ) (n : ℕ) :
    (List.range (n + 1)).foldl (splitRound hash src) acc
      = splitRound hash src ((List.range n).foldl (splitRound hash src) acc) n := by
  rw [List.range_succ, List.foldl_append]
  rfl

/-- **What `Split` copies.** -/
theorem Segment.Ok.copied (hsrc : src.Ok hash) : Copied hash src numSlot (src.split hash) := by
  have hrounds : ∀ n ≤ numSlot, Copied hash src n
      ((List.range n).foldl (splitRound hash src) ({ localDepth := src.localDepth + 1 }, 0)) := by
    intro n hn
    induction n with
    | zero => exact copied_zero hash src
    | succ n ih =>
      rw [splitRounds_succ]
      exact (ih (Nat.le_of_succ_le hn)).round hsrc hn
  exact hrounds numSlot le_rfl

/-- **What is read in the new segment**: the keys whose next bit is one. -/
theorem Segment.Ok.get_split (hsrc : src.Ok hash) (hzero : (src.split hash).2 = 0)
    (hkey : key ≠ invalid) :
    (src.split hash).1.get hash key
      = if splitBit hash src.localDepth key then src.get hash key else none := by
  have hcopied := hsrc.copied
  refine Option.ext (fun w => ?_)
  rw [hcopied.ok.get_eq_some_iff hkey]
  split
  · next hbit =>
    rw [hsrc.get_eq_some_iff hkey]
    constructor
    · rintro ⟨s, hs, hp⟩
      obtain ⟨-, i, hi, heq⟩ := hcopied.of_mem s hs (by rw [hp]; exact hkey)
      exact ⟨i, hi, heq.trans hp⟩
    · rintro ⟨i, hi, hp⟩
      obtain ⟨s, hs, heq⟩ := hcopied.mem hzero i hi (by rw [hp]; exact hkey)
        (by rw [hp]; exact hbit)
      exact ⟨s, hs, heq.trans hp⟩
  · next hbit =>
    constructor
    · rintro ⟨s, hs, hp⟩
      obtain ⟨hb, -⟩ := hcopied.of_mem s hs (by rw [hp]; exact hkey)
      rw [hp] at hb
      exact absurd hb hbit
    · exact fun hw => absurd hw.symm (Option.some_ne_none w)

/-- The keys that are copied are not before their homes: none is around the end of the
array. -/
def Unwrapped (hash : ℕ → UInt64) (src : Segment V) : Prop :=
  ∀ i < numSlot, (src.slots i).key ≠ invalid →
    splitBit hash src.localDepth (src.slots i).key = true → home hash (src.slots i).key ≤ i

/-- A key that is not before its home finds an empty slot that is not behind its own. -/
theorem find?_window_le {i : ℕ} (hi : i < numSlot) (hmem : i ∈ window hash key)
    (hhome : home hash key ≤ i) {p : ℕ → Bool} (hp : p i = true) :
    ∃ s ≤ i, (window hash key).find? p = some s := by
  obtain ⟨j, hj, hij⟩ := List.mem_map.mp hmem
  have hsum : home hash key + j = i := by
    have hn : numSlot = 1024 := by decide
    have hm : numProbe = 32 := by decide
    rw [List.mem_range, hm] at hj
    rw [hn] at hij hi
    omega
  unfold window
  rw [List.find?_map]
  cases hfind : (List.range numProbe).find? (p ∘ fun i => (home hash key + i) % numSlot) with
  | none =>
    exact absurd (show (p ∘ fun i => (home hash key + i) % numSlot) j = true by
      rw [Function.comp_apply, hij, hp]) (List.find?_eq_none.mp hfind j hj)
  | some j' =>
    obtain ⟨hj', -, hfirst⟩ := List.find?_range_eq_some.mp hfind
    have hle : j' ≤ j := by
      by_contra hlt
      have := hfirst j (not_le.mp hlt)
      rw [Function.comp_apply, hij, hp] at this
      exact absurd this (by decide)
    refine ⟨(home hash key + j') % numSlot, ?_, rfl⟩
    exact (Nat.mod_le _ _).trans (by omega)

/-- One round drops nothing, and fills no slot that is still to come. -/
theorem splitRound_unwrapped (hsrc : src.Ok hash) (hun : Unwrapped hash src) (hn : n < numSlot)
    (hzero : acc.2 = 0) (hlt : ∀ s < numSlot, (acc.1.slots s).key ≠ invalid → s < n) :
    (splitRound hash src acc n).2 = 0 ∧ ∀ s < numSlot,
      ((splitRound hash src acc n).1.slots s).key ≠ invalid → s < n + 1 := by
  have hkeep : ∀ s < numSlot, (acc.1.slots s).key ≠ invalid → s < n + 1 :=
    fun s hs hne => Nat.lt_succ_of_lt (hlt s hs hne)
  -- a slot that is written is empty again, or not behind the one that is copied
  have hwrite : ∀ s, ((src.slots n).key = invalid ∨ s ≤ n) → ∀ s' < numSlot,
      ((acc.1.write s (src.slots n)).slots s').key ≠ invalid → s' < n + 1 := by
    intro s hs s' hs' hne
    by_cases hss : s' = s
    · rw [hss, slots_write_self] at hne
      exact hss ▸ Nat.lt_succ_of_le (hs.resolve_left hne)
    · rw [slots_write_of_ne hss] at hne
      exact hkeep s' hs' hne
  unfold splitRound
  split
  · next hbit =>
    by_cases hkey : (src.slots n).key = invalid
    · cases hins : acc.1.insert4split hash (src.slots n) with
      | some seg =>
        obtain ⟨s, -, rfl⟩ := Option.map_eq_some_iff.mp hins
        exact ⟨hzero, hwrite s (.inl hkey)⟩
      | none =>
        simp only [if_pos hkey]
        exact ⟨hzero, hkeep⟩
    · have hempty : (acc.1.slots n).key = invalid :=
        by_contra (fun hne => lt_irrefl n (hlt n hn hne))
      obtain ⟨s, hs, hfind⟩ := find?_window_le hn (hsrc.near n hn hkey) (hun n hn hkey hbit)
        (p := fun loc => decide ((acc.1.slots loc).key = invalid)) (decide_eq_true hempty)
      have hins : acc.1.insert4split hash (src.slots n)
          = some (acc.1.write s (src.slots n)) := by
        unfold Segment.insert4split
        rw [hfind]
        rfl
      rw [hins]
      exact ⟨hzero, hwrite s (.inr hs)⟩
  · exact ⟨hzero, hkeep⟩

/-- **Nothing is dropped** if no key is around the end of the array. -/
theorem dropped_split (hsrc : src.Ok hash) (hun : Unwrapped hash src) :
    (src.split hash).2 = 0 := by
  have hrounds : ∀ n ≤ numSlot, ∀ acc, acc = (List.range n).foldl (splitRound hash src)
      ({ localDepth := src.localDepth + 1 }, 0) → acc.2 = 0
        ∧ ∀ s < numSlot, (acc.1.slots s).key ≠ invalid → s < n := by
    intro n hn
    induction n with
    | zero =>
      rintro acc rfl
      exact ⟨rfl, fun _ _ hne => absurd rfl hne⟩
    | succ n ih =>
      rintro acc rfl
      rw [splitRounds_succ]
      obtain ⟨hzero, hlt⟩ := ih (Nat.le_of_succ_le hn) _ rfl
      exact splitRound_unwrapped hsrc hun hn hzero hlt
  exact (hrounds numSlot le_rfl _ rfl).1

/-- A key whose probing does not go around the end of the array. -/
def Low (hash : ℕ → UInt64) (key : ℕ) : Prop := home hash key + numProbe ≤ numSlot

theorem Segment.Ok.unwrapped (hsrc : src.Ok hash) (hlow : src.Keys (Low hash)) :
    Unwrapped hash src := by
  intro i hi hne _
  obtain ⟨j, hj, hij⟩ := List.mem_map.mp (hsrc.near i hi hne)
  have hle : home hash (src.slots i).key + numProbe ≤ numSlot := hlow i hi hne
  rw [List.mem_range] at hj
  rw [Nat.mod_eq_of_lt (by omega)] at hij
  omega

theorem Segment.Keys.write {P : ℕ → Prop} (hkeys : seg.Keys P) {p : Pair V} (hp : P p.key)
    (s : ℕ) : (seg.write s p).Keys P := by
  intro s' hs' hne
  by_cases hss : s' = s
  · rw [hss, slots_write_self]
    exact hp
  · rw [slots_write_of_ne hss] at hne ⊢
    exact hkeys s' hs' hne

/-- What is copied was there. -/
theorem Segment.Keys.split {P : ℕ → Prop} (hkeys : src.Keys P) (hsrc : src.Ok hash) :
    (src.split hash).1.Keys P := by
  intro s hs hne
  obtain ⟨-, i, hi, heq⟩ := hsrc.copied.of_mem s hs hne
  rw [← heq] at hne ⊢
  exact hkeys i hi hne

end Split

end Cceh
