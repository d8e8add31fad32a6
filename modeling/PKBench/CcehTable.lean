import Mathlib.Tactic.Ring
import PKBench.CcehSegment
import PKBench.FastFairStore

/-!
# The CCEH table

`CCEH::Insert` goes to the segment that the leading bits of the hash name in the
directory, updates the key there or puts it into a free slot, and if there is none splits
the segment and starts again. The directory is doubled when the segment has no bit to
spare. Here this is one thread; that a split has the segment for itself is the matter of
its semaphore.

The table does what is asked of a map, and the same that is asked of the FAST_FAIR tree
(`cceh_refines_map`), as long as no split has dropped a key.
-/

namespace Cceh

open FastFair (Call putMap mapCalls)
open PrefixDirectory (leading)

variable {V : Type}

/-- **`CCEH`**: the segments by their addresses, and the directory; with the number of
keys that the splits have dropped. -/
structure Table (V : Type) where
  segs : ℕ → Segment V
  fresh : ℕ
  dir : PrefixDirectory ℕ
  dropped : ℕ := 0

/-- `CCEH(initCap)`, for `d = log2(initCap)`. `CCEHIndex` has `d = 17`. -/
def Table.new (d : ℕ) : Table V where
  segs := fun _ => { localDepth := d }
  fresh := 2 ^ d
  dir := { depth := d, entry := id }

/-- A segment is written. -/
def Table.setSeg (t : Table V) (a : ℕ) (seg : Segment V) : Table V :=
  { t with segs := Function.update t.segs a seg }

/-- The directory is doubled: entry `x` is for two segments. -/
def doubled (D : PrefixDirectory ℕ) (x s₀ s₁ : ℕ) : PrefixDirectory ℕ where
  depth := D.depth + 1
  entry j := if j / 2 = x then if j % 2 = 0 then s₀ else s₁ else D.entry (j / 2)

/-- A new segment is entered for the upper half of the indices of a segment with local
depth `ld`, one of which is `x`. -/
def entered (D : PrefixDirectory ℕ) (x ld s₁ : ℕ) : PrefixDirectory ℕ where
  depth := D.depth
  entry :=
    if D.depth = ld + 1 then
      if x % 2 = 0 then Function.update D.entry (x + 1) s₁ else Function.update D.entry x s₁
    else
      let stride := 2 ^ (D.depth - ld)
      let loc := x - x % stride
      fun j => if loc + stride / 2 ≤ j ∧ j < loc + stride / 2 + stride / 2 then s₁
        else D.entry j

section Operations

variable (hash : ℕ → UInt64)

/-- The index of a key, and its segment. -/
def Table.index (t : Table V) (key : ℕ) : ℕ := leading 64 (hash key).toNat t.dir.depth

def Table.target (t : Table V) (key : ℕ) : ℕ := t.dir.entry (t.index hash key)

/-- **`CCEH::Get`.** -/
def Table.get (t : Table V) (key : ℕ) : Option V :=
  (t.segs (t.target hash key)).get hash key

/-- The segment of a key is split. -/
def Table.splitTarget (t : Table V) (key : ℕ) : Table V :=
  let a := t.target hash key
  let seg := t.segs a
  let s := seg.split hash
  { segs := Function.update (Function.update t.segs t.fresh s.1) a
      { seg with localDepth := seg.localDepth + 1 }
    fresh := t.fresh + 1
    dir := if seg.localDepth = t.dir.depth then doubled t.dir (t.index hash key) a t.fresh
      else entered t.dir (t.index hash key) seg.localDepth t.fresh
    dropped := t.dropped + s.2 }

/-- **A split that the code can do**: the loop that doubles the directory counts with an
`unsigned`, and otherwise `stride` is an `int`. -/
def Table.canSplit (t : Table V) (key : ℕ) : Bool :=
  let ld := (t.segs (t.target hash key)).localDepth
  if ld = t.dir.depth then t.dir.depth < maxDepth else t.dir.depth - ld < 31

variable [DecidableEq V]

omit hash in
/-- The update of a slot, and `old_val`. A cleaner says what it has copied and overwrites
only that. -/
def updatePair (p : Pair V) (new : V) (old : Option V) : Pair V × Option V :=
  match old with
  | some o => if p.value = some o then ({ p with value := some new }, some o) else (p, some new)
  | none => ({ p with value := some new }, p.value)

/-- **`CCEH::Insert`**, with `old_val`. -/
def Table.insert : ℕ → Table V → Call V → Option (Table V × Option V)
  | 0, _, _ => none
  | fuel + 1, t, c =>
    let a := t.target hash c.key
    let seg := t.segs a
    match seg.find hash c.key with
    | some s =>
      let r := updatePair (seg.slots s) c.new c.old
      some (t.setSeg a (seg.write s r.1), r.2)
    | none =>
      match seg.free hash c.key with
      | some s => some (t.setSeg a (seg.write s ⟨c.key, some c.new⟩), c.old)
      | none =>
        if t.canSplit hash c.key then insert fuel (t.splitTarget hash c.key) c else none

/-- **`CCEH::TryGCUpdate`** of a cleaner that has copied `o`, with a shortcut to position
`i` of the segment at `a`. -/
def Table.tryGCUpdate (t : Table V) (a i key : ℕ) (new o : V) : Option (Table V × Option V) :=
  let loc := (home hash key + i) % numSlot
  let p := (t.segs a).slots loc
  if a = t.target hash key then
    if p.key = key then
      if p.value = some o then
        some (t.setSeg a ((t.segs a).write loc { p with value := some new }), some o)
      else some (t, some new)
    else none
  else none

/-- **`CCEHIndex::GCMove`** of a cleaner, and `Put` of a writer. A cleaner that has a
shortcut tries it first. -/
def Table.move (fuel : ℕ) (t : Table V) (c : Call V) (shortcut : Option (ℕ × ℕ)) :
    Option (Table V × Option V) :=
  match c.old, shortcut with
  | some o, some (a, i) =>
    match t.tryGCUpdate hash a i c.key c.new o with
    | some r => some r
    | none => t.insert hash fuel c
  | _, _ => t.insert hash fuel c

/-- Calls with shortcuts, one after the other. -/
def runMoves (fuel : ℕ) :
    List (Call V × Option (ℕ × ℕ)) → Table V → Option (Table V × List (Option V))
  | [], t => some (t, [])
  | (c, shortcut) :: calls, t => do
    let (t', old) ← t.move hash fuel c shortcut
    let (t'', olds) ← runMoves fuel calls t'
    some (t'', old :: olds)

/-- Calls of `Insert` one after the other: the table, and the values of `old_val`. -/
def runCalls (fuel : ℕ) : List (Call V) → Table V → Option (Table V × List (Option V))
  | [], t => some (t, [])
  | c :: calls, t => do
    let (t', old) ← t.insert hash fuel c
    let (t'', olds) ← runCalls fuel calls t'
    some (t'', old :: olds)

end Operations

/-! ## The invariant -/

/-- The local depth of the segment at an address. -/
def Table.localDepth (t : Table V) (a : ℕ) : ℕ := (t.segs a).localDepth

/-- **The invariant of a table.** No segment has less than two bits: the others would not
be more than `stride` can count. -/
structure Table.Ok (hash : ℕ → UInt64) (t : Table V) : Prop where
  sound : t.dir.Sound t.localDepth
  depth_le : t.dir.depth ≤ maxDepth
  two_le : ∀ a < t.fresh, 2 ≤ t.localDepth a
  entry_lt : ∀ x < 2 ^ t.dir.depth, t.dir.entry x < t.fresh
  seg : ∀ a < t.fresh, (t.segs a).Ok hash

variable {hash : ℕ → UInt64} {t : Table V} {key k : ℕ}

theorem maxDepth_le : maxDepth ≤ 64 := by decide

theorem Table.Ok.index_lt (h : t.Ok hash) (key : ℕ) : t.index hash key < 2 ^ t.dir.depth :=
  PrefixDirectory.leading_lt (h.depth_le.trans maxDepth_le) (hash key).toNat_lt

theorem Table.Ok.target_lt (h : t.Ok hash) (key : ℕ) : t.target hash key < t.fresh :=
  h.entry_lt _ (h.index_lt key)

theorem Table.Ok.target_ok (h : t.Ok hash) (key : ℕ) :
    (t.segs (t.target hash key)).Ok hash :=
  h.seg _ (h.target_lt key)

theorem Table.Ok.localDepth_le (h : t.Ok hash) (key : ℕ) :
    t.localDepth (t.target hash key) ≤ t.dir.depth :=
  h.sound.le _ (h.index_lt key)

/-- **The keys of a segment** are those with its pattern. -/
theorem Table.Ok.target_eq_iff (h : t.Ok hash) (key k : ℕ) :
    t.target hash k = t.target hash key
      ↔ leading 64 (hash k).toNat (t.localDepth (t.target hash key))
        = leading 64 (hash key).toNat (t.localDepth (t.target hash key)) := by
  have hle := h.localDepth_le key
  have hdepth := h.depth_le.trans maxDepth_le
  rw [← PrefixDirectory.leading_div hle hdepth, ← PrefixDirectory.leading_div hle hdepth]
  exact h.sound.same _ (h.index_lt key) _ (h.index_lt k)

/-! ## One segment changes -/

theorem segs_setSeg_self (t : Table V) (a : ℕ) (seg : Segment V) :
    (t.setSeg a seg).segs a = seg := by
  show Function.update t.segs a seg a = seg
  rw [Function.update_self]

theorem segs_setSeg_of_ne {a b : ℕ} (hba : b ≠ a) (seg : Segment V) :
    (t.setSeg a seg).segs b = t.segs b := by
  show Function.update t.segs a seg b = t.segs b
  rw [Function.update_of_ne hba]

theorem get_setSeg (t : Table V) (a : ℕ) (seg : Segment V) (k : ℕ) :
    (t.setSeg a seg).get hash k = if t.target hash k = a then seg.get hash k else t.get hash k := by
  show (Function.update t.segs a seg (t.target hash k)).get hash k = _
  split
  · next heq => rw [heq, Function.update_self]
  · next hne => rw [Function.update_of_ne hne]; rfl

theorem Table.Ok.setSeg (h : t.Ok hash) {a : ℕ} {seg : Segment V} (hseg : seg.Ok hash)
    (hdepth : seg.localDepth = t.localDepth a) : (t.setSeg a seg).Ok hash := by
  have hlocal : (t.setSeg a seg).localDepth = t.localDepth := by
    funext b
    unfold Table.localDepth
    by_cases hba : b = a
    · rw [hba, segs_setSeg_self]
      exact hdepth
    · rw [segs_setSeg_of_ne hba]
  refine ⟨hlocal ▸ h.sound, h.depth_le, hlocal ▸ h.two_le, h.entry_lt, fun b hb => ?_⟩
  by_cases hba : b = a
  · rw [hba, segs_setSeg_self]
    exact hseg
  · rw [segs_setSeg_of_ne hba]
    exact h.seg b hb

/-- **The table represents a map**, as far as its keys go. -/
def Represents (hash : ℕ → UInt64) (t : Table V) (m : ℕ → Option V) : Prop :=
  ∀ k, Valid k → t.get hash k = m k

variable {m : ℕ → Option V} {s : ℕ} {v : V}

theorem represents_get (t : Table V) : Represents hash t (t.get hash) := fun _ _ => rfl

/-- A value is written for a key, into the slot it has or one that is free. -/
theorem Table.Ok.write (h : t.Ok hash) (hkey : Valid key) (hs : s ∈ window hash key)
    (hother : ∀ s' < numSlot, s' ≠ s → ((t.segs (t.target hash key)).slots s').key ≠ key)
    (hold : ∀ k, Valid k → k ≠ key → t.target hash k = t.target hash key →
      ((t.segs (t.target hash key)).slots s).key ≠ k) (hrep : Represents hash t m) :
    (t.setSeg (t.target hash key) ((t.segs (t.target hash key)).write s ⟨key, some v⟩)).Ok hash
      ∧ Represents hash
        (t.setSeg (t.target hash key) ((t.segs (t.target hash key)).write s ⟨key, some v⟩))
        (Function.update m key (some v)) := by
  have hseg := h.target_ok key
  refine ⟨h.setSeg (hseg.write hkey hs hother) rfl, fun k hk => ?_⟩
  rw [get_setSeg, hseg.get_write hkey hs hother hk.ne_invalid]
  by_cases hkk : k = key
  · rw [hkk, if_pos rfl, if_pos rfl, Function.update_self]
  · rw [Function.update_of_ne hkk, if_neg hkk, ← hrep k hk]
    split
    · next htarget =>
      rw [if_neg (hold k hk hkk htarget)]
      unfold Table.get
      rw [htarget]
    · rfl

/-- A slot that may be overwritten. -/
theorem Segment.free_eq_some {seg : Segment V} (hfree : seg.free hash key = some s) :
    s ∈ window hash key
      ∧ (leading 64 (hash (seg.slots s).key).toNat seg.localDepth
          ≠ leading 64 (hash key).toNat seg.localDepth ∨ (seg.slots s).key = invalid) := by
  refine ⟨List.mem_of_find?_eq_some hfree, ?_⟩
  have hp := List.find?_some hfree
  exact (of_decide_eq_true hp).1

/-- **A new key is inserted.** What is overwritten has moved to another segment. -/
theorem Table.Ok.insert_free (h : t.Ok hash) (hkey : Valid key)
    (hfind : (t.segs (t.target hash key)).find hash key = none)
    (hfree : (t.segs (t.target hash key)).free hash key = some s) (hrep : Represents hash t m) :
    (t.setSeg (t.target hash key) ((t.segs (t.target hash key)).write s ⟨key, some v⟩)).Ok hash
      ∧ Represents hash
        (t.setSeg (t.target hash key) ((t.segs (t.target hash key)).write s ⟨key, some v⟩))
        (Function.update m key (some v)) := by
  obtain ⟨hs, hstale⟩ := Segment.free_eq_some hfree
  have hnone := ((h.target_ok key).find_eq_none_iff hkey.ne_invalid).mp hfind
  refine h.write hkey hs (fun s' hs' _ => hnone s' hs') (fun k hk _ htarget heq => ?_) hrep
  rcases hstale with hstale | hinvalid
  · rw [heq] at hstale
    exact hstale ((h.target_eq_iff key k).mp htarget)
  · exact hk.ne_invalid (heq.symm.trans hinvalid)

theorem Represents.find_eq_some (hrep : Represents hash t m) (hkey : Valid key)
    (hfind : (t.segs (t.target hash key)).find hash key = some s) :
    m key = ((t.segs (t.target hash key)).slots s).value := by
  rw [← hrep key hkey]
  unfold Table.get Segment.get
  rw [hfind]
  rfl

theorem Represents.find_eq_none (hrep : Represents hash t m) (hkey : Valid key)
    (hfind : (t.segs (t.target hash key)).find hash key = none) : m key = none := by
  rw [← hrep key hkey]
  unfold Table.get Segment.get
  rw [hfind]
  rfl

/-! ## A segment is split -/

section Split

variable {D : PrefixDirectory ℕ} {depth : ℕ → ℕ} {a b x : ℕ}

/-- The directory is doubled for a segment that has all its bits. -/
theorem splits_doubled (h : D.Sound depth) (hx : x < 2 ^ D.depth) (ha : D.entry x = a)
    (hdepth : depth a = D.depth) : D.Splits (doubled D x a b) depth a b where
  le := Nat.le_succ D.depth
  lt := hdepth ▸ Nat.lt_succ_self D.depth
  entry y hy := by
    have hhalf : y / 2 < 2 ^ D.depth := Nat.div_lt_of_lt_mul (by rw [← pow_succ']; exact hy)
    have hsame : y / 2 = x ↔ D.entry (y / 2) = a := by
      have := h.same x hx (y / 2) hhalf
      rw [ha, hdepth, Nat.sub_self, pow_zero, Nat.div_one, Nat.div_one] at this
      exact this.symm
    show (if y / 2 = x then if y % 2 = 0 then a else b else D.entry (y / 2)) = _
    rw [show (doubled D x a b).depth = D.depth + 1 from rfl, hdepth, Nat.add_sub_cancel_left,
      Nat.sub_self, pow_zero, pow_one, Nat.div_one]
    simp only [hsame]
    rcases Nat.mod_two_eq_zero_or_one y with hy | hy
    · simp only [hy, if_pos, Nat.zero_ne_one, if_false]
    · simp only [hy, if_pos, Nat.one_ne_zero, if_false]

/-- The upper half of the indices, by either way of the code. -/
theorem entry_entered {ld : ℕ} (hld : ld < D.depth) (y : ℕ) :
    (entered D x ld b).entry y
      = if y / 2 ^ (D.depth - ld - 1) = 2 * (x / 2 ^ (D.depth - ld)) + 1 then b
        else D.entry y := by
  by_cases hone : D.depth = ld + 1
  · unfold entered
    simp only [hone, if_true, Nat.add_sub_cancel_left, Nat.sub_self, pow_zero, pow_one,
      Nat.div_one]
    split
    · rw [Function.update_apply]
      refine if_congr ?_ rfl rfl
      omega
    · rw [Function.update_apply]
      refine if_congr ?_ rfl rfl
      omega
  · unfold entered
    simp only [if_neg hone]
    have hstride : 2 ^ (D.depth - ld) = 2 * 2 ^ (D.depth - ld - 1) := by
      rw [← pow_succ']
      congr 1
      omega
    have hhalf : 2 ^ (D.depth - ld) / 2 = 2 ^ (D.depth - ld - 1) := by omega
    have hloc := Nat.div_add_mod x (2 ^ (D.depth - ld))
    have hq : 2 ^ (D.depth - ld) * (x / 2 ^ (D.depth - ld)) + 2 ^ (D.depth - ld - 1)
        = (2 * (x / 2 ^ (D.depth - ld)) + 1) * 2 ^ (D.depth - ld - 1) := by
      rw [add_mul, one_mul, hstride]
      ring
    refine if_congr ?_ rfl rfl
    rw [Nat.div_eq_iff (Nat.two_pow_pos _), ← hq, hhalf]
    have hpos : 0 < 2 ^ (D.depth - ld - 1) := Nat.two_pow_pos _
    omega

theorem splits_entered (h : D.Sound depth) (hx : x < 2 ^ D.depth) (ha : D.entry x = a)
    (hdepth : depth a < D.depth) : D.Splits (entered D x (depth a) b) depth a b where
  le := le_rfl
  lt := hdepth
  entry y hy := by
    have hhalf : y / 2 ^ (D.depth - depth a - 1) / 2 = y / 2 ^ (D.depth - depth a) := by
      rw [Nat.div_div_eq_div_mul, ← pow_succ]
      congr 2
      omega
    have hsame := h.same x hx y hy
    rw [ha] at hsame
    rw [entry_entered hdepth]
    show _ = if D.entry (y / 2 ^ (D.depth - D.depth)) = a then
        if y / 2 ^ (D.depth - depth a - 1) % 2 = 1 then b else a
      else D.entry (y / 2 ^ (D.depth - D.depth))
    rw [Nat.sub_self, pow_zero, Nat.div_one]
    by_cases hya : D.entry y = a
    · have hq := hsame.mp hya
      rw [if_pos hya, hya]
      refine if_congr ?_ rfl rfl
      omega
    · have hq : y / 2 ^ (D.depth - depth a) ≠ x / 2 ^ (D.depth - depth a) :=
        fun heq => hya (hsame.mpr heq)
      rw [if_neg hya, if_neg]
      omega

variable (h : t.Ok hash)

include h in
/-- **The directory after a split.** -/
theorem Table.Ok.splits (key : ℕ) : t.dir.Splits (t.splitTarget hash key).dir t.localDepth
    (t.target hash key) t.fresh := by
  show t.dir.Splits (if _ then _ else _) _ _ _
  split
  · next hdepth => exact splits_doubled h.sound (h.index_lt key) rfl hdepth
  · next hdepth =>
    exact splits_entered h.sound (h.index_lt key) rfl
      (lt_of_le_of_ne (h.localDepth_le key) hdepth)

theorem segs_splitTarget_target (t : Table V) (key : ℕ) :
    (t.splitTarget hash key).segs (t.target hash key)
      = { t.segs (t.target hash key) with
          localDepth := t.localDepth (t.target hash key) + 1 } :=
  Function.update_self _ _ _

include h in
theorem Table.Ok.segs_splitTarget_fresh (key : ℕ) :
    (t.splitTarget hash key).segs t.fresh = ((t.segs (t.target hash key)).split hash).1 :=
  (Function.update_of_ne (h.target_lt key).ne' _ _).trans (Function.update_self _ _ _)

theorem segs_splitTarget_of_ne {c : ℕ} (hc : c ≠ t.target hash key) (hfresh : c ≠ t.fresh) :
    (t.splitTarget hash key).segs c = t.segs c :=
  (Function.update_of_ne hc _ _).trans (Function.update_of_ne hfresh _ _)

include h in
theorem Table.Ok.localDepth_splitTarget (key : ℕ) : (t.splitTarget hash key).localDepth
    = PrefixDirectory.splitDepth t.localDepth (t.target hash key) t.fresh := by
  have hne := (h.target_lt key).ne
  funext c
  by_cases hfresh : c = t.fresh
  · rw [hfresh, PrefixDirectory.splitDepth_right, Table.localDepth, h.segs_splitTarget_fresh]
    exact (h.target_ok key).copied.localDepth
  · by_cases hc : c = t.target hash key
    · rw [hc, PrefixDirectory.splitDepth_left hne, Table.localDepth, segs_splitTarget_target]
    · rw [PrefixDirectory.splitDepth_of_ne hc hfresh, Table.localDepth,
        segs_splitTarget_of_ne hc hfresh]
      rfl

include h in
theorem Table.Ok.depth_splitTarget_le {key : ℕ}
    (hlt : t.localDepth (t.target hash key) < maxDepth) :
    (t.splitTarget hash key).dir.depth ≤ maxDepth := by
  show (if _ then _ else _ : PrefixDirectory ℕ).depth ≤ maxDepth
  split
  · next hdepth =>
    show t.dir.depth + 1 ≤ maxDepth
    exact hdepth ▸ hlt
  · exact h.depth_le

include h in
/-- **The segments of the keys after a split.** -/
theorem Table.Ok.target_splitTarget {key : ℕ}
    (hlt : t.localDepth (t.target hash key) < maxDepth) (k : ℕ) :
    (t.splitTarget hash key).target hash k
      = if t.target hash k = t.target hash key then
          if splitBit hash (t.localDepth (t.target hash key)) k then t.fresh
          else t.target hash key
        else t.target hash k :=
  (h.splits key).entry_leading ((h.depth_splitTarget_le hlt).trans maxDepth_le)
    (hash k).toNat_lt

include h in
/-- **A split keeps the invariant.** -/
theorem Table.Ok.splitTarget {key : ℕ} (hlt : t.localDepth (t.target hash key) < maxDepth) :
    (t.splitTarget hash key).Ok hash where
  sound := by
    rw [h.localDepth_splitTarget]
    exact h.sound.splits (h.splits key) (h.target_lt key).ne (fun x hx => (h.entry_lt x hx).ne)
  depth_le := h.depth_splitTarget_le hlt
  two_le c hc := by
    have htarget := h.two_le _ (h.target_lt key)
    rw [h.localDepth_splitTarget]
    by_cases hfresh : c = t.fresh
    · rw [hfresh, PrefixDirectory.splitDepth_right]
      exact Nat.le_succ_of_le htarget
    · by_cases hct : c = t.target hash key
      · rw [hct, PrefixDirectory.splitDepth_left (h.target_lt key).ne]
        exact Nat.le_succ_of_le htarget
      · rw [PrefixDirectory.splitDepth_of_ne hct hfresh]
        exact h.two_le c (lt_of_le_of_ne (Nat.le_of_lt_succ hc) hfresh)
  entry_lt y hy := by
    rw [(h.splits key).entry y hy]
    split
    · split
      · exact Nat.lt_succ_self t.fresh
      · exact Nat.lt_succ_of_lt (h.target_lt key)
    · exact Nat.lt_succ_of_lt (h.entry_lt _ ((h.splits key).div_lt hy))
  seg c hc := by
    by_cases hfresh : c = t.fresh
    · rw [hfresh, h.segs_splitTarget_fresh]
      exact (h.target_ok key).copied.ok
    · by_cases htarget : c = t.target hash key
      · rw [htarget, segs_splitTarget_target]
        exact (h.target_ok key).congr (fun _ => rfl) (fun _ _ => rfl)
      · rw [segs_splitTarget_of_ne htarget hfresh]
        exact h.seg c (lt_of_le_of_ne (Nat.le_of_lt_succ hc) hfresh)

include h in
/-- The segment of the key has one bit more. -/
theorem Table.Ok.localDepth_target_splitTarget {key : ℕ}
    (hlt : t.localDepth (t.target hash key) < maxDepth) :
    (t.splitTarget hash key).localDepth ((t.splitTarget hash key).target hash key)
      = t.localDepth (t.target hash key) + 1 := by
  rw [h.target_splitTarget hlt, if_pos rfl, h.localDepth_splitTarget]
  split
  · exact PrefixDirectory.splitDepth_right
  · exact PrefixDirectory.splitDepth_left (h.target_lt key).ne

include h in
/-- **A split that drops nothing changes nothing** of what is read. -/
theorem Table.Ok.get_splitTarget {key : ℕ}
    (hlt : t.localDepth (t.target hash key) < maxDepth)
    (hzero : ((t.segs (t.target hash key)).split hash).2 = 0) (hk : k ≠ invalid) :
    (t.splitTarget hash key).get hash k = t.get hash k := by
  unfold Table.get
  rw [h.target_splitTarget hlt]
  by_cases htarget : t.target hash k = t.target hash key
  · rw [if_pos htarget, htarget]
    split
    · next hbit =>
      rw [h.segs_splitTarget_fresh, (h.target_ok key).get_split hzero hk]
      exact if_pos hbit
    · rw [segs_splitTarget_target]
      rfl
  · rw [if_neg htarget, segs_splitTarget_of_ne htarget (h.target_lt k).ne]

include h in
/-- **When a segment can be split**: the depths of a table are within the bounds of the
two loops. -/
theorem Table.Ok.canSplit_iff (key : ℕ) :
    t.canSplit hash key = true ↔ t.localDepth (t.target hash key) < maxDepth := by
  have hle := h.localDepth_le key
  have hmax := h.depth_le
  have htwo := h.two_le _ (h.target_lt key)
  show (if t.localDepth (t.target hash key) = t.dir.depth then decide (t.dir.depth < maxDepth)
    else decide (t.dir.depth - t.localDepth (t.target hash key) < 31)) = true ↔ _
  have hbits : maxDepth = 32 := rfl
  split
  · next heq => rw [decide_eq_true_eq, heq]
  · rw [decide_eq_true_eq]
    omega

/-- The keys of a table. -/
def Table.Keys (t : Table V) (P : ℕ → Prop) : Prop := ∀ a < t.fresh, (t.segs a).Keys P

variable {P : ℕ → Prop}

include h in
/-- A slot of the segment is written for the key. -/
theorem Table.Ok.keys_write (hkeys : t.Keys P) {p : Pair V} (hp : P p.key) (key s : ℕ) :
    (t.setSeg (t.target hash key) ((t.segs (t.target hash key)).write s p)).Keys P := by
  intro a ha
  by_cases hat : a = t.target hash key
  · rw [hat, segs_setSeg_self]
    exact (hkeys _ (h.target_lt key)).write hp s
  · rw [segs_setSeg_of_ne hat]
    exact hkeys a ha

include h in
theorem Table.Ok.keys_splitTarget (hkeys : t.Keys P) (key : ℕ) :
    (t.splitTarget hash key).Keys P := by
  have htarget := hkeys _ (h.target_lt key)
  intro a ha
  by_cases hfresh : a = t.fresh
  · rw [hfresh, h.segs_splitTarget_fresh]
    exact htarget.split (h.target_ok key)
  · by_cases hat : a = t.target hash key
    · rw [hat, segs_splitTarget_target]
      exact htarget
    · rw [segs_splitTarget_of_ne hat hfresh]
      exact hkeys a (lt_of_le_of_ne (Nat.le_of_lt_succ ha) hfresh)

end Split

section Insert

variable [DecidableEq V] {c : Call V}

omit [DecidableEq V] in
/-- A slot that is written with what it holds. -/
theorem setSeg_write_self (t : Table V) (a s : ℕ) :
    t.setSeg a ((t.segs a).write s ((t.segs a).slots s)) = t := by
  unfold Table.setSeg Segment.write
  rw [Function.update_eq_self, Function.update_eq_self]

/-- **A key is updated.** -/
theorem Table.Ok.insert_found (h : t.Ok hash) (hkey : Valid c.key) {a : ℕ}
    (ha : t.target hash c.key = a) (hfind : (t.segs a).find hash c.key = some s)
    (hrep : Represents hash t m) {r : Pair V × Option V}
    (hr : updatePair ((t.segs a).slots s) c.new c.old = r) :
    (t.setSeg a ((t.segs a).write s r.1)).Ok hash
      ∧ Represents hash (t.setSeg a ((t.segs a).write s r.1)) (putMap m c.key c.new c.old).1
      ∧ r.2 = (putMap m c.key c.new c.old).2 := by
  subst ha
  have hseg := h.target_ok c.key
  have hm := hrep.find_eq_some hkey hfind
  obtain ⟨hs, hkeys⟩ := (hseg.find_eq_some_iff hkey.ne_invalid).mp hfind
  obtain ⟨cur, hcur⟩ := Option.ne_none_iff_exists'.mp
    (hseg.written s hs (hkeys.symm ▸ hkey.ne_invalid))
  have hwrite := h.write (s := s) (v := c.new) hkey
    (hkeys ▸ hseg.near s hs (hkeys.symm ▸ hkey.ne_invalid))
    (fun s' hs' hne heq => hne (hseg.inj s' hs' s hs (heq.trans hkeys.symm)
      (heq.symm ▸ hkey.ne_invalid)))
    (fun k _ hne _ heq => hne (heq.symm.trans hkeys)) hrep
  rw [hcur] at hm
  unfold putMap
  rw [hm]
  cases hold : c.old with
  | none =>
    rw [hold, updatePair] at hr
    subst hr
    simp only [hkeys, hcur]
    exact ⟨hwrite.1, hwrite.2, trivial⟩
  | some o =>
    rw [hold, updatePair, hcur] at hr
    by_cases ho : cur = o
    · rw [if_pos (congrArg some ho)] at hr
      subst hr
      simp only [hkeys, if_pos ho]
      exact ⟨hwrite.1, hwrite.2, trivial⟩
    · rw [if_neg (fun heq => ho (Option.some.inj heq))] at hr
      subst hr
      simp only [if_neg ho, setSeg_write_self]
      exact ⟨h, hrep, trivial⟩

theorem key_updatePair (p : Pair V) (new : V) (old : Option V) :
    (updatePair p new old).1.key = p.key := by
  unfold updatePair
  split
  · split <;> rfl
  · rfl

/-- What `Insert` comes to: it changes the table as the map is changed, unless a split
drops a key. -/
structure Inserted (hash : ℕ → UInt64) (t t' : Table V) (m : ℕ → Option V) (c : Call V)
    (old : Option V) : Prop where
  ok : t'.Ok hash
  dropped_le : t.dropped ≤ t'.dropped
  represents : t'.dropped = t.dropped → Represents hash t m →
    Represents hash t' (putMap m c.key c.new c.old).1 ∧ old = (putMap m c.key c.new c.old).2

theorem putMap_eq_of_none (hm : m c.key = none) :
    putMap m c.key c.new c.old = (Function.update m c.key (some c.new), c.old) := by
  unfold putMap
  rw [hm]
  cases c.old <;> rfl

/-- **One call of `Insert`**, with all the splits it makes. -/
theorem Table.Ok.inserted (h : t.Ok hash) (hkey : Valid c.key) (m : ℕ → Option V) {fuel : ℕ}
    {t' : Table V} {old : Option V} (hins : t.insert hash fuel c = some (t', old)) :
    Inserted hash t t' m c old := by
  induction fuel generalizing t with
  | zero => exact absurd hins.symm (Option.some_ne_none _)
  | succ fuel ih =>
    simp only [Table.insert] at hins
    split at hins
    · next s hfind =>
      obtain ⟨rfl, rfl⟩ := Prod.mk.inj (Option.some.inj hins)
      refine ⟨(h.insert_found hkey rfl hfind (represents_get t) rfl).1, le_rfl, fun _ hrep => ?_⟩
      exact (h.insert_found hkey rfl hfind hrep rfl).2
    · next hfind =>
      split at hins
      · next s hfree =>
        obtain ⟨rfl, rfl⟩ := Prod.mk.inj (Option.some.inj hins)
        refine ⟨(h.insert_free hkey hfind hfree (represents_get t)).1, le_rfl, fun _ hrep => ?_⟩
        rw [putMap_eq_of_none (hrep.find_eq_none hkey hfind)]
        exact ⟨(h.insert_free hkey hfind hfree hrep).2, rfl⟩
      · next hfree =>
        split at hins
        · next hcan =>
          have hlt := (h.canSplit_iff c.key).mp hcan
          have hrest := ih (h.splitTarget hlt) hins
          have hle : t.dropped ≤ (t.splitTarget hash c.key).dropped := Nat.le_add_right _ _
          refine ⟨hrest.ok, hle.trans hrest.dropped_le, fun hsame hrep => ?_⟩
          have hsplit : (t.splitTarget hash c.key).dropped = t.dropped :=
            le_antisymm (hrest.dropped_le.trans hsame.le) hle
          refine hrest.represents (hsame.trans hsplit.symm) (fun k hk => ?_)
          rw [h.get_splitTarget hlt (Nat.add_eq_left.mp hsplit) hk.ne_invalid]
          exact hrep k hk
        · exact absurd hins.symm (Option.some_ne_none _)

/-- **`Insert` returns.** With every round the segment of the key has one bit more, and
when it can have no more it has room. -/
theorem Table.Ok.exists_insert {keys : Finset ℕ} (hspread : Spread hash keys) (h : t.Ok hash)
    (hkeys : t.Keys (· ∈ keys)) (hmem : c.key ∈ keys) (hkey : Valid c.key)
    {fuel : ℕ} (hfuel : maxDepth - t.localDepth (t.target hash c.key) < fuel) :
    ∃ t' old, t.insert hash fuel c = some (t', old) := by
  induction fuel generalizing t with
  | zero => exact absurd hfuel (Nat.not_lt_zero _)
  | succ fuel ih =>
    simp only [Table.insert]
    split
    · exact ⟨_, _, rfl⟩
    · next hfind =>
      split
      · exact ⟨_, _, rfl⟩
      · next hfree =>
        have hlt : t.localDepth (t.target hash c.key) < maxDepth := by
          refine lt_of_le_of_ne ((h.localDepth_le c.key).trans h.depth_le) (fun hdepth => ?_)
          exact (h.target_ok c.key).free_ne_none hspread (hkeys _ (h.target_lt c.key)) hmem hkey
            hdepth hfind hfree
        rw [if_pos ((h.canSplit_iff c.key).mpr hlt)]
        refine ih (h.splitTarget hlt) (h.keys_splitTarget hkeys c.key) ?_
        rw [h.localDepth_target_splitTarget hlt]
        omega

/-- The keys of a table are those that were put. -/
theorem Table.Ok.keys_insert (h : t.Ok hash) (hkey : Valid c.key) {P : ℕ → Prop} (hP : P c.key)
    (hkeys : t.Keys P) {fuel : ℕ} {t' : Table V} {old : Option V}
    (hins : t.insert hash fuel c = some (t', old)) : t'.Keys P := by
  induction fuel generalizing t with
  | zero => exact absurd hins.symm (Option.some_ne_none _)
  | succ fuel ih =>
    simp only [Table.insert] at hins
    split at hins
    · next s hfind =>
      obtain ⟨rfl, rfl⟩ := Prod.mk.inj (Option.some.inj hins)
      obtain ⟨-, hs⟩ := ((h.target_ok c.key).find_eq_some_iff hkey.ne_invalid).mp hfind
      have hslot := (key_updatePair ((t.segs (t.target hash c.key)).slots s) c.new c.old).trans hs
      exact h.keys_write hkeys (hslot.symm ▸ hP) c.key s
    · split at hins
      · obtain ⟨rfl, rfl⟩ := Prod.mk.inj (Option.some.inj hins)
        exact h.keys_write hkeys hP c.key _
      · split at hins
        · next hcan =>
          have hlt := (h.canSplit_iff c.key).mp hcan
          exact ih (h.splitTarget hlt) (h.keys_splitTarget hkeys c.key) hins
        · exact absurd hins.symm (Option.some_ne_none _)

/-- **Keys that are not probed around the end** are never dropped. -/
theorem Table.Ok.dropped_insert (h : t.Ok hash) (hlow : t.Keys (Low hash)) {fuel : ℕ}
    {t' : Table V} {old : Option V} (hins : t.insert hash fuel c = some (t', old)) :
    t'.dropped = t.dropped := by
  induction fuel generalizing t with
  | zero => exact absurd hins.symm (Option.some_ne_none _)
  | succ fuel ih =>
    simp only [Table.insert] at hins
    split at hins
    · obtain ⟨rfl, rfl⟩ := Prod.mk.inj (Option.some.inj hins)
      rfl
    · split at hins
      · obtain ⟨rfl, rfl⟩ := Prod.mk.inj (Option.some.inj hins)
        rfl
      · split at hins
        · next hcan =>
          have hlt := (h.canSplit_iff c.key).mp hcan
          have hseg := h.target_ok c.key
          have hzero := dropped_split hseg (hseg.unwrapped (hlow _ (h.target_lt c.key)))
          have hrest := ih (h.splitTarget hlt) (h.keys_splitTarget hlow c.key) hins
          exact hrest.trans (Nat.add_eq_left.mpr hzero)
        · exact absurd hins.symm (Option.some_ne_none _)

/-! ## Whole runs -/

/-- **A run of calls.** -/
theorem Table.Ok.runCalls {keys : Finset ℕ} (hspread : Spread hash keys) {calls : List (Call V)}
    (hmem : ∀ c ∈ calls, c.key ∈ keys) (hvalid : ∀ c ∈ calls, Valid c.key) {fuel : ℕ}
    (hfuel : maxDepth < fuel) (h : t.Ok hash) (hkeys : t.Keys (· ∈ keys)) (m : ℕ → Option V) :
    ∃ t' olds, runCalls hash fuel calls t = some (t', olds) ∧ t.dropped ≤ t'.dropped
      ∧ (t'.dropped = t.dropped → Represents hash t m →
        Represents hash t' (mapCalls calls m).1 ∧ olds = (mapCalls calls m).2)
      ∧ ((∀ c ∈ calls, Low hash c.key) → t.Keys (Low hash) → t'.dropped = t.dropped) := by
  induction calls generalizing t m with
  | nil =>
    exact ⟨t, [], rfl, le_rfl, fun _ hrep => ⟨hrep, rfl⟩, fun _ _ => rfl⟩
  | cons c calls ih =>
    have hkey := hvalid c List.mem_cons_self
    have hin := hmem c List.mem_cons_self
    obtain ⟨t₁, old, hins⟩ :=
      h.exists_insert hspread hkeys hin hkey (show _ < fuel by omega)
    have hinserted := h.inserted hkey m hins
    obtain ⟨t', olds, hrun, hle, hrest, hlow⟩ :=
      ih (fun c' hc' => hmem c' (List.mem_cons_of_mem c hc'))
        (fun c' hc' => hvalid c' (List.mem_cons_of_mem c hc')) hinserted.ok
        (h.keys_insert hkey hin hkeys hins) (putMap m c.key c.new c.old).1
    refine ⟨t', old :: olds, ?_, hinserted.dropped_le.trans hle, fun hsame hrep => ?_,
      fun hhome hlows => ?_⟩
    · simp only [Cceh.runCalls, hins, hrun, Option.bind_eq_bind, Option.bind_some]
    · have hfirst : t₁.dropped = t.dropped :=
        le_antisymm (hle.trans hsame.le) hinserted.dropped_le
      obtain ⟨hrep₁, hold⟩ := hinserted.represents hfirst hrep
      obtain ⟨hrep', holds⟩ := hrest (hsame.trans hfirst.symm) hrep₁
      exact ⟨hrep', by rw [hold, holds]; rfl⟩
    · have hlows₁ := h.keys_insert hkey (hhome c List.mem_cons_self) hlows hins
      exact (hlow (fun c' hc' => hhome c' (List.mem_cons_of_mem c hc')) hlows₁).trans
        (h.dropped_insert hlows hins)

omit [DecidableEq V] in
theorem ok_new (hash : ℕ → UInt64) {d : ℕ} (htwo : 2 ≤ d) (hd : d ≤ maxDepth) :
    (Table.new d : Table V).Ok hash where
  sound :=
    { le := fun _ _ => le_rfl
      same := fun x _ y _ => by
        show y = x ↔ y / 2 ^ (d - d) = x / 2 ^ (d - d)
        rw [Nat.sub_self, pow_zero, Nat.div_one, Nat.div_one] }
  depth_le := hd
  two_le _ _ := htwo
  entry_lt _ hx := hx
  seg _ _ := (copied_zero hash { localDepth := d }).ok.congr (fun _ => rfl) (fun _ _ => rfl)

omit [DecidableEq V] in
theorem keys_new (d : ℕ) (P : ℕ → Prop) : (Table.new d : Table V).Keys P :=
  fun _ _ _ _ hne => absurd rfl hne

omit [DecidableEq V] in
theorem represents_new (hash : ℕ → UInt64) {d : ℕ} (htwo : 2 ≤ d) (hd : d ≤ maxDepth) :
    Represents hash (Table.new d : Table V) (fun _ => none) := by
  intro k hk
  refine (((ok_new hash htwo hd).target_ok k).get_eq_none_iff hk.ne_invalid).mpr (fun s _ => ?_)
  exact hk.ne_invalid.symm

/-- **CCEH is a map.** If not more than 32 of the keys agree in 32 leading bits of their
hashes, every call of `Insert` returns, with the splits and doublings of the directory it
takes. As long as no split has dropped a key, the values of `old_val` and what `Get` reads
are those of the map; and no key is dropped if the probing of all stays clear of the end
of the array. -/
theorem cceh_refines_map {d : ℕ} (htwo : 2 ≤ d) (hd : d < maxDepth) {calls : List (Call V)}
    (hvalid : ∀ c ∈ calls, Valid c.key) (hspread : Spread hash (calls.map Call.key).toFinset)
    {fuel : ℕ} (hfuel : maxDepth < fuel) :
    ∃ t olds, runCalls hash fuel calls (Table.new d) = some (t, olds)
      ∧ (t.dropped = 0 → olds = (mapCalls calls (fun _ => none)).2
        ∧ ∀ k, Valid k → t.get hash k = (mapCalls calls (fun _ => none)).1 k)
      ∧ ((∀ c ∈ calls, Low hash c.key) → t.dropped = 0) := by
  have hmem : ∀ c ∈ calls, c.key ∈ (calls.map Call.key).toFinset :=
    fun c hc => List.mem_toFinset.mpr (List.mem_map_of_mem hc)
  obtain ⟨t, olds, hrun, -, hrep, hlow⟩ :=
    (ok_new hash htwo hd.le).runCalls hspread hmem hvalid hfuel (keys_new d _) (fun _ => none)
  refine ⟨t, olds, hrun, fun hzero => ?_, fun hhome => hlow hhome (keys_new d _)⟩
  obtain ⟨hget, holds⟩ := hrep hzero (represents_new hash htwo hd.le)
  exact ⟨holds, hget⟩

/-- Forty keys whose hashes have the same low byte. A table that starts with four segments
splits them for these. -/
def fortyCalls : List (Call ℕ) := (List.range 40).map (fun j => ⟨j * 2 ^ 58, j, none⟩)

theorem cceh_refines_map_fortyCalls :
    Spread UInt64.ofNat (fortyCalls.map Call.key).toFinset ∧ ∃ t olds,
      runCalls UInt64.ofNat 33 fortyCalls (Table.new 2) = some (t, olds)
        ∧ t.get UInt64.ofNat (7 * 2 ^ 58) = some 7 := by
  have hvalid : ∀ c ∈ fortyCalls, Valid c.key := by
    unfold Valid
    decide
  have hspread : Spread UInt64.ofNat (fortyCalls.map Call.key).toFinset := by
    unfold Spread
    decide +kernel
  have hhome : ∀ c ∈ fortyCalls, Low UInt64.ofNat c.key := by
    unfold Low
    decide
  have hget : (mapCalls fortyCalls (fun _ => none)).1 (7 * 2 ^ 58) = some 7 := by decide
  obtain ⟨t, olds, hrun, hrep, hzero⟩ :=
    cceh_refines_map (show 2 ≤ 2 by decide) (show 2 < maxDepth by decide) hvalid hspread
      (show maxDepth < 33 by decide)
  refine ⟨hspread, t, olds, hrun, ?_⟩
  rw [(hrep (hzero hhome)).2 _ (show 7 * 2 ^ 58 < sentinel by decide)]
  exact hget

/-! ## Shortcuts -/

/-- **A shortcut that hits** leads to the slot that `Insert` finds. -/
theorem Table.Ok.tryGCUpdate (h : t.Ok hash) (hkey : Valid c.key) {o : V} (hold : c.old = some o)
    {a i : ℕ} {r : Table V × Option V}
    (hr : t.tryGCUpdate hash a i c.key c.new o = some r) (fuel : ℕ) :
    t.insert hash (fuel + 1) c = some r := by
  simp only [Table.tryGCUpdate] at hr
  split at hr
  · next ha =>
    subst ha
    split at hr
    · next hslot =>
      have hfind := ((h.target_ok c.key).find_eq_some_iff hkey.ne_invalid).mpr
        ⟨Nat.mod_lt _ (show 0 < numSlot by decide), hslot⟩
      simp only [Table.insert, hfind, hold, updatePair]
      split at hr
      · next hval => simp only [if_pos hval, hr]
      · next hval => simp only [if_neg hval, setSeg_write_self, hr]
    · exact absurd hr.symm (Option.some_ne_none r)
  · exact absurd hr.symm (Option.some_ne_none r)

theorem Table.Ok.move_eq_insert (h : t.Ok hash) (hkey : Valid c.key) (shortcut : Option (ℕ × ℕ))
    (fuel : ℕ) : t.move hash (fuel + 1) c shortcut = t.insert hash (fuel + 1) c := by
  unfold Table.move
  split
  · next o a i hold =>
    split
    · next r hr => exact (h.tryGCUpdate hkey hold hr fuel).symm
    · rfl
  · rfl

/-- **Shortcuts change nothing.** Whatever shortcuts the cleaners come with – to slots
whose key has moved with a split, or to none at all – a run does what the run without
them does. -/
theorem shortcuts_agree {d : ℕ} (htwo : 2 ≤ d) (hd : d < maxDepth)
    {calls : List (Call V × Option (ℕ × ℕ))} (hvalid : ∀ c ∈ calls, Valid c.1.key) (fuel : ℕ) :
    runMoves hash (fuel + 1) calls (Table.new d)
      = runCalls hash (fuel + 1) (calls.map Prod.fst) (Table.new d) := by
  have hrun : ∀ t : Table V, t.Ok hash → runMoves hash (fuel + 1) calls t
      = runCalls hash (fuel + 1) (calls.map Prod.fst) t := by
    induction calls with
    | nil => exact fun _ _ => rfl
    | cons c calls ih =>
      intro t h
      obtain ⟨c, shortcut⟩ := c
      have hkey : Valid c.key := hvalid _ List.mem_cons_self
      simp only [runMoves, List.map_cons, Cceh.runCalls, h.move_eq_insert hkey]
      cases hins : t.insert hash (fuel + 1) c with
      | none => rfl
      | some r =>
        have hok := (h.inserted hkey (fun _ => none) hins).ok
        simp only [Option.bind_eq_bind, Option.bind_some]
        rw [ih (fun c' hc' => hvalid c' (List.mem_cons_of_mem _ hc')) r.1 hok]
  exact hrun _ (ok_new hash htwo hd.le)

/-- A cleaner finds the value it has copied where its shortcut says, another one comes with
a shortcut to the other segment. -/
def threeMoves : List (Call ℕ × Option (ℕ × ℕ)) :=
  [(⟨5, 50, none⟩, none), (⟨5, 51, some 50⟩, some (0, 0)), (⟨5, 52, some 51⟩, some (1, 0))]

theorem shortcuts_agree_threeMoves :
    (∀ c ∈ threeMoves, Valid c.1.key)
      ∧ (runMoves UInt64.ofNat 33 threeMoves (Table.new 2)).map Prod.snd
        = (runCalls UInt64.ofNat 33 (threeMoves.map Prod.fst) (Table.new 2)).map Prod.snd := by
  have hvalid : ∀ c ∈ threeMoves, Valid c.1.key := by
    unfold Valid
    decide
  exact ⟨hvalid, congrArg _ (shortcuts_agree (show 2 ≤ 2 by decide)
    (show 2 < maxDepth by decide) hvalid 32)⟩

end Insert

end Cceh
