import PKBench.FlatStore

/-!
# FlatStore over the LB+-tree

The adapter of this fork indexes a key by its first eight bytes with the sign
bit cleared, and both its `Put` and its `GCMove` call `lbtree::insert`, which
finds a key that is already there and does nothing. The tree is not empty
either: the adapter's constructor bulk-loads one key, 42069, whose entry is the
number 42069 itself.

So what a `Get` sees is the *first* record ever put under the key's masked
word (`get_run`), where the client contract wants the last one put under the
key. `get_eq_last_iff` is when the two agree.
-/

namespace FlatStore

/-- `PBkeyToLB`. -/
def lbKey (key : Slice) : UInt64 := key.word &&& 0x7fffffffffffffff

/-- `lbtree::insert`: a key that is found is left as it is. -/
def lbtreeInsert (tree : UInt64 → Option ValueType) (key : UInt64) (ptr : ValueType) :
    UInt64 → Option ValueType :=
  match tree key with
  | some _ => tree
  | none => Function.update tree key (some ptr)

/-- The key the constructor of `LBTreeIndex` loads. -/
def bulkKey : UInt64 := 42069

/-- The tree after the constructor: `bulkload` enters the one key with itself
for a pointer. -/
def bulkloaded : UInt64 → Option ValueType :=
  fun key => if key = bulkKey then some (.raw bulkKey.toNat) else none

/-- **The adapter `LBTreeIndex`**. It never reports a replaced entry. -/
def lbTreeIndex : Index (UInt64 → Option ValueType) where
  get tree key := tree (lbKey key)
  put tree key val := (lbtreeInsert tree (lbKey key) val, none)

/-- The store as its constructor leaves it. -/
def createLB (numSegments numCleaners : ℕ) (pool : ℕ → SegmentImage KVItem) :
    DB (UInt64 → Option ValueType) where
  log := LogStructured.create numSegments numCleaners pool
  index := bulkloaded

/-- The first record written under an index key. -/
def firstPut (hist : List Entry) (key : UInt64) : Option Entry :=
  hist.find? (fun entry => lbKey entry.key = key)

/-! ## What the tree holds after any history -/

/-- Each index key but the bulk-loaded one has the first record written under
it, and that one still has what it was loaded with. -/
def HoldsFirst (hist : List Entry) (db : DB (UInt64 → Option ValueType)) : Prop :=
  db.index bulkKey = some (.raw bulkKey.toNat) ∧
    ∀ key, key ≠ bulkKey →
      match firstPut hist key with
      | none => db.index key = none
      | some entry => ∃ a kv, db.index key = some (.item a)
          ∧ db.log.itemAt a = some kv ∧ kv.value = entry.value

theorem lbtreeInsert_of_some {tree : UInt64 → Option ValueType} {key key' : UInt64}
    {v ptr : ValueType} (h : tree key = some v) : lbtreeInsert tree key' ptr key = some v := by
  unfold lbtreeInsert
  cases hk : tree key' with
  | some _ => exact h
  | none =>
    have hne : key ≠ key' := fun he => by rw [he, hk] at h; cases h
    show Function.update tree key' (some ptr) key = some v
    rw [Function.update_of_ne hne]
    exact h

theorem lbtreeInsert_of_ne {tree : UInt64 → Option ValueType} {key key' : UInt64}
    {ptr : ValueType} (h : key ≠ key') : lbtreeInsert tree key' ptr key = tree key := by
  unfold lbtreeInsert
  cases tree key' with
  | some _ => rfl
  | none => exact Function.update_of_ne h _ _

theorem lbtreeInsert_of_none {tree : UInt64 → Option ValueType} {key : UInt64}
    {ptr : ValueType} (h : tree key = none) : lbtreeInsert tree key ptr key = some ptr := by
  unfold lbtreeInsert
  rw [h]
  exact Function.update_self _ _ _

/-- **A `Put` keeps it so.** -/
theorem HoldsFirst.put {hist : List Entry} {db db' : DB (UInt64 → Option ValueType)} {w : ℕ}
    {entry : Entry} (hr : db.Ready) (h : HoldsFirst hist db)
    (hput : put lbTreeIndex db w entry = some db') : HoldsFirst (hist ++ [entry]) db' := by
  obtain ⟨-, -, hkeep, a, kv, hat, -, hval, hindex⟩ := put_eq_some lbTreeIndex hr hput
  have htree : ∀ key, db'.index key = lbtreeInsert db.index (lbKey entry.key) (.item a) key :=
    fun key => by rw [hindex]; rfl
  refine ⟨by rw [htree]; exact lbtreeInsert_of_some h.1, fun key hne => ?_⟩
  have hkey := h.2 key hne
  rw [htree, firstPut, List.find?_append]
  cases hfirst : hist.find? (fun e => lbKey e.key = key) with
  | some first =>
    -- an entry that is there stays
    rw [firstPut, hfirst] at hkey
    obtain ⟨b, kv', hb, hb', hv⟩ := hkey
    exact ⟨b, kv', lbtreeInsert_of_some hb, hkeep b kv' hb', hv⟩
  | none =>
    rw [firstPut, hfirst] at hkey
    rw [Option.none_or]
    by_cases hk : lbKey entry.key = key
    · rw [List.find?_cons_of_pos (by simpa using hk), ← hk]
      exact ⟨a, kv, lbtreeInsert_of_none (hk ▸ hkey), hat, hval⟩
    · rw [List.find?_cons_of_neg (by simpa using hk), lbtreeInsert_of_ne (fun he => hk he.symm)]
      exact hkey

theorem HoldsFirst.destroyWorker {hist : List Entry} {db : DB (UInt64 → Option ValueType)}
    (hr : db.Ready) (h : HoldsFirst hist db) (w : ℕ) :
    HoldsFirst hist (destroyWorker db w) := by
  obtain ⟨-, -, hat⟩ := destroyWorker_spec hr w
  refine ⟨h.1, fun key hne => ?_⟩
  have hkey := h.2 key hne
  cases hfirst : firstPut hist key with
  | none => rw [hfirst] at hkey; exact hkey
  | some first =>
    rw [hfirst] at hkey
    obtain ⟨a, kv, hindex, ha, hv⟩ := hkey
    exact ⟨a, kv, hindex, by rw [hat]; exact ha, hv⟩

theorem holdsFirst_create (numSegments numCleaners : ℕ) (pool : ℕ → SegmentImage KVItem) :
    HoldsFirst [] (createLB numSegments numCleaners pool) :=
  ⟨rfl, fun _ hne => if_neg hne⟩

theorem ready_createLB (numSegments numCleaners : ℕ) (pool : ℕ → SegmentImage KVItem) :
    (createLB numSegments numCleaners pool).Ready := ready_create numSegments numCleaners pool

/-- **What a `Get` sees, after any history.** -/
theorem get_run {numSegments numCleaners : ℕ} {pool : ℕ → SegmentImage KVItem}
    {ops : List ClientOp} {db : DB (UInt64 → Option ValueType)}
    (hrun : run lbTreeIndex (createLB numSegments numCleaners pool) ops = some db) (key : Slice) :
    get lbTreeIndex db key
      = if lbKey key = bulkKey then .fault
        else match firstPut (puts ops) (lbKey key) with
          | none => .notFound
          | some entry => .found entry.value := by
  obtain ⟨-, hbulk, hfirst⟩ := run_inv (P := HoldsFirst) lbTreeIndex
    (fun _ _ _ _ _ hr h hput => h.put hr hput) (fun _ _ w hr h => h.destroyWorker hr w)
    (ready_createLB numSegments numCleaners pool)
    (holdsFirst_create numSegments numCleaners pool) hrun
  have hget : lbTreeIndex.get db.index key = db.index (lbKey key) := rfl
  unfold get
  rw [hget]
  by_cases hk : lbKey key = bulkKey
  · rw [if_pos hk, hk, hbulk]
  · rw [if_neg hk]
    have hkey := hfirst _ hk
    cases hf : firstPut (puts ops) (lbKey key) with
    | none =>
      rw [hf] at hkey
      rw [hkey]
    | some entry =>
      rw [hf] at hkey
      obtain ⟨a, kv, hindex, ha, hv⟩ := hkey
      rw [hindex]
      simp only [LogStructured.read_of_itemAt ha, hv]

/-- With a free segment for each record every call returns. -/
theorem run_lb_exists {db : DB (UInt64 → Option ValueType)} {ops : List ClientOp} (hr : db.Ready)
    (hfree : (puts ops).length ≤ db.log.freeSegments.length) :
    ∃ db', run lbTreeIndex db ops = some db' := by
  refine Machine.run_exists (Q := fun ops db => db.Ready
    ∧ (puts ops).length ≤ db.log.freeSegments.length) (step lbTreeIndex) ?_ ⟨hr, hfree⟩
  rintro op ops db ⟨hr, hfree⟩
  -- an insert and an update are the same call
  have hput : ∀ w entry, (puts ops).length + 1 ≤ db.log.freeSegments.length →
      ∃ db', put lbTreeIndex db w entry = some db' ∧ db'.Ready
        ∧ (puts ops).length ≤ db'.log.freeSegments.length := by
    intro w entry hlen
    have hne : db.log.freeSegments ≠ [] := List.ne_nil_of_length_pos (by omega)
    obtain ⟨db', hp⟩ := Option.isSome_iff_exists.mp
      (put_isSome lbTreeIndex hr hne w entry (fun _ _ _ _ => rfl))
    obtain ⟨hr', hlen', -⟩ := put_eq_some lbTreeIndex hr hp
    exact ⟨db', hp, hr', by omega⟩
  cases op with
  | insert w entry => exact hput w entry hfree
  | update w entry => exact hput w entry hfree
  | destroy w =>
    obtain ⟨hr', hsame, -⟩ := destroyWorker_spec hr w
    exact ⟨_, rfl, hr', by rw [hsame]; exact hfree⟩

/-- **The store is a last-write-wins map exactly on the keys whose word is not
the bulk-loaded one and whose last value is the first ever written under the
word.** Every call returns while there are segments to take. -/
theorem get_eq_last_iff (numSegments numCleaners : ℕ) (pool : ℕ → SegmentImage KVItem)
    (ops : List ClientOp) :
    ((puts ops).length ≤ numSegments - numCleaners →
        ∃ db, run lbTreeIndex (createLB numSegments numCleaners pool) ops = some db)
      ∧ ∀ db, run lbTreeIndex (createLB numSegments numCleaners pool) ops = some db →
        ∀ key last, lastPut (puts ops) key.bytes = some last →
          (get lbTreeIndex db key = .found last.value
            ↔ lbKey key ≠ bulkKey
              ∧ ∃ first, firstPut (puts ops) (lbKey key) = some first
                ∧ first.value = last.value) := by
  constructor
  · intro hlen
    refine run_lb_exists (ready_createLB numSegments numCleaners pool) ?_
    exact hlen.trans (List.length_range).ge
  · intro db hrun key last _
    rw [get_run hrun]
    by_cases hk : lbKey key = bulkKey
    · rw [if_pos hk]
      exact iff_of_false (fun h => by cases h) (fun h => h.1 hk)
    · rw [if_neg hk]
      cases hf : firstPut (puts ops) (lbKey key) with
      | none =>
        refine iff_of_false (fun h => by cases h) ?_
        rintro ⟨-, first, h, -⟩
        cases h
      | some first =>
        constructor
        · intro h
          exact ⟨hk, first, rfl, Lookup.found.inj h⟩
        · rintro ⟨-, first', h, hv⟩
          obtain rfl := Option.some.inj h
          exact congrArg Lookup.found hv

/-- A record that is written once is found. -/
theorem get_of_single_put :
    ∃ db, run lbTreeIndex (createLB 3 1 (fun _ => {})) [.insert 0 (oneEntry 1)] = some db
      ∧ get lbTreeIndex db oneKey = .found (oneEntry 1).value := by
  have h := get_eq_last_iff 3 1 (fun _ => {}) [.insert 0 (oneEntry 1)]
  obtain ⟨db, hrun⟩ := h.1 (by decide)
  exact ⟨db, hrun, (h.2 db hrun oneKey (oneEntry 1) rfl).mpr
    ⟨by decide, oneEntry 1, rfl, rfl⟩⟩

/-- An update of it is lost. -/
theorem get_after_update :
    ∃ db, run lbTreeIndex (createLB 3 1 (fun _ => {}))
        [.insert 0 (oneEntry 1), .update 0 (oneEntry 2)] = some db
      ∧ lastPut (puts [.insert 0 (oneEntry 1), .update 0 (oneEntry 2)]) oneKey.bytes
        = some (oneEntry 2)
      ∧ get lbTreeIndex db oneKey = .found (oneEntry 1).value
      ∧ get lbTreeIndex db oneKey ≠ .found (oneEntry 2).value := by
  obtain ⟨db, hrun⟩ := @run_lb_exists _ [.insert 0 (oneEntry 1), .update 0 (oneEntry 2)]
    (ready_createLB 3 1 (fun _ => {})) (by decide)
  have hget : get lbTreeIndex db oneKey = .found (oneEntry 1).value := by
    rw [get_run hrun, if_neg (by decide)]
    rfl
  refine ⟨db, hrun, rfl, hget, ?_⟩
  rw [hget]
  decide

end FlatStore
