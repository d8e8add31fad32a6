import PKBench.Forks

/-!
# Compaction in the forks

`LogCleaner::CompactSegment` copies the items of a segment that the index still
points to into the cleaner's own segment, tells the index with `GCMove` where
the copies are, and clears the segment for new use.

In the forks `GCMove` does not move anything. Nobody notices at once, since
clearing a segment leaves its bytes where they are and every `Get` still finds
them: it is the next worker to get the segment that overwrites them. So after a
compaction the index points into the cleared segment exactly if it did before,
and the compaction does what it is for if and only if the segment had nothing
left that is alive (`compacted_iff`).
-/

namespace FlatStore

section Compact

variable {σ : Type} (I : GCIndex σ)

/-- What the loop of `CompactSegment` does with an item that is not garbage: a copy
of it, and `GCMove`. An adapter that hands back the new address has found another
entry in the index, and the copy is garbage. -/
def moveItem (j : ℕ) (old : Addr) (kv : KVItem) (db : DB σ) : Option (DB σ) :=
  (db.log.reserved j).bind (fun r =>
    (db.log.append r kv.size kv).bind (fun copy =>
      let moved := I.gcMove db.index (keySlice kv) (.item old) (.item copy.1)
      if moved.2 = .item copy.1 then
        (markGarbage copy.2 (.item copy.1)).map (fun log =>
          { db with log := log, index := moved.1 })
      else some { db with log := copy.2, index := moved.1 }))

/-- `if (!reserved_segment_->HasSpaceFor(sz)) FreezeReservedAndGetNew();` -/
def makeRoom (j sz : ℕ) (log : LogStructured KVItem) : Option (LogStructured KVItem) :=
  (log.reserved j).bind (fun r =>
    if (log.segments r).hasSpaceFor sz then some log else log.freezeReservedAndGetNew j)

/-- **A round of the loop of `CompactSegment`.** An item is garbage if the entry of
its key does not point to it. -/
def compactItem (j : ℕ) (db : DB σ) (x : Addr × KVItem) : Option (DB σ) :=
  (makeRoom j x.2.size db.log).bind (fun log =>
    if I.get db.index (keySlice x.2) = some (.item x.1) then
      moveItem I j x.1 x.2 { db with log := log }
    else some { db with log := log })

/-- The items a compaction walks through, which it does not change: it appends to
other segments. -/
def compactionItems (log : LogStructured KVItem) (s : ℕ) : List (Addr × KVItem) :=
  (log.segments s).items.mapIdx (fun pos kv => (⟨s, pos⟩, kv))

/-- **`LogCleaner::CompactSegment`** of cleaner `j`. Nobody else is running, so the
barrier does not wait. -/
def compactSegment (j s : ℕ) (db : DB σ) : Option (DB σ) :=
  ((compactionItems db.log s).foldlM (compactItem I j) db).map (fun db =>
    { db with log := db.log.retire j s })

/-- **The state a compaction starts from**: after these records were put, the entry of
each key, in the slice it was last put with, points to the item of that record, and no
entry points to anything else in the log. -/
structure Current (hist : List Entry) (db : DB σ) : Prop where
  backed : db.log.Backed
  latest : ∀ entry : Entry, lastPut hist entry.key.bytes = some entry →
    ∃ a kv, I.get db.index entry.key = some (.item a) ∧ db.log.itemAt a = some kv
      ∧ kv.key = entry.key.bytes ∧ kv.value = entry.value
  pointed : ∀ (key : Slice) (a : Addr), I.get db.index key = some (.item a) →
    (db.log.itemAt a).isSome

/-- No entry of the index points into a segment. -/
def Unreferenced (s : ℕ) (db : DB σ) : Prop :=
  ∀ (key : Slice) (a : Addr), I.get db.index key = some (.item a) → a.segment ≠ s

/-- **What a compaction is for**: every key is found as before, nothing points into
the segment, and the segment can be used again. -/
structure Compacted (j s : ℕ) (db db' : DB σ) : Prop where
  lookup : ∀ key, get I.toIndex db' key = get I.toIndex db key
  unreferenced : Unreferenced I s db'
  cleared : (db'.log.segments s).status = .available ∧ (db'.log.segments s).items = []
  reusable : s ∈ db'.log.freeSegments ∨ db'.log.backup j = some s

end Compact

/-! ## What a compaction leaves behind -/

/-- Taking the segment in reserve keeps every item. -/
theorem freezeReservedAndGetNew_keeps {log log' : LogStructured KVItem} {j : ℕ}
    (hb : log.Backed) (h : log.freezeReservedAndGetNew j = some log') :
    log'.Backed ∧ Keeps log log' := by
  unfold LogStructured.freezeReservedAndGetNew at h
  cases hbackup : log.backup j with
  | none => rw [hbackup] at h; cases h
  | some b =>
    rw [hbackup] at h
    obtain rfl := Option.some.inj h
    have hrelease : (log.releaseReserved j).Backed := hb.freezeSegment _
    refine ⟨hrelease.setSegment ((hrelease b).startUsing false false), fun a kv ha => ?_⟩
    refine (LogStructured.itemAt_setSegment (LogSegment.items_startUsing _ _ _) a).trans ?_
    exact (LogStructured.itemAt_freezeSegment _ _ a).trans ha

theorem makeRoom_keeps {log log' : LogStructured KVItem} {j sz : ℕ} (hb : log.Backed)
    (h : makeRoom j sz log = some log') : log'.Backed ∧ Keeps log log' := by
  obtain ⟨r, -, h⟩ := Option.bind_eq_some_iff.mp h
  by_cases hspace : (log.segments r).hasSpaceFor sz
  · rw [if_pos hspace] at h
    obtain rfl := Option.some.inj h
    exact ⟨hb, fun _ _ ha => ha⟩
  · rw [if_neg hspace] at h
    exact freezeReservedAndGetNew_keeps hb h

section Forks

variable (fork : Fork) {db db' : DB KeyTree} {j : ℕ}

/-- **A move in a fork changes no entry** and keeps every item. -/
theorem moveItem_keeps {old : Addr} {kv : KVItem} (hb : db.log.Backed)
    (hlive : (fork.index.get db.index (keySlice kv)).isSome)
    (h : moveItem fork.index j old kv db = some db') :
    db'.index = db.index ∧ db'.log.Backed ∧ db.Keeps db' := by
  obtain ⟨r, -, h⟩ := Option.bind_eq_some_iff.mp h
  obtain ⟨⟨new, log⟩, happ, h⟩ := Option.bind_eq_some_iff.mp h
  obtain ⟨hb', -, hkeep⟩ := LogStructured.itemAt_append hb happ
  have hindex := fork.gcMove_get hlive (.item old) (.item new)
  by_cases hold : (fork.index.gcMove db.index (keySlice kv) (.item old) (.item new)).2 = .item new
  · rw [if_pos hold] at h
    obtain ⟨log', hmark, rfl⟩ := Option.map_eq_some_iff.mp h
    obtain ⟨s, sz, rfl⟩ := markGarbage_eq_some hmark
    refine ⟨hindex, hb'.setSegment ((hb' s).markGarbage sz), fun a item ha => ?_⟩
    exact (LogStructured.itemAt_setSegment (LogSegment.items_markGarbage _ _) a).trans
      (hkeep a item ha)
  · rw [if_neg hold] at h
    obtain rfl := Option.some.inj h
    exact ⟨hindex, hb', hkeep⟩

theorem compactItem_keeps {x : Addr × KVItem} (hb : db.log.Backed)
    (h : compactItem fork.index j db x = some db') :
    db'.index = db.index ∧ db'.log.Backed ∧ db.Keeps db' := by
  obtain ⟨log, hroom, h⟩ := Option.bind_eq_some_iff.mp h
  obtain ⟨hb₁, hkeep₁⟩ := makeRoom_keeps hb hroom
  by_cases hlive : fork.index.get db.index (keySlice x.2) = some (.item x.1)
  · rw [if_pos hlive] at h
    obtain ⟨hindex, hb', hkeep⟩ := moveItem_keeps fork hb₁ (by rw [hlive]; rfl) h
    exact ⟨hindex, hb', fun a kv ha => hkeep a kv (hkeep₁ a kv ha)⟩
  · rw [if_neg hlive] at h
    obtain rfl := Option.some.inj h
    exact ⟨rfl, hb₁, hkeep₁⟩

/-- The loop as a whole. -/
theorem foldlM_compactItem_keeps {items : List (Addr × KVItem)} (hb : db.log.Backed)
    (h : items.foldlM (compactItem fork.index j) db = some db') :
    db'.index = db.index ∧ db'.log.Backed ∧ db.Keeps db' := by
  induction items generalizing db with
  | nil =>
    obtain rfl := Option.some.inj h
    exact ⟨rfl, hb, fun _ _ ha => ha⟩
  | cons x items ih =>
    rw [List.foldlM_cons] at h
    obtain ⟨db₁, hstep, hrest⟩ := Option.bind_eq_some_iff.mp h
    obtain ⟨hindex₁, hb₁, hkeep₁⟩ := compactItem_keeps fork hb hstep
    obtain ⟨hindex, hb', hkeep⟩ := ih hb₁ hrest
    exact ⟨hindex.trans hindex₁, hb', fun a kv ha => hkeep a kv (hkeep₁ a kv ha)⟩

/-- What is read of a segment stays when it is cleared. -/
theorem read_retire (log : LogStructured KVItem) (s : ℕ) (a : Addr) :
    (log.retire j s).read a = log.read a := by
  rw [LogStructured.read, LogStructured.segments_retire, LogStructured.read]
  by_cases has : a.segment = s
  · rw [has, Function.update_self]
    rfl
  · rw [Function.update_of_ne has]

/-- **After a compaction in a fork** the index is the same, the items can still be
read, and the segment is cleared. -/
theorem compactSegment_eq_some {s : ℕ} (hb : db.log.Backed)
    (h : compactSegment fork.index j s db = some db') :
    db'.index = db.index
      ∧ (∀ a kv, db.log.itemAt a = some kv → db'.log.read a = some kv)
      ∧ ((db'.log.segments s).status = .available ∧ (db'.log.segments s).items = [])
      ∧ (s ∈ db'.log.freeSegments ∨ db'.log.backup j = some s) := by
  obtain ⟨db₁, hloop, rfl⟩ := Option.map_eq_some_iff.mp h
  obtain ⟨hindex, -, hkeep⟩ := foldlM_compactItem_keeps fork hb hloop
  refine ⟨hindex, fun a kv ha => ?_, ?_, ?_⟩
  · show (db₁.log.retire j s).read a = some kv
    rw [read_retire]
    exact LogStructured.read_of_itemAt (hkeep a kv ha)
  · show ((db₁.log.retire j s).segments s).status = .available ∧ _
    rw [LogStructured.segments_retire, Function.update_self]
    exact ⟨rfl, LogSegment.items_clear _⟩
  · show s ∈ (db₁.log.retire j s).freeSegments ∨ (db₁.log.retire j s).backup j = some s
    cases hbackup : db₁.log.backup j with
    | none =>
      rw [LogStructured.retire_of_none hbackup]
      exact .inr (Function.update_self _ _ _)
    | some b =>
      rw [LogStructured.retire_of_some hbackup]
      exact .inl (List.mem_append_right _ (List.mem_singleton_self s))

/-- Every key is found as before. -/
theorem get_compactSegment {s : ℕ} {hist : List Entry} (hcur : Current fork.index hist db)
    (h : compactSegment fork.index j s db = some db') (key : Slice) :
    get fork.index.toIndex db' key = get fork.index.toIndex db key := by
  obtain ⟨hindex, hread, -, -⟩ := compactSegment_eq_some fork hcur.backed h
  rw [get, get, hindex]
  cases hentry : fork.index.get db.index key with
  | none => rfl
  | some v =>
    cases v with
    | raw n => rfl
    | item a =>
      obtain ⟨kv, hkv⟩ := Option.isSome_iff_exists.mp (hcur.pointed key a hentry)
      simp only [hread a kv hkv, LogStructured.read_of_itemAt hkv]

/-- **When a compaction does what it is for**: if and only if the segment has no
item that is alive, that is, no entry of the index points into it. -/
theorem compacted_iff {s : ℕ} {hist : List Entry} (hcur : Current fork.index hist db)
    (h : compactSegment fork.index j s db = some db') :
    Compacted fork.index j s db db' ↔ Unreferenced fork.index s db := by
  obtain ⟨hindex, -, hcleared, hreusable⟩ := compactSegment_eq_some fork hcur.backed h
  have hsame : Unreferenced fork.index s db' ↔ Unreferenced fork.index s db := by
    rw [Unreferenced, Unreferenced, hindex]
  refine ⟨fun hc => hsame.mp hc.unreferenced, fun hdead => ?_⟩
  exact ⟨get_compactSegment fork hcur h, hsame.mpr hdead, hcleared, hreusable⟩

end Forks

/-! ## The state a compaction starts from -/

theorem lastPut_concat (hist : List Entry) (entry : Entry) (key : List UInt8) :
    lastPut (hist ++ [entry]) key
      = if entry.key.bytes = key then some entry else lastPut hist key := by
  rw [lastPut, List.reverse_append, List.reverse_singleton, List.singleton_append]
  by_cases h : entry.key.bytes = key
  · rw [List.find?_cons_of_pos (by simpa using h), if_pos h]
  · rw [List.find?_cons_of_neg (by simpa using h), if_neg h]
    rfl

/-- A new store has no items. -/
theorem current_create (fork : Fork) (numSegments numCleaners : ℕ)
    (pool : ℕ → SegmentImage KVItem) :
    Current fork.index [] (fork.create numSegments numCleaners pool) where
  backed := (fork.ready_create numSegments numCleaners pool).backed
  latest _ h := by cases h
  pointed key a h := absurd h (fork.get_tree key a)

/-- **A `Put` keeps the index pointing to the latest records**, if the keys have a
word of their own each and, in LB, this one is new. -/
theorem Current.put (fork : Fork) {hist : List Entry} {db db' : DB KeyTree} {w : ℕ}
    {entry : Entry} (h : Current fork.index hist db) (hr : db.Ready)
    (hwords : ∀ e ∈ hist, fork.word e.key = fork.word entry.key → e.key.bytes = entry.key.bytes)
    (hnew : fork = .lb → db.index (fork.word entry.key) = none)
    (hput : put fork.index.toIndex db w entry = some db') :
    Current fork.index (hist ++ [entry]) db' := by
  obtain ⟨hr', -, hkeep, a, kv, hat, hkey, hval, hindex⟩ := put_eq_some _ hr hput
  have hget : ∀ key : Slice, fork.index.get db'.index key
      = if fork.word key = fork.word entry.key then some (.item a)
        else fork.index.get db.index key := by
    intro key
    rw [hindex]
    exact fork.get_put hnew a key
  refine ⟨hr'.backed, fun last hlast => ?_, fun key c hc => ?_⟩
  · rw [lastPut_concat] at hlast
    by_cases hbytes : entry.key.bytes = last.key.bytes
    · rw [if_pos hbytes] at hlast
      obtain rfl := Option.some.inj hlast
      exact ⟨a, kv, by rw [hget, if_pos rfl], hat, hkey, hval⟩
    · rw [if_neg hbytes] at hlast
      have hmem : last ∈ hist := List.mem_reverse.mp (List.mem_of_find?_eq_some hlast)
      have hword : fork.word last.key ≠ fork.word entry.key :=
        fun heq => hbytes (hwords last hmem heq).symm
      obtain ⟨b, kv', hb, hitem, hkv'⟩ := h.latest last hlast
      exact ⟨b, kv', by rw [hget, if_neg hword]; exact hb, hkeep b kv' hitem, hkv'⟩
  · rw [hget] at hc
    by_cases hword : fork.word key = fork.word entry.key
    · rw [if_pos hword] at hc
      obtain rfl : a = c := ValueType.item.inj (Option.some.inj hc)
      rw [hat]
      rfl
    · rw [if_neg hword] at hc
      obtain ⟨kv', hkv'⟩ := Option.isSome_iff_exists.mp (h.pointed key c hc)
      rw [hkeep c kv' hkv']
      rfl

/-- The end of a worker changes nothing the index points to. -/
theorem Current.destroyWorker {σ : Type} {I : GCIndex σ} {hist : List Entry} {db : DB σ}
    (h : Current I hist db) (hr : db.Ready) (w : ℕ) :
    Current I hist (destroyWorker db w) := by
  obtain ⟨hr', -, hitem⟩ := destroyWorker_spec hr w
  refine ⟨hr'.backed, fun entry hlast => ?_, fun key a ha => ?_⟩
  · obtain ⟨a, kv, hget, hat, hkv⟩ := h.latest entry hlast
    exact ⟨a, kv, hget, by rw [hitem]; exact hat, hkv⟩
  · rw [hitem]
    exact h.pointed key a ha

/-! ## Segments with and without live items -/

/-- A record is put and its worker ends; then another worker overwrites it. The
first segment can be compacted. -/
theorem compacted_overwritten :
    ∃ db db', run dpTreeIndex.toIndex (Fork.dp.create 3 1 (fun _ => {}))
        [.insert 0 (oneEntry 1), .destroy 0, .update 1 (oneEntry 2)] = some db ∧
      compactSegment dpTreeIndex 0 0 db = some db' ∧ Compacted dpTreeIndex 0 0 db db' := by
  have hfacts : ∃ db ∈ run dpTreeIndex.toIndex (Fork.dp.create 3 1 (fun _ => {}))
      [.insert 0 (oneEntry 1), .destroy 0, .update 1 (oneEntry 2)],
      (compactSegment dpTreeIndex 0 0 db).isSome ∧
        dpTreeIndex.get db.index oneKey = some (.item ⟨1, 0⟩) := by decide
  obtain ⟨db, hrun, hsome, hentry⟩ := hfacts
  obtain ⟨db', hdb'⟩ := Option.isSome_iff_exists.mp hsome
  obtain ⟨db₁, h₁, hrest⟩ := (Machine.run_cons_eq_some _).mp hrun
  obtain ⟨db₂, h₂, hrest⟩ := (Machine.run_cons_eq_some _).mp hrest
  obtain ⟨db₃, h₃, hrest⟩ := (Machine.run_cons_eq_some _).mp hrest
  obtain rfl := Option.some.inj hrest
  obtain rfl := Option.some.inj h₂
  simp only [step] at h₁ h₃
  have hr₀ := Fork.dp.ready_create 3 1 (fun _ => {})
  obtain ⟨hr₁, -, -, a₁, -, -, -, -, hindex₁⟩ := put_eq_some dpTreeIndex.toIndex hr₀ h₁
  have hr₂ := (destroyWorker_spec hr₁ 0).1
  obtain ⟨-, -, -, a₃, -, -, -, -, hindex₃⟩ := put_eq_some dpTreeIndex.toIndex hr₂ h₃
  have hcur₁ := (current_create .dp 3 1 (fun _ => {})).put .dp hr₀
    (fun e he => absurd he List.not_mem_nil) Fork.noConfusion h₁
  have hcur := (hcur₁.destroyWorker hr₁ 0).put .dp hr₂ (by decide) Fork.noConfusion h₃
  refine ⟨db₃, db', hrun, hdb', (compacted_iff .dp hcur hdb').mpr fun key a ha => ?_⟩
  -- the only entry is that of the key, and it points to the second record
  have hindex : db₃.index = Function.update (Function.update (fun _ => none) oneKey.word
      (some (.item a₁))) oneKey.word (some (.item a₃)) := by
    rw [hindex₃, show (destroyWorker db₁ 0).index = db₁.index from rfl, hindex₁]
    rfl
  have hget : db₃.index key.word = some (.item a) := ha
  have hone : db₃.index oneKey.word = some (.item ⟨1, 0⟩) := hentry
  rw [hindex] at hget hone
  by_cases hword : key.word = oneKey.word
  · rw [hword, hone] at hget
    rw [← ValueType.item.inj (Option.some.inj hget)]
    exact Nat.one_ne_zero
  · rw [Function.update_of_ne hword, Function.update_of_ne hword] at hget
    cases hget

/-- **A fork compacts**: from every state where the index points to the latest
records, a closed segment is compacted as it should be. -/
def Compacts (fork : Fork) : Prop :=
  ∀ hist db j s db', Current fork.index hist db → s ∈ db.log.closedSegments j →
    compactSegment fork.index j s db = some db' → Compacted fork.index j s db db'

/-- A worker has put one record and ended, and the cleaner compacts its segment. -/
theorem not_compacts_of_fork (fork : Fork) : ¬ Compacts fork := by
  intro h
  have hput : (put fork.index.toIndex (fork.create 3 1 (fun _ => {})) 0 (oneEntry 1)).isSome := by
    cases fork <;> decide
  obtain ⟨db₀, hdb₀⟩ := Option.isSome_iff_exists.mp hput
  have hcur₀ : Current fork.index [oneEntry 1] db₀ :=
    (current_create fork 3 1 (fun _ => {})).put fork (fork.ready_create 3 1 (fun _ => {}))
      (fun e he => absurd he List.not_mem_nil) (by cases fork <;> decide) hdb₀
  have hr₀ := (put_eq_some _ (fork.ready_create 3 1 (fun _ => {})) hdb₀).1
  have hcur := hcur₀.destroyWorker hr₀ 0
  have hfacts : ∀ db ∈ put fork.index.toIndex (fork.create 3 1 (fun _ => {})) 0 (oneEntry 1),
      0 ∈ (destroyWorker db 0).log.closedSegments 0 ∧
        fork.index.get (destroyWorker db 0).index oneKey = some (.item ⟨0, 0⟩) ∧
        (compactSegment fork.index 0 0 (destroyWorker db 0)).isSome := by
    cases fork <;> decide
  obtain ⟨hclosed, hentry, hsome⟩ := hfacts db₀ hdb₀
  obtain ⟨db', hdb'⟩ := Option.isSome_iff_exists.mp hsome
  have hdead := (h _ _ 0 0 db' hcur hclosed hdb').unreferenced
  rw [Unreferenced, (compactSegment_eq_some fork hcur.backed hdb').1] at hdead
  exact hdead oneKey ⟨0, 0⟩ hentry rfl

/-- **No fork compacts a segment with a live item.** -/
theorem not_compacts : ¬ Compacts .nb ∧ ¬ Compacts .lb ∧ ¬ Compacts .dp :=
  ⟨not_compacts_of_fork .nb, not_compacts_of_fork .lb, not_compacts_of_fork .dp⟩

end FlatStore
