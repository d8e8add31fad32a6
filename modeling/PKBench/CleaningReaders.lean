import PKBench.CleaningPointers
import PKBench.GracePeriod

/-!
# Readers while the cleaners work

`Get` reads a pointer in the index and copies the item it points to. A cleaner may
meanwhile move the entry to a copy and clear the segment, and a worker may get the
segment and overwrite it. What prevents this is the barrier of `CompactSegment`: a
`Get` enters a critical section before it looks into the index and leaves it when it
has copied the item, and the cleaner waits for all sections that it finds entered
when the last entry is moved.

The machine below adds the readers, the status of their threads and the barriers to
the machine of workers and cleaners, and replaces its index by the one of
`FastFairIndex`. That index is a map from words: of every key it looks at the eight
bytes behind the pointer, whatever the size of the key. A worker hands it the pointer
it was called with, and a cleaner one into the log, where the value comes behind the
key. So for a key of less than eight bytes the cleaner looks up another word than the
worker has set, takes the item for garbage and clears its segment, with the entry
still pointing there; and two longer keys may share an entry. If the index sees the
keys as they are (`Faithful`), every `Get` copies the item of the last `Put` of its
key (`gets_correct`).

To say which one this is, the last item that reached the index is kept for each key
(`installed`), and a `Get` keeps what it was when the index was read.
-/

namespace CleaningReaders

open CleaningLog GracePeriod
open FlatStore (keySlice)

/-! ## States -/

/-- The eight bytes the index reads of a key. -/
def indexKey (key : Slice) : List UInt8 := key.data.take 8

/-- What it reads of the key of an item in the log. -/
def itemKey (item : LogItem) : List UInt8 := indexKey (keySlice item.kv)

/-- **A `Get` of a worker**: between the two writes of `rcu_progress`, before the
index is read, before the item is copied, and before `rcu_exit`. -/
inductive Reader where
  | idle
  | entered (key : Slice)
  | progressed (key : Slice)
  /-- The item of the last `Put`, and the pointer that was read. -/
  | found (want : Option KVItem) (ptr : Option Addr)
  /-- And the bytes that were copied. -/
  | copied (want : Option KVItem) (ptr : Option Addr) (value : Option (List UInt8))

/-- **The state of workers, readers and cleaners.** -/
structure Sys where
  base : CleaningLog.Sys
  /-- What the index reads of the key a worker puts. -/
  putKey : ℕ → List UInt8 := fun _ => []
  status : ℕ → Status := fun _ => {}
  reader : ℕ → Reader := fun _ => .idle
  barrier : ℕ → Barrier := fun _ => .idle
  /-- The last item of a key that was put into the index. -/
  installed : List UInt8 → Option KVItem := fun _ => none

/-- A new store on a pool. -/
def Sys.init (numSegments numCleaners : ℕ) (pool : ℕ → SegmentImage LogItem) : Sys where
  base := CleaningLog.Sys.init numSegments numCleaners pool

/-! ## Steps -/

/-- What can happen. -/
inductive Event where
  /-- `MakeKVItem`: `NewSegment`, `Append` and `FreezeSegment`. -/
  | take (w : ℕ)
  | append (w : ℕ) (entry : Entry) (epoch : UInt32)
  | freeze (w : ℕ)
  /-- `UpdateIndex`. -/
  | install (w : ℕ)
  /-- `Get`: the two writes of `rcu_progress`, the lookup, the copy and `rcu_exit`. -/
  | enter (w : ℕ) (key : Slice)
  | progress (w : ℕ)
  | lookup (w : ℕ)
  | copy (w : ℕ)
  | exit (w : ℕ)
  /-- `DoMemoryClean` and `CompactSegment`. -/
  | pick (j v : ℕ)
  | refill (j : ℕ)
  | compactItem (j : ℕ)
  | gcMove (j : ℕ)
  | startBarrier (j : ℕ)
  | barrier (j : ℕ)
  | finish (j : ℕ)

section Steps

variable (numWorkers : ℕ) (R : Sys)

/-- A step of the machine of workers and cleaners. -/
def Sys.lift (next : Option CleaningLog.Sys) : Option Sys :=
  next.map (fun σ => { R with base := σ })

/-- `Append`: what the index is told later is read of the key `Put` was called
with. -/
def append (w : ℕ) (entry : Entry) (epoch : UInt32) : Option Sys :=
  (CleaningLog.append R.base w (entry.item epoch)).map (fun σ => { R with
    base := σ
    putKey := Function.update R.putKey w (indexKey entry.key) })

/-- `FastFairIndex::Put`. -/
def install (w : ℕ) : Option Sys :=
  (R.base.pending w).bind (fun a =>
    (R.base.log.read a).map (fun item => { R with
      base := { R.base with
        index := Function.update R.base.index (R.putKey w) (some a)
        latest := Function.update R.base.latest (R.putKey w) (some item.put)
        pending := Function.update R.base.pending w none }
      installed := Function.update R.installed item.kv.key (some item.kv) }))

/-- `IsGarbage`, and `Append` if the item is none. -/
def compactItem (j : ℕ) : Option Sys :=
  match R.base.phase j with
  | .scanning v pos =>
      (R.base.log.read ⟨v, pos⟩).bind (fun item =>
        if R.base.index (itemKey item) = some ⟨v, pos⟩ then
          (R.base.log.reserved j).bind (fun r =>
            (R.base.log.append r item.kv.size item).map (fun p => { R with
              base := { R.base with
                log := p.2
                phase := Function.update R.base.phase j (.copied v pos p.1) } }))
        else
          some { R with base := { R.base with
            phase := Function.update R.base.phase j (.scanning v (pos + 1)) } })
  | .idle => none
  | .copied _ _ _ => none

/-- `page::store` for `GCMove`: the copy is stored over the entry it was made from,
and where there is no entry. -/
def storeMoved (index : List UInt8 → Option Addr) (k : List UInt8) (old copy : Addr) :
    List UInt8 → Option Addr :=
  match index k with
  | none => Function.update index k (some copy)
  | some a => if a = old then Function.update index k (some copy) else index

/-- `FastFairIndex::GCMove`. -/
def gcMove (j : ℕ) : Option Sys :=
  match R.base.phase j with
  | .copied v pos copy =>
      (R.base.log.read ⟨v, pos⟩).map (fun item => { R with
        base := { R.base with
          index := storeMoved R.base.index (itemKey item) ⟨v, pos⟩ copy
          phase := Function.update R.base.phase j (.scanning v (pos + 1)) } })
  | .idle => none
  | .scanning _ _ => none

/-- A `Get` goes on. -/
def Sys.setReader (w : ℕ) (x : Reader) : Sys :=
  { R with reader := Function.update R.reader w x }

/-- A thread shows another status. -/
def Sys.setStatus (w : ℕ) (x : Status) : Sys :=
  { R with status := Function.update R.status w x }

/-- A cleaner has come to another point of its barrier. -/
def Sys.setBarrier (j : ℕ) (b : Barrier) : Sys :=
  { R with barrier := Function.update R.barrier j b }

/-- **One step.** A worker does one thing at a time, and so does a cleaner. -/
def step (R : Sys) : Event → Option Sys
  | .take w =>
      match R.reader w with
      | .idle => R.lift (CleaningLog.take R.base w)
      | _ => none
  | .append w entry epoch =>
      match R.reader w with
      | .idle => append R w entry epoch
      | _ => none
  | .freeze w =>
      match R.reader w with
      | .idle => R.lift (CleaningLog.freeze R.base w)
      | _ => none
  | .install w => install R w
  | .enter w key =>
      match R.reader w with
      | .idle =>
          if w < numWorkers ∧ R.base.pending w = none then
            some ((R.setStatus w { R.status w with running := true }).setReader w (.entered key))
          else none
      | _ => none
  | .progress w =>
      match R.reader w with
      | .entered key =>
          some ((R.setStatus w { R.status w with epoch := (R.status w).epoch + 1 }).setReader w
            (.progressed key))
      | _ => none
  | .lookup w =>
      match R.reader w with
      | .progressed key =>
          some (R.setReader w
            (.found (R.installed key.bytes) (R.base.index (indexKey key))))
      | _ => none
  | .copy w =>
      match R.reader w with
      | .found want ptr =>
          some (R.setReader w
            (.copied want ptr (ptr.bind fun a => (R.base.log.read a).map (fun x => x.kv.value))))
      | _ => none
  | .exit w =>
      match R.reader w with
      | .copied _ _ _ =>
          some ((R.setStatus w { R.status w with running := false }).setReader w .idle)
      | _ => none
  | .pick j v => R.lift (CleaningLog.pick R.base j v)
  | .refill j =>
      match R.barrier j with
      | .idle => R.lift (CleaningLog.refill R.base j)
      | _ => none
  | .compactItem j =>
      match R.barrier j with
      | .idle => compactItem R j
      | _ => none
  | .gcMove j => gcMove R j
  | .startBarrier j =>
      match R.barrier j, R.base.phase j with
      | .idle, .scanning v pos =>
          if pos = (R.base.log.segments v).data.length then some (R.setBarrier j .start) else none
      | _, _ => none
  | .barrier j => ((R.barrier j).step numWorkers R.status).map (R.setBarrier j)
  | .finish j =>
      match R.barrier j with
      | .passed => (R.lift (CleaningLog.finish R.base j)).map (fun R => R.setBarrier j .idle)
      | _ => none

end Steps

/-! ## What a step does -/

section Inversion

variable {numWorkers : ℕ} {R R' : Sys}

theorem lift_eq_some {next : Option CleaningLog.Sys} (h : R.lift next = some R') :
    ∃ σ, next = some σ ∧ R' = { R with base := σ } := by
  obtain ⟨σ, hσ, rfl⟩ := Option.map_eq_some_iff.mp h
  exact ⟨σ, hσ, rfl⟩

theorem install_eq_some {w : ℕ} (h : install R w = some R') :
    ∃ a item, R.base.pending w = some a ∧ R.base.log.read a = some item
      ∧ R' = { R with
          base := { R.base with
            index := Function.update R.base.index (R.putKey w) (some a)
            latest := Function.update R.base.latest (R.putKey w) (some item.put)
            pending := Function.update R.base.pending w none }
          installed := Function.update R.installed item.kv.key (some item.kv) } := by
  obtain ⟨a, hpending, hmap⟩ := Option.bind_eq_some_iff.mp h
  obtain ⟨item, hread, rfl⟩ := Option.map_eq_some_iff.mp hmap
  exact ⟨a, item, hpending, hread, rfl⟩

theorem compactItem_eq_some {j : ℕ} (h : compactItem R j = some R') :
    ∃ v pos item, R.base.phase j = .scanning v pos ∧ R.base.log.read ⟨v, pos⟩ = some item
      ∧ ((R.base.index (itemKey item) ≠ some ⟨v, pos⟩
          ∧ R' = { R with base := { R.base with
              phase := Function.update R.base.phase j (.scanning v (pos + 1)) } })
        ∨ ∃ r a log, R.base.index (itemKey item) = some ⟨v, pos⟩
          ∧ R.base.log.reserved j = some r
          ∧ R.base.log.append r item.kv.size item = some (a, log)
          ∧ R' = { R with base := { R.base with
              log := log
              phase := Function.update R.base.phase j (.copied v pos a) } }) := by
  unfold compactItem at h
  cases hphase : R.base.phase j with
  | idle => rw [hphase] at h; cases h
  | copied v pos a => rw [hphase] at h; cases h
  | scanning v pos =>
    rw [hphase] at h
    obtain ⟨item, hread, h⟩ := Option.bind_eq_some_iff.mp h
    refine ⟨v, pos, item, rfl, hread, ?_⟩
    by_cases hindex : R.base.index (itemKey item) = some ⟨v, pos⟩
    · rw [if_pos hindex] at h
      obtain ⟨r, hr, h⟩ := Option.bind_eq_some_iff.mp h
      obtain ⟨⟨a, log⟩, happ, rfl⟩ := Option.map_eq_some_iff.mp h
      exact Or.inr ⟨r, a, log, hindex, hr, happ, rfl⟩
    · rw [if_neg hindex] at h
      exact Or.inl ⟨hindex, (Option.some.inj h).symm⟩

theorem gcMove_eq_some {j : ℕ} (h : gcMove R j = some R') :
    ∃ v pos copy item, R.base.phase j = .copied v pos copy
      ∧ R.base.log.read ⟨v, pos⟩ = some item
      ∧ R' = { R with base := { R.base with
          index := storeMoved R.base.index (itemKey item) ⟨v, pos⟩ copy
          phase := Function.update R.base.phase j (.scanning v (pos + 1)) } } := by
  unfold gcMove at h
  cases hphase : R.base.phase j with
  | idle => rw [hphase] at h; cases h
  | scanning v pos => rw [hphase] at h; cases h
  | copied v pos copy =>
    rw [hphase] at h
    obtain ⟨item, hread, rfl⟩ := Option.map_eq_some_iff.mp h
    exact ⟨v, pos, copy, item, rfl, hread, rfl⟩

/-- Where there is an entry, `page::store` is a comparison and a store. -/
theorem storeMoved_of_isSome {index : List UInt8 → Option Addr} {k : List UInt8}
    (h : (index k).isSome) (old copy : Addr) :
    storeMoved index k old copy
      = if index k = some old then Function.update index k (some copy) else index := by
  obtain ⟨a, ha⟩ := Option.isSome_iff_exists.mp h
  rw [storeMoved, ha]
  simp only [Option.some.injEq]

end Inversion

/-! ## Keys and words -/

/-- **The words are the same**: what the index reads of the key `Put` is called with,
and what it will read of the item in the log. -/
def Event.Whole : Event → Prop
  | .append _ entry epoch => indexKey entry.key = indexKey (keySlice (entry.item epoch))
  | _ => True

/-- The key of a `Put` or of a `Get`. -/
def Event.key : Event → Option Slice
  | .append _ entry _ => some entry.key
  | .enter _ key => some key
  | _ => none

/-- **The words tell the keys apart**, and tell nothing else. -/
def Told (K : Slice → Prop) : Prop :=
  ∀ key key', K key → K key' → (indexKey key = indexKey key' ↔ key.bytes = key'.bytes)

/-- **The index sees the keys of a run as they are.** -/
structure Faithful (events : List Event) : Prop where
  whole : ∀ e ∈ events, e.Whole
  told : Told (fun key => key ∈ events.filterMap Event.key)

/-- Of a key with eight bytes the index reads just the key. -/
theorem indexKey_eq_bytes {key : Slice} (h : key.size = 8) : indexKey key = key.bytes := by
  rw [indexKey, Slice.bytes, h]

/-- Of a key with eight bytes or more it reads only bytes of the key. -/
theorem indexKey_item {entry : Entry} (h : 8 ≤ entry.key.size) (epoch : UInt32) :
    indexKey entry.key = indexKey (keySlice (entry.item epoch)) := by
  have hlen : 8 ≤ entry.key.bytes.length := by
    rw [Slice.length_bytes]
    exact h
  show entry.key.data.take 8 = (entry.key.bytes ++ entry.value).take 8
  rw [List.take_append_of_le_length hlen, Slice.bytes, List.take_take, Nat.min_eq_left h]

/-- **Keys of eight bytes are seen as they are.** -/
theorem faithful_of_size {events : List Event}
    (h : ∀ key ∈ events.filterMap Event.key, key.size = 8) : Faithful events where
  whole e he := by
    cases e with
    | append w entry epoch =>
      exact indexKey_item (h entry.key (List.mem_filterMap.mpr ⟨_, he, rfl⟩)).ge epoch
    | _ => trivial
  told key key' hkey hkey' := by
    rw [indexKey_eq_bytes (h key hkey), indexKey_eq_bytes (h key' hkey')]

section Words

variable {K : Slice → Prop} {item : LogItem} {k : List UInt8} {key : Slice}

/-- The item was put under a key of the run with this word. -/
def PutUnder (K : Slice → Prop) (item : LogItem) (k : List UInt8) : Prop :=
  ∃ key, K key ∧ k = indexKey key ∧ item.kv.key = key.bytes

theorem PutUnder.eq_iff (h : PutUnder K item k) (hK : Told K) (hkey : K key) :
    k = indexKey key ↔ item.kv.key = key.bytes := by
  obtain ⟨key', hkey', rfl, hbytes⟩ := h
  rw [hbytes]
  exact hK key' key hkey' hkey

/-- Items with different words are of different keys. -/
theorem PutUnder.key_ne {item' : LogItem} {k' : List UInt8} (h : PutUnder K item k)
    (h' : PutUnder K item' k') (hK : Told K) (hne : k' ≠ k) : item'.kv.key ≠ item.kv.key := by
  obtain ⟨key, hkey, rfl, hbytes⟩ := h
  rw [hbytes]
  exact fun he => hne ((h'.eq_iff hK hkey).mpr he)

end Words

/-! ## The invariant -/

/-- The key of a `Get` that has not read the index yet. -/
def Reader.key : Reader → Option Slice
  | .entered key => some key
  | .progressed key => some key
  | _ => none

/-- The pointer a `Get` has read. -/
def Reader.ptr : Reader → Option Addr
  | .found _ ptr => ptr
  | .copied _ ptr _ => ptr
  | _ => none

/-- The item a `Get` is to copy. -/
def Reader.want : Reader → Option KVItem
  | .found want _ => want
  | .copied want _ _ => want
  | _ => none

/-- A pointer that is safe to follow: it points to the item, and no barrier passes
the thread. -/
def Held (R : Sys) (w : ℕ) (want : Option KVItem) (a : Addr) : Prop :=
  (∃ item, R.base.log.itemAt a = some item ∧ want = some item.kv)
    ∧ ∀ j, (R.base.phase j).victim = some a.segment → (R.barrier j).Awaits R.status w

/-- **A `Get` is on its way to what it is to copy.** -/
structure ReaderOk (K : Slice → Prop) (numWorkers : ℕ) (R : Sys) (w : ℕ) : Prop where
  key : ∀ key, (R.reader w).key = some key → K key
  running : R.reader w ≠ .idle → w < numWorkers ∧ (R.status w).running = true
  absent : (R.reader w).ptr = none → (R.reader w).want = none
  held : ∀ a, (R.reader w).ptr = some a → Held R w (R.reader w).want a
  value : ∀ want ptr value, R.reader w = .copied want ptr value →
    value = want.map (fun kv => kv.value)

/-- **The invariant.** The index is told about an item under the word a cleaner looks
it up by, and has the last item of each key; and of a segment that is about to be
cleared it has none. -/
structure Inv (K : Slice → Prop) (numWorkers : ℕ) (R : Sys) : Prop where
  base : InvBy itemKey R.base
  putKey : ∀ w a, R.base.pending w = some a → ∃ item, R.base.log.itemAt a = some item
    ∧ R.putKey w = itemKey item ∧ PutUnder K item (R.putKey w)
  installed : ∀ k a, R.base.index k = some a → ∃ item, R.base.log.itemAt a = some item
    ∧ PutUnder K item k ∧ R.installed item.kv.key = some item.kv
  absent : ∀ key, K key → R.base.index (indexKey key) = none → R.installed key.bytes = none
  present : ∀ j v pos a, R.base.phase j = .copied v pos a →
    ∃ item, R.base.log.itemAt ⟨v, pos⟩ = some item ∧ (R.base.index (itemKey item)).isSome
  unreferenced : ∀ j, R.barrier j ≠ .idle → ∃ v, (R.base.phase j).victim = some v
    ∧ ∀ k a, R.base.index k = some a → a.segment ≠ v
  reader : ∀ w, ReaderOk K numWorkers R w

theorem inv_init {numSegments numCleaners : ℕ} (hc : 0 < numCleaners) (K : Slice → Prop)
    (numWorkers : ℕ) (pool : ℕ → SegmentImage LogItem) :
    Inv K numWorkers (Sys.init numSegments numCleaners pool) := by
  refine ⟨invBy_init hc pool, fun w a h => (by cases h), fun k a h => (by cases h),
    fun key _ _ => rfl, fun j v pos a h => (by cases h), fun j h => absurd rfl h, fun w => ?_⟩
  exact ⟨fun key h => (by cases h), fun h => absurd rfl h, fun _ => rfl, fun a h => (by cases h),
    fun want ptr value h => (by cases h)⟩

section Preservation

variable {K : Slice → Prop} {numWorkers : ℕ} {R R' : Sys}

/-! ## Steps of workers and cleaners -/

/-- A `Get` that does nothing stays on its way if its pointer stays safe. -/
theorem ReaderOk.keep {w : ℕ} (h : ReaderOk K numWorkers R w) (hreader : R'.reader w = R.reader w)
    (hstatus : R'.status w = R.status w)
    (hheld : ∀ a, (R.reader w).ptr = some a → Held R w (R.reader w).want a →
      Held R' w (R.reader w).want a) : ReaderOk K numWorkers R' w where
  key key hkey := by
    rw [hreader] at hkey
    exact h.key key hkey
  running hw := by
    rw [hreader] at hw
    rw [hstatus]
    exact h.running hw
  absent hptr := by
    rw [hreader] at hptr ⊢
    exact h.absent hptr
  held a hptr := by
    rw [hreader] at hptr ⊢
    exact hheld a hptr (h.held a hptr)
  value want ptr value hw := by
    rw [hreader] at hw
    exact h.value want ptr value hw

/-- A step that changes no entry keeps the invariant if it loses no item, and if what
is new in the workers' and the cleaners' hands is as it should be. -/
theorem Inv.keep (h : Inv K numWorkers R) {σ : CleaningLog.Sys} {putKey : ℕ → List UInt8}
    (hbase : InvBy itemKey σ) (hindex : σ.index = R.base.index)
    (hitem : ∀ a item, R.base.log.itemAt a = some item → σ.log.itemAt a = some item)
    (hpending : ∀ w a, σ.pending w = some a →
      (R.base.pending w = some a ∧ putKey w = R.putKey w)
        ∨ ∃ item, σ.log.itemAt a = some item
          ∧ putKey w = itemKey item ∧ PutUnder K item (putKey w))
    (hcopied : ∀ j v pos a, σ.phase j = .copied v pos a → R.base.phase j = .copied v pos a
      ∨ ∃ item, σ.log.itemAt ⟨v, pos⟩ = some item ∧ (R.base.index (itemKey item)).isSome)
    (hvictim : ∀ j, (σ.phase j).victim = (R.base.phase j).victim ∨ R.barrier j = .idle) :
    Inv K numWorkers { R with base := σ, putKey := putKey } where
  base := hbase
  putKey w a hw := by
    rcases hpending w a hw with ⟨hw', hkey⟩ | hnew
    · simp only [hkey]
      obtain ⟨item, ha, hput⟩ := h.putKey w a hw'
      exact ⟨item, hitem a item ha, hput⟩
    · exact hnew
  installed k a hk := by
    simp only [hindex] at hk
    obtain ⟨item, ha, hlast⟩ := h.installed k a hk
    exact ⟨item, hitem a item ha, hlast⟩
  absent key hkey hk := by
    simp only [hindex] at hk
    exact h.absent key hkey hk
  present j v pos a hj := by
    simp only [hindex]
    rcases hcopied j v pos a hj with hj' | hnew
    · obtain ⟨item, ha, hsome⟩ := h.present j v pos a hj'
      exact ⟨item, hitem _ item ha, hsome⟩
    · exact hnew
  unreferenced j hj := by
    obtain ⟨v, hv, hentry⟩ := h.unreferenced j hj
    simp only [hindex]
    exact ⟨v, ((hvictim j).resolve_right hj).trans hv, hentry⟩
  reader w := by
    refine (h.reader w).keep rfl rfl (fun a _ hheld => ⟨?_, fun j hj => ?_⟩)
    · obtain ⟨item, ha, hwant⟩ := hheld.1
      exact ⟨item, hitem a item ha, hwant⟩
    · rcases hvictim j with heq | hidle
      · exact hheld.2 j (heq.symm.trans hj)
      · show (R.barrier j).Awaits R.status w
        rw [hidle]
        trivial

/-- A step that sets an entry to an item in a segment that no cleaner goes through. -/
theorem Inv.setEntry (h : Inv K numWorkers R) (hK : Told K) {σ : CleaningLog.Sys}
    {k : List UInt8} {a : Addr} {item : LogItem} (hput : PutUnder K item k)
    (hbase : InvBy itemKey σ) (hlog : σ.log = R.base.log)
    (hindex : σ.index = Function.update R.base.index k (some a))
    (ha : R.base.log.itemAt a = some item)
    (hsegment : ∀ j, (R.base.phase j).victim ≠ some a.segment)
    (hpending : ∀ w b, σ.pending w = some b → R.base.pending w = some b)
    (hcopied : ∀ j v pos b, σ.phase j = .copied v pos b → R.base.phase j = .copied v pos b)
    (hvictim : ∀ j, (σ.phase j).victim = (R.base.phase j).victim) :
    Inv K numWorkers { R with
      base := σ
      installed := Function.update R.installed item.kv.key (some item.kv) } where
  base := hbase
  putKey w b hw := by
    simp only [hlog]
    exact h.putKey w b (hpending w b hw)
  installed k' b hk := by
    simp only [hindex, hlog] at hk ⊢
    by_cases hkey : k' = k
    · subst hkey
      rw [Function.update_self] at hk
      obtain rfl := Option.some.inj hk
      exact ⟨item, ha, hput, Function.update_self _ _ _⟩
    · rw [Function.update_of_ne hkey] at hk
      obtain ⟨item', hitem', hput', hlast⟩ := h.installed k' b hk
      refine ⟨item', hitem', hput', ?_⟩
      rw [Function.update_of_ne (hput.key_ne hput' hK hkey)]
      exact hlast
  absent key hkey hk := by
    simp only [hindex] at hk ⊢
    have hne : indexKey key ≠ k := by
      rintro rfl
      rw [Function.update_self] at hk
      cases hk
    rw [Function.update_of_ne hne] at hk
    have hbytes : key.bytes ≠ item.kv.key := fun he => hne ((hput.eq_iff hK hkey).mpr he.symm).symm
    rw [Function.update_of_ne hbytes]
    exact h.absent key hkey hk
  present j v pos b hj := by
    obtain ⟨item', hitem', hsome⟩ := h.present j v pos b (hcopied j v pos b hj)
    simp only [hindex, hlog]
    refine ⟨item', hitem', ?_⟩
    by_cases hkey : itemKey item' = k
    · rw [hkey, Function.update_self]
      rfl
    · rw [Function.update_of_ne hkey]
      exact hsome
  unreferenced j hj := by
    obtain ⟨v, hv, hentry⟩ := h.unreferenced j hj
    simp only [hindex]
    refine ⟨v, (hvictim j).trans hv, fun k' b hk => ?_⟩
    by_cases hkey : k' = k
    · subst hkey
      rw [Function.update_self] at hk
      obtain rfl := Option.some.inj hk
      rintro rfl
      exact hsegment j hv
    · rw [Function.update_of_ne hkey] at hk
      exact hentry k' b hk
  reader w := by
    refine (h.reader w).keep rfl rfl (fun b _ hheld => ⟨?_, fun j hj => ?_⟩)
    · simp only [hlog]
      exact hheld.1
    · exact hheld.2 j ((hvictim j).symm.trans hj)

theorem Inv.take (h : Inv K numWorkers R) {w : ℕ} {σ : CleaningLog.Sys}
    (hstep : CleaningLog.take R.base w = some σ) : Inv K numWorkers { R with base := σ } := by
  have hbase := h.base.take hstep
  obtain ⟨-, s, rest, -, rfl⟩ := take_eq_some hstep
  have hitem := LogStructured.itemAt_setSegment
    (LogSegment.items_startUsing (R.base.log.segments s) true true)
  exact h.keep hbase rfl (fun a item ha => (hitem a).trans ha) (fun w a hw => .inl ⟨hw, rfl⟩)
    (fun j v pos a hj => .inl hj) (fun j => .inl rfl)

/-- **A worker appends an item** that a cleaner will look up by the word the index is
told it under. -/
theorem Inv.append (h : Inv K numWorkers R) {w : ℕ} {entry : Entry} {epoch : UInt32}
    (hkey : K entry.key) (hword : indexKey entry.key = indexKey (keySlice (entry.item epoch)))
    (hstep : append R w entry epoch = some R') : Inv K numWorkers R' := by
  obtain ⟨σ, happend, rfl⟩ := Option.map_eq_some_iff.mp hstep
  have hbase := h.base.append happend
  obtain ⟨s, a, log, -, -, happ, rfl⟩ := append_eq_some happend
  obtain ⟨-, ha, hkeep⟩ := LogStructured.itemAt_append h.base.sound.backed happ
  refine h.keep hbase rfl hkeep (fun u b hu => ?_) (fun j v pos b hj => .inl hj)
    (fun j => .inl rfl)
  rcases update_eq_some hu with ⟨rfl, hb⟩ | ⟨hne, hu⟩
  · obtain rfl := Option.some.inj hb
    refine .inr ⟨_, ha, ?_⟩
    rw [Function.update_self]
    exact ⟨hword, entry.key, hkey, rfl, rfl⟩
  · exact .inl ⟨hu, Function.update_of_ne hne _ _⟩

theorem Inv.freeze (h : Inv K numWorkers R) {w : ℕ} {σ : CleaningLog.Sys}
    (hstep : CleaningLog.freeze R.base w = some σ) : Inv K numWorkers { R with base := σ } := by
  have hbase := h.base.freeze hstep
  obtain ⟨s, -, -, rfl⟩ := freeze_eq_some hstep
  exact h.keep hbase rfl
    (fun a item ha => (LogStructured.itemAt_freezeSegment R.base.log (some s) a).trans ha)
    (fun w a hw => .inl ⟨hw, rfl⟩) (fun j v pos a hj => .inl hj) (fun j => .inl rfl)

/-- **A worker tells the index where its item is.** -/
theorem Inv.install (h : Inv K numWorkers R) (hK : Told K) {w : ℕ}
    (hstep : install R w = some R') : Inv K numWorkers R' := by
  obtain ⟨a, item, hw, hread, rfl⟩ := install_eq_some hstep
  obtain ⟨item', ha, hkey, hput⟩ := h.putKey w a hw
  obtain rfl : item' = item :=
    Option.some.inj ((LogStructured.read_of_itemAt ha).symm.trans hread)
  have hbase := h.base.install hw hread
  rw [← hkey] at hbase
  refine h.setEntry hK hput hbase rfl rfl ha
    (fun j hj => h.base.pending_ne_victim hw hj rfl) (fun u b hu => ?_)
    (fun j v pos b hj => hj) (fun j => rfl)
  rcases update_eq_some hu with ⟨-, he⟩ | ⟨-, hu⟩
  · cases he
  · exact hu

/-- A cleaner that is at no segment is at no barrier. -/
theorem Inv.barrier_eq_idle (h : Inv K numWorkers R) {j : ℕ} (hj : R.base.phase j = .idle) :
    R.barrier j = .idle := by
  by_contra hne
  obtain ⟨v, hv, -⟩ := h.unreferenced j hne
  rw [hj] at hv
  cases hv

theorem Inv.pick (h : Inv K numWorkers R) {j v : ℕ} {σ : CleaningLog.Sys}
    (hstep : CleaningLog.pick R.base j v = some σ) : Inv K numWorkers { R with base := σ } := by
  have hbase := h.base.pick hstep
  obtain ⟨hidle, -, rfl⟩ := pick_eq_some hstep
  refine h.keep hbase rfl (fun a item ha => ha) (fun w a hw => .inl ⟨hw, rfl⟩)
    (fun i u pos a hi => .inl (copied_of_update_scanning hi)) (fun i => ?_)
  by_cases hij : i = j
  · subst hij
    exact .inr (h.barrier_eq_idle hidle)
  · simp only [Function.update_of_ne hij]
    exact .inl trivial

theorem Inv.refill (h : Inv K numWorkers R) {j : ℕ} {σ : CleaningLog.Sys}
    (hstep : CleaningLog.refill R.base j = some σ) : Inv K numWorkers { R with base := σ } := by
  have hbase := h.base.refill hstep
  obtain ⟨v, pos, b, -, -, rfl⟩ := refill_eq_some hstep
  have hitem := LogStructured.itemAt_setSegment (LogSegment.items_startUsing
    ((R.base.log.releaseReserved j).segments b) false false)
  refine h.keep hbase rfl (fun a item ha => ?_) (fun w a hw => .inl ⟨hw, rfl⟩)
    (fun j v pos a hj => .inl hj) (fun j => .inl rfl)
  exact (hitem a).trans ((LogStructured.itemAt_freezeSegment _ _ a).trans ha)

/-- **A cleaner looks at an item.** -/
theorem Inv.compactItem (h : Inv K numWorkers R) {j : ℕ} (hstep : compactItem R j = some R') :
    Inv K numWorkers R' := by
  obtain ⟨v, pos, item, hphase, hread, hcase⟩ := compactItem_eq_some hstep
  have hvictim : (R.base.phase j).victim = some v := by rw [hphase]; rfl
  have hsame : ∀ ph : Phase, ph.victim = some v →
      ∀ i, (Function.update R.base.phase j ph i).victim = (R.base.phase i).victim :=
    fun ph hph => victim_update_eq (hph.trans hvictim.symm)
  rcases hcase with ⟨hgarbage, rfl⟩ | ⟨r, a, log, hindex, hr, happ, rfl⟩
  · exact h.keep (h.base.skip hphase hread hgarbage) rfl (fun a item ha => ha)
      (fun w a hw => .inl ⟨hw, rfl⟩) (fun i u p a hi => .inl (copied_of_update_scanning hi))
      (fun i => .inl (hsame _ rfl i))
  · obtain ⟨-, ha, hkeep⟩ := LogStructured.itemAt_append h.base.sound.backed happ
    refine h.keep (h.base.copyItem hphase hread hr happ) rfl hkeep
      (fun w a hw => .inl ⟨hw, rfl⟩) (fun i u p b hi => ?_)
      (fun i => .inl (hsame _ rfl i))
    by_cases hij : i = j
    · subst hij
      simp only [Function.update_self] at hi
      obtain ⟨rfl, rfl, rfl⟩ := Phase.copied.inj hi
      exact .inr ⟨item, hkeep _ item (h.base.itemAt_victim hvictim hread), by rw [hindex]; rfl⟩
    · simp only [Function.update_of_ne hij] at hi
      exact .inl hi

/-- **A cleaner moves an entry to the copy**, or finds that it has changed. -/
theorem Inv.gcMove (h : Inv K numWorkers R) (hK : Told K) {j : ℕ}
    (hstep : gcMove R j = some R') : Inv K numWorkers R' := by
  obtain ⟨v, pos, copy, item, hphase, hread, rfl⟩ := gcMove_eq_some hstep
  have hvictim : (R.base.phase j).victim = some v := by rw [hphase]; rfl
  have hsame : ∀ ph : Phase, ph.victim = some v →
      ∀ i, (Function.update R.base.phase j ph i).victim = (R.base.phase i).victim :=
    fun ph hph => victim_update_eq (hph.trans hvictim.symm)
  have hitem := h.base.itemAt_victim hvictim hread
  obtain ⟨item', hitem', hsome⟩ := h.present j v pos copy hphase
  obtain rfl : item' = item := Option.some.inj (hitem'.symm.trans hitem)
  have hbase := h.base.move hphase hread
  simp only [storeMoved_of_isSome hsome]
  by_cases hindex : R.base.index (itemKey item') = some ⟨v, pos⟩
  · obtain ⟨-, item, hfrom, hto⟩ := h.base.pointers.copy j v pos copy hphase
    obtain rfl : item = item' := Option.some.inj (hfrom.symm.trans hitem)
    -- the copy is the item that the entry was set to
    obtain ⟨item', hold, hput, hlast⟩ := h.installed _ _ hindex
    obtain rfl : item = item' := Option.some.inj (hitem.symm.trans hold)
    have hset := h.setEntry hK hput hbase rfl (if_pos hindex) hto
      (fun i hi => h.base.copy_ne_victim hphase hi rfl) (fun w b hw => hw)
      (fun i u p b hi => copied_of_update_scanning hi) (hsame _ rfl)
    rw [← hlast, Function.update_eq_self] at hset
    exact hset
  · exact h.keep hbase (if_neg hindex) (fun a item ha => ha) (fun w a hw => .inl ⟨hw, rfl⟩)
      (fun i u p a hi => .inl (copied_of_update_scanning hi))
      (fun i => .inl (hsame _ rfl i))

/-! ## Barriers -/

/-- A cleaner begins its barrier, or goes on with it: no entry points into its
segment, and every thread that holds a pointer there is waited for. -/
theorem Inv.setBarrier (h : Inv K numWorkers R) {j v : ℕ} {b : Barrier}
    (hvictim : (R.base.phase j).victim = some v)
    (hentry : ∀ k a, R.base.index k = some a → a.segment ≠ v)
    (hawaits : ∀ w a, (R.reader w).ptr = some a → (R.barrier j).Awaits R.status w →
      b.Awaits R.status w) : Inv K numWorkers (R.setBarrier j b) where
  base := h.base
  putKey := h.putKey
  installed := h.installed
  absent := h.absent
  present := h.present
  unreferenced i hi := by
    by_cases hij : i = j
    · subst hij
      exact ⟨v, hvictim, hentry⟩
    · simp only [Sys.setBarrier, Function.update_of_ne hij] at hi
      exact h.unreferenced i hi
  reader w := by
    refine (h.reader w).keep rfl rfl (fun a ha hheld => ⟨hheld.1, fun i hi => ?_⟩)
    show (Function.update R.barrier j b i).Awaits R.status w
    by_cases hij : i = j
    · subst hij
      rw [Function.update_self]
      exact hawaits w a ha (hheld.2 i hi)
    · rw [Function.update_of_ne hij]
      exact hheld.2 i hi

/-- A `Get` that holds a pointer is in its critical section. -/
theorem ReaderOk.running_of_ptr {w : ℕ} (h : ReaderOk K numWorkers R w) {a : Addr}
    (ha : (R.reader w).ptr = some a) : w < numWorkers ∧ (R.status w).running = true := by
  refine h.running (fun hidle => ?_)
  rw [hidle] at ha
  cases ha

/-- **No pointer into a segment is held when its cleaner has passed the barrier.** -/
theorem Inv.segment_ne_of_passed (h : Inv K numWorkers R) {j v w : ℕ} {a : Addr}
    (hvictim : (R.base.phase j).victim = some v) (hpassed : R.barrier j = .passed)
    (ha : (R.reader w).ptr = some a) : a.segment ≠ v := by
  rintro rfl
  have hawaits := ((h.reader w).held a ha).2 j hvictim
  rw [hpassed] at hawaits
  exact hawaits

/-- **A cleaner clears its segment.** -/
theorem Inv.finish (h : Inv K numWorkers R) {j : ℕ} {σ : CleaningLog.Sys}
    (hpassed : R.barrier j = .passed) (hstep : CleaningLog.finish R.base j = some σ) :
    Inv K numWorkers (Sys.setBarrier { R with base := σ } j .idle) := by
  have hbase := h.base.finish hstep
  obtain ⟨v, hphase, rfl⟩ := finish_eq_some hstep
  have hvictim : (R.base.phase j).victim = some v := by rw [hphase]; rfl
  have hother : ∀ i, i ≠ j → Function.update R.base.phase j Phase.idle i = R.base.phase i :=
    fun i hij => Function.update_of_ne hij _ _
  refine ⟨hbase, fun w a hw => ?_, fun k a hk => ?_, h.absent, fun i u pos a hi => ?_,
    fun i hi => ?_, fun w => ?_⟩
  · simp only [Sys.setBarrier, itemAt_retire (h.base.pending_ne_victim hw hvictim)]
    exact h.putKey w a hw
  · simp only [Sys.setBarrier, itemAt_retire (h.base.segment_ne_of_end hphase hk)]
    exact h.installed k a hk
  · have hij : i ≠ j := by
      rintro rfl
      simp only [Sys.setBarrier, Function.update_self] at hi
      cases hi
    simp only [Sys.setBarrier, hother i hij] at hi ⊢
    have hu : (R.base.phase i).victim = some u := by rw [hi]; rfl
    rw [itemAt_retire (a := ⟨u, pos⟩) (h.base.victim_ne hij hu hvictim)]
    exact h.present i u pos a hi
  · have hij : i ≠ j := by
      rintro rfl
      exact hi (Function.update_self _ _ _)
    simp only [Sys.setBarrier, Function.update_of_ne hij] at hi ⊢
    exact h.unreferenced i hi
  · refine (h.reader w).keep rfl rfl (fun a ha hheld => ⟨?_, fun i hi => ?_⟩)
    · simp only [Sys.setBarrier, itemAt_retire (h.segment_ne_of_passed hvictim hpassed ha)]
      exact hheld.1
    · have hij : i ≠ j := by
        rintro rfl
        simp only [Sys.setBarrier, Function.update_self] at hi
        cases hi
      simp only [Sys.setBarrier, Function.update_of_ne hij] at hi ⊢
      exact hheld.2 i hi

/-! ## Steps of readers -/

/-- A step of a `Get`: the others do not notice. -/
theorem Inv.setReader (h : Inv K numWorkers R) {w : ℕ} {status : ℕ → Status}
    {reader : ℕ → Reader} (hstatus : ∀ u, u ≠ w → status u = R.status u)
    (hreader : ∀ u, u ≠ w → reader u = R.reader u)
    (hw : ReaderOk K numWorkers { R with status := status, reader := reader } w) :
    Inv K numWorkers { R with status := status, reader := reader } where
  base := h.base
  putKey := h.putKey
  installed := h.installed
  absent := h.absent
  present := h.present
  unreferenced := h.unreferenced
  reader u := by
    by_cases hu : u = w
    · rw [hu]
      exact hw
    · exact (h.reader u).keep (hreader u hu) (hstatus u hu) (fun a ha hheld =>
        ⟨hheld.1, fun j hj => (hheld.2 j hj).congr (hstatus u hu)⟩)

/-- A step of a `Get` that holds no pointer. -/
theorem Inv.setStatus (h : Inv K numWorkers R) {w : ℕ} {status : Status} {x : Reader}
    (hkey : ∀ key, x.key = some key → K key) (hptr : x.ptr = none) (hwant : x.want = none)
    (hcopied : ∀ want ptr value, x ≠ .copied want ptr value)
    (hrunning : x ≠ .idle → w < numWorkers ∧ status.running = true) :
    Inv K numWorkers ((R.setStatus w status).setReader w x) := by
  refine h.setReader (fun u hu => Function.update_of_ne hu _ _)
    (fun u hu => Function.update_of_ne hu _ _) ⟨?_, ?_, ?_, ?_, ?_⟩
  · simp only [Function.update_self]
    exact hkey
  · simp only [Sys.setStatus, Function.update_self]
    exact hrunning
  · simp only [Function.update_self]
    exact fun _ => hwant
  · simp only [Function.update_self, hptr]
    nofun
  · simp only [Function.update_self]
    exact fun want ptr value hx => absurd hx (hcopied want ptr value)

/-- **A `Get` reads the index.** A segment that is about to be cleared is not where
the pointer leads, so the cleaners that wait need not wait for this thread. -/
theorem Inv.lookup (h : Inv K numWorkers R) (hK : Told K) {w : ℕ} {key : Slice}
    (hw : R.reader w = .progressed key) :
    Inv K numWorkers (R.setReader w
      (.found (R.installed key.bytes) (R.base.index (indexKey key)))) := by
  have hkey : K key := (h.reader w).key key (by rw [hw]; rfl)
  refine h.setReader (fun _ _ => rfl) (fun u hu => Function.update_of_ne hu _ _) ?_
  refine ⟨fun key' hc => ?_, fun _ => (h.reader w).running (by rw [hw]; nofun),
    fun hptr => ?_, fun a ha => ?_, fun want ptr value hc => ?_⟩
  · simp only [Function.update_self] at hc
    cases hc
  · simp only [Function.update_self] at hptr ⊢
    exact h.absent key hkey hptr
  · simp only [Function.update_self] at ha ⊢
    obtain ⟨item, hitem, hput, hlast⟩ := h.installed _ a ha
    rw [(hput.eq_iff hK hkey).mp rfl] at hlast
    refine ⟨⟨item, hitem, hlast⟩, fun j hj => ?_⟩
    show (R.barrier j).Awaits R.status w
    by_cases hidle : R.barrier j = .idle
    · rw [hidle]
      trivial
    · obtain ⟨v, hv, hentry⟩ := h.unreferenced j hidle
      obtain rfl := Option.some.inj (hj.symm.trans hv)
      exact absurd rfl (hentry _ a ha)
  · simp only [Function.update_self] at hc
    cases hc

/-- **A `Get` copies the item**, which is where the pointer leads. -/
theorem Inv.copy (h : Inv K numWorkers R) {w : ℕ} {want : Option KVItem} {ptr : Option Addr}
    (hw : R.reader w = .found want ptr) :
    Inv K numWorkers (R.setReader w (.copied want ptr
      (ptr.bind fun a => (R.base.log.read a).map (fun x => x.kv.value)))) := by
  have hok := h.reader w
  refine h.setReader (fun _ _ => rfl) (fun u hu => Function.update_of_ne hu _ _) ?_
  refine ⟨fun key hc => ?_, fun _ => hok.running (by rw [hw]; nofun), fun hptr => ?_,
    fun a ha => ?_, fun want' ptr' value hc => ?_⟩
  · simp only [Function.update_self] at hc
    cases hc
  · simp only [Function.update_self] at hptr ⊢
    have habsent := hok.absent
    rw [hw] at habsent
    exact habsent hptr
  · simp only [Function.update_self] at ha ⊢
    have hheld := hok.held a
    rw [hw] at hheld
    exact hheld ha
  · simp only [Function.update_self] at hc
    obtain ⟨rfl, rfl, rfl⟩ := Reader.copied.inj hc
    cases ptr with
    | none =>
      have habsent := hok.absent
      rw [hw] at habsent
      obtain rfl : want = none := habsent rfl
      rfl
    | some a =>
      have hheld := hok.held a
      rw [hw] at hheld
      obtain ⟨⟨item, ha, hwant⟩, -⟩ := hheld rfl
      obtain rfl : want = some item.kv := hwant
      rw [Option.bind_some, LogStructured.read_of_itemAt ha]
      rfl

/-! ## Runs -/

/-- **Every step keeps the invariant** if the index sees the keys as they are. -/
theorem Inv.step (h : Inv K numWorkers R) (hK : Told K) {e : Event} (he : e.Whole)
    (hkey : ∀ key, e.key = some key → K key) (hstep : step numWorkers R e = some R') :
    Inv K numWorkers R' := by
  cases e with
  | take w =>
    simp only [CleaningReaders.step] at hstep
    split at hstep
    · obtain ⟨σ, hσ, rfl⟩ := lift_eq_some hstep
      exact h.take hσ
    · cases hstep
  | append w entry epoch =>
    simp only [CleaningReaders.step] at hstep
    split at hstep
    · exact h.append (hkey entry.key rfl) he hstep
    · cases hstep
  | freeze w =>
    simp only [CleaningReaders.step] at hstep
    split at hstep
    · obtain ⟨σ, hσ, rfl⟩ := lift_eq_some hstep
      exact h.freeze hσ
    · cases hstep
  | install w => exact h.install hK hstep
  | enter w key =>
    simp only [CleaningReaders.step] at hstep
    split at hstep
    · obtain ⟨⟨hlt, -⟩, hsome⟩ := Option.ite_none_right_eq_some.mp hstep
      obtain rfl := Option.some.inj hsome
      exact h.setStatus hkey rfl rfl nofun (fun _ => ⟨hlt, rfl⟩)
    · cases hstep
  | progress w =>
    simp only [CleaningReaders.step] at hstep
    split at hstep
    · next key hw =>
      obtain rfl := Option.some.inj hstep
      exact h.setStatus (fun key' hc => (h.reader w).key key' (by rw [hw]; exact hc)) rfl rfl nofun
        (fun _ => (h.reader w).running (by rw [hw]; nofun))
    · cases hstep
  | lookup w =>
    simp only [CleaningReaders.step] at hstep
    split at hstep
    · next key hw =>
      obtain rfl := Option.some.inj hstep
      exact h.lookup hK hw
    · cases hstep
  | copy w =>
    simp only [CleaningReaders.step] at hstep
    split at hstep
    · next want ptr hw =>
      obtain rfl := Option.some.inj hstep
      exact h.copy hw
    · cases hstep
  | exit w =>
    simp only [CleaningReaders.step] at hstep
    split at hstep
    · obtain rfl := Option.some.inj hstep
      exact h.setStatus nofun rfl rfl nofun (fun hne => absurd rfl hne)
    · cases hstep
  | pick j v =>
    obtain ⟨σ, hσ, rfl⟩ := lift_eq_some hstep
    exact h.pick hσ
  | refill j =>
    simp only [CleaningReaders.step] at hstep
    split at hstep
    · obtain ⟨σ, hσ, rfl⟩ := lift_eq_some hstep
      exact h.refill hσ
    · cases hstep
  | compactItem j =>
    simp only [CleaningReaders.step] at hstep
    split at hstep
    · exact h.compactItem hstep
    · cases hstep
  | gcMove j => exact h.gcMove hK hstep
  | startBarrier j =>
    simp only [CleaningReaders.step] at hstep
    split at hstep
    · next v pos _ hphase =>
      obtain ⟨rfl, hsome⟩ := Option.ite_none_right_eq_some.mp hstep
      obtain rfl := Option.some.inj hsome
      have hvictim : (R.base.phase j).victim = some v := by rw [hphase]; rfl
      exact h.setBarrier hvictim (fun k a hk => h.base.segment_ne_of_end hphase hk)
        (fun w a _ _ => Barrier.awaits_start)
    · cases hstep
  | barrier j =>
    obtain ⟨b, hb, rfl⟩ := Option.map_eq_some_iff.mp hstep
    have hne : R.barrier j ≠ .idle := by
      intro hidle
      rw [hidle] at hb
      cases hb
    obtain ⟨v, hvictim, hentry⟩ := h.unreferenced j hne
    refine h.setBarrier hvictim hentry (fun w a ha hawaits => ?_)
    obtain ⟨hlt, hrunning⟩ := (h.reader w).running_of_ptr ha
    exact hawaits.step hlt hrunning hb
  | finish j =>
    simp only [CleaningReaders.step] at hstep
    split at hstep
    · next hpassed =>
      obtain ⟨R₁, hlift, rfl⟩ := Option.map_eq_some_iff.mp hstep
      obtain ⟨σ, hσ, rfl⟩ := lift_eq_some hlift
      exact h.finish hpassed hσ
    · cases hstep

/-- **What a `Get` relies on**: what it has copied is the value of the item it was to
copy, and up to `rcu_exit` the item is where the pointer leads, and the segment is not
cleared. -/
structure Correct (numWorkers : ℕ) (R : Sys) : Prop where
  value : ∀ w want ptr value, R.reader w = .copied want ptr value →
    value = want.map (fun kv => kv.value)
  item : ∀ w a, (R.reader w).ptr = some a →
    ∃ item, R.base.log.itemAt a = some item ∧ (R.reader w).want = some item.kv
  uncleared : ∀ w a j, (R.reader w).ptr = some a →
    (R.base.phase j).victim = some a.segment → step numWorkers R (.finish j) = none

theorem Inv.correct (h : Inv K numWorkers R) : Correct numWorkers R where
  value w := (h.reader w).value
  item w a ha := ((h.reader w).held a ha).1
  uncleared w a j ha hj := by
    simp only [CleaningReaders.step]
    split
    · next hpassed => exact absurd rfl (h.segment_ne_of_passed hj hpassed ha)
    · rfl

/-- **Every `Get` is correct in every interleaving of workers and cleaners** in which
the index sees the keys as they are. -/
theorem gets_correct {numSegments numCleaners : ℕ} (hc : 0 < numCleaners)
    (pool : ℕ → SegmentImage LogItem) {events : List Event} (hfaithful : Faithful events)
    (hrun : Machine.run (step numWorkers) (Sys.init numSegments numCleaners pool) events
      = some R) : Correct numWorkers R := by
  have hevents : ∀ e ∈ events, e.Whole
      ∧ ∀ key, e.key = some key → key ∈ events.filterMap Event.key :=
    fun e he => ⟨hfaithful.whole e he, fun key hkey => List.mem_filterMap.mpr ⟨e, he, hkey⟩⟩
  have hinv : Inv (fun key => key ∈ events.filterMap Event.key) numWorkers R :=
    Machine.run_inv_of_allSteps (step numWorkers)
      (fun _ _ _ h he hs => h.step hfaithful.told he.1 he.2 hs)
      (inv_init hc _ numWorkers pool) (Machine.allSteps_of_forall hevents) hrun
  exact hinv.correct

end Preservation

/-- A worker puts a key of eight bytes, another one reads its entry, and a cleaner
copies the item and comes to its barrier, where it finds the other worker in its
section. -/
def oneEvents : List Event :=
  [.take 0, .append 0 (oneEntry 1) 0, .install 0, .freeze 0, .enter 1 oneKey, .progress 1,
    .lookup 1, .pick 0 0, .compactItem 0, .gcMove 0, .startBarrier 0, .barrier 0, .barrier 0,
    .barrier 0, .barrier 0, .barrier 0, .copy 1]

/-- That worker copies the right value, and the segment stays. -/
theorem gets_correct_one :
    Faithful oneEvents
      ∧ ∃ R, Machine.run (step 2) (Sys.init 3 1 (fun _ => {})) oneEvents = some R
        ∧ Correct 2 R := by
  have hfaithful : Faithful oneEvents := faithful_of_size (by
    simp only [oneEvents, Event.key, List.filterMap_cons, List.filterMap_nil]
    decide)
  have hsome : (Machine.run (step 2) (Sys.init 3 1 (fun _ => {})) oneEvents).isSome := by decide
  obtain ⟨R, hrun⟩ := Option.isSome_iff_exists.mp hsome
  exact ⟨hfaithful, R, hrun, gets_correct (by decide) _ hfaithful hrun⟩

/-- A key of four bytes, with zeros behind it where `Put` and `Get` are called. -/
def shortKey : Slice where
  data := [1, 2, 3, 4, 0, 0, 0, 0]
  size := 4
  size_le := by decide
  word_le := by decide

/-- A record of this key. In the log the value comes behind the key. -/
def shortEntry : Entry where
  key := shortKey
  value := List.replicate 8 1
  keySize_lt := by decide
  valSize_ge := by decide
  valSize_lt := by decide

/-- It is put, and another record is put into another segment. A cleaner clears the
first segment, and copies the other record there. -/
def shortEvents : List Event :=
  [.take 0, .append 0 shortEntry 0, .install 0, .freeze 0, .take 0, .append 0 (oneEntry 2) 0,
    .install 0, .freeze 0, .pick 0 0, .compactItem 0, .startBarrier 0, .barrier 0, .barrier 0,
    .barrier 0, .barrier 0, .finish 0, .pick 0 1, .refill 0, .compactItem 0, .enter 0 shortKey,
    .progress 0, .lookup 0, .copy 0]

/-- **A `Get` of the short key copies the value of the other record.** -/
theorem not_correct_short :
    ∃ R, Machine.run (step 1) (Sys.init 3 1 (fun _ => {})) shortEvents = some R
      ∧ (∃ want ptr value, R.reader 0 = .copied want ptr value
        ∧ want.map (fun kv => kv.value) = some shortEntry.value
        ∧ value = some (oneEntry 2).value)
      ∧ ¬ Correct 1 R := by
  have hany : (Machine.run (step 1) (Sys.init 3 1 (fun _ => {})) shortEvents).any (fun R =>
      match R.reader 0 with
      | .copied want _ value =>
          decide (want.map (fun kv => kv.value) = some shortEntry.value
            ∧ value = some (oneEntry 2).value)
      | _ => false) = true := by decide
  obtain ⟨R, hrun, hR⟩ := (Option.any_eq_true _ _).mp hany
  split at hR
  · next want ptr value hreader =>
    obtain ⟨hwant, hvalue⟩ := of_decide_eq_true hR
    refine ⟨R, hrun, ⟨want, ptr, value, hreader, hwant, hvalue⟩, fun hcorrect => ?_⟩
    have heq := hcorrect.value 0 want ptr value hreader
    rw [hwant, hvalue] at heq
    exact absurd heq (by decide)
  · cases hR

end CleaningReaders
