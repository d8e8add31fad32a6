import PKBench.CleaningPointers
import PKBench.LastWrite
import PKBench.Recovery

/-!
# Which item recovery leaves in the index

The recovery threads put what they walk in the closed segments into a new index,
each thread in the segments of its own residue and in the order of addresses; how
the threads interleave is up to the scheduler (`Interleaves`). A key is left
with the item that came last. Nothing compares two items of one key – the epoch they
carry is not read – so the item of the most recent `Put` wins where, and only
where, it stands last.

That is a condition on the pool: behind everything else that is walked for a key, in
the same thread's part of the pool, there is an item of the key's most recent `Put`
(`NewestLast`). Workers break it without any cleaning. Of two workers the one
with the lower segment may be the later one to put a record. And the bytes a
closed segment has left over break it, where they are taken for an item
(`behind`) and no such item follows. What these bytes are is arbitrary here.
-/

open FlatStore LastWrite

namespace CleaningLog

variable {σ : Sys} {mem : ℕ → ℕ → UInt8}

/-! ## The rebuilt index -/

/-- A correct map whose `Put` overwrites. -/
def mapIndex : Index (List UInt8 → Option ValueType) where
  get m key := m key.bytes
  put m key v := (Function.update m key.bytes (some v), m key.bytes)

/-- What each recovery thread puts into the index. -/
def recoveryThreads (log : LogStructured LogItem) (mem : ℕ → ℕ → UInt8) :
    List (List (Addr × Slice)) :=
  (List.range log.numCleaners).map
    (fun j => stripeItems LogItem.kv mem (poolOf log) log.numSegments log.numCleaners j)

/-- The index after what the threads walk has been put into it in some order. -/
def rebuild (order : List (Addr × Slice)) : List UInt8 → Option ValueType :=
  replay mapIndex (fun _ => none) order

/-- The key of what is replayed. -/
def replayKey (x : Addr × Slice) : List UInt8 := x.2.bytes

/-- A key is left with what came last. -/
theorem rebuild_apply (order : List (Addr × Slice)) (k : List UInt8) :
    rebuild order k = (lastWrite replayKey order k).map (fun x => .item x.1) :=
  foldl_update_apply replayKey (fun x => ValueType.item x.1) order k

theorem rebuild_of_lastWrite {order : List (Addr × Slice)} {k : List UInt8} {x : Addr × Slice}
    (h : lastWrite replayKey order k = some x) : rebuild order k = some (.item x.1) := by
  rw [rebuild_apply, h]
  rfl

/-- What is walked in the pool. -/
def Walked (log : LogStructured LogItem) (mem : ℕ → ℕ → UInt8) (x : Addr × Slice) : Prop :=
  x.1.segment < log.numSegments
    ∧ x ∈ walkSegment LogItem.kv (mem x.1.segment) (poolOf log x.1.segment) x.1.segment

theorem mem_recoveryThread {log : LogStructured LogItem} {j : ℕ} {x : Addr × Slice} :
    x ∈ stripeItems LogItem.kv mem (poolOf log) log.numSegments log.numCleaners j
      ↔ Walked log mem x ∧ x.1.segment % log.numCleaners = j := by
  obtain ⟨a, key⟩ := x
  rw [mem_stripeItems]
  exact ⟨fun h => ⟨⟨h.1.1, h.2⟩, h.1.2⟩, fun h => ⟨⟨h.1.1, h.2⟩, h.1.2⟩⟩

/-- Nothing is replayed twice. -/
theorem nodup_recoveryThreads (log : LogStructured LogItem) (mem : ℕ → ℕ → UInt8) :
    (recoveryThreads log mem).flatten.Nodup := by
  refine List.nodup_flatten.mpr ⟨fun l hl => ?_, ?_⟩
  · obtain ⟨j, -, rfl⟩ := List.mem_map.mp hl
    refine (pairwise_stripeItems _ _ _ _ _ j).imp (fun {x y} hbefore he => ?_)
    rw [he] at hbefore
    exact hbefore.asymm hbefore
  · refine List.pairwise_map.mpr (List.nodup_range.imp (fun {i j} hne => ?_))
    intro x hi hj
    exact hne ((mem_recoveryThread.mp hi).2.symm.trans (mem_recoveryThread.mp hj).2)

/-- What is walked is replayed, by the thread of its segment. -/
theorem exists_recoveryThread {log : LogStructured LogItem} (hc : 0 < log.numCleaners)
    {x : Addr × Slice} (hx : Walked log mem x) :
    ∃ l ∈ recoveryThreads log mem, x ∈ l :=
  ⟨_, List.mem_map.mpr ⟨_, List.mem_range.mpr (Nat.mod_lt _ hc), rfl⟩,
    mem_recoveryThread.mpr ⟨hx, rfl⟩⟩

/-- Of two things a thread replays for a key, the one that is not its last has the
lower address. -/
theorem before_of_lastWrite {log : LogStructured LogItem} {l : List (Addr × Slice)}
    (hl : l ∈ recoveryThreads log mem) {k : List UInt8} {x y : Addr × Slice}
    (hlast : lastWrite replayKey l k = some x) (hy : y ∈ l) (hk : replayKey y = k) :
    (Walked log mem x ∧ x.1.segment % log.numCleaners = y.1.segment % log.numCleaners)
      ∧ (y = x ∨ Before y.1 x.1) := by
  obtain ⟨j, -, rfl⟩ := List.mem_map.mp hl
  obtain ⟨hxwalked, hxseg⟩ := mem_recoveryThread.mp (mem_of_lastWrite replayKey hlast).1
  refine ⟨⟨hxwalked, hxseg.trans (mem_recoveryThread.mp hy).2.symm⟩, ?_⟩
  exact rel_lastWrite replayKey (pairwise_stripeItems _ _ _ _ _ _) hlast hy hk

/-! ## The last writer -/

/-- **Recovery is last-writer-wins for a key**: however the threads interleave, the key
is mapped to an item of its most recent `Put`, and to nothing if it was never put. -/
def LastWriterWins (σ : Sys) (mem : ℕ → ℕ → UInt8) (k : List UInt8) : Prop :=
  ∀ order, Interleaves (recoveryThreads σ.log mem) order →
    match σ.latest k with
    | some p => ∃ a item, rebuild order k = some (.item a) ∧ σ.log.read a = some item
        ∧ item.kv.key = k ∧ item.put = p
    | none => rebuild order k = none

/-- What is walked is an item of its key's most recent `Put`. -/
def Newest (σ : Sys) (x : Addr × Slice) : Prop :=
  ∃ item, σ.log.read x.1 = some item ∧ item.kv.key = replayKey x
    ∧ σ.latest (replayKey x) = some item.put

/-- Behind everything else that is walked for a key, in the same thread's part of
the pool, there is an item of its most recent `Put`. -/
def NewestLast (σ : Sys) (mem : ℕ → ℕ → UInt8) (k : List UInt8) : Prop :=
  ∀ x, Walked σ.log mem x → replayKey x = k → ¬ Newest σ x →
    ∃ y, Walked σ.log mem y ∧ Newest σ y ∧ replayKey y = k
      ∧ y.1.segment % σ.log.numCleaners = x.1.segment % σ.log.numCleaners ∧ Before x.1 y.1

/-- What each thread replays last for a key is an item of its most recent `Put`. -/
def ThreadsEndNewest (σ : Sys) (mem : ℕ → ℕ → UInt8) (k : List UInt8) : Prop :=
  ∀ l ∈ recoveryThreads σ.log mem, ∀ x, lastWrite replayKey l k = some x → Newest σ x

/-- When no segment is in use an item of the most recent `Put` of every key is walked. -/
theorem Inv.exists_walked (h : Inv σ) (hrec : Recoverable (poolOf σ.log) σ.log.numSegments)
    (mem : ℕ → ℕ → UInt8) {k : List UInt8} {p : ℕ} (hk : σ.latest k = some p) :
    ∃ x, Walked σ.log mem x ∧ replayKey x = k := by
  obtain ⟨a, ha⟩ := h.pointers.latest k p hk
  obtain ⟨hlt, item, hitem, hkey, hput⟩ := h.pointers.index k a ha
  refine ⟨(a, keySlice item.kv), ⟨hlt, ?_⟩, (bytes_keySlice _).trans hkey⟩
  refine mem_walkSegment.mpr
    ⟨rfl, ?_, .inl ⟨item, LogStructured.read_of_itemAt hitem, rfl⟩⟩
  cases hstatus : (σ.log.segments a.segment).status with
  | available =>
    rw [LogStructured.itemAt, (h.sound a.segment).available hstatus] at hitem
    cases hitem
  | inUse => exact absurd hstatus (hrec a.segment hlt)
  | closed => exact hstatus

/-- **Last-writer-wins, thread by thread.** -/
theorem Inv.lastWriterWins_iff_threads (h : Inv σ)
    (hrec : Recoverable (poolOf σ.log) σ.log.numSegments) (k : List UInt8) :
    LastWriterWins σ mem k ↔ ThreadsEndNewest σ mem k := by
  constructor
  · intro hwins l hl x hx
    -- the thread may come last
    obtain ⟨order, horder, hlast⟩ := exists_interleaving replayKey hl hx
    have hrebuild := rebuild_of_lastWrite hlast
    have hkey : replayKey x = k := (mem_of_lastWrite replayKey hx).2
    have hk := hwins order horder
    cases hlatest : σ.latest k with
    | none =>
      rw [hlatest, hrebuild] at hk
      cases hk
    | some p =>
      rw [hlatest] at hk
      obtain ⟨a, item, ha, hread, hitem, hput⟩ := hk
      rw [hrebuild] at ha
      obtain rfl : x.1 = a := ValueType.item.inj (Option.some.inj ha)
      exact ⟨item, hread, hitem.trans hkey.symm, by rw [hkey, hlatest, hput]⟩
  · intro hnewest order horder
    cases hlast : lastWrite replayKey order k with
    | some x =>
      obtain ⟨l, hl, hx⟩ :=
        exists_thread_of_interleaves replayKey (nodup_recoveryThreads σ.log mem) horder hlast
      obtain ⟨item, hread, hitem, hlatest⟩ := hnewest l hl x hx
      rw [(mem_of_lastWrite replayKey hx).2] at hitem hlatest
      rw [hlatest]
      exact ⟨x.1, item, rebuild_of_lastWrite hlast, hread, hitem, rfl⟩
    | none =>
      cases hlatest : σ.latest k with
      | none =>
        show rebuild order k = none
        rw [rebuild_apply, hlast]
        rfl
      | some p =>
        -- the key is replayed, so something comes last
        obtain ⟨x, hx, hkey⟩ := h.exists_walked hrec mem hlatest
        obtain ⟨l, hl, hmem⟩ := exists_recoveryThread h.places.cleaners hx
        have hreplayed : x ∈ order :=
          horder.perm.mem_iff.mpr (List.mem_flatten.mpr ⟨l, hl, hmem⟩)
        obtain ⟨y, hy⟩ := exists_lastWrite replayKey hreplayed hkey
        rw [hlast] at hy
        cases hy

/-- The newest items stand last exactly when each thread replays them last. -/
theorem newestLast_iff_threads (hc : 0 < σ.log.numCleaners) (k : List UInt8) :
    NewestLast σ mem k ↔ ThreadsEndNewest σ mem k := by
  constructor
  · intro hnewest l hl x hx
    obtain ⟨hmem, hkey⟩ := mem_of_lastWrite replayKey hx
    obtain ⟨⟨hwalked, -⟩, -⟩ := before_of_lastWrite hl hx hmem hkey
    by_contra hnot
    obtain ⟨y, hy, -, hykey, hyseg, hbefore⟩ := hnewest x hwalked hkey hnot
    -- the thread replays that item too, but not behind its last
    obtain ⟨j, -, rfl⟩ := List.mem_map.mp hl
    have hymem := mem_recoveryThread.mpr ⟨hy, hyseg.trans (mem_recoveryThread.mp hmem).2⟩
    rcases (before_of_lastWrite hl hx hymem hykey).2 with rfl | hback
    · exact hbefore.asymm hbefore
    · exact hbefore.asymm hback
  · intro hnewest x hx hkey hnot
    obtain ⟨l, hl, hmem⟩ := exists_recoveryThread hc hx
    obtain ⟨y, hy⟩ := exists_lastWrite replayKey hmem hkey
    obtain ⟨⟨hywalked, hyseg⟩, hrel⟩ := before_of_lastWrite hl hy hmem hkey
    have hynewest := hnewest l hl y hy
    refine ⟨y, hywalked, hynewest, (mem_of_lastWrite replayKey hy).2, hyseg, ?_⟩
    rcases hrel with rfl | hbefore
    · exact absurd hynewest hnot
    · exact hbefore

/-- Bytes that are taken for an item at the end of a thread's part of the pool are
left in the index. -/
theorem Inv.not_lastWriterWins_of_behind (h : Inv σ)
    (hrec : Recoverable (poolOf σ.log) σ.log.numSegments) {x : Addr × Slice}
    (hx : Walked σ.log mem x) (hread : σ.log.read x.1 = none)
    (hlast : ∀ y, Walked σ.log mem y →
      y.1.segment % σ.log.numCleaners = x.1.segment % σ.log.numCleaners → ¬ Before x.1 y.1) :
    ¬ LastWriterWins σ mem (replayKey x) := by
  intro hwins
  have hnewest : NewestLast σ mem (replayKey x) :=
    (newestLast_iff_threads h.places.cleaners _).mpr
      ((h.lastWriterWins_iff_threads hrec _).mp hwins)
  have hnot : ¬ Newest σ x := by
    rintro ⟨item, hitem, -⟩
    rw [hread] at hitem
    cases hitem
  obtain ⟨y, hy, -, -, hseg, hbefore⟩ := hnewest x hx rfl hnot
  exact hlast y hy hseg hbefore

/-- **Recovery is last-writer-wins exactly when the newest items stand last**, and that
key by key. The store is one on any pool, after any interleaving of workers and cleaners
that leaves no segment in use, and the bytes behind its items are arbitrary. -/
theorem lastWriterWins_iff (numSegments numCleaners : ℕ) (hc : 0 < numCleaners)
    (pool : ℕ → SegmentImage LogItem) (events : List Event) (σ : Sys)
    (hrun : run (Sys.init numSegments numCleaners pool) events = some σ)
    (hrec : Recoverable (poolOf σ.log) σ.log.numSegments) (mem : ℕ → ℕ → UInt8)
    (k : List UInt8) : LastWriterWins σ mem k ↔ NewestLast σ mem k := by
  have hinv := (inv_init hc pool).run hrun
  exact (hinv.lastWriterWins_iff_threads hrec k).trans
    (newestLast_iff_threads hinv.places.cleaners k).symm

/-- A worker puts a record and ends, and the store is closed. -/
def onePut : List Event :=
  [.take 0, .append 0 ((oneEntry 1).item 0), .install 0, .freeze 0, .destroyCleaner 0]

theorem run_onePut :
    ∃ σ, run (Sys.init 2 1 (fun _ => {})) onePut = some σ
      ∧ Recoverable (poolOf σ.log) σ.log.numSegments
      ∧ σ.log.numSegments = 2
      ∧ σ.latest = Function.update (fun _ => none) oneKey.bytes (some 0)
      ∧ (σ.log.segments 0).data = [⟨(oneEntry 1).item 0, 0⟩]
      ∧ (σ.log.segments 1).data = [] :=
  ⟨_, rfl, by decide, rfl, rfl, rfl, rfl⟩

/-- A single record is recovered, whatever the segments held before. -/
theorem lastWriterWins_onePut :
    ∃ σ, run (Sys.init 2 1 (fun _ => {})) onePut = some σ
      ∧ ∀ k, LastWriterWins σ (fun _ => SegmentBytes.staleSegment.mem) k := by
  obtain ⟨σ, hrun, hrec, hnum, hlatest, hdata₀, hdata₁⟩ := run_onePut
  refine ⟨σ, hrun, fun k =>
    (lastWriterWins_iff 2 1 Nat.one_pos (fun _ => {}) onePut σ hrun hrec _ k).mpr ?_⟩
  rintro ⟨⟨s, pos⟩, key⟩ ⟨hs, hx⟩ - hnot
  obtain ⟨-, -, hx⟩ := mem_walkSegment.mp hx
  rw [hnum] at hs
  exfalso
  match s, hs with
  | 0, _ =>
    have hdata : (poolOf σ.log 0).data = [⟨(oneEntry 1).item 0, 0⟩] := hdata₀
    dsimp only at hx
    rw [hdata] at hx
    rcases hx with ⟨item, hitem, rfl⟩ | ⟨-, hbehind⟩
    · obtain rfl := List.mem_singleton.mp (List.mem_of_getElem? hitem)
      refine hnot ⟨_, ?_, (bytes_keySlice _).symm, ?_⟩
      · rw [LogStructured.read]
        exact hdata₀ ▸ hitem
      · rw [hlatest]
        exact Function.update_self ..
    · rw [behind_of_room _ (by decide)] at hbehind
      cases hbehind
  | 1, _ =>
    have hdata : (poolOf σ.log 1).data = [] := hdata₁
    dsimp only at hx
    rw [hdata] at hx
    rcases hx with ⟨item, hitem, -⟩ | ⟨-, hbehind⟩
    · cases hitem
    · rw [behind_of_room _ (by decide)] at hbehind
      cases hbehind

/-- Two workers put a record of the same key, the one with the lower segment
after the other. -/
def twoWorkers : List Event :=
  [.take 0, .take 1, .append 1 ((oneEntry 1).item 0), .install 1,
    .append 0 ((oneEntry 2).item 1), .install 0, .freeze 0, .freeze 1, .destroyCleaner 0]

/-- The items of these workers, as recovery walks them. -/
def twoItems : List (Addr × Slice) :=
  [(⟨0, 0⟩, keySlice ((oneEntry 2).item 1)), (⟨1, 0⟩, keySlice ((oneEntry 1).item 0))]

theorem run_twoWorkers :
    ∃ σ, run (Sys.init 3 1 (fun _ => {})) twoWorkers = some σ
      ∧ Recoverable (poolOf σ.log) σ.log.numSegments
      ∧ σ.latest oneKey.bytes = some 1
      ∧ σ.log.read ⟨1, 0⟩ = some ⟨(oneEntry 1).item 0, 0⟩
      ∧ recoveryThreads σ.log (fun _ _ => 0) = [twoItems] :=
  ⟨_, rfl, by decide, rfl, rfl, rfl⟩

/-- The second record is the key's last, and recovery goes back to the first,
although the epoch of that is the lower one. -/
theorem recovery_loses_update :
    ∃ σ, run (Sys.init 3 1 (fun _ => {})) twoWorkers = some σ
      ∧ Recoverable (poolOf σ.log) σ.log.numSegments
      ∧ σ.latest oneKey.bytes = some 1
      ∧ (∀ order, Interleaves (recoveryThreads σ.log (fun _ _ => 0)) order →
          rebuild order oneKey.bytes = some (.item ⟨1, 0⟩))
      ∧ σ.log.read ⟨1, 0⟩ = some ⟨(oneEntry 1).item 0, 0⟩
      ∧ ¬ LastWriterWins σ (fun _ _ => 0) oneKey.bytes := by
  obtain ⟨σ, hrun, hrec, hlatest, hread, hthreads⟩ := run_twoWorkers
  have hrebuild : ∀ order, Interleaves (recoveryThreads σ.log (fun _ _ => 0)) order →
      rebuild order oneKey.bytes = some (.item ⟨1, 0⟩) := by
    intro order horder
    rw [hthreads] at horder
    rw [interleaves_singleton_iff.mp horder]
    rfl
  refine ⟨σ, hrun, hrec, hlatest, hrebuild, hread, fun h => ?_⟩
  have horder : Interleaves (recoveryThreads σ.log (fun _ _ => 0)) twoItems :=
    hthreads ▸ interleaves_singleton_iff.mpr rfl
  have hwins := h twoItems horder
  rw [hlatest] at hwins
  obtain ⟨a, item, ha, hitem, -, hput⟩ := hwins
  obtain rfl : ⟨1, 0⟩ = a :=
    ValueType.item.inj (Option.some.inj ((hrebuild _ horder).symm.trans ha))
  obtain rfl := Option.some.inj (hread.symm.trans hitem)
  cases hput

end CleaningLog
