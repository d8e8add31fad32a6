import PKBench.Recovery

/-!
# Opening a store again

The wrapper of flatstore-pacman looks for a pool file. If there is one it
constructs a `DB` on it and calls `RecoveryAll`, which throws the index away,
walks the closed segments of the pool in the order of their numbers – each
cleaner those of its own residue – and puts every item it finds into a new
index. The index is volatile, so this is all that is left of a store.

But before recovery there is the constructor, and it makes no difference
between a pool that is new and one that is not: `LogStructured` constructs
every segment with `init` set, and `Init` marks the segment available in the
pool file itself. When recovery comes, the only closed segment is the one the
cleaner's own destructor has just closed, and it is empty. `reopen_lossless_iff`
draws the conclusion: a store survives being reopened exactly if nothing was
ever put into it.
-/

namespace FlatStore

/-! ## The FastFair index -/

/-- **The adapter `FastFairIndex`**: a map from the first word of a key that
overwrites, and reports what it replaced. -/
def fastFairIndex : Index (UInt64 → Option ValueType) where
  get tree key := tree key.word
  put tree key val := (Function.update tree key.word (some val), tree key.word)

/-! ## The wrapper -/

/-- The constructor of `DB` on a pool, as the wrapper calls it. -/
def createFF (numSegments : ℕ) (pool : ℕ → SegmentImage KVItem) :
    DB (UInt64 → Option ValueType) where
  log := LogStructured.create numSegments 1 pool
  index := fun _ => none

/-- **`flatstore_wrapper::flatstore_wrapper`** where it finds a pool: its segments, and
the bytes behind their items. -/
def reopen (numSegments : ℕ) (mem : ℕ → ℕ → UInt8) (pool : ℕ → SegmentImage KVItem) :
    Option (DB (UInt64 → Option ValueType)) :=
  recoveryAll fastFairIndex (fun _ => none) mem (createFF numSegments pool)

/-- `DB::~DB`: the pool file a store leaves behind. -/
def closeDB (db : DB σ) : ℕ → SegmentImage KVItem := poolOf (db.log.destroyCleaners)

/-! ## What the constructor leaves of a pool -/

/-- After the constructor and the destructor of its cleaner no segment holds
anything a walk would find, whatever was in the pool. -/
theorem destroyCleaners_create (numSegments : ℕ) (mem : ℕ → UInt8)
    (pool : ℕ → SegmentImage KVItem) {i : ℕ} (hi : i < numSegments) :
    let image := poolOf ((LogStructured.create numSegments 1 pool).destroyCleaners) i
    image.status ≠ .inUse ∧ walkSegment id mem image i = [] := by
  intro image
  have hlast : numSegments - 1 + 0 < numSegments := by omega
  have hlog : (LogStructured.create numSegments 1 pool).destroyCleaners
      = (LogStructured.create numSegments 1 pool).destroyCleaner 0 := rfl
  have hreserved : (LogStructured.create numSegments 1 pool).reserved 0
      = some (numSegments - 1) := if_pos hlast
  have hsegments : ((LogStructured.create numSegments 1 pool).destroyCleaner 0).segments
      = Function.update (LogStructured.create numSegments 1 pool).segments (numSegments - 1)
          ((LogStructured.create numSegments 1 pool).segments (numSegments - 1)).close := by
    unfold LogStructured.destroyCleaner LogStructured.releaseReserved
    rw [hreserved]
    rfl
  have himage : image = (((LogStructured.create numSegments 1 pool).destroyCleaner 0).segments
      i).toSegmentImage := congrArg (fun log => poolOf log i) hlog
  rw [himage, hsegments]
  by_cases hne : i = numSegments - 1
  · -- the segment of the cleaner, which it has just closed
    subst hne
    rw [Function.update_self]
    have hdata : ((LogStructured.create numSegments 1 pool).segments
        (numSegments - 1)).close.data = [] := by
      rw [LogSegment.data_close]
      show LogSegment.items (if _ then _ else _) = []
      rw [if_pos ⟨le_rfl, hi⟩, LogSegment.items_startUsing, LogSegment.items_new]
    refine ⟨SegmentStatus.noConfusion, ?_⟩
    show List.mapIdx _ _ ++ List.map _ (behind mem _).toList = []
    rw [hdata, behind_of_room mem (by decide)]
    rfl
  · rw [Function.update_of_ne hne]
    have hseg : (LogStructured.create numSegments 1 pool).segments i
        = LogSegment.new (pool i) := if_neg (by omega)
    rw [hseg]
    exact ⟨SegmentStatus.noConfusion, rfl⟩

/-- **A reopened store is empty**, whatever the pool holds. -/
theorem reopen_eq (numSegments : ℕ) (mem : ℕ → ℕ → UInt8) (pool : ℕ → SegmentImage KVItem) :
    ∃ db, reopen numSegments mem pool = some db
      ∧ ∀ key, get fastFairIndex db key = .notFound := by
  have hnum : ((LogStructured.create numSegments 1 pool).destroyCleaners).numSegments
      = numSegments := by
    exact LogStructured.numSegments_freezeSegment _ _
  have hrec : Recoverable (poolOf ((LogStructured.create numSegments 1 pool).destroyCleaners))
      ((LogStructured.create numSegments 1 pool).destroyCleaners).numSegments := by
    intro i hi
    rw [hnum] at hi
    exact (destroyCleaners_create numSegments (mem i) pool hi).1
  have hitems : stripeItems id mem
      (poolOf ((LogStructured.create numSegments 1 pool).destroyCleaners))
      ((LogStructured.create numSegments 1 pool).destroyCleaners).numSegments 1 0 = [] := by
    refine List.flatMap_eq_nil_iff.mpr (fun i hi => ?_)
    have hlt := List.mem_range.mp (List.mem_of_mem_filter hi)
    rw [hnum] at hlt
    exact (destroyCleaners_create numSegments (mem i) pool hlt).2
  refine ⟨_, if_pos hrec, fun key => ?_⟩
  have hindex : replay fastFairIndex (fun _ => none)
      (stripeItems id mem (poolOf ((createFF numSegments pool).log.destroyCleaners))
        ((createFF numSegments pool).log.destroyCleaners).numSegments 1 0) = fun _ => none :=
    congrArg (replay fastFairIndex (fun _ => none)) hitems
  refine get_of_index_none fastFairIndex ?_
  exact congrFun hindex key.word

/-- The record a store should hold for a key, as `Get` would return it. -/
def lastValue (hist : List Entry) (key : List UInt8) : Lookup :=
  match lastPut hist key with
  | none => .notFound
  | some entry => .found entry.value

/-- **Reopening is lossless exactly for a store nothing was put into.** The
store is one on any pool, after any calls of any clients, all of whose workers
have ended, and the bytes behind its items are arbitrary. `_hrun` and `_hended` only
tie `db` to the history: what is in the pool makes no difference. -/
theorem reopen_lossless_iff (numSegments : ℕ) (pool : ℕ → SegmentImage KVItem)
    (ops : List ClientOp) (db : DB (UInt64 → Option ValueType))
    (_hrun : run fastFairIndex (createFF numSegments pool) ops = some db)
    (_hended : ∀ w, db.logHead w = none) (mem : ℕ → ℕ → UInt8) :
    ∃ db', reopen numSegments mem (closeDB db) = some db'
      ∧ ((∀ key : Slice, get fastFairIndex db' key = lastValue (puts ops) key.bytes)
        ↔ puts ops = []) := by
  obtain ⟨db', hopen, hempty⟩ := reopen_eq numSegments mem (closeDB db)
  refine ⟨db', hopen, fun h => ?_, fun h key => ?_⟩
  · by_contra hne
    obtain ⟨entry, rest, hputs⟩ := List.exists_cons_of_ne_nil hne
    -- the first record's key has a last record, but is not found
    have hkey := h entry.key
    rw [hempty, lastValue] at hkey
    cases hlast : lastPut (puts ops) entry.key.bytes with
    | some last => rw [hlast] at hkey; cases hkey
    | none =>
      have hnone := List.find?_eq_none.mp hlast entry
        (List.mem_reverse.mpr (hputs ▸ List.mem_cons_self))
      exact hnone (decide_eq_true rfl)
  · rw [hempty, h]
    rfl

/-- One record is put and its worker ends. -/
def oneSession : List ClientOp := [.insert 0 (oneEntry 1), .destroy 0]

theorem run_oneSession :
    ∃ db, run fastFairIndex (createFF 3 (fun _ => {})) oneSession = some db
      ∧ ∀ w, db.logHead w = none := by
  refine ⟨_, rfl, fun w => ?_⟩
  show Function.update (Function.update (fun _ => none) 0 _) 0 none w = none
  by_cases hw : w = 0
  · rw [hw, Function.update_self]
  · rw [Function.update_of_ne hw, Function.update_of_ne hw]

/-- The record of that session does not survive. -/
theorem reopen_oneSession_not_lossless :
    ∃ db, run fastFairIndex (createFF 3 (fun _ => {})) oneSession = some db
      ∧ (∀ w, db.logHead w = none)
      ∧ ∃ db', reopen 3 (fun _ => SegmentBytes.staleSegment.mem) (closeDB db) = some db'
        ∧ ¬ ∀ key : Slice, get fastFairIndex db' key = lastValue (puts oneSession) key.bytes := by
  obtain ⟨db, hrun, hended⟩ := run_oneSession
  obtain ⟨db', hopen, hiff⟩ :=
    reopen_lossless_iff 3 (fun _ => {}) oneSession db hrun hended
      (fun _ => SegmentBytes.staleSegment.mem)
  exact ⟨db, hrun, hended, db', hopen, fun h => absurd (hiff.mp h) (List.cons_ne_nil _ _)⟩

/-- Before the store is closed the record is found, and when it is opened again
it is not. -/
theorem reopen_loses_record :
    ∃ db, run fastFairIndex (createFF 3 (fun _ => {})) oneSession = some db
      ∧ get fastFairIndex db oneKey = .found (oneEntry 1).value
      ∧ ∃ db', reopen 3 (fun _ => SegmentBytes.staleSegment.mem) (closeDB db) = some db'
        ∧ get fastFairIndex db' oneKey = .notFound
        ∧ lastValue (puts oneSession) oneKey.bytes = .found (oneEntry 1).value := by
  obtain ⟨db', hopen, hempty⟩ := reopen_eq 3 _ _
  exact ⟨_, rfl, rfl, db', hopen, hempty oneKey, rfl⟩

end FlatStore
