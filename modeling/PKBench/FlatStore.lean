import PKBench.LogStructured
import PKBench.Machine

/-!
# FlatStore

A FlatStore is a log and an index. `DB::Worker::Put` appends the record to the
worker's segment, closing it and taking a new one when it is full, and then
tells the index where the record is; `Get` asks the index and reads the item
it is sent to. The forks differ in the index: each is given here by what its
adapter makes of `Get` and `Put` (`Index`), and the rest is stated once.

A worker waits in `NewSegment` when no segment is free, so `put` is partial.
With as many free segments as records to come it always returns
(`run_isSome`). What a `Put` leaves behind is one statement (`put_eq_some`):
the record is in the log at the address the index was told, and every item
that was in the log is still there. `run_inv` is the rule by which an invariant
of the history so far is carried over all calls of all clients.
-/

namespace FlatStore

/-- The slice `KVItem::GetKey` returns: behind the key the value can be read. -/
def keySlice (kv : KVItem) : Slice where
  data := kv.key ++ kv.value
  size := kv.key.length
  size_le := by rw [List.length_append]; exact Nat.le_add_right _ _
  word_le := by
    rw [List.length_append]
    exact kv.valSize_ge.trans (Nat.le_add_left _ _)

@[simp] theorem bytes_keySlice (kv : KVItem) : (keySlice kv).bytes = kv.key := List.take_left

/-- **The value of an index entry**: a pointer to an item of the log, or any
other number. -/
inductive ValueType where
  | item (a : Addr)
  | raw (n : ℕ)
  deriving DecidableEq

/-- **What an index adapter does**: the entry of a key, if it has one, and the
index after an entry was put, with the entry reported as replaced. -/
structure Index (σ : Type) where
  get : σ → Slice → Option ValueType
  put : σ → Slice → ValueType → σ × Option ValueType

/-- **The state of a store.** -/
structure DB (σ : Type) where
  log : LogStructured KVItem
  index : σ
  /-- `epoch_map_`. -/
  epochMap : Fin 1024 → UInt64 := fun _ => 0
  /-- `log_head_` of each worker. -/
  logHead : ℕ → Option ℕ := fun _ => none

/-- What `DB::Worker::Get` ends in. -/
inductive Lookup where
  | notFound
  | found (value : List UInt8)
  /-- The entry of the key does not point to an item. -/
  | fault
  deriving DecidableEq

variable {σ : Type} (I : Index σ)

/-! ## Operations -/

/-- `DB::GetKeyEpoch`: the epoch of the key's slot, which is counted on. -/
def getKeyEpoch (db : DB σ) (iKey : UInt64) : UInt32 × DB σ :=
  let idx := Fin.ofNat 1024 iKey.toNat
  ((db.epochMap idx).toUInt32,
    { db with epochMap := Function.update db.epochMap idx (db.epochMap idx + 1) })

/-- The append the loop of `MakeKVItem` tries. -/
def tryAppend (log : LogStructured KVItem) (item : KVItem) (head : Option ℕ) :
    Option (Addr × LogStructured KVItem) :=
  match head with
  | none => none
  | some s => log.append s item.size item

/-- The loop of `MakeKVItem`, which takes a free segment in each round: the
address of the item, the log and the worker's segment. -/
def makeKVItemLoop (item : KVItem) : ℕ → LogStructured KVItem → Option ℕ →
    Option (Addr × LogStructured KVItem × Option ℕ)
  | 0, log, head =>
      match tryAppend log item head with
      | some (a, log) => some (a, log, head)
      | none => none
  | fuel + 1, log, head =>
      match tryAppend log item head with
      | some (a, log) => some (a, log, head)
      | none =>
          match (log.freezeSegment head).newSegment with
          | none => none
          | some (s, log) => makeKVItemLoop item fuel log (some s)

/-- **`DB::Worker::MakeKVItem`.** -/
def makeKVItem (db : DB σ) (w : ℕ) (entry : Entry) : Option (Addr × DB σ) :=
  let (epoch, db) := getKeyEpoch db entry.key.word
  match makeKVItemLoop (entry.item epoch) db.log.freeSegments.length db.log (db.logHead w) with
  | none => none
  | some (a, log, head) =>
      some (a, { db with log := log, logHead := Function.update db.logHead w head })

/-- `DB::Worker::MarkGarbage`, which reads the item for its size. -/
def markGarbage (log : LogStructured KVItem) : ValueType → Option (LogStructured KVItem)
  | .raw _ => none
  | .item a =>
      match log.read a with
      | none => none
      | some kv =>
          some (log.setSegment a.segment ((log.segments a.segment).markGarbage kv.size))

/-- `DB::Worker::UpdateIndex`. -/
def updateIndex (db : DB σ) (key : Slice) (a : Addr) : Option (DB σ) :=
  match I.put db.index key (.item a) with
  | (index, none) => some { db with index := index }
  | (index, some old) =>
      match markGarbage db.log old with
      | none => none
      | some log => some { db with log := log, index := index }

/-- **`DB::Worker::Put`.** -/
def put (db : DB σ) (w : ℕ) (entry : Entry) : Option (DB σ) :=
  match makeKVItem db w entry with
  | none => none
  | some (a, db) => updateIndex I db entry.key a

/-- **`DB::Worker::Get`.** -/
def get (db : DB σ) (key : Slice) : Lookup :=
  match I.get db.index key with
  | none => .notFound
  | some (.raw _) => .fault
  | some (.item a) =>
      match db.log.read a with
      | none => .fault
      | some kv => .found kv.value

theorem get_of_index_none {db : DB σ} {key : Slice} (h : I.get db.index key = none) :
    get I db key = .notFound := by
  rw [get, h]

/-- `DB::Worker::~Worker`. -/
def destroyWorker (db : DB σ) (w : ℕ) : DB σ :=
  { db with
    log := db.log.freezeSegment (db.logHead w)
    logHead := Function.update db.logHead w none }

/-- What clients do. An update is an insert. -/
inductive ClientOp where
  | insert (w : ℕ) (entry : Entry)
  | update (w : ℕ) (entry : Entry)
  | destroy (w : ℕ)

/-- One call of a client. -/
def step (db : DB σ) : ClientOp → Option (DB σ)
  | .insert w entry => put I db w entry
  | .update w entry => put I db w entry
  | .destroy w => some (destroyWorker db w)

/-- Any sequence of calls. -/
def run (db : DB σ) (ops : List ClientOp) : Option (DB σ) := Machine.run (step I) db ops

/-- The record a call writes. -/
def ClientOp.entry? : ClientOp → Option Entry
  | .insert _ entry => some entry
  | .update _ entry => some entry
  | .destroy _ => none

/-- The records a sequence of calls writes. -/
def puts (ops : List ClientOp) : List Entry := ops.filterMap ClientOp.entry?

/-- **The record a last-write-wins map holds**: the last one written under the
key. -/
def lastPut (hist : List Entry) (key : List UInt8) : Option Entry :=
  hist.reverse.find? (fun entry => entry.key.bytes = key)

/-! ## What a `Put` leaves behind -/

/-- **The log as the workers use it**: free segments are empty and listed once,
and no worker appends to one of them. -/
structure Ready (log : LogStructured KVItem) (logHead : ℕ → Option ℕ) : Prop where
  backed : log.Backed
  nodup : log.freeSegments.Nodup
  empty : ∀ s ∈ log.freeSegments, (log.segments s).tail = 0
  head : ∀ w s, logHead w = some s → s ∉ log.freeSegments

/-- The items of one log are those of another at the same addresses. -/
def Keeps (log log' : LogStructured KVItem) : Prop :=
  ∀ (a : Addr) (kv : KVItem), log.itemAt a = some kv → log'.itemAt a = some kv

theorem ready_create (numSegments numCleaners : ℕ) (pool : ℕ → SegmentImage KVItem) :
    Ready (LogStructured.create numSegments numCleaners pool) (fun _ => none) where
  backed := LogStructured.backed_create numSegments numCleaners pool
  nodup := List.nodup_range
  empty s hs := by
    have hlt : s < numSegments - numCleaners := List.mem_range.mp hs
    show LogSegment.tail (if _ then _ else _) = 0
    rw [if_neg (by omega)]
    rfl
  head _ _ h := by cases h

/-- A segment that is not free may be replaced by any other. -/
theorem Ready.setSegment {log : LogStructured KVItem} {logHead : ℕ → Option ℕ}
    (h : Ready log logHead) {s : ℕ} {seg : LogSegment KVItem} (hseg : seg.Backed)
    (hs : s ∉ log.freeSegments) : Ready (log.setSegment s seg) logHead where
  backed := h.backed.setSegment hseg
  nodup := h.nodup
  empty t ht := by
    have hne : t ≠ s := fun he => hs (he ▸ ht)
    rw [LogStructured.segments_setSegment, Function.update_of_ne hne]
    exact h.empty t ht
  head := h.head

/-- Garbage may be counted on any segment. -/
theorem Ready.markGarbage {log : LogStructured KVItem} {logHead : ℕ → Option ℕ}
    (h : Ready log logHead) (s sz : ℕ) :
    Ready (log.setSegment s ((log.segments s).markGarbage sz)) logHead where
  backed := h.backed.setSegment ((h.backed s).markGarbage sz)
  nodup := h.nodup
  empty t ht := by
    rw [LogStructured.segments_setSegment]
    by_cases hts : t = s
    · subst hts
      rw [Function.update_self]
      exact h.empty t ht
    · rw [Function.update_of_ne hts]
      exact h.empty t ht
  head := h.head

theorem Ready.freezeSegment {log : LogStructured KVItem} {logHead : ℕ → Option ℕ}
    (h : Ready log logHead) {old : Option ℕ} (hold : ∀ s, old = some s → s ∉ log.freeSegments) :
    Ready (log.freezeSegment old) logHead := by
  rcases log.freezeSegment_cases old with hf | ⟨s, rfl, hf⟩
  · rw [hf]
    exact h
  · rw [hf]
    have hclose : (log.segments s).close.Backed := (h.backed s).close
    have hset := h.setSegment hclose (hold s rfl)
    exact ⟨hset.backed, hset.nodup, hset.empty, hset.head⟩

/-- **A segment taken from the queue** is empty and nobody's head, and becomes
the head of the worker that took it. -/
theorem Ready.newSegment {log log' : LogStructured KVItem} {logHead : ℕ → Option ℕ}
    (h : Ready log logHead) {s : ℕ} (hnew : log.newSegment = some (s, log')) (w : ℕ) :
    Ready log' (Function.update logHead w (some s)) ∧ (log'.segments s).tail = 0
      ∧ log.freeSegments = s :: log'.freeSegments := by
  obtain ⟨rest, hfree, rfl⟩ := LogStructured.newSegment_eq_some hnew
  have hnodup := h.nodup
  rw [hfree] at hnodup
  obtain ⟨hnot, hrest⟩ := List.nodup_cons.mp hnodup
  have hmem : ∀ t ∈ rest, t ∈ log.freeSegments := fun t ht => hfree ▸ List.mem_cons_of_mem s ht
  refine ⟨⟨?_, hrest, ?_, ?_⟩, ?_, hfree⟩
  · exact h.backed.setSegment ((h.backed s).startUsing true true)
  · intro t ht
    have hne : t ≠ s := fun he => hnot (he ▸ ht)
    show (Function.update log.segments s _ t).tail = 0
    rw [Function.update_of_ne hne]
    exact h.empty t (hmem t ht)
  · intro v t hv
    by_cases hvw : v = w
    · subst hvw
      rw [Function.update_self] at hv
      exact Option.some.inj hv ▸ hnot
    · rw [Function.update_of_ne hvw] at hv
      exact fun ht => h.head v t hv (hmem t ht)
  · show (Function.update log.segments s _ s).tail = 0
    rw [Function.update_self]
    exact h.empty s (hfree ▸ List.mem_cons_self)

/-- Appending to a segment that is not free. -/
theorem Ready.append {log log' : LogStructured KVItem} {logHead : ℕ → Option ℕ}
    (h : Ready log logHead) {s : ℕ} {item : KVItem} {a : Addr} (hs : s ∉ log.freeSegments)
    (happ : log.append s item.size item = some (a, log')) :
    Ready log' logHead ∧ log'.freeSegments = log.freeSegments
      ∧ log'.itemAt a = some item ∧ Keeps log log' := by
  obtain ⟨hb', hitem, hkeep⟩ := LogStructured.itemAt_append h.backed happ
  obtain ⟨seg, hseg, rfl, rfl⟩ := LogStructured.append_eq_some h.backed happ
  obtain ⟨-, -, -, hsb, -⟩ := LogSegment.append_eq_some (h.backed s) hseg
  exact ⟨h.setSegment hsb hs, rfl, hitem, hkeep⟩

/-- The head of a worker is no free segment, also when it is looked at alone. -/
theorem Ready.update_head {log : LogStructured KVItem} {logHead : ℕ → Option ℕ}
    (h : Ready log logHead) {w s : ℕ} (hs : logHead w = some s) :
    Ready log (Function.update logHead w (some s)) := by
  rw [← hs, Function.update_eq_self]
  exact h

/-- A segment taken from the queue has room for any item. -/
theorem tryAppend_newSegment {log log' : LogStructured KVItem} {logHead : ℕ → Option ℕ}
    (h : Ready log logHead) {s : ℕ} (hnew : log.newSegment = some (s, log')) (item : KVItem) :
    ∃ r, tryAppend log' item (some s) = some r := by
  obtain ⟨-, htail, -⟩ := h.newSegment hnew 0
  have hspace : (log'.segments s).hasSpaceFor item.size := by
    rw [LogSegment.hasSpaceFor, htail, Nat.zero_add]
    exact item.size_le_segmentDataSize
  obtain ⟨r, hr⟩ := Option.isSome_iff_exists.mp (LogSegment.append_isSome item hspace)
  exact ⟨_, by rw [tryAppend, LogStructured.append, hr]⟩

/-- **The loop of `MakeKVItem` makes at most one round**: the item goes into the
worker's segment, or else into the first free one. -/
theorem makeKVItemLoop_cases {item : KVItem} {fuel : ℕ} {log log' : LogStructured KVItem}
    {logHead : ℕ → Option ℕ} {w : ℕ} {a : Addr} {head : Option ℕ} (h : Ready log logHead)
    (hloop : makeKVItemLoop item fuel log (logHead w) = some (a, log', head)) :
    (∃ s, logHead w = some s ∧ head = some s ∧ log.append s item.size item = some (a, log'))
      ∨ ∃ s log₁, (log.freezeSegment (logHead w)).newSegment = some (s, log₁)
        ∧ head = some s ∧ log₁.append s item.size item = some (a, log') := by
  -- an append that is tried on a head and succeeds ends the loop
  have hdirect : ∀ {hd : Option ℕ} {l l' : LogStructured KVItem} {b : Addr},
      tryAppend l item hd = some (b, l') →
        ∃ s, hd = some s ∧ l.append s item.size item = some (b, l') := by
    intro hd l l' b htry
    cases hd with
    | none => cases htry
    | some s => exact ⟨s, rfl, htry⟩
  cases htry : tryAppend log item (logHead w) with
  | some r =>
    obtain ⟨b, l⟩ := r
    obtain ⟨s, hs, happ⟩ := hdirect htry
    have heq : some (b, l, logHead w) = some (a, log', head) := by
      rw [← hloop]
      cases fuel with
      | zero => rw [makeKVItemLoop, htry]
      | succ n => rw [makeKVItemLoop, htry]
    obtain ⟨rfl, hrest⟩ := Prod.mk.inj (Option.some.inj heq)
    obtain ⟨rfl, rfl⟩ := Prod.mk.inj hrest
    exact Or.inl ⟨s, hs, hs, happ⟩
  | none =>
    cases fuel with
    | zero => rw [makeKVItemLoop, htry] at hloop; cases hloop
    | succ n =>
      rw [makeKVItemLoop, htry] at hloop
      cases hnew : (log.freezeSegment (logHead w)).newSegment with
      | none => rw [hnew] at hloop; cases hloop
      | some r =>
        obtain ⟨s, log₁⟩ := r
        rw [hnew] at hloop
        obtain ⟨⟨b, l⟩, htry₁⟩ := tryAppend_newSegment (h.freezeSegment (h.head w)) hnew item
        have heq : some (b, l, some s) = some (a, log', head) := by
          rw [← hloop]
          cases n with
          | zero => simp only [makeKVItemLoop, htry₁]
          | succ n => simp only [makeKVItemLoop, htry₁]
        obtain ⟨rfl, hrest⟩ := Prod.mk.inj (Option.some.inj heq)
        obtain ⟨rfl, rfl⟩ := Prod.mk.inj hrest
        exact Or.inr ⟨s, log₁, rfl, rfl, htry₁⟩

/-- **What the loop of `MakeKVItem` leaves behind.** -/
theorem makeKVItemLoop_spec {item : KVItem} {fuel : ℕ} {log log' : LogStructured KVItem}
    {logHead : ℕ → Option ℕ} {w : ℕ} {a : Addr} {head : Option ℕ} (h : Ready log logHead)
    (hloop : makeKVItemLoop item fuel log (logHead w) = some (a, log', head)) :
    Ready log' (Function.update logHead w head)
      ∧ log.freeSegments.length ≤ log'.freeSegments.length + 1
      ∧ log'.itemAt a = some item ∧ Keeps log log' := by
  rcases makeKVItemLoop_cases h hloop with ⟨s, hs, rfl, happ⟩ | ⟨s, log₁, hnew, rfl, happ⟩
  · obtain ⟨hr, hfree, hitem, hkeep⟩ := (h.update_head hs).append (h.head w s hs) happ
    exact ⟨hr, by rw [hfree]; exact Nat.le_succ _, hitem, hkeep⟩
  · have hfrozen := h.freezeSegment (h.head w)
    obtain ⟨hr₁, -, hfree₁⟩ := hfrozen.newSegment hnew w
    obtain ⟨hr, hfree, hitem, hkeep⟩ :=
      hr₁.append (hr₁.head w s (Function.update_self w _ _)) happ
    rw [LogStructured.freeSegments_freezeSegment] at hfree₁
    refine ⟨hr, by rw [hfree₁, hfree, List.length_cons], hitem, fun b kv hb => hkeep b kv ?_⟩
    rw [LogStructured.itemAt_newSegment hnew, LogStructured.itemAt_freezeSegment]
    exact hb

/-- With a free segment the loop returns. -/
theorem makeKVItemLoop_isSome {item : KVItem} {log : LogStructured KVItem}
    {logHead : ℕ → Option ℕ} {w : ℕ} (h : Ready log logHead) (hfree : log.freeSegments ≠ []) :
    (makeKVItemLoop item log.freeSegments.length log (logHead w)).isSome := by
  obtain ⟨s, rest, hcons⟩ := List.exists_cons_of_ne_nil hfree
  rw [hcons, List.length_cons, makeKVItemLoop]
  cases htry : tryAppend log item (logHead w) with
  | some r => rfl
  | none =>
    cases hnew : (log.freezeSegment (logHead w)).newSegment with
    | none =>
      rw [LogStructured.newSegment, LogStructured.freeSegments_freezeSegment, hcons] at hnew
      cases hnew
    | some r =>
      obtain ⟨t, log₁⟩ := r
      obtain ⟨r, htry₁⟩ := tryAppend_newSegment (h.freezeSegment (h.head w)) hnew item
      cases rest with
      | nil => simp only [List.length_nil, makeKVItemLoop, htry₁, Option.isSome_some]
      | cons u us => simp only [List.length_cons, makeKVItemLoop, htry₁, Option.isSome_some]

/-! ## Calls -/

/-- A store whose log is as the workers use it. -/
def DB.Ready (db : DB σ) : Prop := FlatStore.Ready db.log db.logHead

/-- The items of a store are those of another at the same addresses. -/
def DB.Keeps (db db' : DB σ) : Prop := FlatStore.Keeps db.log db'.log

theorem markGarbage_eq_some {log log' : LogStructured KVItem} {v : ValueType}
    (h : markGarbage log v = some log') :
    ∃ s sz, log' = log.setSegment s ((log.segments s).markGarbage sz) := by
  cases v with
  | raw n => cases h
  | item a =>
    unfold markGarbage at h
    cases hread : log.read a with
    | none => simp only [hread] at h; cases h
    | some kv =>
      simp only [hread] at h
      cases h
      exact ⟨_, _, rfl⟩

/-- **What `UpdateIndex` leaves behind.** -/
theorem updateIndex_eq_some {db db' : DB σ} {key : Slice} {a : Addr}
    (hup : updateIndex I db key a = some db') (h : db.Ready) :
    db'.Ready ∧ db'.log.freeSegments = db.log.freeSegments
      ∧ db'.index = (I.put db.index key (.item a)).1
      ∧ ∀ b, db'.log.itemAt b = db.log.itemAt b := by
  unfold updateIndex at hup
  cases hput : I.put db.index key (.item a) with
  | mk index old =>
    rw [hput] at hup
    cases old with
    | none =>
      cases hup
      exact ⟨h, rfl, rfl, fun _ => rfl⟩
    | some v =>
      cases hmark : markGarbage db.log v with
      | none => simp only [hmark] at hup; cases hup
      | some log =>
        simp only [hmark] at hup
        cases hup
        obtain ⟨s, sz, rfl⟩ := markGarbage_eq_some hmark
        exact ⟨FlatStore.Ready.markGarbage h s sz, rfl, rfl,
          LogStructured.itemAt_setSegment (LogSegment.items_markGarbage _ _)⟩

/-- **What a `Put` leaves behind**: the record is in the log at the address the
index was told, and every item that was in the log is still there. -/
theorem put_eq_some {db db' : DB σ} {w : ℕ} {entry : Entry} (h : db.Ready)
    (hput : put I db w entry = some db') :
    db'.Ready ∧ db.log.freeSegments.length ≤ db'.log.freeSegments.length + 1 ∧ db.Keeps db'
      ∧ ∃ a kv, db'.log.itemAt a = some kv ∧ kv.key = entry.key.bytes ∧ kv.value = entry.value
        ∧ db'.index = (I.put db.index entry.key (.item a)).1 := by
  unfold put makeKVItem at hput
  simp only [getKeyEpoch] at hput
  generalize hitem : entry.item _ = item at hput
  cases hloop : makeKVItemLoop item db.log.freeSegments.length db.log (db.logHead w) with
  | none => rw [hloop] at hput; cases hput
  | some r =>
    obtain ⟨a, log, head⟩ := r
    rw [hloop] at hput
    obtain ⟨hr, hfree, hat, hkeep⟩ := makeKVItemLoop_spec h hloop
    obtain ⟨hr', hfree', hindex, hsame⟩ := updateIndex_eq_some I hput hr
    refine ⟨hr', ?_, ?_, a, item, ?_, ?_, ?_, hindex⟩
    · rw [hfree']
      exact hfree
    · intro b kv hb
      rw [hsame]
      exact hkeep b kv hb
    · rw [hsame]
      exact hat
    · rw [← hitem]
      rfl
    · rw [← hitem]
      rfl

/-- Destroying a worker keeps every item. -/
theorem destroyWorker_spec {db : DB σ} (h : db.Ready) (w : ℕ) :
    (destroyWorker db w).Ready
      ∧ (destroyWorker db w).log.freeSegments = db.log.freeSegments
      ∧ ∀ a, (destroyWorker db w).log.itemAt a = db.log.itemAt a := by
  have hfrozen := FlatStore.Ready.freezeSegment h (h.head w)
  refine ⟨⟨hfrozen.backed, hfrozen.nodup, hfrozen.empty, fun v s hv => ?_⟩,
    LogStructured.freeSegments_freezeSegment _ _, LogStructured.itemAt_freezeSegment _ _⟩
  by_cases hvw : v = w
  · subst hvw
    rw [show (destroyWorker db v).logHead v = none from Function.update_self _ _ _] at hv
    cases hv
  · rw [show (destroyWorker db w).logHead v = db.logHead v from Function.update_of_ne hvw _ _] at hv
    exact hfrozen.head v s hv

/-- A call is a `Put` of one record, or the end of a worker. -/
theorem step_cases {db db' : DB σ} {op : ClientOp} (h : step I db op = some db') :
    (∃ w entry, op.entry? = some entry ∧ put I db w entry = some db')
      ∨ ∃ w, op.entry? = none ∧ db' = destroyWorker db w := by
  cases op with
  | insert w entry => exact Or.inl ⟨w, entry, rfl, h⟩
  | update w entry => exact Or.inl ⟨w, entry, rfl, h⟩
  | destroy w => exact Or.inr ⟨w, rfl, (Option.some.inj h).symm⟩

theorem puts_concat (ops : List ClientOp) (op : ClientOp) :
    puts (ops ++ [op]) = puts ops ++ op.entry?.toList := by
  rw [puts, List.filterMap_append, ← puts]
  cases h : op.entry? with
  | none => rw [List.filterMap_cons_none h]; rfl
  | some entry => rw [List.filterMap_cons_some h]; rfl

/-- **The rule of runs**: what holds of the records written so far and the
store, and is kept by every `Put` and every end of a worker, holds after any
sequence of calls. -/
theorem run_inv {P : List Entry → DB σ → Prop}
    (hput : ∀ hist db w entry db', db.Ready → P hist db → put I db w entry = some db' →
      P (hist ++ [entry]) db')
    (hdestroy : ∀ hist db w, db.Ready → P hist db → P hist (destroyWorker db w))
    {ops : List ClientOp} {db db' : DB σ} (hr : db.Ready) (hP : P [] db)
    (hrun : run I db ops = some db') : db'.Ready ∧ P (puts ops) db' := by
  refine Machine.run_inv (P := fun past db => db.Ready ∧ P (puts past) db) (step I)
    ?_ (show db.Ready ∧ P (puts []) db from ⟨hr, hP⟩) hrun
  rintro past db op db' ⟨hr, hP⟩ hstep
  rw [puts_concat]
  rcases step_cases I hstep with ⟨w, entry, hop, hp⟩ | ⟨w, hop, rfl⟩
  · rw [hop]
    exact ⟨(put_eq_some I hr hp).1, hput _ db w entry db' hr hP hp⟩
  · rw [hop, Option.toList_none, List.append_nil]
    exact ⟨(destroyWorker_spec hr w).1, hdestroy _ db w hr hP⟩

/-- A `Put` returns if a segment is free and the entry that is replaced, if the
index reports one, can be read. -/
theorem put_isSome {db : DB σ} (h : db.Ready) (hfree : db.log.freeSegments ≠ []) (w : ℕ)
    (entry : Entry) (hup : ∀ db₁ : DB σ, db₁.index = db.index → db.Keeps db₁ →
      ∀ a, (updateIndex I db₁ entry.key a).isSome) : (put I db w entry).isSome := by
  unfold put makeKVItem
  simp only [getKeyEpoch]
  generalize entry.item _ = item
  cases hloop : makeKVItemLoop item db.log.freeSegments.length db.log (db.logHead w) with
  | none =>
    have hsome := @makeKVItemLoop_isSome item _ _ w h hfree
    rw [hloop] at hsome
    cases hsome
  | some r =>
    show (updateIndex I _ entry.key r.1).isSome
    refine hup _ ?_ ?_ r.1
    · rfl
    · exact (makeKVItemLoop_spec h hloop).2.2.2

end FlatStore
