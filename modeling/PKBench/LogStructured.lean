import PKBench.LogSegment
import Mathlib.Logic.Function.Basic

/-!
# The log

`LogStructured` owns the segments: all of them by number, the queue of free
ones, the lists of closed ones – one for each cleaner, by the residue of the
segment's number – and, for each cleaner, the segment it compacts into and the
one it keeps in reserve. The constructor maps the pool file, constructs a
`LogSegment` on every part of it and hands the last ones to the cleaners.

Taking a segment from the queue, appending to one, closing one: each operation
changes one segment, and what is proved about it is what happens to the items
in front of the tails (`itemAt`).
-/

/-- **The log.** A cleaner's `reserved` segment is the one it appends to, its
`backup` an empty one. -/
structure LogStructured (α : Type) where
  numSegments : ℕ
  numCleaners : ℕ
  /-- `all_segments_`. -/
  segments : ℕ → LogSegment α
  freeSegments : List ℕ
  /-- The closed segments of each cleaner. -/
  closedSegments : ℕ → List ℕ
  reserved : ℕ → Option ℕ
  backup : ℕ → Option ℕ

namespace LogStructured

variable {α : Type}

/-- **`LogStructured::LogStructured`** on the pool: every segment is constructed
with `init` set, and the last `numCleaners` are taken into use by a cleaner
each. -/
def create (numSegments numCleaners : ℕ) (pool : ℕ → SegmentImage α) : LogStructured α where
  numSegments := numSegments
  numCleaners := numCleaners
  segments i :=
    if numSegments - numCleaners ≤ i ∧ i < numSegments then
      (LogSegment.new (pool i)).startUsing false false
    else LogSegment.new (pool i)
  freeSegments := List.range (numSegments - numCleaners)
  closedSegments _ := []
  reserved j := if numSegments - numCleaners + j < numSegments then
    some (numSegments - numCleaners + j) else none
  backup _ := none

/-- One segment changes. -/
def setSegment (log : LogStructured α) (s : ℕ) (seg : LogSegment α) : LogStructured α :=
  { log with segments := Function.update log.segments s seg }

@[simp] theorem segments_setSegment (log : LogStructured α) (s : ℕ) (seg : LogSegment α) :
    (log.setSegment s seg).segments = Function.update log.segments s seg := rfl

/-- `LogStructured::NewSegment` for a worker: the front of the queue. With an
empty queue the call waits, and there is no result. -/
def newSegment (log : LogStructured α) : Option (ℕ × LogStructured α) :=
  match log.freeSegments with
  | [] => none
  | s :: rest =>
      some (s, { log.setSegment s ((log.segments s).startUsing true true) with
        freeSegments := rest })

/-- `LogStructured::AddClosedSegment`. -/
def addClosedSegment (log : LogStructured α) (s : ℕ) : LogStructured α :=
  let j := s % log.numCleaners
  { log with
    closedSegments := Function.update log.closedSegments j (log.closedSegments j ++ [s]) }

/-- `LogStructured::FreezeSegment`. -/
def freezeSegment (log : LogStructured α) (old : Option ℕ) : LogStructured α :=
  match old with
  | none => log
  | some s =>
      if log.numCleaners > 0 then
        (log.setSegment s (log.segments s).close).addClosedSegment s
      else log

/-- A cleaner closes the segment it appends to, and has none. -/
def releaseReserved (log : LogStructured α) (j : ℕ) : LogStructured α :=
  { log.freezeSegment (log.reserved j) with reserved := Function.update log.reserved j none }

/-- `LogCleaner::FreezeReservedAndGetNew`: the segment kept in reserve becomes
the one to append to. It is asserted that there is one. -/
def freezeReservedAndGetNew (log : LogStructured α) (j : ℕ) : Option (LogStructured α) :=
  match log.backup j with
  | none => none
  | some b =>
      let log := log.releaseReserved j
      some { log.setSegment b ((log.segments b).startUsing false false) with
        reserved := Function.update log.reserved j (some b)
        backup := Function.update log.backup j none }

/-- `LogCleaner::~LogCleaner`: its segment is closed, the one in reserve is
freed. -/
def destroyCleaner (log : LogStructured α) (j : ℕ) : LogStructured α :=
  let log := log.releaseReserved j
  { log with
    freeSegments := log.freeSegments ++ (log.backup j).toList
    backup := Function.update log.backup j none }

/-- All cleaners are destroyed. -/
def destroyCleaners (log : LogStructured α) : LogStructured α :=
  (List.range log.numCleaners).foldl destroyCleaner log

/-- The end of `LogCleaner::CompactSegment`: the segment is cleared and kept in
reserve, or freed if there is one in reserve. -/
def retire (log : LogStructured α) (j s : ℕ) : LogStructured α :=
  match log.backup j with
  | none =>
      { log.setSegment s (log.segments s).clear with
        backup := Function.update log.backup j (some s) }
  | some _ =>
      { log.setSegment s (log.segments s).clear with
        freeSegments := log.freeSegments ++ [s] }

/-- Appending an item to a segment of the log. -/
def append (log : LogStructured α) (s sz : ℕ) (item : α) : Option (Addr × LogStructured α) :=
  match (log.segments s).append sz item with
  | none => none
  | some (pos, seg) => some (⟨s, pos⟩, log.setSegment s seg)

/-- The item a pointer into the pool points to. -/
def read (log : LogStructured α) (a : Addr) : Option α := (log.segments a.segment).data[a.position]?

/-! ## Items -/

/-- The item in front of the tail of its segment at an address. -/
def itemAt (log : LogStructured α) (a : Addr) : Option α :=
  (log.segments a.segment).items[a.position]?

/-- The items of every segment are in the pool. -/
def Backed (log : LogStructured α) : Prop := ∀ s, (log.segments s).Backed

theorem read_of_itemAt {log : LogStructured α} {a : Addr} {item : α}
    (h : log.itemAt a = some item) : log.read a = some item := by
  rw [itemAt, LogSegment.items, List.getElem?_take] at h
  by_cases hlt : a.position < (log.segments a.segment).curCnt
  · rw [if_pos hlt] at h
    exact h
  · rw [if_neg hlt] at h
    cases h

theorem backed_create (numSegments numCleaners : ℕ) (pool : ℕ → SegmentImage α) :
    (create numSegments numCleaners pool).Backed := by
  intro s
  show LogSegment.Backed (if _ then _ else _)
  by_cases h : numSegments - numCleaners ≤ s ∧ s < numSegments
  · rw [if_pos h]
    exact LogSegment.backed_new _
  · rw [if_neg h]
    exact LogSegment.backed_new _

theorem Backed.setSegment {log : LogStructured α} {s : ℕ} {seg : LogSegment α}
    (h : log.Backed) (hs : seg.Backed) : (log.setSegment s seg).Backed := by
  intro t
  rw [segments_setSegment]
  by_cases ht : t = s
  · subst ht
    rw [Function.update_self]
    exact hs
  · rw [Function.update_of_ne ht]
    exact h t

/-- A segment may be replaced by one with the same items. -/
theorem itemAt_setSegment {log : LogStructured α} {s : ℕ} {seg : LogSegment α}
    (h : seg.items = (log.segments s).items) (a : Addr) :
    (log.setSegment s seg).itemAt a = log.itemAt a := by
  unfold itemAt
  rw [segments_setSegment]
  by_cases ha : a.segment = s
  · rw [ha, Function.update_self, h]
  · rw [Function.update_of_ne ha]

/-- **What `newSegment` does**: it takes the front of the queue and puts it into
use. -/
theorem newSegment_eq_some {log log' : LogStructured α} {s : ℕ}
    (h : log.newSegment = some (s, log')) :
    ∃ rest, log.freeSegments = s :: rest
      ∧ log' = { log.setSegment s ((log.segments s).startUsing true true) with
          freeSegments := rest } := by
  unfold newSegment at h
  cases hf : log.freeSegments with
  | nil => rw [hf] at h; cases h
  | cons t rest =>
    rw [hf] at h
    obtain ⟨rfl, rfl⟩ := Prod.mk.inj (Option.some.inj h)
    exact ⟨rest, rfl, rfl⟩

theorem itemAt_newSegment {log log' : LogStructured α} {s : ℕ}
    (h : log.newSegment = some (s, log')) (a : Addr) : log'.itemAt a = log.itemAt a := by
  obtain ⟨rest, -, rfl⟩ := newSegment_eq_some h
  exact itemAt_setSegment (LogSegment.items_startUsing _ _ _) a

theorem Backed.newSegment {log log' : LogStructured α} {s : ℕ} (hb : log.Backed)
    (h : log.newSegment = some (s, log')) : log'.Backed := by
  obtain ⟨rest, -, rfl⟩ := newSegment_eq_some h
  exact hb.setSegment ((hb s).startUsing true true)

/-- With a cleaner there is a list to put a closed segment on. -/
theorem freezeSegment_some {log : LogStructured α} (hc : 0 < log.numCleaners) (s : ℕ) :
    log.freezeSegment (some s)
      = (log.setSegment s (log.segments s).close).addClosedSegment s := if_pos hc

/-- **What `freezeSegment` does**: nothing, without a segment or without a
cleaner, or it closes the segment. -/
theorem freezeSegment_cases (log : LogStructured α) (old : Option ℕ) :
    log.freezeSegment old = log
      ∨ ∃ s, old = some s ∧ log.freezeSegment old
        = (log.setSegment s (log.segments s).close).addClosedSegment s := by
  cases old with
  | none => exact Or.inl rfl
  | some s =>
    by_cases hc : 0 < log.numCleaners
    · exact Or.inr ⟨s, rfl, freezeSegment_some hc s⟩
    · exact Or.inl (if_neg hc)

/-- **Closing a segment keeps every item.** -/
theorem itemAt_freezeSegment (log : LogStructured α) (old : Option ℕ) (a : Addr) :
    (log.freezeSegment old).itemAt a = log.itemAt a := by
  rcases log.freezeSegment_cases old with h | ⟨s, -, h⟩
  · rw [h]
  · rw [h]
    exact itemAt_setSegment (LogSegment.items_close _) a

theorem Backed.freezeSegment {log : LogStructured α} (hb : log.Backed) (old : Option ℕ) :
    (log.freezeSegment old).Backed := by
  rcases log.freezeSegment_cases old with h | ⟨s, -, h⟩
  · rw [h]
    exact hb
  · rw [h]
    exact hb.setSegment (hb s).close

@[simp] theorem freeSegments_freezeSegment (log : LogStructured α) (old : Option ℕ) :
    (log.freezeSegment old).freeSegments = log.freeSegments := by
  rcases log.freezeSegment_cases old with h | ⟨s, -, h⟩
  · rw [h]
  · rw [h]
    rfl

@[simp] theorem numSegments_freezeSegment (log : LogStructured α) (old : Option ℕ) :
    (log.freezeSegment old).numSegments = log.numSegments := by
  rcases log.freezeSegment_cases old with h | ⟨s, -, h⟩
  · rw [h]
  · rw [h]
    rfl

@[simp] theorem backup_freezeSegment (log : LogStructured α) (old : Option ℕ) :
    (log.freezeSegment old).backup = log.backup := by
  rcases log.freezeSegment_cases old with h | ⟨s, -, h⟩
  · rw [h]
  · rw [h]
    rfl

/-- A cleaner without a segment closes none. -/
theorem releaseReserved_of_none {log : LogStructured α} {j : ℕ} (h : log.reserved j = none) :
    log.releaseReserved j = log := by
  have hupdate : Function.update log.reserved j none = log.reserved :=
    h ▸ Function.update_eq_self j log.reserved
  unfold releaseReserved
  rw [hupdate, h]
  rfl

theorem releaseReserved_of_some {log : LogStructured α} (hc : 0 < log.numCleaners) {j s : ℕ}
    (h : log.reserved j = some s) :
    log.releaseReserved j
      = { (log.setSegment s (log.segments s).close).addClosedSegment s with
          reserved := Function.update log.reserved j none } := by
  unfold releaseReserved
  rw [h, freezeSegment_some hc]

theorem retire_of_none {log : LogStructured α} {j : ℕ} (h : log.backup j = none) (s : ℕ) :
    log.retire j s = { log.setSegment s (log.segments s).clear with
      backup := Function.update log.backup j (some s) } := by
  rw [retire, h]

theorem retire_of_some {log : LogStructured α} {j b : ℕ} (h : log.backup j = some b) (s : ℕ) :
    log.retire j s = { log.setSegment s (log.segments s).clear with
      freeSegments := log.freeSegments ++ [s] } := by
  rw [retire, h]

/-- Whatever becomes of it, a segment that is retired is cleared. -/
theorem segments_retire (log : LogStructured α) (j s : ℕ) :
    (log.retire j s).segments = Function.update log.segments s (log.segments s).clear := by
  cases h : log.backup j with
  | none => rw [retire_of_none h]; rfl
  | some b => rw [retire_of_some h]; rfl

/-- **What an append to the log does**: the segment had room and is replaced by
one with the item behind the others. -/
theorem append_eq_some {log log' : LogStructured α} {s sz : ℕ} {item : α} {a : Addr}
    (hb : log.Backed) (h : log.append s sz item = some (a, log')) :
    ∃ seg, (log.segments s).append sz item = some ((log.segments s).items.length, seg)
      ∧ a = ⟨s, (log.segments s).items.length⟩ ∧ log' = log.setSegment s seg := by
  unfold append at h
  cases hseg : (log.segments s).append sz item with
  | none => rw [hseg] at h; cases h
  | some r =>
    obtain ⟨pos, seg⟩ := r
    rw [hseg] at h
    obtain ⟨rfl, rfl⟩ := Prod.mk.inj (Option.some.inj h)
    obtain ⟨-, rfl, -⟩ := LogSegment.append_eq_some (hb s) hseg
    exact ⟨seg, rfl, rfl, rfl⟩

/-- **An append puts the item at its address, and the others stay where they
are.** -/
theorem itemAt_append {log log' : LogStructured α} {s sz : ℕ} {item : α} {a : Addr}
    (hb : log.Backed) (h : log.append s sz item = some (a, log')) :
    log'.Backed ∧ log'.itemAt a = some item
      ∧ ∀ (b : Addr) (y : α), log.itemAt b = some y → log'.itemAt b = some y := by
  obtain ⟨seg, hseg, rfl, rfl⟩ := append_eq_some hb h
  obtain ⟨-, -, hitems, hb', -⟩ := LogSegment.append_eq_some (hb s) hseg
  refine ⟨hb.setSegment hb', ?_, fun b y hy => ?_⟩
  · show (Function.update log.segments s seg s).items[(log.segments s).items.length]? = _
    rw [Function.update_self, hitems, List.getElem?_concat_length]
  · show (Function.update log.segments s seg b.segment).items[b.position]? = _
    by_cases hs : b.segment = s
    · rw [hs, Function.update_self, hitems]
      have hy' : (log.segments s).items[b.position]? = some y := hs ▸ hy
      obtain ⟨hlt, -⟩ := List.getElem?_eq_some_iff.mp hy'
      rw [List.getElem?_append_left hlt]
      exact hy'
    · rw [Function.update_of_ne hs]
      exact hy

end LogStructured
