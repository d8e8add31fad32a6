import PKBench.ByteBuffer

/-!
# The segments of the log

FlatStore keeps its records in a pool of segments of four megabytes. A segment
has a header – its status and where its items end – and behind it the items,
one after the other: each a small header with the two sizes and the epoch, then
the bytes of the key and of the value. A worker appends at the tail; a segment
that is closed has an empty item written behind the last one, where there is
room for it, so that a later walk knows where to stop.

The model is one level above the bytes. The items of a segment are a list, and
the address of an item is the number of its segment and its position there
(`Addr`); positions grow with the byte offsets they stand for. What is in the
pool file is kept apart from what is in memory (`SegmentImage`, `LogSegment`):
`init` and `clear` move the tail back to the start and leave the items in the
file where they are, and it is the next append, or the empty item `close`
writes, that takes them out of reach of a walk. What a closed segment holds for
a walk over its bytes is the matter of `SegmentBytes`, which also says when the
list is exact. The configuration is the one the wrappers are built in: no
shortcuts, no batching, no tombstones.
-/

open ByteBuffer

/-! ## Keys and items -/

/-- **A slice**: a pointer and a size. Through the pointer more may be read than
the size says, and FlatStore reads the first eight bytes of a key whatever its
size. -/
structure Slice where
  /-- The bytes that can be read from the pointer on. -/
  data : List UInt8
  size : ℕ
  size_le : size ≤ data.length
  word_le : 8 ≤ data.length

namespace Slice

/-- The bytes of the slice. -/
def bytes (s : Slice) : List UInt8 := s.data.take s.size

/-- `*(uint64_t *)key.data()` on a little-endian machine. -/
def word (s : Slice) : UInt64 := UInt64.ofNat (leNat (s.data.take 8))

@[simp] theorem length_bytes (s : Slice) : s.bytes.length = s.size := by
  rw [bytes, List.length_take, Nat.min_eq_left s.size_le]

end Slice

/-- **A log item.** The sizes fit the fields that hold them, fifteen and
sixteen bits, and the constructor asserts that a value has eight bytes or
more. -/
structure KVItem where
  key : List UInt8
  value : List UInt8
  epoch : UInt32
  keySize_lt : key.length < 2 ^ 15
  valSize_ge : 8 ≤ value.length
  valSize_lt : value.length < 2 ^ 16

namespace KVItem

/-- `sizeof(KVItem)`, the item without key and value. -/
def headerSize : ℕ := 8

/-- The bytes an item takes in the log. -/
def size (kv : KVItem) : ℕ := headerSize + kv.key.length + kv.value.length

end KVItem

/-- **What `Put` is handed**: a key and a value whose sizes fit an item. -/
structure Entry where
  key : Slice
  value : List UInt8
  keySize_lt : key.size < 2 ^ 15
  valSize_ge : 8 ≤ value.length
  valSize_lt : value.length < 2 ^ 16

/-- The constructor of `KVItem`. -/
def Entry.item (entry : Entry) (epoch : UInt32) : KVItem where
  key := entry.key.bytes
  value := entry.value
  epoch := epoch
  keySize_lt := by rw [Slice.length_bytes]; exact entry.keySize_lt
  valSize_ge := entry.valSize_ge
  valSize_lt := entry.valSize_lt

/-- A key of eight bytes. -/
def oneKey : Slice where
  data := [1, 0, 0, 0, 0, 0, 0, 0]
  size := 8
  size_le := by decide
  word_le := by decide

/-- Its record with eight times the byte `b` for a value. -/
def oneEntry (b : UInt8) : Entry where
  key := oneKey
  value := List.replicate 8 b
  keySize_lt := by decide
  valSize_ge := by rw [List.length_replicate]
  valSize_lt := by rw [List.length_replicate]; decide

/-- Where an item lies in the log. -/
structure Addr where
  segment : ℕ
  position : ℕ
  deriving DecidableEq

/-! ## A segment -/

/-- `SEGMENT_SIZE`. -/
def segmentSize : ℕ := 4 <<< 20

/-- `HEADERS_SIZE`. -/
def headersSize : ℕ := 256

/-- `SEGMENT_DATA_SIZE`. -/
def segmentDataSize : ℕ := segmentSize - headersSize

/-- Any item fits into an empty segment. -/
theorem KVItem.size_le_segmentDataSize (kv : KVItem) : kv.size ≤ segmentDataSize := by
  have hk := kv.keySize_lt
  have hv := kv.valSize_lt
  have hd : segmentDataSize = 4194048 := by decide
  rw [hd, size, headerSize]
  omega

/-- The status in a segment's header. -/
inductive SegmentStatus where
  | available
  | inUse
  | closed
  deriving DecidableEq, Repr

/-- **A segment in the pool file**: the fields of its header, and the items a
walk from the start of its data finds. -/
structure SegmentImage (α : Type) where
  /-- Where the items end, of a closed segment. -/
  offset : ℕ := 0
  status : SegmentStatus := .available
  objectsTailOffset : ℕ := 0
  hasShortcut : Bool := false
  data : List α := []

/-- **A segment in memory**, on top of its image in the pool. -/
structure LogSegment (α : Type) extends SegmentImage α where
  /-- Bytes from the start of the data to the tail. -/
  tail : ℕ := 0
  /-- Number of items appended, which are those in front of the tail. -/
  curCnt : ℕ := 0
  garbageBytes : ℕ := 0
  isHot : Bool := false

namespace LogSegment

variable {α : Type}

/-- `LogSegment::Init`. -/
def init (seg : LogSegment α) : LogSegment α :=
  { seg with tail := 0, objectsTailOffset := 0, status := .available }

/-- `LogSegment::LogSegment` on a segment of the pool, with `init` set. -/
def new (image : SegmentImage α) : LogSegment α := init { image with }

/-- `LogSegment::StartUsing`. -/
def startUsing (seg : LogSegment α) (isHot hasShortcut : Bool) : LogSegment α :=
  { seg with status := .inUse, hasShortcut := hasShortcut, isHot := isHot }

/-- `BaseSegment::HasSpaceFor`. -/
def hasSpaceFor (seg : LogSegment α) (sz : ℕ) : Prop := seg.tail + sz ≤ segmentDataSize

instance (seg : LogSegment α) (sz : ℕ) : Decidable (seg.hasSpaceFor sz) :=
  inferInstanceAs (Decidable (_ ≤ _))

/-- **`LogSegment::Append`** of an item of `sz` bytes: its position, and the
segment with it. -/
def append (seg : LogSegment α) (sz : ℕ) (item : α) : Option (ℕ × LogSegment α) :=
  if seg.hasSpaceFor sz then
    some (seg.curCnt,
      { seg with
        data := seg.data.take seg.curCnt ++ [item]
        tail := seg.tail + sz
        curCnt := seg.curCnt + 1 })
  else none

/-- **`LogSegment::Close`**: the empty item, where it fits, and the header. -/
def close (seg : LogSegment α) : LogSegment α :=
  let tail := if seg.hasSpaceFor KVItem.headerSize then seg.tail + KVItem.headerSize else seg.tail
  { seg with
    data := seg.data.take seg.curCnt
    tail := tail
    offset := tail
    status := .closed
    objectsTailOffset := tail
    hasShortcut := false }

/-- `LogSegment::Clear`. -/
def clear (seg : LogSegment α) : LogSegment α :=
  { seg with
    tail := 0
    garbageBytes := 0
    isHot := false
    status := .available
    objectsTailOffset := 0
    hasShortcut := false
    curCnt := 0 }

/-- `LogSegment::MarkGarbage`, without tombstones. -/
def markGarbage (seg : LogSegment α) (sz : ℕ) : LogSegment α :=
  { seg with garbageBytes := seg.garbageBytes + sz }

/-! ## The items in front of the tail -/

/-- The items of a segment. -/
def items (seg : LogSegment α) : List α := seg.data.take seg.curCnt

/-- The items in front of the tail are in the pool. -/
def Backed (seg : LogSegment α) : Prop := seg.curCnt ≤ seg.data.length

theorem length_items {seg : LogSegment α} (h : seg.Backed) : seg.items.length = seg.curCnt := by
  rw [items, List.length_take, Nat.min_eq_left h]

@[simp] theorem items_new (image : SegmentImage α) : (new image).items = [] := List.take_zero

@[simp] theorem items_startUsing (seg : LogSegment α) (hot sc : Bool) :
    (seg.startUsing hot sc).items = seg.items := rfl

@[simp] theorem items_markGarbage (seg : LogSegment α) (sz : ℕ) :
    (seg.markGarbage sz).items = seg.items := rfl

@[simp] theorem items_close (seg : LogSegment α) : seg.close.items = seg.items := by
  show (seg.data.take seg.curCnt).take seg.curCnt = seg.data.take seg.curCnt
  rw [List.take_take, Nat.min_self]

@[simp] theorem items_clear (seg : LogSegment α) : seg.clear.items = [] := List.take_zero

theorem backed_new (image : SegmentImage α) : (new image).Backed := Nat.zero_le _

theorem Backed.startUsing {seg : LogSegment α} (h : seg.Backed) (hot sc : Bool) :
    (seg.startUsing hot sc).Backed := h

theorem Backed.markGarbage {seg : LogSegment α} (h : seg.Backed) (sz : ℕ) :
    (seg.markGarbage sz).Backed := h

theorem Backed.close {seg : LogSegment α} (h : seg.Backed) : seg.close.Backed := by
  show seg.curCnt ≤ (seg.data.take seg.curCnt).length
  rw [List.length_take, Nat.min_eq_left h]

theorem Backed.clear (seg : LogSegment α) : seg.clear.Backed := Nat.zero_le _

/-- **What an append does**: there was room, the item comes behind the others,
and nothing else about the segment changes but its tail. -/
theorem append_eq_some {seg seg' : LogSegment α} {sz pos : ℕ} {item : α} (hb : seg.Backed)
    (h : seg.append sz item = some (pos, seg')) :
    seg.hasSpaceFor sz ∧ pos = seg.items.length ∧ seg'.items = seg.items ++ [item]
      ∧ seg'.Backed ∧ seg'.status = seg.status ∧ seg'.tail = seg.tail + sz := by
  unfold append at h
  by_cases hs : seg.hasSpaceFor sz
  · rw [if_pos hs] at h
    obtain ⟨rfl, rfl⟩ := Prod.mk.inj (Option.some.inj h)
    have hlen : (seg.data.take seg.curCnt ++ [item]).length = seg.curCnt + 1 := by
      rw [List.length_append, List.length_take, Nat.min_eq_left hb]
      rfl
    refine ⟨hs, (length_items hb).symm, ?_, hlen.ge, rfl, rfl⟩
    exact List.take_of_length_le hlen.le
  · rw [if_neg hs] at h
    cases h

/-- An append succeeds where there is room. -/
theorem append_isSome {seg : LogSegment α} {sz : ℕ} (item : α) (h : seg.hasSpaceFor sz) :
    (seg.append sz item).isSome := by
  rw [append, if_pos h]
  rfl

/-- A closed segment holds its items and nothing else a walk could find. -/
theorem data_close (seg : LogSegment α) : seg.close.data = seg.items := rfl

end LogSegment
