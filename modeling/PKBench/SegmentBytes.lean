import PKBench.LogSegment
import Mathlib.Algebra.BigOperators.Group.List.Basic

/-!
# A segment as bytes

`LogSegment` takes the items of a segment for a list. Here is the level below:
the data of a segment is memory, an item is written into it field by field,
`Close` writes an empty item where eight bytes are left, and the walk of
`RecoveryAll` goes from the start of the data to the end of the segment, item by
item, until it meets sizes that are both zero. Addresses count from the start of
the data, and from `segmentDataSize` on they belong to the next segment. What
was in the memory before is arbitrary: a segment that is used again holds what
it held.

The walk finds the items one after the other (`walk_items`). What it does behind
the last depends on how many bytes are left there. With eight or more there is
the empty item, with none it is at the end; with one to seven it takes what the
segment held before for the sizes of an item, and with one to three it reads
them in part from the next segment. So the walk gives back what was appended
exactly as `roundTrip_iff` says. `Represents` ties the bytes to a `LogSegment`, which
has a list for its data.
-/

open ByteBuffer

/-! ## Items in memory -/

namespace KVItem

/-- **The bytes of an item**: fifteen bits for the size of the key and one for the
mark of garbage, which is not set, sixteen for the size of the value, the epoch,
and then key and value. -/
def bytes (kv : KVItem) : List UInt8 :=
  leBytes 2 kv.key.length ++ leBytes 2 kv.value.length ++ leBytes 4 kv.epoch.toNat
    ++ kv.key ++ kv.value

theorem length_itemBytes (kv : KVItem) : kv.bytes.length = kv.size := by
  simp only [bytes, size, headerSize, List.length_append, length_leBytes]

/-- The bytes of items that lie one behind the other. -/
def allBytes (items : List KVItem) : List UInt8 := items.flatMap bytes

/-- The bytes items take. -/
def totalSize (items : List KVItem) : ℕ := (items.map size).sum

theorem length_allBytes (items : List KVItem) : (allBytes items).length = totalSize items := by
  rw [allBytes, List.length_flatMap, totalSize]
  congr 1
  exact List.map_congr_left (fun kv _ => length_itemBytes kv)

theorem totalSize_cons (kv : KVItem) (items : List KVItem) :
    totalSize (kv :: items) = kv.size + totalSize items := by
  rw [totalSize, List.map_cons, List.sum_cons]
  rfl

end KVItem

open KVItem

/-! ## Writing -/

/-- **A segment as bytes**: the memory from the start of its data on, and its
tail. -/
structure ByteSegment where
  mem : ℕ → UInt8
  tail : ℕ

namespace ByteSegment

/-- `LogSegment::Append`. -/
def append (seg : ByteSegment) (kv : KVItem) : Option ByteSegment :=
  if seg.tail + kv.size ≤ segmentDataSize then
    some { mem := store seg.mem seg.tail kv.bytes, tail := seg.tail + kv.size }
  else none

/-- Appends that all succeed. -/
def appendAll : List KVItem → ByteSegment → Option ByteSegment
  | [], seg => some seg
  | kv :: items, seg => (seg.append kv).bind (appendAll items)

/-- `LogSegment::Close`. The constructor of an empty item clears its header. -/
def close (seg : ByteSegment) : ByteSegment :=
  if seg.tail + headerSize ≤ segmentDataSize then
    { mem := store seg.mem seg.tail (List.replicate headerSize 0), tail := seg.tail + headerSize }
  else seg

/-- **What appends leave in memory**: the items one behind the other from the tail
on, and everything else as it was. -/
theorem appendAll_spec {items : List KVItem} {seg seg' : ByteSegment}
    (h : appendAll items seg = some seg') :
    seg'.tail = seg.tail + totalSize items
      ∧ (items = [] ∨ seg.tail + totalSize items ≤ segmentDataSize)
      ∧ Holds seg'.mem seg.tail (allBytes items)
      ∧ (∀ i < seg.tail, seg'.mem i = seg.mem i)
      ∧ ∀ i ≥ seg'.tail, seg'.mem i = seg.mem i := by
  induction items generalizing seg with
  | nil =>
    obtain rfl := Option.some.inj h
    exact ⟨rfl, Or.inl rfl, holds_nil _ _, fun _ _ => rfl, fun _ _ => rfl⟩
  | cons kv items ih =>
    obtain ⟨seg₁, happ, hrest⟩ := Option.bind_eq_some_iff.mp h
    unfold append at happ
    by_cases hroom : seg.tail + kv.size ≤ segmentDataSize
    · rw [if_pos hroom] at happ
      obtain rfl := Option.some.inj happ
      obtain ⟨htail, hfits, hholds, hfront, hbehind⟩ := ih hrest
      dsimp only at htail hfits hholds hfront hbehind
      have hlen := length_itemBytes kv
      rw [totalSize_cons, ← Nat.add_assoc]
      refine ⟨htail, Or.inr ?_, ?_, fun i hi => ?_, fun i hi => ?_⟩
      · rcases hfits with rfl | hle
        · exact hroom
        · exact hle
      · -- the later appends leave the item in front of them alone
        rw [allBytes, List.flatMap_cons, holds_append, hlen]
        refine ⟨?_, hholds⟩
        refine (load_congr (fun i hi => hfront _ ?_)).trans (holds_store seg.mem seg.tail kv.bytes)
        omega
      · rw [hfront i (by omega), store_of_lt hi]
      · rw [hbehind i hi, store_of_ge (by omega)]
    · rw [if_neg hroom] at happ
      cases happ

/-- Appends succeed as long as there is room. -/
theorem appendAll_of_le {items : List KVItem} {seg : ByteSegment}
    (h : seg.tail + totalSize items ≤ segmentDataSize) :
    ∃ seg', appendAll items seg = some seg' := by
  induction items generalizing seg with
  | nil => exact ⟨seg, rfl⟩
  | cons kv items ih =>
    rw [totalSize_cons] at h
    have happ : seg.append kv
        = some { mem := store seg.mem seg.tail kv.bytes, tail := seg.tail + kv.size } :=
      if_pos (by omega)
    rw [appendAll, happ]
    refine ih ?_
    show seg.tail + kv.size + totalSize items ≤ segmentDataSize
    omega

end ByteSegment

namespace SegmentBytes

/-! ## Walking -/

/-- **An item the walk of `RecoveryAll` visits**: where it is, and its sizes. -/
structure Visit where
  offset : ℕ
  keySize : ℕ
  valSize : ℕ
  deriving DecidableEq

/-- A walk: the items visited, and where sizes were read. -/
structure Walk where
  visits : List Visit
  headers : List ℕ

/-- `key_size` of the item at `p`: fifteen bits. -/
def keySizeAt (mem : ℕ → UInt8) (p : ℕ) : ℕ := leNat (load mem p 2) % 2 ^ 15

/-- `val_size` of the item at `p`. -/
def valSizeAt (mem : ℕ → UInt8) (p : ℕ) : ℕ := leNat (load mem (p + 2) 2)

/-- The bytes of an item from which the walk reads its sizes. -/
def sizesEnd (p : ℕ) : ℕ := p + 4

/-- What comes before in a walk. -/
def Walk.prepend (visits : List Visit) (headers : List ℕ) (w : Walk) : Walk where
  visits := visits ++ w.visits
  headers := headers ++ w.headers

/-- **The scan loop of `LogCleaner::RecoveryAll`** from `p` on, if it ends within
`fuel` rounds. -/
def walk (mem : ℕ → UInt8) : ℕ → ℕ → Option Walk
  | 0, _ => none
  | fuel + 1, p =>
      if p < segmentDataSize then
        let keySize := keySizeAt mem p
        let valSize := valSizeAt mem p
        let sz := headerSize + keySize + valSize
        if sz = headerSize then some ⟨[], [p]⟩
        else (walk mem fuel (p + sz)).map (Walk.prepend [⟨p, keySize, valSize⟩] [p])
      else some ⟨[], []⟩

/-- The visits of items that lie one behind the other. -/
def visitsFrom (off : ℕ) : List KVItem → List Visit
  | [] => []
  | kv :: items => ⟨off, kv.key.length, kv.value.length⟩ :: visitsFrom (off + kv.size) items

/-- Where they start. -/
def offsetsFrom (off : ℕ) : List KVItem → List ℕ
  | [] => []
  | kv :: items => off :: offsetsFrom (off + kv.size) items

/-- **The sizes of an item are read back.** -/
theorem sizesAt_of_holds {mem : ℕ → UInt8} {off : ℕ} {kv : KVItem} (h : Holds mem off kv.bytes) :
    keySizeAt mem off = kv.key.length ∧ valSizeAt mem off = kv.value.length := by
  unfold KVItem.bytes at h
  rw [holds_append, holds_append, holds_append, holds_append, length_leBytes] at h
  obtain ⟨⟨⟨⟨hkey, hval⟩, -⟩, -⟩, -⟩ := h
  have hk := kv.keySize_lt
  have hv := kv.valSize_lt
  unfold Holds at hkey hval
  rw [length_leBytes] at hkey hval
  constructor
  · rw [keySizeAt, hkey, leNat_leBytes, Nat.mod_eq_of_lt (show _ < 256 ^ 2 by omega),
      Nat.mod_eq_of_lt hk]
  · rw [valSizeAt, hval, leNat_leBytes, Nat.mod_eq_of_lt (show _ < 256 ^ 2 by omega)]

/-- **The walk finds the items one after the other**, and goes on behind them. -/
theorem walk_items {mem : ℕ → UInt8} {off : ℕ} {items : List KVItem}
    (h : Holds mem off (allBytes items)) (hfits : off + totalSize items ≤ segmentDataSize)
    (fuel : ℕ) :
    walk mem (items.length + fuel) off
      = (walk mem fuel (off + totalSize items)).map
          (Walk.prepend (visitsFrom off items) (offsetsFrom off items)) := by
  induction items generalizing off with
  | nil =>
    rw [List.length_nil, Nat.zero_add]
    show _ = (walk mem fuel (off + 0)).map (fun w => w)
    rw [Option.map_id']
    rfl
  | cons kv items ih =>
    rw [totalSize_cons] at hfits
    rw [allBytes, List.flatMap_cons, holds_append, length_itemBytes] at h
    obtain ⟨hkey, hval⟩ := sizesAt_of_holds h.1
    have hpos := kv.valSize_ge
    have hsize : headerSize + keySizeAt mem off + valSizeAt mem off = kv.size := by
      rw [hkey, hval, KVItem.size]
    have hne : kv.size ≠ headerSize := by
      rw [KVItem.size]
      omega
    have hin : off < segmentDataSize := by
      rw [KVItem.size, headerSize] at hfits
      omega
    rw [List.length_cons, Nat.add_right_comm, walk]
    dsimp only
    rw [if_pos hin, hsize, if_neg hne, ih h.2 (by omega), Option.map_map, totalSize_cons,
      Nat.add_assoc, hkey, hval]
    rfl

/-- Every header among the items lies in the segment. -/
theorem sizesEnd_le_of_mem {items : List KVItem} {off p : ℕ}
    (hfits : off + totalSize items ≤ segmentDataSize) (hp : p ∈ offsetsFrom off items) :
    sizesEnd p ≤ segmentDataSize := by
  induction items generalizing off with
  | nil => cases hp
  | cons kv items ih =>
    rw [totalSize_cons] at hfits
    rcases List.mem_cons.mp hp with rfl | hp
    · rw [KVItem.size, headerSize] at hfits
      unfold sizesEnd
      omega
    · exact ih (by omega) hp

/-! ## The round trip -/

/-- **The round trip of a segment.** The items are in memory, and the walk ends,
visits exactly them, and reads no sizes outside the segment. -/
structure RoundTrip (items : List KVItem) (mem : ℕ → UInt8) : Prop where
  holds : Holds mem 0 (allBytes items)
  visited : ∀ fuel > segmentDataSize, ∃ w, walk mem fuel 0 = some w
    ∧ w.visits = visitsFrom 0 items ∧ ∀ p ∈ w.headers, sizesEnd p ≤ segmentDataSize

/-- The sizes at `p` are those of an empty item. -/
def EmptyAt (mem : ℕ → UInt8) (p : ℕ) : Prop := keySizeAt mem p = 0 ∧ valSizeAt mem p = 0

instance (mem : ℕ → UInt8) (p : ℕ) : Decidable (EmptyAt mem p) :=
  inferInstanceAs (Decidable (_ ∧ _))

theorem emptyAt_iff (mem : ℕ → UInt8) (p : ℕ) :
    headerSize + keySizeAt mem p + valSizeAt mem p = headerSize ↔ EmptyAt mem p := by
  unfold EmptyAt
  omega

theorem walk_of_ge {mem : ℕ → UInt8} {p : ℕ} (h : segmentDataSize ≤ p) (fuel : ℕ) :
    walk mem (fuel + 1) p = some ⟨[], []⟩ := by
  rw [walk, if_neg (Nat.not_lt.mpr h)]

theorem walk_of_empty {mem : ℕ → UInt8} {p : ℕ} (h : p < segmentDataSize) (he : EmptyAt mem p)
    (fuel : ℕ) : walk mem (fuel + 1) p = some ⟨[], [p]⟩ := by
  rw [walk, if_pos h]
  exact if_pos ((emptyAt_iff mem p).mpr he)

theorem walk_of_not_empty {mem : ℕ → UInt8} {p : ℕ} (h : p < segmentDataSize)
    (he : ¬ EmptyAt mem p) (fuel : ℕ) :
    walk mem (fuel + 1) p
      = (walk mem fuel (p + (headerSize + keySizeAt mem p + valSizeAt mem p))).map
          (Walk.prepend [⟨p, keySizeAt mem p, valSizeAt mem p⟩] [p]) := by
  rw [walk, if_pos h]
  exact if_neg (fun heq => he ((emptyAt_iff mem p).mp heq))

theorem length_le_totalSize (items : List KVItem) : items.length ≤ totalSize items := by
  induction items with
  | nil => exact Nat.zero_le _
  | cons kv items ih =>
    rw [List.length_cons, totalSize_cons, KVItem.size, headerSize]
    omega

/-- A walk with enough rounds is the items and what comes behind them. -/
theorem exists_walk_behind {items : List KVItem} {mem : ℕ → UInt8}
    (h : Holds mem 0 (allBytes items)) (hfits : totalSize items ≤ segmentDataSize) {fuel : ℕ}
    (hfuel : fuel > segmentDataSize) :
    ∃ n, walk mem fuel 0 = (walk mem (n + 1) (totalSize items)).map
      (Walk.prepend (visitsFrom 0 items) (offsetsFrom 0 items)) := by
  have hlen := length_le_totalSize items
  obtain ⟨n, hn⟩ : ∃ n, fuel = items.length + (n + 1) := ⟨fuel - items.length - 1, by omega⟩
  have hwalk := walk_items h (by rwa [Nat.zero_add]) (n + 1)
  rw [Nat.zero_add] at hwalk
  exact ⟨n, hn ▸ hwalk⟩

/-- **The walk of items stops behind them** exactly at the end of the segment or at
an empty item, and the sizes of that are read. -/
theorem roundTrip_iff_stops {items : List KVItem} {mem : ℕ → UInt8}
    (h : Holds mem 0 (allBytes items)) (hfits : totalSize items ≤ segmentDataSize) :
    RoundTrip items mem
      ↔ totalSize items = segmentDataSize
        ∨ (sizesEnd (totalSize items) ≤ segmentDataSize ∧ EmptyAt mem (totalSize items)) := by
  have hheaders : ∀ p ∈ offsetsFrom 0 items, sizesEnd p ≤ segmentDataSize :=
    fun p hp => sizesEnd_le_of_mem (by rwa [Nat.zero_add]) hp
  constructor
  · intro hrt
    obtain ⟨w, hw, hvisits, hreads⟩ := hrt.visited (segmentDataSize + 1) (Nat.lt_succ_self _)
    obtain ⟨n, hn⟩ := exists_walk_behind h hfits (Nat.lt_succ_self segmentDataSize)
    rw [hn] at hw
    obtain ⟨w', hw', rfl⟩ := Option.map_eq_some_iff.mp hw
    have hnil : w'.visits = [] := List.append_right_eq_self.mp hvisits
    rcases Nat.eq_or_lt_of_le hfits with heq | hlt
    · exact Or.inl heq
    · have hempty : EmptyAt mem (totalSize items) := by
        by_contra hne
        rw [walk_of_not_empty hlt hne] at hw'
        obtain ⟨w'', -, rfl⟩ := Option.map_eq_some_iff.mp hw'
        cases hnil
      rw [walk_of_empty hlt hempty] at hw'
      obtain rfl := Option.some.inj hw'
      exact Or.inr ⟨hreads _ (List.mem_append_right _ List.mem_cons_self), hempty⟩
  · intro hstop
    refine ⟨h, fun fuel hfuel => ?_⟩
    obtain ⟨n, hn⟩ := exists_walk_behind h hfits hfuel
    rw [hn]
    rcases hstop with heq | ⟨hreads, hempty⟩
    · rw [walk_of_ge heq.ge]
      refine ⟨_, rfl, List.append_nil _, fun p hp => hheaders p ?_⟩
      change p ∈ offsetsFrom 0 items ++ [] at hp
      rwa [List.append_nil] at hp
    · have hlt : totalSize items < segmentDataSize := by
        unfold sizesEnd at hreads
        omega
      rw [walk_of_empty hlt hempty]
      refine ⟨_, rfl, List.append_nil _, fun p hp => ?_⟩
      rcases List.mem_append.mp hp with hp | hp
      · exact hheaders p hp
      · obtain rfl := List.mem_singleton.mp hp
        exact hreads

/-- The zeroes of an empty item. -/
theorem emptyAt_of_holds {mem : ℕ → UInt8} {p : ℕ}
    (h : Holds mem p (List.replicate headerSize 0)) : EmptyAt mem p := by
  have hcut : List.replicate headerSize (0 : UInt8)
      = List.replicate 2 0 ++ List.replicate 2 0 ++ List.replicate 4 0 := rfl
  rw [hcut, holds_append, holds_append, List.length_replicate] at h
  obtain ⟨⟨hkey, hval⟩, -⟩ := h
  unfold Holds at hkey hval
  rw [List.length_replicate] at hkey hval
  constructor
  · rw [keySizeAt, hkey, leNat_replicate_zero, Nat.zero_mod]
  · rw [valSizeAt, hval, leNat_replicate_zero]

/-- **A closed segment gives its items back exactly when** nothing is left in it, or
room for the empty item, or room for the sizes of an item where it happens to
hold those of an empty one. -/
theorem roundTrip_close_iff {items : List KVItem} {seg : ByteSegment}
    (h : Holds seg.mem 0 (allBytes items)) (htail : seg.tail = totalSize items)
    (hle : totalSize items ≤ segmentDataSize) :
    RoundTrip items seg.close.mem
      ↔ totalSize items = segmentDataSize
        ∨ totalSize items + 8 ≤ segmentDataSize
        ∨ (totalSize items + 4 ≤ segmentDataSize ∧ EmptyAt seg.mem (totalSize items)) := by
  unfold ByteSegment.close
  by_cases hroom : totalSize items + headerSize ≤ segmentDataSize
  · rw [htail, if_pos hroom]
    -- the empty item lies behind the others
    have hkept : Holds (store seg.mem (totalSize items) (List.replicate headerSize 0)) 0
        (allBytes items) := by
      refine (load_store_of_le ?_).trans h
      rw [length_allBytes, Nat.zero_add]
    have hempty := emptyAt_of_holds
      (holds_store seg.mem (totalSize items) (List.replicate headerSize 0))
    rw [roundTrip_iff_stops hkept hle]
    refine iff_of_true (Or.inr ⟨?_, hempty⟩) (Or.inr (Or.inl hroom))
    rw [headerSize] at hroom
    unfold sizesEnd
    omega
  · rw [htail, if_neg hroom, roundTrip_iff_stops h hle]
    exact or_congr_right (or_iff_right hroom).symm

/-- **What was appended to an empty segment is what the walk gives back** after it is
closed, exactly when the items leave nothing of the segment, or eight bytes or
more, or at least four that held zero sizes before. -/
theorem roundTrip_iff {mem : ℕ → UInt8} {items : List KVItem} {seg : ByteSegment}
    (h : ByteSegment.appendAll items ⟨mem, 0⟩ = some seg) :
    RoundTrip items seg.close.mem
      ↔ totalSize items = segmentDataSize
        ∨ totalSize items + 8 ≤ segmentDataSize
        ∨ (totalSize items + 4 ≤ segmentDataSize
          ∧ keySizeAt mem (totalSize items) = 0 ∧ valSizeAt mem (totalSize items) = 0) := by
  obtain ⟨htail, hfits, hholds, -, hbehind⟩ := ByteSegment.appendAll_spec h
  dsimp only at htail hfits hholds
  rw [Nat.zero_add] at htail hfits
  have hle : totalSize items ≤ segmentDataSize := hfits.elim (fun hnil => hnil ▸ by decide) id
  have hload : ∀ a n, totalSize items ≤ a → load seg.mem a n = load mem a n :=
    fun a n ha => load_congr (fun i _ => hbehind _ (by omega))
  have hstale : EmptyAt seg.mem (totalSize items)
      ↔ keySizeAt mem (totalSize items) = 0 ∧ valSizeAt mem (totalSize items) = 0 := by
    rw [EmptyAt, keySizeAt, valSizeAt, hload _ _ le_rfl, hload _ _ (Nat.le_add_right _ 2)]
    rfl
  rw [roundTrip_close_iff hholds htail hle, hstale]

/-- A record of 661 bytes: a key of eight and a value of 645. -/
def item661 : KVItem where
  key := List.replicate 8 1
  value := List.replicate 645 0
  epoch := 0
  keySize_lt := by rw [List.length_replicate]; decide
  valSize_ge := by rw [List.length_replicate]; decide
  valSize_lt := by rw [List.length_replicate]; decide

theorem size_item661 : item661.size = 661 := by
  rw [KVItem.size, item661, List.length_replicate, List.length_replicate]
  rfl

theorem totalSize_replicate (n : ℕ) : totalSize (List.replicate n item661) = n * 661 := by
  rw [totalSize, List.map_replicate, List.sum_replicate, size_item661]
  rfl

/-- A segment that is used again, with its tail at the start. -/
def staleSegment : ByteSegment where
  mem _ := 255
  tail := 0

/-- One record leaves room for the empty item. -/
theorem roundTrip_single :
    ∃ seg, ByteSegment.appendAll (List.replicate 1 item661) ⟨staleSegment.mem, 0⟩ = some seg
      ∧ RoundTrip (List.replicate 1 item661) seg.close.mem := by
  have htotal := totalSize_replicate 1
  have hdata : segmentDataSize = 4194048 := by decide
  have hroom : staleSegment.tail + totalSize (List.replicate 1 item661) ≤ segmentDataSize := by
    rw [htotal, hdata]
    decide
  obtain ⟨seg, hseg⟩ := ByteSegment.appendAll_of_le hroom
  refine ⟨seg, hseg, (roundTrip_iff hseg).mpr (Or.inr (Or.inl ?_))⟩
  rw [htotal, hdata]
  decide

/-- **A segment full of such records** has three bytes left, and the walk reads the
sizes of one item more, the last byte from the next segment. -/
theorem not_roundTrip_full :
    ∃ seg, ByteSegment.appendAll (List.replicate 6345 item661) ⟨staleSegment.mem, 0⟩ = some seg
      ∧ ¬ RoundTrip (List.replicate 6345 item661) seg.close.mem := by
  have htotal := totalSize_replicate 6345
  generalize List.replicate 6345 item661 = items at htotal ⊢
  have hdata : segmentDataSize = 4194048 := by decide
  have hroom : staleSegment.tail + totalSize items ≤ segmentDataSize := by
    rw [htotal, hdata]
    decide
  obtain ⟨seg, hseg⟩ := ByteSegment.appendAll_of_le hroom
  obtain ⟨htail, -, hholds, -, -⟩ := ByteSegment.appendAll_spec hseg
  have htail₀ : seg.tail = totalSize items := htail.trans (Nat.zero_add _)
  refine ⟨seg, hseg, fun hrt => ?_⟩
  rcases (roundTrip_close_iff hholds htail₀ (by omega)).mp hrt with heq | hle | ⟨hle, -⟩
  · omega
  · omega
  · omega

/-! ## Bytes and lists -/

/-- **The bytes of a segment in use**: its items lie in front of its tail. -/
structure Represents (b : ByteSegment) (seg : LogSegment KVItem) : Prop where
  tail : b.tail = seg.tail
  total : totalSize seg.items = seg.tail
  holds : Holds b.mem 0 (allBytes seg.items)

/-- A new segment, whatever its memory holds. -/
theorem represents_new (mem : ℕ → UInt8) (image : SegmentImage KVItem) :
    Represents ⟨mem, 0⟩ (LogSegment.new image) where
  tail := rfl
  total := by
    rw [LogSegment.items_new]
    rfl
  holds := by
    rw [LogSegment.items_new]
    exact holds_nil mem 0

/-- **An append to the list is an append to the bytes**, and both refuse alike. -/
theorem Represents.append {b : ByteSegment} {seg : LogSegment KVItem} (h : Represents b seg)
    (hb : seg.Backed) (kv : KVItem) :
    match seg.append kv.size kv with
    | none => b.append kv = none
    | some (_, seg') => ∃ b', b.append kv = some b' ∧ Represents b' seg' := by
  by_cases hroom : seg.hasSpaceFor kv.size
  · obtain ⟨⟨pos, seg'⟩, happ⟩ := Option.isSome_iff_exists.mp (LogSegment.append_isSome kv hroom)
    obtain ⟨-, -, hitems, -, -, htail⟩ := LogSegment.append_eq_some hb happ
    have hbytes : b.tail + kv.size ≤ segmentDataSize := by
      rw [h.tail]
      exact hroom
    rw [happ]
    refine ⟨_, if_pos hbytes, ?_, ?_, ?_⟩
    · show b.tail + kv.size = seg'.tail
      rw [h.tail, htail]
    · rw [hitems, htail, ← h.total, totalSize, List.map_append, List.sum_append, totalSize]
      rfl
    · show Holds (store b.mem b.tail kv.bytes) 0 (allBytes seg'.items)
      have hfront : (allBytes seg.items).length = b.tail := by
        rw [length_allBytes, h.total, h.tail]
      have hcat : allBytes seg'.items = allBytes seg.items ++ kv.bytes := by
        rw [hitems, allBytes, List.flatMap_append, List.flatMap_singleton]
        rfl
      rw [hcat, holds_append, hfront, Nat.zero_add]
      refine ⟨(load_store_of_le ?_).trans h.holds, holds_store _ _ _⟩
      rw [hfront, Nat.zero_add]
  · have hnone : seg.append kv.size kv = none := if_neg hroom
    rw [hnone]
    refine if_neg ?_
    rw [h.tail]
    exact hroom

/-- **The bytes of a segment that is closed**: the items are in front, and the empty item
is behind them if there is room. -/
theorem Represents.mem_close {b : ByteSegment} {seg : LogSegment KVItem} (h : Represents b seg) :
    Holds b.close.mem 0 (allBytes seg.items)
      ∧ (totalSize seg.items + headerSize ≤ segmentDataSize →
        EmptyAt b.close.mem (totalSize seg.items)) := by
  have htail := h.tail.trans h.total.symm
  unfold ByteSegment.close
  by_cases hroom : totalSize seg.items + headerSize ≤ segmentDataSize
  · rw [htail, if_pos hroom]
    refine ⟨(load_store_of_le ?_).trans h.holds, fun _ => emptyAt_of_holds (holds_store _ _ _)⟩
    rw [length_allBytes, Nat.zero_add]
  · rw [htail, if_neg hroom]
    exact ⟨h.holds, fun hle => absurd hle hroom⟩

end SegmentBytes
