import PKBench.FlatStore
import PKBench.SegmentBytes

/-!
# Recovery

`RecoveryAll` throws the index away and rebuilds it from the pool. Each
cleaner has a thread that goes through the segments of its own residue, in the
order of their numbers; it walks the items of those that are closed, from the
start of the data to the empty item or the end of the segment, and puts each
into the index. A segment that is neither available nor closed is an error.

A segment that ends in one to seven unused bytes has no empty item. The walk
takes what is left there for the sizes of one more item, whose key is behind
them in the next segment, and puts that into the index as well (`behind`). So the
walk has the bytes of the pool for a second argument, each segment with what lies
behind it. On a closed segment it is the walk over the bytes (`walk_close`).

What is left out is the bookkeeping for later cleaning: the table of segments
and the count of garbage, which no lookup reads.
-/

open ByteBuffer SegmentBytes

namespace FlatStore

/-- The slice `KVItem::GetKey` returns for whatever is taken for an item at `p`. -/
def keyAt (mem : ℕ → UInt8) (p : ℕ) : Slice where
  data := load mem (p + KVItem.headerSize) (max 8 (keySizeAt mem p))
  size := keySizeAt mem p
  size_le := by rw [length_load]; exact le_max_right _ _
  word_le := by rw [length_load]; exact le_max_left _ _

/-! ## Walking a segment -/

/-- **What is found behind the last item** of a closed segment. With eight bytes
left, or more, `Close` has written the empty item, and with none the segment is at
its end. In between the bytes are taken for an item, unless both sizes are zero. -/
def behind (mem : ℕ → UInt8) (tail : ℕ) : Option Slice :=
  if tail < segmentDataSize ∧ segmentDataSize < tail + KVItem.headerSize
      ∧ ¬ EmptyAt mem tail then
    some (keyAt mem tail)
  else none

/-- What the walk of `RecoveryAll` puts into the index for a segment: addresses and
keys. The item behind the last ends the walk. -/
def walkSegment {α : Type} (kv : α → KVItem) (mem : ℕ → UInt8) (image : SegmentImage α)
    (i : ℕ) : List (Addr × Slice) :=
  match image.status with
  | .closed =>
      image.data.mapIdx (fun pos item => (⟨i, pos⟩, keySlice (kv item)))
        ++ (behind mem (KVItem.totalSize (image.data.map kv))).toList.map
          (fun key => (⟨i, image.data.length⟩, key))
  | .available => []
  | .inUse => []

/-- The segments a recovery thread goes through: `i = cleaner_id`, and on in
steps of the number of cleaners. -/
def stripe (numSegments numCleaners j : ℕ) : List ℕ :=
  (List.range numSegments).filter (fun i => i % numCleaners = j)

/-- What one recovery thread puts into the index, in its order. -/
def stripeItems {α : Type} (kv : α → KVItem) (mem : ℕ → ℕ → UInt8)
    (pool : ℕ → SegmentImage α) (numSegments numCleaners j : ℕ) : List (Addr × Slice) :=
  (stripe numSegments numCleaners j).flatMap (fun i => walkSegment kv (mem i) (pool i) i)

theorem behind_of_room (mem : ℕ → UInt8) {tail : ℕ}
    (h : tail + KVItem.headerSize ≤ segmentDataSize) : behind mem tail = none :=
  if_neg (fun hlt => Nat.not_lt.mpr h hlt.2.1)

/-- The order of addresses in the pool. -/
def Before (a b : Addr) : Prop :=
  a.segment < b.segment ∨ (a.segment = b.segment ∧ a.position < b.position)

theorem Before.asymm {a b : Addr} (h : Before a b) : ¬ Before b a := by
  rcases h with h | ⟨hs, hp⟩
  · rintro (h' | ⟨hs', -⟩)
    · exact Nat.lt_asymm h h'
    · exact absurd hs' (Nat.ne_of_gt h)
  · rintro (h' | ⟨-, hp'⟩)
    · exact absurd hs (Nat.ne_of_gt h')
    · exact Nat.lt_asymm hp hp'

section Walk

variable {α : Type} {kv : α → KVItem} {mem : ℕ → UInt8} {image : SegmentImage α} {i : ℕ}
  {a : Addr} {key : Slice}

/-- **What is walked in a segment**: its items, if it is closed, and what is behind
them. -/
theorem mem_walkSegment : (a, key) ∈ walkSegment kv mem image i
    ↔ a.segment = i ∧ image.status = .closed
      ∧ ((∃ item, image.data[a.position]? = some item ∧ key = keySlice (kv item))
        ∨ (a.position = image.data.length
          ∧ behind mem (KVItem.totalSize (image.data.map kv)) = some key)) := by
  unfold walkSegment
  cases image.status with
  | available => exact iff_of_false List.not_mem_nil (fun h => SegmentStatus.noConfusion h.2.1)
  | inUse => exact iff_of_false List.not_mem_nil (fun h => SegmentStatus.noConfusion h.2.1)
  | closed =>
    rw [List.mem_append, List.mem_mapIdx, List.mem_map]
    constructor
    · rintro (⟨pos, hpos, h⟩ | ⟨key', hkey, h⟩)
      · obtain ⟨rfl, rfl⟩ := Prod.mk.inj h
        exact ⟨rfl, rfl, .inl ⟨_, List.getElem?_eq_getElem hpos, rfl⟩⟩
      · obtain ⟨rfl, rfl⟩ := Prod.mk.inj h
        exact ⟨rfl, rfl, .inr ⟨rfl, Option.mem_toList.mp hkey⟩⟩
    · rintro ⟨rfl, -, ⟨item, hitem, rfl⟩ | ⟨hpos, hkey⟩⟩
      · obtain ⟨hpos, rfl⟩ := List.getElem?_eq_some_iff.mp hitem
        exact .inl ⟨a.position, hpos, rfl⟩
      · exact .inr ⟨key, Option.mem_toList.mpr hkey, by rw [← hpos]⟩

theorem mem_stripe {numSegments numCleaners j i : ℕ} :
    i ∈ stripe numSegments numCleaners j ↔ i < numSegments ∧ i % numCleaners = j := by
  rw [stripe, List.mem_filter, List.mem_range, decide_eq_true_iff]

/-- **What a recovery thread puts into the index**: what is walked in the segments of
its residue. -/
theorem mem_stripeItems {mem : ℕ → ℕ → UInt8} {pool : ℕ → SegmentImage α}
    {numSegments numCleaners j : ℕ} :
    (a, key) ∈ stripeItems kv mem pool numSegments numCleaners j
      ↔ (a.segment < numSegments ∧ a.segment % numCleaners = j)
        ∧ (a, key) ∈ walkSegment kv (mem a.segment) (pool a.segment) a.segment := by
  rw [stripeItems, List.mem_flatMap]
  constructor
  · rintro ⟨i, hi, hmem⟩
    obtain ⟨rfl, -⟩ := mem_walkSegment.mp hmem
    exact ⟨mem_stripe.mp hi, hmem⟩
  · rintro ⟨hi, hmem⟩
    exact ⟨a.segment, mem_stripe.mpr hi, hmem⟩

/-- The walk goes up. -/
theorem pairwise_walkSegment (kv : α → KVItem) (mem : ℕ → UInt8) (image : SegmentImage α)
    (i : ℕ) : (walkSegment kv mem image i).Pairwise (fun x y => Before x.1 y.1) := by
  unfold walkSegment
  cases image.status with
  | available => exact List.Pairwise.nil
  | inUse => exact List.Pairwise.nil
  | closed =>
    refine List.pairwise_append.mpr ⟨?_, ?_, fun x hx y hy => ?_⟩
    · refine List.pairwise_iff_getElem.mpr (fun p q hp hq hlt => Or.inr ?_)
      rw [List.getElem_mapIdx, List.getElem_mapIdx]
      exact ⟨rfl, hlt⟩
    · cases behind mem (KVItem.totalSize (image.data.map kv)) with
      | none => exact List.Pairwise.nil
      | some key => exact List.pairwise_singleton _ _
    · obtain ⟨pos, hpos, rfl⟩ := List.mem_mapIdx.mp hx
      obtain ⟨key, -, rfl⟩ := List.mem_map.mp hy
      exact Or.inr ⟨rfl, hpos⟩

/-- **A recovery thread goes through the pool in the order of addresses.** -/
theorem pairwise_stripeItems (kv : α → KVItem) (mem : ℕ → ℕ → UInt8)
    (pool : ℕ → SegmentImage α) (numSegments numCleaners j : ℕ) :
    (stripeItems kv mem pool numSegments numCleaners j).Pairwise
      (fun x y => Before x.1 y.1) := by
  refine List.pairwise_flatMap.mpr
    ⟨fun i _ => pairwise_walkSegment kv (mem i) (pool i) i, ?_⟩
  refine (List.pairwise_lt_range.filter _).imp (fun {i i'} hlt => ?_)
  intro x hx y hy
  have hxi : x.1.segment = i := (mem_walkSegment.mp hx).1
  have hyi : y.1.segment = i' := (mem_walkSegment.mp hy).1
  exact Or.inl (by rw [hxi, hyi]; exact hlt)

end Walk

/-! ## The walk over the bytes -/

/-- The bytes of the key of a visited item. -/
def visitKey (mem : ℕ → UInt8) (v : Visit) : List UInt8 :=
  load mem (v.offset + KVItem.headerSize) v.keySize

/-- The keys of items that lie one behind the other. -/
theorem keys_visitsFrom {mem : ℕ → UInt8} {off : ℕ} {items : List KVItem}
    (h : Holds mem off (KVItem.allBytes items)) :
    (visitsFrom off items).map (visitKey mem) = items.map KVItem.key := by
  induction items generalizing off with
  | nil => rfl
  | cons kv items ih =>
    rw [KVItem.allBytes, List.flatMap_cons, holds_append, KVItem.length_itemBytes] at h
    obtain ⟨hitem, hrest⟩ := h
    have hkey : load mem (off + KVItem.headerSize) kv.key.length = kv.key := by
      unfold KVItem.bytes at hitem
      rw [holds_append, holds_append] at hitem
      have := hitem.1.2
      simp only [List.length_append, length_leBytes] at this
      exact this
    rw [visitsFrom, List.map_cons, List.map_cons, ih hrest]
    exact congrArg (· :: _) hkey

theorem bytes_keyAt (mem : ℕ → UInt8) (p : ℕ) :
    (keyAt mem p).bytes = load mem (p + KVItem.headerSize) (keySizeAt mem p) := by
  show (load mem _ (max 8 _)).take (keySizeAt mem p) = _
  have hsplit : max 8 (keySizeAt mem p)
      = keySizeAt mem p + (max 8 (keySizeAt mem p) - keySizeAt mem p) := by omega
  rw [hsplit, load_add, List.take_left' (length_load _ _ _)]

/-- The keys a closed segment puts into the index. -/
theorem keys_walkSegment (mem : ℕ → UInt8) {image : SegmentImage KVItem}
    (h : image.status = .closed) (i : ℕ) :
    (walkSegment id mem image i).map (fun x => x.2.bytes)
      = image.data.map KVItem.key
        ++ (behind mem (KVItem.totalSize image.data)).toList.map Slice.bytes := by
  unfold walkSegment
  rw [h]
  dsimp only
  rw [List.map_append, List.map_map, List.map_id]
  refine congrArg₂ _ (List.ext_getElem (by simp) (fun p _ _ => ?_)) rfl
  rw [List.getElem_map, List.getElem_mapIdx, List.getElem_map]
  exact bytes_keySlice _

/-- The walk over the bytes behind the last item, where the empty item is if there was
room for it. -/
theorem walk_behind {mem : ℕ → UInt8} {tail : ℕ} (hle : tail ≤ segmentDataSize)
    (hempty : tail + KVItem.headerSize ≤ segmentDataSize → EmptyAt mem tail) (n : ℕ) :
    ∃ w, walk mem (n + 2) tail = some w
      ∧ w.visits.map (visitKey mem) = (behind mem tail).toList.map Slice.bytes := by
  rcases Nat.eq_or_lt_of_le hle with heq | hlt
  · refine ⟨_, walk_of_ge heq.ge (n + 1), ?_⟩
    rw [behind, if_neg (fun hin => hin.1.ne heq)]
    rfl
  · by_cases he : EmptyAt mem tail
    · refine ⟨_, walk_of_empty hlt he (n + 1), ?_⟩
      rw [behind, if_neg (fun hin => hin.2.2 he)]
      rfl
    · -- one item more, which reaches over the end of the segment
      have hroom : segmentDataSize < tail + KVItem.headerSize :=
        Nat.lt_of_not_le (fun hroom => he (hempty hroom))
      have hend : segmentDataSize
          ≤ tail + (KVItem.headerSize + keySizeAt mem tail + valSizeAt mem tail) := by omega
      have hone := walk_of_not_empty hlt he (n + 1)
      rw [walk_of_ge hend n] at hone
      refine ⟨_, hone, ?_⟩
      rw [behind, if_pos ⟨hlt, hroom, he⟩]
      exact congrArg (fun key => [key]) (bytes_keyAt _ _).symm

/-- **The walk of a closed segment is the walk over its bytes**, whatever these were
before: the keys it puts into the index are those of the items that are visited. -/
theorem walk_close {b : ByteSegment} {seg : LogSegment KVItem} (h : Represents b seg)
    (hle : seg.tail ≤ segmentDataSize) (i : ℕ) {fuel : ℕ} (hfuel : fuel > segmentDataSize + 1) :
    ∃ w, walk b.close.mem fuel 0 = some w
      ∧ w.visits.map (visitKey b.close.mem)
        = (walkSegment id b.close.mem seg.close.toSegmentImage i).map (fun x => x.2.bytes) := by
  have hfits : KVItem.totalSize seg.items ≤ segmentDataSize := h.total ▸ hle
  obtain ⟨hholds, hempty⟩ := h.mem_close
  have hlen := length_le_totalSize seg.items
  obtain ⟨n, rfl⟩ : ∃ n, fuel = seg.items.length + (n + 2) :=
    ⟨fuel - seg.items.length - 2, by omega⟩
  have hwalk := walk_items hholds (by rwa [Nat.zero_add]) (n + 2)
  rw [Nat.zero_add] at hwalk
  obtain ⟨w, hw, hvisits⟩ := walk_behind hfits hempty n
  refine ⟨_, hwalk.trans (congrArg _ hw), ?_⟩
  have hdata : seg.close.toSegmentImage.data = seg.items := LogSegment.data_close seg
  show (_ ++ w.visits).map _ = _
  rw [List.map_append, keys_visitsFrom hholds, hvisits, keys_walkSegment _ rfl, hdata]

/-! ## Rebuilding the index -/

/-- Recovery stops with an error at a segment that is neither available nor
closed. -/
def Recoverable {α : Type} (pool : ℕ → SegmentImage α) (numSegments : ℕ) : Prop :=
  ∀ i < numSegments, (pool i).status ≠ .inUse

instance {α : Type} (pool : ℕ → SegmentImage α) (numSegments : ℕ) :
    Decidable (Recoverable pool numSegments) := inferInstanceAs (Decidable (∀ _ < _, _))

variable {σ : Type} (I : Index σ)

/-- The index after what is walked has been put into it one by one. -/
def replay (index : σ) (items : List (Addr × Slice)) : σ :=
  items.foldl (fun index x => (I.put index x.2 (.item x.1)).1) index

/-- What of the log is in the pool file. -/
def poolOf {α : Type} (log : LogStructured α) : ℕ → SegmentImage α :=
  fun i => (log.segments i).toSegmentImage

/-- **`DB::RecoveryAll`** with one cleaner, whose thread goes through the whole
pool. -/
def recoveryAll (emptyIndex : σ) (mem : ℕ → ℕ → UInt8) (db : DB σ) : Option (DB σ) :=
  let log := db.log.destroyCleaners
  let pool := poolOf log
  if Recoverable pool log.numSegments then
    some { db with
      log := log
      index := replay I emptyIndex (stripeItems id mem pool log.numSegments 1 0) }
  else none

end FlatStore
