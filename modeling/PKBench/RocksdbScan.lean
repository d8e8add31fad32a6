import PKBench.StoreSequence
import PKBench.Options

/-!
# The scan of the RocksDB wrapper

`rocksdb_client::scan` copies the records it finds into a buffer of its thread and
hands the buffer out. What the interface asks for is `<key><value><key><value>…`
in ascending key order. The loop copies a key, moves on by the eight bytes of a
`uint64_t` whatever the size of the key, copies the value, and does not move on
again, so the next key goes where the value is.

How many records are found is right, and nothing is written outside the buffer:
the loop moves on far too little for that. What stands in the buffer is right
only if the eight bytes are: every record but the last has a key of eight bytes
and an empty value, and the last has a key of eight bytes or an empty value
(`scanCorrect_iff`). The buffer is `static thread_local` and holds what earlier scans
left, which is taken as arbitrary.

The database is an ordered map: a list of records in ascending order of their
keys as bytes, which an iterator goes through from the first key that is not
smaller than the one sought.
-/

open ByteBuffer

namespace RocksdbClient

/-! ## The loop -/

/-- A record, with a key and a value of the sizes the driver allows. -/
structure Record where
  key : List UInt8
  value : List UInt8
  key_le : key.length ≤ keyMax
  value_le : value.length ≤ valueMax

/-- **The database**: records in ascending key order. -/
structure DB where
  records : List Record
  ascending : records.Pairwise (fun r r' => r.key < r'.key)

/-- `iterator->Seek(key)`: the records the iterator has before it. -/
def DB.seek (db : DB) (key : List UInt8) : List Record :=
  db.records.dropWhile (fun r => r.key < key)

/-- The variables of `scan`, with the buffer as memory from address zero on, and the
calls of `memcpy`, of which the code keeps no record. -/
structure ScanState where
  mem : ℕ → UInt8
  dst : ℕ := 0
  scanned : ℕ := 0
  copies : List (ℕ × List UInt8) := []

/-- `memcpy(dst, bytes.data(), bytes.size())`. -/
def ScanState.memcpy (st : ScanState) (bytes : List UInt8) : ScanState :=
  { st with
    mem := store st.mem st.dst bytes
    copies := st.copies ++ [(st.dst, bytes)] }

/-- `sizeof(uint64_t)`. -/
def wordSize : ℕ := 8

/-- The body of the loop. -/
def ScanState.scanRecord (st : ScanState) (r : Record) : ScanState :=
  let st := st.memcpy r.key
  let st := { st with dst := st.dst + wordSize }
  let st := st.memcpy r.value
  { st with scanned := st.scanned + 1 }

/-- **The loop of `scan`.** -/
def scanLoop (scanSz : ℕ) : List Record → ScanState → ScanState
  | [], st => st
  | r :: iterator, st =>
      if st.scanned < scanSz then scanLoop scanSz iterator (st.scanRecord r) else st

/-- What a scan leaves behind. -/
structure ScanResult where
  /-- The address of the buffer. -/
  valuesOut : ℕ
  returned : ℕ
  mem : ℕ → UInt8
  copies : List (ℕ × List UInt8)

/-- **`rocksdb_client::scan`**, with the buffer as earlier scans left it. -/
def DB.scan (db : DB) (key : List UInt8) (scanSz : ℕ) (mem : ℕ → UInt8) : ScanResult :=
  let st := scanLoop scanSz (db.seek key) { mem := mem }
  { valuesOut := 0, returned := st.scanned, mem := st.mem, copies := st.copies }

/-! ## What is asked for -/

/-- The bytes of the buffer. -/
def resultsSize : ℕ := 2 ^ 20

/-- The records whose key is not smaller than the one given. -/
def DB.recordsFrom (db : DB) (key : List UInt8) : List Record :=
  db.records.filter (fun r => key ≤ r.key)

/-- **`<key><value>` of each record.** -/
def recordBytes (rs : List Record) : List UInt8 := rs.flatMap (fun r => r.key ++ r.value)

/-- **A scan as the interface has it**: the number of records is returned, the records
stand at `values_out` one behind the other, and nothing is written outside the
buffer. -/
structure ScanCorrect (db : DB) (key : List UInt8) (scanSz : ℕ) (mem : ℕ → UInt8) : Prop where
  returned : (db.scan key scanSz mem).returned = min scanSz (db.recordsFrom key).length
  holds : Holds (db.scan key scanSz mem).mem (db.scan key scanSz mem).valuesOut
    (recordBytes ((db.recordsFrom key).take scanSz))
  inside : ∀ c ∈ (db.scan key scanSz mem).copies, c.1 + c.2.length ≤ resultsSize

/-- **Records that fit the steps of the loop.** -/
def Slotted : List Record → Prop
  | [] => True
  | [r] => r.key.length = wordSize ∨ r.value = []
  | r :: r' :: rs => r.key.length = wordSize ∧ r.value = [] ∧ Slotted (r' :: rs)

/-! ## What the loop does -/

/-- The copies of the loop, from the address `dst` on. -/
def copiesFrom (dst : ℕ) : List Record → List (ℕ × List UInt8)
  | [] => []
  | r :: rs => (dst, r.key) :: (dst + wordSize, r.value) :: copiesFrom (dst + wordSize) rs

/-- **The loop makes the copies of the records it gets to.** -/
theorem scanLoop_eq (scanSz : ℕ) (iterator : List Record) (st : ScanState) :
    (scanLoop scanSz iterator st).scanned
        = st.scanned + (iterator.take (scanSz - st.scanned)).length
      ∧ (scanLoop scanSz iterator st).mem
        = storeAll st.mem (copiesFrom st.dst (iterator.take (scanSz - st.scanned)))
      ∧ (scanLoop scanSz iterator st).copies
        = st.copies ++ copiesFrom st.dst (iterator.take (scanSz - st.scanned)) := by
  induction iterator generalizing st with
  | nil =>
    rw [List.take_nil]
    exact ⟨rfl, rfl, (List.append_nil _).symm⟩
  | cons r iterator ih =>
    unfold scanLoop
    by_cases h : st.scanned < scanSz
    · obtain ⟨n, hn⟩ := Nat.exists_eq_add_of_lt h
      have hleft : scanSz - st.scanned = n + 1 := by omega
      have hrest : scanSz - (st.scanRecord r).scanned = n := by
        show scanSz - (st.scanned + 1) = n
        omega
      obtain ⟨hscanned, hmem, hcopies⟩ := ih (st.scanRecord r)
      rw [if_pos h, hscanned, hmem, hcopies, hrest, hleft, List.take_succ_cons]
      refine ⟨?_, rfl, ?_⟩
      · show st.scanned + 1 + _ = _
        rw [List.length_cons]
        omega
      · show st.copies ++ [_] ++ [_] ++ _ = _
        rw [List.append_assoc, List.append_assoc]
        rfl
    · rw [if_neg h, show scanSz - st.scanned = 0 by omega, List.take_zero]
      exact ⟨rfl, rfl, (List.append_nil _).symm⟩

/-- In ascending order the first key that is not smaller has no smaller one behind
it. -/
theorem seek_eq_recordsFrom (db : DB) (key : List UInt8) : db.seek key = db.recordsFrom key := by
  unfold DB.seek DB.recordsFrom
  have hasc := db.ascending
  generalize db.records = rs at hasc
  induction rs with
  | nil => rfl
  | cons r rs ih =>
    obtain ⟨hr, hrs⟩ := List.pairwise_cons.mp hasc
    by_cases h : r.key < key
    · rw [List.dropWhile_cons_of_pos (by simpa using h),
        List.filter_cons_of_neg (by simpa using h)]
      exact ih hrs
    · rw [List.dropWhile_cons_of_neg (by simpa using h),
        List.filter_cons_of_pos (by simpa using h)]
      refine congrArg _ (List.filter_eq_self.mpr (fun r' hr' => ?_)).symm
      have hnot : ¬ r'.key < key := fun hlt => h (List.lt_trans (hr r' hr') hlt)
      simpa using hnot

/-- **What a scan leaves**, as the copies of its records. -/
theorem scan_eq (db : DB) (key : List UInt8) (scanSz : ℕ) (mem : ℕ → UInt8) :
    (db.scan key scanSz mem).returned = ((db.recordsFrom key).take scanSz).length
      ∧ (db.scan key scanSz mem).mem
        = storeAll mem (copiesFrom 0 ((db.recordsFrom key).take scanSz))
      ∧ (db.scan key scanSz mem).copies = copiesFrom 0 ((db.recordsFrom key).take scanSz) := by
  obtain ⟨hscanned, hmem, hcopies⟩ := scanLoop_eq scanSz (db.recordsFrom key) { mem := mem }
  unfold DB.scan
  rw [seek_eq_recordsFrom]
  exact ⟨hscanned.trans (Nat.zero_add _), hmem, hcopies⟩

/-! ## Where the copies go -/

theorem length_recordBytes_cons (r : Record) (rs : List Record) :
    (recordBytes (r :: rs)).length
      = r.key.length + r.value.length + (recordBytes rs).length := by
  rw [recordBytes, List.flatMap_cons, List.length_append, List.length_append]
  rfl

theorem copiedBytes_copiesFrom (dst : ℕ) (rs : List Record) :
    copiedBytes (copiesFrom dst rs) = (recordBytes rs).length := by
  induction rs generalizing dst with
  | nil => rfl
  | cons r rs ih =>
    rw [copiesFrom, copiedBytes_cons, copiedBytes_cons, ih, length_recordBytes_cons,
      Nat.add_assoc]

/-- No copy goes below the address the loop starts from. -/
theorem coverCount_copiesFrom_of_lt {dst p : ℕ} (h : p < dst) (rs : List Record) :
    coverCount (copiesFrom dst rs) p = 0 := by
  induction rs generalizing dst with
  | nil => rfl
  | cons r rs ih =>
    rw [copiesFrom, coverCount_cons, coverCount_cons, ih (Nat.lt_add_right _ h),
      if_neg (fun hin => absurd hin.1 (Nat.not_le.mpr (Nat.lt_add_right _ h))),
      if_neg (fun hin => absurd hin.1 (Nat.not_le.mpr h))]

/-- **The copies stay inside the buffer.** -/
theorem copiesFrom_end_le {dst : ℕ} {rs : List Record} {c : ℕ × List UInt8}
    (h : c ∈ copiesFrom dst rs) : c.1 + c.2.length ≤ dst + wordSize * rs.length + valueMax := by
  induction rs generalizing dst with
  | nil => cases h
  | cons r rs ih =>
    have hkey : r.key.length ≤ 128 := r.key_le
    have hvalue : r.value.length ≤ 1024 := r.value_le
    rw [List.length_cons, Nat.mul_succ, show valueMax = 1024 from rfl, show wordSize = 8 from rfl]
    rcases List.mem_cons.mp h with rfl | h
    · dsimp only
      omega
    · rcases List.mem_cons.mp h with rfl | h
      · show dst + 8 + r.value.length ≤ _
        omega
      · have hrest := ih h
        rw [show valueMax = 1024 from rfl, show wordSize = 8 from rfl] at hrest
        omega

/-- **Records that fit the steps are in place.** -/
theorem holds_of_slotted {rs : List Record} (h : Slotted rs) (dst : ℕ) (mem : ℕ → UInt8) :
    Holds (storeAll mem (copiesFrom dst rs)) dst (recordBytes rs) := by
  induction rs generalizing dst mem with
  | nil => exact holds_nil _ _
  | cons r rs ih =>
    cases rs with
    | nil =>
      show Holds (store (store mem dst r.key) (dst + wordSize) r.value) dst
        (r.key ++ r.value ++ [])
      rw [List.append_nil, holds_append]
      rcases h with hkey | hvalue
      · rw [hkey]
        refine ⟨(load_store_of_le ?_).trans (holds_store mem dst r.key), holds_store _ _ _⟩
        rw [hkey]
      · rw [hvalue, store_nil]
        exact ⟨holds_store mem dst r.key, holds_nil _ _⟩
    | cons r' rs =>
      obtain ⟨hkey, hvalue, hrest⟩ := h
      show Holds (storeAll (store (store mem dst r.key) (dst + wordSize) r.value)
        (copiesFrom (dst + wordSize) (r' :: rs))) dst
        (r.key ++ r.value ++ recordBytes (r' :: rs))
      rw [hvalue, store_nil, List.append_nil, holds_append, hkey]
      refine ⟨?_, ih hrest _ _⟩
      -- the later copies leave the key alone
      refine (load_congr (fun i hi => ?_)).trans (holds_store mem dst r.key)
      exact storeAll_of_coverCount_eq_zero
        (coverCount_copiesFrom_of_lt (by omega) (r' :: rs)) _

/-- How often an address is reached, by the first record and by the others. -/
theorem coverCount_copiesFrom_cons (dst : ℕ) (r : Record) (rs : List Record) (p : ℕ) :
    coverCount (copiesFrom dst (r :: rs)) p
      = coverCount (copiesFrom (dst + 8) rs) p
        + (if dst + 8 ≤ p ∧ p < dst + 8 + r.value.length then 1 else 0)
        + (if dst ≤ p ∧ p < dst + r.key.length then 1 else 0) := by
  rw [copiesFrom, coverCount_cons, coverCount_cons]
  rfl

/-- **The copies reach every address of the records once, and no other.** -/
def Tiles (dst : ℕ) (rs : List Record) : Prop :=
  ∀ p, coverCount (copiesFrom dst rs) p
    = if dst ≤ p ∧ p < dst + (recordBytes rs).length then 1 else 0

/-- A single record: its value must start where its key ends. -/
theorem slotted_of_tiles_singleton {dst : ℕ} {r : Record} (h : Tiles dst [r]) : Slotted [r] := by
  have hlen : (recordBytes [r]).length = r.key.length + r.value.length :=
    length_recordBytes_cons r []
  by_cases hvalue : r.value = []
  · exact Or.inr hvalue
  · have hpos : 0 < r.value.length := List.length_pos_iff.mpr hvalue
    left
    have hnil : ∀ p, coverCount (copiesFrom (dst + 8) []) p = 0 := fun _ => rfl
    have hend := h (dst + r.key.length)
    have hword := h (dst + 8)
    rw [coverCount_copiesFrom_cons, hnil, hlen] at hend hword
    show r.key.length = 8
    split_ifs at hend hword <;> omega

/-- A record with another behind it: the next key must start where this one ends. -/
theorem key_of_tiles_cons {dst : ℕ} {r r' : Record} {rs : List Record} (hkey : r'.key ≠ [])
    (h : Tiles dst (r :: r' :: rs)) : r.key.length = 8 ∧ r.value.length = 0 := by
  have hpos : 0 < r'.key.length := List.length_pos_iff.mpr hkey
  have hlen : (recordBytes (r :: r' :: rs)).length
      = r.key.length + r.value.length + (r'.key.length + r'.value.length
        + (recordBytes rs).length) := by
    rw [length_recordBytes_cons, length_recordBytes_cons]
  have hend := h (dst + r.key.length)
  have hword := h (dst + 8)
  -- the address eight bytes on is reached by the next key
  have hnext : 0 < coverCount (copiesFrom (dst + 8) (r' :: rs)) (dst + 8) := by
    rw [coverCount_copiesFrom_cons, if_pos (show dst + 8 ≤ dst + 8 ∧ _ from ⟨le_rfl, by omega⟩)]
    exact Nat.succ_pos _
  rw [coverCount_copiesFrom_cons, hlen] at hend hword
  have hshort : r.key.length ≤ 8 ∧ r.value.length = 0 := by
    split_ifs at hword <;> omega
  refine ⟨Nat.le_antisymm hshort.1 (Nat.le_of_not_lt (fun hlt => ?_)), hshort.2⟩
  -- between a short key and the next one there is an address no copy reaches
  rw [coverCount_copiesFrom_of_lt (show dst + r.key.length < dst + 8 by omega)] at hend
  split_ifs at hend <;> omega

/-- **Copies without overlap are those of records that fit the steps.** Behind the
first record keys are not empty. -/
theorem slotted_of_tiles {rs : List Record} (hasc : rs.Pairwise (fun r r' => r.key < r'.key))
    {dst : ℕ} (h : Tiles dst rs) : Slotted rs := by
  induction rs generalizing dst with
  | nil => trivial
  | cons r rs ih =>
    cases rs with
    | nil => exact slotted_of_tiles_singleton h
    | cons r' rs =>
      obtain ⟨hr, hrs⟩ := List.pairwise_cons.mp hasc
      have hne : r'.key ≠ [] := by
        intro hnil
        have hlt := hr r' List.mem_cons_self
        rw [hnil] at hlt
        exact List.not_lt_nil _ hlt
      obtain ⟨hkey, hvalue⟩ := key_of_tiles_cons hne h
      have htail : Tiles (dst + 8) (r' :: rs) := by
        intro p
        have hp := h p
        rw [coverCount_copiesFrom_cons, length_recordBytes_cons, hkey, hvalue] at hp
        rcases Nat.lt_or_ge p (dst + 8) with hlt | hge
        · rw [coverCount_copiesFrom_of_lt hlt, if_neg (fun hin => absurd hin.1 (by omega))]
        · split_ifs at hp ⊢ <;> omega
      exact ⟨hkey, List.length_eq_zero_iff.mp hvalue, ih hrs htail⟩

/-! ## The scan -/

/-- The records of a scan are in ascending order. -/
theorem ascending_take (db : DB) (key : List UInt8) (scanSz : ℕ) :
    ((db.recordsFrom key).take scanSz).Pairwise (fun r r' => r.key < r'.key) :=
  (db.ascending.filter _).take

/-- **A scan is as the interface has it, whatever the buffer held, exactly when every
record it finds but the last has a key of eight bytes and an empty value, and the
last has a key of eight bytes or an empty value.** -/
theorem scanCorrect_iff (db : DB) (key : List UInt8) {scanSz : ℕ} (hsz : scanSz ≤ maxScan) :
    (∀ mem, ScanCorrect db key scanSz mem) ↔ Slotted ((db.recordsFrom key).take scanSz) := by
  constructor
  · intro h
    refine @slotted_of_tiles _ (ascending_take db key scanSz) 0 (fun p => ?_)
    have hholds : ∀ mem, Holds (storeAll mem (copiesFrom 0 ((db.recordsFrom key).take scanSz))) 0
        (recordBytes ((db.recordsFrom key).take scanSz)) := by
      intro mem
      rw [← (scan_eq db key scanSz mem).2.1]
      exact (h mem).holds
    rw [coverCount_of_forall_holds (copiedBytes_copiesFrom 0 _).symm hholds p, Nat.zero_add]
    exact if_congr (and_iff_right (Nat.zero_le p)).symm rfl rfl
  · intro h mem
    obtain ⟨hreturned, hmem, hcopies⟩ := scan_eq db key scanSz mem
    refine ⟨by rw [hreturned, List.length_take], ?_, fun c hc => ?_⟩
    · rw [hmem]
      exact holds_of_slotted h 0 mem
    · rw [hcopies] at hc
      have hend := copiesFrom_end_le hc
      have hn : ((db.recordsFrom key).take scanSz).length ≤ 1000 :=
        (List.length_take_le _ _).trans hsz
      rw [show valueMax = 1024 from rfl, show wordSize = 8 from rfl] at hend
      show _ ≤ 2 ^ 20
      omega

/-- A record with a key and a value of eight bytes each, the default sizes. -/
def record (b : UInt8) : Record where
  key := List.replicate 8 b
  value := List.replicate 8 (b + 10)
  key_le := by
    rw [List.length_replicate]
    decide
  value_le := by
    rw [List.length_replicate]
    decide

/-- Two such records. -/
def twoRecords : DB where
  records := [record 1, record 2]
  ascending := by
    rw [List.pairwise_pair]
    decide

/-- A scan of one record is in place. -/
theorem scanCorrect_one :
    1 ≤ maxScan ∧ ∀ mem, ScanCorrect twoRecords (List.replicate 8 2) 1 mem :=
  ⟨by decide, (scanCorrect_iff twoRecords (List.replicate 8 2) (by decide)).mpr (Or.inl rfl)⟩

/-- **A scan of two**: the second key stands where the first value should. -/
theorem twoRecords_not_scanCorrect :
    (recordBytes ((twoRecords.recordsFrom (List.replicate 8 1)).take 2)).length ≤ resultsSize
      ∧ load (twoRecords.scan (List.replicate 8 1) 2 (fun _ => 0)).mem 0 32
        = List.replicate 8 1 ++ List.replicate 8 2 ++ List.replicate 8 12 ++ List.replicate 8 0
      ∧ ¬ ScanCorrect twoRecords (List.replicate 8 1) 2 (fun _ => 0) := by
  have hmem : load (twoRecords.scan (List.replicate 8 1) 2 (fun _ => 0)).mem 0 32
      = List.replicate 8 1 ++ List.replicate 8 2 ++ List.replicate 8 12
        ++ List.replicate 8 0 := by decide
  refine ⟨by decide, hmem, fun h => ?_⟩
  have hholds : load (twoRecords.scan (List.replicate 8 1) 2 (fun _ => 0)).mem 0 32
      = List.replicate 8 1 ++ List.replicate 8 11 ++ List.replicate 8 2
        ++ List.replicate 8 12 := h.holds
  rw [hmem] at hholds
  exact absurd hholds (by decide)

end RocksdbClient
