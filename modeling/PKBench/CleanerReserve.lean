import PKBench.LogStructured
import Mathlib.Algebra.Order.BigOperators.Group.List

/-!
# The reserve of a cleaner

A cleaner appends what it keeps of a segment to a segment of its own. When that
is full it goes on in a backup segment, and the segment it is compacting, once
cleared, becomes the next backup. That there is a backup when one is needed is
asserted and nowhere checked; that the segment appended to has room for the item
is checked before the item is known to be alive, and the result of the append
is not looked at.

What makes this work is a matter of sizes. The items of one segment fit into one
segment, so a single empty segment takes all that is left of a compaction,
whatever is garbage; before the very first compaction there is no backup, but
then the cleaner's own segment is empty. `Enough` says this of the items that are
left, and `compactLoop_spec` that the loop keeps it. Between two compactions
`Stocked` holds.

The segments compacted, the sizes of their items and the answers of `IsGarbage`
are arbitrary; `represents_freezeReservedAndGetNew` connects the cleaner here
with a cleaner of the log.
-/

namespace LogCleaner

variable {α : Type}

/-- What would go wrong in a compaction. -/
inductive Fault where
  /-- `assert(backup_segment_)` fails. -/
  | noBackup
  /-- `Append` returns `INVALID_VALUE`. -/
  | invalidValue
  deriving DecidableEq

/-- **A cleaner**: its two segments, what it has handed to `FreezeSegment` and to
the free list, and how often it has changed segments, of which the code keeps no
record. -/
structure Cleaner (α : Type) where
  reserved : LogSegment α
  backup : Option (LogSegment α) := none
  frozen : List (LogSegment α) := []
  freed : List (LogSegment α) := []
  freezes : ℕ := 0

/-- `LogCleaner::LogCleaner` with a segment of the pool. -/
def Cleaner.new (image : SegmentImage α) : Cleaner α where
  reserved := (LogSegment.new image).startUsing false false

/-- **`LogCleaner::FreezeReservedAndGetNew`.** -/
def Cleaner.freezeReservedAndGetNew (c : Cleaner α) : Except Fault (Cleaner α) :=
  match c.backup with
  | none => .error .noBackup
  | some b => .ok
      { c with
        reserved := b.startUsing false false
        backup := none
        frozen := c.frozen ++ [c.reserved.close]
        freezes := c.freezes + 1 }

/-- `reserved_segment_->Append`. -/
def Cleaner.append (c : Cleaner α) (sz : ℕ) (kv : α) : Except Fault (Cleaner α) :=
  match c.reserved.append sz kv with
  | none => .error .invalidValue
  | some (_, seg) => .ok { c with reserved := seg }

variable (size : α → ℕ)

/-- The check for room, in front of the check for life. -/
def Cleaner.makeRoom (c : Cleaner α) (kv : α) : Except Fault (Cleaner α) :=
  if c.reserved.hasSpaceFor (size kv) then .ok c else c.freezeReservedAndGetNew

/-- **The loop of `CompactSegment`**, over the items and what `IsGarbage` answers
for each. An empty item ends it. -/
def compactLoop : List (α × Bool) → Cleaner α → Except Fault (Cleaner α)
  | [], c => .ok c
  | (kv, garbage) :: items, c =>
      if size kv = KVItem.headerSize then .ok c
      else do
        let c ← c.makeRoom size kv
        let c ← if garbage then .ok c else c.append (size kv) kv
        compactLoop items c

/-- **A call of `CompactSegment`**: a closed segment whose items fit, and the
answers of `IsGarbage`. -/
structure Compaction where
  segment : LogSegment α
  closed : segment.status = .closed
  fits : (segment.items.map size).sum ≤ segmentDataSize
  isGarbage : ℕ → Bool

variable {size}

/-- The items of the segment with the answers. -/
def Compaction.items (call : Compaction size) : List (α × Bool) :=
  call.segment.items.mapIdx (fun i kv => (kv, call.isGarbage i))

/-- **`LogCleaner::CompactSegment`.** -/
def Cleaner.compactSegment (c : Cleaner α) (call : Compaction size) :
    Except Fault (Cleaner α) := do
  let c ← compactLoop size call.items c
  match c.backup with
  | none => .ok { c with backup := some call.segment.clear }
  | some _ => .ok { c with freed := c.freed ++ [call.segment.clear] }

/-- A sequence of compactions. -/
def Cleaner.compactAll : List (Compaction size) → Cleaner α → Except Fault (Cleaner α)
  | [], c => .ok c
  | call :: calls, c => do
      let c ← c.compactSegment call
      compactAll calls c

/-! ## Room for what is left -/

/-- A backup is a cleared segment. -/
def BackupEmpty (c : Cleaner α) : Prop := ∀ b, c.backup = some b → b.tail = 0

/-- The number of segments in reserve. -/
def Cleaner.spare (c : Cleaner α) : ℕ := c.backup.elim 0 (fun _ => 1)

/-- **Enough for `n` bytes of items**, however they are cut: a backup, or so much
room in the segment appended to. -/
def Enough (c : Cleaner α) (n : ℕ) : Prop :=
  c.backup.isSome ∨ c.reserved.tail + n ≤ segmentDataSize

/-- The cleaner once it has changed to its backup `b`. -/
def Cleaner.changed (c : Cleaner α) (b : LogSegment α) : Cleaner α :=
  { c with
    reserved := b.startUsing false false
    backup := none
    frozen := c.frozen ++ [c.reserved.close]
    freezes := c.freezes + 1 }

theorem freezeReservedAndGetNew_of_some {c : Cleaner α} {b : LogSegment α}
    (h : c.backup = some b) : c.freezeReservedAndGetNew = .ok (c.changed b) := by
  rw [Cleaner.freezeReservedAndGetNew, h]
  rfl

/-- **Making room keeps enough**, and gives room for the item. -/
theorem makeRoom_spec {c : Cleaner α} {kv : α} {n : ℕ} (hempty : BackupEmpty c)
    (hn : size kv + n ≤ segmentDataSize) (h : Enough c (size kv + n)) :
    ∃ c', c.makeRoom size kv = .ok c' ∧ BackupEmpty c' ∧ Enough c' (size kv + n)
      ∧ c'.reserved.hasSpaceFor (size kv) ∧ c'.freezes + c'.spare = c.freezes + c.spare := by
  unfold Cleaner.makeRoom
  by_cases hspace : c.reserved.hasSpaceFor (size kv)
  · exact ⟨c, if_pos hspace, hempty, h, hspace, rfl⟩
  · -- there is no room for the item, so it is not room that makes it enough
    have hsome : c.backup.isSome := by
      refine h.resolve_right (fun hle => hspace ?_)
      show c.reserved.tail + size kv ≤ segmentDataSize
      omega
    obtain ⟨b, hb⟩ := Option.isSome_iff_exists.mp hsome
    have htail : (c.changed b).reserved.tail = 0 := hempty b hb
    refine ⟨c.changed b, (if_neg hspace).trans (freezeReservedAndGetNew_of_some hb), ?_,
      Or.inr ?_, ?_, ?_⟩
    · intro b' hb'
      cases hb'
    · rwa [htail, Nat.zero_add]
    · show (c.changed b).reserved.tail + size kv ≤ segmentDataSize
      omega
    · show c.freezes + 1 + 0 = c.freezes + c.spare
      rw [Cleaner.spare, hb]
      rfl

/-- **An append where there is room.** -/
theorem append_spec {c : Cleaner α} {kv : α} {n : ℕ} (hempty : BackupEmpty c)
    (h : Enough c (size kv + n)) (hspace : c.reserved.hasSpaceFor (size kv)) :
    ∃ c', c.append (size kv) kv = .ok c' ∧ BackupEmpty c' ∧ Enough c' n
      ∧ c'.freezes + c'.spare = c.freezes + c.spare := by
  obtain ⟨⟨pos, seg⟩, happ⟩ := Option.isSome_iff_exists.mp (LogSegment.append_isSome kv hspace)
  have htail : seg.tail = c.reserved.tail + size kv := by
    rw [LogSegment.append, if_pos hspace] at happ
    obtain ⟨-, rfl⟩ := Prod.mk.inj (Option.some.inj happ)
    rfl
  refine ⟨{ c with reserved := seg }, by rw [Cleaner.append, happ], hempty,
    h.imp_right (fun hle => ?_), rfl⟩
  show seg.tail + n ≤ segmentDataSize
  omega

/-- **The loop never fails where there is enough**, and what is in reserve pays for
every change of segments. -/
theorem compactLoop_spec {items : List (α × Bool)} {c : Cleaner α} (hempty : BackupEmpty c)
    (hfits : (items.map (fun x => size x.1)).sum ≤ segmentDataSize)
    (h : Enough c (items.map (fun x => size x.1)).sum) :
    ∃ c', compactLoop size items c = .ok c' ∧ BackupEmpty c'
      ∧ c'.freezes + c'.spare = c.freezes + c.spare := by
  induction items generalizing c with
  | nil => exact ⟨c, rfl, hempty, rfl⟩
  | cons x items ih =>
    obtain ⟨kv, garbage⟩ := x
    rw [List.map_cons, List.sum_cons] at hfits h
    unfold compactLoop
    by_cases hend : size kv = KVItem.headerSize
    · exact ⟨c, if_pos hend, hempty, rfl⟩
    · rw [if_neg hend]
      obtain ⟨c₁, hroom, hempty₁, henough₁, hspace, hpaid₁⟩ := makeRoom_spec hempty hfits h
      rw [hroom]
      cases garbage with
      | true =>
        have henough : Enough c₁ (items.map (fun x => size x.1)).sum := by
          refine henough₁.imp_right (fun hle => ?_)
          omega
        obtain ⟨c', hloop, hempty', hpaid⟩ := ih hempty₁ (by omega) henough
        exact ⟨c', hloop, hempty', hpaid.trans hpaid₁⟩
      | false =>
        obtain ⟨c₂, happ, hempty₂, henough₂, hpaid₂⟩ := append_spec hempty₁ henough₁ hspace
        obtain ⟨c', hloop, hempty', hpaid⟩ := ih hempty₂ (by omega) henough₂
        refine ⟨c', ?_, hempty', hpaid.trans (hpaid₂.trans hpaid₁)⟩
        show (c₁.append (size kv) kv >>= _) = _
        rw [happ]
        exact hloop

/-! ## Sequences of compactions -/

/-- **What holds between two compactions**: a cleaner without a backup has not
appended anything yet. -/
structure Stocked (c : Cleaner α) : Prop where
  backupEmpty : BackupEmpty c
  fresh : c.backup = none → c.reserved.tail = 0

theorem stocked_new (image : SegmentImage α) : Stocked (Cleaner.new image) where
  backupEmpty := by
    intro b hb
    cases hb
  fresh _ := rfl

/-- Between two compactions there is enough for the items of any segment. -/
theorem Stocked.enough {c : Cleaner α} (h : Stocked c) {n : ℕ} (hn : n ≤ segmentDataSize) :
    Enough c n := by
  unfold Enough
  cases hb : c.backup with
  | some b => exact Or.inl rfl
  | none =>
    right
    rwa [h.fresh hb, Nat.zero_add]

theorem spare_le_one (c : Cleaner α) : c.spare ≤ 1 := by
  unfold Cleaner.spare
  cases c.backup with
  | none => exact Nat.zero_le _
  | some b => exact le_rfl

theorem Compaction.sum_items (call : Compaction size) :
    (call.items.map (fun x => size x.1)).sum = (call.segment.items.map size).sum := by
  unfold Compaction.items
  congr 1
  refine List.ext_getElem ?_ (fun i h₁ h₂ => ?_)
  · rw [List.length_map, List.length_mapIdx, List.length_map]
  · rw [List.getElem_map, List.getElem_mapIdx, List.getElem_map]

/-- **A compaction succeeds and leaves a backup**, with at most one change of
segments. -/
theorem compactSegment_spec {c : Cleaner α} (h : Stocked c) (call : Compaction size) :
    ∃ c', c.compactSegment call = .ok c' ∧ Stocked c' ∧ c'.backup.isSome
      ∧ c'.freezes ≤ c.freezes + 1 := by
  have hfits : (call.items.map (fun x => size x.1)).sum ≤ segmentDataSize := by
    rw [call.sum_items]
    exact call.fits
  obtain ⟨c₁, hloop, hempty, hpaid⟩ := compactLoop_spec h.backupEmpty hfits (h.enough hfits)
  have hspare := spare_le_one c
  have hcount : c₁.freezes ≤ c.freezes + 1 := by omega
  unfold Cleaner.compactSegment
  rw [hloop]
  cases hb : c₁.backup with
  | none =>
    refine ⟨{ c₁ with backup := some call.segment.clear }, ?_, ⟨?_, ?_⟩, rfl, hcount⟩
    · show (match c₁.backup with | none => _ | some _ => _) = _
      rw [hb]
    · intro b hb'
      obtain rfl := Option.some.inj hb'
      rfl
    · intro hnone
      cases hnone
  | some b =>
    refine ⟨{ c₁ with freed := c₁.freed ++ [call.segment.clear] }, ?_, ⟨hempty, ?_⟩, ?_, hcount⟩
    · show (match c₁.backup with | none => _ | some _ => _) = _
      rw [hb]
    · intro hnone
      rw [show c₁.backup = none from hnone] at hb
      cases hb
    · show c₁.backup.isSome
      rw [hb]
      rfl

/-- Any sequence of compactions succeeds. -/
theorem compactAll_spec {c : Cleaner α} (h : Stocked c) (calls : List (Compaction size)) :
    ∃ c', Cleaner.compactAll calls c = .ok c' ∧ Stocked c' := by
  induction calls generalizing c with
  | nil => exact ⟨c, rfl, h⟩
  | cons call calls ih =>
    obtain ⟨c₁, hcall, hstocked, -, -⟩ := compactSegment_spec h call
    obtain ⟨c', hrest, hstocked'⟩ := ih hstocked
    refine ⟨c', ?_, hstocked'⟩
    unfold Cleaner.compactAll
    rw [hcall]
    exact hrest

/-- **The cleaner never runs out of its reserve.** After any sequence of compactions
by a new cleaner the next one succeeds as well: the assertion holds wherever it
is reached and no append is refused. It changes segments at most once and leaves
a backup. -/
theorem reserve_suffices (image : SegmentImage α) (calls : List (Compaction size))
    (call : Compaction size) :
    ∃ c c', Cleaner.compactAll calls (Cleaner.new image) = .ok c ∧ c.compactSegment call = .ok c'
      ∧ c'.freezes ≤ c.freezes + 1 ∧ c'.backup.isSome := by
  obtain ⟨c, hcalls, hstocked⟩ := compactAll_spec (stocked_new image) calls
  obtain ⟨c', hcall, -, hbackup, hcount⟩ := compactSegment_spec hstocked call
  exact ⟨c, c', hcalls, hcall, hcount, hbackup⟩

/-- A segment that three items fill, the second of them garbage, is compacted. -/
def fullCompaction : Compaction (fun sz : ℕ => sz) where
  segment :=
    { data := [3000000, 1000000, 194048]
      status := .closed
      offset := segmentDataSize
      objectsTailOffset := segmentDataSize
      tail := segmentDataSize
      curCnt := 3 }
  closed := rfl
  fits := by decide
  isGarbage i := i = 1

/-- The first of three such compactions leaves room for none of the large items, so each
of the others begins with a change of segments. -/
theorem reserve_suffices_threeTimes :
    ∃ c c', Cleaner.compactAll [fullCompaction, fullCompaction] (Cleaner.new {}) = .ok c
      ∧ c.compactSegment fullCompaction = .ok c' ∧ c'.freezes ≤ c.freezes + 1
      ∧ c'.backup.isSome ∧ c'.freezes = 2 := by
  obtain ⟨c, c', hcalls, hcall, hcount, hbackup⟩ :=
    reserve_suffices {} [fullCompaction, fullCompaction] fullCompaction
  have hfreezes : (Cleaner.compactAll [fullCompaction, fullCompaction] (Cleaner.new {})
      >>= fun c => c.compactSegment fullCompaction).map Cleaner.freezes = .ok 2 := rfl
  have hbind : ∀ f : Cleaner ℕ → Except Fault (Cleaner ℕ), (Except.ok c >>= f) = f c := fun _ => rfl
  rw [hcalls, hbind, hcall] at hfreezes
  exact ⟨c, c', hcalls, hcall, hcount, hbackup, Except.ok.inj hfreezes⟩

/-! ## The cleaner in the log -/

/-- Cleaner `j` of the log is `c`, as far as its two segments go. -/
def Represents (log : LogStructured α) (j : ℕ) (c : Cleaner α) : Prop :=
  ∃ r, log.reserved j = some r ∧ log.segments r = c.reserved
    ∧ (log.backup j).map log.segments = c.backup ∧ log.backup j ≠ some r

/-- **A cleaner of the log changes segments as the cleaner here does**, and fails
where that fails. -/
theorem represents_freezeReservedAndGetNew {log : LogStructured α} {j : ℕ} {c : Cleaner α}
    (h : Represents log j c) :
    match c.freezeReservedAndGetNew with
    | .error _ => log.freezeReservedAndGetNew j = none
    | .ok c' => ∃ log', log.freezeReservedAndGetNew j = some log' ∧ Represents log' j c' := by
  obtain ⟨r, hr, -, hbackup, hne⟩ := h
  cases hb : log.backup j with
  | none =>
    rw [hb] at hbackup
    have hnone : c.freezeReservedAndGetNew = .error .noBackup := by
      rw [Cleaner.freezeReservedAndGetNew, ← hbackup]
      rfl
    rw [hnone]
    show log.freezeReservedAndGetNew j = none
    rw [LogStructured.freezeReservedAndGetNew, hb]
  | some b =>
    rw [hb] at hbackup hne
    have hbr : b ≠ r := fun heq => hne (congrArg some heq)
    have hseg : (log.releaseReserved j).segments b = log.segments b := by
      show (log.freezeSegment (log.reserved j)).segments b = _
      rw [hr, LogStructured.freezeSegment]
      by_cases hcleaners : log.numCleaners > 0
      · rw [if_pos hcleaners]
        exact Function.update_of_ne hbr _ _
      · rw [if_neg hcleaners]
    rw [freezeReservedAndGetNew_of_some hbackup.symm]
    refine ⟨_, by rw [LogStructured.freezeReservedAndGetNew, hb], b, Function.update_self _ _ _,
      ?_, ?_, ?_⟩
    · show Function.update (log.releaseReserved j).segments b
        (((log.releaseReserved j).segments b).startUsing false false) b = _
      rw [Function.update_self, hseg]
      rfl
    · show (Function.update (log.releaseReserved j).backup j none j).map _ = none
      rw [Function.update_self]
      rfl
    · show Function.update (log.releaseReserved j).backup j none j ≠ some b
      rw [Function.update_self]
      exact (Option.some_ne_none b).symm

end LogCleaner
