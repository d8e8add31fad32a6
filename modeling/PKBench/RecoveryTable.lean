import Mathlib.Data.List.Nodup
import PKBench.Recovery
import PKBench.Machine
import PKBench.Tally

/-!
# The segment table after recovery

`LogStructured::RecoveryAll` and `RecoverySegments` forget all segments and let
one thread per cleaner construct them again from the pool. A thread goes through
the segments of its residue: the available ones go to a queue of its own, which
it hands to the log at the end, under the lock; the closed ones are for the list
of its cleaner. The threads take their steps in any order.

The two routines have their own code, and both miss something. `RecoveryAll`
enters only the closed segments into the table, so an item that is later written
to a free segment cannot be marked as garbage. Both append a closed segment to
the list of the cleaner only if it is hot, which a segment that was just
constructed is not. So `RecoverySegments` restores the segments if and only if
none is closed, and `RecoveryAll` if and only if there are none
(`restored_iff`).

Left out is what the threads put into the index; of its answers, each is taken
to be possible.
-/

/-- `LogSegment::LogSegment` with `init` not set: the header stays, and the tail is
for the caller to set. -/
def LogSegment.attach {α : Type} (image : SegmentImage α) (tail : ℕ) : LogSegment α :=
  { image with tail := tail }

namespace RecoveryTable

/-- The routine the recovery threads execute. -/
inductive Kind where
  | all
  | segments
  deriving DecidableEq

/-- Where a recovery thread is. -/
inductive Phase where
  /-- At the beginning of its loop, with this `i`. -/
  | scanning (i : ℕ)
  /-- Walking through a closed segment: at this item, this many bytes behind the
  start of the data. -/
  | walking (i pos offset : ℕ)
  /-- Has handed over its queue. -/
  | published
  deriving DecidableEq

/-- **What the recovery threads work on.** -/
structure Sys where
  phase : ℕ → Phase
  /-- `tmp_free_queue` of each thread. -/
  tmpFreeQueue : ℕ → List ℕ
  /-- `all_segments_`, with null pointers. -/
  allSegments : ℕ → Option (LogSegment KVItem)
  freeSegments : List ℕ
  numFreeSegments : ℕ
  /-- `closed_hot_segments_` of each cleaner. -/
  closedHotSegments : ℕ → List ℕ

/-- The threads are about to start: everything was cleared, and the cleaners are
new. -/
def Sys.init : Sys where
  phase j := .scanning j
  tmpFreeQueue _ := []
  allSegments _ := none
  freeSegments := []
  numFreeSegments := 0
  closedHotSegments _ := []

/-! ## Steps -/

/-- A segment is entered into the table. -/
def Sys.setSegment (σ : Sys) (i : ℕ) (seg : LogSegment KVItem) : Sys :=
  { σ with allSegments := Function.update σ.allSegments i (some seg) }

/-- A thread goes on. -/
def Sys.setPhase (σ : Sys) (j : ℕ) (p : Phase) : Sys :=
  { σ with phase := Function.update σ.phase j p }

/-- `tmp_free_queue.push(seg)`. -/
def Sys.pushFree (σ : Sys) (j i : ℕ) : Sys :=
  { σ with tmpFreeQueue := Function.update σ.tmpFreeQueue j (σ.tmpFreeQueue j ++ [i]) }

/-- `if (seg->is_hot_) closed_hot_segments_.push_back(seg)`. -/
def Sys.pushIfHot (σ : Sys) (j i : ℕ) (seg : LogSegment KVItem) : Sys :=
  if seg.isHot then
    { σ with
      closedHotSegments := Function.update σ.closedHotSegments j (σ.closedHotSegments j ++ [i]) }
  else σ

/-- **`MarkGarbage`** of the worker and of the cleaner: the segment of the item is
looked up in the table. There is no result if the pointer is null. -/
def Sys.markGarbage (σ : Sys) (a : Addr) (sz : ℕ) : Option Sys :=
  (σ.allSegments a.segment).map (fun seg => σ.setSegment a.segment (seg.markGarbage sz))

variable (kind : Kind) (pool : ℕ → SegmentImage KVItem) (numSegments numCleaners : ℕ)

/-- A thread constructs its next segment and looks at the status. -/
def visit (σ : Sys) (j : ℕ) : Option Sys :=
  match σ.phase j with
  | .scanning i =>
      if j < numCleaners ∧ i < numSegments then
        match kind, (pool i).status with
        | .segments, .available =>
            some (((σ.pushFree j i).setSegment i (.attach (pool i) (pool i).offset)).setPhase j
              (.scanning (i + numCleaners)))
        | .segments, .closed =>
            let seg := LogSegment.attach (pool i) (pool i).offset
            some (((σ.pushIfHot j i seg).setSegment i seg).setPhase j (.scanning (i + numCleaners)))
        | .all, .available =>
            some ((σ.pushFree j i).setPhase j (.scanning (i + numCleaners)))
        | .all, .closed =>
            -- the tail is the end of the segment for the time being
            some ((σ.setSegment i (.attach (pool i) segmentDataSize)).setPhase j (.walking i 0 0))
        | _, .inUse => none
      else none
  | .walking _ _ _ => none
  | .published => none

/-- A thread puts an item into the index, which says what it held for the key
before: an item of so many bytes somewhere. That one is garbage. -/
def putItem (σ : Sys) (j : ℕ) (old : Option (Addr × ℕ)) : Option Sys :=
  match σ.phase j with
  | .walking i pos offset =>
      ((pool i).data[pos]?).bind (fun kv =>
        (old.elim (some σ) (fun old => σ.markGarbage old.1 old.2)).bind (fun σ =>
          (σ.allSegments i).map (fun seg =>
            (σ.setSegment i { seg with curCnt := seg.curCnt + 1 }).setPhase j
              (.walking i (pos + 1) (offset + kv.size)))))
  | .scanning _ => none
  | .published => none

/-- The end of the walk. -/
def endWalk (σ : Sys) (j : ℕ) : Option Sys :=
  match σ.phase j with
  | .walking i pos offset =>
      if (pool i).data.length ≤ pos then
        (σ.allSegments i).map (fun seg =>
          let seg := LogSegment.close { seg with tail := offset }
          ((σ.pushIfHot j i seg).setSegment i seg).setPhase j (.scanning (i + numCleaners)))
      else none
  | .scanning _ => none
  | .published => none

/-- A thread hands its queue over, under the lock. -/
def publish (σ : Sys) (j : ℕ) : Option Sys :=
  match σ.phase j with
  | .scanning i =>
      if j < numCleaners ∧ numSegments ≤ i then
        some { σ with
          phase := Function.update σ.phase j .published
          tmpFreeQueue := Function.update σ.tmpFreeQueue j []
          freeSegments := σ.freeSegments ++ σ.tmpFreeQueue j
          numFreeSegments := σ.numFreeSegments + (σ.tmpFreeQueue j).length }
      else none
  | .walking _ _ _ => none
  | .published => none

/-- A step of a recovery thread. -/
inductive Event where
  | visit (j : ℕ)
  | putItem (j : ℕ) (old : Option (Addr × ℕ))
  | endWalk (j : ℕ)
  | publish (j : ℕ)

/-- What a step does. -/
def step (σ : Sys) : Event → Option Sys
  | .visit j => visit kind pool numSegments numCleaners σ j
  | .putItem j old => putItem pool σ j old
  | .endWalk j => endWalk pool numCleaners σ j
  | .publish j => publish numSegments numCleaners σ j

/-- Any order of steps. -/
def run : Sys → List Event → Option Sys :=
  Machine.run (step kind pool numSegments numCleaners)

/-- Every thread has handed over its queue: the caller goes on. -/
def Sys.Over (σ : Sys) : Prop := ∀ j < numCleaners, σ.phase j = .published

instance (σ : Sys) : Decidable (σ.Over numCleaners) :=
  inferInstanceAs (Decidable (∀ j < numCleaners, _))

/-- **The segments are as the log expects them**: each is in the table, the
available ones are in the queue and the closed ones in the list of one cleaner,
once, and the number of free ones is right. -/
structure Sys.Restored (σ : Sys) : Prop where
  table : ∀ i < numSegments, (σ.allSegments i).isSome
  free : ∀ i, i ∈ σ.freeSegments ↔ i < numSegments ∧ (pool i).status = .available
  freeNodup : σ.freeSegments.Nodup
  closed : ∀ i < numSegments, (pool i).status = .closed →
    ∃! j, j < numCleaners ∧ i ∈ σ.closedHotSegments j
  closedOnly : ∀ j, ∀ i ∈ σ.closedHotSegments j, i < numSegments ∧ (pool i).status = .closed
  closedNodup : ∀ j, (σ.closedHotSegments j).Nodup
  numFree : σ.numFreeSegments = σ.freeSegments.length
  mark : ∀ i ∈ σ.freeSegments, ∀ pos sz, (σ.markGarbage ⟨i, pos⟩ sz).isSome

/-! ## What the steps lead to -/

section Inversion

variable {kind : Kind} {pool : ℕ → SegmentImage KVItem} {numSegments numCleaners : ℕ}
variable {σ σ' : Sys}

/-- A segment that was just constructed is not hot. -/
@[simp] theorem pushIfHot_attach (j i : ℕ) (image : SegmentImage KVItem) (tail : ℕ) :
    σ.pushIfHot j i (.attach image tail) = σ := rfl

/-- Where a visit leads: an available segment goes to the queue of the thread, a
closed one is walked by `RecoveryAll`; `RecoverySegments` enters both into the
table, `RecoveryAll` only the closed one. -/
theorem visit_eq_some {j : ℕ} (h : visit kind pool numSegments numCleaners σ j = some σ') :
    ∃ i, σ.phase j = .scanning i ∧ j < numCleaners ∧ i < numSegments ∧
      ((kind = .segments ∧ (pool i).status = .available ∧ σ' =
          ((σ.pushFree j i).setSegment i (.attach (pool i) (pool i).offset)).setPhase j
            (.scanning (i + numCleaners))) ∨
        (kind = .segments ∧ (pool i).status = .closed ∧ σ' =
          (σ.setSegment i (.attach (pool i) (pool i).offset)).setPhase j
            (.scanning (i + numCleaners))) ∨
        (kind = .all ∧ (pool i).status = .available ∧ σ' =
          (σ.pushFree j i).setPhase j (.scanning (i + numCleaners))) ∨
        (kind = .all ∧ (pool i).status = .closed ∧ σ' =
          (σ.setSegment i (.attach (pool i) segmentDataSize)).setPhase j (.walking i 0 0))) := by
  cases hphase : σ.phase j with
  | scanning i =>
    rw [visit, hphase] at h
    obtain ⟨⟨hj, hi⟩, h⟩ := Option.ite_none_right_eq_some.mp h
    refine ⟨i, rfl, hj, hi, ?_⟩
    cases hk : kind <;> cases hs : (pool i).status <;> rw [hk, hs] at h <;>
      simp only [Option.some.injEq, reduceCtorEq, pushIfHot_attach] at h <;> simp [h]
  | walking i pos offset => rw [visit, hphase] at h; cases h
  | published => rw [visit, hphase] at h; cases h

theorem putItem_eq_some {j : ℕ} {old : Option (Addr × ℕ)} (h : putItem pool σ j old = some σ') :
    ∃ i pos offset kv σ₁ seg, σ.phase j = .walking i pos offset ∧
      (σ₁ = σ ∨ ∃ a sz, σ.markGarbage a sz = some σ₁) ∧ σ₁.allSegments i = some seg ∧
      σ' = (σ₁.setSegment i { seg with curCnt := seg.curCnt + 1 }).setPhase j
        (.walking i (pos + 1) (offset + KVItem.size kv)) := by
  cases hphase : σ.phase j with
  | walking i pos offset =>
    rw [putItem, hphase] at h
    obtain ⟨kv, -, h⟩ := Option.bind_eq_some_iff.mp h
    obtain ⟨σ₁, hmark, h⟩ := Option.bind_eq_some_iff.mp h
    obtain ⟨seg, hseg, rfl⟩ := Option.map_eq_some_iff.mp h
    refine ⟨i, pos, offset, kv, σ₁, seg, rfl, ?_, hseg, rfl⟩
    cases old with
    | none => exact .inl (Option.some.inj hmark).symm
    | some old => exact .inr ⟨old.1, old.2, hmark⟩
  | scanning i => rw [putItem, hphase] at h; cases h
  | published => rw [putItem, hphase] at h; cases h

theorem markGarbage_eq_some {a : Addr} {sz : ℕ} (h : σ.markGarbage a sz = some σ') :
    ∃ seg, σ.allSegments a.segment = some seg ∧
      σ' = σ.setSegment a.segment (seg.markGarbage sz) := by
  obtain ⟨seg, hseg, rfl⟩ := Option.map_eq_some_iff.mp h
  exact ⟨seg, hseg, rfl⟩

theorem endWalk_eq_some {j : ℕ} (h : endWalk pool numCleaners σ j = some σ') :
    ∃ i pos offset seg, σ.phase j = .walking i pos offset ∧ σ.allSegments i = some seg ∧
      σ' = ((σ.pushIfHot j i (LogSegment.close { seg with tail := offset })).setSegment i
        (LogSegment.close { seg with tail := offset })).setPhase j
          (.scanning (i + numCleaners)) := by
  cases hphase : σ.phase j with
  | walking i pos offset =>
    rw [endWalk, hphase] at h
    obtain ⟨-, h⟩ := Option.ite_none_right_eq_some.mp h
    obtain ⟨seg, hseg, rfl⟩ := Option.map_eq_some_iff.mp h
    exact ⟨i, pos, offset, seg, rfl, hseg, rfl⟩
  | scanning i => rw [endWalk, hphase] at h; cases h
  | published => rw [endWalk, hphase] at h; cases h

theorem publish_eq_some {j : ℕ} (h : publish numSegments numCleaners σ j = some σ') :
    ∃ i, σ.phase j = .scanning i ∧ j < numCleaners ∧ numSegments ≤ i ∧ σ' = { σ with
      phase := Function.update σ.phase j .published
      tmpFreeQueue := Function.update σ.tmpFreeQueue j []
      freeSegments := σ.freeSegments ++ σ.tmpFreeQueue j
      numFreeSegments := σ.numFreeSegments + (σ.tmpFreeQueue j).length } := by
  cases hphase : σ.phase j with
  | scanning i =>
    rw [publish, hphase] at h
    obtain ⟨⟨hj, hi⟩, rfl⟩ := Option.ite_some_none_eq_some.mp h
    exact ⟨i, rfl, hj, hi, rfl⟩
  | walking i pos offset => rw [publish, hphase] at h; cases h
  | published => rw [publish, hphase] at h; cases h

end Inversion

/-! ## How far the threads are -/

/-- The thread has been at a segment of its residue. -/
def Phase.Reached (s : ℕ) : Phase → Prop
  | .scanning i => s < i
  | .walking i _ _ => s ≤ i
  | .published => True

/-- The segment a thread is at. -/
def Phase.index : Phase → Option ℕ
  | .scanning i => some i
  | .walking i _ _ => some i
  | .published => none

/-- Some thread has been at a segment. -/
def Sys.Reached (σ : Sys) (numCleaners s : ℕ) : Prop := (σ.phase (s % numCleaners)).Reached s

/-- A segment of the same residue is the current one or comes at least a round
later. -/
theorem lt_add_iff_of_mod_eq {s i c : ℕ} (hc : 0 < c) (h : s % c = i % c) :
    s < i + c ↔ s ≤ i := by
  refine ⟨fun hlt => ?_, fun hle => ?_⟩
  · by_contra hcon
    have hdvd : c ∣ s - i := (Nat.modEq_iff_dvd' (not_le.mp hcon).le).mp (Eq.symm h)
    have hle := Nat.le_of_dvd (by omega) hdvd
    omega
  · exact Nat.lt_add_right_iff_pos.mpr hc |>.trans_le' hle

/-! ## The invariant -/

section Invariant

variable {kind : Kind} {pool : ℕ → SegmentImage KVItem} {numSegments numCleaners : ℕ}
variable {σ σ' : Sys}

/-- **What the threads have done so far.** The segments they have been at are in
the table, unless `RecoveryAll` found them available; the available ones are in
the queues, or in the one of the log after the thread has handed them over; no
segment is hot, and none is in the list of a cleaner. -/
structure Inv (kind : Kind) (pool : ℕ → SegmentImage KVItem) (numSegments numCleaners : ℕ)
    (σ : Sys) : Prop where
  residue : ∀ j < numCleaners, ∀ i, (σ.phase j).index = some i → i % numCleaners = j
  walking : ∀ j i pos offset, σ.phase j = .walking i pos offset →
    j < numCleaners ∧ (pool i).status = .closed
  table : ∀ s < numSegments, (σ.allSegments s).isSome ↔
    (kind = .segments ∨ (pool s).status = .closed) ∧ σ.Reached numCleaners s
  cold : ∀ s, ∀ seg ∈ σ.allSegments s, seg.isHot = false
  closed : ∀ j, σ.closedHotSegments j = []
  queue : ∀ j < numCleaners, ∀ s, s ∈ σ.tmpFreeQueue j ↔
    (s < numSegments ∧ s % numCleaners = j ∧ (pool s).status = .available) ∧
      (σ.phase j).Reached s ∧ σ.phase j ≠ .published
  queueNodup : ∀ j < numCleaners, (σ.tmpFreeQueue j).Nodup
  free : ∀ s, s ∈ σ.freeSegments ↔ (s < numSegments ∧ (pool s).status = .available) ∧
    σ.phase (s % numCleaners) = .published
  freeNodup : σ.freeSegments.Nodup
  numFree : σ.numFreeSegments = σ.freeSegments.length

theorem inv_init : Inv kind pool numSegments numCleaners Sys.init where
  residue j hj i hi := by
    obtain rfl := Option.some.inj hi
    exact Nat.mod_eq_of_lt hj
  walking _ _ _ _ h := by cases h
  table s _ := by
    refine iff_of_false Bool.noConfusion fun h => ?_
    exact absurd h.2 (not_lt.mpr (Nat.mod_le s numCleaners))
  cold _ _ h := by cases h
  closed _ := rfl
  queue j _ s := by
    refine iff_of_false List.not_mem_nil fun h => ?_
    have hlt : s < j := h.2.1
    have hmod : s % numCleaners = j := h.1.2.1
    exact absurd (Nat.mod_le s numCleaners) (by omega)
  queueNodup _ _ := List.nodup_nil
  free s := iff_of_false List.not_mem_nil fun h => by cases h.2
  freeNodup := List.nodup_nil
  numFree := rfl

/-- The threads that do not move. -/
theorem reached_update {j s : ℕ} {p : Phase} (hphase : σ'.phase = Function.update σ.phase j p) :
    σ'.Reached numCleaners s ↔
      (s % numCleaners = j ∧ p.Reached s) ∨ (s % numCleaners ≠ j ∧ σ.Reached numCleaners s) := by
  rw [Sys.Reached, hphase]
  by_cases hs : s % numCleaners = j
  · rw [hs, Function.update_self]
    simp
  · rw [Function.update_of_ne hs]
    simp [hs, Sys.Reached]

/-- **A thread goes on**, where the segments it has been at get into the table and
into its queue. What the steps of a thread up to the handing over have in
common. -/
theorem Inv.advance (h : Inv kind pool numSegments numCleaners σ) {j : ℕ} {p : Phase}
    (hj : j < numCleaners) (hphase : σ'.phase = Function.update σ.phase j p)
    (hold : σ.phase j ≠ .published) (hnew : p ≠ .published)
    (hresidue : ∀ i, p.index = some i → i % numCleaners = j)
    (hwalking : ∀ i pos offset, p = .walking i pos offset → (pool i).status = .closed)
    (htable : ∀ s < numSegments, (σ'.allSegments s).isSome ↔ (σ.allSegments s).isSome ∨
      (s % numCleaners = j ∧ (kind = .segments ∨ (pool s).status = .closed) ∧ p.Reached s))
    (hmono : ∀ s, s % numCleaners = j → (σ.phase j).Reached s → p.Reached s)
    (hcold : ∀ s, ∀ seg ∈ σ'.allSegments s, seg.isHot = false)
    (hqueue : ∀ s, s ∈ σ'.tmpFreeQueue j ↔
      (s < numSegments ∧ s % numCleaners = j ∧ (pool s).status = .available) ∧ p.Reached s)
    (hnodup : (σ'.tmpFreeQueue j).Nodup)
    (hothers : ∀ k, k ≠ j → σ'.tmpFreeQueue k = σ.tmpFreeQueue k)
    (hclosed : σ'.closedHotSegments = σ.closedHotSegments)
    (hfree : σ'.freeSegments = σ.freeSegments)
    (hnum : σ'.numFreeSegments = σ.numFreeSegments) :
    Inv kind pool numSegments numCleaners σ' := by
  have hself : σ'.phase j = p := by rw [hphase, Function.update_self]
  have hne : ∀ k, k ≠ j → σ'.phase k = σ.phase k := fun k hk => by
    rw [hphase, Function.update_of_ne hk]
  refine ⟨fun k hk i hi => ?_, fun k i pos offset hi => ?_, fun s hs => ?_, hcold,
    fun k => (congrFun hclosed k).trans (h.closed k), fun k hk s => ?_, fun k hk => ?_,
    fun s => ?_, hfree ▸ h.freeNodup, by rw [hnum, hfree]; exact h.numFree⟩
  · by_cases hkj : k = j
    · subst hkj
      exact hresidue i (hself ▸ hi)
    · exact h.residue k hk i (hne k hkj ▸ hi)
  · by_cases hkj : k = j
    · subst hkj
      exact ⟨hj, hwalking i pos offset (hself ▸ hi)⟩
    · exact h.walking k i pos offset (hne k hkj ▸ hi)
  · rw [htable s hs, h.table s hs, reached_update hphase]
    have hsame : s % numCleaners = j → σ.Reached numCleaners s → p.Reached s := fun hsj hr =>
      hmono s hsj (by rw [← hsj]; exact hr)
    constructor
    · rintro (⟨hk, hr⟩ | ⟨hsj, hk, hp⟩)
      · by_cases hsj : s % numCleaners = j
        · exact ⟨hk, .inl ⟨hsj, hsame hsj hr⟩⟩
        · exact ⟨hk, .inr ⟨hsj, hr⟩⟩
      · exact ⟨hk, .inl ⟨hsj, hp⟩⟩
    · rintro ⟨hk, ⟨hsj, hp⟩ | ⟨-, hr⟩⟩
      · exact .inr ⟨hsj, hk, hp⟩
      · exact .inl ⟨hk, hr⟩
  · by_cases hkj : k = j
    · subst hkj
      rw [hqueue, hself]
      exact and_congr_right fun _ => (and_iff_left hnew).symm
    · rw [hothers k hkj, hne k hkj]
      exact h.queue k hk s
  · by_cases hkj : k = j
    · subst hkj
      exact hnodup
    · rw [hothers k hkj]
      exact h.queueNodup k hk
  · rw [hfree, h.free s]
    by_cases hsj : s % numCleaners = j
    · rw [hsj, hself]
      exact and_congr_right fun _ => iff_of_false hold hnew
    · rw [hne _ hsj]

/-- A thread at a segment enters it into the table. -/
theorem Inv.table_enter (h : Inv kind pool numSegments numCleaners σ) {i : ℕ} {p : Phase}
    (hphase : σ.phase (i % numCleaners) = .scanning i)
    (hp : ∀ s, s % numCleaners = i % numCleaners → (p.Reached s ↔ s ≤ i))
    (hi : kind = .segments ∨ (pool i).status = .closed) (seg : LogSegment KVItem) (s : ℕ)
    (hs : s < numSegments) :
    (Function.update σ.allSegments i (some seg) s).isSome ↔ (σ.allSegments s).isSome ∨
      (s % numCleaners = i % numCleaners ∧ (kind = .segments ∨ (pool s).status = .closed) ∧
        p.Reached s) := by
  by_cases hsi : s = i
  · subst hsi
    rw [Function.update_self]
    exact iff_of_true rfl (.inr ⟨rfl, hi, (hp s rfl).mpr le_rfl⟩)
  · rw [Function.update_of_ne hsi]
    refine ⟨.inl, fun hor => hor.elim id fun ⟨hmod, hkind, hr⟩ => ?_⟩
    refine (h.table s hs).mpr ⟨hkind, ?_⟩
    rw [Sys.Reached, hmod, hphase]
    exact lt_of_le_of_ne ((hp s hmod).mp hr) hsi

/-- `RecoveryAll` leaves an available segment out of the table. -/
theorem Inv.table_pass (h : Inv .all pool numSegments numCleaners σ) {i : ℕ} {p : Phase}
    (hphase : σ.phase (i % numCleaners) = .scanning i)
    (hp : ∀ s, s % numCleaners = i % numCleaners → (p.Reached s ↔ s ≤ i))
    (hi : (pool i).status = .available) (s : ℕ) (hs : s < numSegments) :
    (σ.allSegments s).isSome ↔ (σ.allSegments s).isSome ∨
      (s % numCleaners = i % numCleaners ∧ (Kind.all = .segments ∨ (pool s).status = .closed) ∧
        p.Reached s) := by
  refine ⟨.inl, fun hor => hor.elim id fun ⟨hmod, hkind, hr⟩ => ?_⟩
  have hsi : s ≠ i := by
    rintro rfl
    rcases hkind with hkind | hclosed
    · cases hkind
    · cases hi.symm.trans hclosed
  refine (h.table s hs).mpr ⟨hkind, ?_⟩
  rw [Sys.Reached, hmod, hphase]
  exact lt_of_le_of_ne ((hp s hmod).mp hr) hsi

/-- An available segment goes to the queue. -/
theorem Inv.queue_enter (h : Inv kind pool numSegments numCleaners σ) {i : ℕ} {p : Phase}
    (hj : i % numCleaners < numCleaners) (hphase : σ.phase (i % numCleaners) = .scanning i)
    (hp : ∀ s, s % numCleaners = i % numCleaners → (p.Reached s ↔ s ≤ i))
    (hin : i < numSegments) (hi : (pool i).status = .available) :
    (∀ s, s ∈ σ.tmpFreeQueue (i % numCleaners) ++ [i] ↔
      (s < numSegments ∧ s % numCleaners = i % numCleaners ∧ (pool s).status = .available) ∧
        p.Reached s) ∧ (σ.tmpFreeQueue (i % numCleaners) ++ [i]).Nodup := by
  have hmem : ∀ s, s ∈ σ.tmpFreeQueue (i % numCleaners) ↔
      (s < numSegments ∧ s % numCleaners = i % numCleaners ∧ (pool s).status = .available) ∧
        s < i := by
    intro s
    rw [h.queue _ hj s, hphase]
    simp [Phase.Reached]
  refine ⟨fun s => ?_, List.nodup_append.mpr ⟨h.queueNodup _ hj, List.nodup_singleton i, ?_⟩⟩
  · rw [List.mem_append, List.mem_singleton, hmem s]
    by_cases hsi : s = i
    · subst hsi
      exact iff_of_true (.inr rfl) ⟨⟨hin, rfl, hi⟩, (hp s rfl).mpr le_rfl⟩
    · rw [or_iff_left hsi]
      refine and_congr_right fun hs => ?_
      rw [hp s hs.2.1]
      exact ⟨le_of_lt, fun hle => lt_of_le_of_ne hle hsi⟩
  · intro a ha b hb
    obtain rfl := List.mem_singleton.mp hb
    exact ne_of_lt ((hmem a).mp ha).2

/-- A closed one does not. -/
theorem Inv.queue_pass (h : Inv kind pool numSegments numCleaners σ) {i : ℕ} {p : Phase}
    (hj : i % numCleaners < numCleaners) (hphase : σ.phase (i % numCleaners) = .scanning i)
    (hp : ∀ s, s % numCleaners = i % numCleaners → (p.Reached s ↔ s ≤ i))
    (hi : (pool i).status = .closed) (s : ℕ) :
    s ∈ σ.tmpFreeQueue (i % numCleaners) ↔
      (s < numSegments ∧ s % numCleaners = i % numCleaners ∧ (pool s).status = .available) ∧
        p.Reached s := by
  rw [h.queue _ hj s, hphase]
  refine and_congr_right fun hs => ?_
  have hsi : s ≠ i := by
    rintro rfl
    cases hi.symm.trans hs.2.2
  rw [hp s hs.2.1]
  exact ⟨fun hlt => le_of_lt hlt.1, fun hle => ⟨lt_of_le_of_ne hle hsi, Phase.noConfusion⟩⟩

/-- A segment that is entered is not hot. -/
theorem Inv.cold_enter (h : Inv kind pool numSegments numCleaners σ) {i : ℕ}
    {new : LogSegment KVItem} (hnew : new.isHot = false) (s : ℕ) :
    ∀ seg ∈ Function.update σ.allSegments i (some new) s, seg.isHot = false := by
  by_cases hsi : s = i
  · subst hsi
    rw [Function.update_self]
    intro seg hseg
    rw [← Option.some.inj hseg]
    exact hnew
  · rw [Function.update_of_ne hsi]
    exact h.cold s

theorem Inv.visit (h : Inv kind pool numSegments numCleaners σ) {j : ℕ}
    (hstep : visit kind pool numSegments numCleaners σ j = some σ') :
    Inv kind pool numSegments numCleaners σ' := by
  obtain ⟨i, hphase, hj, hin, hcases⟩ := visit_eq_some hstep
  obtain rfl : i % numCleaners = j := h.residue j hj i (by rw [hphase]; rfl)
  have hc : 0 < numCleaners := Nat.zero_lt_of_lt hj
  have hold : σ.phase (i % numCleaners) ≠ .published := by
    rw [hphase]; exact Phase.noConfusion
  -- the loop goes on with the next segment of the residue
  have hnext : ∀ s, s % numCleaners = i % numCleaners →
      ((Phase.scanning (i + numCleaners)).Reached s ↔ s ≤ i) := fun s hs =>
    lt_add_iff_of_mod_eq hc hs
  have hmono : ∀ {p : Phase}, (∀ s, s % numCleaners = i % numCleaners → (p.Reached s ↔ s ≤ i)) →
      ∀ s, s % numCleaners = i % numCleaners → (σ.phase (i % numCleaners)).Reached s →
        p.Reached s := by
    intro p hp s hs hr
    rw [hphase] at hr
    exact (hp s hs).mpr (le_of_lt hr)
  have hresidue : ∀ k, (Phase.scanning (i + numCleaners)).index = some k →
      k % numCleaners = i % numCleaners := by
    intro k hk
    rw [← Option.some.inj hk, Nat.add_mod_right]
  rcases hcases with ⟨rfl, hi, rfl⟩ | ⟨rfl, hi, rfl⟩ | ⟨rfl, hi, rfl⟩ | ⟨rfl, hi, rfl⟩
  · obtain ⟨hqueue, hnodup⟩ := h.queue_enter hj hphase hnext hin hi
    exact h.advance hj rfl hold Phase.noConfusion hresidue (fun _ _ _ hp => by cases hp)
      (h.table_enter hphase hnext (.inl rfl) _) (hmono hnext) (h.cold_enter rfl)
      (by simpa [Sys.setPhase, Sys.setSegment, Sys.pushFree] using hqueue)
      (by simpa [Sys.setPhase, Sys.setSegment, Sys.pushFree] using hnodup)
      (fun k hk => Function.update_of_ne hk _ _) rfl rfl rfl
  · exact h.advance hj rfl hold Phase.noConfusion hresidue (fun _ _ _ hp => by cases hp)
      (h.table_enter hphase hnext (.inl rfl) _) (hmono hnext) (h.cold_enter rfl)
      (h.queue_pass hj hphase hnext hi) (h.queueNodup _ hj) (fun _ _ => rfl) rfl rfl rfl
  · obtain ⟨hqueue, hnodup⟩ := h.queue_enter hj hphase hnext hin hi
    exact h.advance hj rfl hold Phase.noConfusion hresidue (fun _ _ _ hp => by cases hp)
      (h.table_pass hphase hnext hi) (hmono hnext) h.cold
      (by simpa [Sys.setPhase, Sys.pushFree] using hqueue)
      (by simpa [Sys.setPhase, Sys.pushFree] using hnodup)
      (fun k hk => Function.update_of_ne hk _ _) rfl rfl rfl
  · have hwalk : ∀ s, s % numCleaners = i % numCleaners →
        ((Phase.walking i 0 0).Reached s ↔ s ≤ i) := fun _ _ => Iff.rfl
    refine h.advance hj rfl hold Phase.noConfusion (fun k hk => ?_) (fun k _ _ hp => ?_)
      (h.table_enter hphase hwalk (.inr hi) _) (hmono hwalk) (h.cold_enter rfl)
      (h.queue_pass hj hphase hwalk hi) (h.queueNodup _ hj) (fun _ _ => rfl) rfl rfl rfl
    · rw [← Option.some.inj hk]
    · obtain ⟨rfl, -, -⟩ := Phase.walking.inj hp
      exact hi

/-- A segment of the table changes. -/
theorem Inv.setSegment (h : Inv kind pool numSegments numCleaners σ) {i : ℕ}
    {seg new : LogSegment KVItem} (hseg : σ.allSegments i = some seg)
    (hnew : new.isHot = seg.isHot) :
    Inv kind pool numSegments numCleaners (σ.setSegment i new) := by
  refine ⟨h.residue, h.walking, fun s hs => ?_, ?_, h.closed, h.queue, h.queueNodup, h.free,
    h.freeNodup, h.numFree⟩
  · refine Iff.trans ?_ (h.table s hs)
    by_cases hsi : s = i
    · subst hsi
      simp [Sys.setSegment, hseg]
    · simp [Sys.setSegment, Function.update_of_ne hsi]
  · exact h.cold_enter (hnew.trans (h.cold i seg hseg))

/-- A thread goes on, and has been at the same segments as before. -/
theorem Inv.setPhase (h : Inv kind pool numSegments numCleaners σ) {j : ℕ}
    (hj : j < numCleaners) {p : Phase} (hold : σ.phase j ≠ .published) (hnew : p ≠ .published)
    (hresidue : ∀ i, p.index = some i → i % numCleaners = j)
    (hwalking : ∀ i pos offset, p = .walking i pos offset → (pool i).status = .closed)
    (hreached : ∀ s, s % numCleaners = j → (p.Reached s ↔ (σ.phase j).Reached s)) :
    Inv kind pool numSegments numCleaners (σ.setPhase j p) := by
  refine h.advance hj rfl hold hnew hresidue hwalking (fun s hs => ?_)
    (fun s hs => (hreached s hs).mpr) h.cold (fun s => ?_) (h.queueNodup j hj) (fun _ _ => rfl)
    rfl rfl rfl
  · refine ⟨.inl, fun hor => hor.elim id fun ⟨hmod, hkind, hr⟩ => (h.table s hs).mpr ⟨hkind, ?_⟩⟩
    rw [Sys.Reached, hmod]
    exact (hreached s hmod).mp hr
  · refine (h.queue j hj s).trans (and_congr_right fun hs => ?_)
    rw [hreached s hs.2.1, and_iff_left hold]

theorem Inv.putItem (h : Inv kind pool numSegments numCleaners σ) {j : ℕ}
    {old : Option (Addr × ℕ)} (hstep : putItem pool σ j old = some σ') :
    Inv kind pool numSegments numCleaners σ' := by
  obtain ⟨i, pos, offset, kv, σ₁, seg, hphase, hmark, hseg, rfl⟩ := putItem_eq_some hstep
  obtain ⟨hj, hclosed⟩ := h.walking j i pos offset hphase
  have h₁ : Inv kind pool numSegments numCleaners σ₁ ∧ σ₁.phase = σ.phase := by
    rcases hmark with rfl | ⟨a, sz, hmark⟩
    · exact ⟨h, rfl⟩
    · obtain ⟨marked, hmarked, rfl⟩ := markGarbage_eq_some hmark
      exact ⟨h.setSegment hmarked rfl, rfl⟩
  have h₂ : Inv kind pool numSegments numCleaners
      (σ₁.setSegment i { seg with curCnt := seg.curCnt + 1 }) := h₁.1.setSegment hseg rfl
  have hphase₂ : (σ₁.setSegment i { seg with curCnt := seg.curCnt + 1 }).phase j
      = .walking i pos offset := (congrFun h₁.2 j).trans hphase
  refine h₂.setPhase hj (by rw [hphase₂]; exact Phase.noConfusion) Phase.noConfusion
    (fun k hk => ?_) (fun k _ _ hk => ?_) (fun s _ => by rw [hphase₂]; rfl)
  · exact h.residue j hj k (by rw [hphase]; exact hk)
  · obtain ⟨rfl, -, -⟩ := Phase.walking.inj hk
    exact hclosed

theorem Inv.endWalk (h : Inv kind pool numSegments numCleaners σ) {j : ℕ}
    (hstep : endWalk pool numCleaners σ j = some σ') :
    Inv kind pool numSegments numCleaners σ' := by
  obtain ⟨i, pos, offset, seg, hphase, hseg, rfl⟩ := endWalk_eq_some hstep
  have hj : j < numCleaners := (h.walking j i pos offset hphase).1
  have hmod : i % numCleaners = j := h.residue j hj i (by rw [hphase]; rfl)
  have hcold : (LogSegment.close { seg with tail := offset }).isHot = false :=
    h.cold i seg hseg
  rw [Sys.pushIfHot, hcold, if_neg Bool.false_ne_true]
  have h₁ : Inv kind pool numSegments numCleaners
      (σ.setSegment i (LogSegment.close { seg with tail := offset })) := h.setSegment hseg rfl
  refine h₁.setPhase hj (by rw [Sys.setSegment, hphase]; exact Phase.noConfusion)
    Phase.noConfusion (fun k hk => ?_) (fun k _ _ hk => by cases hk) (fun s hs => ?_)
  · rw [← Option.some.inj hk, Nat.add_mod_right]
    exact hmod
  · rw [Sys.setSegment, hphase]
    exact lt_add_iff_of_mod_eq (Nat.zero_lt_of_lt hj) (hs.trans hmod.symm)

theorem Inv.publish (h : Inv kind pool numSegments numCleaners σ) {j : ℕ}
    (hstep : publish numSegments numCleaners σ j = some σ') :
    Inv kind pool numSegments numCleaners σ' := by
  obtain ⟨i, hphase, hj, hi, rfl⟩ := publish_eq_some hstep
  have hself : Function.update σ.phase j .published j = .published := Function.update_self _ _ _
  have hne : ∀ k, k ≠ j → Function.update σ.phase j .published k = σ.phase k := fun k hk =>
    Function.update_of_ne hk _ _
  have hqueue : ∀ s, s ∈ σ.tmpFreeQueue j ↔
      s < numSegments ∧ s % numCleaners = j ∧ (pool s).status = .available := by
    intro s
    rw [h.queue j hj s, hphase]
    exact ⟨And.left, fun hs => ⟨hs, lt_of_lt_of_le hs.1 hi, Phase.noConfusion⟩⟩
  have hfree : ∀ s, s ∈ σ.freeSegments ++ σ.tmpFreeQueue j ↔
      (s < numSegments ∧ (pool s).status = .available) ∧
        Function.update σ.phase j .published (s % numCleaners) = .published := by
    intro s
    rw [List.mem_append, h.free s, hqueue s]
    by_cases hs : s % numCleaners = j
    · rw [hs, hself, hphase]
      simp
    · rw [hne _ hs]
      simp [hs]
  refine ⟨fun k hk i' hi' => ?_, fun k i' pos offset hi' => ?_, fun s hs => ?_, h.cold, h.closed,
    fun k hk s => ?_, fun k hk => ?_, hfree, ?_, ?_⟩
  · by_cases hkj : k = j
    · subst hkj
      simp only [hself] at hi'
      cases hi'
    · simp only [hne k hkj] at hi'
      exact h.residue k hk i' hi'
  · by_cases hkj : k = j
    · subst hkj
      simp only [hself] at hi'
      cases hi'
    · simp only [hne k hkj] at hi'
      exact h.walking k i' pos offset hi'
  · rw [h.table s hs]
    refine and_congr_right fun _ => ((reached_update (j := j) (p := .published) rfl).trans ?_).symm
    by_cases hsj : s % numCleaners = j
    · rw [Sys.Reached, hsj, hphase]
      exact iff_of_true (.inl ⟨rfl, trivial⟩) (lt_of_lt_of_le hs hi)
    · simp [hsj]
  · by_cases hkj : k = j
    · subst hkj
      simp
    · simp only [hne k hkj, Function.update_of_ne hkj]
      exact h.queue k hk s
  · by_cases hkj : k = j
    · subst hkj
      simp
    · simp only [Function.update_of_ne hkj]
      exact h.queueNodup k hk
  · refine List.nodup_append.mpr ⟨h.freeNodup, h.queueNodup j hj, fun a ha b hb hab => ?_⟩
    have hpub := ((h.free a).mp ha).2
    rw [hab, ((hqueue b).mp hb).2.1, hphase] at hpub
    cases hpub
  · rw [List.length_append, h.numFree]

/-- **Every step keeps the invariant.** -/
theorem Inv.step (h : Inv kind pool numSegments numCleaners σ) {e : Event}
    (hstep : step kind pool numSegments numCleaners σ e = some σ') :
    Inv kind pool numSegments numCleaners σ' := by
  cases e with
  | visit j => exact h.visit hstep
  | putItem j old => exact h.putItem hstep
  | endWalk j => exact h.endWalk hstep
  | publish j => exact h.publish hstep

/-- It holds after any steps. -/
theorem inv_of_run {events : List Event}
    (hrun : run kind pool numSegments numCleaners Sys.init events = some σ) :
    Inv kind pool numSegments numCleaners σ :=
  Machine.run_preserves _ (fun _ _ _ h hs => h.step hs) inv_init hrun

/-! ## After recovery -/

/-- The pools the routine restores: with `RecoveryAll` those without segments, with
`RecoverySegments` those without closed ones. -/
def Restorable (pool : ℕ → SegmentImage KVItem) (numSegments : ℕ) : Kind → Prop
  | .all => numSegments = 0
  | .segments => ∀ i < numSegments, (pool i).status ≠ .closed

/-- Every segment has been visited when the threads are through. -/
theorem Sys.Over.reached (hover : σ.Over numCleaners) (hc : 0 < numCleaners) (s : ℕ) :
    σ.Reached numCleaners s := by
  rw [Sys.Reached, hover _ (Nat.mod_lt s hc)]
  trivial

/-- A routine that finds all segments in the table and none closed has restored
them. -/
theorem Inv.restored (h : Inv kind pool numSegments numCleaners σ) (hover : σ.Over numCleaners)
    (hc : 0 < numCleaners) (htable : ∀ i < numSegments, (σ.allSegments i).isSome)
    (hnone : ∀ i < numSegments, (pool i).status ≠ .closed) :
    σ.Restored pool numSegments numCleaners := by
  have hfree : ∀ i, i ∈ σ.freeSegments ↔ i < numSegments ∧ (pool i).status = .available :=
    fun i => (h.free i).trans (and_iff_left (hover _ (Nat.mod_lt i hc)))
  refine ⟨htable, hfree, h.freeNodup, fun i hi hclosed => absurd hclosed (hnone i hi), ?_, ?_,
    h.numFree, fun i hi pos sz => ?_⟩
  · intro j i hi
    rw [h.closed j] at hi
    exact absurd hi List.not_mem_nil
  · intro j
    rw [h.closed j]
    exact List.nodup_nil
  · rw [Sys.markGarbage, Option.isSome_map]
    exact htable i ((hfree i).mp hi).1

/-- A closed segment is in no list. -/
theorem Inv.not_restored (h : Inv kind pool numSegments numCleaners σ) {i : ℕ}
    (hi : i < numSegments) (hclosed : (pool i).status = .closed) :
    ¬ σ.Restored pool numSegments numCleaners := by
  intro hr
  obtain ⟨j, ⟨-, hmem⟩, -⟩ := hr.closed i hi hclosed
  rw [h.closed j] at hmem
  exact absurd hmem List.not_mem_nil

/-- **What recovery restores**: after any steps of the threads that bring them to
their ends, the segments are as the log expects them if and only if the pool is
one of those the routine restores. -/
theorem restored_iff (hc : 1 ≤ numCleaners) {events : List Event}
    (hrun : run kind pool numSegments numCleaners Sys.init events = some σ)
    (hover : σ.Over numCleaners) :
    σ.Restored pool numSegments numCleaners ↔ Restorable pool numSegments kind := by
  have h := inv_of_run hrun
  cases kind with
  | all =>
    refine ⟨fun hr => ?_, fun hzero => ?_⟩
    · -- the first segment is missing from the table, or from the lists
      by_contra hne
      have hpos : 0 < numSegments := Nat.pos_of_ne_zero hne
      rcases ((h.table 0 hpos).mp (hr.table 0 hpos)).1 with hkind | hclosed
      · cases hkind
      · exact h.not_restored hpos hclosed hr
    · subst hzero
      exact h.restored hover hc (fun i hi => absurd hi (Nat.not_lt_zero i))
        (fun i hi => absurd hi (Nat.not_lt_zero i))
  | segments =>
    refine ⟨fun hr i hi hclosed => h.not_restored hi hclosed hr, fun hnone => ?_⟩
    exact h.restored hover hc
      (fun i hi => (h.table i hi).mpr ⟨.inl rfl, hover.reached hc i⟩) hnone

/-- A pool with two available segments, and two cleaners. -/
theorem restored_two :
    ∃ σ, run .segments (fun _ => {}) 2 2 Sys.init [.visit 0, .visit 1, .publish 1, .publish 0]
        = some σ ∧ σ.Over 2 ∧ σ.Restored (fun _ => {}) 2 2 := by
  have hover : ∃ σ ∈ run .segments (fun _ => {}) 2 2 Sys.init
      [.visit 0, .visit 1, .publish 1, .publish 0], σ.Over 2 := by decide
  obtain ⟨σ, hσ, hover⟩ := hover
  refine ⟨σ, hσ, hover, (restored_iff (by decide) hσ hover).mpr ?_⟩
  exact fun _ _ => SegmentStatus.noConfusion

/-- The routine restores every pool it can recover. -/
def Restores (kind : Kind) : Prop :=
  ∀ pool numSegments numCleaners events σ, 1 ≤ numCleaners →
    FlatStore.Recoverable pool numSegments →
    run kind pool numSegments numCleaners Sys.init events = some σ → σ.Over numCleaners →
    σ.Restored pool numSegments numCleaners

/-- **Neither routine restores every pool**: one misses an available segment, the
other a closed one. -/
theorem not_restores : ¬ Restores .all ∧ ¬ Restores .segments := by
  constructor
  · intro h
    have hr := h (fun _ => {}) 1 1 [.visit 0, .publish 0] _ le_rfl (by decide) rfl (by decide)
    exact absurd (hr.table 0 Nat.zero_lt_one) (by decide)
  · intro h
    have hr := h (fun _ => { status := .closed }) 1 1 [.visit 0, .publish 0] _ le_rfl (by decide)
      rfl (by decide)
    obtain ⟨j, ⟨-, hmem⟩, -⟩ := hr.closed 0 Nat.zero_lt_one rfl
    exact absurd hmem List.not_mem_nil

end Invariant

/-! ## Recovery ends -/

section Ends

variable (kind : Kind) {pool : ℕ → SegmentImage KVItem} {numSegments numCleaners : ℕ}
variable {σ : Sys} {j i : ℕ}

/-- A walk comes to the end of its segment, if the index answers that it did not
know the keys. -/
theorem reaches_endWalk (n : ℕ) {σ : Sys} {pos offset : ℕ}
    (hphase : σ.phase j = .walking i pos offset) (hn : (pool i).data.length - pos = n)
    {seg : LogSegment KVItem} (hseg : σ.allSegments i = some seg) :
    ∃ σ', Machine.Reaches (step kind pool numSegments numCleaners) σ σ' ∧
      σ'.phase = Function.update σ.phase j (.scanning (i + numCleaners)) := by
  induction n generalizing σ pos offset seg with
  | zero =>
    have hend : (endWalk pool numCleaners σ j).isSome := by
      rw [endWalk, hphase]
      simp [hseg, Nat.sub_eq_zero_iff_le.mp hn]
    obtain ⟨σ', hσ'⟩ := Option.isSome_iff_exists.mp hend
    refine ⟨σ', .single (.endWalk j) hσ', ?_⟩
    obtain ⟨i', pos', offset', seg', hphase', -, rfl⟩ := endWalk_eq_some hσ'
    obtain ⟨rfl, rfl, rfl⟩ := Phase.walking.inj (hphase.symm.trans hphase')
    show Function.update (Sys.pushIfHot _ _ _ _).phase j _ = _
    rw [Sys.pushIfHot]
    split <;> rfl
  | succ n ih =>
    have hpos : pos < (pool i).data.length := by omega
    have hput : putItem pool σ j none = some
        ((σ.setSegment i { seg with curCnt := seg.curCnt + 1 }).setPhase j
          (.walking i (pos + 1) (offset + ((pool i).data[pos]).size))) := by
      rw [putItem, hphase]
      simp [List.getElem?_eq_getElem hpos, hseg]
    have hstep : Machine.Reaches (step kind pool numSegments numCleaners) σ _ :=
      .single (.putItem j none) hput
    have hn' : (pool i).data.length - (pos + 1) = n := by omega
    obtain ⟨σ', hreaches, hphase'⟩ := ih
      (σ := (σ.setSegment i { seg with curCnt := seg.curCnt + 1 }).setPhase j
        (.walking i (pos + 1) (offset + ((pool i).data[pos]).size)))
      (Function.update_self ..) hn' (Function.update_self ..)
    refine ⟨σ', hstep.trans hreaches, hphase'.trans ?_⟩
    exact Function.update_idem ..

/-- A visit brings the thread to the next segment of its residue. -/
theorem reaches_next (hrec : FlatStore.Recoverable pool numSegments) (hj : j < numCleaners)
    (hi : i < numSegments) (hphase : σ.phase j = .scanning i) :
    ∃ σ', Machine.Reaches (step kind pool numSegments numCleaners) σ σ' ∧
      σ'.phase = Function.update σ.phase j (.scanning (i + numCleaners)) := by
  have hvisit : visit kind pool numSegments numCleaners σ j
      = visit kind pool numSegments numCleaners σ j := rfl
  conv_rhs at hvisit => rw [visit, hphase]
  simp only [if_pos (And.intro hj hi)] at hvisit
  cases hs : (pool i).status with
  | inUse => exact absurd hs (hrec i hi)
  | available =>
    cases kind <;> rw [hs] at hvisit <;> exact ⟨_, .single (.visit j) hvisit, rfl⟩
  | closed =>
    cases kind with
    | segments => rw [hs] at hvisit; exact ⟨_, .single (.visit j) hvisit, rfl⟩
    | all =>
      rw [hs] at hvisit
      have hstep : Machine.Reaches (step .all pool numSegments numCleaners) σ _ :=
        .single (.visit j) hvisit
      obtain ⟨σ', hreaches, hphase'⟩ := reaches_endWalk .all _
        (σ := (σ.setSegment i (.attach (pool i) segmentDataSize)).setPhase j (.walking i 0 0))
        (Function.update_self ..) rfl (Function.update_self ..)
      exact ⟨σ', hstep.trans hreaches, hphase'.trans (Function.update_idem ..)⟩

/-- A thread comes to its end. -/
theorem reaches_published (hrec : FlatStore.Recoverable pool numSegments) (hj : j < numCleaners)
    (n : ℕ) {σ : Sys} {i : ℕ} (hn : numSegments - i ≤ n) (hphase : σ.phase j = .scanning i) :
    ∃ σ', Machine.Reaches (step kind pool numSegments numCleaners) σ σ' ∧
      σ'.phase = Function.update σ.phase j .published := by
  induction n generalizing σ i with
  | zero =>
    have hpublish : (publish numSegments numCleaners σ j).isSome := by
      rw [publish, hphase]
      simp [hj, Nat.sub_eq_zero_iff_le.mp (Nat.le_zero.mp hn)]
    obtain ⟨σ', hσ'⟩ := Option.isSome_iff_exists.mp hpublish
    refine ⟨σ', .single (.publish j) hσ', ?_⟩
    obtain ⟨i', -, -, -, rfl⟩ := publish_eq_some hσ'
    rfl
  | succ n ih =>
    by_cases hi : i < numSegments
    · obtain ⟨σ₁, hreaches₁, hphase₁⟩ := reaches_next kind hrec hj hi hphase
      obtain ⟨σ', hreaches, hphase'⟩ := ih (σ := σ₁) (i := i + numCleaners) (by omega)
        (by rw [hphase₁, Function.update_self])
      refine ⟨σ', hreaches₁.trans hreaches, ?_⟩
      rw [hphase', hphase₁, Function.update_idem]
    · exact ih (by omega) hphase

/-- **Recovery ends**: from a pool whose segments are available or closed the
threads come to their ends. -/
theorem exists_over (hrec : FlatStore.Recoverable pool numSegments) :
    ∃ events σ, run kind pool numSegments numCleaners Sys.init events = some σ ∧
      σ.Over numCleaners := by
  have hall : ∀ n ≤ numCleaners, ∃ σ,
      Machine.Reaches (step kind pool numSegments numCleaners) Sys.init σ ∧
        σ.phase = fun j => if j < n then .published else .scanning j := by
    intro n hn
    induction n with
    | zero => exact ⟨Sys.init, .refl _, rfl⟩
    | succ n ih =>
      obtain ⟨σ, hreaches, hphase⟩ := ih (Nat.le_of_succ_le hn)
      obtain ⟨σ', hreaches', hphase'⟩ := reaches_published kind hrec
        (Nat.lt_of_succ_le hn) (numSegments - n) (σ := σ) (i := n) le_rfl (by rw [hphase]; simp)
      refine ⟨σ', hreaches.trans hreaches', ?_⟩
      rw [hphase', hphase]
      exact update_ite_lt (fun _ => Phase.published) Phase.scanning n
  obtain ⟨σ, ⟨events, hrun⟩, hphase⟩ := hall numCleaners le_rfl
  refine ⟨events, σ, hrun, fun j hj => ?_⟩
  rw [hphase]
  exact if_pos hj

end Ends

end RecoveryTable
