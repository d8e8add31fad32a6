import PKBench.FlatStore
import PKBench.Machine

/-!
# Workers and cleaners on one log

Any number of workers put records while the cleaners compact closed segments.
The steps are the ones the locks and atomic operations of the source leave: a
worker takes a segment from the queue, appends an item, tells the index, closes
its segment; a cleaner picks a closed segment, and for each of its items looks
in the index whether it is still wanted, appends a copy, and moves the index
entry to the copy if it still points to the original; then it clears the
segment. The index is a correct map: `Put` overwrites, and `GCMove` installs
the copy only over the entry it was made from.

Two things are added that the source does not keep. An item carries the number
of the `Put` it was written for, also in its copies, and for each key the
number of the last `Put` that took effect is kept (`latest`): it is the most
recent `Put` of the key in the order of the index.

Each step has an inversion lemma, which says when it is possible and what it
leads to; nothing that follows looks into the definitions of the steps.
-/

namespace CleaningLog

/-! ## States -/

/-- An item of the log, with the number of its `Put`. -/
structure LogItem where
  kv : KVItem
  put : ℕ

/-- What a cleaner is doing. -/
inductive Phase where
  | idle
  /-- In `CompactSegment`, at an item. -/
  | scanning (victim pos : ℕ)
  /-- The item has been copied, and the index is not yet moved to the copy. -/
  | copied (victim pos : ℕ) (copy : Addr)
  deriving DecidableEq

/-- The segment a cleaner goes through. -/
def Phase.victim : Phase → Option ℕ
  | .idle => none
  | .scanning v _ => some v
  | .copied v _ _ => some v

/-- The items in front of this one are done with. -/
def Phase.pos : Phase → ℕ
  | .idle => 0
  | .scanning _ pos => pos
  | .copied _ pos _ => pos

/-- **The state of the workers, the cleaners and what they share.** -/
structure Sys where
  log : LogStructured LogItem
  index : List UInt8 → Option Addr
  /-- `log_head_` of each worker. -/
  head : ℕ → Option ℕ
  /-- The item a worker has appended and not yet told the index about. -/
  pending : ℕ → Option Addr
  phase : ℕ → Phase
  /-- The number of the last `Put` of a key to reach the index. -/
  latest : List UInt8 → Option ℕ
  putCount : ℕ

/-- A new store on a pool. -/
def Sys.init (numSegments numCleaners : ℕ) (pool : ℕ → SegmentImage LogItem) : Sys where
  log := LogStructured.create numSegments numCleaners pool
  index _ := none
  head _ := none
  pending _ := none
  phase _ := .idle
  latest _ := none
  putCount := 0

/-! ## Steps -/

/-- A worker without a segment takes one: `NewSegment` in `MakeKVItem`. -/
def take (σ : Sys) (w : ℕ) : Option Sys :=
  if σ.head w = none then
    σ.log.newSegment.map (fun r => { σ with
      log := r.2
      head := Function.update σ.head w (some r.1) })
  else none

/-- A worker appends an item: `Append` in `MakeKVItem`. -/
def append (σ : Sys) (w : ℕ) (kv : KVItem) : Option Sys :=
  if σ.pending w = none then
    (σ.head w).bind (fun s =>
      (σ.log.append s kv.size ⟨kv, σ.putCount⟩).map (fun r => { σ with
        log := r.2
        pending := Function.update σ.pending w (some r.1)
        putCount := σ.putCount + 1 }))
  else none

/-- A worker tells the index where its item is: `UpdateIndex`. -/
def install (σ : Sys) (w : ℕ) : Option Sys :=
  (σ.pending w).bind (fun a =>
    (σ.log.read a).map (fun item => { σ with
      index := Function.update σ.index item.kv.key (some a)
      latest := Function.update σ.latest item.kv.key (some item.put)
      pending := Function.update σ.pending w none }))

/-- A worker closes its segment: `FreezeSegment` in `MakeKVItem` and in the
destructor. -/
def freeze (σ : Sys) (w : ℕ) : Option Sys :=
  if σ.pending w = none then
    (σ.head w).map (fun s => { σ with
      log := σ.log.freezeSegment (some s)
      head := Function.update σ.head w none })
  else none

/-- A cleaner picks one of its closed segments: `DoMemoryClean`. -/
def pick (σ : Sys) (j v : ℕ) : Option Sys :=
  if σ.phase j = .idle ∧ v ∈ σ.log.closedSegments j then
    some { σ with
      log := { σ.log with
        closedSegments := Function.update σ.log.closedSegments j
          ((σ.log.closedSegments j).erase v) }
      phase := Function.update σ.phase j (.scanning v 0) }
  else none

/-- A cleaner between two items closes the segment it appends to and goes on
with the one in reserve. -/
def refill (σ : Sys) (j : ℕ) : Option Sys :=
  match σ.phase j with
  | .scanning _ _ => (σ.log.freezeReservedAndGetNew j).map (fun log => { σ with log := log })
  | .idle => none
  | .copied _ _ _ => none

/-- A cleaner looks at the next item: it passes over garbage, and appends a
copy of anything else. -/
def compactItem (σ : Sys) (j : ℕ) : Option Sys :=
  match σ.phase j with
  | .scanning v pos =>
      (σ.log.read ⟨v, pos⟩).bind (fun item =>
        if σ.index item.kv.key = some ⟨v, pos⟩ then
          (σ.log.reserved j).bind (fun r =>
            (σ.log.append r item.kv.size item).map (fun p => { σ with
              log := p.2
              phase := Function.update σ.phase j (.copied v pos p.1) }))
        else
          some { σ with phase := Function.update σ.phase j (.scanning v (pos + 1)) })
  | .idle => none
  | .copied _ _ _ => none

/-- A cleaner moves the index entry to the copy, if it points to the original:
`GCMove`. -/
def gcMove (σ : Sys) (j : ℕ) : Option Sys :=
  match σ.phase j with
  | .copied v pos copy =>
      (σ.log.read ⟨v, pos⟩).map (fun item => { σ with
        index :=
          if σ.index item.kv.key = some ⟨v, pos⟩ then
            Function.update σ.index item.kv.key (some copy)
          else σ.index
        phase := Function.update σ.phase j (.scanning v (pos + 1)) })
  | .idle => none
  | .scanning _ _ => none

/-- A cleaner at the end of its segment clears it. -/
def finish (σ : Sys) (j : ℕ) : Option Sys :=
  match σ.phase j with
  | .scanning v pos =>
      if pos = (σ.log.segments v).data.length then
        some { σ with
          log := σ.log.retire j v
          phase := Function.update σ.phase j .idle }
      else none
  | .idle => none
  | .copied _ _ _ => none

/-- A cleaner that is not compacting is destroyed. -/
def destroyCleaner (σ : Sys) (j : ℕ) : Option Sys :=
  if σ.phase j = .idle then some { σ with log := σ.log.destroyCleaner j } else none

/-- What can happen. -/
inductive Event where
  | take (w : ℕ)
  | append (w : ℕ) (kv : KVItem)
  | install (w : ℕ)
  | freeze (w : ℕ)
  | pick (j v : ℕ)
  | refill (j : ℕ)
  | compactItem (j : ℕ)
  | gcMove (j : ℕ)
  | finish (j : ℕ)
  | destroyCleaner (j : ℕ)

/-- One step. -/
def step (σ : Sys) : Event → Option Sys
  | .take w => take σ w
  | .append w kv => append σ w kv
  | .install w => install σ w
  | .freeze w => freeze σ w
  | .pick j v => pick σ j v
  | .refill j => refill σ j
  | .compactItem j => compactItem σ j
  | .gcMove j => gcMove σ j
  | .finish j => finish σ j
  | .destroyCleaner j => destroyCleaner σ j

/-- Any interleaving of workers and cleaners. -/
def run (σ : Sys) (events : List Event) : Option Sys := Machine.run step σ events

variable {σ σ' : Sys}

/-! ## What each step does -/

theorem take_eq_some {w : ℕ} (h : take σ w = some σ') :
    σ.head w = none ∧ ∃ s rest, σ.log.freeSegments = s :: rest
      ∧ σ' = { σ with
          log := { σ.log.setSegment s ((σ.log.segments s).startUsing true true) with
            freeSegments := rest }
          head := Function.update σ.head w (some s) } := by
  obtain ⟨hhead, hmap⟩ := Option.ite_none_right_eq_some.mp h
  obtain ⟨⟨s, log⟩, hnew, rfl⟩ := Option.map_eq_some_iff.mp hmap
  obtain ⟨rest, hfree, rfl⟩ := LogStructured.newSegment_eq_some hnew
  exact ⟨hhead, s, rest, hfree, rfl⟩

theorem append_eq_some {w : ℕ} {kv : KVItem} (h : append σ w kv = some σ') :
    ∃ s a log, σ.pending w = none ∧ σ.head w = some s
      ∧ σ.log.append s kv.size ⟨kv, σ.putCount⟩ = some (a, log)
      ∧ σ' = { σ with
          log := log
          pending := Function.update σ.pending w (some a)
          putCount := σ.putCount + 1 } := by
  obtain ⟨hpending, hbind⟩ := Option.ite_none_right_eq_some.mp h
  obtain ⟨s, hhead, hmap⟩ := Option.bind_eq_some_iff.mp hbind
  obtain ⟨⟨a, log⟩, happ, rfl⟩ := Option.map_eq_some_iff.mp hmap
  exact ⟨s, a, log, hpending, hhead, happ, rfl⟩

theorem install_eq_some {w : ℕ} (h : install σ w = some σ') :
    ∃ a item, σ.pending w = some a ∧ σ.log.read a = some item
      ∧ σ' = { σ with
          index := Function.update σ.index item.kv.key (some a)
          latest := Function.update σ.latest item.kv.key (some item.put)
          pending := Function.update σ.pending w none } := by
  obtain ⟨a, hpending, hmap⟩ := Option.bind_eq_some_iff.mp h
  obtain ⟨item, hread, rfl⟩ := Option.map_eq_some_iff.mp hmap
  exact ⟨a, item, hpending, hread, rfl⟩

theorem freeze_eq_some {w : ℕ} (h : freeze σ w = some σ') :
    ∃ s, σ.pending w = none ∧ σ.head w = some s
      ∧ σ' = { σ with
          log := σ.log.freezeSegment (some s)
          head := Function.update σ.head w none } := by
  obtain ⟨hpending, hmap⟩ := Option.ite_none_right_eq_some.mp h
  obtain ⟨s, hhead, rfl⟩ := Option.map_eq_some_iff.mp hmap
  exact ⟨s, hpending, hhead, rfl⟩

theorem pick_eq_some {j v : ℕ} (h : pick σ j v = some σ') :
    σ.phase j = .idle ∧ v ∈ σ.log.closedSegments j
      ∧ σ' = { σ with
          log := { σ.log with
            closedSegments := Function.update σ.log.closedSegments j
              ((σ.log.closedSegments j).erase v) }
          phase := Function.update σ.phase j (.scanning v 0) } := by
  obtain ⟨⟨hidle, hmem⟩, hsome⟩ := Option.ite_none_right_eq_some.mp h
  exact ⟨hidle, hmem, (Option.some.inj hsome).symm⟩

theorem refill_eq_some {j : ℕ} (h : refill σ j = some σ') :
    ∃ v pos b, σ.phase j = .scanning v pos ∧ σ.log.backup j = some b
      ∧ σ' = { σ with
          log := { (σ.log.releaseReserved j).setSegment b
              (((σ.log.releaseReserved j).segments b).startUsing false false) with
            reserved := Function.update (σ.log.releaseReserved j).reserved j (some b)
            backup := Function.update (σ.log.releaseReserved j).backup j none } } := by
  unfold refill at h
  cases hphase : σ.phase j with
  | idle => rw [hphase] at h; cases h
  | copied v pos a => rw [hphase] at h; cases h
  | scanning v pos =>
    rw [hphase] at h
    obtain ⟨log, hnew, rfl⟩ := Option.map_eq_some_iff.mp h
    unfold LogStructured.freezeReservedAndGetNew at hnew
    cases hb : σ.log.backup j with
    | none => rw [hb] at hnew; cases hnew
    | some b =>
      rw [hb] at hnew
      obtain rfl := Option.some.inj hnew
      exact ⟨v, pos, b, rfl, rfl, rfl⟩

/-- A cleaner that looks at an item finds garbage, or makes a copy. -/
theorem compactItem_eq_some {j : ℕ} (h : compactItem σ j = some σ') :
    ∃ v pos item, σ.phase j = .scanning v pos ∧ σ.log.read ⟨v, pos⟩ = some item
      ∧ ((σ.index item.kv.key ≠ some ⟨v, pos⟩
          ∧ σ' = { σ with phase := Function.update σ.phase j (.scanning v (pos + 1)) })
        ∨ ∃ r a log, σ.log.reserved j = some r
          ∧ σ.log.append r item.kv.size item = some (a, log)
          ∧ σ' = { σ with
              log := log
              phase := Function.update σ.phase j (.copied v pos a) }) := by
  unfold compactItem at h
  cases hphase : σ.phase j with
  | idle => rw [hphase] at h; cases h
  | copied v pos a => rw [hphase] at h; cases h
  | scanning v pos =>
    rw [hphase] at h
    obtain ⟨item, hread, h⟩ := Option.bind_eq_some_iff.mp h
    refine ⟨v, pos, item, rfl, hread, ?_⟩
    by_cases hindex : σ.index item.kv.key = some ⟨v, pos⟩
    · rw [if_pos hindex] at h
      obtain ⟨r, hr, h⟩ := Option.bind_eq_some_iff.mp h
      obtain ⟨⟨a, log⟩, happ, rfl⟩ := Option.map_eq_some_iff.mp h
      exact Or.inr ⟨r, a, log, hr, happ, rfl⟩
    · rw [if_neg hindex] at h
      exact Or.inl ⟨hindex, (Option.some.inj h).symm⟩

theorem gcMove_eq_some {j : ℕ} (h : gcMove σ j = some σ') :
    ∃ v pos copy item, σ.phase j = .copied v pos copy ∧ σ.log.read ⟨v, pos⟩ = some item
      ∧ σ' = { σ with
          index :=
            if σ.index item.kv.key = some ⟨v, pos⟩ then
              Function.update σ.index item.kv.key (some copy)
            else σ.index
          phase := Function.update σ.phase j (.scanning v (pos + 1)) } := by
  unfold gcMove at h
  cases hphase : σ.phase j with
  | idle => rw [hphase] at h; cases h
  | scanning v pos => rw [hphase] at h; cases h
  | copied v pos copy =>
    rw [hphase] at h
    obtain ⟨item, hread, rfl⟩ := Option.map_eq_some_iff.mp h
    exact ⟨v, pos, copy, item, rfl, hread, rfl⟩

theorem finish_eq_some {j : ℕ} (h : finish σ j = some σ') :
    ∃ v, σ.phase j = .scanning v (σ.log.segments v).data.length
      ∧ σ' = { σ with
          log := σ.log.retire j v
          phase := Function.update σ.phase j .idle } := by
  unfold finish at h
  cases hphase : σ.phase j with
  | idle => rw [hphase] at h; cases h
  | copied v pos a => rw [hphase] at h; cases h
  | scanning v pos =>
    rw [hphase] at h
    obtain ⟨rfl, hsome⟩ := Option.ite_none_right_eq_some.mp h
    exact ⟨v, rfl, (Option.some.inj hsome).symm⟩

theorem destroyCleaner_eq_some {j : ℕ} (h : destroyCleaner σ j = some σ') :
    σ.phase j = .idle ∧ σ' = { σ with log := σ.log.destroyCleaner j } := by
  obtain ⟨hidle, hsome⟩ := Option.ite_none_right_eq_some.mp h
  exact ⟨hidle, (Option.some.inj hsome).symm⟩

end CleaningLog
