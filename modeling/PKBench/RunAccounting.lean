import PKBench.LoadIds
import Mathlib.Algebra.Order.BigOperators.Group.List
import Mathlib.Algebra.BigOperators.Group.Finset.Basic

/-!
# The accounts of a run

`run_op` counts every operation twice, once under its kind and once under
`operation_count`, and counts a success of its kind when the client returned
one. When the workers are done `run` adds their counters up in twelve
accumulations of 64-bit integers, refuses to go on if the operations do not add
up to `num_ops`, and publishes the rest.

The accounts of one worker balance after each of its operations
(`balanced_runWorker`), whatever was drawn and whatever the client returned. The
totals of the team balance because there is room for them: in operation mode
the loop hands out `num_ops` iterations, so no accumulation goes round
(`balanced_totals`).
-/

namespace Stats

/-- **Accounts that balance**: every operation is counted under one kind, and no
kind has more successes than operations. -/
structure Balanced (stats : Stats) : Prop where
  operations : stats.operationCount
    = stats.insertCount + stats.readCount + stats.updateCount + stats.removeCount
      + stats.scanCount
  insert : stats.successInsertCount ≤ stats.insertCount
  read : stats.successReadCount ≤ stats.readCount
  update : stats.successUpdateCount ≤ stats.updateCount
  remove : stats.successRemoveCount ≤ stats.removeCount
  scan : stats.successScanCount ≤ stats.scanCount

theorem balanced_empty : Balanced {} where
  operations := rfl
  insert := le_rfl
  read := le_rfl
  update := le_rfl
  remove := le_rfl
  scan := le_rfl

/-- One more operation of a kind, with or without success. -/
theorem success_le {s n : ℕ} (h : s ≤ n) (r : Bool) : s + r.toNat ≤ n + 1 :=
  Nat.add_le_add h r.toNat_le

/-- **Every branch of `run_op` keeps the accounts.** -/
theorem Balanced.runOp {stats : Stats} (h : stats.Balanced) (op : Operation) (r : Bool) :
    (stats.runOp op r).Balanced := by
  have hops := h.operations
  cases op with
  | read =>
    refine ⟨?_, h.insert, success_le h.read r, h.update, h.remove, h.scan⟩
    show stats.operationCount + 1 = stats.insertCount + (stats.readCount + 1)
      + stats.updateCount + stats.removeCount + stats.scanCount
    omega
  | insert =>
    refine ⟨?_, success_le h.insert r, h.read, h.update, h.remove, h.scan⟩
    show stats.operationCount + 1 = stats.insertCount + 1 + stats.readCount
      + stats.updateCount + stats.removeCount + stats.scanCount
    omega
  | update =>
    refine ⟨?_, h.insert, h.read, success_le h.update r, h.remove, h.scan⟩
    show stats.operationCount + 1 = stats.insertCount + stats.readCount
      + (stats.updateCount + 1) + stats.removeCount + stats.scanCount
    omega
  | remove =>
    refine ⟨?_, h.insert, h.read, h.update, success_le h.remove r, h.scan⟩
    show stats.operationCount + 1 = stats.insertCount + stats.readCount
      + stats.updateCount + (stats.removeCount + 1) + stats.scanCount
    omega
  | scan =>
    refine ⟨?_, h.insert, h.read, h.update, h.remove, success_le h.scan r⟩
    show stats.operationCount + 1 = stats.insertCount + stats.readCount
      + stats.updateCount + stats.removeCount + (stats.scanCount + 1)
    omega

/-- Time stamps are no part of the accounts. -/
theorem Balanced.stamp {stats : Stats} (h : stats.Balanced) (measure : Bool) (clock : ℕ) :
    (stats.stamp measure clock).Balanced := by
  unfold Stats.stamp
  cases measure with
  | false => exact h
  | true => exact ⟨h.operations, h.insert, h.read, h.update, h.remove, h.scan⟩

theorem operationCount_stamp (stats : Stats) (measure : Bool) (clock : ℕ) :
    (stats.stamp measure clock).operationCount = stats.operationCount := by
  unfold Stats.stamp
  cases measure <;> rfl

theorem operationCount_runOp (stats : Stats) (op : Operation) (r : Bool) :
    (stats.runOp op r).operationCount = stats.operationCount + 1 := by
  cases op <;> rfl

/-- No kind has more operations than there are. -/
theorem Balanced.kinds_le {stats : Stats} (h : stats.Balanced) :
    stats.insertCount ≤ stats.operationCount ∧ stats.readCount ≤ stats.operationCount
      ∧ stats.updateCount ≤ stats.operationCount ∧ stats.removeCount ≤ stats.operationCount
      ∧ stats.scanCount ≤ stats.operationCount := by
  rw [h.operations]
  omega

/-- The successes of all kinds. -/
def successOps (stats : Stats) : ℕ :=
  stats.successInsertCount + stats.successReadCount + stats.successUpdateCount
    + stats.successRemoveCount + stats.successScanCount

theorem Balanced.successOps_le {stats : Stats} (h : stats.Balanced) :
    stats.successOps ≤ stats.operationCount := by
  rw [h.operations]
  exact Nat.add_le_add (Nat.add_le_add (Nat.add_le_add (Nat.add_le_add h.insert h.read)
    h.update) h.remove) h.scan

end Stats

namespace Benchmark

variable (e : Endianness) (opt : Options) (g : KeyGenerator)

/-! ## One worker -/

theorem balanced_executeOp (gen : OperationGenerator) (inp : OpInput) {w : Worker}
    (h : w.stats.Balanced) : (executeOp e opt g gen w inp).2.stats.Balanced :=
  ((h.stamp _ _).runOp _ _).stamp _ _

/-- **The accounts of a worker balance all along its loop.** -/
theorem balanced_runWorker (gen : OperationGenerator) (inputs : List OpInput) {w : Worker}
    (h : w.stats.Balanced) : (runWorker e opt g gen inputs w).2.stats.Balanced := by
  induction inputs generalizing w with
  | nil => exact h
  | cons inp inputs ih => exact ih (balanced_executeOp e opt g gen inp h)

theorem operationCount_runWorker (gen : OperationGenerator) (inputs : List OpInput) (w : Worker) :
    (runWorker e opt g gen inputs w).2.stats.operationCount
      = w.stats.operationCount + inputs.length := by
  induction inputs generalizing w with
  | nil => rfl
  | cons inp inputs ih =>
    show (runWorker e opt g gen inputs (executeOp e opt g gen w inp).2).2.stats.operationCount = _
    have hone : (executeOp e opt g gen w inp).2.stats.operationCount
        = w.stats.operationCount + 1 := by
      show (Stats.stamp (Stats.runOp (w.stats.stamp _ _) _ _) _ _).operationCount = _
      rw [Stats.operationCount_stamp, Stats.operationCount_runOp, Stats.operationCount_stamp]
    rw [ih, hone, List.length_cons]
    omega

/-- The statistics of worker `tid` after the first `n` of its operations. -/
def statsAfter (gen : OperationGenerator) (sec : Section) (main : ThreadLocals)
    (tls : ℕ → ThreadLocals) (input : RunInput opt) (tid n : ℕ) : Stats :=
  (runWorker e opt g gen ((input.inputs tid).take n)
    (startWorker opt main.currentId tid (workerLocals sec main tls tid))).2.stats

/-- `local_stats` at the end of a run. -/
def localStats (gen : OperationGenerator) (sec : Section) (main : ThreadLocals)
    (tls : ℕ → ThreadLocals) (input : RunInput opt) : List Stats :=
  (List.range (team opt)).map (fun tid => (runThread e opt g gen sec main tls input tid).2.stats)

/-! ## The totals of the team -/

/-- The totals `run` publishes. -/
structure Totals where
  ops : UInt64
  successOps : UInt64
  insert : UInt64
  successInsert : UInt64
  read : UInt64
  successRead : UInt64
  update : UInt64
  successUpdate : UInt64
  remove : UInt64
  successRemove : UInt64
  scan : UInt64
  successScan : UInt64

/-- `std::accumulate` over `local_stats`, from zero. -/
def accumulate (step : UInt64 → Stats → UInt64) (stats : List Stats) : UInt64 :=
  stats.foldl step 0

/-- The accumulation of one counter. -/
def total (count : Stats → ℕ) (stats : List Stats) : UInt64 :=
  accumulate (fun sum curr => sum + UInt64.ofNat (count curr)) stats

/-- **The twelve accumulations of `run`.** -/
def totals (stats : List Stats) : Totals where
  ops := total Stats.operationCount stats
  successOps := accumulate (fun sum curr =>
    sum + UInt64.ofNat curr.successInsertCount + UInt64.ofNat curr.successReadCount
      + UInt64.ofNat curr.successUpdateCount + UInt64.ofNat curr.successRemoveCount
      + UInt64.ofNat curr.successScanCount) stats
  insert := total Stats.insertCount stats
  successInsert := total Stats.successInsertCount stats
  read := total Stats.readCount stats
  successRead := total Stats.successReadCount stats
  update := total Stats.updateCount stats
  successUpdate := total Stats.successUpdateCount stats
  remove := total Stats.removeCount stats
  successRemove := total Stats.successRemoveCount stats
  scan := total Stats.scanCount stats
  successScan := total Stats.successScanCount stats

/-- **What `run` does with the totals**: in operation mode it stops unless they
account for every operation asked for. -/
def publish (stats : List Stats) : Except String Totals :=
  if opt.bmMode = .operation ∧ opt.numOps ≠ (totals stats).ops then
    .error "Fatal: Total operations specified/performed don't match!"
  else
    .ok (totals stats)

/-- An accumulation of machine integers is that of the numbers, cut off. -/
theorem total_eq (count : Stats → ℕ) (stats : List Stats) :
    total count stats = UInt64.ofNat (stats.map count).sum := by
  have hfold : ∀ (l : List Stats) (n : ℕ),
      l.foldl (fun sum curr => sum + UInt64.ofNat (count curr)) (UInt64.ofNat n)
        = UInt64.ofNat (n + (l.map count).sum) := by
    intro l
    induction l with
    | nil => exact fun n => rfl
    | cons s l ih =>
      intro n
      rw [List.foldl_cons, ← UInt64.ofNat_add, ih, List.map_cons, List.sum_cons, Nat.add_assoc]
  have h := hfold stats 0
  rwa [Nat.zero_add] at h

/-- The five successes of a worker may be added one after the other. -/
theorem successOps_totals (stats : List Stats) :
    (totals stats).successOps = total Stats.successOps stats := by
  show accumulate _ stats = accumulate _ stats
  congr 1
  funext sum curr
  unfold Stats.successOps
  simp only [UInt64.ofNat_add, UInt64.add_assoc]

theorem toNat_total {count : Stats → ℕ} {stats : List Stats}
    (h : (stats.map count).sum < idSpace) :
    (total count stats).toNat = (stats.map count).sum := by
  rw [total_eq, UInt64.toNat_ofNat']
  exact Nat.mod_eq_of_lt h

/-- A total that has room is at least the total of a smaller counter. -/
theorem total_le_total {count count' : Stats → ℕ} {stats : List Stats}
    (hle : ∀ s ∈ stats, count s ≤ count' s) (h : (stats.map count').sum < idSpace) :
    total count stats ≤ total count' stats := by
  have hsum : (stats.map count).sum ≤ (stats.map count').sum := List.sum_le_sum hle
  rw [UInt64.le_iff_toNat_le, toNat_total h, toNat_total (hsum.trans_lt h)]
  exact hsum

/-- **Totals that balance.** -/
structure Totals.Balanced (t : Totals) : Prop where
  operations : t.ops = t.insert + t.read + t.update + t.remove + t.scan
  successes : t.successOps
    = t.successInsert + t.successRead + t.successUpdate + t.successRemove + t.successScan
  insert : t.successInsert ≤ t.insert
  read : t.successRead ≤ t.read
  update : t.successUpdate ≤ t.update
  remove : t.successRemove ≤ t.remove
  scan : t.successScan ≤ t.scan
  success_le : t.successOps ≤ t.ops

/-- The total of a sum of counters. -/
theorem total_add (count count' : Stats → ℕ) (stats : List Stats) :
    total (fun s => count s + count' s) stats = total count stats + total count' stats := by
  rw [total_eq, total_eq, total_eq, ← UInt64.ofNat_add, ← List.sum_map_add]

/-- **The totals balance** if every worker's accounts do and there is room for
the operations. -/
theorem balanced_totals {stats : List Stats} (h : ∀ s ∈ stats, s.Balanced)
    (hroom : (stats.map Stats.operationCount).sum < idSpace) : (totals stats).Balanced := by
  -- a kind that is part of the operations has room, and so have its successes
  have hkind : ∀ success kind : Stats → ℕ, (∀ s ∈ stats, success s ≤ kind s) →
      (∀ s ∈ stats, kind s ≤ s.operationCount) → total success stats ≤ total kind stats :=
    fun _ _ hle hpart => total_le_total hle ((List.sum_le_sum hpart).trans_lt hroom)
  have hops : total Stats.operationCount stats
      = total (fun s => s.insertCount + s.readCount + s.updateCount + s.removeCount
          + s.scanCount) stats := by
    rw [total_eq, total_eq, List.map_congr_left (fun s hs => (h s hs).operations)]
  refine ⟨?_, ?_, ?_, ?_, ?_, ?_, ?_, ?_⟩
  · show total Stats.operationCount stats = _
    rw [hops, total_add, total_add, total_add, total_add]
    rfl
  · rw [successOps_totals]
    unfold Stats.successOps
    rw [total_add, total_add, total_add, total_add]
    rfl
  · exact hkind _ _ (fun s hs => (h s hs).insert) (fun s hs => (h s hs).kinds_le.1)
  · exact hkind _ _ (fun s hs => (h s hs).read) (fun s hs => (h s hs).kinds_le.2.1)
  · exact hkind _ _ (fun s hs => (h s hs).update) (fun s hs => (h s hs).kinds_le.2.2.1)
  · exact hkind _ _ (fun s hs => (h s hs).remove) (fun s hs => (h s hs).kinds_le.2.2.2.1)
  · exact hkind _ _ (fun s hs => (h s hs).scan) (fun s hs => (h s hs).kinds_le.2.2.2.2)
  · rw [successOps_totals]
    exact total_le_total (fun s hs => (h s hs).successOps_le) hroom

/-- The operations of a run in operation mode, added up over the workers. -/
theorem sum_operationCount (hT : 0 < team opt) (hmode : opt.bmMode = .operation)
    (gen : OperationGenerator) (sec : Section) (main : ThreadLocals) (tls : ℕ → ThreadLocals)
    (input : RunInput opt) :
    ∑ tid ∈ Finset.range (team opt),
        (runThread e opt g gen sec main tls input tid).2.stats.operationCount
      = opt.numOps.toNat := by
  rw [← sum_staticShare opt.numOps.toNat hT]
  refine Finset.sum_congr rfl (fun tid htid => ?_)
  have hlen := input.allowed tid (Finset.mem_range.mp htid)
  rw [hmode] at hlen
  rw [runThread, operationCount_runWorker, ← hlen]
  exact Nat.zero_add _

/-- **The accounts of a run.** After each operation of each worker its counters
balance. In operation mode the workers' operations add up to `num_ops`, the
check passes, and the published totals balance: no total of successes is larger
than the total it is a part of. -/
theorem run_accounts (hT : 0 < team opt) (gen : OperationGenerator) (sec : Section)
    (main : ThreadLocals) (tls : ℕ → ThreadLocals) (input : RunInput opt) :
    (∀ tid < team opt, ∀ n, (statsAfter e opt g gen sec main tls input tid n).Balanced)
      ∧ (opt.bmMode = .operation →
        ∑ tid ∈ Finset.range (team opt),
            (runThread e opt g gen sec main tls input tid).2.stats.operationCount
          = opt.numOps.toNat
        ∧ publish opt (localStats e opt g gen sec main tls input)
          = .ok (totals (localStats e opt g gen sec main tls input))
        ∧ (totals (localStats e opt g gen sec main tls input)).ops = opt.numOps
        ∧ (totals (localStats e opt g gen sec main tls input)).successOps
          ≤ (totals (localStats e opt g gen sec main tls input)).ops
        ∧ (totals (localStats e opt g gen sec main tls input)).Balanced) := by
  refine ⟨fun tid _ n => balanced_runWorker e opt g gen _ Stats.balanced_empty, fun hmode => ?_⟩
  have hsum := sum_operationCount e opt g hT hmode gen sec main tls input
  have hlist : ((localStats e opt g gen sec main tls input).map Stats.operationCount).sum
      = opt.numOps.toNat := by
    rw [localStats, List.map_map, ← hsum]
    rfl
  have hbalanced : ∀ s ∈ localStats e opt g gen sec main tls input, s.Balanced := by
    intro s hs
    obtain ⟨tid, -, rfl⟩ := List.mem_map.mp hs
    exact balanced_runWorker e opt g gen _ Stats.balanced_empty
  have htotals := balanced_totals hbalanced (hlist ▸ opt.numOps.toNat_lt)
  have hops : (totals (localStats e opt g gen sec main tls input)).ops = opt.numOps := by
    show total Stats.operationCount _ = _
    rw [total_eq, hlist, UInt64.ofNat_toNat]
  refine ⟨hsum, ?_, hops, htotals.success_le, htotals⟩
  rw [publish, if_neg]
  rintro ⟨-, hne⟩
  exact hne hops.symm

/-- Two workers and three READs, of which the store answers none. -/
def threeReads : Options := { numOps := 3, numThreads := 2 }

def threeReadsInput : RunInput threeReads where
  inputs tid := List.replicate (staticShare 3 2 tid) { draw := 0, result := false }
  allowed _ _ := List.length_replicate

theorem run_accounts_threeReads :
    0 < team threeReads
      ∧ (totals (localStats .little threeReads KeyGenerator.defaultGenerator
          { ops := Vector.replicate 256 .read } .monitor {} (fun _ => {}) threeReadsInput)).ops
        = 3 :=
  ⟨by decide, ((run_accounts .little threeReads KeyGenerator.defaultGenerator (by decide)
    { ops := Vector.replicate 256 .read } .monitor {} (fun _ => {}) threeReadsInput).2
      rfl).2.2.1⟩

end Benchmark
