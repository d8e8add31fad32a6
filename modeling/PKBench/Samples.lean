import PKBench.Benchmark
import PKBench.Machine
import Mathlib.Algebra.BigOperators.Intervals
import Mathlib.Algebra.Order.BigOperators.Group.Finset

/-!
# The samples of a run

While the workers run, the monitor takes samples: it sums a counter over the
workers' statistics, reading one worker after the other, and does so for the
operations, the inserts and the reads in turn. In operation mode it goes on until
it finds the flag `finished` set, which one of the workers does once all of them
are through the loop. What is printed are the differences of neighbouring samples.

The workers' increments, the setting of the flag and the monitor's reads are the
events of a machine whose runs are the interleavings. A counter only grows, so a
sample is never below the one before. But the flag is looked at before a sample
is taken and never after: what a worker does after the monitor's last read of its
counter is in no sample, and there may be no sample at all.
-/

/-! ## What a worker counts -/

/-- The counters of a worker. -/
inductive Counter where
  | operation
  | count (op : Operation)
  | success (op : Operation)
  deriving DecidableEq

/-- One is added to a counter. -/
def Stats.bump (stats : Stats) : Counter → Stats
  | .operation => { stats with operationCount := stats.operationCount + 1 }
  | .count .read => { stats with readCount := stats.readCount + 1 }
  | .count .insert => { stats with insertCount := stats.insertCount + 1 }
  | .count .update => { stats with updateCount := stats.updateCount + 1 }
  | .count .remove => { stats with removeCount := stats.removeCount + 1 }
  | .count .scan => { stats with scanCount := stats.scanCount + 1 }
  | .success .read => { stats with successReadCount := stats.successReadCount + 1 }
  | .success .insert => { stats with successInsertCount := stats.successInsertCount + 1 }
  | .success .update => { stats with successUpdateCount := stats.successUpdateCount + 1 }
  | .success .remove => { stats with successRemoveCount := stats.successRemoveCount + 1 }
  | .success .scan => { stats with successScanCount := stats.successScanCount + 1 }

/-- The increments of `run_op`, in its order: those of the operation's own
counters, then that of the operations. -/
def increments (op : Operation) (r : Bool) : List Counter :=
  .count op :: (if r then [.success op] else []) ++ [.operation]

/-- One by one they are `run_op`. -/
example (stats : Stats) (op : Operation) (r : Bool) :
    (increments op r).foldl Stats.bump stats = stats.runOp op r := by
  cases op <;> cases r <;> rfl

theorem count_operation_increments (op : Operation) (r : Bool) :
    (increments op r).count .operation = 1 := by
  cases op <;> cases r <;> rfl

/-- The columns of a sample. -/
inductive Column where
  | operation
  | insert
  | read
  deriving DecidableEq

namespace Column

/-- The counter of a column. -/
def get (stats : Stats) : Column → ℕ
  | .operation => stats.operationCount
  | .insert => stats.insertCount
  | .read => stats.readCount

/-- A column of a sample is filled in. -/
def put (sample : Stats) (n : ℕ) : Column → Stats
  | .operation => { sample with operationCount := n }
  | .insert => { sample with insertCount := n }
  | .read => { sample with readCount := n }

/-- The column that is summed next. -/
def next : Column → Option Column
  | .operation => some .insert
  | .insert => some .read
  | .read => none

/-- A column that is filled in when another one is being summed. -/
def before : Column → Column → Bool
  | .operation, .insert => true
  | .operation, .read => true
  | .insert, .read => true
  | _, _ => false

/-- Counters only grow. -/
theorem get_le_get_bump (stats : Stats) (c : Counter) (col : Column) :
    col.get stats ≤ col.get (stats.bump c) := by
  cases c with
  | operation => cases col <;> simp [get, Stats.bump]
  | count op => cases op <;> cases col <;> simp [get, Stats.bump]
  | success op => cases op <;> cases col <;> simp [get, Stats.bump]

theorem operationCount_bump (stats : Stats) (c : Counter) :
    (stats.bump c).operationCount
      = stats.operationCount + if c = .operation then 1 else 0 := by
  cases c with
  | operation => rfl
  | count op => cases op <;> rfl
  | success op => cases op <;> rfl

end Column

/-! ## The differences that are printed -/

/-- `std::adjacent_difference`: the first element, and then what an operation
makes of each element and the one before. -/
def adjacentDifference {α : Type} (f : α → α → α) : List α → List α
  | [] => []
  | x :: xs => x :: List.zipWith f xs (x :: xs)

namespace Samples

/-- A difference of two 64-bit counters. -/
def minus (x y : ℕ) : ℕ := (UInt64.ofNat x - UInt64.ofNat y).toNat

/-- The difference of two samples. -/
def difference (x y : Stats) : Stats :=
  { operationCount := minus x.operationCount y.operationCount
    readCount := minus x.readCount y.readCount
    insertCount := minus x.insertCount y.insertCount }

/-- **What is printed for the samples.** -/
def printed (samples : List Stats) : List Stats := adjacentDifference difference samples

/-- No difference to the sample before goes below zero. -/
def Above (y x : Stats) : Prop := ∀ col : Column, col.get y ≤ col.get x

theorem minus_of_le {x y : ℕ} (hx : x < 2 ^ 64) (h : y ≤ x) : minus x y = x - y := by
  have hle : UInt64.ofNat y ≤ UInt64.ofNat x := by
    rw [UInt64.le_iff_toNat_le, UInt64.toNat_ofNat_of_lt' hx,
      UInt64.toNat_ofNat_of_lt' (lt_of_le_of_lt h hx)]
    exact h
  rw [minus, UInt64.toNat_sub_of_le _ _ hle, UInt64.toNat_ofNat_of_lt' hx,
    UInt64.toNat_ofNat_of_lt' (lt_of_le_of_lt h hx)]

/-- The sample taken last, or one of zeros. -/
def last (samples : List Stats) : Stats := samples.getLastD {}

@[simp] theorem last_append (samples : List Stats) (x : Stats) :
    last (samples ++ [x]) = x := by
  rw [last, List.getLastD_concat]

/-- The printed operations add up to the sample taken last. -/
theorem sum_printed {samples : List Stats} (h : samples.IsChain Above)
    (hlt : (last samples).operationCount < 2 ^ 64) :
    ((printed samples).map Stats.operationCount).sum = (last samples).operationCount := by
  cases samples with
  | nil => rfl
  | cons x xs =>
    show x.operationCount
        + ((List.zipWith difference xs (x :: xs)).map Stats.operationCount).sum = _
    induction xs generalizing x with
    | nil => rfl
    | cons y ys ih =>
      obtain ⟨hxy, hchain⟩ := List.isChain_cons_cons.mp h
      have hrest := ih y hchain hlt
      have hle : x.operationCount ≤ y.operationCount := hxy .operation
      have hy : y.operationCount < 2 ^ 64 :=
        lt_of_le_of_lt (Nat.le_add_right _ _) (hrest.trans_lt hlt)
      have hminus : (difference y x).operationCount = y.operationCount - x.operationCount :=
        minus_of_le hy hle
      rw [List.zipWith_cons_cons, List.map_cons, List.sum_cons, hminus, ← Nat.add_assoc,
        Nat.add_sub_cancel' hle]
      exact hrest

/-! ## The monitor and the workers -/

/-- **Where the monitor is**: about to test the flag, about to add the counter of
a worker to the sum of a column, about to push the sample, or through. -/
inductive Monitor where
  | test
  | sum (col : Column) (i acc : ℕ) (sample : Stats)
  | push (sample : Stats)
  | done

/-- What the sections of a run share, where the monitor is, and the increments
each worker has before it. -/
structure Sys where
  localStats : ℕ → Stats
  pending : ℕ → List Counter
  finished : Bool := false
  monitor : Monitor := Monitor.test
  globalStats : List Stats := []

/-- The atomic steps of a run. -/
inductive Event where
  /-- A worker increments a counter. -/
  | inc (tid : ℕ) (c : Counter)
  /-- The flag is set, behind the barrier of the workers' loop. -/
  | finish
  /-- The monitor tests the flag. -/
  | test
  /-- The monitor adds the counter of a worker to the sum of a column. -/
  | read (col : Column) (i : ℕ)
  /-- The sum of a column is stored in the sample. -/
  | store
  /-- The sample is pushed. -/
  | push
  deriving DecidableEq

/-- The monitor once the column it sums is stored. -/
def Monitor.stored (col : Column) (acc : ℕ) (sample : Stats) : Monitor :=
  match col.next with
  | some col' => .sum col' 0 0 (col.put sample acc)
  | none => .push (col.put sample acc)

/-- **One step of a run with `T` workers.** -/
def step (T : ℕ) (s : Sys) : Event → Option Sys
  | .inc tid c =>
      match s.pending tid with
      | [] => none
      | c' :: cs =>
          if tid < T ∧ c' = c then
            some { s with
              localStats := Function.update s.localStats tid ((s.localStats tid).bump c)
              pending := Function.update s.pending tid cs }
          else none
  | .finish =>
      if s.finished = false ∧ ∀ tid < T, s.pending tid = [] then
        some { s with finished := true }
      else none
  | .test =>
      match s.monitor with
      | .test => some { s with monitor := if s.finished then .done else .sum .operation 0 0 {} }
      | _ => none
  | .read col i =>
      match s.monitor with
      | .sum col' j acc sample =>
          if col' = col ∧ j = i ∧ i < T then
            some { s with
              monitor := .sum col (i + 1) (acc + col.get (s.localStats i)) sample }
          else none
      | _ => none
  | .store =>
      match s.monitor with
      | .sum col j acc sample =>
          if j = T then some { s with monitor := .stored col acc sample } else none
      | _ => none
  | .push =>
      match s.monitor with
      | .push sample =>
          some { s with globalStats := s.globalStats ++ [sample], monitor := .test }
      | _ => none

/-- The increments a worker has before it at the start: those of its operations. -/
def workerIncrements (gen : OperationGenerator) (inputs : List OpInput) : List Counter :=
  inputs.flatMap (fun inp => increments (gen.next inp.draw) inp.result)

/-- **The start of a run.** -/
def start {opt : Options} (gen : OperationGenerator) (input : Benchmark.RunInput opt) : Sys where
  localStats _ := {}
  pending tid := workerIncrements gen (input.inputs tid)

/-- `total_ops`, summed once the run is over. -/
def totalOps (T : ℕ) (s : Sys) : ℕ :=
  ∑ i ∈ Finset.range T, (s.localStats i).operationCount

/-- **The samples account for the run**: no difference underflows, and the printed
operations add up to the total. -/
def Accounts (T : ℕ) (s : Sys) : Prop :=
  s.globalStats.IsChain Above
    ∧ ((printed s.globalStats).map Stats.operationCount).sum = totalOps T s

/-- What a worker has completed since the monitor last read its counter of
operations, as an event changes it. -/
def unreadStep (tid n : ℕ) : Event → ℕ
  | .inc i .operation => if i = tid then n + 1 else n
  | .read .operation i => if i = tid then 0 else n
  | _ => n

/-- **The operations of a worker no read comes after.** -/
def unread (tid : ℕ) (events : List Event) : ℕ := events.foldl (unreadStep tid) 0

/-! ## What a step does -/

theorem unread_append (tid : ℕ) (past : List Event) (e : Event) :
    unread tid (past ++ [e]) = unreadStep tid (unread tid past) e := by
  rw [unread, List.foldl_append]
  rfl

theorem step_inc {T : ℕ} {s s' : Sys} {tid : ℕ} {c : Counter}
    (h : step T s (.inc tid c) = some s') :
    ∃ cs, s.pending tid = c :: cs ∧ s' = { s with
      localStats := Function.update s.localStats tid ((s.localStats tid).bump c)
      pending := Function.update s.pending tid cs } := by
  simp only [step] at h
  cases hp : s.pending tid with
  | nil => simp [hp] at h
  | cons c' cs =>
    rw [hp] at h
    by_cases hc : tid < T ∧ c' = c
    · obtain ⟨htid, rfl⟩ := hc
      exact ⟨cs, rfl, by simpa [htid] using h.symm⟩
    · simp [hc] at h

theorem step_finish {T : ℕ} {s s' : Sys} (h : step T s .finish = some s') :
    (∀ tid < T, s.pending tid = []) ∧ s' = { s with finished := true } := by
  simp only [step] at h
  split at h
  case isTrue hc => exact ⟨hc.2, (Option.some.inj h).symm⟩
  case isFalse => cases h

theorem step_test {T : ℕ} {s s' : Sys} (h : step T s .test = some s') :
    s.monitor = .test
      ∧ s' = { s with monitor := if s.finished then .done else .sum .operation 0 0 {} } := by
  simp only [step] at h
  split at h
  case h_1 hm => exact ⟨hm, (Option.some.inj h).symm⟩
  case h_2 => cases h

theorem step_read {T : ℕ} {s s' : Sys} {col : Column} {i : ℕ}
    (h : step T s (.read col i) = some s') :
    ∃ acc sample, s.monitor = .sum col i acc sample ∧ i < T
      ∧ s' = { s with
          monitor := .sum col (i + 1) (acc + col.get (s.localStats i)) sample } := by
  simp only [step] at h
  split at h
  case h_1 col' j acc sample hm =>
    split at h
    case isTrue hc =>
      obtain ⟨rfl, rfl, hi⟩ := hc
      exact ⟨acc, sample, hm, hi, (Option.some.inj h).symm⟩
    case isFalse => cases h
  case h_2 => cases h

theorem step_store {T : ℕ} {s s' : Sys} (h : step T s .store = some s') :
    ∃ col acc sample, s.monitor = .sum col T acc sample
      ∧ s' = { s with monitor := .stored col acc sample } := by
  simp only [step] at h
  split at h
  case h_1 col j acc sample hm =>
    split at h
    case isTrue hj =>
      subst hj
      exact ⟨col, acc, sample, hm, (Option.some.inj h).symm⟩
    case isFalse => cases h
  case h_2 => cases h

theorem step_push {T : ℕ} {s s' : Sys} (h : step T s .push = some s') :
    ∃ sample, s.monitor = .push sample
      ∧ s' = { s with globalStats := s.globalStats ++ [sample], monitor := .test } := by
  simp only [step] at h
  split at h
  case h_1 sample hm => exact ⟨sample, hm, (Option.some.inj h).symm⟩
  case h_2 => cases h

/-! ## The sample in the making -/

/-- How far the monitor is with a column: what it has summed, and the worker whose
counter it adds next. -/
def Monitor.part (T : ℕ) (col : Column) : Monitor → ℕ × ℕ
  | .test => (0, 0)
  | .sum col' i acc sample =>
      if col = col' then (acc, i) else if col.before col' then (col.get sample, T) else (0, 0)
  | .push sample => (col.get sample, T)
  | .done => (0, 0)

/-- Storing a sum does not change how far the monitor is. -/
theorem Monitor.part_stored (T : ℕ) (col col' : Column) (acc : ℕ) (sample : Stats) :
    (Monitor.stored col' acc sample).part T col = (Monitor.sum col' T acc sample).part T col := by
  cases col <;> cases col' <;> rfl

/-- Nothing is summed before the first read. -/
theorem Monitor.part_begin (T : ℕ) (col : Column) :
    (Monitor.sum .operation 0 0 {}).part T col = (0, 0) := by
  cases col <;> rfl

theorem Monitor.part_sum_self (T : ℕ) (col : Column) (i acc : ℕ) (sample : Stats) :
    (Monitor.sum col i acc sample).part T col = (acc, i) :=
  if_pos rfl

theorem Monitor.part_sum_of_ne {col col' : Column} (h : col ≠ col') (T i acc i' acc' : ℕ)
    (sample : Stats) :
    (Monitor.sum col' i acc sample).part T col = (Monitor.sum col' i' acc' sample).part T col := by
  rw [Monitor.part, if_neg h, Monitor.part, if_neg h]

/-- What the monitor read of a worker's operations when it last read them. -/
def lastRead (past : List Event) (s : Sys) (i : ℕ) : ℕ :=
  (s.localStats i).operationCount - unread i past

/-- **The invariant** of a run of `n` operations. A column of the sample in the
making is no more than the counters read for it, and with those not read yet no
less than the last sample. In the column of operations it is the sum of what was
read last. -/
structure Inv (n T : ℕ) (past : List Event) (s : Sys) : Prop where
  unread_le : ∀ i, unread i past ≤ (s.localStats i).operationCount
  share : ∀ i < T, (s.localStats i).operationCount + (s.pending i).count .operation
    = staticShare n T i
  chain : s.globalStats.IsChain Above
  part_le : ∀ col, (s.monitor.part T col).2 ≤ T ∧ (s.monitor.part T col).1
    ≤ ∑ i ∈ Finset.range (s.monitor.part T col).2, col.get (s.localStats i)
  last_le : ∀ col, col.get (last s.globalStats) ≤ (s.monitor.part T col).1
    + ∑ i ∈ Finset.Ico (s.monitor.part T col).2 T, col.get (s.localStats i)
  part_read : (s.monitor.part T .operation).1
    = ∑ i ∈ Finset.range (s.monitor.part T .operation).2, lastRead past s i
  last_read : s.monitor = .test ∨ s.monitor = .done →
    (last s.globalStats).operationCount = ∑ i ∈ Finset.range T, lastRead past s i
  through : s.monitor = .done → s.finished = true
  finished : s.finished = true → ∀ i < T, s.pending i = []

/-- An increment changes the counter and what is unread of it alike. -/
theorem unreadStep_inc (i n tid : ℕ) (c : Counter) :
    unreadStep i n (.inc tid c) = n + if tid = i ∧ c = .operation then 1 else 0 := by
  cases c with
  | operation =>
    show (if tid = i then n + 1 else n) = _
    by_cases h : tid = i
    · simp [h]
    · simp [h]
  | count op => simp [unreadStep]
  | success op => simp [unreadStep]

theorem operationCount_inc (stats : ℕ → Stats) (i tid : ℕ) (c : Counter) :
    (Function.update stats tid ((stats tid).bump c) i).operationCount
      = (stats i).operationCount + if tid = i ∧ c = .operation then 1 else 0 := by
  by_cases h : i = tid
  · subst h
    rw [Function.update_self, Column.operationCount_bump]
    simp
  · rw [Function.update_of_ne h, if_neg (fun hc => h hc.1.symm)]
    rfl

theorem get_le_get_inc (stats : ℕ → Stats) (i tid : ℕ) (c : Counter) (col : Column) :
    col.get (stats i) ≤ col.get (Function.update stats tid ((stats tid).bump c) i) := by
  by_cases h : i = tid
  · subst h
    rw [Function.update_self]
    exact Column.get_le_get_bump _ _ _
  · rw [Function.update_of_ne h]

namespace Inv

variable {n T : ℕ} {past : List Event} {s s' : Sys}

theorem inc {tid : ℕ} {c : Counter} (h : Inv n T past s)
    (hs : Samples.step T s (.inc tid c) = some s') : Inv n T (past ++ [.inc tid c]) s' := by
  obtain ⟨cs, hp, rfl⟩ := step_inc hs
  have hread : ∀ i, lastRead (past ++ [.inc tid c]) { s with
      localStats := Function.update s.localStats tid ((s.localStats tid).bump c)
      pending := Function.update s.pending tid cs } i = lastRead past s i := by
    intro i
    simp only [lastRead, unread_append, unreadStep_inc, operationCount_inc]
    exact Nat.add_sub_add_right _ _ _
  have hsum : ∀ (S : Finset ℕ) (col : Column), ∑ i ∈ S, col.get (s.localStats i)
      ≤ ∑ i ∈ S, col.get (Function.update s.localStats tid ((s.localStats tid).bump c) i) :=
    fun S col => Finset.sum_le_sum fun i _ => get_le_get_inc _ _ _ _ _
  refine ⟨fun i => ?_, fun i hi => ?_, h.chain, fun col => ?_, fun col => ?_, ?_, ?_,
    h.through, fun hf i hi => ?_⟩
  · rw [unread_append, unreadStep_inc]
    show _ ≤ (Function.update s.localStats tid ((s.localStats tid).bump c) i).operationCount
    rw [operationCount_inc]
    exact Nat.add_le_add_right (h.unread_le i) _
  · have hshare := h.share i hi
    show (Function.update s.localStats tid ((s.localStats tid).bump c) i).operationCount
      + (Function.update s.pending tid cs i).count .operation = _
    rw [operationCount_inc]
    by_cases htid : i = tid
    · subst htid
      rw [hp, List.count_cons] at hshare
      rw [Function.update_self, ← hshare, Nat.add_assoc, Nat.add_comm (ite _ _ _)]
      simp
    · rw [Function.update_of_ne htid, if_neg (fun hc => htid hc.1.symm)]
      exact hshare
  · exact ⟨(h.part_le col).1, (h.part_le col).2.trans (hsum _ col)⟩
  · exact (h.last_le col).trans (Nat.add_le_add_left (hsum _ col) _)
  · rw [Finset.sum_congr rfl fun i _ => hread i]
    exact h.part_read
  · intro hm
    rw [Finset.sum_congr rfl fun i _ => hread i]
    exact h.last_read hm
  · have hnil := h.finished hf i hi
    show Function.update s.pending tid cs i = []
    by_cases htid : i = tid
    · subst htid
      rw [hp] at hnil
      cases hnil
    · rw [Function.update_of_ne htid]
      exact hnil

theorem finish (h : Inv n T past s) (hs : Samples.step T s .finish = some s') :
    Inv n T (past ++ [.finish]) s' := by
  obtain ⟨hnil, rfl⟩ := step_finish hs
  have hu : ∀ i, unread i (past ++ [.finish]) = unread i past := fun i => unread_append i past _
  have hread : ∀ i, lastRead (past ++ [.finish]) { s with finished := true } i
      = lastRead past s i := fun i => congrArg _ (hu i)
  refine ⟨fun i => (hu i).trans_le (h.unread_le i), h.share, h.chain, h.part_le, h.last_le,
    ?_, ?_, fun _ => rfl, fun _ => hnil⟩
  · simp only [hread]
    exact h.part_read
  · simp only [hread]
    exact h.last_read

/-- The monitor goes on without reading or pushing. -/
theorem keep {e : Event} {m : Monitor} (h : Inv n T past s)
    (hu : ∀ i, unread i (past ++ [e]) = unread i past)
    (hpart : ∀ col, m.part T col = s.monitor.part T col)
    (hm : m = .test ∨ m = .done → s.monitor = .test ∨ s.monitor = .done)
    (hdone : m = .done → s.finished = true) :
    Inv n T (past ++ [e]) { s with monitor := m } := by
  have hread : ∀ i, lastRead (past ++ [e]) { s with monitor := m } i = lastRead past s i :=
    fun i => congrArg _ (hu i)
  refine ⟨fun i => (hu i).trans_le (h.unread_le i), h.share, h.chain, fun col => ?_,
    fun col => ?_, ?_, fun hend => ?_, hdone, h.finished⟩
  · rw [hpart col]
    exact h.part_le col
  · rw [hpart col]
    exact h.last_le col
  · simp only [hread, hpart]
    exact h.part_read
  · simp only [hread]
    exact h.last_read (hm hend)

theorem test (h : Inv n T past s) (hs : Samples.step T s .test = some s') :
    Inv n T (past ++ [.test]) s' := by
  obtain ⟨hm, rfl⟩ := step_test hs
  refine h.keep (fun i => unread_append i past _) (fun col => ?_) (fun _ => .inl hm) ?_
  · rw [hm]
    by_cases hf : s.finished = true
    · rw [if_pos hf]
      rfl
    · rw [if_neg hf]
      exact Monitor.part_begin T col
  · intro hdone
    by_contra hf
    rw [if_neg hf] at hdone
    cases hdone

theorem store (h : Inv n T past s) (hs : Samples.step T s .store = some s') :
    Inv n T (past ++ [.store]) s' := by
  obtain ⟨col, acc, sample, hm, rfl⟩ := step_store hs
  have hne :
      ¬ (Monitor.stored col acc sample = .test ∨ Monitor.stored col acc sample = .done) := by
    cases col <;> exact fun h => h.elim (fun h => by cases h) (fun h => by cases h)
  refine h.keep (fun i => unread_append i past _) (fun col' => ?_) (fun hend => absurd hend hne)
    (fun hdone => absurd (.inr hdone) hne)
  rw [hm]
  exact Monitor.part_stored T col' col acc sample

/-- The sample that is pushed is above the last one. -/
theorem push (h : Inv n T past s) (hs : Samples.step T s .push = some s') :
    Inv n T (past ++ [.push]) s' := by
  obtain ⟨sample, hm, rfl⟩ := step_push hs
  have hu : ∀ i, unread i (past ++ [.push]) = unread i past := fun i => unread_append i past _
  have hread : ∀ i, lastRead (past ++ [.push]) { s with
      globalStats := s.globalStats ++ [sample], monitor := .test } i = lastRead past s i :=
    fun i => congrArg _ (hu i)
  have hpart : ∀ col, s.monitor.part T col = (col.get sample, T) := fun col => by
    rw [hm]
    rfl
  have habove : Above (last s.globalStats) sample := by
    intro col
    have hle := h.last_le col
    rw [hpart col, Finset.Ico_self, Finset.sum_empty] at hle
    exact hle
  refine ⟨fun i => (hu i).trans_le (h.unread_le i), h.share, ?_, fun col => ?_, fun col => ?_,
    ?_, fun _ => ?_, fun hdone => (by cases hdone), h.finished⟩
  · refine List.isChain_append.mpr ⟨h.chain, List.isChain_singleton _, ?_⟩
    rintro y hy x hx
    obtain rfl : sample = x := Option.some.inj hx
    rw [last, List.getLastD_eq_getLast?, Option.mem_def.mp hy] at habove
    exact habove
  · exact ⟨Nat.zero_le _, Nat.zero_le _⟩
  · have hle := (h.part_le col).2
    rw [hpart col, Finset.range_eq_Ico] at hle
    show col.get (last (s.globalStats ++ [sample])) ≤ 0 + _
    rw [last_append, Nat.zero_add]
    exact hle
  · exact Finset.sum_empty.symm
  · have hsum := h.part_read
    rw [hpart .operation] at hsum
    show (last (s.globalStats ++ [sample])).operationCount = _
    rw [last_append]
    simp only [hread]
    exact hsum

/-- What a read of the operations does to what was read last. -/
theorem lastRead_read (past : List Event) (s : Sys) (m : Monitor) (i j : ℕ) :
    lastRead (past ++ [.read .operation i]) { s with monitor := m } j
      = if i = j then (s.localStats j).operationCount else lastRead past s j := by
  rw [lastRead, unread_append]
  show _ - (if i = j then 0 else unread j past) = _
  by_cases h : i = j
  · rw [if_pos h, if_pos h]
    rfl
  · rw [if_neg h, if_neg h]
    rfl

theorem unread_read_le (past : List Event) (col : Column) (i j : ℕ) :
    unread j (past ++ [.read col i]) ≤ unread j past := by
  rw [unread_append]
  cases col with
  | operation =>
    show (if i = j then 0 else unread j past) ≤ _
    split
    · exact Nat.zero_le _
    · exact le_rfl
  | insert => exact le_rfl
  | read => exact le_rfl

/-- The column that is summed has one counter more, the others are as they were. -/
theorem read {col : Column} {i : ℕ} (h : Inv n T past s)
    (hs : Samples.step T s (.read col i) = some s') : Inv n T (past ++ [.read col i]) s' := by
  obtain ⟨acc, sample, hm, hi, rfl⟩ := step_read hs
  set m := Monitor.sum col (i + 1) (acc + col.get (s.localStats i)) sample
  have hself : m.part T col = (acc + col.get (s.localStats i), i + 1) :=
    Monitor.part_sum_self _ _ _ _ _
  have hold : s.monitor.part T col = (acc, i) := by
    rw [hm]
    exact Monitor.part_sum_self _ _ _ _ _
  have hother : ∀ col', col' ≠ col → m.part T col' = s.monitor.part T col' := by
    intro col' hne
    rw [hm]
    exact Monitor.part_sum_of_ne hne _ _ _ _ _ _
  refine ⟨fun j => (unread_read_le past col i j).trans (h.unread_le j), h.share, h.chain,
    fun col' => ?_, fun col' => ?_, ?_, fun hend => ?_, fun hdone => (by cases hdone),
    h.finished⟩
  · by_cases hne : col' = col
    · subst hne
      have hle := (h.part_le col').2
      rw [hold] at hle
      show (m.part T col').2 ≤ T ∧ (m.part T col').1 ≤ _
      rw [hself]
      refine ⟨hi, ?_⟩
      rw [Finset.sum_range_succ]
      exact Nat.add_le_add_right hle _
    · show (m.part T col').2 ≤ T ∧ (m.part T col').1 ≤ _
      rw [hother col' hne]
      exact h.part_le col'
  · by_cases hne : col' = col
    · subst hne
      have hle := h.last_le col'
      rw [hold, Finset.sum_eq_sum_Ico_succ_bot hi, ← Nat.add_assoc] at hle
      show _ ≤ (m.part T col').1 + _
      rw [hself]
      exact hle
    · show _ ≤ (m.part T col').1 + _
      rw [hother col' hne]
      exact h.last_le col'
  · show (m.part T .operation).1 = ∑ j ∈ Finset.range (m.part T .operation).2, _
    by_cases hne : Column.operation = col
    · subst hne
      have hsum := h.part_read
      rw [hold] at hsum
      rw [hself, Finset.sum_range_succ, lastRead_read, if_pos rfl,
        Finset.sum_congr rfl fun j hj => (lastRead_read past s m i j).trans
          (if_neg (Finset.mem_range.mp hj).ne'), ← hsum]
      rfl
    · rw [hother _ hne]
      have hread : ∀ j, lastRead (past ++ [.read col i]) { s with monitor := m } j
          = lastRead past s j := by
        intro j
        refine congrArg _ ((unread_append j past _).trans ?_)
        cases col with
        | operation => exact absurd rfl hne
        | insert => rfl
        | read => rfl
      simp only [hread]
      exact h.part_read
  · exact absurd hend (by rintro (h | h) <;> cases h)

/-- **Every step keeps the invariant.** -/
theorem step {e : Event} (h : Inv n T past s) (hs : Samples.step T s e = some s') :
    Inv n T (past ++ [e]) s' := by
  cases e with
  | inc tid c => exact h.inc hs
  | finish => exact h.finish hs
  | test => exact h.test hs
  | read col i => exact h.read hs
  | store => exact h.store hs
  | push => exact h.push hs

end Inv

/-! ## Runs -/

theorem count_workerIncrements (gen : OperationGenerator) (inputs : List OpInput) :
    (workerIncrements gen inputs).count .operation = inputs.length := by
  induction inputs with
  | nil => rfl
  | cons inp inputs ih =>
    show (increments (gen.next inp.draw) inp.result ++ workerIncrements gen inputs).count _ = _
    rw [List.count_append, count_operation_increments, ih, List.length_cons, Nat.add_comm]

variable {opt : Options}

/-- The start has the invariant. -/
theorem inv_start (hmode : opt.bmMode = .operation) (gen : OperationGenerator)
    (input : Benchmark.RunInput opt) :
    Inv opt.numOps.toNat (Benchmark.team opt) [] (start gen input) := by
  have hzero : ∀ S : Finset ℕ, ∑ i ∈ S, lastRead [] (start gen input) i = 0 :=
    fun S => Finset.sum_eq_zero fun i _ => rfl
  refine ⟨fun _ => le_rfl, fun i hi => ?_, List.isChain_nil,
    fun _ => ⟨Nat.zero_le _, Nat.zero_le _⟩, fun col => ?_, rfl, fun _ => (hzero _).symm,
    fun h => (by cases h), fun h => (by cases h)⟩
  · have hallowed := input.allowed i hi
    rw [hmode] at hallowed
    show 0 + (workerIncrements gen (input.inputs i)).count .operation = _
    rw [count_workerIncrements, Nat.zero_add]
    exact hallowed
  · cases col <;> exact Nat.zero_le _

section Run

variable (hmode : opt.bmMode = .operation) {gen : OperationGenerator}
  {input : Benchmark.RunInput opt} {events : List Event} {s : Sys}
  (hrun : Machine.run (step (Benchmark.team opt)) (start gen input) events = some s)

include hmode hrun

theorem inv_of_run : Inv opt.numOps.toNat (Benchmark.team opt) events s :=
  @Machine.run_inv _ _ _ (Inv opt.numOps.toNat (Benchmark.team opt))
    (fun _ _ _ _ h hs => h.step hs) [] events _ _ (inv_start hmode gen input) hrun

/-- **No printed difference underflows.** -/
theorem isChain_globalStats_of_run : s.globalStats.IsChain Above := (inv_of_run hmode hrun).chain

/-- A worker has never done more than its share. -/
theorem totalOps_lt : totalOps (Benchmark.team opt) s < 2 ^ 64 := by
  have h := inv_of_run hmode hrun
  rcases Nat.eq_zero_or_pos (Benchmark.team opt) with hT | hT
  · rw [totalOps, hT, Finset.sum_range_zero]
    exact Nat.two_pow_pos 64
  · calc totalOps (Benchmark.team opt) s
        ≤ ∑ i ∈ Finset.range (Benchmark.team opt),
            staticShare opt.numOps.toNat (Benchmark.team opt) i :=
          Finset.sum_le_sum fun i hi =>
            (Nat.le_add_right _ _).trans (h.share i (Finset.mem_range.mp hi)).le
      _ = opt.numOps.toNat := sum_staticShare _ hT
      _ < 2 ^ 64 := opt.numOps.toNat_lt

/-- **When the monitor is through, all operations are done**: the driver's own
check of the total does not fail. -/
theorem totalOps_eq (hT : 0 < Benchmark.team opt) (hend : s.monitor = .done) :
    totalOps (Benchmark.team opt) s = opt.numOps.toNat := by
  have h := inv_of_run hmode hrun
  rw [totalOps, ← sum_staticShare opt.numOps.toNat hT]
  refine Finset.sum_congr rfl fun i hi => ?_
  have hshare := h.share i (Finset.mem_range.mp hi)
  rw [h.finished (h.through hend) i (Finset.mem_range.mp hi)] at hshare
  exact hshare

/-- The printed operations add up to what was read last. -/
theorem sum_printed_eq (hend : s.monitor = .done) :
    ((printed s.globalStats).map Stats.operationCount).sum
      = ∑ i ∈ Finset.range (Benchmark.team opt), lastRead events s i := by
  have h := inv_of_run hmode hrun
  have hlast := h.last_read (.inr hend)
  have hle : (last s.globalStats).operationCount ≤ totalOps (Benchmark.team opt) s := by
    rw [hlast]
    exact Finset.sum_le_sum fun i _ => Nat.sub_le _ _
  rw [sum_printed h.chain (lt_of_le_of_lt hle (totalOps_lt hmode hrun)), hlast]

/-- **The samples account for a run exactly when the monitor reads each worker's
counter once more after the worker's last operation.** -/
theorem accounts_iff (hend : s.monitor = .done) :
    Accounts (Benchmark.team opt) s ↔ ∀ tid < Benchmark.team opt, unread tid events = 0 := by
  have h := inv_of_run hmode hrun
  have hle : ∀ i ∈ Finset.range (Benchmark.team opt),
      lastRead events s i ≤ (s.localStats i).operationCount := fun i _ => Nat.sub_le _ _
  rw [Accounts, sum_printed_eq hmode hrun hend, totalOps, Finset.sum_eq_sum_iff_of_le hle]
  constructor
  · rintro ⟨-, hall⟩ tid htid
    have heq := hall tid (Finset.mem_range.mpr htid)
    have hu := h.unread_le tid
    rw [lastRead] at heq
    omega
  · intro hall
    refine ⟨h.chain, fun i hi => ?_⟩
    rw [lastRead, hall i (Finset.mem_range.mp hi), Nat.sub_zero]

end Run

/-- A table of READs. -/
def readTable : OperationGenerator where
  ops := Vector.replicate 256 .read

/-- Two operations for two workers. -/
def pairOptions : Options := { numOps := 2, numThreads := 2 }

/-- Each of them has one READ. -/
def pairInput : Benchmark.RunInput pairOptions where
  inputs _ := [{ draw := 0 }]
  allowed := by
    show ∀ tid < 2, 1 = staticShare 2 2 tid
    decide

/-- The worker `tid` executes its READ, and finds the key. -/
def readBy (tid : ℕ) : List Event :=
  [.inc tid (.count .read), .inc tid (.success .read), .inc tid .operation]

/-- The monitor finds the flag unset and takes a sample of two workers. -/
def samplePair : List Event :=
  [.test, .read .operation 0, .read .operation 1, .store, .read .insert 0, .read .insert 1,
    .store, .read .read 0, .read .read 1, .store, .push]

/-- One worker is through before the first sample and the other before the second,
and the flag is set when the second sample is taken. -/
def pairEvents : List Event :=
  readBy 0 ++ samplePair ++ readBy 1 ++ samplePair ++ [.finish, .test]

/-- The samples of that run account for it. -/
theorem accounts_pair : ∃ s,
    Machine.run (step (Benchmark.team pairOptions)) (start readTable pairInput) pairEvents = some s
      ∧ s.monitor = .done ∧ Accounts (Benchmark.team pairOptions) s := by
  obtain ⟨s, hrun, hend⟩ : ∃ s,
      Machine.run (step (Benchmark.team pairOptions)) (start readTable pairInput) pairEvents
        = some s ∧ s.monitor = .done := ⟨_, rfl, rfl⟩
  exact ⟨s, hrun, hend, (accounts_iff rfl hrun hend).mpr (by decide)⟩

/-- **The samples do not account for every run**: two workers are through
before the monitor tests the flag for the first time, and there is no sample. -/
theorem not_accounts_unsampled : ¬ ∀ (opt : Options) (gen : OperationGenerator)
    (input : Benchmark.RunInput opt) (events : List Event) (s : Sys),
    opt.bmMode = .operation → 0 < Benchmark.team opt →
      Machine.run (step (Benchmark.team opt)) (start gen input) events = some s →
      s.monitor = .done → Accounts (Benchmark.team opt) s := by
  intro h
  have hsum := (h pairOptions readTable pairInput
    (readBy 0 ++ readBy 1 ++ [.finish, .test]) _ rfl (by decide) rfl rfl).2
  exact absurd hsum (by decide)

end Samples
