import PKBench.RunAccounting
import Mathlib.Data.List.Sort
import Mathlib.Data.List.GetD
import Mathlib.Algebra.Order.Floor.Ring

/-!
# The latency report

A worker pushes a time stamp in front of an operation and one behind it, if a coin
says so. At the end of a run the stamps of all workers are taken two by two, the
differences are sorted, and some of them are printed: the smallest, the largest,
and those at six positions between.

The stamps come in pairs, whatever the coin says (`times_runWorker`). The report
still goes wrong in two ways. If the coin never came up there is nothing to
print, and the positions zero and `observed - 1` are read all the same. And the
index that runs over the stamps of a worker is an `unsigned int`: with `2 ^ 32`
stamps or more it comes round to zero before it gets to the end, and the loop
goes on for ever (`latencyLoop_of_ge`). There is no third way
(`reportsLatencies_iff`).

Positions are computed from exact fractions of the number of differences, and
the clock is any number.
-/

/-! ## The stamps of a worker -/

/-- The operations whose latency is sampled. -/
def sampled (inputs : List OpInput) : List OpInput := inputs.filter OpInput.measure

/-- The stamps of operations, in front of each and behind it. -/
def stamps (ops : List OpInput) : List ℕ := ops.flatMap (fun inp => [inp.start, inp.stop])

/-- **Stamps in pairs**: entries `2 * i` and `2 * i + 1` are the stamps in front of the
`i`-th operation and behind it, and there are no others. -/
def Paired (times : List ℕ) (ops : List OpInput) : Prop :=
  times.length = 2 * ops.length
    ∧ ∀ i (h : i < ops.length),
      times[2 * i]? = some (ops.get ⟨i, h⟩).start
        ∧ times[2 * i + 1]? = some (ops.get ⟨i, h⟩).stop

theorem length_stamps (ops : List OpInput) : (stamps ops).length = 2 * ops.length := by
  induction ops with
  | nil => rfl
  | cons inp ops ih =>
    show ((stamps ops).length + 1) + 1 = _
    rw [ih, List.length_cons]
    omega

theorem getElem?_stamps (ops : List OpInput) (i : ℕ) :
    (stamps ops)[2 * i]? = (ops[i]?).map OpInput.start
      ∧ (stamps ops)[2 * i + 1]? = (ops[i]?).map OpInput.stop := by
  induction ops generalizing i with
  | nil => exact ⟨rfl, rfl⟩
  | cons inp ops ih =>
    cases i with
    | zero => exact ⟨rfl, rfl⟩
    | succ i => exact ih i

theorem paired_stamps (ops : List OpInput) : Paired (stamps ops) ops := by
  refine ⟨length_stamps ops, fun i h => ?_⟩
  have hi := getElem?_stamps ops i
  rw [List.getElem?_eq_getElem h] at hi
  exact hi

namespace Benchmark

variable (e : Endianness) (opt : Options) (g : KeyGenerator)

/-- An operation leaves both its stamps or none. -/
theorem times_executeOp (gen : OperationGenerator) (w : Worker) (inp : OpInput) :
    (executeOp e opt g gen w inp).2.stats.times = w.stats.times ++ stamps (sampled [inp]) := by
  have hrunOp : ∀ (stats : Stats) (op : Operation) (r : Bool),
      (stats.runOp op r).times = stats.times := by
    intro stats op r
    cases op <;> rfl
  show (Stats.stamp (Stats.runOp (w.stats.stamp _ _) _ _) _ _).times = _
  unfold Stats.stamp sampled
  cases hm : inp.measure with
  | false =>
    rw [List.filter_cons_of_neg (by simp [hm]), if_neg Bool.false_ne_true,
      if_neg Bool.false_ne_true, hrunOp]
    exact (List.append_nil _).symm
  | true =>
    rw [List.filter_cons_of_pos hm, if_pos rfl, if_pos rfl, hrunOp]
    exact List.append_assoc _ _ _

/-- **The stamps of a worker are those of its sampled operations**, one pair after the
other. -/
theorem times_runWorker (gen : OperationGenerator) (inputs : List OpInput) (w : Worker) :
    (runWorker e opt g gen inputs w).2.stats.times = w.stats.times ++ stamps (sampled inputs) := by
  induction inputs generalizing w with
  | nil => exact (List.append_nil _).symm
  | cons inp inputs ih =>
    have hcons : sampled (inp :: inputs) = sampled [inp] ++ sampled inputs :=
      List.filter_append [inp] inputs
    show (runWorker e opt g gen inputs (executeOp e opt g gen w inp).2).2.stats.times = _
    rw [ih, times_executeOp, hcons, stamps, stamps, stamps, List.flatMap_append,
      List.append_assoc]

/-! ## The differences -/

/-- The time between two stamps, as it is pushed into the vector of latencies. -/
def latency (inp : OpInput) : UInt64 := UInt64.ofNat inp.stop - UInt64.ofNat inp.start

/-- **The loop over the stamps of one worker** from index `i` on, if it ends within
`fuel` rounds and reads no element that is not there. -/
def latencyLoop (times : List ℕ) : ℕ → UInt32 → Option (List UInt64)
  | 0, _ => none
  | fuel + 1, i =>
      if i.toNat < times.length then do
        let stop ← times[(i + 1).toNat]?
        let start ← times[i.toNat]?
        let rest ← latencyLoop times fuel (i + 2)
        return (UInt64.ofNat stop - UInt64.ofNat start) :: rest
      else some []

/-- `global_latencies` before it is sorted. -/
def globalLatencies (fuel : ℕ) : List Stats → Option (List UInt64)
  | [] => some []
  | v :: stats => do
      let own ← latencyLoop v.times fuel 0
      let rest ← globalLatencies fuel stats
      return own ++ rest

/-- **The loop goes over the pairs one by one.** -/
theorem latencyLoop_stamps {before rest : List OpInput}
    (hlen : 2 * (before.length + rest.length) < 2 ^ 32) {fuel : ℕ} (hfuel : rest.length < fuel) :
    latencyLoop (stamps (before ++ rest)) fuel (UInt32.ofNat (2 * before.length))
      = some (rest.map latency) := by
  induction rest generalizing before fuel with
  | nil =>
    obtain ⟨fuel, rfl⟩ := Nat.exists_eq_add_of_lt hfuel
    rw [List.length_nil] at hlen
    have hi : (UInt32.ofNat (2 * before.length)).toNat = 2 * before.length :=
      UInt32.toNat_ofNat_of_lt hlen
    unfold latencyLoop
    rw [hi, length_stamps, List.append_nil, if_neg (lt_irrefl _)]
    rfl
  | cons inp rest ih =>
    obtain ⟨fuel, rfl⟩ := Nat.exists_eq_succ_of_ne_zero (Nat.ne_zero_of_lt hfuel)
    rw [List.length_cons] at hlen hfuel
    have hi : (UInt32.ofNat (2 * before.length)).toNat = 2 * before.length :=
      UInt32.toNat_ofNat_of_lt (show _ < 2 ^ 32 by omega)
    have hi₁ : (UInt32.ofNat (2 * before.length) + 1).toNat = 2 * before.length + 1 := by
      rw [UInt32.toNat_add, hi]
      exact Nat.mod_eq_of_lt (show 2 * before.length + 1 < 2 ^ 32 by omega)
    have hnext : UInt32.ofNat (2 * before.length) + 2
        = UInt32.ofNat (2 * (before ++ [inp]).length) := by
      rw [List.length_append, Nat.mul_add, UInt32.ofNat_add]
      rfl
    have hread := getElem?_stamps (before ++ inp :: rest) before.length
    rw [List.getElem?_append_right le_rfl, Nat.sub_self] at hread
    unfold latencyLoop
    rw [hi, hi₁, length_stamps, if_pos (by rw [List.length_append, List.length_cons]; omega),
      hread.1, hread.2, hnext, List.append_cons before inp rest]
    rw [ih (by rw [List.length_append, List.length_singleton]; omega) (by omega)]
    rfl

/-- **Too many stamps for the index**: it never gets to the end. -/
theorem latencyLoop_of_ge {times : List ℕ} (h : 2 ^ 32 ≤ times.length) (fuel : ℕ) (i : UInt32) :
    latencyLoop times fuel i = none := by
  induction fuel generalizing i with
  | zero => rfl
  | succ fuel ih =>
    unfold latencyLoop
    rw [if_pos (lt_of_lt_of_le i.toNat_lt h), ih]
    cases times[(i + 1).toNat]? with
    | none => rfl
    | some stop =>
      cases times[i.toNat]? with
      | none => rfl
      | some start => rfl

/-- All loops end if the first does and the others do. -/
theorem globalLatencies_cons_eq_some {fuel : ℕ} {v : Stats} {stats : List Stats}
    {ls : List UInt64} :
    globalLatencies fuel (v :: stats) = some ls
      ↔ ∃ own rest, latencyLoop v.times fuel 0 = some own
        ∧ globalLatencies fuel stats = some rest ∧ own ++ rest = ls := by
  constructor
  · intro h
    obtain ⟨own, hown, h⟩ := Option.bind_eq_some_iff.mp h
    obtain ⟨rest, hrest, heq⟩ := Option.bind_eq_some_iff.mp h
    exact ⟨own, rest, hown, hrest, Option.some.inj heq⟩
  · rintro ⟨own, rest, hown, hrest, rfl⟩
    rw [globalLatencies, hown, hrest]
    rfl

/-- The stamps of some workers, each of which the index can run over. -/
theorem globalLatencies_of_lt {α : Type} {stats : α → Stats} {ops : α → List OpInput}
    (htimes : ∀ t, (stats t).times = stamps (ops t)) {fuel : ℕ} (hfuel : 2 ^ 31 ≤ fuel)
    {ts : List α} (h : ∀ t ∈ ts, (ops t).length < 2 ^ 31) :
    globalLatencies fuel (ts.map stats) = some (ts.flatMap (fun t => (ops t).map latency)) := by
  induction ts with
  | nil => rfl
  | cons t ts ih =>
    have ht := h t List.mem_cons_self
    have hown : latencyLoop (stats t).times fuel 0 = some ((ops t).map latency) := by
      rw [htimes]
      refine @latencyLoop_stamps [] (ops t) ?_ fuel (ht.trans_le hfuel)
      rw [List.length_nil]
      omega
    have hrest := ih (fun t' ht' => h t' (List.mem_cons_of_mem t ht'))
    exact globalLatencies_cons_eq_some.mpr ⟨_, _, hown, hrest, rfl⟩

/-- If the loops end, every worker's stamps can be run over by the index. -/
theorem lt_of_globalLatencies {α : Type} {stats : α → Stats} {ops : α → List OpInput}
    (htimes : ∀ t, (stats t).times = stamps (ops t)) {fuel : ℕ} {ts : List α} {ls : List UInt64}
    (h : globalLatencies fuel (ts.map stats) = some ls) :
    ∀ t ∈ ts, (ops t).length < 2 ^ 31 := by
  induction ts generalizing ls with
  | nil =>
    intro t ht
    cases ht
  | cons t ts ih =>
    obtain ⟨own, rest, hown, hrest, -⟩ := globalLatencies_cons_eq_some.mp h
    intro t' ht'
    rcases List.mem_cons.mp ht' with rfl | ht'
    · by_contra hge
      rw [latencyLoop_of_ge (by rw [htimes, length_stamps]; omega)] at hown
      cases hown
    · exact ih hrest t' ht'

/-- Without stamps there are no latencies. -/
theorem globalLatencies_of_nil {α : Type} {stats : α → Stats} {ts : List α}
    (h : ∀ t ∈ ts, (stats t).times = []) {fuel : ℕ} {ls : List UInt64}
    (hls : globalLatencies fuel (ts.map stats) = some ls) : ls = [] := by
  induction ts generalizing ls with
  | nil => exact (Option.some.inj hls).symm
  | cons t ts ih =>
    obtain ⟨own, rest, hown, hrest, rfl⟩ := globalLatencies_cons_eq_some.mp hls
    have hnil : own = [] := by
      rw [h t List.mem_cons_self] at hown
      cases fuel with
      | zero => cases hown
      | succ fuel => exact (Option.some.inj hown).symm
    rw [hnil, ih (fun t' ht' => h t' (List.mem_cons_of_mem t ht')) hrest]
    rfl

/-! ## What is printed -/

/-- The index `q * observed` truncated. -/
def percentileIndex (q : ℚ) (observed : ℕ) : ℕ := ⌊q * observed⌋.toNat

/-- The printed latencies. -/
structure Percentiles where
  min : UInt64
  p50 : UInt64
  p90 : UInt64
  p99 : UInt64
  p999 : UInt64
  p9999 : UInt64
  p99999 : UInt64
  max : UInt64

/-- **The latencies that are printed of the sorted ones**, if all are there. -/
def percentiles (latencies : List UInt64) : Option Percentiles := do
  let observed := latencies.length
  let min ← latencies[0]?
  let p50 ← latencies[percentileIndex (1 / 2) observed]?
  let p90 ← latencies[percentileIndex (9 / 10) observed]?
  let p99 ← latencies[percentileIndex (99 / 100) observed]?
  let p999 ← latencies[percentileIndex (999 / 1000) observed]?
  let p9999 ← latencies[percentileIndex (9999 / 10000) observed]?
  let p99999 ← latencies[percentileIndex (99999 / 100000) observed]?
  let max ← latencies[(UInt64.ofNat observed - 1).toNat]?
  return { min, p50, p90, p99, p999, p9999, p99999, max }

/-- **The latency report of `run`**: nothing without sampling. -/
def printLatencies (fuel : ℕ) (stats : List Stats) : Option (Option Percentiles) :=
  if opt.latencySampling > 0 then do
    let latencies ← globalLatencies fuel stats
    let printed ← percentiles (latencies.insertionSort (· ≤ ·))
    return some printed
  else some none

/-- **All indices are below the number of latencies**: those of the smallest and the
largest, and that of any fraction. -/
structure IndicesBelow (observed : ℕ) : Prop where
  min : 0 < observed
  fraction : ∀ q : ℚ, q < 1 → percentileIndex q observed < observed
  max : (UInt64.ofNat observed - 1).toNat < observed

/-- **What is printed grows.** -/
structure Percentiles.Ordered (p : Percentiles) : Prop where
  min_le : p.min ≤ p.p50
  p50_le : p.p50 ≤ p.p90
  p90_le : p.p90 ≤ p.p99
  p99_le : p.p99 ≤ p.p999
  p999_le : p.p999 ≤ p.p9999
  p9999_le : p.p9999 ≤ p.p99999
  p99999_le : p.p99999 ≤ p.max

theorem percentileIndex_lt {q : ℚ} (hq : q < 1) {n : ℕ} (hn : 0 < n) : percentileIndex q n < n := by
  have hpos : (0 : ℚ) < n := Nat.cast_pos.mpr hn
  have hlt : q * n < n := mul_lt_of_lt_one_left hpos hq
  refine (Int.toNat_lt_of_ne_zero hn.ne').mpr ?_
  exact Int.floor_lt.mpr (by rwa [Int.cast_natCast])

theorem percentileIndex_mono {q q' : ℚ} (h : q ≤ q') (n : ℕ) :
    percentileIndex q n ≤ percentileIndex q' n :=
  Int.toNat_le_toNat (Int.floor_le_floor (mul_le_mul_of_nonneg_right h n.cast_nonneg))

theorem toNat_ofNat_sub_one {n : ℕ} (hn : 0 < n) (hlt : n < 2 ^ 64) :
    (UInt64.ofNat n - 1).toNat = n - 1 := by
  have hnat : (UInt64.ofNat n).toNat = n := UInt64.toNat_ofNat_of_lt hlt
  have hone : (1 : UInt64) ≤ UInt64.ofNat n := by
    rw [UInt64.le_iff_toNat_le, hnat]
    exact hn
  rw [UInt64.toNat_sub_of_le _ _ hone, hnat]
  rfl

theorem indicesBelow_of_pos {n : ℕ} (hn : 0 < n) (hlt : n < 2 ^ 64) : IndicesBelow n where
  min := hn
  fraction _ hq := percentileIndex_lt hq hn
  max := by
    rw [toNat_ofNat_sub_one hn hlt]
    omega

/-- In a sorted list what stands further back is not smaller. -/
theorem getElem_le_getElem {l : List UInt64} (hl : l.Pairwise (· ≤ ·)) {i j : ℕ} (hij : i ≤ j)
    (hj : j < l.length) : l[i] ≤ l[j] := by
  rcases Nat.eq_or_lt_of_le hij with rfl | hlt
  · exact UInt64.le_refl _
  · exact List.pairwise_iff_getElem.mp hl i j (hlt.trans hj) hj hlt

/-- **Some latencies can be printed, and are printed in order.** -/
theorem percentiles_spec {l : List UInt64} (hl : l.Pairwise (· ≤ ·)) (hpos : 0 < l.length)
    (hlt : l.length < 2 ^ 64) : ∃ p, percentiles l = some p ∧ p.Ordered := by
  have hbelow := indicesBelow_of_pos hpos hlt
  have hmax : percentileIndex (99999 / 100000) l.length ≤ (UInt64.ofNat l.length - 1).toNat := by
    rw [toNat_ofNat_sub_one hpos hlt]
    exact Nat.le_sub_one_of_lt (hbelow.fraction _ (by norm_num))
  unfold percentiles
  dsimp only
  rw [List.getElem?_eq_getElem hpos,
    List.getElem?_eq_getElem (hbelow.fraction (1 / 2) (by norm_num)),
    List.getElem?_eq_getElem (hbelow.fraction (9 / 10) (by norm_num)),
    List.getElem?_eq_getElem (hbelow.fraction (99 / 100) (by norm_num)),
    List.getElem?_eq_getElem (hbelow.fraction (999 / 1000) (by norm_num)),
    List.getElem?_eq_getElem (hbelow.fraction (9999 / 10000) (by norm_num)),
    List.getElem?_eq_getElem (hbelow.fraction (99999 / 100000) (by norm_num)),
    List.getElem?_eq_getElem hbelow.max]
  refine ⟨_, rfl, ⟨?_, ?_, ?_, ?_, ?_, ?_, ?_⟩⟩
  · exact getElem_le_getElem hl (Nat.zero_le _) _
  · exact getElem_le_getElem hl (percentileIndex_mono (by norm_num) _) _
  · exact getElem_le_getElem hl (percentileIndex_mono (by norm_num) _) _
  · exact getElem_le_getElem hl (percentileIndex_mono (by norm_num) _) _
  · exact getElem_le_getElem hl (percentileIndex_mono (by norm_num) _) _
  · exact getElem_le_getElem hl (percentileIndex_mono (by norm_num) _) _
  · exact getElem_le_getElem hl hmax _

theorem pairwise_sorted (l : List UInt64) : (l.insertionSort (· ≤ ·)).Pairwise (· ≤ ·) := by
  have : Std.Total (fun a b : UInt64 => a ≤ b) := ⟨UInt64.le_total⟩
  have : IsTrans UInt64 (fun a b => a ≤ b) := ⟨fun _ _ _ => UInt64.le_trans⟩
  exact List.pairwise_insertionSort _ l

/-- **The latency report of a run is well-formed.** The stamps of every worker come in
pairs, the report is printed and all its indices are there, and what it prints
grows. -/
structure ReportsLatencies (gen : OperationGenerator) (sec : Section) (main : ThreadLocals)
    (tls : ℕ → ThreadLocals) (input : RunInput opt) : Prop where
  paired : ∀ tid < team opt,
    Paired (runThread e opt g gen sec main tls input tid).2.stats.times
      (sampled (input.inputs tid))
  reported : ∃ fuel latencies printed,
    globalLatencies fuel (localStats e opt g gen sec main tls input) = some latencies
      ∧ IndicesBelow latencies.length
      ∧ printLatencies opt fuel (localStats e opt g gen sec main tls input) = some (some printed)
      ∧ printed.Ordered

section Report

variable (gen : OperationGenerator) (sec : Section) (main : ThreadLocals)
    (tls : ℕ → ThreadLocals) (input : RunInput opt)

theorem times_runThread (tid : ℕ) :
    (runThread e opt g gen sec main tls input tid).2.stats.times
      = stamps (sampled (input.inputs tid)) :=
  times_runWorker e opt g gen (input.inputs tid) _

/-- The latencies of all workers, if the index can run over the stamps of each. -/
theorem globalLatencies_localStats
    (h : ∀ tid < team opt, (sampled (input.inputs tid)).length < 2 ^ 31) :
    globalLatencies (2 ^ 31) (localStats e opt g gen sec main tls input)
      = some ((List.range (team opt)).flatMap
          (fun tid => (sampled (input.inputs tid)).map latency)) :=
  globalLatencies_of_lt (times_runThread e opt g gen sec main tls input) le_rfl
    (fun tid htid => h tid (List.mem_range.mp htid))

/-- There is room for them in a vector. -/
theorem length_latencies_lt
    (h : ∀ tid < team opt, (sampled (input.inputs tid)).length < 2 ^ 31) :
    ((List.range (team opt)).flatMap
      (fun tid => (sampled (input.inputs tid)).map latency)).length < 2 ^ 64 := by
  have hteam : team opt < 2 ^ 32 := opt.numThreads.toNat_lt
  have hle : ((List.range (team opt)).flatMap
      (fun tid => (sampled (input.inputs tid)).map latency)).length ≤ team opt * 2 ^ 31 := by
    rw [List.length_flatMap]
    refine (List.sum_le_card_nsmul _ (2 ^ 31) (fun n hn => ?_)).trans ?_
    · obtain ⟨tid, htid, rfl⟩ := List.mem_map.mp hn
      rw [List.length_map]
      exact (h tid (List.mem_range.mp htid)).le
    · rw [List.length_map, List.length_range, nsmul_eq_mul, Nat.cast_id]
  omega

/-- A report needs something to print. -/
theorem exists_measure_of_reportsLatencies
    (h : ReportsLatencies e opt g gen sec main tls input) :
    ∃ tid < team opt, ∃ inp ∈ input.inputs tid, inp.measure = true := by
  obtain ⟨fuel, latencies, -, hglobal, hbelow, -, -⟩ := h.reported
  by_contra hnone
  have hempty : ∀ tid ∈ List.range (team opt),
      (runThread e opt g gen sec main tls input tid).2.stats.times = [] := by
    intro tid htid
    have hfilter : sampled (input.inputs tid) = [] :=
      List.filter_eq_nil_iff.mpr
        (fun inp hinp hm => hnone ⟨tid, List.mem_range.mp htid, inp, hinp, hm⟩)
    rw [times_runThread, hfilter]
    rfl
  rw [globalLatencies_of_nil hempty hglobal] at hbelow
  exact absurd hbelow.min (lt_irrefl 0)

/-- Where something was sampled, and the index can run over all stamps, the report is
printed in order. -/
theorem exists_printed (hs : opt.latencySampling > 0)
    (hlt : ∀ tid < team opt, (sampled (input.inputs tid)).length < 2 ^ 31)
    (hsome : ∃ tid < team opt, ∃ inp ∈ input.inputs tid, inp.measure = true) :
    ∃ fuel latencies printed,
      globalLatencies fuel (localStats e opt g gen sec main tls input) = some latencies
        ∧ IndicesBelow latencies.length
        ∧ printLatencies opt fuel (localStats e opt g gen sec main tls input)
          = some (some printed)
        ∧ printed.Ordered := by
  obtain ⟨tid, htid, inp, hinp, hmeasure⟩ := hsome
  have hglobal := globalLatencies_localStats e opt g gen sec main tls input hlt
  have hroom := length_latencies_lt opt input hlt
  generalize hls : (List.range (team opt)).flatMap
    (fun tid => (sampled (input.inputs tid)).map latency) = ls at hglobal hroom
  have hmem : latency inp ∈ ls := by
    rw [← hls]
    refine List.mem_flatMap.mpr ⟨tid, List.mem_range.mpr htid, List.mem_map_of_mem ?_⟩
    exact List.mem_filter.mpr ⟨hinp, hmeasure⟩
  have hpos : 0 < ls.length := List.length_pos_of_mem hmem
  have hsort := List.length_insertionSort (· ≤ ·) ls
  obtain ⟨printed, hprinted, hordered⟩ :=
    percentiles_spec (pairwise_sorted ls) (hsort.symm ▸ hpos) (hsort.symm ▸ hroom)
  refine ⟨2 ^ 31, ls, printed, hglobal, indicesBelow_of_pos hpos hroom, ?_, hordered⟩
  rw [printLatencies, if_pos hs, hglobal]
  show (percentiles _).bind _ = _
  rw [hprinted]
  rfl

/-- **The report is well-formed exactly when some operation was sampled and no worker
sampled `2 ^ 31` or more.** -/
theorem reportsLatencies_iff (hs : opt.latencySampling > 0) :
    ReportsLatencies e opt g gen sec main tls input
      ↔ (∃ tid < team opt, ∃ inp ∈ input.inputs tid, inp.measure = true)
        ∧ ∀ tid < team opt, (sampled (input.inputs tid)).length < 2 ^ 31 := by
  have htimes := times_runThread e opt g gen sec main tls input
  constructor
  · intro h
    obtain ⟨fuel, latencies, -, hglobal, -, -, -⟩ := h.reported
    have hlt := lt_of_globalLatencies htimes hglobal
    exact ⟨exists_measure_of_reportsLatencies e opt g gen sec main tls input h,
      fun tid htid => hlt tid (List.mem_range.mpr htid)⟩
  · rintro ⟨hsome, hlt⟩
    refine ⟨fun tid _ => ?_, exists_printed e opt g gen sec main tls input hs hlt hsome⟩
    rw [htimes]
    exact paired_stamps _

end Report

/-- A thread and an operation, sampled with probability one in a thousand. -/
def sampledOptions : Options := { numOps := 1, latencySampling := 1 / 1000 }

/-- The operation, and what the coin said. -/
def coinInput (measure : Bool) : RunInput sampledOptions where
  inputs _ := [{ draw := 0, measure := measure, start := 10, stop := 25 }]
  allowed := by
    show ∀ tid < 1, 1 = staticShare 1 1 tid
    decide

/-- The coin came up: one latency is reported. -/
theorem reportsLatencies_one :
    sampledOptions.latencySampling > 0
      ∧ ReportsLatencies .little sampledOptions KeyGenerator.defaultGenerator
        { ops := Vector.replicate 256 .read } .monitor {} (fun _ => {}) (coinInput true) := by
  have hs : sampledOptions.latencySampling > 0 := by decide +kernel
  refine ⟨hs, (reportsLatencies_iff _ _ _ _ _ _ _ _ hs).mpr ⟨⟨0, by decide, ?_⟩, ?_⟩⟩
  · exact ⟨_, List.mem_cons_self, rfl⟩
  · intro tid _
    show 1 < 2 ^ 31
    decide

/-- **The coin did not come up**: the report reads the first of no latencies. -/
theorem unsampled_not_reported :
    sampledOptions.Accepted
      ∧ sampledOptions.latencySampling > 0
      ∧ ¬ ReportsLatencies .little sampledOptions KeyGenerator.defaultGenerator
        { ops := Vector.replicate 256 .read } .monitor {} (fun _ => {}) (coinInput false) := by
  refine ⟨?_, by decide +kernel, fun h => ?_⟩
  · rw [Options.accepted_iff]
    decide +kernel
  · obtain ⟨tid, -, inp, hinp, hm⟩ := exists_measure_of_reportsLatencies _ _ _ _ _ _ _ _ h
    rw [List.mem_singleton.mp hinp] at hm
    cases hm

end Benchmark
