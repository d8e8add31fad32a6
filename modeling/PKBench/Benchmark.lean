import PKBench.KeyGenerator
import PKBench.StaticSchedule

/-!
# The driver

`benchmark_t` loads the store and then runs the workload. Both phases are
OpenMP regions: in `load` each thread of the team sets its running id to its
share of the records and inserts the ids that follow; in `run` one thread
watches while a team of workers executes operations, each worker starting from
an id of its own and drawing its operations from a table of 256.

The running id is `thread_local`, so the state of a phase is what each thread
of the team carries (`ThreadLocals`), and the only thing one phase hands to the
next is the state of the main thread. It is thread number zero of the loading
team. In a run it executes one of the two sections (`Section`): as the monitor
it keeps its state, as the master of the workers it is worker number zero.

What chance decides – table draws, drawn ids, sampled latencies – and what the
store answers is input: a worker is run on a list of `OpInput`, and a run on
one such list for each worker (`RunInput`), of the length the mode allows. What
a worker asks of the store is its list of `Request`s.
-/

/-! ## Operations and statistics -/

/-- **The operation generator**: a table of 256 operations, drawn once. -/
structure OperationGenerator where
  ops : Vector Operation 256

namespace OperationGenerator

/-- `operation_generator_t::next` on the drawn number. -/
def next (gen : OperationGenerator) (draw : UInt32) : Operation :=
  gen.ops.get (Fin.ofNat 256 (draw &&& 0xff).toNat)

/-- The weights a generator is constructed from. -/
def weights (read insert update remove scan : ℚ) : Operation → ℚ
  | .read => read
  | .insert => insert
  | .update => update
  | .remove => remove
  | .scan => scan

/-- **A table the constructor can fill in from the weights**: a discrete
distribution draws no index of weight zero. -/
def GeneratedBy (gen : OperationGenerator) (w : Operation → ℚ) : Prop :=
  ∀ i : Fin 256, 0 < w (gen.ops.get i)

/-- A table filled in from the weights of `change_to_insert` holds nothing but
inserts. -/
theorem next_of_generatedBy_insert {gen : OperationGenerator}
    (h : gen.GeneratedBy (weights 0 1 0 0 0)) (draw : UInt32) :
    gen.next draw = .insert := by
  have hw := h (Fin.ofNat 256 (draw &&& 0xff).toNat)
  unfold next
  cases hop : gen.ops.get (Fin.ofNat 256 (draw &&& 0xff).toNat) with
  | insert => rfl
  | read => rw [hop] at hw; exact absurd hw (lt_irrefl _)
  | update => rw [hop] at hw; exact absurd hw (lt_irrefl _)
  | remove => rw [hop] at hw; exact absurd hw (lt_irrefl _)
  | scan => rw [hop] at hw; exact absurd hw (lt_irrefl _)

end OperationGenerator

/-- The counters of one worker, and the time stamps of its sampled
operations. -/
structure Stats where
  operationCount : ℕ := 0
  insertCount : ℕ := 0
  successInsertCount : ℕ := 0
  readCount : ℕ := 0
  successReadCount : ℕ := 0
  updateCount : ℕ := 0
  successUpdateCount : ℕ := 0
  removeCount : ℕ := 0
  successRemoveCount : ℕ := 0
  scanCount : ℕ := 0
  successScanCount : ℕ := 0
  times : List ℕ := []

/-- What chance and the store contribute to one operation. -/
structure OpInput where
  /-- Number drawn by the operation generator. -/
  draw : UInt32
  /-- Id drawn by the key distribution, for an operation that is no insert. -/
  nextId : UInt64 := 0
  /-- Whether the latency of the operation is sampled. -/
  measure : Bool := false
  /-- What the client returned, as the driver reads it: true or non-zero. -/
  result : Bool := true
  /-- Clock before the operation, if sampled. -/
  start : ℕ := 0
  /-- Clock after the operation, if sampled. -/
  stop : ℕ := 0

/-- What the driver asks of the store. -/
structure Request where
  op : Operation
  id : UInt64
  key : Vector UInt8 keyMax

namespace Stats

/-- `benchmark_t::run_op`: the counters after an operation with the given
result. -/
def runOp (stats : Stats) (op : Operation) (r : Bool) : Stats :=
  let stats := match op with
    | .read =>
        { stats with
          readCount := stats.readCount + 1
          successReadCount := stats.successReadCount + r.toNat }
    | .insert =>
        { stats with
          insertCount := stats.insertCount + 1
          successInsertCount := stats.successInsertCount + r.toNat }
    | .update =>
        { stats with
          updateCount := stats.updateCount + 1
          successUpdateCount := stats.successUpdateCount + r.toNat }
    | .remove =>
        { stats with
          removeCount := stats.removeCount + 1
          successRemoveCount := stats.successRemoveCount + r.toNat }
    | .scan =>
        { stats with
          scanCount := stats.scanCount + 1
          successScanCount := stats.successScanCount + r.toNat }
  { stats with operationCount := stats.operationCount + 1 }

/-- A time stamp is pushed if the operation is sampled. -/
def stamp (stats : Stats) (measure : Bool) (clock : ℕ) : Stats :=
  if measure then { stats with times := stats.times ++ [clock] } else stats

end Stats

/-! ## Loading -/

namespace Benchmark

open Binary32 (toFloat)

variable (e : Endianness) (opt : Options) (g : KeyGenerator)

/-- The number of threads of a team. -/
def team : ℕ := opt.numThreads.toNat

/-- `n` inserts of keys in sequence by one thread. -/
def insertSeq : ℕ → ThreadLocals → List Request × ThreadLocals
  | 0, tls => ([], tls)
  | n + 1, tls =>
      let (id, tls) := g.next e tls true 0
      let (requests, tls') := insertSeq n tls
      ({ op := .insert, id := id, key := tls.buf } :: requests, tls')

/-- The id a thread of the loading team starts from. -/
def loadStart (tid : ℕ) : UInt64 :=
  opt.numRecords / opt.numThreads.toUInt64 * UInt64.ofNat tid

/-- One thread of `benchmark_t::load`. -/
def loadThread (tid : ℕ) (tls : ThreadLocals) : List Request × ThreadLocals :=
  insertSeq e g (staticShare opt.numRecords.toNat (team opt) tid)
    { tls with currentId := loadStart opt tid }

/-- **`benchmark_t::load`** by a team whose threads carry `tls`, the main thread
being number zero: what each thread inserts, and the state of the main thread
afterwards. -/
def load (tls : ℕ → ThreadLocals) : List (List Request) × ThreadLocals :=
  if opt.skipLoad then
    ([], { tls 0 with currentId := opt.numRecords + 1 })
  else
    ((List.range (team opt)).map (fun tid => (loadThread e opt g tid (tls tid)).1),
      (loadThread e opt g 0 (tls 0)).2)

/-! ## Running -/

/-- The stride between the first ids of neighbouring workers: the amount of
inserts expected to be done by each thread and some play room. The two numbers
are converted to `float`, and product, quotient and sum are rounded. A sum of
`2 ^ 64`, whose conversion back is undefined, is taken for zero. -/
def insertsPerThread : UInt64 :=
  let product := toFloat (toFloat opt.numOps.toNat * opt.insertRatio)
  UInt64.ofNat ⌊toFloat (10 + toFloat (product / toFloat opt.numThreads.toNat))⌋.toNat

/-- Where nothing is rounded the stride is ten and the expected number of inserts. -/
theorem insertsPerThread_of_exact (hratio : 0 ≤ opt.insertRatio)
    (hops : opt.numOps.toNat < 2 ^ 24) (hthreads : opt.numThreads.toNat < 2 ^ 24)
    (hproduct : toFloat (opt.numOps.toNat * opt.insertRatio)
      = opt.numOps.toNat * opt.insertRatio)
    (hquotient : toFloat (opt.numOps.toNat * opt.insertRatio / opt.numThreads.toNat)
      = opt.numOps.toNat * opt.insertRatio / opt.numThreads.toNat)
    (hsum : toFloat (10 + opt.numOps.toNat * opt.insertRatio / opt.numThreads.toNat)
      = 10 + opt.numOps.toNat * opt.insertRatio / opt.numThreads.toNat) :
    insertsPerThread opt
      = UInt64.ofNat (10 + ⌊opt.numOps.toNat * opt.insertRatio / opt.numThreads.toNat⌋.toNat) := by
  have hquot : 0 ≤ opt.numOps.toNat * opt.insertRatio / opt.numThreads.toNat := by positivity
  unfold insertsPerThread
  rw [Binary32.toFloat_natCast hops, Binary32.toFloat_natCast hthreads, hproduct]
  dsimp only
  rw [hquotient, hsum]
  congr 1
  rw [show (10 : ℚ) = ((10 : ℤ) : ℚ) from rfl, Int.floor_intCast_add,
    Int.toNat_add (by decide) (Int.floor_nonneg.mpr hquot)]
  rfl

/-- An INSERT ratio of 0.65 makes 17 of 340 operations for each of 13 threads, but 0.65
is no `float`, and the stride is 26. -/
example : insertsPerThread
    { numOps := 340
      numThreads := 13
      readRatio := toFloat (35 / 100)
      insertRatio := toFloat (65 / 100) } = 26 := by
  decide +kernel

/-- The id a worker starts from. -/
def workerStart (currentId : UInt64) (tid : ℕ) : UInt64 :=
  currentId + insertsPerThread opt * UInt64.ofNat tid

/-- A worker: the state of its thread and its statistics. -/
structure Worker where
  tls : ThreadLocals
  stats : Stats := {}

/-- In time mode a drawn id is scaled back to what has been inserted, and the
part beyond the loaded records is spread over the workers' ranges. -/
def scaleId (successInsertCount : ℕ) (id : UInt64) : UInt64 :=
  let s := UInt64.ofNat successInsertCount
  let id := id % (s * opt.numThreads.toUInt64 + opt.numRecords)
  if id ≥ opt.numRecords then
    let ins := id - opt.numRecords
    opt.numRecords + insertsPerThread opt * (ins / s) + ins % s
  else id

/-- The operation's id, and the worker's state once its key is built. -/
def pickKey (op : Operation) (w : Worker) (inp : OpInput) : UInt64 × ThreadLocals :=
  if op = .insert then
    g.next e w.tls true inp.nextId
  else
    let id := match opt.bmMode with
      | .time => scaleId opt w.stats.successInsertCount inp.nextId
      | .operation => inp.nextId
    (id, { w.tls with buf := g.hashId e w.tls.buf id })

/-- **`execute_op`** of a worker. -/
def executeOp (gen : OperationGenerator) (w : Worker) (inp : OpInput) : Request × Worker :=
  let op := gen.next inp.draw
  let (id, tls) := pickKey e opt g op w inp
  let stats := ((w.stats.stamp inp.measure inp.start).runOp op inp.result).stamp
    inp.measure inp.stop
  ({ op := op, id := id, key := tls.buf }, { tls := tls, stats := stats })

/-- The loop of a worker. -/
def runWorker (gen : OperationGenerator) : List OpInput → Worker → List Request × Worker
  | [], w => ([], w)
  | inp :: inputs, w =>
      let (request, w) := executeOp e opt g gen w inp
      let (requests, w') := runWorker gen inputs w
      (request :: requests, w')

/-- The two sections of a run, of which the main thread executes one. -/
inductive Section where
  | monitor
  | workers
  deriving DecidableEq, Repr

/-- **The inputs of a run**: a list for each worker, of the length the mode
allows – the worker's share of the operations, or, in time mode, any number of
operations from one on. -/
structure RunInput where
  inputs : ℕ → List OpInput
  allowed : ∀ tid < team opt,
    match opt.bmMode with
    | .operation => (inputs tid).length = staticShare opt.numOps.toNat (team opt) tid
    | .time => inputs tid ≠ []

/-- Worker `tid` of a run from `currentId`. -/
def startWorker (currentId : UInt64) (tid : ℕ) (tls : ThreadLocals) : Worker :=
  { tls := { tls with currentId := workerStart opt currentId tid } }

/-- The state worker `tid` finds in its thread: the main thread is worker zero
if it executes the workers' section. -/
def workerLocals (sec : Section) (main : ThreadLocals) (tls : ℕ → ThreadLocals)
    (tid : ℕ) : ThreadLocals :=
  if sec = .workers ∧ tid = 0 then main else tls tid

/-- One worker of a run. -/
def runThread (gen : OperationGenerator) (sec : Section) (main : ThreadLocals)
    (tls : ℕ → ThreadLocals) (input : RunInput opt) (tid : ℕ) : List Request × Worker :=
  runWorker e opt g gen (input.inputs tid)
    (startWorker opt main.currentId tid (workerLocals sec main tls tid))

/-- **`benchmark_t::run`**: what each worker asks of the store, and the state of
the main thread afterwards. -/
def run (gen : OperationGenerator) (sec : Section) (main : ThreadLocals)
    (tls : ℕ → ThreadLocals) (input : RunInput opt) : List (List Request) × ThreadLocals :=
  ((List.range (team opt)).map (fun tid => (runThread e opt g gen sec main tls input tid).1),
    match sec with
    | .monitor => main
    | .workers => (runThread e opt g gen sec main tls input 0).2.tls)

end Benchmark
