import PKBench.LoadIds

/-!
# The divisions of the driver

A division by zero ends the process. `load` and `run` divide integers in five
places: the records by the threads, the operations by the threads when room for
time stamps is set aside, the milliseconds of a timed run by the sampling
window, and in the scaling of time mode a drawn id by the number of ids and what
is left of it by the number of INSERTs. (The divisor of `inserts_per_thread` is
a `float`, and those of the printed megabytes are constants.) `main` checks none
of these divisors.

Below stand the same functions with checked divisions: they return nothing
where the process would end. Two of the five places need no check, because an
empty team sets no room aside (`reserveTimes_isSome`), and because no residue
lies beyond the records before there is an INSERT (`checkedScaleId_eq`). For
the others `arithmeticSafe_iff` gives the configurations and the inputs for which
nothing goes wrong, together with those for which the milliseconds of a timed
run fit into 32 bits.
-/

namespace Benchmark

/-! ## Checked divisions -/

/-- A division the process survives. -/
def checkedDiv (a b : UInt64) : Option UInt64 := if b = 0 then none else some (a / b)

/-- A remainder the process survives. -/
def checkedMod (a b : UInt64) : Option UInt64 := if b = 0 then none else some (a % b)

variable (e : Endianness) (opt : Options) (g : KeyGenerator)

/-- The id a loading thread starts from. -/
def checkedLoadStart (tid : ℕ) : Option UInt64 := do
  let share ← checkedDiv opt.numRecords opt.numThreads.toUInt64
  return share * UInt64.ofNat tid

/-- The quotients from which `run` computes the room for the time stamps of each
worker. In time mode the room is a constant. -/
def reserveTimes : Option (List UInt64) :=
  if opt.latencySampling ≠ 0 ∧ opt.bmMode = .operation then
    (List.range (team opt)).mapM (fun _ => checkedDiv opt.numOps opt.numThreads.toUInt64)
  else
    some []

/-- The number of samples a timed run computes, in 32-bit integers. -/
def checkedIterations : Option UInt32 :=
  if opt.samplingMs = 0 then none else some (opt.seconds * 1000 / opt.samplingMs)

/-- The loop of the monitor in time mode: the number of samples it takes, if it
ends within `fuel` of them. -/
def monitorLoop (iterations : UInt32) : ℕ → UInt32 → Option ℕ
  | 0, _ => none
  | fuel + 1, slept =>
      let slept := slept + 1
      if slept < iterations then (monitorLoop iterations fuel slept).map (· + 1) else some 1

/-- The scaling of time mode. -/
def checkedScaleId (successInsertCount : ℕ) (id : UInt64) : Option UInt64 := do
  let s := UInt64.ofNat successInsertCount
  let id ← checkedMod id (s * opt.numThreads.toUInt64 + opt.numRecords)
  if id ≥ opt.numRecords then
    let ins := id - opt.numRecords
    let worker ← checkedDiv ins s
    let offset ← checkedMod ins s
    return opt.numRecords + insertsPerThread opt * worker + offset
  else
    return id

/-- The operation's id, and the worker's state once its key is built. -/
def checkedPickKey (op : Operation) (w : Worker) (inp : OpInput) :
    Option (UInt64 × ThreadLocals) :=
  if op = .insert then
    some (g.next e w.tls true inp.nextId)
  else do
    let id ← match opt.bmMode with
      | .time => checkedScaleId opt w.stats.successInsertCount inp.nextId
      | .operation => some inp.nextId
    return (id, { w.tls with buf := g.hashId e w.tls.buf id })

/-- `execute_op` of a worker. -/
def checkedExecuteOp (gen : OperationGenerator) (w : Worker) (inp : OpInput) :
    Option (Request × Worker) := do
  let op := gen.next inp.draw
  let (id, tls) ← checkedPickKey e opt g op w inp
  let stats := ((w.stats.stamp inp.measure inp.start).runOp op inp.result).stamp
    inp.measure inp.stop
  return ({ op := op, id := id, key := tls.buf }, { tls := tls, stats := stats })

/-- The loop of a worker. -/
def checkedRunWorker (gen : OperationGenerator) :
    List OpInput → Worker → Option (List Request × Worker)
  | [], w => some ([], w)
  | inp :: inputs, w => do
      let (request, w) ← checkedExecuteOp e opt g gen w inp
      let (requests, w') ← checkedRunWorker gen inputs w
      return (request :: requests, w')

/-! ## Where nothing goes wrong -/

theorem numThreads_eq_zero_iff : opt.numThreads.toUInt64 = 0 ↔ team opt = 0 := by
  rw [← UInt64.toNat_inj]
  rfl

/-- The division of the load is safe unless there are no threads. -/
theorem checkedLoadStart_eq_some_iff (tid : ℕ) :
    checkedLoadStart opt tid = some (loadStart opt tid) ↔ 0 < team opt := by
  unfold checkedLoadStart checkedDiv
  by_cases h : team opt = 0
  · rw [if_pos ((numThreads_eq_zero_iff opt).mpr h)]
    exact iff_of_false (fun hsome => by cases hsome) (by omega)
  · rw [if_neg (fun h0 => h ((numThreads_eq_zero_iff opt).mp h0))]
    exact iff_of_true rfl (by omega)

/-- **An empty team sets no room aside**, and any other divides by itself. -/
theorem reserveTimes_isSome : (reserveTimes opt).isSome := by
  unfold reserveTimes
  by_cases hlat : opt.latencySampling ≠ 0 ∧ opt.bmMode = .operation
  · rw [if_pos hlat]
    by_cases h : team opt = 0
    · rw [h]
      rfl
    · have hdiv : checkedDiv opt.numOps opt.numThreads.toUInt64
          = some (opt.numOps / opt.numThreads.toUInt64) :=
        if_neg (fun h0 => h ((numThreads_eq_zero_iff opt).mp h0))
      rw [hdiv]
      generalize List.range (team opt) = l
      induction l with
      | nil => rfl
      | cons a l ih =>
        obtain ⟨shares, hshares⟩ := Option.isSome_iff_exists.mp ih
        rw [List.mapM_cons, hshares]
        rfl
  · rw [if_neg hlat]
    rfl

/-- The number of ids the scaling divides by is zero when it is a multiple of
`2 ^ 64`. -/
theorem modulus_eq_zero_iff (s : ℕ) :
    UInt64.ofNat s * opt.numThreads.toUInt64 + opt.numRecords = 0
      ↔ idSpace ∣ opt.numRecords.toNat + team opt * s := by
  rw [← UInt64.toNat_inj, UInt64.toNat_add, UInt64.toNat_mul, UInt64.toNat_ofNat',
    toNat_numThreads, Nat.mod_add_mod, Nat.dvd_iff_mod_eq_zero]
  show (s % 2 ^ 64 * team opt + opt.numRecords.toNat) % 2 ^ 64 = 0 ↔ _
  have hmod : (s % 2 ^ 64 * team opt + opt.numRecords.toNat) % 2 ^ 64
      = (opt.numRecords.toNat + team opt * s) % 2 ^ 64 := by
    rw [Nat.add_comm, Nat.mul_comm (team opt) s]
    exact Nat.ModEq.add_left _ ((Nat.mod_modEq _ _).mul_right _)
  rw [hmod]
  rfl

/-- **The scaling fails only where the number of ids is zero**: with no INSERT so
far every residue is below the number of records. -/
theorem checkedScaleId_eq (s : ℕ) (id : UInt64) :
    checkedScaleId opt s id
      = if idSpace ∣ opt.numRecords.toNat + team opt * s then none
        else some (scaleId opt s id) := by
  unfold checkedScaleId checkedMod checkedDiv scaleId
  dsimp only
  by_cases hN : UInt64.ofNat s * opt.numThreads.toUInt64 + opt.numRecords = 0
  · rw [if_pos hN, if_pos ((modulus_eq_zero_iff opt s).mp hN)]
    rfl
  · rw [if_neg hN, if_neg (fun h => hN ((modulus_eq_zero_iff opt s).mpr h)), Option.bind_eq_bind,
      Option.bind_some]
    by_cases hge : id % (UInt64.ofNat s * opt.numThreads.toUInt64 + opt.numRecords)
        ≥ opt.numRecords
    · have hs : UInt64.ofNat s ≠ 0 := by
        intro h0
        rw [h0, UInt64.zero_mul, UInt64.zero_add] at hge hN
        have hlt := UInt64.mod_lt id (UInt64.pos_iff_ne_zero.mpr hN)
        exact absurd hge (UInt64.not_le.mpr hlt)
      rw [if_pos hge, if_pos hge, if_neg hs, if_neg hs]
      rfl
    · rw [if_neg hge, if_neg hge]
      rfl

/-- The successful INSERTs among the operations of a worker. -/
def successInserts (gen : OperationGenerator) (inputs : List OpInput) : ℕ :=
  inputs.countP (fun inp => gen.next inp.draw = .insert ∧ inp.result = true)

/-- **An operation that finds no id to scale to**: it is no INSERT, the run is
timed, and the records and the INSERTs of all workers, taken to be as many as
the worker's own, are a multiple of `2 ^ 64`. -/
def NoIds (gen : OperationGenerator) (s : ℕ) (inp : OpInput) : Prop :=
  opt.bmMode = .time ∧ gen.next inp.draw ≠ .insert ∧ idSpace ∣ opt.numRecords.toNat + team opt * s

instance (gen : OperationGenerator) (s : ℕ) (inp : OpInput) : Decidable (NoIds opt gen s inp) :=
  inferInstanceAs (Decidable (_ ∧ _ ∧ _))

theorem checkedExecuteOp_eq (gen : OperationGenerator) (w : Worker) (inp : OpInput) :
    checkedExecuteOp e opt g gen w inp
      = if NoIds opt gen w.stats.successInsertCount inp then none
        else some (executeOp e opt g gen w inp) := by
  have hkey : checkedPickKey e opt g (gen.next inp.draw) w inp
      = if NoIds opt gen w.stats.successInsertCount inp then none
        else some (pickKey e opt g (gen.next inp.draw) w inp) := by
    unfold checkedPickKey pickKey
    by_cases hop : gen.next inp.draw = .insert
    · rw [if_pos hop, if_pos hop, if_neg (fun h => h.2.1 hop)]
    · rw [if_neg hop, if_neg hop]
      cases hmode : opt.bmMode with
      | operation =>
        rw [if_neg (fun h => by rw [NoIds, hmode] at h; cases h.1)]
        rfl
      | time =>
        show (checkedScaleId opt w.stats.successInsertCount inp.nextId >>= _) = _
        rw [checkedScaleId_eq]
        by_cases hdvd : idSpace ∣ opt.numRecords.toNat + team opt * w.stats.successInsertCount
        · rw [if_pos hdvd, if_pos ⟨hmode, hop, hdvd⟩]
          rfl
        · rw [if_neg hdvd, if_neg (fun h => hdvd h.2.2)]
          rfl
  unfold checkedExecuteOp
  dsimp only
  rw [hkey]
  by_cases h : NoIds opt gen w.stats.successInsertCount inp
  · rw [if_pos h, if_pos h]
    rfl
  · rw [if_neg h, if_neg h]
    rfl

theorem successInsertCount_stamp (stats : Stats) (measure : Bool) (clock : ℕ) :
    (stats.stamp measure clock).successInsertCount = stats.successInsertCount := by
  unfold Stats.stamp
  cases measure <;> rfl

/-- The successful INSERTs a worker has counted. -/
theorem successInsertCount_executeOp (gen : OperationGenerator) (w : Worker) (inp : OpInput) :
    (executeOp e opt g gen w inp).2.stats.successInsertCount
      = w.stats.successInsertCount + successInserts gen [inp] := by
  show (Stats.stamp (Stats.runOp (w.stats.stamp _ _) (gen.next inp.draw) inp.result) _ _
    ).successInsertCount = _
  have hstamp := successInsertCount_stamp w.stats inp.measure inp.start
  rw [successInsertCount_stamp, successInserts, List.countP_singleton]
  cases hop : gen.next inp.draw with
  | insert =>
    show Stats.successInsertCount _ + inp.result.toNat = _
    rw [hstamp]
    cases inp.result <;> rfl
  | read => exact hstamp
  | update => exact hstamp
  | remove => exact hstamp
  | scan => exact hstamp

theorem successInserts_cons (gen : OperationGenerator) (inp : OpInput) (inputs : List OpInput) :
    successInserts gen (inp :: inputs) = successInserts gen [inp] + successInserts gen inputs := by
  rw [successInserts, ← List.singleton_append, List.countP_append]
  rfl

/-- **A worker survives its loop exactly when no operation of it finds itself
without ids.** -/
theorem checkedRunWorker_eq_some_iff (gen : OperationGenerator) (inputs : List OpInput)
    (w : Worker) :
    checkedRunWorker e opt g gen inputs w = some (runWorker e opt g gen inputs w)
      ↔ ∀ k inp, inputs[k]? = some inp →
        ¬ NoIds opt gen (w.stats.successInsertCount + successInserts gen (inputs.take k)) inp := by
  induction inputs generalizing w with
  | nil =>
    refine iff_of_true rfl (fun k inp h => ?_)
    rw [List.getElem?_nil] at h
    cases h
  | cons inp inputs ih =>
    have hstep : checkedRunWorker e opt g gen (inp :: inputs) w
        = (checkedExecuteOp e opt g gen w inp).bind (fun r =>
            (checkedRunWorker e opt g gen inputs r.2).bind (fun rs =>
              some (r.1 :: rs.1, rs.2))) := rfl
    rw [hstep, checkedExecuteOp_eq]
    by_cases hno : NoIds opt gen w.stats.successInsertCount inp
    · rw [if_pos hno]
      refine iff_of_false (fun h => by cases h) (fun h => ?_)
      exact h 0 inp rfl hno
    · have htail : ((checkedRunWorker e opt g gen inputs (executeOp e opt g gen w inp).2).bind
            (fun rs => some ((executeOp e opt g gen w inp).1 :: rs.1, rs.2))
          = some (runWorker e opt g gen (inp :: inputs) w))
          ↔ checkedRunWorker e opt g gen inputs (executeOp e opt g gen w inp).2
            = some (runWorker e opt g gen inputs (executeOp e opt g gen w inp).2) := by
        rw [Option.bind_eq_some_iff]
        constructor
        · rintro ⟨rs, hrs, heq⟩
          have hpair := Option.some.inj heq
          have h₁ : rs.1 = (runWorker e opt g gen inputs (executeOp e opt g gen w inp).2).1 :=
            List.tail_eq_of_cons_eq (congrArg Prod.fst hpair)
          have h₂ := congrArg Prod.snd hpair
          exact hrs.trans (congrArg some (Prod.ext h₁ h₂))
        · exact fun h => ⟨_, h, rfl⟩
      rw [if_neg hno, Option.bind_some, htail, ih, successInsertCount_executeOp]
      constructor
      · intro h k inp' hk
        cases k with
        | zero =>
          obtain rfl := Option.some.inj hk
          exact hno
        | succ k =>
          have htake := h k inp' hk
          rwa [List.take_succ_cons, successInserts_cons, ← Nat.add_assoc]
      · intro h k inp' hk
        have hsucc := h (k + 1) inp' hk
        rwa [List.take_succ_cons, successInserts_cons, ← Nat.add_assoc] at hsucc

/-! ## The monitor -/

/-- **The monitor takes the samples it computed, and one at least.** -/
theorem monitorLoop_eq (iterations : UInt32) (fuel : ℕ) (slept : UInt32)
    (hslept : slept.toNat < max 1 iterations.toNat)
    (hfuel : max 1 iterations.toNat ≤ slept.toNat + fuel) :
    monitorLoop iterations fuel slept = some (max 1 iterations.toNat - slept.toNat) := by
  have hlt := iterations.toNat_lt
  induction fuel generalizing slept with
  | zero => exact absurd hslept (Nat.not_lt.mpr hfuel)
  | succ fuel ih =>
    have hsucc : (slept + 1).toNat = slept.toNat + 1 := by
      rw [UInt32.toNat_add]
      show (slept.toNat + 1) % 2 ^ 32 = _
      rcases lt_max_iff.mp hslept with h | h
      · exact Nat.mod_eq_of_lt (by omega)
      · exact Nat.mod_eq_of_lt (by omega)
    rw [monitorLoop]
    by_cases hmore : slept + 1 < iterations
    · have hmore' : slept.toNat + 1 < iterations.toNat := by
        rwa [UInt32.lt_iff_toNat_lt, hsucc] at hmore
      rw [if_pos hmore, ih (slept + 1) (by rw [hsucc]; exact lt_max_of_lt_right hmore')
        (by rw [hsucc]; omega), hsucc]
      show some (_ + 1) = _
      congr 1
      omega
    · have hdone : iterations.toNat ≤ slept.toNat + 1 := by
        rw [← hsucc, ← UInt32.le_iff_toNat_le]
        exact UInt32.not_lt.mp hmore
      rw [if_neg hmore]
      congr 1
      omega

/-- The samples a timed run of so many seconds should take. -/
def expectedSamples : ℕ := max 1 (opt.seconds.toNat * 1000 / opt.samplingMs.toNat)

/-- **Safe arithmetic** of a load and of a run on the given inputs: every division
is survived, the milliseconds of a timed run do not wrap, and its monitor takes
the samples it should. -/
structure ArithmeticSafe (gen : OperationGenerator) (sec : Section) (main : ThreadLocals)
    (tls : ℕ → ThreadLocals) (input : RunInput opt) : Prop where
  load : opt.skipLoad = false → ∀ tid, checkedLoadStart opt tid = some (loadStart opt tid)
  reserve : (reserveTimes opt).isSome
  noWrap : opt.bmMode = .time → (opt.seconds * 1000).toNat = opt.seconds.toNat * 1000
  monitor : opt.bmMode = .time → ∃ iterations, checkedIterations opt = some iterations
    ∧ ∀ fuel ≥ expectedSamples opt,
      monitorLoop iterations fuel 0 = some (expectedSamples opt)
  workers : ∀ tid < team opt,
    checkedRunWorker e opt g gen (input.inputs tid)
        (startWorker opt main.currentId tid (workerLocals sec main tls tid))
      = some (runThread e opt g gen sec main tls input tid)

/-- The milliseconds of a timed run, in 32 bits. -/
theorem toNat_seconds_mul : (opt.seconds * 1000).toNat = opt.seconds.toNat * 1000 % 2 ^ 32 := by
  rw [UInt32.toNat_mul]
  rfl

theorem noWrap_iff :
    (opt.seconds * 1000).toNat = opt.seconds.toNat * 1000
      ↔ opt.seconds.toNat * 1000 < 2 ^ 32 := by
  rw [toNat_seconds_mul]
  constructor
  · intro h
    rw [← h]
    exact Nat.mod_lt _ (by decide)
  · exact Nat.mod_eq_of_lt

/-- The monitor of a run whose milliseconds fit. -/
theorem monitor_of_noWrap (hms : opt.samplingMs ≠ 0) (hfits : opt.seconds.toNat * 1000 < 2 ^ 32) :
    ∃ iterations, checkedIterations opt = some iterations
      ∧ ∀ fuel ≥ expectedSamples opt,
        monitorLoop iterations fuel 0 = some (expectedSamples opt) := by
  refine ⟨_, if_neg hms, fun fuel hfuel => ?_⟩
  have hexp : max 1 (opt.seconds * 1000 / opt.samplingMs).toNat = expectedSamples opt := by
    rw [UInt32.toNat_div, (noWrap_iff opt).mpr hfits]
    rfl
  have hloop := monitorLoop_eq (opt.seconds * 1000 / opt.samplingMs) fuel 0
    (Nat.lt_of_lt_of_le Nat.one_pos (le_max_left _ _))
    (by rw [hexp]; exact hfuel.trans (Nat.le_add_left _ _))
  rw [hloop, hexp]
  rfl

/-- **The arithmetic of the driver is safe exactly when** there is a thread, and,
in time mode, the sampling window is not zero, the milliseconds fit into 32 bits,
and no operation but an INSERT comes at a moment when the records and the
INSERTs of the workers are a multiple of `2 ^ 64` – as are no records and no
INSERT. Left out is a team of no threads whose load is skipped: how many
threads run then is up to the OpenMP runtime. -/
theorem arithmeticSafe_iff (hT : opt.skipLoad = false ∨ 0 < team opt) (gen : OperationGenerator)
    (sec : Section) (main : ThreadLocals) (tls : ℕ → ThreadLocals) (input : RunInput opt) :
    ArithmeticSafe e opt g gen sec main tls input
      ↔ 0 < team opt
        ∧ (opt.bmMode = .time →
          0 < opt.samplingMs.toNat ∧ opt.seconds.toNat * 1000 < 2 ^ 32
            ∧ ∀ tid < team opt, ∀ k inp, (input.inputs tid)[k]? = some inp →
              gen.next inp.draw ≠ .insert →
              ¬ 2 ^ 64 ∣ opt.numRecords.toNat
                + team opt * successInserts gen ((input.inputs tid).take k)) := by
  have hms : 0 < opt.samplingMs.toNat ↔ opt.samplingMs ≠ 0 := by
    rw [← UInt32.toNat_inj.ne]
    exact Nat.pos_iff_ne_zero
  have hworker : ∀ tid, checkedRunWorker e opt g gen (input.inputs tid)
        (startWorker opt main.currentId tid (workerLocals sec main tls tid))
      = some (runThread e opt g gen sec main tls input tid)
      ↔ ∀ k inp, (input.inputs tid)[k]? = some inp →
        ¬ NoIds opt gen (0 + successInserts gen ((input.inputs tid).take k)) inp :=
    fun tid => checkedRunWorker_eq_some_iff e opt g gen _ _
  constructor
  · intro h
    refine ⟨hT.elim (fun hskip => ?_) id, fun hmode => ⟨?_, ?_, ?_⟩⟩
    · exact (checkedLoadStart_eq_some_iff opt 0).mp (h.load hskip 0)
    · obtain ⟨iterations, hit, -⟩ := h.monitor hmode
      rw [hms]
      intro h0
      rw [checkedIterations, if_pos h0] at hit
      cases hit
    · exact (noWrap_iff opt).mp (h.noWrap hmode)
    · intro tid htid k inp hk hop hdvd
      refine (hworker tid).mp (h.workers tid htid) k inp hk ⟨hmode, hop, ?_⟩
      rwa [Nat.zero_add]
  · rintro ⟨hpos, htime⟩
    refine ⟨fun _ tid => (checkedLoadStart_eq_some_iff opt tid).mpr hpos, reserveTimes_isSome opt,
      fun hmode => (noWrap_iff opt).mpr (htime hmode).2.1, fun hmode => ?_, fun tid htid => ?_⟩
    · exact monitor_of_noWrap opt (hms.mp (htime hmode).1) (htime hmode).2.1
    · refine (hworker tid).mpr (fun k inp hk hno => ?_)
      obtain ⟨hmode, hop, hdvd⟩ := hno
      rw [Nat.zero_add] at hdvd
      exact (htime hmode).2.2 tid htid k inp hk hop hdvd

/-- The default options in time mode. -/
def timedOptions : Options := { bmMode := .time }

/-- A READ is all the worker comes to. -/
def timedInput : RunInput timedOptions where
  inputs _ := [{ draw := 0, nextId := 1 }]
  allowed _ _ := List.cons_ne_nil _ _

theorem arithmeticSafe_timed :
    (timedOptions.skipLoad = false ∨ 0 < team timedOptions)
      ∧ ArithmeticSafe .little timedOptions KeyGenerator.defaultGenerator
        { ops := Vector.replicate 256 .read } .monitor {} (fun _ => {}) timedInput := by
  refine ⟨Or.inl rfl, (arithmeticSafe_iff .little timedOptions KeyGenerator.defaultGenerator
    (Or.inl rfl) _ .monitor {} (fun _ => {}) timedInput).mpr ⟨by decide, fun _ => ?_⟩⟩
  refine ⟨by decide, by decide, fun tid _ k inp hk _ => ?_⟩
  cases k with
  | zero =>
    rw [List.take_zero]
    decide
  | succ k =>
    change ([] : List OpInput)[k]? = some inp at hk
    rw [List.getElem?_nil] at hk
    cases hk

/-- Time mode with a sampling window of zero, which `main` accepts. -/
def unsampledOptions : Options := { samplingMs := 0, bmMode := .time }

def unsampledInput : RunInput unsampledOptions where
  inputs _ := [{ draw := 0, nextId := 1 }]
  allowed _ _ := List.cons_ne_nil _ _

/-- The monitor divides by the window. -/
theorem unsampled_not_safe :
    unsampledOptions.Accepted ∧ checkedIterations unsampledOptions = none
      ∧ ¬ ArithmeticSafe .little unsampledOptions KeyGenerator.defaultGenerator
        { ops := Vector.replicate 256 .read } .monitor {} (fun _ => {}) unsampledInput := by
  refine ⟨?_, rfl, fun h => ?_⟩
  · rw [Options.accepted_iff]
    decide +kernel
  · obtain ⟨iterations, hit, -⟩ := h.monitor rfl
    cases hit

end Benchmark
