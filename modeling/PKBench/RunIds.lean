import PKBench.LoadIds

/-!
# The ids a run inserts

A worker of `run` starts from `current_id + inserts_per_thread * t` and counts
on with each INSERT it draws, so the ids it inserts are an arc of the cycle of
64-bit integers, as long as the number of INSERTs drawn (`insertedIds_runThread`).
Four things are wanted of these arcs: that they stay clear of what `load`
inserted, that a skipped load makes no difference to them, that those of two
workers have nothing in common, and that those of a second run have nothing in
common with those of the first. The stride is the *expected* number of INSERTs
of a worker and ten more, and the base is the running id of the thread that
calls `run`; each of the four holds exactly when the INSERTs drawn and the base
happen to fit (`loadedIds_disjoint_runIds_iff`, `idsAfterLoad_skip_eq_iff`,
`workers_disjoint_iff`, `secondIds_fresh_iff`).
-/

open CyclicArc

namespace Benchmark

variable (e : Endianness) (opt : Options) (g : KeyGenerator)

/-! ## One worker -/

/-- The number of INSERTs among the operations drawn. -/
def insertDraws (gen : OperationGenerator) (inputs : List OpInput) : ℕ :=
  inputs.countP (fun inp => gen.next inp.draw = .insert)

/-- An INSERT moves the running id on by one and inserts it. -/
theorem executeOp_insert {gen : OperationGenerator} {inp : OpInput} (w : Worker)
    (h : gen.next inp.draw = .insert) :
    (executeOp e opt g gen w inp).1.op = .insert
      ∧ (executeOp e opt g gen w inp).1.id = w.tls.currentId + 1
      ∧ (executeOp e opt g gen w inp).2.tls.currentId = w.tls.currentId + 1 := by
  have hkey : pickKey e opt g (gen.next inp.draw) w inp = g.next e w.tls true inp.nextId :=
    if_pos h
  refine ⟨h, ?_, ?_⟩
  · show (pickKey e opt g (gen.next inp.draw) w inp).1 = _
    rw [hkey]
    rfl
  · show (pickKey e opt g (gen.next inp.draw) w inp).2.currentId = _
    rw [hkey]
    rfl

/-- Any other operation leaves the running id where it is. -/
theorem executeOp_of_ne_insert {gen : OperationGenerator} {inp : OpInput} (w : Worker)
    (h : gen.next inp.draw ≠ .insert) :
    (executeOp e opt g gen w inp).1.op ≠ .insert
      ∧ (executeOp e opt g gen w inp).2.tls.currentId = w.tls.currentId := by
  refine ⟨h, ?_⟩
  show (pickKey e opt g (gen.next inp.draw) w inp).2.currentId = _
  rw [pickKey, if_neg h]

/-- **What a worker inserts is an arc from its running id**, and that is also
how far the running id moves. -/
theorem insertedIds_runWorker (gen : OperationGenerator) (inputs : List OpInput) (w : Worker) :
    insertedIds (runWorker e opt g gen inputs w).1
        = arc idSpace w.tls.currentId.toNat (insertDraws gen inputs)
      ∧ (runWorker e opt g gen inputs w).2.tls.currentId.toNat
        = (w.tls.currentId.toNat + insertDraws gen inputs) % idSpace := by
  induction inputs generalizing w with
  | nil => exact ⟨rfl, (Nat.mod_eq_of_lt w.tls.currentId.toNat_lt).symm⟩
  | cons inp inputs ih =>
    obtain ⟨ih₁, ih₂⟩ := ih (executeOp e opt g gen w inp).2
    have hcons : insertedIds (runWorker e opt g gen (inp :: inputs) w).1
        = insertedIds ((executeOp e opt g gen w inp).1
            :: (runWorker e opt g gen inputs (executeOp e opt g gen w inp).2).1) := rfl
    have htail : (runWorker e opt g gen (inp :: inputs) w).2
        = (runWorker e opt g gen inputs (executeOp e opt g gen w inp).2).2 := rfl
    rw [hcons, htail, insertedIds_cons, ih₁, ih₂]
    by_cases h : gen.next inp.draw = .insert
    · obtain ⟨hop, hid, hcur⟩ := executeOp_insert e opt g w h
      have hdraws : insertDraws gen (inp :: inputs) = insertDraws gen inputs + 1 :=
        List.countP_cons_of_pos (by simpa using h)
      rw [if_pos hop, hid, hcur, hdraws, arc_succ_left, toNat_succ, arc_mod, Nat.mod_add_mod]
      exact ⟨rfl, by congr 1; omega⟩
    · obtain ⟨hop, hcur⟩ := executeOp_of_ne_insert e opt g w h
      have hdraws : insertDraws gen (inp :: inputs) = insertDraws gen inputs :=
        List.countP_cons_of_neg (by simpa using h)
      rw [if_neg hop, hcur, hdraws]
      exact ⟨rfl, rfl⟩

/-- The id a worker starts from, as a number. -/
theorem toNat_workerStart (currentId : UInt64) {tid : ℕ} (h : tid ≤ team opt) :
    (workerStart opt currentId tid).toNat
      = (currentId.toNat + (insertsPerThread opt).toNat * tid) % idSpace := by
  have hT := team_lt opt
  rw [workerStart, UInt64.toNat_add, UInt64.toNat_mul, UInt64.toNat_ofNat',
    Nat.mod_eq_of_lt (a := tid) (by omega), Nat.add_mod_mod]
  rfl

/-- **What a worker of a run inserts.** -/
theorem insertedIds_runThread (gen : OperationGenerator) (sec : Section) (main : ThreadLocals)
    (tls : ℕ → ThreadLocals) (input : RunInput opt) {tid : ℕ} (h : tid ≤ team opt) :
    insertedIds (runThread e opt g gen sec main tls input tid).1
      = arc idSpace (main.currentId.toNat + (insertsPerThread opt).toNat * tid)
          (insertDraws gen (input.inputs tid)) := by
  rw [runThread, (insertedIds_runWorker e opt g gen _ _).1]
  show arc idSpace (workerStart opt main.currentId tid).toNat _ = _
  rw [toNat_workerStart opt _ h, arc_mod]

/-- The ids a run inserts, over all workers. -/
def runIds (gen : OperationGenerator) (sec : Section) (main : ThreadLocals)
    (tls : ℕ → ThreadLocals) (input : RunInput opt) : List ℕ :=
  (run e opt g gen sec main tls input).1.flatMap insertedIds

theorem runIds_eq (gen : OperationGenerator) (sec : Section) (main : ThreadLocals)
    (tls : ℕ → ThreadLocals) (input : RunInput opt) :
    runIds e opt g gen sec main tls input
      = (List.range (team opt)).flatMap (fun tid =>
          arc idSpace (main.currentId.toNat + (insertsPerThread opt).toNat * tid)
            (insertDraws gen (input.inputs tid))) := by
  show ((List.range (team opt)).map _).flatMap insertedIds = _
  rw [List.flatMap_map]
  exact List.flatMap_congr (fun tid htid =>
    insertedIds_runThread e opt g gen sec main tls input (List.mem_range.mp htid).le)

/-- **The main thread after a run** is where it was, if it watched, and where
worker zero stopped, if it worked. -/
theorem currentId_run (gen : OperationGenerator) (sec : Section) (main : ThreadLocals)
    (tls : ℕ → ThreadLocals) (input : RunInput opt) :
    (run e opt g gen sec main tls input).2.currentId.toNat
      = (main.currentId.toNat
          + if sec = .workers then insertDraws gen (input.inputs 0) else 0) % idSpace := by
  cases sec with
  | monitor => exact (Nat.mod_eq_of_lt main.currentId.toNat_lt).symm
  | workers =>
    show (runThread e opt g gen .workers main tls input 0).2.tls.currentId.toNat = _
    rw [runThread, (insertedIds_runWorker e opt g gen _ _).2, if_pos rfl]
    show ((workerStart opt main.currentId 0).toNat + _) % idSpace = _
    rw [toNat_workerStart opt _ (Nat.zero_le _), Nat.mul_zero, Nat.add_zero, Nat.mod_add_mod]

/-! ## Against the load -/

theorem lastLoadedId_pos : 0 < lastLoadedId opt :=
  Nat.lt_of_lt_of_le Nat.one_pos (le_max_left _ _)

theorem lastLoadedId_lt : lastLoadedId opt < idSpace := by
  have hlt := opt.numRecords.toNat_lt
  have hle := Nat.div_mul_le_self opt.numRecords.toNat (team opt)
  exact max_lt (by decide) (Nat.lt_of_le_of_lt hle hlt)

/-- **A run inserts nothing that the load inserted, exactly when every worker
that draws an INSERT starts at the last loaded id or behind it**, and does not
count round to one. The base a worker starts from is the share of the first
loading thread. -/
theorem loadedIds_disjoint_runIds_iff (hskip : opt.skipLoad = false) (hT : 0 < team opt)
    (hR : 0 < opt.numRecords.toNat) (gen : OperationGenerator) (sec : Section)
    (tls tls' : ℕ → ThreadLocals) (input : RunInput opt) :
    List.Disjoint (loadedIds e opt g tls)
        (runIds e opt g gen sec (load e opt g tls).2 tls' input)
      ↔ ∀ tid < team opt, 0 < insertDraws gen (input.inputs tid) →
          lastLoadedId opt
              ≤ (staticShare opt.numRecords.toNat (team opt) 0
                  + (insertsPerThread opt).toNat * tid) % idSpace
            ∧ (staticShare opt.numRecords.toNat (team opt) 0
                  + (insertsPerThread opt).toNat * tid) % idSpace
                + insertDraws gen (input.inputs tid) ≤ idSpace := by
  have hmem : ∀ x, x ∈ loadedIds e opt g tls ↔ x ∈ arc idSpace 0 (lastLoadedId opt) := by
    intro x
    rw [mem_loadedIds_iff e opt g hskip hT hR,
      mem_arc_of_lt (by rw [Nat.zero_add]; exact lastLoadedId_lt opt), Nat.zero_add]
    exact Iff.rfl
  have harc : ∀ l : List ℕ, List.Disjoint (loadedIds e opt g tls) l
      ↔ List.Disjoint (arc idSpace 0 (lastLoadedId opt)) l :=
    fun l => forall_congr' (fun x => imp_congr_left (hmem x))
  rw [harc, runIds_eq, disjoint_flatMap_range_iff, currentId_load e opt g hskip hT]
  refine forall₂_congr (fun tid _ => ?_)
  rw [disjoint_arc_iff idSpace_pos, separated_zero_iff (lastLoadedId_pos opt) (lastLoadedId_lt opt)]

/-- One thread, four records and two operations, INSERTs only. -/
def singleOptions : Options :=
  { numRecords := 4, numOps := 2, readRatio := 0, insertRatio := 1 }

/-- The table of a workload of INSERTs. -/
def insertTable : OperationGenerator where
  ops := Vector.replicate 256 .insert

def singleInput : RunInput singleOptions where
  inputs _ := List.replicate 2 { draw := 0 }
  allowed := by
    show ∀ tid < 1, 2 = staticShare 2 1 tid
    decide

/-- A single thread goes on where it stopped loading. -/
theorem loadedIds_disjoint_runIds_single :
    singleOptions.skipLoad = false ∧ 0 < team singleOptions
      ∧ 0 < singleOptions.numRecords.toNat
      ∧ List.Disjoint
        (loadedIds .little singleOptions KeyGenerator.defaultGenerator (fun _ => {}))
        (runIds .little singleOptions KeyGenerator.defaultGenerator insertTable .monitor
          (load .little singleOptions KeyGenerator.defaultGenerator (fun _ => {})).2
          (fun _ => {}) singleInput) := by
  refine ⟨rfl, by decide, by decide, ?_⟩
  refine (loadedIds_disjoint_runIds_iff .little singleOptions KeyGenerator.defaultGenerator
    rfl (by decide) (by decide) insertTable .monitor _ _ singleInput).mpr ?_
  intro tid htid _
  obtain rfl : tid = 0 := by
    have h1 : team singleOptions = 1 := rfl
    omega
  rw [Nat.mul_zero]
  decide

/-- Two threads, four records and 44 operations, half of them INSERTs. -/
def mixedOptions : Options :=
  { numRecords := 4, numOps := 44, numThreads := 2, readRatio := 1 / 2, insertRatio := 1 / 2 }

/-- A table for that workload. -/
def mixedTable : OperationGenerator where
  ops := Vector.ofFn (fun i => if i.val % 2 = 0 then .insert else .read)

/-- Both workers draw an entry with an INSERT each time. -/
def mixedInput : RunInput mixedOptions where
  inputs _ := List.replicate 22 { draw := 0 }
  allowed := by
    show ∀ tid < 2, 22 = staticShare 44 2 tid
    decide

theorem insertsPerThread_mixed : (insertsPerThread mixedOptions).toNat = 21 := by
  decide +kernel

/-- The first loading thread stopped at two, so the first INSERT of the run is
the record three, which the second loading thread has inserted. -/
theorem three_loaded_and_run :
    ¬ List.Disjoint (loadedIds .little mixedOptions KeyGenerator.defaultGenerator (fun _ => {}))
      (runIds .little mixedOptions KeyGenerator.defaultGenerator mixedTable .monitor
        (load .little mixedOptions KeyGenerator.defaultGenerator (fun _ => {})).2
        (fun _ => {}) mixedInput) := by
  intro h
  have hload : 3 ∈ loadedIds .little mixedOptions KeyGenerator.defaultGenerator (fun _ => {}) := by
    rw [mem_loadedIds_iff _ _ _ rfl (by decide) (by decide)]
    decide
  refine h hload ?_
  rw [runIds_eq, List.mem_flatMap, currentId_load _ _ _ rfl (by decide)]
  refine ⟨0, List.mem_range.mpr (by decide), mem_arc.mpr ⟨0, ?_, ?_⟩⟩
  · decide +kernel
  · rw [Nat.mul_zero]
    decide

/-! ## After a skipped load -/

/-- The options with `--skip_load` given or not. -/
def setSkipLoad (skip : Bool) : Options := { opt with skipLoad := skip }

/-- The lists of a run serve it whether or not the load was skipped. -/
def RunInput.setSkipLoad {opt : Options} (input : RunInput opt) (skip : Bool) :
    RunInput (setSkipLoad opt skip) where
  inputs := input.inputs
  allowed := input.allowed

/-- What worker `tid` inserts in a run after `load`, skipped or not. -/
def idsAfterLoad (skip : Bool) (gen : OperationGenerator) (sec : Section)
    (tls tls' : ℕ → ThreadLocals) (input : RunInput opt) (tid : ℕ) : List ℕ :=
  insertedIds (runThread e (setSkipLoad opt skip) g gen sec
    (load e (setSkipLoad opt skip) g tls).2 tls' (input.setSkipLoad skip) tid).1

/-- A skipped load leaves the main thread at the id behind the last record. -/
theorem currentId_load_of_skip (hskip : opt.skipLoad = true) (tls : ℕ → ThreadLocals) :
    (load e opt g tls).2.currentId.toNat = (opt.numRecords.toNat + 1) % idSpace := by
  rw [load, if_pos hskip]
  exact toNat_succ opt.numRecords

theorem idsAfterLoad_true (gen : OperationGenerator) (sec : Section)
    (tls tls' : ℕ → ThreadLocals) (input : RunInput opt) {tid : ℕ} (h : tid < team opt) :
    idsAfterLoad e opt g true gen sec tls tls' input tid
      = arc idSpace ((opt.numRecords.toNat + 1) % idSpace + (insertsPerThread opt).toNat * tid)
          (insertDraws gen (input.inputs tid)) := by
  have hstart : (load e (setSkipLoad opt true) g tls).2.currentId.toNat
      = (opt.numRecords.toNat + 1) % idSpace := currentId_load_of_skip e _ g rfl tls
  rw [idsAfterLoad, insertedIds_runThread e (setSkipLoad opt true) g gen sec _ _ _ h.le, hstart]
  rfl

theorem idsAfterLoad_false (gen : OperationGenerator) (sec : Section)
    (tls tls' : ℕ → ThreadLocals) (input : RunInput opt) {tid : ℕ} (h : tid < team opt) :
    idsAfterLoad e opt g false gen sec tls tls' input tid
      = arc idSpace (staticShare opt.numRecords.toNat (team opt) 0
            + (insertsPerThread opt).toNat * tid)
          (insertDraws gen (input.inputs tid)) := by
  have hstart : (load e (setSkipLoad opt false) g tls).2.currentId.toNat
      = staticShare opt.numRecords.toNat (team opt) 0 :=
    currentId_load e (setSkipLoad opt false) g rfl (Nat.zero_lt_of_lt h) tls
  rw [idsAfterLoad, insertedIds_runThread e (setSkipLoad opt false) g gen sec _ _ _ h.le, hstart]
  rfl

/-- The two bases are never the same: one is the first thread's share, the other
lies behind all records. -/
theorem share_ne_base (hR : 0 < opt.numRecords.toNat) :
    ¬ opt.numRecords.toNat + 1 ≡ staticShare opt.numRecords.toNat (team opt) 0 [MOD idSpace] := by
  have hlt : opt.numRecords.toNat < idSpace := opt.numRecords.toNat_lt
  have hle := staticShare_le opt.numRecords.toNat (team opt) 0
  have hpos : 0 < staticShare opt.numRecords.toNat (team opt) 0 := by
    have hdiv := Nat.mod_add_div opt.numRecords.toNat (team opt)
    rw [staticShare_zero]
    by_cases h : opt.numRecords.toNat % team opt = 0
    · rw [h, Nat.zero_add] at hdiv
      exact Nat.add_pos_left (Nat.pos_of_mul_pos_left (hdiv.symm ▸ hR)) _
    · rw [if_neg h]
      exact Nat.succ_pos _
  intro h
  rcases Nat.lt_or_ge (opt.numRecords.toNat + 1) idSpace with hfit | hwrap
  · have heq := Nat.ModEq.eq_of_lt_of_lt h hfit (hle.trans_lt hlt)
    omega
  · -- the largest number of records there is: the base behind them is zero
    have hzero : opt.numRecords.toNat + 1 = idSpace := by omega
    rw [hzero] at h
    have h0 : 0 % idSpace = staticShare opt.numRecords.toNat (team opt) 0 % idSpace := by
      rw [← h, Nat.mod_self, Nat.zero_mod]
    rw [Nat.zero_mod, Nat.mod_eq_of_lt (hle.trans_lt hlt)] at h0
    omega

/-- **A run inserts after a skipped load what it inserts after a real one exactly
when no worker draws an INSERT.** The skipped load puts the main thread at
`num_records + 1`, the real one leaves it at its own share of the records, and
every worker's ids are counted from there. -/
theorem idsAfterLoad_skip_eq_iff (hR : 0 < opt.numRecords.toNat)
    (gen : OperationGenerator) (sec : Section) (tls tls' : ℕ → ThreadLocals)
    (input : RunInput opt) :
    (∀ tid < team opt, idsAfterLoad e opt g true gen sec tls tls' input tid
        = idsAfterLoad e opt g false gen sec tls tls' input tid)
      ↔ ∀ tid < team opt, ∀ inp ∈ input.inputs tid, gen.next inp.draw ≠ .insert := by
  refine forall₂_congr (fun tid h => ?_)
  rw [idsAfterLoad_true e opt g gen sec tls tls' input h,
    idsAfterLoad_false e opt g gen sec tls tls' input h, arc_eq_arc_iff]
  have hbase : ¬ ((opt.numRecords.toNat + 1) % idSpace + (insertsPerThread opt).toNat * tid)
      % idSpace
      = (staticShare opt.numRecords.toNat (team opt) 0 + (insertsPerThread opt).toNat * tid)
      % idSpace := by
    rw [Nat.mod_add_mod]
    exact fun heq => share_ne_base opt hR (Nat.ModEq.add_right_cancel' _ heq)
  rw [or_iff_left hbase, insertDraws, List.countP_eq_zero]
  refine forall₂_congr (fun inp _ => ?_)
  rw [decide_eq_true_iff]

/-- One thread, four records and two READs. -/
def readOptions : Options := { numRecords := 4, numOps := 2 }

/-- The table of a workload of READs. -/
def readTable : OperationGenerator where
  ops := Vector.replicate 256 .read

def readInput : RunInput readOptions where
  inputs _ := List.replicate 2 { draw := 0 }
  allowed := by
    show ∀ tid < 1, 2 = staticShare 2 1 tid
    decide

/-- READs leave both runs without an id inserted. -/
theorem idsAfterLoad_skip_reads :
    0 < readOptions.numRecords.toNat
      ∧ ∀ tid < team readOptions,
        idsAfterLoad .little readOptions KeyGenerator.defaultGenerator true readTable .monitor
            (fun _ => {}) (fun _ => {}) readInput tid
          = idsAfterLoad .little readOptions KeyGenerator.defaultGenerator false readTable .monitor
            (fun _ => {}) (fun _ => {}) readInput tid := by
  refine ⟨by decide, ?_⟩
  refine (idsAfterLoad_skip_eq_iff .little readOptions KeyGenerator.defaultGenerator (by decide)
    readTable .monitor _ _ readInput).mpr ?_
  intro tid _ inp hinp
  obtain rfl := List.eq_of_mem_replicate hinp
  decide

/-- A single thread that loaded four records goes on with five, and with six if
the load was skipped. -/
theorem idsAfterLoad_single_differ :
    singleOptions.Accepted
      ∧ idsAfterLoad .little singleOptions KeyGenerator.defaultGenerator true insertTable .monitor
          (fun _ => {}) (fun _ => {}) singleInput 0 = [6, 7]
      ∧ idsAfterLoad .little singleOptions KeyGenerator.defaultGenerator false insertTable .monitor
          (fun _ => {}) (fun _ => {}) singleInput 0 = [5, 6]
      ∧ ¬ ∀ tid < team singleOptions,
        idsAfterLoad .little singleOptions KeyGenerator.defaultGenerator true insertTable .monitor
            (fun _ => {}) (fun _ => {}) singleInput tid
          = idsAfterLoad .little singleOptions KeyGenerator.defaultGenerator false insertTable
            .monitor (fun _ => {}) (fun _ => {}) singleInput tid := by
  have htrue : idsAfterLoad .little singleOptions KeyGenerator.defaultGenerator true insertTable
      .monitor (fun _ => {}) (fun _ => {}) singleInput 0 = [6, 7] := by
    rw [idsAfterLoad_true _ _ _ _ _ _ _ _ (by decide), Nat.mul_zero]
    decide
  have hfalse : idsAfterLoad .little singleOptions KeyGenerator.defaultGenerator false insertTable
      .monitor (fun _ => {}) (fun _ => {}) singleInput 0 = [5, 6] := by
    rw [idsAfterLoad_false _ _ _ _ _ _ _ _ (by decide), Nat.mul_zero]
    decide
  refine ⟨?_, htrue, hfalse, fun h => ?_⟩
  · rw [Options.accepted_iff]
    decide +kernel
  · have h0 := h 0 (by decide)
    rw [htrue, hfalse] at h0
    exact absurd h0 (by decide)

/-! ## Worker against worker -/

/-- **Two workers of a run insert nothing in common exactly when, of every two
that draw an INSERT, neither draws more than lie between their starts** – on
the cycle of ids, in the one direction and in the other. -/
theorem workers_disjoint_iff (gen : OperationGenerator) (sec : Section) (main : ThreadLocals)
    (tls : ℕ → ThreadLocals) (input : RunInput opt) :
    (run e opt g gen sec main tls input).1.Pairwise
        (fun a b => List.Disjoint (insertedIds a) (insertedIds b))
      ↔ ∀ t t', t < t' → t' < team opt →
          insertDraws gen (input.inputs t) = 0 ∨ insertDraws gen (input.inputs t') = 0
            ∨ (insertDraws gen (input.inputs t)
                  ≤ (insertsPerThread opt).toNat * (t' - t) % idSpace
              ∧ insertDraws gen (input.inputs t')
                  ≤ idSpace - (insertsPerThread opt).toNat * (t' - t) % idSpace) := by
  show ((List.range (team opt)).map _).Pairwise _ ↔ _
  rw [List.pairwise_map, pairwise_range_iff]
  refine forall₄_congr (fun t t' hlt hT => ?_)
  rw [insertedIds_runThread e opt g gen sec main tls input (hlt.trans hT).le,
    insertedIds_runThread e opt g gen sec main tls input hT.le, disjoint_arc_iff idSpace_pos]
  -- the start of the later worker, seen from the start of the earlier one
  have hstart : main.currentId.toNat + (insertsPerThread opt).toNat * t'
      = main.currentId.toNat + (insertsPerThread opt).toNat * t
        + (insertsPerThread opt).toNat * (t' - t) := by
    rw [Nat.add_assoc, ← Nat.mul_add, Nat.add_sub_cancel' hlt.le]
  rw [hstart, separated_add_iff idSpace_pos]

/-- Each of the two workers draws 22 INSERTs, one more than the 21 ids between
their starts. -/
theorem mixed_workers_meet :
    mixedOptions.Accepted
      ∧ mixedTable.GeneratedBy (OperationGenerator.weights (1 / 2) (1 / 2) 0 0 0)
      ∧ ¬ (run .little mixedOptions KeyGenerator.defaultGenerator mixedTable .monitor
            (load .little mixedOptions KeyGenerator.defaultGenerator (fun _ => {})).2
            (fun _ => {}) mixedInput).1.Pairwise
          (fun a b => List.Disjoint (insertedIds a) (insertedIds b)) := by
  refine ⟨?_, ?_, ?_⟩
  · rw [Options.accepted_iff]
    decide +kernel
  · intro i
    show 0 < OperationGenerator.weights _ _ _ _ _ mixedTable.ops[i.val]
    rw [mixedTable, Vector.getElem_ofFn]
    by_cases h : i.val % 2 = 0
    · rw [if_pos h]
      exact one_half_pos
    · rw [if_neg h]
      exact one_half_pos
  · intro h
    have hdis := List.pairwise_map.mp h
    have h01 := pairwise_range_iff.mp hdis 0 1 Nat.zero_lt_one (by decide)
    rw [insertedIds_runThread _ _ _ _ _ _ _ _ (by decide),
      insertedIds_runThread _ _ _ _ _ _ _ _ (by decide), insertsPerThread_mixed,
      currentId_load _ _ _ rfl (by decide)] at h01
    -- the last id of worker zero is the first of worker one
    refine @h01 24 (mem_arc.mpr ⟨21, ?_, ?_⟩) (mem_arc.mpr ⟨0, ?_, ?_⟩) <;> decide +kernel

/-! ## The second run of a session -/

/-- **A session with `--write_again`**: what chance decides in its load and its
two runs. The table of the second run is the one `change_to_insert` fills in. -/
structure SessionInput where
  loadLocals : ℕ → ThreadLocals
  firstGen : OperationGenerator
  firstSec : Section
  firstLocals : ℕ → ThreadLocals
  first : RunInput opt
  secondGen : OperationGenerator
  changedToInsert : secondGen.GeneratedBy (OperationGenerator.weights 0 1 0 0 0)
  secondSec : Section
  secondLocals : ℕ → ThreadLocals
  second : RunInput opt

variable (session : SessionInput opt)

/-- The first run, which `main` leaves out when there are no operations. -/
def firstRun : List (List Request) × ThreadLocals :=
  let main := (load e opt g session.loadLocals).2
  if opt.numOps ≠ 0 then
    run e opt g session.firstGen session.firstSec main session.firstLocals session.first
  else
    ([], main)

/-- The second run. -/
def secondRun : List (List Request) × ThreadLocals :=
  run e opt g session.secondGen session.secondSec (firstRun e opt g session).2
    session.secondLocals session.second

/-- The INSERTs worker `tid` draws in the first run. -/
def firstDraws (tid : ℕ) : ℕ :=
  if opt.numOps ≠ 0 then insertDraws session.firstGen (session.first.inputs tid) else 0

/-- How far the first run moves the running id of the main thread. -/
def firstAdvance : ℕ := if session.firstSec = .workers then firstDraws opt session 0 else 0

/-- The number of operations of worker `tid` in the second run. -/
def secondDraws (tid : ℕ) : ℕ := (session.second.inputs tid).length

theorem firstIds_eq :
    (firstRun e opt g session).1.flatMap insertedIds
      = (List.range (team opt)).flatMap (fun tid =>
          arc idSpace ((load e opt g session.loadLocals).2.currentId.toNat
              + (insertsPerThread opt).toNat * tid) (firstDraws opt session tid)) := by
  unfold firstRun firstDraws
  by_cases h : opt.numOps ≠ 0
  · simp only [if_pos h]
    exact runIds_eq e opt g _ _ _ _ _
  · simp only [if_neg h]
    exact (List.flatMap_eq_nil_iff.mpr (fun _ _ => rfl)).symm

theorem currentId_firstRun :
    (firstRun e opt g session).2.currentId.toNat
      = ((load e opt g session.loadLocals).2.currentId.toNat
          + firstAdvance opt session) % idSpace := by
  unfold firstRun firstAdvance firstDraws
  by_cases h : opt.numOps ≠ 0
  · rw [if_pos h, if_pos h]
    exact currentId_run e opt g _ _ _ _ _
  · rw [if_neg h, if_neg h, ite_self]
    exact (Nat.mod_eq_of_lt (UInt64.toNat_lt _)).symm

/-- Every operation of the second run is an INSERT. -/
theorem insertDraws_second (tid : ℕ) :
    insertDraws session.secondGen (session.second.inputs tid) = secondDraws opt session tid := by
  refine List.countP_eq_length.mpr (fun inp _ => ?_)
  rw [OperationGenerator.next_of_generatedBy_insert session.changedToInsert]
  rfl

theorem secondIds_eq :
    (secondRun e opt g session).1.flatMap insertedIds
      = (List.range (team opt)).flatMap (fun tid =>
          arc idSpace ((load e opt g session.loadLocals).2.currentId.toNat
              + (firstAdvance opt session + (insertsPerThread opt).toNat * tid))
            (secondDraws opt session tid)) := by
  have h : (secondRun e opt g session).1.flatMap insertedIds = _ := runIds_eq e opt g _ _ _ _ _
  rw [h]
  refine List.flatMap_congr (fun tid _ => ?_)
  rw [insertDraws_second, currentId_firstRun, ← arc_mod, Nat.mod_add_mod, arc_mod, Nat.add_assoc]

/-- **The second run of a session inserts new ids, each once, exactly when no
worker goes round the cycle, every two of its workers are separated, and so is
each of them from each worker of the first run.** All starts are taken from the
base of the first run; that of the second lies ahead of it only if the main
thread was itself a worker. -/
theorem secondIds_fresh_iff :
    ((secondRun e opt g session).1.flatMap insertedIds).Nodup
        ∧ List.Disjoint ((secondRun e opt g session).1.flatMap insertedIds)
          ((firstRun e opt g session).1.flatMap insertedIds)
      ↔ (∀ t < team opt, secondDraws opt session t ≤ idSpace)
        ∧ (∀ t t', t < t' → t' < team opt →
            Separated idSpace ((insertsPerThread opt).toNat * t) (secondDraws opt session t)
              ((insertsPerThread opt).toNat * t') (secondDraws opt session t'))
        ∧ ∀ t < team opt, ∀ t' < team opt,
            Separated idSpace
              (firstAdvance opt session + (insertsPerThread opt).toNat * t)
              (secondDraws opt session t)
              ((insertsPerThread opt).toNat * t') (firstDraws opt session t') := by
  rw [secondIds_eq, firstIds_eq, nodup_arcs_iff _ _ idSpace_pos,
    disjoint_arcs_iff _ _ _ _ idSpace_pos]
  simp only [separated_add_left idSpace_pos]
  exact and_assoc

/-- The session of one thread with two INSERTs in each run, the main thread
watching the first. -/
def singleSession : SessionInput singleOptions where
  loadLocals _ := {}
  firstGen := insertTable
  firstSec := .monitor
  firstLocals _ := {}
  first := singleInput
  secondGen := insertTable
  changedToInsert := by
    intro i
    show 0 < OperationGenerator.weights _ _ _ _ _ insertTable.ops[i.val]
    rw [insertTable, Vector.getElem_replicate]
    exact one_pos
  secondSec := .monitor
  secondLocals _ := {}
  second := singleInput

/-- The second run of that session inserts the ids of the first again. -/
theorem single_session_repeats :
    (secondRun .little singleOptions KeyGenerator.defaultGenerator singleSession).1.flatMap
        insertedIds = [5, 6]
      ∧ (firstRun .little singleOptions KeyGenerator.defaultGenerator singleSession).1.flatMap
        insertedIds = [5, 6]
      ∧ ¬ (((secondRun .little singleOptions KeyGenerator.defaultGenerator
              singleSession).1.flatMap insertedIds).Nodup
          ∧ List.Disjoint
            ((secondRun .little singleOptions KeyGenerator.defaultGenerator
              singleSession).1.flatMap insertedIds)
            ((firstRun .little singleOptions KeyGenerator.defaultGenerator
              singleSession).1.flatMap insertedIds)) := by
  have h₁ : (firstRun .little singleOptions KeyGenerator.defaultGenerator
      singleSession).1.flatMap insertedIds = [5, 6] := by
    rw [firstIds_eq, currentId_load _ _ _ rfl (by decide)]
    decide
  have h₂ : (secondRun .little singleOptions KeyGenerator.defaultGenerator
      singleSession).1.flatMap insertedIds = [5, 6] := by
    rw [secondIds_eq, currentId_load _ _ _ rfl (by decide)]
    decide
  refine ⟨h₂, h₁, ?_⟩
  rw [h₁, h₂]
  rintro ⟨-, h⟩
  exact h (List.mem_cons_self) (List.mem_cons_self)

end Benchmark
