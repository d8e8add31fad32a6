import PKBench.Tally
import PKBench.Machine

/-!
# The ids of the workers

Each thread of the driver gets a client of its own in a parallel region of
`load()` or `run()`, and a client of FlatStore is a `DB::Worker`, whose id is the
number of workers before it: `cur_num_workers_` is incremented by the constructor
and decremented by the destructor. With such a counter two workers could share an
id, if one were created after another was destroyed and while a third is alive.
In the driver that does not happen: `run()` has a barrier behind the creation of
the clients, `load()` has the one at the end of its loop, and nobody destroys a
client in front of it. So the ids of the workers that are alive are distinct and
below the number of threads.

That is not below the size of `ThreadStatus`, which is the number of workers the
database was constructed with, and `flatstore_wrapper` constructs it with 1. The
ids are valid in every order of the threads' steps if and only if there are no
more threads than that (`valid_iff`).
-/

namespace WorkerIds

/-- The client of a thread in a parallel region. -/
inductive Client where
  /-- Not yet created. -/
  | awaited
  /-- A worker with this `worker_id_`. -/
  | live (id : ℕ)
  | destroyed
  deriving DecidableEq

/-- There is a worker. -/
def Client.Live : Client → Prop
  | .live _ => True
  | _ => False

instance : DecidablePred Client.Live
  | .live _ => isTrue trivial
  | .awaited | .destroyed => isFalse id

/-- **The workers of a database and the threads that own them.** -/
structure Sys where
  curNumWorkers : ℕ
  client : ℕ → Client

/-- No thread has a client. -/
def Sys.init : Sys where
  curNumWorkers := 0
  client _ := .awaited

variable (numThreads : ℕ)

/-- `tree_->get_client`: the constructor of `DB::Worker`. -/
def getClient (σ : Sys) (t : ℕ) : Option Sys :=
  if t < numThreads ∧ σ.client t = .awaited then
    some { curNumWorkers := σ.curNumWorkers + 1
           client := Function.update σ.client t (.live σ.curNumWorkers) }
  else none

/-- The thread leaves the region: the destructor of `DB::Worker`. Before, it has
passed a barrier, and so every thread has its client. -/
def destroyClient (σ : Sys) (t : ℕ) : Option Sys :=
  if t < numThreads ∧ (σ.client t).Live ∧ ∀ u < numThreads, σ.client u ≠ .awaited then
    some { curNumWorkers := σ.curNumWorkers - 1
           client := Function.update σ.client t .destroyed }
  else none

/-- The next region, of `run()`, starts after the one before has ended. -/
def nextRegion (σ : Sys) : Option Sys :=
  if ∀ t < numThreads, σ.client t = .destroyed then
    some { σ with client := fun _ => .awaited }
  else none

/-- A step of a thread. -/
inductive Event where
  | getClient (t : ℕ)
  | destroyClient (t : ℕ)
  | nextRegion

/-- What a step does. -/
def step (σ : Sys) : Event → Option Sys
  | .getClient t => getClient numThreads σ t
  | .destroyClient t => destroyClient numThreads σ t
  | .nextRegion => nextRegion numThreads σ

/-- Any order of steps, over `load()` and any number of `run()`s. -/
def run : Sys → List Event → Option Sys := Machine.run (step numThreads)

/-- **The ids are valid** for a `ThreadStatus` of this size: no two workers have the
same, and `rcu_progress`, `rcu_exit` and the loops of `rcu_barrier` reach the
entry of each. -/
structure Sys.Valid (numWorkers : ℕ) (σ : Sys) : Prop where
  distinct : ∀ t u id, σ.client t = .live id → σ.client u = .live id → t = u
  inRange : ∀ t id, σ.client t = .live id → id < numWorkers

/-- The number of workers `flatstore_wrapper` of flatstore-pacman passes to `DB`. -/
def pacmanNumWorkers (_numThreads : ℕ) : ℕ := 1

/-- What the wrappers of flatstore-NB, flatstore-LB and flatstore-DP pass. -/
def forkNumWorkers (numThreads : ℕ) : ℕ := numThreads

/-! ## The invariant -/

section Invariant

variable {numThreads : ℕ} {σ σ' : Sys}

/-- **The counter counts the workers**, and while clients are being created their
ids are the numbers below it. -/
structure Inv (numThreads : ℕ) (σ : Sys) : Prop where
  valid : σ.Valid numThreads
  counter : σ.curNumWorkers = tally Client.Live σ.client numThreads
  creating : ∀ u < numThreads, σ.client u = .awaited →
    (∀ t, σ.client t ≠ .destroyed) ∧ ∀ t id, σ.client t = .live id → id < σ.curNumWorkers

theorem inv_init : Inv numThreads Sys.init where
  valid := ⟨fun _ _ _ h => (by cases h), fun _ _ h => (by cases h)⟩
  counter := (tally_eq_zero fun _ _ h => h).symm
  creating _ _ _ := ⟨fun _ h => (by cases h), fun _ _ h => (by cases h)⟩

theorem Inv.getClient (h : Inv numThreads σ) {t : ℕ} (hstep : getClient numThreads σ t = some σ') :
    Inv numThreads σ' := by
  obtain ⟨⟨ht, hawaited⟩, rfl⟩ := Option.ite_some_none_eq_some.mp hstep
  obtain ⟨hnone, hfresh⟩ := h.creating t ht hawaited
  have hnot : ¬ (σ.client t).Live := by rw [hawaited]; exact id
  have hlt : σ.curNumWorkers < numThreads := by
    rw [h.counter]
    exact tally_lt ht hnot
  -- who has a worker now: this thread, with the new id, or an old one
  have hlive : ∀ u id, Function.update σ.client t (.live σ.curNumWorkers) u = .live id →
      (u = t ∧ id = σ.curNumWorkers) ∨ (u ≠ t ∧ σ.client u = .live id) := by
    intro u id hu
    by_cases hut : u = t
    · subst hut
      rw [Function.update_self] at hu
      exact .inl ⟨rfl, (Client.live.inj hu).symm⟩
    · rw [Function.update_of_ne hut] at hu
      exact .inr ⟨hut, hu⟩
  refine ⟨⟨fun u v id hu hv => ?_, fun u id hu => ?_⟩, ?_, fun v hv hva => ⟨fun u hu => ?_, ?_⟩⟩
  · rcases hlive u id hu with ⟨rfl, rfl⟩ | ⟨-, hu'⟩
    · rcases hlive v _ hv with ⟨rfl, -⟩ | ⟨-, hv'⟩
      · rfl
      · exact absurd (hfresh v _ hv') (lt_irrefl _)
    · rcases hlive v id hv with ⟨rfl, rfl⟩ | ⟨-, hv'⟩
      · exact absurd (hfresh u _ hu') (lt_irrefl _)
      · exact h.valid.distinct u v id hu' hv'
  · rcases hlive u id hu with ⟨-, rfl⟩ | ⟨-, hu⟩
    · exact hlt
    · exact h.valid.inRange u id hu
  · have hlive : Client.Live (.live σ.curNumWorkers) := trivial
    show σ.curNumWorkers + 1 = _
    rw [tally_update_add_one ht hnot hlive, ← h.counter]
  · by_cases hut : u = t
    · subst hut
      simp only [Function.update_self] at hu
      cases hu
    · simp only [Function.update_of_ne hut] at hu
      exact hnone u hu
  · intro u id hu
    rcases hlive u id hu with ⟨-, rfl⟩ | ⟨-, hu⟩
    · exact Nat.lt_succ_self _
    · exact Nat.lt_succ_of_lt (hfresh u id hu)

theorem Inv.destroyClient (h : Inv numThreads σ) {t : ℕ}
    (hstep : destroyClient numThreads σ t = some σ') : Inv numThreads σ' := by
  obtain ⟨⟨ht, hlive, hcreated⟩, rfl⟩ := Option.ite_some_none_eq_some.mp hstep
  have hold : ∀ u id, Function.update σ.client t .destroyed u = .live id →
      σ.client u = .live id := by
    intro u id hu
    by_cases hut : u = t
    · subst hut
      rw [Function.update_self] at hu
      cases hu
    · rwa [Function.update_of_ne hut] at hu
  refine ⟨⟨fun u v id hu hv => ?_, fun u id hu => ?_⟩, ?_, fun u hu hua => ?_⟩
  · exact h.valid.distinct u v id (hold u id hu) (hold v id hv)
  · exact h.valid.inRange u id (hold u id hu)
  · rw [h.counter, ← tally_update_sub_one (a := .destroyed) ht hlive id, Nat.add_sub_cancel]
  · -- behind the barrier nobody waits for a client
    by_cases hut : u = t
    · subst hut
      simp only [Function.update_self] at hua
      cases hua
    · simp only [Function.update_of_ne hut] at hua
      exact absurd hua (hcreated u hu)

theorem Inv.nextRegion (h : Inv numThreads σ) (hstep : nextRegion numThreads σ = some σ') :
    Inv numThreads σ' := by
  obtain ⟨hended, rfl⟩ := Option.ite_some_none_eq_some.mp hstep
  refine ⟨⟨fun _ _ _ hu => (by cases hu), fun _ _ hu => (by cases hu)⟩, ?_,
    fun _ _ _ => ⟨fun _ hu => (by cases hu), fun _ _ hu => (by cases hu)⟩⟩
  refine (h.counter.trans (tally_eq_zero fun t ht => ?_)).trans (tally_eq_zero fun _ _ => id).symm
  rw [hended t ht]
  exact id

/-- **Every step keeps the invariant.** -/
theorem Inv.step (h : Inv numThreads σ) {e : Event} (hstep : step numThreads σ e = some σ') :
    Inv numThreads σ' := by
  cases e with
  | getClient t => exact h.getClient hstep
  | destroyClient t => exact h.destroyClient hstep
  | nextRegion => exact h.nextRegion hstep

/-- **The ids of live workers are distinct and below the number of threads**, after
any steps. -/
theorem valid_numThreads {events : List Event}
    (hrun : run numThreads Sys.init events = some σ) : σ.Valid numThreads :=
  (Machine.run_preserves (P := Inv numThreads) _ (fun _ _ _ h hs => h.step hs) inv_init hrun).valid

end Invariant

/-! ## When the ids are valid -/

section Bound

variable {numThreads : ℕ}

/-- The threads create their clients one after the other. -/
theorem run_getClients (n : ℕ) (hn : n ≤ numThreads) :
    run numThreads Sys.init ((List.range n).map .getClient)
      = some ⟨n, fun t => if t < n then .live t else .awaited⟩ := by
  induction n with
  | zero => rfl
  | succ n ih =>
    rw [List.range_succ, List.map_append, run, Machine.run_append, ← run,
      ih (Nat.le_of_succ_le hn), Option.bind_some]
    refine (Machine.run_cons_eq_some _).mpr ⟨_, if_pos ⟨hn, by simp⟩, ?_⟩
    rw [← update_ite_lt Client.live (fun _ => Client.awaited) n]
    rfl

/-- **A database has room for the workers of the driver** if and only if it was
constructed for as many as there are threads. -/
theorem valid_iff_le (numWorkers : ℕ) :
    (∀ events σ, run numThreads Sys.init events = some σ → σ.Valid numWorkers)
      ↔ numThreads ≤ numWorkers := by
  constructor
  · intro h
    by_contra hlt
    have hle : numWorkers + 1 ≤ numThreads := not_le.mp hlt
    have hvalid := h _ _ (run_getClients (numWorkers + 1) hle)
    exact absurd (hvalid.inRange numWorkers numWorkers (if_pos (Nat.lt_succ_self _)))
      (lt_irrefl _)
  · intro hle events σ hrun
    have hvalid := valid_numThreads hrun
    exact ⟨hvalid.distinct, fun t id ht => (hvalid.inRange t id ht).trans_le hle⟩

/-- **The ids are valid in flatstore-pacman if and only if the driver runs a single
thread.** -/
theorem valid_iff (hT : 1 ≤ numThreads) :
    (∀ events σ, run numThreads Sys.init events = some σ →
      σ.Valid (pacmanNumWorkers numThreads)) ↔ numThreads = 1 := by
  rw [valid_iff_le]
  exact ⟨fun hle => le_antisymm hle hT, fun heq => heq.le⟩

/-- In the other forks they always are. -/
theorem valid_fork {events : List Event} {σ : Sys}
    (hrun : run numThreads Sys.init events = some σ) : σ.Valid (forkNumWorkers numThreads) :=
  (valid_iff_le (forkNumWorkers numThreads)).mpr le_rfl events σ hrun

end Bound

/-- A single thread. -/
theorem valid_single :
    1 ≤ 1 ∧ ∀ events σ, run 1 Sys.init events = some σ → σ.Valid (pacmanNumWorkers 1) :=
  ⟨le_rfl, (valid_iff le_rfl).mpr rfl⟩

/-- **Two threads**: the second worker has the id 1, which is out of range. -/
theorem not_valid_two :
    ¬ ∀ numThreads ≥ 1, ∀ events σ, run numThreads Sys.init events = some σ →
      σ.Valid (pacmanNumWorkers numThreads) := by
  intro h
  have hvalid := h 2 (by decide) _ _ (run_getClients 2 le_rfl)
  exact absurd (hvalid.inRange 1 1 rfl) (by decide)

end WorkerIds
