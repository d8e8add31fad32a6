import PKBench.Tally
import PKBench.Machine

/-!
# Waiting for the recovery threads

`LogStructured::RecoveryAll`, `RecoverySegments` and `RecoveryInfo` reset
`recovery_counter_`, start one thread per cleaner and wait on `rec_cv_` until
the counter says that all are through. A recovery thread increments the counter
and, if it was the last one, calls `notify_all`; it never takes `rec_mu_`.

The caller and the threads take their steps in any order. A notification that
comes after the caller has read the counter and before it is blocked wakes
nobody, and there is no other one. It is the only way to get stuck: a run in
which no notification falls into that window has no state where the caller
sleeps and all the threads are gone (`not_stuck_of_run`), and after one that
does the caller can go to sleep for good (`stuck_of_notify`).
-/

namespace RecoveryWait

/-- The three functions of `LogStructured` that wait. -/
inductive Routine where
  | recoveryAll
  | recoverySegments
  | recoveryInfo
  deriving DecidableEq

/-- What the thread that called them is doing. -/
inductive Caller where
  | idle
  /-- Starts the threads from this one on. -/
  | starting (i : ℕ)
  /-- Holds `rec_mu_` and is about to look at the counter. -/
  | testing
  /-- Has seen that the counter is too small, and is about to wait. -/
  | waiting
  /-- Asleep in `rec_cv_.wait`. -/
  | blocked
  /-- Woken, and about to take `rec_mu_` again. -/
  | woken
  deriving DecidableEq

/-- What `gc_thread_` of a cleaner is doing. -/
inductive RecoveryThread where
  /-- Not started, or joined. -/
  | stopped
  | working
  /-- Has incremented the counter; `last` is what the comparison said. -/
  | counted (last : Bool)
  | finished
  deriving DecidableEq

/-- The thread can be joined. -/
def RecoveryThread.joinable : RecoveryThread → Bool
  | .stopped => true
  | .working => false
  | .counted _ => false
  | .finished => true

/-- **The state of the caller, the threads and what they share.** -/
structure Sys where
  caller : Caller
  thread : ℕ → RecoveryThread
  recoveryCounter : ℕ
  /-- `rec_mu_` is taken. -/
  recMu : Bool

/-- Before the first recovery. -/
def Sys.init : Sys where
  caller := .idle
  thread _ := .stopped
  recoveryCounter := 0
  recMu := false

/-! ## Steps -/

variable (numCleaners : ℕ)

/-- The beginning of the three functions, up to the first thread to start.
`RecoveryAll` and `RecoverySegments` join and delete the old cleaners;
`RecoveryInfo` only accepts a counter that is full. -/
def call (σ : Sys) : Routine → Option Sys
  | .recoveryInfo =>
      if σ.caller = .idle ∧ σ.recoveryCounter = numCleaners then
        some { σ with caller := .starting 0, recoveryCounter := 0 }
      else none
  | .recoveryAll | .recoverySegments =>
      if σ.caller = .idle ∧ ∀ i < numCleaners, (σ.thread i).joinable then
        some { σ with caller := .starting 0, recoveryCounter := 0, thread := fun _ => .stopped }
      else none

/-- `StartRecoveryAll`, `StartRecoverySegments`, `StartRecoveryInfo` of the next
cleaner: joins its thread and starts a new one. -/
def start (σ : Sys) : Option Sys :=
  match σ.caller with
  | .starting i =>
      if i < numCleaners ∧ (σ.thread i).joinable then
        some { σ with
          caller := .starting (i + 1)
          thread := Function.update σ.thread i .working }
      else none
  | _ => none

/-- `std::unique_lock<std::mutex> lk(rec_mu_)`, and what `wait` does when it is
woken. -/
def lock (σ : Sys) : Option Sys :=
  if (σ.caller = .starting numCleaners ∨ σ.caller = .woken) ∧ σ.recMu = false then
    some { σ with caller := .testing, recMu := true }
  else none

/-- `while (recovery_counter_ < num_cleaners_)`. -/
def test (σ : Sys) : Option Sys :=
  if σ.caller = .testing then
    if σ.recoveryCounter < numCleaners then some { σ with caller := .waiting }
    else some { σ with caller := .idle, recMu := false }
  else none

/-- `rec_cv_.wait(lk)`: gives the mutex back and goes to sleep, in one step. -/
def wait (σ : Sys) : Option Sys :=
  if σ.caller = .waiting then some { σ with caller := .blocked, recMu := false } else none

/-- A condition variable may also wake up without a notification. -/
def wakeUp (σ : Sys) : Option Sys :=
  if σ.caller = .blocked then some { σ with caller := .woken } else none

/-- `++recovery_counter_ == num_cleaners_` at the end of a recovery thread. -/
def count (σ : Sys) (i : ℕ) : Option Sys :=
  if σ.thread i = .working then
    some { σ with
      recoveryCounter := σ.recoveryCounter + 1
      thread := Function.update σ.thread i
        (.counted (decide (σ.recoveryCounter + 1 = numCleaners))) }
  else none

/-- Who is woken by `notify_all`. -/
def Caller.notified : Caller → Caller
  | .blocked => .woken
  | c => c

/-- `rec_cv_.notify_all()` by the last thread, which then ends. -/
def notifyAll (σ : Sys) (i : ℕ) : Option Sys :=
  if σ.thread i = .counted true then
    some { σ with
      caller := σ.caller.notified
      thread := Function.update σ.thread i .finished }
  else none

/-- A thread that was not the last one ends. -/
def finish (σ : Sys) (i : ℕ) : Option Sys :=
  if σ.thread i = .counted false then
    some { σ with thread := Function.update σ.thread i .finished }
  else none

/-- A step of the caller or of a recovery thread. -/
inductive Event where
  | call (r : Routine)
  | start
  | lock
  | test
  | wait
  | wakeUp
  | count (i : ℕ)
  | notifyAll (i : ℕ)
  | finish (i : ℕ)

/-- What a step does. -/
def step (σ : Sys) : Event → Option Sys
  | .call r => call numCleaners σ r
  | .start => start numCleaners σ
  | .lock => lock numCleaners σ
  | .test => test numCleaners σ
  | .wait => wait σ
  | .wakeUp => wakeUp σ
  | .count i => count numCleaners σ i
  | .notifyAll i => notifyAll σ i
  | .finish i => finish σ i

/-- Any order of steps. -/
def run : Sys → List Event → Option Sys := Machine.run (step numCleaners)

/-- The caller sleeps, the counter is full, and nobody is left to wake it. -/
def Sys.Stuck (σ : Sys) : Prop :=
  σ.caller = .blocked ∧ σ.recoveryCounter = numCleaners ∧
    ∀ i < numCleaners, σ.thread i = .finished

/-- A notification does not come between the caller's test and its wait. -/
def Timely (σ : Sys) : Event → Prop
  | .notifyAll _ => σ.caller ≠ .waiting
  | _ => True

instance (σ : Sys) : Decidable (σ.Stuck numCleaners) :=
  inferInstanceAs (Decidable (_ ∧ _ ∧ ∀ i < numCleaners, _))

instance (σ : Sys) : ∀ e, Decidable (Timely σ e)
  | .notifyAll _ => inferInstanceAs (Decidable (σ.caller ≠ .waiting))
  | .call _ | .start | .lock | .test | .wait | .wakeUp | .count _ | .finish _ => isTrue trivial

/-! ## What the steps lead to -/

section Inversion

variable {numCleaners : ℕ} {σ σ' : Sys}

/-- Whatever is called, the old threads are joined or have counted themselves,
and the counter starts again. -/
theorem call_eq_some {r : Routine} (h : call numCleaners σ r = some σ') :
    σ.caller = .idle ∧ ∃ thread, σ' = ⟨.starting 0, thread, 0, σ.recMu⟩ ∧
      (∀ i, thread i = σ.thread i ∨ thread i = .stopped) := by
  cases r with
  | recoveryInfo =>
    obtain ⟨hif, rfl⟩ := Option.ite_some_none_eq_some.mp h
    exact ⟨hif.1, σ.thread, rfl, fun i => .inl rfl⟩
  | recoveryAll =>
    obtain ⟨hif, rfl⟩ := Option.ite_some_none_eq_some.mp h
    exact ⟨hif.1, _, rfl, fun i => .inr rfl⟩
  | recoverySegments =>
    obtain ⟨hif, rfl⟩ := Option.ite_some_none_eq_some.mp h
    exact ⟨hif.1, _, rfl, fun i => .inr rfl⟩

theorem start_eq_some (h : start numCleaners σ = some σ') :
    ∃ i, σ.caller = .starting i ∧ i < numCleaners ∧
      σ' = { σ with
        caller := .starting (i + 1)
        thread := Function.update σ.thread i .working } := by
  cases hc : σ.caller with
  | starting i =>
    rw [start, hc] at h
    obtain ⟨hif, rfl⟩ := Option.ite_some_none_eq_some.mp h
    exact ⟨i, rfl, hif.1, rfl⟩
  | _ => rw [start, hc] at h; cases h

theorem lock_eq_some (h : lock numCleaners σ = some σ') :
    (σ.caller = .starting numCleaners ∨ σ.caller = .woken) ∧
      σ' = { σ with caller := .testing, recMu := true } := by
  obtain ⟨hif, rfl⟩ := Option.ite_some_none_eq_some.mp h
  exact ⟨hif.1, rfl⟩

theorem test_eq_some (h : test numCleaners σ = some σ') :
    σ.caller = .testing ∧
      (σ.recoveryCounter < numCleaners ∧ σ' = { σ with caller := .waiting } ∨
        numCleaners ≤ σ.recoveryCounter ∧ σ' = { σ with caller := .idle, recMu := false }) := by
  obtain ⟨hif, h⟩ := Option.ite_none_right_eq_some.mp h
  refine ⟨hif, ?_⟩
  by_cases hlt : σ.recoveryCounter < numCleaners
  · rw [if_pos hlt] at h
    exact .inl ⟨hlt, (Option.some.inj h).symm⟩
  · rw [if_neg hlt] at h
    exact .inr ⟨not_lt.mp hlt, (Option.some.inj h).symm⟩

theorem wait_eq_some (h : wait σ = some σ') :
    σ.caller = .waiting ∧ σ' = { σ with caller := .blocked, recMu := false } := by
  obtain ⟨hif, rfl⟩ := Option.ite_some_none_eq_some.mp h
  exact ⟨hif, rfl⟩

theorem wakeUp_eq_some (h : wakeUp σ = some σ') :
    σ.caller = .blocked ∧ σ' = { σ with caller := .woken } := by
  obtain ⟨hif, rfl⟩ := Option.ite_some_none_eq_some.mp h
  exact ⟨hif, rfl⟩

theorem count_eq_some {i : ℕ} (h : count numCleaners σ i = some σ') :
    σ.thread i = .working ∧ σ' = { σ with
      recoveryCounter := σ.recoveryCounter + 1
      thread := Function.update σ.thread i
        (.counted (decide (σ.recoveryCounter + 1 = numCleaners))) } := by
  obtain ⟨hif, rfl⟩ := Option.ite_some_none_eq_some.mp h
  exact ⟨hif, rfl⟩

theorem notifyAll_eq_some {i : ℕ} (h : notifyAll σ i = some σ') :
    σ.thread i = .counted true ∧ σ' = { σ with
      caller := σ.caller.notified
      thread := Function.update σ.thread i .finished } := by
  obtain ⟨hif, rfl⟩ := Option.ite_some_none_eq_some.mp h
  exact ⟨hif, rfl⟩

theorem finish_eq_some {i : ℕ} (h : finish σ i = some σ') :
    σ.thread i = .counted false ∧
      σ' = { σ with thread := Function.update σ.thread i .finished } := by
  obtain ⟨hif, rfl⟩ := Option.ite_some_none_eq_some.mp h
  exact ⟨hif, rfl⟩

end Inversion

/-! ## The counter -/

section Counter

variable {numCleaners : ℕ} {σ σ' : Sys}

/-- How many threads have been started since the last call. -/
def Caller.started (numCleaners : ℕ) : Caller → Option ℕ
  | .idle => none
  | .starting i => some i
  | _ => some numCleaners

/-- How many of the first `n` threads are through with their work. -/
def Sys.numCounted (σ : Sys) (n : ℕ) : ℕ := tally (fun t => t ≠ .working) σ.thread n

/-- There is a thread for each cleaner and no other, and the counter counts those
of this call that are through. -/
structure Sys.Counted (numCleaners : ℕ) (σ : Sys) : Prop where
  threads : ∀ i, σ.thread i ≠ .stopped → i < numCleaners
  bound : ∀ n, σ.caller.started numCleaners = some n → n ≤ numCleaners
  working : ∀ i, σ.thread i = .working → ∃ n, σ.caller.started numCleaners = some n ∧ i < n
  started : ∀ n, σ.caller.started numCleaners = some n → ∀ i < n, σ.thread i ≠ .stopped
  counter : ∀ n, σ.caller.started numCleaners = some n → σ.recoveryCounter = σ.numCounted n
  last : ∀ n, σ.caller.started numCleaners = some n → ∀ i < n, σ.thread i = .counted true →
    σ.recoveryCounter = numCleaners

theorem counted_init : Sys.init.Counted numCleaners where
  threads _ h := absurd rfl h
  bound _ h := by cases h
  working _ h := by cases h
  started _ h := by cases h
  counter _ h := by cases h
  last _ h := by cases h

/-- A thread is set to something else than stopped. -/
theorem update_ne_stopped {thread : ℕ → RecoveryThread} {i j : ℕ} {t : RecoveryThread}
    (ht : t ≠ .stopped) (h : j ≠ i → thread j ≠ .stopped) :
    Function.update thread i t j ≠ .stopped := by
  by_cases hji : j = i
  · rw [hji, Function.update_self]
    exact ht
  · rw [Function.update_of_ne hji]
    exact h hji

/-- What is not the new state of a thread is an old state of another one. -/
theorem ne_and_eq_of_update_eq {thread : ℕ → RecoveryThread} {i j : ℕ} {t u : RecoveryThread}
    (htu : t ≠ u) (h : Function.update thread i t j = u) : j ≠ i ∧ thread j = u := by
  by_cases hji : j = i
  · rw [hji, Function.update_self] at h
    exact absurd h htu
  · rw [Function.update_of_ne hji] at h
    exact ⟨hji, h⟩

/-- A thread there is may go on. -/
theorem Sys.Counted.threads_update (h : σ.Counted numCleaners) {i : ℕ} (t : RecoveryThread)
    (hi : i < numCleaners) (j : ℕ) (hj : Function.update σ.thread i t j ≠ .stopped) :
    j < numCleaners := by
  by_cases hji : j = i
  · exact hji ▸ hi
  · rw [Function.update_of_ne hji] at hj
    exact h.threads j hj

/-- The caller may go on as long as it starts no thread. -/
theorem Sys.Counted.caller (h : σ.Counted numCleaners) {c : Caller} (recMu : Bool)
    (hc : c.started numCleaners = σ.caller.started numCleaners) :
    Sys.Counted numCleaners { σ with caller := c, recMu := recMu } where
  threads := h.threads
  bound n hn := h.bound n (hc.symm.trans hn)
  working i hi := by
    obtain ⟨n, hn, hin⟩ := h.working i hi
    exact ⟨n, hc.trans hn, hin⟩
  started n hn := h.started n (hc.symm.trans hn)
  counter n hn := h.counter n (hc.symm.trans hn)
  last n hn := h.last n (hc.symm.trans hn)

/-- The threads are through when the loop of the caller ends. -/
theorem Sys.Counted.idle (h : σ.Counted numCleaners) (hcaller : σ.caller = .testing)
    (hle : numCleaners ≤ σ.recoveryCounter) :
    Sys.Counted numCleaners { σ with caller := .idle, recMu := false } where
  threads := h.threads
  bound _ hn := by cases hn
  working i hi := by
    have hn : σ.caller.started numCleaners = some numCleaners := by rw [hcaller]; rfl
    obtain ⟨n, hn', hin⟩ := h.working i hi
    obtain rfl := Option.some.inj (hn.symm.trans hn')
    rw [h.counter _ hn] at hle
    exact absurd hi (of_le_tally hle hin)
  started _ hn := by cases hn
  counter _ hn := by cases hn
  last _ hn := by cases hn

/-- A thread that has counted itself may end. -/
theorem Sys.Counted.finished (h : σ.Counted numCleaners) {i : ℕ} {b : Bool}
    (hi : σ.thread i = .counted b) :
    Sys.Counted numCleaners { σ with thread := Function.update σ.thread i .finished } where
  threads := h.threads_update _ (h.threads i (by rw [hi]; exact RecoveryThread.noConfusion))
  bound := h.bound
  working j hj := h.working j (ne_and_eq_of_update_eq RecoveryThread.noConfusion hj).2
  started n hn j hj := update_ne_stopped RecoveryThread.noConfusion fun _ => h.started n hn j hj
  counter n hn := by
    refine (h.counter n hn).trans (tally_update ?_).symm
    simp [hi]
  last n hn j hj hlast :=
    h.last n hn j hj (ne_and_eq_of_update_eq RecoveryThread.noConfusion hlast).2

theorem Sys.Counted.call (h : σ.Counted numCleaners) {r : Routine}
    (hstep : call numCleaners σ r = some σ') : σ'.Counted numCleaners := by
  obtain ⟨hidle, thread, rfl, hthread⟩ := call_eq_some hstep
  refine ⟨fun i hi => ?_, fun n hn => ?_, fun i hi => ?_, fun n hn i hi => ?_, fun n hn => ?_,
    fun n hn i hi => ?_⟩
  · rcases hthread i with heq | heq
    · exact h.threads i (by rw [← heq]; exact hi)
    · exact absurd heq hi
  · obtain rfl := Option.some.inj hn
    exact Nat.zero_le _
  · -- nobody is working when the caller is idle
    rcases hthread i with heq | heq
    · obtain ⟨n, hn, -⟩ := h.working i (heq.symm.trans hi)
      rw [hidle] at hn
      cases hn
    · cases heq.symm.trans hi
  all_goals obtain rfl := Option.some.inj hn
  · exact absurd hi (Nat.not_lt_zero i)
  · rfl
  · exact absurd hi (Nat.not_lt_zero i)

/-- A thread that starts is not counted. -/
theorem numCounted_start {i : ℕ} (c : Caller) :
    Sys.numCounted { σ with caller := c, thread := Function.update σ.thread i .working } (i + 1)
      = σ.numCounted i := by
  refine tally_succ.trans ?_
  rw [if_neg (by simp), Nat.add_zero]
  exact tally_congr fun j hj => by simp [Function.update_of_ne (ne_of_lt hj)]

theorem Sys.Counted.start (h : σ.Counted numCleaners)
    (hstep : start numCleaners σ = some σ') : σ'.Counted numCleaners := by
  obtain ⟨i, hcaller, hi, rfl⟩ := start_eq_some hstep
  have hn : σ.caller.started numCleaners = some i := by rw [hcaller]; rfl
  refine ⟨h.threads_update _ hi, fun n hn' => ?_, fun j hj => ?_, fun n hn' j hj => ?_,
    fun n hn' => ?_, fun n hn' j hj hlast => ?_⟩
  · obtain rfl := Option.some.inj hn'
    exact hi
  · refine ⟨i + 1, rfl, ?_⟩
    by_cases hji : j = i
    · exact hji ▸ Nat.lt_succ_self j
    · simp only [Function.update_of_ne hji] at hj
      obtain ⟨n, hn', hjn⟩ := h.working j hj
      obtain rfl := Option.some.inj (hn.symm.trans hn')
      exact Nat.lt_succ_of_lt hjn
  all_goals obtain rfl := Option.some.inj hn'
  · exact update_ne_stopped RecoveryThread.noConfusion
      fun hji => h.started i hn j (lt_of_le_of_ne (Nat.lt_succ_iff.mp hj) hji)
  · exact (h.counter i hn).trans (numCounted_start _).symm
  · obtain ⟨hji, hlast⟩ := ne_and_eq_of_update_eq RecoveryThread.noConfusion hlast
    exact h.last i hn j (lt_of_le_of_ne (Nat.lt_succ_iff.mp hj) hji) hlast

theorem Sys.Counted.count (h : σ.Counted numCleaners) {i : ℕ}
    (hstep : count numCleaners σ i = some σ') : σ'.Counted numCleaners := by
  obtain ⟨hworking, rfl⟩ := count_eq_some hstep
  obtain ⟨n, hn, hin⟩ := h.working i hworking
  have hi : i < numCleaners := h.threads i (by rw [hworking]; exact RecoveryThread.noConfusion)
  refine ⟨h.threads_update _ hi, h.bound, fun j hj => ?_, fun m hm j hj => ?_, fun m hm => ?_,
    fun m hm j hj hlast => ?_⟩
  · exact h.working j (ne_and_eq_of_update_eq RecoveryThread.noConfusion hj).2
  all_goals obtain rfl := Option.some.inj (hn.symm.trans hm)
  · exact update_ne_stopped RecoveryThread.noConfusion fun _ => h.started n hn j hj
  · refine (congrArg (· + 1) (h.counter n hn)).trans (tally_update_add_one hin ?_ ?_).symm
    · simp [hworking]
    · exact RecoveryThread.noConfusion
  · by_cases hji : j = i
    · subst hji
      simp only [Function.update_self] at hlast
      exact of_decide_eq_true (RecoveryThread.counted.inj hlast)
    · -- no other thread was the last one, since this one was still at work
      simp only [Function.update_of_ne hji] at hlast
      have hfull : n ≤ σ.numCounted n := by
        rw [← h.counter n hn, h.last n hn j hj hlast]
        exact h.bound n hn
      exact absurd hworking (of_le_tally hfull hin)

/-- A notification starts no thread. -/
theorem started_notified (c : Caller) : c.notified.started numCleaners = c.started numCleaners := by
  cases c <;> rfl

/-- **The counter counts.** -/
theorem Sys.Counted.step (h : σ.Counted numCleaners) {e : Event}
    (hstep : step numCleaners σ e = some σ') : σ'.Counted numCleaners := by
  cases e with
  | call r => exact h.call hstep
  | start => exact h.start hstep
  | lock =>
    obtain ⟨hcaller, rfl⟩ := lock_eq_some hstep
    refine h.caller true ?_
    rcases hcaller with hcaller | hcaller <;> rw [hcaller] <;> rfl
  | test =>
    obtain ⟨hcaller, ⟨-, rfl⟩ | ⟨hle, rfl⟩⟩ := test_eq_some hstep
    · exact h.caller σ.recMu (by rw [hcaller]; rfl)
    · exact h.idle hcaller hle
  | wait =>
    obtain ⟨hcaller, rfl⟩ := wait_eq_some hstep
    exact h.caller false (by rw [hcaller]; rfl)
  | wakeUp =>
    obtain ⟨hcaller, rfl⟩ := wakeUp_eq_some hstep
    exact h.caller σ.recMu (by rw [hcaller]; rfl)
  | count i => exact h.count hstep
  | notifyAll i =>
    obtain ⟨hlast, rfl⟩ := notifyAll_eq_some hstep
    exact (h.finished hlast).caller σ.recMu (started_notified σ.caller)
  | finish i =>
    obtain ⟨hcounted, rfl⟩ := finish_eq_some hstep
    exact h.finished hcounted

/-- It does so after any steps. -/
theorem counted_of_run {events : List Event} (hrun : run numCleaners Sys.init events = some σ) :
    σ.Counted numCleaners :=
  Machine.run_preserves (step numCleaners) (fun _ _ _ h hs => h.step hs) counted_init hrun

end Counter

/-! ## The caller is woken -/

section Woken

variable {numCleaners : ℕ} {σ σ' : Sys}

/-- Somebody will still wake a caller that has decided to wait: either the counter
has not reached its goal, or the thread that brought it there has not notified
yet. -/
def Sys.Awaited (numCleaners : ℕ) (σ : Sys) : Prop :=
  σ.caller = .waiting ∨ σ.caller = .blocked →
    σ.recoveryCounter < numCleaners ∨ ∃ i, σ.thread i = .counted true

/-- Nobody has to be woken. -/
theorem awaited_of_ne (hw : σ.caller ≠ .waiting) (hb : σ.caller ≠ .blocked) :
    σ.Awaited numCleaners :=
  fun h => (h.elim hw hb).elim

/-- A caller that is awaited is not stuck. -/
theorem Sys.Awaited.not_stuck (h : σ.Awaited numCleaners) (hσ : σ.Counted numCleaners) :
    ¬ σ.Stuck numCleaners := by
  intro ⟨hblocked, hcounter, hfinished⟩
  rcases h (.inr hblocked) with hlt | ⟨i, hi⟩
  · exact absurd hcounter (ne_of_lt hlt)
  · have hne : σ.thread i ≠ .stopped := by rw [hi]; exact RecoveryThread.noConfusion
    rw [hfinished i (hσ.threads i hne)] at hi
    cases hi

/-- A thread that is not the one to notify may go on. -/
theorem exists_counted_update {i : ℕ} {t : RecoveryThread} (ht : σ.thread i ≠ .counted true)
    (h : ∃ j, σ.thread j = .counted true) :
    ∃ j, Function.update σ.thread i t j = .counted true := by
  obtain ⟨j, hj⟩ := h
  have hji : j ≠ i := by
    rintro rfl
    exact ht hj
  exact ⟨j, by rw [Function.update_of_ne hji]; exact hj⟩

theorem Sys.Awaited.count (h : σ.Awaited numCleaners) {i : ℕ}
    (hstep : count numCleaners σ i = some σ') : σ'.Awaited numCleaners := by
  obtain ⟨hworking, rfl⟩ := count_eq_some hstep
  have hne : σ.thread i ≠ .counted true := by rw [hworking]; exact RecoveryThread.noConfusion
  intro hcaller
  rcases h hcaller with hlt | hcounted
  · -- the counter reaches its goal with this thread, or not yet
    by_cases hgoal : σ.recoveryCounter + 1 = numCleaners
    · exact .inr ⟨i, by simp [hgoal]⟩
    · exact .inl (lt_of_le_of_ne hlt hgoal)
  · exact .inr (exists_counted_update hne hcounted)

/-- A caller that has not decided to wait, or is asleep, does not miss a
notification. -/
theorem awaited_notifyAll {i : ℕ} (htimely : σ.caller ≠ .waiting)
    (hstep : notifyAll σ i = some σ') : σ'.Awaited numCleaners := by
  obtain ⟨-, rfl⟩ := notifyAll_eq_some hstep
  cases hc : σ.caller with
  | waiting => exact absurd hc htimely
  | _ => exact awaited_of_ne (by simp [Caller.notified]) (by simp [Caller.notified])

/-- **Every step but a lost notification keeps the caller awaited.** -/
theorem Sys.Awaited.step (h : σ.Awaited numCleaners) {e : Event} (htimely : Timely σ e)
    (hstep : step numCleaners σ e = some σ') : σ'.Awaited numCleaners := by
  cases e with
  | call r =>
    obtain ⟨-, thread, rfl, -⟩ := call_eq_some hstep
    exact awaited_of_ne Caller.noConfusion Caller.noConfusion
  | start =>
    obtain ⟨i, -, -, rfl⟩ := start_eq_some hstep
    exact awaited_of_ne Caller.noConfusion Caller.noConfusion
  | lock =>
    obtain ⟨-, rfl⟩ := lock_eq_some hstep
    exact awaited_of_ne Caller.noConfusion Caller.noConfusion
  | test =>
    obtain ⟨-, ⟨hlt, rfl⟩ | ⟨-, rfl⟩⟩ := test_eq_some hstep
    · exact fun _ => .inl hlt
    · exact awaited_of_ne Caller.noConfusion Caller.noConfusion
  | wait =>
    obtain ⟨hwaiting, rfl⟩ := wait_eq_some hstep
    exact fun _ => h (.inl hwaiting)
  | wakeUp =>
    obtain ⟨-, rfl⟩ := wakeUp_eq_some hstep
    exact awaited_of_ne Caller.noConfusion Caller.noConfusion
  | count i => exact h.count hstep
  | notifyAll i => exact awaited_notifyAll htimely hstep
  | finish i =>
    obtain ⟨hcounted, rfl⟩ := finish_eq_some hstep
    have hne : σ.thread i ≠ .counted true := by simp [hcounted]
    exact fun hcaller => (h hcaller).imp id (exists_counted_update hne)

/-- **A caller whose notifications are timely is never stuck**: in no state of
such a run is it asleep with the counter full and all the threads ended. -/
theorem not_stuck_of_run {events : List Event}
    (htimely : Machine.AllSteps (step numCleaners) Timely Sys.init events)
    (hrun : run numCleaners Sys.init events = some σ) : ¬ σ.Stuck numCleaners := by
  have hinit : Sys.init.Awaited numCleaners :=
    awaited_of_ne Caller.noConfusion Caller.noConfusion
  have hawaited := Machine.run_inv_of_allSteps (step numCleaners) (P := Sys.Awaited numCleaners)
    (fun _ _ _ h hG hs => h.step hG hs) hinit htimely hrun
  exact hawaited.not_stuck (counted_of_run hrun)

/-- Two recoveries, whose threads end before the caller looks at the counter and
while it is asleep. -/
theorem not_stuck_run_two :
    ∃ σ, run 1 Sys.init [.call .recoverySegments, .start, .count 0, .notifyAll 0, .lock, .test,
        .call .recoveryInfo, .start, .lock, .test, .wait, .count 0, .notifyAll 0] = some σ ∧
      ¬ σ.Stuck 1 := by
  have hrun : (run 1 Sys.init [.call .recoverySegments, .start, .count 0, .notifyAll 0, .lock,
      .test, .call .recoveryInfo, .start, .lock, .test, .wait, .count 0, .notifyAll 0]).isSome := by
    decide
  obtain ⟨σ, hσ⟩ := Option.isSome_iff_exists.mp hrun
  exact ⟨σ, hσ, not_stuck_of_run (by decide) hσ⟩

end Woken

/-! ## A lost notification -/

section Lost

variable {numCleaners : ℕ} {σ σ' : Sys}

/-- While the caller has decided to wait and does nothing else, a thread that is
through with its work can end. -/
theorem reaches_finish (numCleaners : ℕ) (σ : Sys) (hcaller : σ.caller = .waiting) {i : ℕ}
    (hw : σ.thread i ≠ .working) (hs : σ.thread i ≠ .stopped) :
    Machine.Reaches (step numCleaners) σ
      { σ with thread := Function.update σ.thread i .finished } := by
  cases hi : σ.thread i with
  | stopped => exact absurd hi hs
  | working => exact absurd hi hw
  | finished =>
    rw [← hi, Function.update_eq_self]
    exact .refl σ
  | counted last =>
    cases last with
    | false => exact .single (.finish i) (if_pos hi)
    | true =>
      refine .single (.notifyAll i) ((if_pos hi).trans ?_)
      rw [hcaller]
      rfl

/-- So can all of them. -/
theorem reaches_finish_all (numCleaners : ℕ) (hcaller : σ.caller = .waiting) (n : ℕ)
    (hw : ∀ i < n, σ.thread i ≠ .working) (hs : ∀ i < n, σ.thread i ≠ .stopped) :
    Machine.Reaches (step numCleaners) σ
      { σ with thread := fun i => if i < n then .finished else σ.thread i } := by
  induction n with
  | zero => exact .refl σ
  | succ n ih =>
    refine (ih (fun i hi => hw i (Nat.lt_succ_of_lt hi))
      (fun i hi => hs i (Nat.lt_succ_of_lt hi))).trans ?_
    have hlast := reaches_finish numCleaners
      { σ with thread := fun i => if i < n then .finished else σ.thread i } hcaller (i := n)
      (by simpa using hw n (Nat.lt_succ_self n)) (by simpa using hs n (Nat.lt_succ_self n))
    rw [← update_ite_lt (fun _ => RecoveryThread.finished) σ.thread n]
    exact hlast

/-- The caller is about to wait although the counter is full: it can go to sleep,
and the threads end without waking it. -/
theorem Sys.Counted.exists_stuck (h : σ.Counted numCleaners) (hcaller : σ.caller = .waiting)
    (hfull : σ.recoveryCounter = numCleaners) :
    ∃ σ', Machine.Reaches (RecoveryWait.step numCleaners) σ σ' ∧ σ'.Stuck numCleaners := by
  have hn : σ.caller.started numCleaners = some numCleaners := by rw [hcaller]; rfl
  have hle : numCleaners ≤ σ.numCounted numCleaners := by
    rw [← h.counter _ hn]
    exact le_of_eq hfull.symm
  have hall := reaches_finish_all numCleaners hcaller numCleaners
    (fun j hj => of_le_tally hle hj) (h.started _ hn)
  refine ⟨⟨.blocked, fun i => if i < numCleaners then .finished else σ.thread i,
    σ.recoveryCounter, false⟩, hall.trans (.single .wait (if_pos hcaller)), rfl, hfull, ?_⟩
  exact fun j hj => if_pos hj

/-- **A notification before the wait is lost**: after it the caller can get stuck. -/
theorem stuck_of_notify {past : List Event} {i : ℕ}
    (hrun : run numCleaners Sys.init past = some σ) (hcaller : σ.caller = .waiting)
    (hnotify : notifyAll σ i = some σ') :
    ∃ σ'', Machine.Reaches (step numCleaners) σ' σ'' ∧ σ''.Stuck numCleaners := by
  have h := counted_of_run hrun
  have hσ' : σ'.Counted numCleaners := h.step (e := .notifyAll i) hnotify
  obtain ⟨hlast, rfl⟩ := notifyAll_eq_some hnotify
  have hi : i < numCleaners := h.threads i (by rw [hlast]; exact RecoveryThread.noConfusion)
  have hn : σ.caller.started numCleaners = some numCleaners := by rw [hcaller]; rfl
  have hcaller' : σ.caller.notified = .waiting := by rw [hcaller]; rfl
  exact hσ'.exists_stuck hcaller' (h.last _ hn i hi hlast)

/-- **The caller is left asleep**: it reads the counter, the only thread counts
itself and notifies nobody, and then the caller waits. -/
theorem stuck_run_lost_notification :
    ¬ ∀ numCleaners ≥ 1, ∀ events σ, run numCleaners Sys.init events = some σ →
      ¬ σ.Stuck numCleaners := by
  intro h
  have hstuck : ∃ σ ∈ run 1 Sys.init [.call .recoveryAll, .start, .lock, .test, .count 0,
      .notifyAll 0, .wait], σ.Stuck 1 := by decide
  obtain ⟨σ, hσ, hstuck⟩ := hstuck
  exact h 1 le_rfl _ σ hσ hstuck

end Lost

end RecoveryWait
