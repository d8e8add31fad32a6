import Mathlib.Data.Finset.Card
import PKBench.Machine

/-!
# The semaphore of a CCEH segment

A segment of CCEH, and its directory, have one word `sema` for two kinds of lock. `lock`
and `unlock` count the threads inside up and down; `suspend` takes the count away,
leaves `-1` behind and waits until those inside have gone. They go on counting down, so
what it waits for is `-1` minus the count it took. Whoever has suspended a segment gives
it back with a plain store of `0`.

Every access to the word is a step of its own here, and any number of threads take them
in any order: between a read of the word and the compare-and-swap others come and go, and
the word may be back at the value that was read. The count of those inside is still right
(`Sys.Ok`), and a thread that has suspended the segment is alone (`suspended_alone`).
-/

namespace Cceh

/-- What a thread may call: `lock`, `unlock`, `suspend`, and `sema = 0`. -/
inductive Op where
  | lock
  | unlock
  | suspend
  | release

/-- **A thread**, before its next access to `sema`. `val` is what it has read, or taken. -/
inductive Thread where
  | idle
  | lockRead
  | lockCas (val : ℤ)
  | held
  | unlockRead
  | unlockCas (val : ℤ)
  | suspendRead
  | suspendCas (val : ℤ)
  | waiting (val : ℤ)
  | suspended (val : ℤ)
  deriving DecidableEq

/-- `sema`, and the threads. -/
structure Sys where
  sema : ℤ := 0
  thread : ℕ → Thread := fun _ => .idle

/-! ## Steps -/

/-- A call may start: who is inside leaves, who has suspended gives back, and who is
neither may come in. `release` is one store. -/
def begin (sema : ℤ) : Thread → Op → Option (ℤ × Thread)
  | .idle, .lock => some (sema, .lockRead)
  | .idle, .suspend => some (sema, .suspendRead)
  | .held, .unlock => some (sema, .unlockRead)
  | .suspended _, .release => some (0, .idle)
  | _, _ => none

/-- **The next access of a thread.** A `lock` or `suspend` that reads a negative count
returns `false`. -/
def access (sema : ℤ) : Thread → Option (ℤ × Thread)
  | .lockRead => some (sema, if -1 < sema then .lockCas sema else .idle)
  | .lockCas val => some (if sema = val then (val + 1, .held) else (sema, .lockRead))
  | .unlockRead => some (sema, .unlockCas sema)
  | .unlockCas val => some (if sema = val then (val - 1, .idle) else (sema, .unlockRead))
  | .suspendRead => some (sema, if sema < 0 then .idle else .suspendCas sema)
  | .suspendCas val =>
    some (if sema = val then (-1, if val = 0 then .suspended val else .waiting val)
      else (sema, .suspendRead))
  | .waiting val => some (sema, if sema = 0 - val - 1 then .suspended val else .waiting val)
  | _ => none

/-- What can happen: a thread makes a call, or its next access. -/
inductive Event where
  | call (i : ℕ) (op : Op)
  | move (i : ℕ)

/-- Thread `i` has done something. -/
def Sys.put (S : Sys) (i : ℕ) (r : ℤ × Thread) : Sys where
  sema := r.1
  thread := Function.update S.thread i r.2

/-- One step. -/
def step (S : Sys) : Event → Option Sys
  | .call i op => (begin S.sema (S.thread i) op).map (S.put i)
  | .move i => (access S.sema (S.thread i)).map (S.put i)

/-- Any sequence of steps. -/
def run (S : Sys) (es : List Event) : Option Sys := Machine.run step S es

/-! ## What is kept -/

/-- A thread is inside, until the word is counted down. -/
def Thread.inside : Thread → Bool
  | .held => true
  | .unlockRead => true
  | .unlockCas _ => true
  | _ => false

/-- The count a thread has taken away. -/
def Thread.taken? : Thread → Option ℤ
  | .waiting val => some val
  | .suspended val => some val
  | _ => none

/-- A count that is about to be raised, or taken, is one. -/
def Thread.Ok : Thread → Prop
  | .lockCas val => 0 ≤ val
  | .suspendCas val => 0 ≤ val
  | _ => True

/-- **The two uses of the word**, with the threads inside: their number, or, once one
thread has taken it away, how many of them have gone. -/
inductive Mode (S : Sys) (inside : Finset ℕ) : Prop
  | shared (hsema : S.sema = inside.card) (hnone : ∀ j, (S.thread j).taken? = none) :
      Mode S inside
  | taken {i : ℕ} {v : ℤ} (hi : (S.thread i).taken? = some v)
      (honly : ∀ j, j ≠ i → (S.thread j).taken? = none)
      (hsema : S.sema = inside.card - v - 1) (hle : (inside.card : ℤ) ≤ v)
      (halone : S.thread i = .suspended v → inside = ∅) : Mode S inside

/-- **The invariant.** -/
structure Sys.Ok (S : Sys) (inside : Finset ℕ) : Prop where
  mem : ∀ j, j ∈ inside ↔ (S.thread j).inside = true
  mode : Mode S inside
  thread : ∀ j, (S.thread j).Ok

variable {S S' : Sys} {inside : Finset ℕ} {i : ℕ} {val : ℤ}

theorem thread_put_self (S : Sys) (i : ℕ) (r : ℤ × Thread) : (S.put i r).thread i = r.2 := by
  show Function.update S.thread i r.2 i = r.2
  rw [Function.update_self]

theorem thread_put_of_ne {j : ℕ} (hji : j ≠ i) (r : ℤ × Thread) :
    (S.put i r).thread j = S.thread j := by
  show Function.update S.thread i r.2 j = S.thread j
  rw [Function.update_of_ne hji]

/-- The other threads are what they were. -/
theorem Sys.Ok.thread_put (h : S.Ok inside) {r : ℤ × Thread} (hok : r.2.Ok) (j : ℕ) :
    ((S.put i r).thread j).Ok := by
  by_cases hji : j = i
  · rw [hji, thread_put_self]
    exact hok
  · rw [thread_put_of_ne hji]
    exact h.thread j

/-- No thread has taken the count, if the one that makes a step has not. -/
theorem taken?_put_eq_none (hnone : ∀ j, j ≠ i → (S.thread j).taken? = none)
    {r : ℤ × Thread} (hr : r.2.taken? = none) (j : ℕ) : ((S.put i r).thread j).taken? = none := by
  by_cases hji : j = i
  · rw [hji, thread_put_self]
    exact hr
  · rw [thread_put_of_ne hji]
    exact hnone j hji

theorem Sys.Ok.mem_put (h : S.Ok inside) {r : ℤ × Thread}
    (hinside : r.2.inside = (S.thread i).inside) (j : ℕ) :
    j ∈ inside ↔ ((S.put i r).thread j).inside = true := by
  rw [h.mem]
  by_cases hji : j = i
  · rw [hji, thread_put_self, hinside]
  · rw [thread_put_of_ne hji]

/-- While the word is not negative, nobody has taken the count. -/
theorem Sys.Ok.shared (h : S.Ok inside) (hsema : 0 ≤ S.sema) :
    S.sema = inside.card ∧ ∀ j, (S.thread j).taken? = none := by
  cases h.mode with
  | shared hcard hnone => exact ⟨hcard, hnone⟩
  | taken _ _ hcard hle => omega

/-- A thread has taken the count. -/
theorem Sys.Ok.taken (h : S.Ok inside) (hi : (S.thread i).taken? = some val) :
    S.sema = inside.card - val - 1 ∧ (inside.card : ℤ) ≤ val
      ∧ (∀ j, j ≠ i → (S.thread j).taken? = none)
      ∧ (S.thread i = .suspended val → inside = ∅) := by
  cases h.mode with
  | shared hcard hnone => exact absurd (hi.symm.trans (hnone i)) (Option.some_ne_none val)
  | @taken i' val' hi' honly hcard hle halone =>
    have hii : i = i' := by
      by_contra hne
      exact Option.some_ne_none val (hi.symm.trans (honly i hne))
    subst hii
    obtain rfl := Option.some.inj (hi'.symm.trans hi)
    exact ⟨hcard, hle, honly, halone⟩

/-- A step on the way, of a thread that has not taken the count. -/
theorem Sys.Ok.quiet (h : S.Ok inside) {th : Thread}
    (hinside : th.inside = (S.thread i).inside) (hold : (S.thread i).taken? = none)
    (hnew : th.taken? = none) (hok : th.Ok) : (S.put i (S.sema, th)).Ok inside where
  mem := h.mem_put hinside
  thread := h.thread_put hok
  mode := by
    cases h.mode with
    | shared hcard hnone =>
      exact .shared hcard (taken?_put_eq_none (fun j _ => hnone j) hnew)
    | @taken k val hk honly hcard hle halone =>
      have hki : k ≠ i := fun hki => Option.some_ne_none val (hk.symm.trans (hki ▸ hold))
      refine .taken (i := k) ?_ (fun j hj => ?_) hcard hle ?_
      · rw [thread_put_of_ne hki]
        exact hk
      · by_cases hji : j = i
        · rw [hji, thread_put_self]
          exact hnew
        · rw [thread_put_of_ne hji]
          exact honly j hj
      · rw [thread_put_of_ne hki]
        exact halone

/-- A thread comes in. -/
theorem Sys.Ok.enter (h : S.Ok inside) (hth : S.thread i = .lockCas val) (hsema : S.sema = val) :
    (S.put i (val + 1, .held)).Ok (insert i inside) := by
  have hval : 0 ≤ val := by
    have := h.thread i
    rwa [hth] at this
  obtain ⟨hcard, hnone⟩ := h.shared (hsema ▸ hval)
  have hi : i ∉ inside := by
    rw [h.mem, hth]
    exact Bool.false_ne_true
  refine ⟨fun j => ?_, .shared ?_ (taken?_put_eq_none (fun j _ => hnone j) rfl),
    h.thread_put trivial⟩
  · rw [Finset.mem_insert, h.mem]
    by_cases hji : j = i
    · rw [hji, thread_put_self]
      exact ⟨fun _ => rfl, fun _ => .inl rfl⟩
    · rw [thread_put_of_ne hji]
      exact ⟨fun hj => hj.resolve_left hji, .inr⟩
  · rw [Finset.card_insert_of_notMem hi]
    show val + 1 = _
    omega

/-- A thread leaves. -/
theorem Sys.Ok.leave (h : S.Ok inside) (hth : S.thread i = .unlockCas val)
    (hsema : S.sema = val) : (S.put i (val - 1, .idle)).Ok (inside.erase i) := by
  have hi : i ∈ inside := by
    rw [h.mem, hth]
    rfl
  have hcard : ((inside.erase i).card : ℤ) = inside.card - 1 := by
    have := Finset.card_pos.mpr ⟨i, hi⟩
    rw [Finset.card_erase_of_mem hi]
    omega
  refine ⟨fun j => ?_, ?_, h.thread_put trivial⟩
  · rw [Finset.mem_erase, h.mem]
    by_cases hji : j = i
    · rw [hji, thread_put_self]
      exact ⟨fun hj => absurd rfl hj.1, fun hj => absurd hj Bool.false_ne_true⟩
    · rw [thread_put_of_ne hji]
      exact ⟨fun hj => hj.2, fun hj => ⟨hji, hj⟩⟩
  · cases h.mode with
    | shared hc hnone =>
      refine .shared ?_ (taken?_put_eq_none (fun j _ => hnone j) rfl)
      show val - 1 = _
      omega
    | @taken k count hk honly hc hle halone =>
      have hki : k ≠ i := by
        rintro rfl
        rw [hth] at hk
        exact Option.some_ne_none count hk.symm
      refine .taken (i := k) (v := count) ?_ (fun j hj => ?_) ?_ (by omega) (fun hs => ?_)
      · rw [thread_put_of_ne hki]
        exact hk
      · by_cases hji : j = i
        · rw [hji, thread_put_self]
          rfl
        · rw [thread_put_of_ne hji]
          exact honly j hj
      · show val - 1 = _
        omega
      · rw [thread_put_of_ne hki] at hs
        rw [halone hs] at hi
        exact absurd hi (Finset.notMem_empty i)

/-- A thread takes the count away. If it was zero there is nobody to wait for. -/
theorem Sys.Ok.take (h : S.Ok inside) (hth : S.thread i = .suspendCas val)
    (hsema : S.sema = val) :
    (S.put i (-1, if val = 0 then .suspended val else .waiting val)).Ok inside := by
  have hval : 0 ≤ val := by
    have := h.thread i
    rwa [hth] at this
  obtain ⟨hcard, hnone⟩ := h.shared (hsema ▸ hval)
  refine ⟨h.mem_put ?_, .taken (i := i) (v := val) ?_ (fun j hj => ?_) ?_ (by omega)
    (fun hs => ?_), h.thread_put ?_⟩
  · rw [hth]
    split <;> rfl
  · rw [thread_put_self]
    show (if val = 0 then Thread.suspended val else .waiting val).taken? = some val
    split <;> rfl
  · rw [thread_put_of_ne hj]
    exact hnone j
  · show (-1 : ℤ) = _
    omega
  · rw [thread_put_self] at hs
    have hzero : val = 0 := by
      by_contra hne
      exact Thread.noConfusion (hs.symm.trans (if_neg hne))
    exact Finset.card_eq_zero.mp (by omega)
  · show (if val = 0 then Thread.suspended val else .waiting val).Ok
    split <;> trivial

/-- Those who were inside have gone. -/
theorem Sys.Ok.alone (h : S.Ok inside) (hth : S.thread i = .waiting val)
    (hsema : S.sema = 0 - val - 1) : (S.put i (S.sema, .suspended val)).Ok inside := by
  obtain ⟨hcard, hle, honly, -⟩ := h.taken (congrArg Thread.taken? hth)
  refine ⟨h.mem_put (by rw [hth]; rfl), .taken (i := i) (v := val) ?_ (fun j hj => ?_) hcard hle
    (fun _ => Finset.card_eq_zero.mp (by omega)), h.thread_put trivial⟩
  · rw [thread_put_self]
    rfl
  · rw [thread_put_of_ne hj]
    exact honly j hj

/-- The segment is given back. -/
theorem Sys.Ok.release (h : S.Ok inside) (hth : S.thread i = .suspended val) :
    (S.put i (0, .idle)).Ok inside := by
  obtain ⟨-, -, honly, halone⟩ := h.taken (congrArg Thread.taken? hth)
  refine ⟨h.mem_put (by rw [hth]; rfl), .shared ?_ (taken?_put_eq_none honly rfl),
    h.thread_put trivial⟩
  rw [halone hth]
  rfl

/-! ## Runs -/

/-- **A call keeps the invariant.** -/
theorem Sys.Ok.begin (h : S.Ok inside) {op : Op} {r : ℤ × Thread}
    (hr : begin S.sema (S.thread i) op = some r) : (S.put i r).Ok inside := by
  generalize hth : S.thread i = th at hr
  unfold Cceh.begin at hr
  split at hr
  · obtain rfl := Option.some.inj hr
    exact h.quiet (by rw [hth]; rfl) (by rw [hth]; rfl) rfl trivial
  · obtain rfl := Option.some.inj hr
    exact h.quiet (by rw [hth]; rfl) (by rw [hth]; rfl) rfl trivial
  · obtain rfl := Option.some.inj hr
    exact h.quiet (by rw [hth]; rfl) (by rw [hth]; rfl) rfl trivial
  · obtain rfl := Option.some.inj hr
    exact h.release hth
  · exact absurd hr.symm (Option.some_ne_none r)

/-- **An access keeps the invariant**: a read is quiet, and a compare-and-swap that fails
is too. -/
theorem Sys.Ok.access (h : S.Ok inside) {r : ℤ × Thread}
    (hr : access S.sema (S.thread i) = some r) : ∃ inside', (S.put i r).Ok inside' := by
  generalize hth : S.thread i = th at hr
  have hquiet : ∀ th', th'.inside = th.inside → th.taken? = none → th'.taken? = none → th'.Ok →
      ∃ inside', (S.put i (S.sema, th')).Ok inside' :=
    fun th' h₁ h₂ h₃ h₄ => ⟨inside, h.quiet (hth ▸ h₁) (hth ▸ h₂) h₃ h₄⟩
  cases th with
  | lockRead =>
    obtain rfl := Option.some.inj hr
    split
    · exact hquiet _ rfl rfl rfl (show 0 ≤ S.sema by omega)
    · exact hquiet _ rfl rfl rfl trivial
  | lockCas val =>
    obtain rfl := Option.some.inj hr
    split
    · exact ⟨_, h.enter hth ‹_›⟩
    · exact hquiet _ rfl rfl rfl trivial
  | unlockRead =>
    obtain rfl := Option.some.inj hr
    exact hquiet _ rfl rfl rfl trivial
  | unlockCas val =>
    obtain rfl := Option.some.inj hr
    split
    · exact ⟨_, h.leave hth ‹_›⟩
    · exact hquiet _ rfl rfl rfl trivial
  | suspendRead =>
    obtain rfl := Option.some.inj hr
    split
    · exact hquiet _ rfl rfl rfl trivial
    · exact hquiet _ rfl rfl rfl (show 0 ≤ S.sema by omega)
  | suspendCas val =>
    obtain rfl := Option.some.inj hr
    split
    · exact ⟨_, h.take hth ‹_›⟩
    · exact hquiet _ rfl rfl rfl trivial
  | waiting val =>
    obtain rfl := Option.some.inj hr
    split
    · exact ⟨_, h.alone hth ‹_›⟩
    · refine ⟨inside, ?_⟩
      have hsame : S.put i (S.sema, .waiting val) = S := by
        unfold Sys.put
        rw [← hth, Function.update_eq_self]
      exact hsame.symm ▸ h
  | idle => exact absurd hr.symm (Option.some_ne_none r)
  | held => exact absurd hr.symm (Option.some_ne_none r)
  | suspended val => exact absurd hr.symm (Option.some_ne_none r)

/-- **Every step keeps the invariant.** -/
theorem Sys.Ok.step (h : S.Ok inside) {e : Event} (hstep : step S e = some S') :
    ∃ inside', S'.Ok inside' := by
  cases e with
  | call i op =>
    obtain ⟨r, hr, rfl⟩ := Option.map_eq_some_iff.mp hstep
    exact ⟨inside, h.begin hr⟩
  | move i =>
    obtain ⟨r, hr, rfl⟩ := Option.map_eq_some_iff.mp hstep
    exact h.access hr

theorem ok_init : ({} : Sys).Ok ∅ where
  mem j := ⟨fun hj => absurd hj (Finset.notMem_empty j), fun hj => absurd hj Bool.false_ne_true⟩
  mode := .shared rfl (fun _ => rfl)
  thread _ := trivial

/-- **Every state of every run.** -/
theorem ok_of_run {es : List Event} (hrun : run {} es = some S) : ∃ inside, S.Ok inside := by
  refine Machine.run_preserves step (P := fun S => ∃ inside, S.Ok inside)
    (fun S e S' h hstep => ?_) ⟨∅, ok_init⟩ hrun
  obtain ⟨inside, h⟩ := h
  exact h.step hstep

theorem Sys.Ok.inside_eq_empty (h : S.Ok inside) (hnone : ∀ j, (S.thread j).inside = false) :
    inside = ∅ := by
  refine Finset.eq_empty_of_forall_notMem (fun j hj => ?_)
  rw [h.mem, hnone j] at hj
  exact Bool.false_ne_true hj

/-- **Whoever has suspended a segment is alone**, in every state of every run: nobody is
inside, and nobody else has suspended it or is about to. A thread that waits gets the
segment with its next read once nobody is inside, and when nobody is inside or waits the
word is back at zero. -/
theorem suspended_alone {es : List Event} (hrun : run {} es = some S) :
    (∀ i val, S.thread i = .suspended val →
      ∀ j, (S.thread j).inside = false ∧ (j ≠ i → (S.thread j).taken? = none))
    ∧ (∀ i val, S.thread i = .waiting val → (∀ j, (S.thread j).inside = false) →
      ∃ S', step S (.move i) = some S' ∧ S'.thread i = .suspended val)
    ∧ ((∀ j, (S.thread j).inside = false ∧ (S.thread j).taken? = none) → S.sema = 0) := by
  obtain ⟨inside, h⟩ := ok_of_run hrun
  refine ⟨fun i val hth j => ⟨?_, fun hji => ?_⟩, fun i val hth hnone => ?_, fun hnone => ?_⟩
  · obtain ⟨-, -, -, halone⟩ := h.taken (congrArg Thread.taken? hth)
    rw [← Bool.not_eq_true, ← h.mem, halone hth]
    exact Finset.notMem_empty j
  · obtain ⟨-, -, honly, -⟩ := h.taken (congrArg Thread.taken? hth)
    exact honly j hji
  · obtain ⟨hcard, -⟩ := h.taken (congrArg Thread.taken? hth)
    have hsema : S.sema = 0 - val - 1 := by
      rw [hcard, h.inside_eq_empty hnone]
      rfl
    refine ⟨S.put i (S.sema, .suspended val), ?_, thread_put_self S i _⟩
    simp only [step, access, hth, if_pos hsema, Option.map_some]
  · cases h.mode with
    | shared hcard _ =>
      rw [hcard, h.inside_eq_empty (fun j => (hnone j).1)]
      rfl
    | @taken i v hi _ _ _ _ => exact absurd (hi.symm.trans (hnone i).2) (Option.some_ne_none v)

/-- One thread comes in, another one takes the count and reads the word too early, and
gets the segment when the first has gone. -/
def lockAndSuspend : List Event :=
  [.call 0 .lock, .move 0, .move 0, .call 1 .suspend, .move 1, .move 1, .move 1,
    .call 0 .unlock, .move 0, .move 0, .move 1]

theorem suspended_alone_lockAndSuspend :
    ∃ S, run {} lockAndSuspend = some S ∧ S.thread 1 = .suspended 1
      ∧ (S.thread 0).inside = false := by
  have hrun : ∃ S, run {} lockAndSuspend = some S ∧ S.thread 1 = .suspended 1 := ⟨_, rfl, rfl⟩
  obtain ⟨S, hS, hth⟩ := hrun
  exact ⟨S, hS, hth, ((suspended_alone hS).1 1 1 hth 0).1⟩

end Cceh
