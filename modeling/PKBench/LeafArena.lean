import PKBench.Machine
import Mathlib.Logic.Function.Basic
import Mathlib.Data.List.Pairwise
import Mathlib.Algebra.Order.Group.Nat
import Mathlib.Order.Interval.Set.Disjoint
import Mathlib.Order.CompletePartialOrder

/-!
# The leaf memory of the NBTree

The NBTree of flatstore-NB takes its leaves from one block of memory, cut into
an arena for the thread that builds the index and one for each worker. A
thread has two `thread_local` pointers, the start of its arena and the next
free byte. `leaf_alloc` moves the second on and never back: leaves are not
freed. The arena is chosen by the constructor of `DB::Worker`, from the
worker's id – the number of workers there are at that moment – and the
constructor also puts the next free byte at the arena's start.

An id is used again once workers have ended. The state here is that of all
threads, with the ranges handed out so far; each range carries the id under
which it was handed out and the number of the construction that chose the
arena, of which the code keeps no record. `allocs_disjoint_iff` says when the
ranges are disjoint: when no two constructions with one id are both followed
by an allocation – which the list of events tells (`ledger`). Whether the arenas
lie in the block at all, and have any room, is a matter of how the block is cut
(`partition_sound_iff`).
-/

namespace NBTree

variable {Thread : Type} [DecidableEq Thread]

/-! ## The allocator -/

/-- `MEM_PER_THREAD` as the constructor of `NBTreeIndex` computes it: an even
share, rounded down to gigabytes. -/
def memPerThread (maxDram workerThreadNum : ℕ) : ℕ := maxDram / workerThreadNum / 2 ^ 30 * 2 ^ 30

/-- Where an arena starts in the block, given the size of the arenas: that of
the building thread comes first, then those of the workers by id. -/
def arenaStart (memSize : ℕ) : Option ℕ → ℕ
  | none => 0
  | some id => memSize + id * memSize

/-- **The `thread_local` pointers of one thread**, with the owner of the arena
and the construction that chose it. -/
structure ThreadMem where
  startMem : ℕ
  currMem : ℕ
  owner : Option ℕ
  epoch : ℕ

/-- **A range `leaf_alloc` returned.** -/
structure Alloc where
  addr : ℕ
  size : ℕ
  owner : Option ℕ
  epoch : ℕ
  deriving DecidableEq

/-- The state of the process, as far as leaves are concerned. -/
structure State (Thread : Type) where
  curNumWorkers : ℕ
  mem : Thread → Option ThreadMem
  /-- Number of workers constructed so far. -/
  constructions : ℕ
  /-- The ranges returned so far, the latest first. -/
  allocs : List Alloc

/-- What `init_pmem_space` leaves behind in the thread that builds the index. -/
def built (main : Thread) : State Thread where
  curNumWorkers := 0
  mem t := if t = main then some ⟨0, 0, none, 0⟩ else none
  constructions := 0
  allocs := []

/-- What happens in the process: a worker is constructed by a thread, a worker
is destroyed, a thread allocates. -/
inductive Event (Thread : Type) where
  | construct (t : Thread)
  | destroy
  | leafAlloc (t : Thread) (size : ℕ)

/-- **`DB::Worker::Worker`**, as far as leaves are concerned. -/
def construct (memSize : ℕ) (st : State Thread) (t : Thread) : State Thread :=
  let workerId := st.curNumWorkers
  let start := arenaStart memSize (some workerId)
  { st with
    curNumWorkers := workerId + 1
    mem := Function.update st.mem t (some ⟨start, start, some workerId, st.constructions + 1⟩)
    constructions := st.constructions + 1 }

/-- **`leaf_alloc`**: a thread without an arena faults, and an arena that is
used up ends the process. -/
def leafAlloc (memSize : ℕ) (st : State Thread) (t : Thread) (size : ℕ) :
    Option (State Thread) :=
  match st.mem t with
  | none => none
  | some m =>
      if m.currMem + size ≥ m.startMem + memSize then none
      else some { st with
        mem := Function.update st.mem t (some { m with currMem := m.currMem + size })
        allocs := ⟨m.currMem, size, m.owner, m.epoch⟩ :: st.allocs }

/-- One event. -/
def step (memSize : ℕ) (st : State Thread) : Event Thread → Option (State Thread)
  | .construct t => some (construct memSize st t)
  | .destroy =>
      if st.curNumWorkers = 0 then none
      else some { st with curNumWorkers := st.curNumWorkers - 1 }
  | .leafAlloc t size => leafAlloc memSize st t size

/-- Any interleaving of constructions, destructions and allocations. -/
def run (memSize : ℕ) (st : State Thread) (events : List (Event Thread)) :
    Option (State Thread) := Machine.run (step memSize) st events

/-! ## Ranges -/

/-- Two ranges have no byte in common. -/
def Alloc.Disjoint (a b : Alloc) : Prop :=
  ∀ x, a.addr ≤ x → x < a.addr + a.size → ¬ (b.addr ≤ x ∧ x < b.addr + b.size)

theorem Alloc.Disjoint.symm {a b : Alloc} (h : a.Disjoint b) : b.Disjoint a :=
  fun x h₁ h₂ h₃ => h x h₃.1 h₃.2 ⟨h₁, h₂⟩

instance : Std.Symm Alloc.Disjoint := ⟨fun _ _ => Alloc.Disjoint.symm⟩

/-- Arenas of different owners do not overlap. -/
theorem arenaStart_add_le (memSize : ℕ) {o o' : Option ℕ} (h : o ≠ o') :
    arenaStart memSize o + memSize ≤ arenaStart memSize o'
      ∨ arenaStart memSize o' + memSize ≤ arenaStart memSize o := by
  have hmul : ∀ i j : ℕ, i < j → memSize + i * memSize + memSize ≤ memSize + j * memSize := by
    intro i j hij
    have hle : (i + 1) * memSize ≤ j * memSize := Nat.mul_le_mul_right _ hij
    rw [Nat.succ_mul] at hle
    omega
  cases o with
  | none =>
    cases o' with
    | none => exact absurd rfl h
    | some j => exact Or.inl (by simp only [arenaStart]; omega)
  | some i =>
    cases o' with
    | none => exact Or.inr (by simp only [arenaStart]; omega)
    | some j =>
      rcases Nat.lt_or_gt_of_ne (fun he => h (congrArg some he)) with hlt | hgt
      · exact Or.inl (hmul i j hlt)
      · exact Or.inr (hmul j i hgt)

/-! ## What holds in every state -/

/-- A range that covers the first byte of its arena. -/
def Alloc.OpensArena (memSize : ℕ) (b : Alloc) (owner : Option ℕ) (epoch : ℕ) : Prop :=
  b.epoch = epoch ∧ b.owner = owner ∧ b.addr = arenaStart memSize owner ∧ 0 < b.size

/-- **The invariant.** Pointers and ranges stay in their arenas, no two threads
share a construction, what one construction hands out comes one behind the
other, and its first non-empty range is at the start of the arena. -/
structure Inv (memSize : ℕ) (st : State Thread) : Prop where
  start : ∀ t m, st.mem t = some m →
    m.startMem = arenaStart memSize m.owner ∧ m.startMem ≤ m.currMem
      ∧ m.epoch ≤ st.constructions
  distinct : ∀ t t' m m', st.mem t = some m → st.mem t' = some m' → m.epoch = m'.epoch → t = t'
  inArena : ∀ a ∈ st.allocs, arenaStart memSize a.owner ≤ a.addr
    ∧ a.addr + a.size < arenaStart memSize a.owner + memSize ∧ a.epoch ≤ st.constructions
  behind : ∀ t m, st.mem t = some m → ∀ a ∈ st.allocs, a.epoch = m.epoch →
    a.owner = m.owner ∧ a.addr + a.size ≤ m.currMem
  sequential : st.allocs.Pairwise (fun a b => a.epoch = b.epoch → a.Disjoint b)
  opened : ∀ a ∈ st.allocs, 0 < a.size →
    ∃ b ∈ st.allocs, b.OpensArena memSize a.owner a.epoch
  opening : ∀ t m, st.mem t = some m → m.currMem = m.startMem
    ∨ ∃ b ∈ st.allocs, b.OpensArena memSize m.owner m.epoch

theorem inv_built (memSize : ℕ) (main : Thread) : Inv memSize (built main) := by
  have hmem : ∀ t m, (built main).mem t = some m → t = main ∧ m = ⟨0, 0, none, 0⟩ := by
    intro t m h
    change (if t = main then some (⟨0, 0, none, 0⟩ : ThreadMem) else none) = some m at h
    by_cases ht : t = main
    · rw [if_pos ht] at h
      exact ⟨ht, (Option.some.inj h).symm⟩
    · rw [if_neg ht] at h
      cases h
  have hnil : ∀ a, a ∉ (built main).allocs := fun _ => List.not_mem_nil
  refine ⟨fun t m h => ?_, fun t t' m m' h h' _ => ?_, fun a ha => absurd ha (hnil a),
    fun t m _ a ha => absurd ha (hnil a), List.Pairwise.nil, fun a ha => absurd ha (hnil a),
    fun t m h => ?_⟩
  · obtain ⟨-, rfl⟩ := hmem t m h
    exact ⟨rfl, le_rfl, le_rfl⟩
  · exact (hmem t m h).1.trans (hmem t' m' h').1.symm
  · obtain ⟨-, rfl⟩ := hmem t m h
    exact Or.inl rfl

/-- The pointers after one thread has got new ones. -/
theorem mem_update {mem : Thread → Option ThreadMem} {t t' : Thread} {m m' : ThreadMem}
    (h : Function.update mem t (some m) t' = some m') :
    (t' = t ∧ m' = m) ∨ (t' ≠ t ∧ mem t' = some m') := by
  by_cases ht : t' = t
  · subst ht
    rw [Function.update_self] at h
    exact Or.inl ⟨rfl, (Option.some.inj h).symm⟩
  · rw [Function.update_of_ne ht] at h
    exact Or.inr ⟨ht, h⟩

/-- **A construction keeps the invariant**: its number is new. -/
theorem Inv.construct {memSize : ℕ} {st : State Thread} (h : Inv memSize st) (t : Thread) :
    Inv memSize (construct memSize st t) := by
  refine ⟨fun u m hu => ?_, fun u v m n hu hv he => ?_, fun a ha => ?_, fun u m hu a ha he => ?_,
    h.sequential, h.opened, fun u m hu => ?_⟩
  · rcases mem_update hu with ⟨-, rfl⟩ | ⟨-, hu⟩
    · exact ⟨rfl, le_rfl, le_rfl⟩
    · obtain ⟨h₁, h₂, h₃⟩ := h.start u m hu
      exact ⟨h₁, h₂, h₃.trans (Nat.le_succ _)⟩
  · rcases mem_update hu with ⟨rfl, rfl⟩ | ⟨-, hu'⟩
    · rcases mem_update hv with ⟨rfl, -⟩ | ⟨-, hv'⟩
      · rfl
      · have hle := (h.start v n hv').2.2
        have he' : st.constructions + 1 = n.epoch := he
        omega
    · rcases mem_update hv with ⟨rfl, rfl⟩ | ⟨-, hv'⟩
      · have hle := (h.start u m hu').2.2
        have he' : m.epoch = st.constructions + 1 := he
        omega
      · exact h.distinct u v m n hu' hv' he
  · obtain ⟨h₁, h₂, h₃⟩ := h.inArena a ha
    exact ⟨h₁, h₂, h₃.trans (Nat.le_succ _)⟩
  · rcases mem_update hu with ⟨-, rfl⟩ | ⟨-, hu⟩
    · have hle := (h.inArena a ha).2.2
      have he' : a.epoch = st.constructions + 1 := he
      omega
    · exact h.behind u m hu a ha he
  · rcases mem_update hu with ⟨-, rfl⟩ | ⟨-, hu⟩
    · exact Or.inl rfl
    · exact h.opening u m hu

/-- What `leaf_alloc` does when it returns. -/
theorem leafAlloc_eq_some {memSize size : ℕ} {st st' : State Thread} {t : Thread}
    (h : leafAlloc memSize st t size = some st') :
    ∃ m, st.mem t = some m ∧ m.currMem + size < m.startMem + memSize
      ∧ st' = { st with
          mem := Function.update st.mem t (some { m with currMem := m.currMem + size })
          allocs := ⟨m.currMem, size, m.owner, m.epoch⟩ :: st.allocs } := by
  unfold leafAlloc at h
  cases hm : st.mem t with
  | none => rw [hm] at h; cases h
  | some m =>
    rw [hm] at h
    by_cases hfull : m.currMem + size ≥ m.startMem + memSize
    · simp only [if_pos hfull] at h
      cases h
    · simp only [if_neg hfull] at h
      cases h
      exact ⟨m, rfl, Nat.lt_of_not_le hfull, rfl⟩

/-- **An allocation keeps the invariant**: it goes behind everything its
construction has handed out. -/
theorem Inv.leafAlloc {memSize size : ℕ} {st st' : State Thread} {t : Thread}
    (h : Inv memSize st) (hstep : leafAlloc memSize st t size = some st') : Inv memSize st' := by
  obtain ⟨m, hm, hlt, rfl⟩ := leafAlloc_eq_some hstep
  obtain ⟨hstart, hle, hepoch⟩ := h.start t m hm
  -- a first range that is not empty opens the arena
  have hopen : 0 < size → ∃ b ∈ (⟨m.currMem, size, m.owner, m.epoch⟩ :: st.allocs : List Alloc),
      b.OpensArena memSize m.owner m.epoch := by
    intro hpos
    rcases h.opening t m hm with heq | ⟨b, hb, hopens⟩
    · exact ⟨_, List.mem_cons_self, rfl, rfl, heq.trans hstart, hpos⟩
    · exact ⟨b, List.mem_cons_of_mem _ hb, hopens⟩
  refine ⟨fun u n hu => ?_, fun u v n n' hu hv he => ?_, fun a ha => ?_,
    fun u n hu a ha he => ?_, ?_, fun a ha hpos => ?_, fun u n hu => ?_⟩
  · rcases mem_update hu with ⟨-, rfl⟩ | ⟨-, hu⟩
    · exact ⟨hstart, hle.trans (Nat.le_add_right _ _), hepoch⟩
    · exact h.start u n hu
  · rcases mem_update hu with ⟨rfl, rfl⟩ | ⟨-, hu'⟩
    · rcases mem_update hv with ⟨rfl, -⟩ | ⟨-, hv'⟩
      · rfl
      · exact h.distinct _ _ m n' hm hv' he
    · rcases mem_update hv with ⟨rfl, rfl⟩ | ⟨-, hv'⟩
      · exact h.distinct _ _ n m hu' hm he
      · exact h.distinct u v n n' hu' hv' he
  · rcases List.mem_cons.mp ha with rfl | ha
    · exact ⟨by rw [← hstart]; exact hle, by rw [← hstart]; exact hlt, hepoch⟩
    · exact h.inArena a ha
  · rcases List.mem_cons.mp ha with rfl | ha
    · rcases mem_update hu with ⟨-, rfl⟩ | ⟨hne, hu⟩
      · exact ⟨rfl, le_rfl⟩
      · exact absurd (h.distinct u t n m hu hm he.symm) hne
    · rcases mem_update hu with ⟨-, rfl⟩ | ⟨-, hu⟩
      · obtain ⟨h₁, h₂⟩ := h.behind t m hm a ha he
        exact ⟨h₁, h₂.trans (Nat.le_add_right _ _)⟩
      · exact h.behind u n hu a ha he
  · refine List.pairwise_cons.mpr ⟨fun b hb he x h₁ _ h₃ => ?_, h.sequential⟩
    have hbehind := (h.behind t m hm b hb he.symm).2
    have h₁' : m.currMem ≤ x := h₁
    omega
  · rcases List.mem_cons.mp ha with rfl | ha
    · exact hopen hpos
    · obtain ⟨b, hb, hopens⟩ := h.opened a ha hpos
      exact ⟨b, List.mem_cons_of_mem _ hb, hopens⟩
  · rcases mem_update hu with ⟨-, rfl⟩ | ⟨-, hu⟩
    · rcases Nat.eq_zero_or_pos size with rfl | hpos
      · rcases h.opening t m hm with heq | ⟨b, hb, hopens⟩
        · exact Or.inl heq
        · exact Or.inr ⟨b, List.mem_cons_of_mem _ hb, hopens⟩
      · exact Or.inr (hopen hpos)
    · rcases h.opening u n hu with heq | ⟨b, hb, hopens⟩
      · exact Or.inl heq
      · exact Or.inr ⟨b, List.mem_cons_of_mem _ hb, hopens⟩

/-- **The invariant holds after every interleaving.** -/
theorem inv_run {memSize : ℕ} {main : Thread} {events : List (Event Thread)} {st : State Thread}
    (hrun : run memSize (built main) events = some st) : Inv memSize st := by
  refine Machine.run_preserves _ ?_ (inv_built memSize main) hrun
  intro st e st' h hstep
  cases e with
  | construct t =>
    obtain rfl := Option.some.inj hstep
    exact h.construct t
  | destroy =>
    unfold step at hstep
    by_cases hz : st.curNumWorkers = 0
    · rw [if_pos hz] at hstep
      cases hstep
    · rw [if_neg hz] at hstep
      cases hstep
      exact ⟨h.start, h.distinct, h.inArena, h.behind, h.sequential, h.opened, h.opening⟩
  | leafAlloc t size => exact h.leafAlloc hstep

/-! ## Who allocates

Which worker an allocation is made for can be told from the events alone,
without an address. -/

/-- **An allocation without its address**: its size, the id it is made under and
the construction it is made after. -/
structure Label where
  size : ℕ
  owner : Option ℕ
  epoch : ℕ

/-- Two allocations, unless one is empty, are not made under one id after
different constructions. -/
def Label.SameWorker (a b : Label) : Prop :=
  0 < a.size → 0 < b.size → a.owner = b.owner → a.epoch = b.epoch

/-- A record of what has happened. -/
structure Ledger (Thread : Type) where
  workers : ℕ
  constructions : ℕ
  /-- The id and the construction a thread allocates for. -/
  holder : Thread → Option (Option ℕ × ℕ)
  labels : List Label

/-- Adding an event to the record. -/
def Ledger.record (l : Ledger Thread) : Event Thread → Ledger Thread
  | .construct t =>
      { l with
        workers := l.workers + 1
        constructions := l.constructions + 1
        holder := Function.update l.holder t (some (some l.workers, l.constructions + 1)) }
  | .destroy => { l with workers := l.workers - 1 }
  | .leafAlloc t size =>
      match l.holder t with
      | none => l
      | some (owner, epoch) => { l with labels := ⟨size, owner, epoch⟩ :: l.labels }

/-- **The record of a list of events**, of which the building thread has its
arena from the start. -/
def ledger (main : Thread) (events : List (Event Thread)) : Ledger Thread :=
  events.foldl Ledger.record
    { workers := 0
      constructions := 0
      holder := fun t => if t = main then some (none, 0) else none
      labels := [] }

/-- The label of a range. -/
def Alloc.label (a : Alloc) : Label := ⟨a.size, a.owner, a.epoch⟩

/-- The record a state amounts to. -/
def State.ledger (st : State Thread) : Ledger Thread where
  workers := st.curNumWorkers
  constructions := st.constructions
  holder t := (st.mem t).map (fun m => (m.owner, m.epoch))
  labels := st.allocs.map Alloc.label

theorem map_update_mem (mem : Thread → Option ThreadMem) (t : Thread) (m : ThreadMem) :
    (fun u => (Function.update mem t (some m) u).map (fun m => (m.owner, m.epoch)))
      = Function.update (fun u => (mem u).map (fun m => (m.owner, m.epoch))) t
          (some (m.owner, m.epoch)) := by
  funext u
  by_cases hu : u = t
  · subst hu
    rw [Function.update_self, Function.update_self]
    rfl
  · rw [Function.update_of_ne hu, Function.update_of_ne hu]

/-- A step of the process is a line of the record. -/
theorem ledger_step {memSize : ℕ} {st st' : State Thread} {e : Event Thread}
    (h : step memSize st e = some st') : st'.ledger = st.ledger.record e := by
  cases e with
  | construct t =>
    obtain rfl := Option.some.inj h
    show Ledger.mk _ _ (fun u => (Function.update st.mem t _ u).map _) _ = _
    rw [map_update_mem]
    rfl
  | destroy =>
    unfold step at h
    by_cases hz : st.curNumWorkers = 0
    · rw [if_pos hz] at h
      cases h
    · rw [if_neg hz] at h
      cases h
      rfl
  | leafAlloc t size =>
    obtain ⟨m, hm, -, rfl⟩ := leafAlloc_eq_some h
    have hholder : st.ledger.holder t = some (m.owner, m.epoch) := congrArg (Option.map _) hm
    show Ledger.mk _ _ (fun u => (Function.update st.mem t _ u).map _) _ = _
    rw [map_update_mem, Ledger.record, hholder]
    -- the pointer moved, but the arena is the same
    have hsame : Function.update (fun u => (st.mem u).map (fun m => (m.owner, m.epoch))) t
        (some (m.owner, m.epoch)) = st.ledger.holder := by
      rw [← hholder]
      exact Function.update_eq_self t st.ledger.holder
    rw [hsame]
    rfl

/-- **The record of the events is that of the state they lead to.** -/
theorem ledger_run {memSize : ℕ} {main : Thread} {events : List (Event Thread)}
    {st : State Thread} (hrun : run memSize (built main) events = some st) :
    st.ledger = ledger main events := by
  refine @Machine.run_inv _ _ _ (fun past st => st.ledger = ledger main past) ?_ [] _ _ _ ?_ hrun
  · intro past st e st' h hstep
    rw [ledger_step hstep, h, ledger, ledger, List.foldl_append]
    rfl
  · have hholder : (built main).ledger.holder
        = fun t => if t = main then some (none, 0) else none := by
      funext t
      show (if t = main then some (⟨0, 0, none, 0⟩ : ThreadMem) else none).map _ = _
      by_cases ht : t = main
      · rw [if_pos ht, if_pos ht]
        rfl
      · rw [if_neg ht, if_neg ht]
        rfl
    show Ledger.mk _ _ (built main).ledger.holder _ = _
    rw [hholder]
    rfl

/-! ## Live leaves -/

omit [DecidableEq Thread] in
/-- Ranges from different arenas are disjoint. -/
theorem Inv.disjoint_of_owner_ne {memSize : ℕ} {st : State Thread} (h : Inv memSize st)
    {a b : Alloc} (ha : a ∈ st.allocs) (hb : b ∈ st.allocs) (hne : a.owner ≠ b.owner) :
    a.Disjoint b := by
  obtain ⟨ha₁, ha₂, -⟩ := h.inArena a ha
  obtain ⟨hb₁, hb₂, -⟩ := h.inArena b hb
  intro x h₁ h₂ h₃
  have hcases := arenaStart_add_le memSize hne
  omega

omit [DecidableEq Thread] in
/-- Two constructions that both allocate under one id both hand out the first
byte of its arena. -/
theorem Inv.sameWorker {memSize : ℕ} {st : State Thread} (h : Inv memSize st)
    (hdis : st.allocs.Pairwise Alloc.Disjoint) {a b : Alloc} (ha : a ∈ st.allocs)
    (hb : b ∈ st.allocs) : a.label.SameWorker b.label := by
  intro hapos hbpos howner
  have howner' : a.owner = b.owner := howner
  by_contra hepoch
  obtain ⟨a', ha', hae, -, haddr, hasz⟩ := h.opened a ha hapos
  obtain ⟨b', hb', hbe, -, hbddr, hbsz⟩ := h.opened b hb hbpos
  have hne : a' ≠ b' := by
    intro he
    refine hepoch ?_
    show a.epoch = b.epoch
    rw [← hae, ← hbe, he]
  refine hdis.forall ha' hb' hne (arenaStart memSize a.owner) haddr.le (by omega) ⟨?_, ?_⟩
  · rw [hbddr, howner']
  · rw [hbddr, howner']
    omega

/-- **The ranges handed out are pairwise disjoint exactly when no two
constructions with the same id are both followed by an allocation.** -/
theorem allocs_disjoint_iff (maxDram workerThreadNum : ℕ) (main : Thread)
    (events : List (Event Thread)) (st : State Thread)
    (hrun : run (memPerThread maxDram workerThreadNum) (built main) events = some st) :
    st.allocs.Pairwise Alloc.Disjoint
      ↔ (ledger main events).labels.Pairwise Label.SameWorker := by
  have h := inv_run hrun
  rw [← ledger_run hrun]
  show _ ↔ (st.allocs.map Alloc.label).Pairwise Label.SameWorker
  rw [List.pairwise_map]
  constructor
  · intro hdis
    exact hdis.imp_of_mem (fun ha hb _ => h.sameWorker hdis ha hb)
  · intro hsame
    refine List.Pairwise.imp_of_mem ?_ (hsame.and h.sequential)
    rintro a b ha hb ⟨hworker, hseq⟩
    by_cases howner : a.owner = b.owner
    · rcases Nat.eq_zero_or_pos a.size with haz | hapos
      · intro x h₁ h₂
        omega
      rcases Nat.eq_zero_or_pos b.size with hbz | hbpos
      · intro x _ _ h₃
        omega
      · exact hseq (hworker hapos hbpos howner)
    · exact h.disjoint_of_owner_ne ha hb howner

/-- Two workers at one time, on two threads, get different arenas. -/
theorem allocs_disjoint_two_workers :
    ∃ st, run (memPerThread (256 * 2 ^ 30) 2) (built 0)
        [.construct 0, .construct 1, .leafAlloc 0 256, .leafAlloc 1 256] = some st
      ∧ st.allocs.Pairwise Alloc.Disjoint := by
  refine ⟨_, rfl, (allocs_disjoint_iff (256 * 2 ^ 30) 2 0
    [.construct 0, .construct 1, .leafAlloc 0 256, .leafAlloc 1 256] _ rfl).mpr ?_⟩
  refine List.pairwise_pair.mpr (fun _ _ h => ?_)
  cases h

/-- Two workers one after the other get the same arena, and the same leaf. -/
theorem second_worker_reuses_leaf :
    ∃ st, run (memPerThread (256 * 2 ^ 30) 1) (built 0)
        [.construct 0, .leafAlloc 0 256, .destroy, .construct 0, .leafAlloc 0 256] = some st
      ∧ ¬ st.allocs.Pairwise Alloc.Disjoint := by
  refine ⟨_, rfl, fun h => ?_⟩
  exact List.pairwise_pair.mp h (256 * 2 ^ 30) le_rfl (by decide) ⟨le_rfl, by decide⟩

/-! ## The partition of the block

The block has `max_dram` bytes and is cut into one arena more than it is divided
by. -/

/-- The arenas of a database with `workerThreadNum` workers. -/
def IsOwner (workerThreadNum : ℕ) : Option ℕ → Prop
  | none => True
  | some id => id < workerThreadNum

/-- The bytes of an arena. -/
def arena (memSize : ℕ) (o : Option ℕ) : Set ℕ :=
  Set.Ico (arenaStart memSize o) (arenaStart memSize o + memSize)

/-- The bytes of a range. -/
def Alloc.bytes (a : Alloc) : Set ℕ := Set.Ico a.addr (a.addr + a.size)

/-- **A sound partition**: the arenas are not empty, pairwise disjoint and inside
the block. -/
structure SoundPartition (maxDram workerThreadNum memSize : ℕ) : Prop where
  nonempty : ∀ o, IsOwner workerThreadNum o → (arena memSize o).Nonempty
  disjoint : ∀ o o', IsOwner workerThreadNum o → IsOwner workerThreadNum o' → o ≠ o' →
    Disjoint (arena memSize o) (arena memSize o')
  inBlock : ∀ o, IsOwner workerThreadNum o → arena memSize o ⊆ Set.Ico 0 maxDram

/-- **Safe allocations**: whatever was handed out for one of the arenas lies in
the block and in no other arena. -/
def SafeAllocs (maxDram workerThreadNum memSize : ℕ) (st : State Thread) : Prop :=
  ∀ a ∈ st.allocs, IsOwner workerThreadNum a.owner →
    a.bytes ⊆ Set.Ico 0 maxDram
      ∧ ∀ o, IsOwner workerThreadNum o → o ≠ a.owner → Disjoint a.bytes (arena memSize o)

omit [DecidableEq Thread] in
/-- A range that passed the check of `leaf_alloc` lies in its arena. -/
theorem Inv.bytes_subset_arena {memSize : ℕ} {st : State Thread} (h : Inv memSize st) {a : Alloc}
    (ha : a ∈ st.allocs) : a.bytes ⊆ arena memSize a.owner := by
  obtain ⟨hstart, hend, -⟩ := h.inArena a ha
  exact Set.Ico_subset_Ico hstart hend.le

/-- **In a sound partition every run allocates safely.** -/
theorem SoundPartition.safeAllocs {maxDram workerThreadNum memSize : ℕ}
    (h : SoundPartition maxDram workerThreadNum memSize) {main : Thread}
    {events : List (Event Thread)} {st : State Thread}
    (hrun : run memSize (built main) events = some st) :
    SafeAllocs maxDram workerThreadNum memSize st := by
  intro a ha howner
  have hbytes := (inv_run hrun).bytes_subset_arena ha
  refine ⟨hbytes.trans (h.inBlock a.owner howner), fun o ho hne => ?_⟩
  exact (h.disjoint a.owner o howner ho hne.symm).mono_left hbytes

/-- Arenas of different owners are disjoint, whether or not the block holds
them. -/
theorem disjoint_arena (memSize : ℕ) {o o' : Option ℕ} (h : o ≠ o') :
    Disjoint (arena memSize o) (arena memSize o') := by
  rw [Set.disjoint_left]
  rintro x ⟨h₁, h₂⟩ ⟨h₃, h₄⟩
  rcases arenaStart_add_le memSize h with hle | hle
  · omega
  · omega

/-- All arenas together are one share more than there are workers. -/
theorem arenaStart_add_le_of_isOwner {workerThreadNum memSize : ℕ} {o : Option ℕ}
    (h : IsOwner workerThreadNum o) :
    arenaStart memSize o + memSize ≤ (workerThreadNum + 1) * memSize := by
  cases o with
  | none =>
    show 0 + memSize ≤ _
    rw [Nat.zero_add]
    exact Nat.le_mul_of_pos_left _ (Nat.succ_pos _)
  | some id =>
    have hid : id + 1 ≤ workerThreadNum := h
    have hle := Nat.mul_le_mul_right memSize (Nat.succ_le_succ hid)
    show memSize + id * memSize + memSize ≤ _
    calc memSize + id * memSize + memSize = (id + 1 + 1) * memSize := by
          rw [Nat.succ_mul, Nat.succ_mul, Nat.add_comm memSize]
      _ ≤ (workerThreadNum + 1) * memSize := hle

/-- A partition into arenas of one size is sound exactly when the size is not
zero and one share more than there are workers fits. -/
theorem soundPartition_iff_fits {maxDram workerThreadNum memSize : ℕ}
    (hT : 1 ≤ workerThreadNum) :
    SoundPartition maxDram workerThreadNum memSize
      ↔ 0 < memSize ∧ (workerThreadNum + 1) * memSize ≤ maxDram := by
  constructor
  · intro h
    have hpos : 0 < memSize := by
      obtain ⟨x, h₁, h₂⟩ := h.nonempty none trivial
      omega
    refine ⟨hpos, ?_⟩
    -- the last byte of the last worker's arena
    obtain ⟨n, rfl⟩ := Nat.exists_eq_add_of_le hT
    have hlast : (1 + n + 1) * memSize - 1 ∈ arena memSize (some n) := by
      have hend : (1 + n + 1) * memSize = memSize + n * memSize + memSize := by
        rw [Nat.succ_mul, Nat.add_mul, Nat.one_mul]
      constructor
      · show memSize + n * memSize ≤ _
        omega
      · show _ < memSize + n * memSize + memSize
        omega
    have hblock := h.inBlock (some n) (show n < 1 + n by omega) hlast
    have hlt : (1 + n + 1) * memSize - 1 < maxDram := hblock.2
    omega
  · rintro ⟨hpos, hfits⟩
    refine ⟨fun o _ => ⟨arenaStart memSize o, le_rfl, Nat.lt_add_of_pos_right hpos⟩,
      fun o o' _ _ hne => disjoint_arena memSize hne, fun o ho => ?_⟩
    exact Set.Ico_subset_Ico (Nat.zero_le _) ((arenaStart_add_le_of_isOwner ho).trans hfits)

/-- The share is an even share of the block's gigabytes. -/
theorem memPerThread_eq (maxDram workerThreadNum : ℕ) :
    memPerThread maxDram workerThreadNum = maxDram / 2 ^ 30 / workerThreadNum * 2 ^ 30 := by
  rw [memPerThread, Nat.div_div_eq_div_mul, Nat.div_div_eq_div_mul, Nat.mul_comm workerThreadNum]

/-- One share more fits exactly when what the division left over is a share. -/
theorem shares_fit_iff {maxDram workerThreadNum : ℕ} :
    (workerThreadNum + 1) * memPerThread maxDram workerThreadNum ≤ maxDram
      ↔ maxDram / 2 ^ 30 / workerThreadNum ≤ maxDram / 2 ^ 30 % workerThreadNum := by
  rw [memPerThread_eq, ← Nat.mul_assoc, ← Nat.le_div_iff_mul_le (by decide)]
  have hdiv := Nat.mod_add_div (maxDram / 2 ^ 30) workerThreadNum
  rw [Nat.succ_mul]
  omega

/-- **The partition of the block is sound, and all allocations are safe, exactly
when each worker's share of the gigabytes is at least one and at most the
remainder of the division.** The block is divided by the number of workers, and
then a share for the building thread is taken as well. -/
theorem partition_sound_iff (maxDram : ℕ) {workerThreadNum : ℕ} (hT : 1 ≤ workerThreadNum) :
    (SoundPartition maxDram workerThreadNum (memPerThread maxDram workerThreadNum)
        ∧ ∀ (main : Thread) (events : List (Event Thread)) (st : State Thread),
          run (memPerThread maxDram workerThreadNum) (built main) events = some st →
          SafeAllocs maxDram workerThreadNum (memPerThread maxDram workerThreadNum) st)
      ↔ 1 ≤ maxDram / 2 ^ 30 / workerThreadNum
        ∧ maxDram / 2 ^ 30 / workerThreadNum ≤ maxDram / 2 ^ 30 % workerThreadNum := by
  rw [and_iff_left_of_imp (fun h main events st => h.safeAllocs), soundPartition_iff_fits hT,
    shares_fit_iff, memPerThread_eq, Nat.mul_pos_iff_of_pos_right (by decide)]
  rfl

/-- Sixty workers get four gigabytes each, and of the sixteen that are left the
building thread takes four. -/
theorem partition_sound_sixty :
    1 ≤ 60 ∧ SoundPartition (256 * 2 ^ 30) 60 (memPerThread (256 * 2 ^ 30) 60) :=
  ⟨by decide, (@partition_sound_iff ℕ _ (256 * 2 ^ 30) 60 (by decide)).mpr (by decide) |>.1⟩

/-- A single worker gets all of the block, and so does the building thread before
it: the first leaf of the worker lies behind the block. -/
theorem single_worker_outside :
    ¬ (SoundPartition (256 * 2 ^ 30) 1 (memPerThread (256 * 2 ^ 30) 1)
        ∧ ∀ (main : ℕ) (events : List (Event ℕ)) (st : State ℕ),
          run (memPerThread (256 * 2 ^ 30) 1) (built main) events = some st →
          SafeAllocs (256 * 2 ^ 30) 1 (memPerThread (256 * 2 ^ 30) 1) st)
      ∧ ∃ st, run (memPerThread (256 * 2 ^ 30) 1) (built 0) [.construct 0, .leafAlloc 0 256]
          = some st
        ∧ ∃ a ∈ st.allocs, IsOwner 1 a.owner ∧ ¬ a.bytes ⊆ Set.Ico 0 (256 * 2 ^ 30) := by
  refine ⟨?_, _, rfl, ⟨256 * 2 ^ 30, 256, some 0, 1⟩, List.mem_cons_self, Nat.one_pos, ?_⟩
  · rintro ⟨hsound, -⟩
    have h : 256 * 2 ^ 30 ∈ arena (memPerThread (256 * 2 ^ 30) 1) (some 0) := by
      constructor
      · decide
      · decide
    exact absurd (hsound.inBlock (some 0) Nat.one_pos h).2 (lt_irrefl _)
  · intro h
    exact absurd (h ⟨le_rfl, by decide⟩).2 (lt_irrefl _)

end NBTree
