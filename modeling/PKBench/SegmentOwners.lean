import PKBench.Conservation
import PKBench.Machine
import Mathlib.Logic.Function.Basic
import Mathlib.Algebra.Order.Group.Nat

/-!
# Who owns a segment

In normal operation the segments of the pool go round: from the queue of free
ones to a worker, from there to the closed segments of a cleaner, to its list of
segments to compact, through `CompactSegment`, and back to the queue or to the
cleaner, which keeps one to append to and one in reserve.

The machine has a step for each section under a lock and for each assignment
that makes a segment change hands. In between a segment is with the operation that
took it, which is a place of its own. While a worker is in `MakeKVItem` its
`log_head_` is a variable of that operation, and may still have the address of a
segment that is closed and on a list; the same is true of a cleaner's
`reserved_segment_` during `FreezeReservedAndGetNew`. Neither is a place then.

Whether an append finds room, which segment is picked and how often a compaction
needs a new segment to append to is left open: whatever happens, every segment is
in one place (`existsUnique_place`).
-/

namespace SegmentOwners

/-- Where a worker is. -/
inductive WorkerPhase where
  /-- Not constructed, or destroyed. -/
  | absent
  | ready
  /-- In `MakeKVItem`, before `Append`. -/
  | making
  /-- In `FreezeSegment`, between `Close` and `AddClosedSegment`. -/
  | closing
  /-- In `NewSegment`. -/
  | asking
  /-- Behind the lock of `NewSegment`, with a segment. -/
  | starting (s : ℕ)
  /-- In `FreezeSegment` of the destructor. -/
  | leaving
  deriving DecidableEq

/-- Where a cleaner is, and the segment it compacts. -/
inductive CleanerPhase where
  | idle
  /-- In `DoMemoryClean`, behind the lock. -/
  | picking
  | compacting (v : ℕ)
  /-- In `FreezeReservedAndGetNew`, between `Close` and `AddClosedSegment`. -/
  | freezing (v : ℕ)
  /-- There, before the segment in reserve is taken. -/
  | refilling (v : ℕ)
  /-- There, before `backup_segment_` is set to null. -/
  | refilled (v : ℕ)
  /-- Behind `Clear`. -/
  | cleared (v : ℕ)
  deriving DecidableEq

/-- A worker, with its `log_head_`. -/
structure Worker where
  phase : WorkerPhase := WorkerPhase.absent
  logHead : Option ℕ := none

/-- A cleaner, with its `reserved_segment_` and its `backup_segment_`. -/
structure Cleaner where
  phase : CleanerPhase := CleanerPhase.idle
  reserved : Option ℕ
  backup : Option ℕ := none

/-- **The state of the log's queue and lists, the workers and the cleaners.** -/
structure Sys where
  freeSegments : List ℕ
  numFreeSegments : ℤ
  /-- The closed segments of each cleaner. -/
  closedSegments : ℕ → List ℕ := fun _ => []
  toCompactSegments : ℕ → List ℕ := fun _ => []
  worker : ℕ → Worker := fun _ => {}
  cleaner : ℕ → Cleaner

/-- `LogStructured::LogStructured`: the last segments go to the cleaners. -/
def Sys.init (numSegments numCleaners : ℕ) : Sys where
  freeSegments := List.range (numSegments - numCleaners)
  numFreeSegments := numSegments - numCleaners
  cleaner c :=
    { reserved := if c < numCleaners then some (numSegments - numCleaners + c) else none }

/-! ## Steps -/

/-- The steps of the workers and the cleaners. -/
inductive Event where
  /-- `Worker::Worker`. -/
  | construct (w : ℕ)
  /-- A `Put` comes to `MakeKVItem`. -/
  | put (w : ℕ)
  /-- `Append` has succeeded. -/
  | appended (w : ℕ)
  /-- `Append` has failed, and the segment is closed. -/
  | full (w : ℕ)
  /-- The worker has no segment. -/
  | missing (w : ℕ)
  /-- `AddClosedSegment`, for `MakeKVItem`. -/
  | addClosed (w : ℕ)
  /-- `NewSegment`, under the lock. -/
  | take (w : ℕ)
  /-- The segment is put into use and becomes the worker's. -/
  | start (w : ℕ)
  /-- `Worker::~Worker`, which closes the segment. -/
  | destroy (w : ℕ)
  /-- `AddClosedSegment`, for the destructor, and the end of it. -/
  | leave (w : ℕ)
  /-- `DoMemoryClean`, under the lock. -/
  | splice (c : ℕ)
  /-- `DoMemoryClean` has picked a segment. -/
  | pick (c v : ℕ)
  /-- `DoMemoryClean` has found none. -/
  | giveUp (c : ℕ)
  /-- `FreezeReservedAndGetNew` closes the segment. -/
  | freezeReserved (c : ℕ)
  /-- `AddClosedSegment`, for `FreezeReservedAndGetNew`. -/
  | addReserved (c : ℕ)
  /-- The segment in reserve becomes the one to append to. -/
  | refill (c : ℕ)
  /-- There is none in reserve any more. -/
  | release (c : ℕ)
  /-- `Clear`, behind the barrier. -/
  | clear (c : ℕ)
  /-- The end of `CompactSegment`. -/
  | giveBack (c : ℕ)

section Steps

variable (numCleaners : ℕ)

/-- A worker goes on. -/
def Sys.setWorker (σ : Sys) (w : ℕ) (x : Worker) : Sys :=
  { σ with worker := Function.update σ.worker w x }

/-- A cleaner goes on. -/
def Sys.setCleaner (σ : Sys) (c : ℕ) (x : Cleaner) : Sys :=
  { σ with cleaner := Function.update σ.cleaner c x }

/-- `AddClosedSegment`, under the lock of the cleaner's list. -/
def Sys.addClosedSegment (σ : Sys) (s : ℕ) : Sys :=
  { σ with
    closedSegments := Function.update σ.closedSegments (s % numCleaners)
      (σ.closedSegments (s % numCleaners) ++ [s]) }

/-- **One step.** A cleaner in `FreezeReservedAndGetNew` asserts that there is a
segment in reserve. -/
def step (σ : Sys) : Event → Option Sys
  | .construct w =>
      match σ.worker w with
      | ⟨.absent, _⟩ => some (σ.setWorker w ⟨.ready, none⟩)
      | _ => none
  | .put w =>
      match σ.worker w with
      | ⟨.ready, head⟩ => some (σ.setWorker w ⟨.making, head⟩)
      | _ => none
  | .appended w =>
      match σ.worker w with
      | ⟨.making, some s⟩ => some (σ.setWorker w ⟨.ready, some s⟩)
      | _ => none
  | .full w =>
      match σ.worker w with
      | ⟨.making, some s⟩ => some (σ.setWorker w ⟨.closing, some s⟩)
      | _ => none
  | .missing w =>
      match σ.worker w with
      | ⟨.making, none⟩ => some (σ.setWorker w ⟨.asking, none⟩)
      | _ => none
  | .addClosed w =>
      match σ.worker w with
      | ⟨.closing, some s⟩ =>
          some ((σ.addClosedSegment numCleaners s).setWorker w ⟨.asking, some s⟩)
      | _ => none
  | .take w =>
      match σ.worker w, σ.freeSegments with
      | ⟨.asking, head⟩, s :: rest =>
          some { σ.setWorker w ⟨.starting s, head⟩ with
            freeSegments := rest
            numFreeSegments := σ.numFreeSegments - 1 }
      | _, _ => none
  | .start w =>
      match σ.worker w with
      | ⟨.starting s, _⟩ => some (σ.setWorker w ⟨.making, some s⟩)
      | _ => none
  | .destroy w =>
      match σ.worker w with
      | ⟨.ready, some s⟩ => some (σ.setWorker w ⟨.leaving, some s⟩)
      | ⟨.ready, none⟩ => some (σ.setWorker w ⟨.absent, none⟩)
      | _ => none
  | .leave w =>
      match σ.worker w with
      | ⟨.leaving, some s⟩ =>
          some ((σ.addClosedSegment numCleaners s).setWorker w ⟨.absent, none⟩)
      | _ => none
  | .splice c =>
      match σ.cleaner c with
      | ⟨.idle, r, b⟩ =>
          if c < numCleaners then
            some { σ.setCleaner c ⟨.picking, r, b⟩ with
              toCompactSegments := Function.update σ.toCompactSegments c
                (σ.toCompactSegments c ++ σ.closedSegments c)
              closedSegments := Function.update σ.closedSegments c [] }
          else none
      | _ => none
  | .pick c v =>
      match σ.cleaner c with
      | ⟨.picking, r, b⟩ =>
          if v ∈ σ.toCompactSegments c then
            some { σ.setCleaner c ⟨.compacting v, r, b⟩ with
              toCompactSegments := Function.update σ.toCompactSegments c
                ((σ.toCompactSegments c).erase v) }
          else none
      | _ => none
  | .giveUp c =>
      match σ.cleaner c with
      | ⟨.picking, r, b⟩ => some (σ.setCleaner c ⟨.idle, r, b⟩)
      | _ => none
  | .freezeReserved c =>
      match σ.cleaner c with
      | ⟨.compacting v, some s, some b⟩ => some (σ.setCleaner c ⟨.freezing v, some s, some b⟩)
      | ⟨.compacting v, none, some b⟩ => some (σ.setCleaner c ⟨.refilling v, none, some b⟩)
      | _ => none
  | .addReserved c =>
      match σ.cleaner c with
      | ⟨.freezing v, some s, b⟩ =>
          some ((σ.addClosedSegment numCleaners s).setCleaner c ⟨.refilling v, some s, b⟩)
      | _ => none
  | .refill c =>
      match σ.cleaner c with
      | ⟨.refilling v, _, b⟩ => some (σ.setCleaner c ⟨.refilled v, b, b⟩)
      | _ => none
  | .release c =>
      match σ.cleaner c with
      | ⟨.refilled v, r, _⟩ => some (σ.setCleaner c ⟨.compacting v, r, none⟩)
      | _ => none
  | .clear c =>
      match σ.cleaner c with
      | ⟨.compacting v, r, b⟩ => some (σ.setCleaner c ⟨.cleared v, r, b⟩)
      | _ => none
  | .giveBack c =>
      match σ.cleaner c with
      | ⟨.cleared v, r, none⟩ => some (σ.setCleaner c ⟨.idle, r, some v⟩)
      | ⟨.cleared v, r, some b⟩ =>
          some { σ.setCleaner c ⟨.idle, r, some b⟩ with
            freeSegments := σ.freeSegments ++ [v]
            numFreeSegments := σ.numFreeSegments + 1 }
      | _ => none

end Steps

/-! ## Places -/

/-- What a worker may have: its head, or what an operation of it has in hand. -/
inductive WorkerPlace where
  | head
  | makeKVItem
  | destructor
  deriving DecidableEq

/-- What a cleaner may have: its two segments, or what an operation of it has in
hand. -/
inductive CleanerPlace where
  | reserved
  | backup
  | compactSegment
  | freezeReserved
  deriving DecidableEq

/-- **The places of a segment.** -/
inductive Place where
  | free
  | closed (c : ℕ)
  | toCompact (c : ℕ)
  | worker (w : ℕ) (q : WorkerPlace)
  | cleaner (c : ℕ) (q : CleanerPlace)
  deriving DecidableEq

/-- What a worker has. In an operation its head is the operation's. -/
def Worker.content : Worker → WorkerPlace → List ℕ
  | ⟨.ready, head⟩, .head => head.toList
  | ⟨.making, head⟩, .makeKVItem => head.toList
  | ⟨.closing, head⟩, .makeKVItem => head.toList
  | ⟨.starting s, _⟩, .makeKVItem => [s]
  | ⟨.leaving, head⟩, .destructor => head.toList
  | _, _ => []

/-- The segment a cleaner compacts. -/
def CleanerPhase.victim : CleanerPhase → Option ℕ
  | .idle => none
  | .picking => none
  | .compacting v => some v
  | .freezing v => some v
  | .refilling v => some v
  | .refilled v => some v
  | .cleared v => some v

/-- What a cleaner has. In `FreezeReservedAndGetNew` its segment to append to is the
operation's, until it is on a list. -/
def Cleaner.content : Cleaner → CleanerPlace → List ℕ
  | ⟨_, _, b⟩, .backup => b.toList
  | ⟨phase, _, _⟩, .compactSegment => phase.victim.toList
  | ⟨.freezing _, r, _⟩, .freezeReserved => r.toList
  | ⟨.freezing _, _, _⟩, .reserved => []
  | ⟨.refilling _, _, _⟩, .reserved => []
  | ⟨.refilled _, _, _⟩, .reserved => []
  | ⟨_, r, _⟩, .reserved => r.toList
  | _, .freezeReserved => []

/-- **What is in a place.** -/
def Sys.content (σ : Sys) : Place → List ℕ
  | .free => σ.freeSegments
  | .closed c => σ.closedSegments c
  | .toCompact c => σ.toCompactSegments c
  | .worker w q => (σ.worker w).content q
  | .cleaner c q => (σ.cleaner c).content q

/-- **The invariant.** For an instant both segments of a cleaner are the same. -/
structure Inv (numSegments : ℕ) (σ : Sys) : Prop where
  conserved : Conserved σ.content (fun s => s < numSegments)
  numFree : σ.numFreeSegments = σ.freeSegments.length
  refilled : ∀ c v r b, σ.cleaner c = ⟨.refilled v, r, b⟩ → r = b

theorem apply_update {α β : Type} {f : ℕ → α} {g : α → β} {i j : ℕ} {x : α}
    (h : j = i → g x = g (f i)) : g (Function.update f i x j) = g (f j) := by
  by_cases hj : j = i
  · subst hj
    rw [Function.update_self]
    exact h rfl
  · rw [Function.update_of_ne hj]

/-- Both segments of a cleaner that goes on are the same where they have to be. -/
theorem refilled_update {cleaner : ℕ → Cleaner} {c : ℕ} {x : Cleaner}
    (h : ∀ c v r b, cleaner c = ⟨.refilled v, r, b⟩ → r = b)
    (hx : ∀ v r b, x = ⟨.refilled v, r, b⟩ → r = b) (i v : ℕ) (r b : Option ℕ)
    (hi : Function.update cleaner c x i = ⟨.refilled v, r, b⟩) : r = b := by
  by_cases hc : i = c
  · subst hc
    rw [Function.update_self] at hi
    exact hx v r b hi
  · rw [Function.update_of_ne hc] at hi
    exact h i v r b hi

namespace Inv

variable {n k : ℕ} {σ σ' : Sys}

/-! ### Rules for one worker or one cleaner -/

/-- A worker goes on with what it has. -/
theorem worker_stay (h : Inv n σ) {w : ℕ} {x : Worker}
    (hx : ∀ q, x.content q = (σ.worker w).content q) : Inv n (σ.setWorker w x) := by
  refine ⟨h.conserved.congr fun p => ?_, h.numFree, h.refilled⟩
  cases p with
  | worker u q => exact apply_update (g := fun x => Worker.content x q) fun _ => hx q
  | free => rfl
  | closed c => rfl
  | toCompact c => rfl
  | cleaner c q => rfl

/-- A worker goes on, and what it has goes into other hands. -/
theorem worker_move (h : Inv n σ) {w : ℕ} {x : Worker} (src dest : WorkerPlace)
    (hne : src ≠ dest) (hsrc : x.content src = []) (hempty : (σ.worker w).content dest = [])
    (hdest : x.content dest = (σ.worker w).content src)
    (hother : ∀ q, q ≠ src → q ≠ dest → x.content q = (σ.worker w).content q) :
    Inv n (σ.setWorker w x) := by
  have hself : ∀ q, (σ.setWorker w x).content (.worker w q) = x.content q :=
    fun q => congrArg (fun x => Worker.content x q) (Function.update_self _ _ _)
  refine ⟨h.conserved.transfer (.worker w src) (.worker w dest) ((σ.worker w).content src)
    (fun he => hne (Place.worker.inj he).2) ?_ ?_ ?_, h.numFree,
    h.refilled⟩
  · rw [hself, hsrc, List.append_nil]
    rfl
  · rw [hself, hdest]
    show List.Perm _ (_ ++ Worker.content _ dest)
    rw [hempty, List.append_nil]
  · intro p hp hp'
    cases p with
    | worker u q =>
      refine apply_update (g := fun x => Worker.content x q) fun hu => ?_
      subst hu
      exact hother q (fun he => hp (he ▸ rfl)) (fun he => hp' (he ▸ rfl))
    | free => rfl
    | closed c => rfl
    | toCompact c => rfl
    | cleaner c q => rfl

/-- A cleaner goes on with what it has. -/
theorem cleaner_stay (h : Inv n σ) {c : ℕ} {x : Cleaner}
    (hx : ∀ q, x.content q = (σ.cleaner c).content q)
    (hrefilled : ∀ v r b, x = ⟨.refilled v, r, b⟩ → r = b) : Inv n (σ.setCleaner c x) := by
  refine ⟨h.conserved.congr fun p => ?_, h.numFree, refilled_update h.refilled hrefilled⟩
  cases p with
  | cleaner i q => exact apply_update (g := fun x => Cleaner.content x q) fun _ => hx q
  | free => rfl
  | closed c => rfl
  | toCompact c => rfl
  | worker w q => rfl

/-- A cleaner goes on, and what it has goes into other hands. -/
theorem cleaner_move (h : Inv n σ) {c : ℕ} {x : Cleaner} (src dest : CleanerPlace)
    (hne : src ≠ dest) (hsrc : x.content src = []) (hempty : (σ.cleaner c).content dest = [])
    (hdest : x.content dest = (σ.cleaner c).content src)
    (hother : ∀ q, q ≠ src → q ≠ dest → x.content q = (σ.cleaner c).content q)
    (hrefilled : ∀ v r b, x = ⟨.refilled v, r, b⟩ → r = b) : Inv n (σ.setCleaner c x) := by
  have hself : ∀ q, (σ.setCleaner c x).content (.cleaner c q) = x.content q :=
    fun q => congrArg (fun x => Cleaner.content x q) (Function.update_self _ _ _)
  refine ⟨h.conserved.transfer (.cleaner c src) (.cleaner c dest) ((σ.cleaner c).content src)
    (fun he => hne (Place.cleaner.inj he).2) ?_ ?_ ?_, h.numFree,
    refilled_update h.refilled hrefilled⟩
  · rw [hself, hsrc, List.append_nil]
    rfl
  · rw [hself, hdest]
    show List.Perm _ (_ ++ Cleaner.content _ dest)
    rw [hempty, List.append_nil]
  · intro p hp hp'
    cases p with
    | cleaner i q =>
      refine apply_update (g := fun x => Cleaner.content x q) fun hi => ?_
      subst hi
      exact hother q (fun he => hp (he ▸ rfl)) (fun he => hp' (he ▸ rfl))
    | free => rfl
    | closed c => rfl
    | toCompact c => rfl
    | worker w q => rfl

/-- A segment leaves a worker or a cleaner for the list of closed segments. -/
theorem content_addClosedSegment_closed (σ : Sys) (s : ℕ) :
    (σ.addClosedSegment k s).content (.closed (s % k))
      = σ.content (.closed (s % k)) ++ [s] :=
  Function.update_self _ _ _

/-! ### Steps of a worker -/

theorem construct (h : Inv n σ) {w : ℕ} (hs : step k σ (.construct w) = some σ') : Inv n σ' := by
  simp only [step] at hs
  split at hs
  case h_1 head hw =>
    obtain rfl := Option.some.inj hs
    exact h.worker_stay fun q => by rw [hw]; cases q <;> rfl
  case h_2 => cases hs

theorem put (h : Inv n σ) {w : ℕ} (hs : step k σ (.put w) = some σ') : Inv n σ' := by
  simp only [step] at hs
  split at hs
  case h_1 head hw =>
    obtain rfl := Option.some.inj hs
    refine h.worker_move .head .makeKVItem (by decide) rfl ?_ ?_ fun q hq hq' => ?_
    · rw [hw]; rfl
    · rw [hw]; rfl
    · rw [hw]; cases q <;> first | rfl | contradiction
  case h_2 => cases hs

theorem appended (h : Inv n σ) {w : ℕ} (hs : step k σ (.appended w) = some σ') : Inv n σ' := by
  simp only [step] at hs
  split at hs
  case h_1 s hw =>
    obtain rfl := Option.some.inj hs
    refine h.worker_move .makeKVItem .head (by decide) rfl ?_ ?_ fun q hq hq' => ?_
    · rw [hw]; rfl
    · rw [hw]; rfl
    · rw [hw]; cases q <;> first | rfl | contradiction
  case h_2 => cases hs

theorem full (h : Inv n σ) {w : ℕ} (hs : step k σ (.full w) = some σ') : Inv n σ' := by
  simp only [step] at hs
  split at hs
  case h_1 s hw =>
    obtain rfl := Option.some.inj hs
    exact h.worker_stay fun q => by rw [hw]; cases q <;> rfl
  case h_2 => cases hs

theorem missing (h : Inv n σ) {w : ℕ} (hs : step k σ (.missing w) = some σ') : Inv n σ' := by
  simp only [step] at hs
  split at hs
  case h_1 hw =>
    obtain rfl := Option.some.inj hs
    exact h.worker_stay fun q => by rw [hw]; cases q <;> rfl
  case h_2 => cases hs

/-- An operation of a worker puts the segment in its hands on the list of a
cleaner. -/
theorem worker_addClosed (h : Inv n σ) {w s : ℕ} {x : Worker} (src : WorkerPlace)
    (hsrc : (σ.worker w).content src = [s]) (hx : ∀ q, x.content q = [])
    (hother : ∀ q, q ≠ src → (σ.worker w).content q = []) :
    Inv n ((σ.addClosedSegment k s).setWorker w x) := by
  refine ⟨h.conserved.transfer (.worker w src) (.closed (s % k)) [s] Place.noConfusion ?_ ?_
    fun p hp hp' => ?_, h.numFree, h.refilled⟩
  · show List.Perm ((σ.worker w).content src)
      ([s] ++ Worker.content (Function.update σ.worker w x w) src)
    rw [hsrc, Function.update_self, hx, List.append_nil]
  · exact (List.Perm.of_eq (content_addClosedSegment_closed σ s)).trans List.perm_append_comm
  · cases p with
    | worker u q =>
      refine apply_update (g := fun x => Worker.content x q) fun hu => ?_
      subst hu
      exact (hx q).trans (hother q fun he => hp (he ▸ rfl)).symm
    | closed i =>
      have hi : i ≠ s % k := fun he => hp' (congrArg Place.closed he)
      exact Function.update_of_ne hi _ _
    | free => rfl
    | toCompact c => rfl
    | cleaner c q => rfl

theorem addClosed (h : Inv n σ) {w : ℕ} (hs : step k σ (.addClosed w) = some σ') : Inv n σ' := by
  simp only [step] at hs
  split at hs
  case h_1 s hw =>
    obtain rfl := Option.some.inj hs
    refine h.worker_addClosed .makeKVItem ?_ (fun q => by cases q <;> rfl) fun q hq => ?_
    · rw [hw]; rfl
    · rw [hw]; cases q <;> first | rfl | contradiction
  case h_2 => cases hs

theorem leave (h : Inv n σ) {w : ℕ} (hs : step k σ (.leave w) = some σ') : Inv n σ' := by
  simp only [step] at hs
  split at hs
  case h_1 s hw =>
    obtain rfl := Option.some.inj hs
    refine h.worker_addClosed .destructor ?_ (fun q => by cases q <;> rfl) fun q hq => ?_
    · rw [hw]; rfl
    · rw [hw]; cases q <;> first | rfl | contradiction
  case h_2 => cases hs

theorem take (h : Inv n σ) {w : ℕ} (hs : step k σ (.take w) = some σ') : Inv n σ' := by
  simp only [step] at hs
  split at hs
  case h_1 head s rest hw hfree =>
    obtain rfl := Option.some.inj hs
    refine ⟨h.conserved.transfer .free (.worker w .makeKVItem) [s] Place.noConfusion ?_ ?_
      fun p hp hp' => ?_, ?_, h.refilled⟩
    · exact List.Perm.of_eq hfree
    · show List.Perm (Worker.content (Function.update σ.worker w ⟨.starting s, head⟩ w)
        .makeKVItem) ([s] ++ (σ.worker w).content .makeKVItem)
      rw [Function.update_self, hw]
      rfl
    · cases p with
      | worker u q =>
        refine apply_update (g := fun x => Worker.content x q) fun hu => ?_
        subst hu
        rw [hw]
        cases q <;> first | rfl | contradiction
      | free => exact absurd rfl hp
      | closed c => rfl
      | toCompact c => rfl
      | cleaner c q => rfl
    · show σ.numFreeSegments - 1 = rest.length
      rw [h.numFree, hfree, List.length_cons]
      push_cast
      exact Int.add_sub_cancel _ _
  case h_2 => cases hs

theorem start (h : Inv n σ) {w : ℕ} (hs : step k σ (.start w) = some σ') : Inv n σ' := by
  simp only [step] at hs
  split at hs
  case h_1 s head hw =>
    obtain rfl := Option.some.inj hs
    exact h.worker_stay fun q => by rw [hw]; cases q <;> rfl
  case h_2 => cases hs

theorem destroy (h : Inv n σ) {w : ℕ} (hs : step k σ (.destroy w) = some σ') : Inv n σ' := by
  simp only [step] at hs
  split at hs
  case h_1 s hw =>
    obtain rfl := Option.some.inj hs
    refine h.worker_move .head .destructor (by decide) rfl ?_ ?_ fun q hq hq' => ?_
    · rw [hw]; rfl
    · rw [hw]; rfl
    · rw [hw]; cases q <;> first | rfl | contradiction
  case h_2 hw =>
    obtain rfl := Option.some.inj hs
    exact h.worker_stay fun q => by rw [hw]; cases q <;> rfl
  case h_3 => cases hs

/-! ### Steps of a cleaner -/

theorem splice (h : Inv n σ) {c : ℕ} (hs : step k σ (.splice c) = some σ') : Inv n σ' := by
  simp only [step] at hs
  split at hs
  case h_1 r b hc =>
    obtain ⟨-, hs⟩ := Option.ite_none_right_eq_some.mp hs
    obtain rfl := Option.some.inj hs
    refine ⟨h.conserved.transfer (.closed c) (.toCompact c) (σ.closedSegments c)
      Place.noConfusion ?_ ?_ fun p hp hp' => ?_, h.numFree,
      refilled_update h.refilled fun v r b he => (by cases he)⟩
    · show List.Perm (σ.closedSegments c)
        (σ.closedSegments c ++ Function.update σ.closedSegments c [] c)
      rw [Function.update_self, List.append_nil]
    · show List.Perm (Function.update σ.toCompactSegments c _ c) _
      rw [Function.update_self]
      exact List.perm_append_comm
    · cases p with
      | cleaner i q =>
        refine apply_update (g := fun x => Cleaner.content x q) fun _ => ?_
        rw [hc]
        cases q <;> rfl
      | closed i =>
        have hi : i ≠ c := fun he => hp (congrArg Place.closed he)
        exact Function.update_of_ne hi _ _
      | toCompact i =>
        have hi : i ≠ c := fun he => hp' (congrArg Place.toCompact he)
        exact Function.update_of_ne hi _ _
      | free => rfl
      | worker w q => rfl
  case h_2 => cases hs

theorem pick (h : Inv n σ) {c v : ℕ} (hs : step k σ (.pick c v) = some σ') : Inv n σ' := by
  simp only [step] at hs
  split at hs
  case h_1 r b hc =>
    obtain ⟨hv, hs⟩ := Option.ite_none_right_eq_some.mp hs
    obtain rfl := Option.some.inj hs
    refine ⟨h.conserved.transfer (.toCompact c) (.cleaner c .compactSegment) [v]
      Place.noConfusion ?_ ?_ fun p hp hp' => ?_, h.numFree,
      refilled_update h.refilled fun v r b he => (by cases he)⟩
    · show List.Perm (σ.toCompactSegments c) ([v] ++ Function.update σ.toCompactSegments c _ c)
      rw [Function.update_self]
      exact List.perm_cons_erase hv
    · show List.Perm (Cleaner.content (Function.update σ.cleaner c _ c) .compactSegment)
        ([v] ++ (σ.cleaner c).content .compactSegment)
      rw [Function.update_self, hc]
      rfl
    · cases p with
      | cleaner i q =>
        refine apply_update (g := fun x => Cleaner.content x q) fun hi => ?_
        subst hi
        rw [hc]
        cases q <;> first | rfl | contradiction
      | toCompact i =>
        have hi : i ≠ c := fun he => hp (congrArg Place.toCompact he)
        exact Function.update_of_ne hi _ _
      | free => rfl
      | closed i => rfl
      | worker w q => rfl
  case h_2 => cases hs

theorem giveUp (h : Inv n σ) {c : ℕ} (hs : step k σ (.giveUp c) = some σ') : Inv n σ' := by
  simp only [step] at hs
  split at hs
  case h_1 r b hc =>
    obtain rfl := Option.some.inj hs
    exact h.cleaner_stay (fun q => by rw [hc]; cases q <;> rfl) fun v r b he => (by cases he)
  case h_2 => cases hs

theorem freezeReserved (h : Inv n σ) {c : ℕ} (hs : step k σ (.freezeReserved c) = some σ') :
    Inv n σ' := by
  simp only [step] at hs
  split at hs
  case h_1 v s b hc =>
    obtain rfl := Option.some.inj hs
    refine h.cleaner_move .reserved .freezeReserved (by decide) rfl ?_ ?_ (fun q hq hq' => ?_)
      fun v r b he => (by cases he)
    · rw [hc]; rfl
    · rw [hc]; rfl
    · rw [hc]; cases q <;> first | rfl | contradiction
  case h_2 v b hc =>
    obtain rfl := Option.some.inj hs
    exact h.cleaner_stay (fun q => by rw [hc]; cases q <;> rfl) fun v r b he => (by cases he)
  case h_3 => cases hs

theorem addReserved (h : Inv n σ) {c : ℕ} (hs : step k σ (.addReserved c) = some σ') :
    Inv n σ' := by
  simp only [step] at hs
  split at hs
  case h_1 v s b hc =>
    obtain rfl := Option.some.inj hs
    refine ⟨h.conserved.transfer (.cleaner c .freezeReserved) (.closed (s % k)) [s]
      Place.noConfusion ?_ ?_ fun p hp hp' => ?_, h.numFree,
      refilled_update h.refilled fun v r b he => (by cases he)⟩
    · show List.Perm ((σ.cleaner c).content .freezeReserved)
        ([s] ++ Cleaner.content (Function.update σ.cleaner c _ c) .freezeReserved)
      rw [Function.update_self, hc]
      rfl
    · exact (List.Perm.of_eq (content_addClosedSegment_closed σ s)).trans List.perm_append_comm
    · cases p with
      | cleaner i q =>
        refine apply_update (g := fun x => Cleaner.content x q) fun hi => ?_
        subst hi
        show _ = (σ.cleaner i).content q
        rw [hc]
        cases q <;> first | rfl | contradiction
      | closed i =>
        have hi : i ≠ s % k := fun he => hp' (congrArg Place.closed he)
        exact Function.update_of_ne hi _ _
      | free => rfl
      | toCompact i => rfl
      | worker w q => rfl
  case h_2 => cases hs

theorem refill (h : Inv n σ) {c : ℕ} (hs : step k σ (.refill c) = some σ') : Inv n σ' := by
  simp only [step] at hs
  split at hs
  case h_1 v r b hc =>
    obtain rfl := Option.some.inj hs
    refine h.cleaner_stay (fun q => by rw [hc]; cases q <;> rfl) fun v' r' b' he => ?_
    obtain ⟨-, rfl, rfl⟩ := Cleaner.mk.inj he
    rfl
  case h_2 => cases hs

/-- The segment in reserve has been the one to append to for an instant. -/
theorem release (h : Inv n σ) {c : ℕ} (hs : step k σ (.release c) = some σ') : Inv n σ' := by
  simp only [step] at hs
  split at hs
  case h_1 v r b hc =>
    obtain rfl := Option.some.inj hs
    obtain rfl := h.refilled c v r b hc
    refine h.cleaner_move .backup .reserved (by decide) rfl ?_ ?_ (fun q hq hq' => ?_)
      fun v r b he => (by cases he)
    · rw [hc]; rfl
    · rw [hc]; rfl
    · rw [hc]; cases q <;> first | rfl | contradiction
  case h_2 => cases hs

theorem clear (h : Inv n σ) {c : ℕ} (hs : step k σ (.clear c) = some σ') : Inv n σ' := by
  simp only [step] at hs
  split at hs
  case h_1 v r b hc =>
    obtain rfl := Option.some.inj hs
    exact h.cleaner_stay (fun q => by rw [hc]; cases q <;> rfl) fun v r b he => (by cases he)
  case h_2 => cases hs

theorem giveBack (h : Inv n σ) {c : ℕ} (hs : step k σ (.giveBack c) = some σ') : Inv n σ' := by
  simp only [step] at hs
  split at hs
  case h_1 v r hc =>
    obtain rfl := Option.some.inj hs
    refine h.cleaner_move .compactSegment .backup (by decide) rfl ?_ ?_ (fun q hq hq' => ?_)
      fun v r b he => (by cases he)
    · rw [hc]; rfl
    · rw [hc]; rfl
    · rw [hc]; cases q <;> first | rfl | contradiction
  case h_2 v r b hc =>
    obtain rfl := Option.some.inj hs
    refine ⟨h.conserved.transfer (.cleaner c .compactSegment) .free [v] Place.noConfusion ?_ ?_
      fun p hp hp' => ?_, ?_, refilled_update h.refilled fun v r b he => (by cases he)⟩
    · show List.Perm ((σ.cleaner c).content .compactSegment)
        ([v] ++ Cleaner.content (Function.update σ.cleaner c _ c) .compactSegment)
      rw [Function.update_self, hc]
      rfl
    · exact List.perm_append_comm
    · cases p with
      | cleaner i q =>
        refine apply_update (g := fun x => Cleaner.content x q) fun hi => ?_
        subst hi
        rw [hc]
        cases q <;> first | rfl | contradiction
      | free => exact absurd rfl hp'
      | closed i => rfl
      | toCompact i => rfl
      | worker w q => rfl
    · show σ.numFreeSegments + 1 = ((σ.freeSegments ++ [v]).length : ℤ)
      rw [h.numFree, List.length_append]
      rfl
  case h_3 => cases hs

/-- **Every step keeps the invariant.** -/
theorem step {e : Event} (h : Inv n σ) (hs : SegmentOwners.step k σ e = some σ') : Inv n σ' := by
  cases e with
  | construct w => exact h.construct hs
  | put w => exact h.put hs
  | appended w => exact h.appended hs
  | full w => exact h.full hs
  | missing w => exact h.missing hs
  | addClosed w => exact h.addClosed hs
  | take w => exact h.take hs
  | start w => exact h.start hs
  | destroy w => exact h.destroy hs
  | leave w => exact h.leave hs
  | splice c => exact h.splice hs
  | pick c v => exact h.pick hs
  | giveUp c => exact h.giveUp hs
  | freezeReserved c => exact h.freezeReserved hs
  | addReserved c => exact h.addReserved hs
  | refill c => exact h.refill hs
  | release c => exact h.release hs
  | clear c => exact h.clear hs
  | giveBack c => exact h.giveBack hs

end Inv

/-! ## Runs -/

/-- In a new log a segment is free, or the first of a cleaner. -/
theorem mem_content_init {n k s : ℕ} {p : Place} :
    s ∈ (Sys.init n k).content p ↔
      (p = .free ∧ s < n - k) ∨ ∃ c < k, p = .cleaner c .reserved ∧ s = n - k + c := by
  cases p with
  | free => simp [Sys.content, Sys.init]
  | closed c => simp [Sys.content, Sys.init]
  | toCompact c => simp [Sys.content, Sys.init]
  | worker w q => cases q <;> simp [Sys.content, Sys.init, Worker.content]
  | cleaner c q =>
    cases q with
    | reserved =>
      by_cases hc : c < k
      · simp [Sys.content, Sys.init, Cleaner.content, hc, eq_comm]
      · simp [Sys.content, Sys.init, Cleaner.content, hc]
    | backup => simp [Sys.content, Sys.init, Cleaner.content]
    | compactSegment => simp [Sys.content, Sys.init, Cleaner.content, CleanerPhase.victim]
    | freezeReserved => simp [Sys.content, Sys.init, Cleaner.content]

theorem nodup_content_init (n k : ℕ) (p : Place) : ((Sys.init n k).content p).Nodup := by
  cases p with
  | free => exact List.nodup_range
  | closed c => exact List.nodup_nil
  | toCompact c => exact List.nodup_nil
  | worker w q => cases q <;> exact List.nodup_nil
  | cleaner c q =>
    cases q with
    | reserved =>
      show (if c < k then some (n - k + c) else none).toList.Nodup
      split
      · exact List.nodup_singleton _
      · exact List.nodup_nil
    | backup => exact List.nodup_nil
    | compactSegment => exact List.nodup_nil
    | freezeReserved => exact List.nodup_nil

theorem inv_init {n k : ℕ} (h : k ≤ n) : Inv n (Sys.init n k) := by
  refine ⟨⟨nodup_content_init n k, fun p q s hp hq => ?_, fun s => ?_⟩, ?_,
    fun c v r b hc => (by cases hc)⟩
  · rcases mem_content_init.mp hp with ⟨rfl, hlt⟩ | ⟨c, -, rfl, rfl⟩
    · rcases mem_content_init.mp hq with ⟨rfl, -⟩ | ⟨c, -, rfl, rfl⟩
      · rfl
      · omega
    · rcases mem_content_init.mp hq with ⟨rfl, hlt⟩ | ⟨c', -, rfl, he⟩
      · omega
      · rw [Nat.add_left_cancel he]
  · constructor
    · rintro ⟨p, hp⟩
      rcases mem_content_init.mp hp with ⟨-, hlt⟩ | ⟨c, hc, -, rfl⟩
      · omega
      · omega
    · intro hs
      by_cases hlt : s < n - k
      · exact ⟨.free, mem_content_init.mpr (.inl ⟨rfl, hlt⟩)⟩
      · exact ⟨.cleaner (s - (n - k)) .reserved,
          mem_content_init.mpr (.inr ⟨_, by omega, rfl, by omega⟩)⟩
  · show (n : ℤ) - k = ((List.range (n - k)).length : ℤ)
    rw [List.length_range]
    omega

/-- **In normal operation every segment is in one place, and there once; nothing else
is in any; and the number of free segments is the length of the queue.** -/
theorem existsUnique_place {n k : ℕ} (_hk : 1 ≤ k) (hn : k < n) {events : List Event} {σ : Sys}
    (hrun : Machine.run (step k) (Sys.init n k) events = some σ) :
    (∀ s < n, ∃! p, s ∈ σ.content p) ∧ (∀ p, (σ.content p).Nodup)
      ∧ (∀ p, ∀ s ∈ σ.content p, s < n) ∧ σ.numFreeSegments = σ.freeSegments.length := by
  have h : Inv n σ :=
    Machine.run_preserves (step k) (fun _ _ _ h hs => h.step hs) (inv_init hn.le) hrun
  exact ⟨fun s hs => h.conserved.existsUnique hs, h.conserved.nodup,
    fun p s hp => (h.conserved.covers s).mp ⟨p, hp⟩, h.numFree⟩

/-- Two workers and a cleaner on five segments. One worker fills two segments, and
both are compacted, the second into the segment that was the first. -/
def fiveEvents : List Event :=
  [.construct 0, .construct 1, .put 0, .missing 0, .take 0, .start 0, .appended 0,
    .put 1, .missing 1, .take 1, .put 0, .full 0, .addClosed 0, .splice 0, .take 0, .pick 0 0,
    .start 0, .full 0, .clear 0, .giveBack 0, .addClosed 0, .splice 0, .pick 0 2,
    .freezeReserved 0, .addReserved 0, .refill 0, .release 0, .clear 0, .start 1, .appended 1,
    .destroy 1]

/-- The segments are conserved in that run. -/
theorem existsUnique_place_five : ∃ σ,
    Machine.run (step 1) (Sys.init 5 1) fiveEvents = some σ
      ∧ (∀ s < 5, ∃! p, s ∈ σ.content p) ∧ σ.numFreeSegments = σ.freeSegments.length := by
  obtain ⟨σ, hrun⟩ : ∃ σ, Machine.run (step 1) (Sys.init 5 1) fiveEvents = some σ := ⟨_, rfl⟩
  obtain ⟨hplace, -, -, hfree⟩ := existsUnique_place (by decide) (by decide) hrun
  exact ⟨σ, hrun, hplace, hfree⟩

end SegmentOwners
