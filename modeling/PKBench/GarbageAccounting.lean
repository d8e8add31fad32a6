import Mathlib.Data.Rat.Lemmas
import Mathlib.Algebra.Order.Ring.Rat
import Mathlib.Data.List.Nodup
import PKBench.Forks

/-!
# Garbage in the forks

The cleaner chooses among the closed segments by the share of garbage in them,
which `MarkGarbage` counts: a `Put` that replaces an entry of the index marks the
item the entry pointed to. In the forks the index never says that it replaced
anything, so `garbage_bytes_` of every segment stays 0 whatever the clients do
(`garbageBytes_run`), and `DoMemoryClean` never finds a segment
(`pickSegment_eq_none`).

The items that are in fact superseded are those whose key is put again later. The
count is right if and only if there are none, that is, if no key is put twice
(`accounted_iff`).
-/

/-- The bytes a record takes in the log. -/
def Entry.size (entry : Entry) : ℕ :=
  KVItem.headerSize + entry.key.bytes.length + entry.value.length

theorem Entry.size_pos (entry : Entry) : 0 < entry.size := by
  rw [Entry.size, KVItem.headerSize]
  omega

/-- `LogSegment::GetGarbageProportion`. -/
def LogSegment.garbageProportion {α : Type} (seg : LogSegment α) : ℚ :=
  seg.garbageBytes / seg.tail

namespace FlatStore

/-! ## Superseded items -/

/-- Where a call places its record. -/
def placed {σ : Type} (db : DB σ) : ClientOp → Option (Addr × Entry)
  | .insert w entry => (makeKVItem db w entry).map (fun r => (r.1, entry))
  | .update w entry => (makeKVItem db w entry).map (fun r => (r.1, entry))
  | .destroy _ => none

/-- The records a sequence of calls writes, with the addresses of their items. -/
def putTrace {σ : Type} (I : Index σ) : DB σ → List ClientOp → List (Addr × Entry)
  | _, [] => []
  | db, op :: ops =>
      (placed db op).toList ++
        match step I db op with
        | none => []
        | some db => putTrace I db ops

/-- **The bytes of the superseded items of a segment**: the items in it whose key
is put again later. -/
def supersededBytes (s : ℕ) : List (Addr × Entry) → ℕ
  | [] => 0
  | (a, entry) :: later =>
      (if a.segment = s ∧ entry.key.bytes ∈ later.map (fun x => x.2.key.bytes)
        then entry.size else 0) + supersededBytes s later

/-! ## The choice of the cleaner -/

/-- The score of a segment that was closed `age` microseconds ago. -/
def compactionScore {α : Type} (seg : LogSegment α) (age : ℕ) : ℚ :=
  1000 * seg.garbageProportion / (1 - seg.garbageProportion) * age

/-- The loop of `DoMemoryClean`: the first segment of the highest positive score,
with that score. -/
def pickSegment {α : Type} (log : LogStructured α) (age : ℕ → ℕ) (segments : List ℕ) :
    Option ℕ × ℚ :=
  segments.foldl (fun best s =>
    let score := compactionScore (log.segments s) (age s)
    if score > best.2 then (some s, score) else best) (none, 0)

/-- **The count is right**: the garbage of each segment is what is superseded in
it, and a cleaner with a closed segment that has some finds one to clean, once
time has passed since its segments were closed. -/
def Accounted (trace : List (Addr × Entry)) (log : LogStructured KVItem) : Prop :=
  (∀ s, (log.segments s).garbageBytes = supersededBytes s trace) ∧
    ∀ j, ∀ s ∈ log.closedSegments j, 0 < supersededBytes s trace →
      ∀ age : ℕ → ℕ, (∀ t, 0 < age t) → (pickSegment log age (log.closedSegments j)).1.isSome

/-! ## Nothing is marked -/

section Silent

variable {σ : Type} {I : Index σ}

/-- No garbage has been counted. -/
def Unmarked {α : Type} (log : LogStructured α) : Prop := ∀ s, (log.segments s).garbageBytes = 0

theorem unmarked_create (numSegments numCleaners : ℕ) (pool : ℕ → SegmentImage KVItem) :
    Unmarked (LogStructured.create numSegments numCleaners pool) := by
  intro s
  show LogSegment.garbageBytes (if _ then _ else _) = 0
  split <;> rfl

theorem Unmarked.setSegment {log : LogStructured KVItem} (h : Unmarked log) {s : ℕ}
    {seg : LogSegment KVItem} (hseg : seg.garbageBytes = 0) : Unmarked (log.setSegment s seg) := by
  intro t
  rw [LogStructured.segments_setSegment]
  by_cases hts : t = s
  · rw [hts, Function.update_self]
    exact hseg
  · rw [Function.update_of_ne hts]
    exact h t

theorem Unmarked.freezeSegment {log : LogStructured KVItem} (h : Unmarked log) (old : Option ℕ) :
    Unmarked (log.freezeSegment old) := by
  rcases log.freezeSegment_cases old with hf | ⟨s, rfl, hf⟩
  · rw [hf]
    exact h
  · rw [hf]
    exact h.setSegment (h s)

theorem Unmarked.append {log log' : LogStructured KVItem} (h : Unmarked log) (hb : log.Backed)
    {s sz : ℕ} {item : KVItem} {a : Addr} (happ : log.append s sz item = some (a, log')) :
    Unmarked log' := by
  obtain ⟨seg, hseg, rfl, rfl⟩ := LogStructured.append_eq_some hb happ
  refine h.setSegment ?_
  obtain ⟨-, hsome⟩ := Option.ite_none_right_eq_some.mp hseg
  obtain ⟨-, rfl⟩ := Prod.mk.inj (Option.some.inj hsome)
  exact h s

theorem Unmarked.newSegment {log log' : LogStructured KVItem} (h : Unmarked log) {s : ℕ}
    (hnew : log.newSegment = some (s, log')) : Unmarked log' := by
  obtain ⟨rest, -, rfl⟩ := LogStructured.newSegment_eq_some hnew
  exact h.setSegment (h s)

/-- A `Put` is an append and an update of the index. -/
theorem put_eq_some_iff {db db' : DB σ} {w : ℕ} {entry : Entry} :
    put I db w entry = some db' ↔
      ∃ a db₁, makeKVItem db w entry = some (a, db₁)
        ∧ updateIndex I db₁ entry.key a = some db' := by
  unfold put
  cases makeKVItem db w entry with
  | none => simp
  | some r =>
    obtain ⟨a, db₁⟩ := r
    simp

theorem Unmarked.makeKVItem {db db' : DB σ} (hr : db.Ready) (h : Unmarked db.log) {w : ℕ}
    {entry : Entry} {a : Addr} (hmake : makeKVItem db w entry = some (a, db')) :
    Unmarked db'.log := by
  unfold FlatStore.makeKVItem at hmake
  simp only [getKeyEpoch] at hmake
  generalize entry.item _ = item at hmake
  cases hloop : makeKVItemLoop item db.log.freeSegments.length db.log (db.logHead w) with
  | none => rw [hloop] at hmake; cases hmake
  | some r =>
    obtain ⟨b, log, head⟩ := r
    rw [hloop] at hmake
    obtain ⟨rfl, rfl⟩ := Prod.mk.inj (Option.some.inj hmake)
    show Unmarked log
    rcases makeKVItemLoop_cases hr hloop with ⟨s, -, -, happ⟩ | ⟨s, log₁, hnew, -, happ⟩
    · exact h.append hr.backed happ
    · have hfrozen := FlatStore.Ready.freezeSegment hr (hr.head w)
      have hb₁ := (hfrozen.newSegment hnew w).1.backed
      exact ((h.freezeSegment _).newSegment hnew).append hb₁ happ

/-- **An index that reports nothing leaves the garbage uncounted.** -/
theorem Unmarked.put (hI : ∀ index key val, (I.put index key val).2 = none) {db db' : DB σ}
    (hr : db.Ready) (h : Unmarked db.log) {w : ℕ} {entry : Entry}
    (hput : put I db w entry = some db') : Unmarked db'.log := by
  obtain ⟨a, db₁, hmake, hup⟩ := put_eq_some_iff.mp hput
  have h₁ := h.makeKVItem hr hmake
  unfold updateIndex at hup
  have hnone := hI db₁.index entry.key (.item a)
  cases hp : I.put db₁.index entry.key (.item a) with
  | mk index old =>
    rw [hp] at hup hnone
    obtain rfl : old = none := hnone
    obtain rfl := Option.some.inj hup
    exact h₁

end Silent

/-- **No garbage is ever counted in a fork.** -/
theorem garbageBytes_run (fork : Fork) {numSegments numCleaners : ℕ}
    {pool : ℕ → SegmentImage KVItem} {ops : List ClientOp} {db : DB KeyTree}
    (hrun : run fork.index.toIndex (fork.create numSegments numCleaners pool) ops = some db) :
    Unmarked db.log := by
  refine (run_inv fork.index.toIndex (P := fun _ db => Unmarked db.log) ?_ ?_
    (fork.ready_create numSegments numCleaners pool)
    (unmarked_create numSegments numCleaners pool) hrun).2
  · intro _ db w entry db' hr h hput
    exact h.put fork.put_old hr hput
  · intro _ db w _ h
    exact h.freezeSegment _

/-- **The cleaner finds nothing to clean.** -/
theorem pickSegment_eq_none {α : Type} {log : LogStructured α} (h : Unmarked log)
    (age : ℕ → ℕ) (segments : List ℕ) : pickSegment log age segments = (none, 0) := by
  have hscore : ∀ s, compactionScore (log.segments s) (age s) = 0 := by
    intro s
    rw [compactionScore, LogSegment.garbageProportion, h s]
    simp
  unfold pickSegment
  induction segments with
  | nil => rfl
  | cons s segments ih =>
    rw [List.foldl_cons, hscore s, if_neg (lt_irrefl _)]
    exact ih

/-! ## When the count is right -/

/-- The trace has the records of the calls. -/
theorem map_snd_putTrace {σ : Type} {I : Index σ} {db db' : DB σ} {ops : List ClientOp}
    (hrun : run I db ops = some db') : (putTrace I db ops).map Prod.snd = puts ops := by
  induction ops generalizing db with
  | nil => rfl
  | cons op ops ih =>
    obtain ⟨db₁, hstep, hrun⟩ := (Machine.run_cons_eq_some _).mp hrun
    have hplaced : (placed db op).toList.map Prod.snd = op.entry?.toList := by
      cases op with
      | destroy w => rfl
      | insert w entry =>
        obtain ⟨a, db₂, hmake, -⟩ := put_eq_some_iff.mp hstep
        rw [placed, hmake]
        rfl
      | update w entry =>
        obtain ⟨a, db₂, hmake, -⟩ := put_eq_some_iff.mp hstep
        rw [placed, hmake]
        rfl
    rw [putTrace, hstep, List.map_append, hplaced]
    show op.entry?.toList ++ (putTrace I db₁ ops).map Prod.snd = puts (op :: ops)
    rw [ih hrun, puts, puts, List.filterMap_cons]
    cases op.entry? <;> rfl

/-- Nothing is superseded in any segment if and only if no key comes twice. -/
theorem supersededBytes_eq_zero_iff (trace : List (Addr × Entry)) :
    (∀ s, supersededBytes s trace = 0) ↔ (trace.map (fun x => x.2.key.bytes)).Nodup := by
  induction trace with
  | nil => exact iff_of_true (fun _ => rfl) List.nodup_nil
  | cons x later ih =>
    obtain ⟨a, entry⟩ := x
    rw [List.map_cons, List.nodup_cons, ← ih]
    constructor
    · intro h
      refine ⟨fun hmem => ?_, fun s => (Nat.add_eq_zero_iff.mp (h s)).2⟩
      have ha := (Nat.add_eq_zero_iff.mp (h a.segment)).1
      rw [if_pos ⟨rfl, hmem⟩] at ha
      exact absurd ha entry.size_pos.ne'
    · rintro ⟨hnot, h⟩ s
      rw [supersededBytes, if_neg (fun hand => hnot hand.2), h s]

/-- **When the garbage is accounted for**: if and only if no two of the `Put`s have
the same key. -/
theorem accounted_iff (fork : Fork) {numSegments numCleaners : ℕ}
    {pool : ℕ → SegmentImage KVItem} {ops : List ClientOp} {db : DB KeyTree}
    (hrun : run fork.index.toIndex (fork.create numSegments numCleaners pool) ops = some db) :
    Accounted (putTrace fork.index.toIndex (fork.create numSegments numCleaners pool) ops) db.log
      ↔ ((puts ops).map (fun entry => entry.key.bytes)).Nodup := by
  have hunmarked := garbageBytes_run fork hrun
  have hkeys : (puts ops).map (fun entry => entry.key.bytes)
      = (putTrace fork.index.toIndex (fork.create numSegments numCleaners pool) ops).map
        (fun x => x.2.key.bytes) := by
    rw [← map_snd_putTrace hrun, List.map_map]
    rfl
  rw [hkeys, ← supersededBytes_eq_zero_iff]
  constructor
  · rintro ⟨hcount, -⟩ s
    rw [← hcount s]
    exact hunmarked s
  · intro hzero
    refine ⟨fun s => (hunmarked s).trans (hzero s).symm, fun j s _ hpos => ?_⟩
    exact absurd (hzero s) hpos.ne'

/-- One record, put once. -/
theorem accounted_one :
    ∃ db, run nbTreeIndex.toIndex (Fork.nb.create 2 1 (fun _ => {})) [.insert 0 (oneEntry 1)]
        = some db ∧
      Accounted (putTrace nbTreeIndex.toIndex (Fork.nb.create 2 1 (fun _ => {}))
        [.insert 0 (oneEntry 1)]) db.log := by
  have hrun : (run nbTreeIndex.toIndex (Fork.nb.create 2 1 (fun _ => {}))
      [.insert 0 (oneEntry 1)]).isSome := by decide
  obtain ⟨db, hdb⟩ := Option.isSome_iff_exists.mp hrun
  exact ⟨db, hdb, (accounted_iff .nb hdb).mpr (List.nodup_singleton _)⟩

/-- The fork accounts for the garbage of any sequence of calls. -/
def Accounts (fork : Fork) : Prop :=
  ∀ numSegments numCleaners pool ops db,
    run fork.index.toIndex (fork.create numSegments numCleaners pool) ops = some db →
    Accounted (putTrace fork.index.toIndex (fork.create numSegments numCleaners pool) ops) db.log

/-- A worker writes one key twice and ends, which closes its segment. -/
def overwrite : List ClientOp := [.insert 0 (oneEntry 1), .update 0 (oneEntry 2), .destroy 0]

/-- The first record is superseded, and the cleaner does not find its segment. -/
theorem not_accounts_of_fork (fork : Fork) : ¬ Accounts fork := by
  intro h
  have hfacts : ∃ db ∈ run fork.index.toIndex (fork.create 2 1 (fun _ => {})) overwrite,
      0 ∈ db.log.closedSegments 0 := by
    cases fork <;> decide
  have hpos : 0 < supersededBytes 0
      (putTrace fork.index.toIndex (fork.create 2 1 (fun _ => {})) overwrite) := by
    cases fork <;> decide
  obtain ⟨db, hdb, hclosed⟩ := hfacts
  have hpick := (h 2 1 _ overwrite db hdb).2 0 0 hclosed hpos (fun _ => 1) (fun _ => Nat.one_pos)
  rw [pickSegment_eq_none (garbageBytes_run fork hdb)] at hpick
  cases hpick

/-- **No fork accounts for a key that is written twice.** -/
theorem not_accounts : ¬ Accounts .nb ∧ ¬ Accounts .lb ∧ ¬ Accounts .dp :=
  ⟨not_accounts_of_fork .nb, not_accounts_of_fork .lb, not_accounts_of_fork .dp⟩

end FlatStore
