import PKBench.Benchmark

/-!
# The Viper wrapper

`kvs_api.hpp` documents what the operations of a client return: `insert` says
whether the record was inserted, and does not insert one that already exists;
`update` says whether the record was updated, and does not create one. The
wrapper of Viper calls `Viper::Client::put` for both, which stores the value in
any case and returns whether the key is new. An update thus always returns the
opposite of what it should, and an insert of a key that exists replaces its
value. The `find` for callers with a buffer of their own finds nothing.

Viper itself is taken as a map from keys to values. A sequence of calls gets what
is documented, and the driver's counters count what they are meant to, if and only
if no call is of one of these kinds (`conforms_iff`).
-/

/-- The counter of successes of an operation. -/
def Stats.successCount (stats : Stats) : Operation → ℕ
  | .read => stats.successReadCount
  | .insert => stats.successInsertCount
  | .update => stats.successUpdateCount
  | .remove => stats.successRemoveCount
  | .scan => stats.successScanCount

/-- It goes up when a call of the operation returns true. -/
theorem Stats.successCount_runOp (stats : Stats) (op op' : Operation) (r : Bool) :
    (stats.runOp op' r).successCount op
      = stats.successCount op + if op' = op ∧ r = true then 1 else 0 := by
  cases op <;> cases op' <;> cases r <;> rfl

namespace ViperWrapper

/-- Bytes of a key or a value, as `std::string` holds them. -/
abbrev Bytes := List UInt8

/-- **The store**: what Viper holds. -/
abbrev Store := Bytes → Option Bytes

/-! ## Viper and the wrapper -/

/-- `Viper::Client::put`: true if the key is new. -/
def put (store : Store) (key value : Bytes) : Bool × Store :=
  ((store key).isNone, Function.update store key (some value))

/-- `Viper::Client::get`: true if the key is there. -/
def get (store : Store) (key : Bytes) : Bool × Option Bytes := ((store key).isSome, store key)

/-- `Viper::Client::remove`: true if the key was there. -/
def removeKey (store : Store) (key : Bytes) : Bool × Store :=
  ((store key).isSome, Function.update store key none)

/-- A call of a client. -/
inductive Call where
  | insert (key value : Bytes)
  | update (key value : Bytes)
  | remove (key : Bytes)
  /-- `find` with a `std::string` for the value. -/
  | findString (key : Bytes)
  /-- `find` with a `char *` for the value. -/
  | findBuffer (key : Bytes)

/-- **`viper_client`**: the flag a call returns, and the store after it. -/
def call (store : Store) : Call → Bool × Store
  | .insert key value => put store key value
  | .update key value => put store key value
  | .remove key => removeKey store key
  | .findString key => ((get store key).1, store)
  | .findBuffer _ => (false, store)

/-- A call that was made: the store it found, what it returned and the store it
left. -/
structure Step where
  before : Store
  made : Call
  result : Bool
  after : Store

/-- The calls of a client, one after the other. -/
def steps : Store → List Call → List Step
  | _, [] => []
  | store, c :: calls =>
      ⟨store, c, (call store c).1, (call store c).2⟩ :: steps (call store c).2 calls

/-- The operation of the driver a call belongs to. -/
def Call.operation : Call → Operation
  | .insert _ _ => .insert
  | .update _ _ => .update
  | .remove _ => .remove
  | .findString _ => .read
  | .findBuffer _ => .read

/-- The counters of the driver after the calls: `benchmark_t::run_op`. -/
def counters (made : List Step) : Stats :=
  made.foldl (fun stats s => stats.runOp s.made.operation s.result) {}

/-! ## What is documented -/

/-- **The contract of `client_api`** for one call. -/
def Step.Documented (s : Step) : Prop :=
  match s.made with
  | .insert key _ =>
      (s.result = true ↔ s.before key = none) ∧ (s.result = false → s.after = s.before)
  | .update key _ =>
      (s.result = true ↔ s.before key ≠ none) ∧ (s.result = false → s.after = s.before)
  | .remove key => s.result = true ↔ s.before key ≠ none
  | .findString key => s.result = true ↔ s.before key ≠ none
  | .findBuffer key => s.result = true ↔ s.before key ≠ none

/-- An insert of a new key. -/
def Step.newInsert (s : Step) : Bool :=
  match s.made with
  | .insert key _ => (s.before key).isNone
  | _ => false

/-- An update of a key that exists. -/
def Step.existingUpdate (s : Step) : Bool :=
  match s.made with
  | .update key _ => (s.before key).isSome
  | _ => false

/-- **What the driver may expect of a sequence of calls**: each does what is
documented, and the counters of successes are right. -/
structure Conforms (store : Store) (calls : List Call) : Prop where
  documented : ∀ s ∈ steps store calls, s.Documented
  inserts : (counters (steps store calls)).successInsertCount
    = (steps store calls).countP Step.newInsert
  updates : (counters (steps store calls)).successUpdateCount
    = (steps store calls).countP Step.existingUpdate

/-- The calls that get what is documented: an insert of a new key or of the value
the key already has, and a `find` that is for a string or for a key that is not
there. No update does. -/
def Step.Allowed (s : Step) : Prop :=
  match s.made with
  | .insert key value => s.before key = none ∨ s.before key = some value
  | .update _ _ => False
  | .remove _ => True
  | .findString _ => True
  | .findBuffer key => s.before key = none

/-! ## Calls that conform -/

/-- A value that is put again changes nothing. -/
theorem update_eq_self_iff {store : Store} {key value : Bytes} :
    Function.update store key (some value) = store ↔ store key = some value := by
  rw [Function.update_eq_self_iff]
  exact eq_comm

/-- **One call** does what is documented if and only if it is one of those. -/
theorem documented_iff (store : Store) (c : Call) :
    Step.Documented ⟨store, c, (call store c).1, (call store c).2⟩
      ↔ Step.Allowed ⟨store, c, (call store c).1, (call store c).2⟩ := by
  cases c with
  | insert key value =>
    simp only [Step.Documented, Step.Allowed, call, put, update_eq_self_iff]
    cases store key with
    | none => simp
    | some v => simp
  | update key value =>
    simp only [Step.Documented, Step.Allowed, call, put]
    cases store key with
    | none => simp
    | some v => simp
  | remove key => simp [Step.Documented, Step.Allowed, call, removeKey, Option.isSome_iff_ne_none]
  | findString key => simp [Step.Documented, Step.Allowed, call, get, Option.isSome_iff_ne_none]
  | findBuffer key => simp [Step.Documented, Step.Allowed, call]

/-- What a call does is what the wrapper does. -/
theorem eq_call_of_mem {store : Store} {calls : List Call} {s : Step}
    (h : s ∈ steps store calls) :
    s = ⟨s.before, s.made, (call s.before s.made).1, (call s.before s.made).2⟩ := by
  induction calls generalizing store with
  | nil => cases h
  | cons c calls ih =>
    rcases List.mem_cons.mp h with rfl | h
    · rfl
    · exact ih h

/-- The counters go up with the successes of their operation. -/
theorem counters_concat (made : List Step) (s : Step) :
    counters (made ++ [s]) = (counters made).runOp s.made.operation s.result := by
  rw [counters, List.foldl_append]
  rfl

/-- **The success counter of an operation** counts its calls that returned true. -/
theorem successCount_counters (op : Operation) (made : List Step) :
    (counters made).successCount op
      = made.countP (fun s => s.made.operation = op ∧ s.result = true) := by
  induction made using List.reverseRecOn with
  | nil => cases op <;> rfl
  | append_singleton made s ih =>
    rw [counters_concat, Stats.successCount_runOp, ih, List.countP_append, List.countP_singleton]
    simp

/-- Documented calls are counted as they should be. -/
theorem Step.Documented.newInsert {s : Step} (h : s.Documented) :
    (s.made.operation = .insert ∧ s.result = true) ↔ s.newInsert = true := by
  obtain ⟨before, made, result, after⟩ := s
  cases made with
  | insert key value => simpa [Call.operation, Step.newInsert] using h.1
  | _ => simp [Call.operation, Step.newInsert]

theorem Step.Documented.existingUpdate {s : Step} (h : s.Documented) :
    (s.made.operation = .update ∧ s.result = true) ↔ s.existingUpdate = true := by
  obtain ⟨before, made, result, after⟩ := s
  cases made with
  | update key value =>
    simpa [Call.operation, Step.existingUpdate, Option.isSome_iff_ne_none] using h.1
  | _ => simp [Call.operation, Step.existingUpdate]

/-- **When a sequence of calls gets what is documented**: if and only if no call of
it is an update, an insert of another value under a key that exists, or a `find`
with a buffer of a key that exists. -/
theorem conforms_iff (store : Store) (calls : List Call) :
    Conforms store calls ↔ ∀ s ∈ steps store calls, s.Allowed := by
  have hstep : ∀ s ∈ steps store calls, (s.Documented ↔ s.Allowed) := by
    intro s hs
    rw [eq_call_of_mem hs]
    exact documented_iff s.before s.made
  constructor
  · exact fun h s hs => (hstep s hs).mp (h.documented s hs)
  · intro h
    have hdoc : ∀ s ∈ steps store calls, s.Documented := fun s hs => (hstep s hs).mpr (h s hs)
    refine ⟨hdoc, ?_, ?_⟩
    · refine (successCount_counters .insert _).trans ?_
      exact List.countP_congr fun s hs => by simpa using (hdoc s hs).newInsert
    · refine (successCount_counters .update _).trans ?_
      exact List.countP_congr fun s hs => by simpa using (hdoc s hs).existingUpdate

/-- An update of a key that exists returns false, and the value is replaced. -/
theorem not_conforms_update :
    ¬ ∀ store calls, Conforms store calls := by
  intro h
  have hdoc := (h (fun _ => none) [.insert [1] [2], .update [1] [3]]).documented
    ⟨_, .update [1] [3], _, _⟩ (List.mem_cons_of_mem _ List.mem_cons_self)
  exact absurd (hdoc.1.mpr (by decide)) Bool.false_ne_true

end ViperWrapper
