import PKBench.FlatStoreLB

/-!
# The forks of FlatStore

The forks `flatstore-NB`, `flatstore-LB` and `flatstore-DP` share the log and the
cleaner with `flatstore-pacman` and put another tree behind `Index`. An adapter is
expected to do three things beyond storing addresses: `Put` reports the entry it
replaced, in `old_val`; `GCMove` installs the new address if the entry still is
the old one; and if it is not, `GCMove` reports that too.

The adapters of the forks do none of these. No `Put` ever touches `old_val`, and
no `GCMove` changes an entry that is there: those of NB and DP are empty, and the
one of LB inserts, which leaves a key that is found as it is
(`Fork.put_old`, `Fork.gcMove_get`).
-/

namespace FlatStore

/-- **An index adapter with `GCMove`**: key, old value and new value to the index
after the call and what is in `old_val` then. -/
structure GCIndex (σ : Type) extends Index σ where
  gcMove : σ → Slice → ValueType → ValueType → σ × ValueType

/-- What a tree of eight-byte keys holds. -/
abbrev KeyTree := UInt64 → Option ValueType

/-- The pointer 0 is the invalid value. -/
def nbValue : Option ValueType → Option ValueType
  | some (.raw 0) => none
  | v => v

/-- **The adapter `NBTreeIndex`.** -/
def nbTreeIndex : GCIndex KeyTree where
  get tree key := nbValue (tree key.word)
  put tree key val := (Function.update tree key.word (some val), none)
  gcMove tree _ old _ := (tree, old)

/-- The tree after the constructor of `NBTreeIndex`, which inserts the numbers
below 1000 with themselves for values. -/
def nbPreloaded : KeyTree := fun key => if key < 1000 then some (.raw key.toNat) else none

/-- **The adapter `LBTreeIndex`** with its `GCMove`. -/
def lbTreeGCIndex : GCIndex KeyTree where
  toIndex := lbTreeIndex
  gcMove tree key old new := (lbtreeInsert tree (lbKey key) new, old)

/-- **The adapter `DPTreeIndex`.** -/
def dpTreeIndex : GCIndex KeyTree where
  get tree key := tree key.word
  put tree key val := (Function.update tree key.word (some val), none)
  gcMove tree _ old _ := (tree, old)

/-- The forks. -/
inductive Fork where
  | nb
  | lb
  | dp
  deriving DecidableEq

/-- The adapter of a fork. -/
def Fork.index : Fork → GCIndex KeyTree
  | .nb => nbTreeIndex
  | .lb => lbTreeGCIndex
  | .dp => dpTreeIndex

/-- The word a fork indexes a key by. -/
def Fork.word : Fork → Slice → UInt64
  | .nb => Slice.word
  | .lb => lbKey
  | .dp => Slice.word

/-- The tree after the constructor of the adapter. -/
def Fork.tree : Fork → KeyTree
  | .nb => nbPreloaded
  | .lb => bulkloaded
  | .dp => fun _ => none

/-- The store of a fork as its constructor leaves it. -/
def Fork.create (fork : Fork) (numSegments numCleaners : ℕ) (pool : ℕ → SegmentImage KVItem) :
    DB KeyTree where
  log := LogStructured.create numSegments numCleaners pool
  index := fork.tree

theorem Fork.ready_create (fork : Fork) (numSegments numCleaners : ℕ)
    (pool : ℕ → SegmentImage KVItem) : (fork.create numSegments numCleaners pool).Ready :=
  FlatStore.ready_create numSegments numCleaners pool

/-- **No adapter reports what a `Put` replaced.** -/
theorem Fork.put_old (fork : Fork) (tree : KeyTree) (key : Slice) (val : ValueType) :
    (fork.index.put tree key val).2 = none := by
  cases fork <;> rfl

/-- **What a `Put` changes**: the entry of its word, in LB if there was none. -/
theorem Fork.get_put (fork : Fork) {tree : KeyTree} {key : Slice}
    (h : fork = .lb → tree (fork.word key) = none) (a : Addr) (key' : Slice) :
    fork.index.get (fork.index.put tree key (.item a)).1 key'
      = if fork.word key' = fork.word key then some (.item a) else fork.index.get tree key' := by
  by_cases hword : fork.word key' = fork.word key
  · rw [if_pos hword]
    cases fork with
    | nb =>
      show nbValue (Function.update tree key.word (some (.item a)) key'.word) = _
      rw [show key'.word = key.word from hword, Function.update_self]
      rfl
    | lb =>
      show lbtreeInsert tree (lbKey key) (.item a) (lbKey key') = _
      rw [show lbKey key' = lbKey key from hword]
      exact lbtreeInsert_of_none (h rfl)
    | dp =>
      show Function.update tree key.word (some (.item a)) key'.word = _
      rw [show key'.word = key.word from hword, Function.update_self]
  · rw [if_neg hword]
    cases fork with
    | nb =>
      exact congrArg nbValue (Function.update_of_ne hword _ _)
    | lb => exact lbtreeInsert_of_ne hword
    | dp => exact Function.update_of_ne hword _ _

/-- A constructor loads no addresses. -/
theorem Fork.get_tree (fork : Fork) (key : Slice) (a : Addr) :
    fork.index.get fork.tree key ≠ some (.item a) := by
  intro h
  cases fork with
  | nb =>
    change nbValue (nbPreloaded key.word) = _ at h
    unfold nbPreloaded at h
    split at h
    · unfold nbValue at h
      split at h <;> cases h
    · cases h
  | lb =>
    change bulkloaded (lbKey key) = _ at h
    unfold bulkloaded at h
    split at h <;> cases h
  | dp => cases h

/-- **No adapter moves an entry**: after `GCMove` of a key that has an entry every
key has the entry it had. -/
theorem Fork.gcMove_get (fork : Fork) {tree : KeyTree} {key : Slice}
    (h : (fork.index.get tree key).isSome) (old new : ValueType) :
    (fork.index.gcMove tree key old new).1 = tree := by
  cases fork with
  | nb => rfl
  | dp => rfl
  | lb =>
    obtain ⟨v, hv⟩ := Option.isSome_iff_exists.mp h
    show lbtreeInsert tree (lbKey key) new = tree
    have hv' : tree (lbKey key) = some v := hv
    rw [lbtreeInsert, hv']

end FlatStore
