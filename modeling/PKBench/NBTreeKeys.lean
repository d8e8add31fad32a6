import PKBench.Forks
import PKBench.LastWrite

/-!
# Phantom keys of the NB-tree adapter

`NBTreeIndex` keeps the entries of the store in a `btree` of words. Two things
stand between the words of the tree and the entries of the store: the tree uses
the two highest bits of a word for itself, which `Get` masks out, and the
constructor inserts a thousand keys that nobody put, each with itself for a
value. The zero among them is harmless, since its value is `INVALID_VALUE`; any
other is a phantom until it is put, and `DB::Worker::Get` follows the number it
finds as if it were the address of an item (`noPhantom_iff`).

The tree itself is a parameter, `BTree`, of which only that it is a map that
overwrites is used. The tree of `Forks` is what the adapter's entries denote
(`represents_new`, `represents_put`, `get_of_represents`).
-/

namespace FlatStore

/-- The bits that `Get` keeps, all but `SYNC_MASK` and `COPY_MASK`. -/
def addrMask : UInt64 := 0x3fffffffffffffff

theorem and_addrMask {v : UInt64} (h : v.toNat < 2 ^ 62) : v &&& addrMask = v := by
  refine UInt64.toNat_inj.mp ?_
  rw [UInt64.toNat_and, show addrMask.toNat = 2 ^ 62 - 1 from rfl, Nat.and_two_pow_sub_one_eq_mod,
    Nat.mod_eq_of_lt h]

/-- **The `btree` of the adapter**: a map from words to words that overwrites, up
to the two bits it keeps its marks in, and in which a missing key is the null
pointer. -/
structure BTree (σ : Type) where
  new : σ
  insert : σ → UInt64 → UInt64 → σ
  search : σ → UInt64 → UInt64
  search_new : ∀ key, search new key &&& addrMask = 0
  search_insert : ∀ tree key right key', search (insert tree key right) key' &&& addrMask
    = if key' = key then right &&& addrMask else search tree key' &&& addrMask

/-- The map itself, without marks. -/
def BTree.map : BTree (UInt64 → UInt64) where
  new := fun _ => 0
  insert := Function.update
  search := fun tree key => tree key
  search_new := fun _ => UInt64.zero_and
  search_insert := fun tree key right key' => by
    by_cases h : key' = key
    · rw [if_pos h, h, Function.update_self]
    · rw [if_neg h, Function.update_of_ne h]

/-- **A call of `Put`** with a value that fits below the marks. -/
structure PutCall where
  key : UInt64
  /-- `le_helper.new_val`, which `Put` asserts not to be zero. -/
  newVal : UInt64
  newVal_ne : newVal ≠ 0
  newVal_lt : newVal.toNat < 2 ^ 62

namespace NBTreeIndex

variable {σ : Type} (B : BTree σ)

/-- The loop of the constructor, up to `n`. -/
def insertBelow (n : ℕ) : σ :=
  (List.range n).foldl (fun tree i => B.insert tree (UInt64.ofNat i) (UInt64.ofNat i)) B.new

/-- **The constructor.** -/
def new : σ := insertBelow B 1000

/-- **`NBTreeIndex::Get`.** -/
def get (tree : σ) (key : UInt64) : UInt64 := B.search tree key &&& addrMask

/-- **`NBTreeIndex::Put`.** -/
def put (tree : σ) (call : PutCall) : σ := B.insert tree call.key call.newVal

/-- The index after a sequence of calls of `Put`. -/
def putAll (puts : List PutCall) : σ := puts.foldl (put B) (new B)

/-- The pointer that `DB::Worker::Get` follows, if the index does not answer
`INVALID_VALUE`. -/
def followed (tree : σ) (key : UInt64) : Option UInt64 :=
  if get B tree key ≠ 0 then some (get B tree key) else none

/-! ## What the adapter answers -/

theorem get_insert (tree : σ) (key : UInt64) {right : UInt64} (h : right.toNat < 2 ^ 62)
    (key' : UInt64) :
    get B (B.insert tree key right) key' = if key' = key then right else get B tree key' := by
  unfold get
  rw [B.search_insert, and_addrMask h]

theorem get_insertBelow {n : ℕ} (hn : n ≤ 2 ^ 62) (key : UInt64) :
    get B (insertBelow B n) key = if key.toNat < n then key else 0 := by
  induction n with
  | zero =>
    rw [if_neg (Nat.not_lt_zero _)]
    exact B.search_new key
  | succ n ih =>
    have hsize : n < UInt64.size := lt_of_lt_of_le hn (by decide)
    have hnat : (UInt64.ofNat n).toNat = n := UInt64.toNat_ofNat_of_lt hsize
    have hlt : (UInt64.ofNat n).toNat < 2 ^ 62 := by
      rw [hnat]
      exact hn
    unfold insertBelow
    rw [List.range_succ, List.foldl_append, List.foldl_cons, List.foldl_nil]
    rw [get_insert B _ _ hlt]
    by_cases hkey : key = UInt64.ofNat n
    · rw [if_pos hkey, if_pos (by rw [hkey, hnat]; exact Nat.lt_succ_self n), hkey]
    · have hne : key.toNat ≠ n := fun h => hkey (UInt64.toNat_inj.mp (h.trans hnat.symm))
      rw [if_neg hkey]
      refine (ih (Nat.le_of_succ_le hn)).trans ?_
      exact if_congr ⟨fun h => h.trans (Nat.lt_succ_self n),
        fun h => lt_of_le_of_ne (Nat.le_of_lt_succ h) hne⟩ rfl rfl

/-- **The constructor puts a thousand keys in place.** -/
theorem get_new (key : UInt64) : get B (new B) key = if key < 1000 then key else 0 := by
  have hlt : key.toNat < 1000 ↔ key < 1000 :=
    (UInt64.lt_iff_toNat_lt (b := 1000)).symm
  exact (get_insertBelow B (by decide) key).trans (if_congr hlt rfl rfl)

/-- **After any calls a key that was put has the value of its last `Put`**, and
any other key what the constructor gave it. -/
theorem get_putAll (puts : List PutCall) (key : UInt64) :
    get B (putAll B puts) key
      = (LastWrite.lastWrite PutCall.key puts key).elim (get B (new B) key) PutCall.newVal := by
  induction puts using List.reverseRecOn with
  | nil =>
    rw [show LastWrite.lastWrite PutCall.key [] key = none from rfl, Option.elim_none]
    unfold putAll
    rw [List.foldl_nil]
  | append_singleton puts call ih =>
    unfold putAll at ih ⊢
    rw [List.foldl_append, List.foldl_cons, List.foldl_nil, LastWrite.lastWrite_concat]
    unfold put at ih ⊢
    rw [get_insert B _ _ call.newVal_lt]
    by_cases hkey : call.key = key
    · rw [if_pos hkey.symm, if_pos hkey]
      rfl
    · rw [if_neg (Ne.symm hkey), if_neg hkey]
      exact ih

/-! ## Phantoms -/

/-- What a store that overwrites holds for a key after the calls. -/
def lastPut (puts : List PutCall) (key : UInt64) : UInt64 :=
  (LastWrite.lastWrite PutCall.key puts key).elim 0 PutCall.newVal

/-- **The key is no phantom**: `Get` answers the value of its last `Put`, or
`INVALID_VALUE`, and `DB::Worker::Get` follows only a pointer that was put for
it. -/
def NoPhantom (puts : List PutCall) (key : UInt64) : Prop :=
  get B (putAll B puts) key = lastPut puts key ∧
    ∀ v, followed B (putAll B puts) key = some v → ∃ call ∈ puts, call.key = key ∧ call.newVal = v

/-- A pointer that is followed is the answer of `Get`, and not zero. -/
theorem followed_eq_some {tree : σ} {key v : UInt64} (h : followed B tree key = some v) :
    get B tree key = v ∧ v ≠ 0 := by
  unfold followed at h
  split at h
  case isTrue hne =>
    cases h
    exact ⟨rfl, hne⟩
  case isFalse => cases h

/-- An index that answers as it should is not followed anywhere else. -/
theorem noPhantom_iff_get (puts : List PutCall) (key : UInt64) :
    NoPhantom B puts key ↔ get B (putAll B puts) key = lastPut puts key := by
  refine ⟨fun h => h.1, fun hget => ⟨hget, fun v hv => ?_⟩⟩
  obtain ⟨hv, hne⟩ := followed_eq_some B hv
  rw [hget] at hv
  unfold lastPut at hv
  cases hlast : LastWrite.lastWrite PutCall.key puts key with
  | none =>
    rw [hlast] at hv
    exact absurd hv.symm hne
  | some last =>
    rw [hlast] at hv
    obtain ⟨hmem, hkey⟩ := LastWrite.mem_of_lastWrite PutCall.key hlast
    exact ⟨last, hmem, hkey, hv⟩

/-- **Which keys are no phantoms**: those that were put, the zero, and those that
the constructor does not insert. -/
theorem noPhantom_iff (puts : List PutCall) (key : UInt64) :
    NoPhantom B puts key ↔ (∃ call ∈ puts, call.key = key) ∨ key = 0 ∨ 1000 ≤ key := by
  rw [noPhantom_iff_get, get_putAll]
  unfold lastPut
  cases hlast : LastWrite.lastWrite PutCall.key puts key with
  | some last =>
    obtain ⟨hmem, hkey⟩ := LastWrite.mem_of_lastWrite PutCall.key hlast
    exact iff_of_true rfl (Or.inl ⟨last, hmem, hkey⟩)
  | none =>
    have hnot : ¬ ∃ call ∈ puts, call.key = key := by
      rintro ⟨call, hcall, hkey⟩
      obtain ⟨last, hsome⟩ := LastWrite.exists_lastWrite PutCall.key hcall hkey
      rw [hlast] at hsome
      cases hsome
    rw [Option.elim_none, Option.elim_none, get_new, or_iff_right hnot]
    by_cases hlt : key < 1000
    · rw [if_pos hlt, or_iff_left (UInt64.not_le.mpr hlt)]
    · rw [if_neg hlt]
      exact iff_of_true rfl (Or.inr (UInt64.not_lt.mp hlt))

/-- **The key 5 of an index nothing was put in**: the worker follows the pointer 5. -/
theorem not_noPhantom_five :
    followed BTree.map (putAll BTree.map []) 5 = some 5 ∧ ¬ NoPhantom BTree.map [] 5 := by
  have hget : get BTree.map (putAll BTree.map []) 5 = 5 :=
    (get_putAll BTree.map [] 5).trans (get_new BTree.map 5)
  have hfollowed : followed BTree.map (putAll BTree.map []) 5 = some 5 := by
    unfold followed
    rw [hget]
    rfl
  refine ⟨hfollowed, fun h => ?_⟩
  obtain ⟨call, hcall, -⟩ := h.2 5 hfollowed
  cases hcall

/-! ## The adapter in the model of the fork -/

/-- The word of an entry, if the items of the log have the addresses `ptr`. -/
def encode (ptr : Addr → UInt64) : ValueType → UInt64
  | .item a => ptr a
  | .raw n => UInt64.ofNat n

/-- **The tree of words holds what the tree of entries does.** -/
def Represents (ptr : Addr → UInt64) (tree : σ) (entries : KeyTree) : Prop :=
  ∀ key, get B tree key = (entries key).elim 0 (encode ptr)

theorem represents_new (ptr : Addr → UInt64) : Represents B ptr (new B) nbPreloaded := by
  intro key
  rw [get_new]
  unfold nbPreloaded
  by_cases h : key < 1000
  · rw [if_pos h, if_pos h]
    exact (UInt64.ofNat_toNat).symm
  · rw [if_neg h, if_neg h]
    rfl

theorem represents_put {ptr : Addr → UInt64} {tree : σ} {entries : KeyTree}
    (h : Represents B ptr tree entries) (key : Slice) {call : PutCall} {a : Addr}
    (hkey : call.key = key.word) (hval : call.newVal = ptr a) :
    Represents B ptr (put B tree call) (nbTreeIndex.put entries key (.item a)).1 := by
  intro key'
  unfold put
  rw [get_insert B _ _ call.newVal_lt, hkey, hval]
  show _ = (Function.update entries key.word (some (.item a)) key').elim 0 (encode ptr)
  by_cases hk : key' = key.word
  · rw [if_pos hk, hk, Function.update_self]
    rfl
  · rw [if_neg hk, Function.update_of_ne hk]
    exact h key'

/-- `Get` answers `INVALID_VALUE` where the model of the fork has no entry. -/
theorem get_of_represents {ptr : Addr → UInt64} {tree : σ} {entries : KeyTree}
    (h : Represents B ptr tree entries) (key : Slice) :
    get B tree key.word = (nbTreeIndex.get entries key).elim 0 (encode ptr) := by
  rw [h key.word]
  show _ = (nbValue (entries key.word)).elim 0 (encode ptr)
  unfold nbValue
  split
  case h_1 hzero =>
    rw [hzero]
    rfl
  case h_2 => rfl

end NBTreeIndex

end FlatStore
