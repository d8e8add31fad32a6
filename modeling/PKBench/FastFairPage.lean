import Mathlib.Algebra.Group.Nat.Defs
import Mathlib.Data.List.Sort
import PKBench.Loads

/-!
# Pages of the FAST_FAIR tree

The default index of flatstore-pacman is a B+-tree whose pages are kept sorted in
place. A page is an array of entries ended by a null pointer, and its writers
are the only ones to lock it: `insert_key` makes room by moving the entries behind
the new one to the right, last one first, with one eight-byte store after the
other, while `linear_search` reads the same array without a lock. An entry whose
pointer equals the pointer to its left is one that is being moved, and a reader
skips it.

`insert_key` is therefore given by the list of its stores, and the searches are
programs of loads (`PKBench.Loads`). This module says what they come to when
nobody interferes: on a page that holds a sorted list of entries (`Holds`) the
insertion leaves the list with the entry in its place (`Holds.insertKey`), and the
searches find what the list says (`Holds.returns_leafSearch`,
`Holds.returns_internalSearch`), in both of their directions.
-/

open Loads

namespace FastFair

/-! ## Pages -/

/-- **What a `char *` of a page holds.** Pages and log items do not share addresses. -/
inductive Ptr (V : Type) where
  | null
  | page (a : ℕ)
  | value (v : V)
  deriving DecidableEq

/-- `entry`, with the key `LONG_MAX` its constructor gives it. -/
structure Entry (V : Type) where
  key : ℕ := 2 ^ 63 - 1
  ptr : Ptr V := .null
  deriving DecidableEq

/-- **`page`**: the fields of its header, and the slots. -/
structure Page (V : Type) where
  leftmostPtr : Ptr V := .null
  siblingPtr : Ptr V := .null
  level : ℕ := 0
  switchCounter : UInt8 := 0
  isDeleted : Bool := false
  lastIndex : ℤ := -1
  fenceKey : ℕ := 0
  records : ℕ → Entry V := fun _ => {}

/-- `(PAGESIZE - sizeof(header)) / sizeof(entry)`. -/
def cardinality : ℕ := (512 - 48) / 16

/-- `IS_FORWARD`. -/
def isForward (c : UInt8) : Bool := c % 2 == 0

variable {V : Type}

/-- The pointer to the left of a slot: that of the slot before, or `leftmost_ptr`. -/
def Page.prevPtr (p : Page V) : ℕ → Ptr V
  | 0 => p.leftmostPtr
  | i + 1 => (p.records i).ptr

/-! ## Stores -/

/-- **A store to a page**, of a key, a pointer or a field of the header. -/
inductive Store (V : Type) where
  | key (i : ℕ) (k : ℕ)
  | ptr (i : ℕ) (t : Ptr V)
  | switchCounter (c : UInt8)
  | lastIndex (n : ℤ)

/-- The page after a store. -/
def Page.store (p : Page V) : Store V → Page V
  | .key i k => { p with records := Function.update p.records i { p.records i with key := k } }
  | .ptr i t => { p with records := Function.update p.records i { p.records i with ptr := t } }
  | .switchCounter c => { p with switchCounter := c }
  | .lastIndex n => { p with lastIndex := n }

/-- The page after several stores. -/
def Page.storeAll (p : Page V) (stores : List (Store V)) : Page V := stores.foldl Page.store p

/-! ## `insert_key` -/

/-- The slot the loop of `insert_key` ends at, of the first `i` entries and the hole
behind them. -/
def insertSlot (key : ℕ) (p : Page V) : ℕ → ℕ
  | 0 => 0
  | i + 1 => if key < (p.records i).key then insertSlot key p i else i + 1

/-- **The loop of `insert_key`** with the hole at a slot: an entry with a greater
key moves into the hole, pointer first, and otherwise the new entry goes there. -/
def insertShift (key : ℕ) (ptr : Ptr V) : ℕ → Page V → List (Store V)
  | 0, p => [.ptr 0 p.leftmostPtr, .key 0 key, .ptr 0 ptr]
  | i + 1, p =>
    if key < (p.records i).key then
      let p₁ := p.store (.ptr (i + 1) (p.records i).ptr)
      .ptr (i + 1) (p.records i).ptr :: .key (i + 1) (p₁.records i).key ::
        insertShift key ptr i (p₁.store (.key (i + 1) (p₁.records i).key))
    else [.ptr (i + 1) (p.records i).ptr, .key (i + 1) key, .ptr (i + 1) ptr]

/-- The stores to the slots that `insert_key` makes. -/
def insertSlots (p : Page V) (key : ℕ) (ptr : Ptr V) (numEntries : ℕ) : List (Store V) :=
  if numEntries = 0 then [.key 0 key, .ptr 0 ptr, .ptr 1 .null]
  else
    let s := Store.ptr (numEntries + 1) (p.records numEntries).ptr
    s :: insertShift key ptr numEntries (p.store s)

/-- The store by which `insert_key` turns the searches to the right. -/
def turnForward (p : Page V) : List (Store V) :=
  if isForward p.switchCounter then [] else [.switchCounter (p.switchCounter + 1)]

/-- **`page::insert_key`**: its stores, in their order. -/
def insertStores (p : Page V) (key : ℕ) (ptr : Ptr V) (numEntries : ℕ) : List (Store V) :=
  turnForward p ++ insertSlots (p.storeAll (turnForward p)) key ptr numEntries
    ++ [.lastIndex numEntries]

/-- The page after `insert_key`. -/
def insertKey (p : Page V) (key : ℕ) (ptr : Ptr V) (numEntries : ℕ) : Page V :=
  p.storeAll (insertStores p key ptr numEntries)

/-! ## The search of `store` for its key -/

/-- The loop "try update" of `page::store`, over so many entries from a slot on. -/
def findKey (key : ℕ) (p : Page V) : ℕ → ℕ → Option ℕ
  | 0, _ => none
  | m + 1, i =>
    if (p.records i).key = key then some i
    else if key < (p.records i).key then none
    else findKey key p m (i + 1)

/-! ## `count` -/

/-- The loops of `count`: to the next null pointer, in a direction. -/
def countLoop (forward : Bool) : ℕ → ℤ → Prog (Page V) ℤ
  | 0, _ => stuck
  | fuel + 1, c =>
    if c < 0 then pure c
    else do
      let t ← look fun p => (p.records c.toNat).ptr
      match t with
      | .null => pure c
      | _ => countLoop forward fuel (if forward then c + 1 else c - 1)

/-- **`page::count`**, with as many tries as `switch_counter` is let to move. -/
def count : ℕ → Prog (Page V) ℤ
  | 0 => stuck
  | tries + 1 => do
    let prev ← look Page.switchCounter
    let last ← look Page.lastIndex
    let c ← countLoop (isForward prev) (cardinality + 1) (last + 1)
    let c ← if c < 0 then countLoop true (cardinality + 1) 0 else pure c
    let now ← look Page.switchCounter
    if prev = now then pure c else count tries

/-! ## `linear_search` -/

variable [DecidableEq V]

/-- The two loads of `records[i - 1].ptr != (t = records[i].ptr)`. The language does
not say which comes first. -/
def lookBoth (curFirst : Bool) (i : ℕ) : Prog (Page V) (Ptr V × Ptr V) :=
  if curFirst then do
    let t ← look fun p => (p.records i).ptr
    let prev ← look fun p => p.prevPtr i
    pure (prev, t)
  else do
    let prev ← look fun p => p.prevPtr i
    let t ← look fun p => (p.records i).ptr
    pure (prev, t)

/-- The first slot of a leaf, which has no pointer to its left. -/
def leafZero (key : ℕ) : Prog (Page V) (Ptr V) := do
  let k ← look fun p => (p.records 0).key
  if k ≠ key then pure .null
  else do
    let t ← look fun p => (p.records 0).ptr
    if t = .null then pure .null
    else do
      let k ← look fun p => (p.records 0).key
      if k ≠ key then pure .null else pure t

/-- The search of a leaf from left to right, from a slot on. -/
def leafForward (curFirst : Bool) (key : ℕ) : ℕ → ℕ → Prog (Page V) (Ptr V)
  | 0, _ => stuck
  | fuel + 1, i => do
    let q ← look fun p => (p.records i).ptr
    if q = .null then pure .null
    else do
      let k ← look fun p => (p.records i).key
      if k ≠ key then leafForward curFirst key fuel (i + 1)
      else do
        let (prev, t) ← lookBoth curFirst i
        if prev = t then leafForward curFirst key fuel (i + 1)
        else do
          let k ← look fun p => (p.records i).key
          if k ≠ key then leafForward curFirst key fuel (i + 1) else pure t

/-- The search of a leaf from right to left, down to the second slot. -/
def leafBackward (curFirst : Bool) (key : ℕ) : ℕ → Prog (Page V) (Ptr V)
  | 0 => pure .null
  | i + 1 => do
    let k ← look fun p => (p.records (i + 1)).key
    if k ≠ key then leafBackward curFirst key i
    else do
      let (prev, t) ← lookBoth curFirst (i + 1)
      if prev = t ∨ t = .null then leafBackward curFirst key i
      else do
        let k ← look fun p => (p.records (i + 1)).key
        if k ≠ key then leafBackward curFirst key i else pure t

/-- One round of the search of a leaf. -/
def leafRound (curFirst : Bool) (key tries : ℕ) (forward : Bool) : Prog (Page V) (Ptr V) :=
  if forward then do
    let t ← leafZero key
    if t ≠ .null then pure t else leafForward curFirst key cardinality 1
  else do
    let c ← count tries
    let t ← leafBackward curFirst key (c - 1).toNat
    if t ≠ .null then pure t else leafZero key

/-- The sibling, if the key belongs to it or further right, by the fence keys. -/
def siblingFor (fence : ℕ → ℕ) (key : ℕ) : Ptr V → Ptr V
  | .page a => if fence a ≤ key then .page a else .null
  | _ => .null

/-- **`page::linear_search` on a leaf.** -/
def leafSearch (curFirst : Bool) (fence : ℕ → ℕ) (key : ℕ) : ℕ → Prog (Page V) (Ptr V)
  | 0 => stuck
  | tries + 1 => do
    let prev ← look Page.switchCounter
    let ret ← leafRound curFirst key (tries + 1) (isForward prev)
    let now ← look Page.switchCounter
    if now ≠ prev then leafSearch curFirst fence key tries
    else if ret ≠ .null then pure ret
    else do
      let s ← look Page.siblingPtr
      pure (siblingFor fence key s)

/-- The search of an internal page from left to right, from a slot on. -/
def internalForward (key : ℕ) : ℕ → ℕ → Prog (Page V) (Ptr V)
  | 0, _ => stuck
  | fuel + 1, i => do
    let q ← look fun p => (p.records i).ptr
    if q = .null then look fun p => p.prevPtr i
    else do
      let k ← look fun p => (p.records i).key
      if ¬ key < k then internalForward key fuel (i + 1)
      else do
        let t ← look fun p => p.prevPtr i
        let q ← look fun p => (p.records i).ptr
        if t = q then internalForward key fuel (i + 1)
        else if t = .null then look fun p => p.prevPtr i
        else pure t

/-- The search of an internal page from right to left, below a slot. -/
def internalBackward (curFirst : Bool) (key : ℕ) : ℕ → Prog (Page V) (Ptr V)
  | 0 => pure .null
  | i + 1 => do
    let k ← look fun p => (p.records i).key
    if ¬ k ≤ key then internalBackward curFirst key i
    else do
      let (prev, t) ← lookBoth curFirst i
      if prev = t then internalBackward curFirst key i else pure t

/-- One round of the search of an internal page. -/
def internalRound (curFirst : Bool) (key tries : ℕ) (forward : Bool) : Prog (Page V) (Ptr V) :=
  if forward then do
    let k ← look fun p => (p.records 0).key
    if ¬ key < k then internalForward key cardinality 1
    else do
      let t ← look Page.leftmostPtr
      let q ← look fun p => (p.records 0).ptr
      if t = q then internalForward key cardinality 1 else pure t
  else do
    let c ← count tries
    internalBackward curFirst key c.toNat

/-- **`page::linear_search` on an internal page.** -/
def internalSearch (curFirst : Bool) (fence : ℕ → ℕ) (key : ℕ) : ℕ → Prog (Page V) (Ptr V)
  | 0 => stuck
  | tries + 1 => do
    let prev ← look Page.switchCounter
    let ret ← internalRound curFirst key (tries + 1) (isForward prev)
    let now ← look Page.switchCounter
    if now ≠ prev then internalSearch curFirst fence key tries
    else do
      let s ← look Page.siblingPtr
      if siblingFor fence key s ≠ .null then pure (siblingFor fence key s)
      else if ret ≠ .null then pure ret
      else look Page.leftmostPtr

/-- **`page::linear_search`.** -/
def linearSearch (curFirst : Bool) (fence : ℕ → ℕ) (key tries : ℕ) : Prog (Page V) (Ptr V) := do
  let leftmost ← look Page.leftmostPtr
  if leftmost = .null then leafSearch curFirst fence key tries
  else internalSearch curFirst fence key tries

/-! ## What a page holds -/

omit [DecidableEq V] in
/-- **A page holds a list of entries**: they fill its first slots, sorted by their
keys, with pointers that differ from each other and from `leftmost_ptr`, and the
next slot has a null pointer. -/
structure Holds (p : Page V) (l : List (Entry V)) : Prop where
  records : ∀ (i : ℕ) (h : i < l.length), p.records i = l[i]
  ends : (p.records l.length).ptr = .null
  empty : l = [] → (p.records 1).ptr = .null
  lastIndex : p.lastIndex = (l.length : ℤ) - 1
  sorted : l.Pairwise (fun a b => a.key < b.key)
  nodup : (p.leftmostPtr :: l.map Entry.ptr).Nodup
  ptr_ne_null : ∀ e ∈ l, e.ptr ≠ .null
  length_lt : l.length < cardinality

namespace Holds

variable {p : Page V} {l : List (Entry V)}

omit [DecidableEq V]

theorem ptr_ne (h : Holds p l) {i : ℕ} (hi : i < l.length) : (p.records i).ptr ≠ .null := by
  rw [h.records i hi]
  exact h.ptr_ne_null _ (List.getElem_mem hi)

/-- No entry of the page is one that is being moved. -/
theorem prevPtr_ne (h : Holds p l) {i : ℕ} (hi : i < l.length) :
    p.prevPtr i ≠ (p.records i).ptr := by
  obtain ⟨hleft, hnodup⟩ := List.nodup_cons.mp h.nodup
  cases i with
  | zero =>
    intro heq
    refine hleft (List.mem_map.mpr ⟨l[0], List.getElem_mem hi, ?_⟩)
    rw [← h.records 0 hi]
    exact heq.symm
  | succ i =>
    have hi' : i < l.length := Nat.lt_of_succ_lt hi
    have hne := List.pairwise_iff_getElem.mp (List.pairwise_map.mp hnodup) i (i + 1) hi' hi
      (Nat.lt_succ_self i)
    show (p.records i).ptr ≠ (p.records (i + 1)).ptr
    rw [h.records i hi', h.records (i + 1) hi]
    exact hne

theorem key_lt (h : Holds p l) {i j : ℕ} (hij : i < j) (hj : j < l.length) :
    (p.records i).key < (p.records j).key := by
  have hi : i < l.length := hij.trans hj
  rw [h.records i hi, h.records j hj]
  exact List.pairwise_iff_getElem.mp h.sorted i j hi hj hij

/-- `store` finds a key of the page. -/
theorem findKey (h : Holds p l) {key s : ℕ} (hs : s < l.length) (hk : (p.records s).key = key)
    {m i : ℕ} (his : i ≤ s) (hm : s < i + m) : findKey key p m i = some s := by
  induction m generalizing i with
  | zero => omega
  | succ m ih =>
    unfold FastFair.findKey
    by_cases heq : i = s
    · subst heq
      rw [if_pos hk]
    · have hlt : (p.records i).key < key := hk ▸ h.key_lt (by omega) hs
      rw [if_neg hlt.ne, if_neg hlt.not_gt]
      exact ih (by omega) (by omega)

/-- `store` finds no other key. -/
theorem findKey_eq_none (h : Holds p l) {key : ℕ} (hk : ∀ e ∈ l, e.key ≠ key) {m i : ℕ}
    (hm : i + m ≤ l.length) : FastFair.findKey key p m i = none := by
  induction m generalizing i with
  | zero => rfl
  | succ m ih =>
    have hi : i < l.length := by omega
    have hne : (p.records i).key ≠ key := h.records i hi ▸ hk _ (List.getElem_mem hi)
    unfold FastFair.findKey
    rw [if_neg hne]
    split
    · rfl
    · exact ih (by omega)

end Holds

/-! ## The searches when nobody interferes -/

section Atomic

variable {p : Page V} {l : List (Entry V)} {key : ℕ}

omit [DecidableEq V] in
theorem returns_lookBoth (curFirst : Bool) (p : Page V) (i : ℕ) :
    Returns (lookBoth curFirst i) p (p.prevPtr i, (p.records i).ptr) := by
  cases curFirst
  · exact Returns.look_bind (Returns.look_bind (Returns.pure _ _))
  · exact Returns.look_bind (Returns.look_bind (Returns.pure _ _))

omit [DecidableEq V] in
theorem Holds.returns_count (h : Holds p l) (tries : ℕ) :
    Returns (count (tries + 1)) p (l.length : ℤ) := by
  have hc : p.lastIndex + 1 = (l.length : ℤ) := by rw [h.lastIndex]; omega
  have hloop : ∀ forward, Returns (countLoop forward (cardinality + 1) (p.lastIndex + 1)) p
      (l.length : ℤ) := by
    intro forward
    rw [hc]
    unfold countLoop
    rw [if_neg (by omega)]
    refine Returns.look_bind ?_
    rw [Int.toNat_natCast, h.ends]
    exact Returns.pure _ _
  refine Returns.look_bind (Returns.look_bind (Returns.bind (hloop _) ?_))
  rw [if_neg (by omega)]
  refine Returns.bind (Returns.pure _ _) (Returns.look_bind ?_)
  rw [if_pos rfl]
  exact Returns.pure _ _

/-- What the first slot answers. -/
theorem returns_leafZero (p : Page V) (key : ℕ) :
    Returns (leafZero key) p (if (p.records 0).key = key then (p.records 0).ptr else .null) := by
  refine Returns.look_bind ?_
  by_cases hk : (p.records 0).key = key
  · rw [if_neg (not_not.mpr hk), if_pos hk]
    refine Returns.look_bind ?_
    by_cases ht : (p.records 0).ptr = .null
    · rw [if_pos ht, ht]
      exact Returns.pure _ _
    · rw [if_neg ht]
      refine Returns.look_bind ?_
      rw [if_neg (not_not.mpr hk)]
      exact Returns.pure _ _
  · rw [if_pos hk, if_neg hk]
    exact Returns.pure _ _

/-- A slot with another key is passed over. -/
theorem Holds.returns_leafForward_of_ne (h : Holds p l) {curFirst : Bool} {fuel i : ℕ} {t : Ptr V}
    (hi : i < l.length) (hk : (p.records i).key ≠ key)
    (hrest : Returns (leafForward curFirst key fuel (i + 1)) p t) :
    Returns (leafForward curFirst key (fuel + 1) i) p t := by
  refine Returns.look_bind ?_
  rw [if_neg (h.ptr_ne hi)]
  refine Returns.look_bind ?_
  rw [if_pos hk]
  exact hrest

/-- From left to right, a key of the page is found. -/
theorem Holds.returns_leafForward (h : Holds p l) (curFirst : Bool) {s : ℕ} (hs : s < l.length)
    (hk : (p.records s).key = key) {fuel i : ℕ} (his : i ≤ s) (hfuel : s < i + fuel) :
    Returns (leafForward curFirst key fuel i) p (p.records s).ptr := by
  induction fuel generalizing i with
  | zero => omega
  | succ fuel ih =>
    by_cases heq : i = s
    · subst heq
      refine Returns.look_bind ?_
      rw [if_neg (h.ptr_ne hs)]
      refine Returns.look_bind ?_
      rw [if_neg (not_not.mpr hk)]
      refine Returns.bind (returns_lookBoth curFirst p i) ?_
      show Returns (if p.prevPtr i = (p.records i).ptr then _ else _) p _
      rw [if_neg (h.prevPtr_ne hs)]
      refine Returns.look_bind ?_
      rw [if_neg (not_not.mpr hk)]
      exact Returns.pure _ _
    · have hlt : i < s := by omega
      refine h.returns_leafForward_of_ne (hlt.trans hs) ?_ (ih (by omega) (by omega))
      exact ne_of_lt (hk ▸ h.key_lt hlt hs)

/-- From left to right, a key that is not in the page is not found. -/
theorem Holds.returns_leafForward_null (h : Holds p l) (curFirst : Bool)
    (hk : ∀ i < l.length, (p.records i).key ≠ key) {fuel i : ℕ} (hi : i ≤ l.length)
    (hfuel : l.length < i + fuel) : Returns (leafForward curFirst key fuel i) p .null := by
  induction fuel generalizing i with
  | zero => omega
  | succ fuel ih =>
    by_cases heq : i = l.length
    · subst heq
      refine Returns.look_bind ?_
      rw [if_pos h.ends]
      exact Returns.pure _ _
    · have hlt : i < l.length := by omega
      exact h.returns_leafForward_of_ne hlt (hk i hlt) (ih (by omega) (by omega))

/-- From right to left, a key of the page is found. -/
theorem Holds.returns_leafBackward (h : Holds p l) (curFirst : Bool) {s : ℕ} (hs : s < l.length)
    (hpos : 0 < s) (hk : (p.records s).key = key) {i : ℕ} (his : s ≤ i) (hi : i < l.length) :
    Returns (leafBackward curFirst key i) p (p.records s).ptr := by
  induction i with
  | zero => omega
  | succ i ih =>
    refine Returns.look_bind ?_
    by_cases heq : i + 1 = s
    · subst heq
      rw [if_neg (not_not.mpr hk)]
      refine Returns.bind (returns_lookBoth curFirst p (i + 1)) ?_
      show Returns (if p.prevPtr (i + 1) = (p.records (i + 1)).ptr ∨ _ then _ else _) p _
      rw [if_neg (not_or.mpr ⟨h.prevPtr_ne hs, h.ptr_ne hs⟩)]
      refine Returns.look_bind ?_
      rw [if_neg (not_not.mpr hk)]
      exact Returns.pure _ _
    · have hlt : s < i + 1 := by omega
      rw [if_pos (ne_of_gt (hk ▸ h.key_lt hlt hi))]
      exact ih (by omega) (by omega)

/-- From right to left, a key in none of the slots below is not found. -/
theorem Holds.returns_leafBackward_null (curFirst : Bool) {i : ℕ}
    (hk : ∀ j, 0 < j → j ≤ i → (p.records j).key ≠ key) :
    Returns (leafBackward curFirst key i) p .null := by
  induction i with
  | zero => exact Returns.pure _ _
  | succ i ih =>
    refine Returns.look_bind ?_
    rw [if_pos (hk (i + 1) (by omega) le_rfl)]
    exact ih (fun j hpos hj => hk j hpos (by omega))

/-- In both directions, a key of the page is found. -/
theorem Holds.returns_leafRound (h : Holds p l) (curFirst : Bool) {s : ℕ} (hs : s < l.length)
    (hk : (p.records s).key = key) (tries : ℕ) (forward : Bool) :
    Returns (leafRound curFirst key (tries + 1) forward) p (p.records s).ptr := by
  have hne := h.ptr_ne hs
  have hzero : 0 < s → (p.records 0).key ≠ key := fun hpos => ne_of_lt (hk ▸ h.key_lt hpos hs)
  cases forward
  · refine Returns.bind (h.returns_count tries) ?_
    have hcast : ((l.length : ℤ) - 1).toNat = l.length - 1 := by omega
    rw [hcast]
    by_cases hpos : 0 < s
    · refine Returns.bind (h.returns_leafBackward curFirst hs hpos hk (by omega) (by omega)) ?_
      rw [if_pos hne]
      exact Returns.pure _ _
    · obtain rfl : s = 0 := by omega
      have hnull : Returns (leafBackward curFirst key (l.length - 1)) p .null := by
        refine Holds.returns_leafBackward_null curFirst (fun j hj hle => ?_)
        exact ne_of_gt (hk ▸ h.key_lt hj (by omega))
      refine Returns.bind hnull ?_
      rw [if_neg (not_not.mpr rfl)]
      have := returns_leafZero p key
      rwa [if_pos hk] at this
  · refine Returns.bind (returns_leafZero p key) ?_
    by_cases hpos : 0 < s
    · rw [if_neg (hzero hpos), if_neg (not_not.mpr rfl)]
      exact h.returns_leafForward curFirst hs hk (by omega) (by have := h.length_lt; omega)
    · obtain rfl : s = 0 := by omega
      rw [if_pos hk, if_pos hne]
      exact Returns.pure _ _

/-- In both directions, a key that is not in the page is not found. -/
theorem Holds.returns_leafRound_null (h : Holds p l) (curFirst : Bool)
    (hk : ∀ i < l.length, (p.records i).key ≠ key) (tries : ℕ) (forward : Bool) :
    Returns (leafRound curFirst key (tries + 1) forward) p .null := by
  have hzero : (if (p.records 0).key = key then (p.records 0).ptr else .null) = .null := by
    split
    · by_contra hne
      rcases Nat.eq_zero_or_pos l.length with hnil | hpos
      · exact hne (hnil ▸ h.ends)
      · exact hk 0 hpos ‹_›
    · rfl
  have hleafZero := returns_leafZero p key
  rw [hzero] at hleafZero
  cases forward
  · refine Returns.bind (h.returns_count tries) ?_
    have hnull : Returns (leafBackward curFirst key ((l.length : ℤ) - 1).toNat) p .null :=
      Holds.returns_leafBackward_null curFirst (fun j hpos hj => hk j (by omega))
    refine Returns.bind hnull ?_
    rw [if_neg (not_not.mpr rfl)]
    exact hleafZero
  · refine Returns.bind hleafZero ?_
    rw [if_neg (not_not.mpr rfl)]
    rcases Nat.eq_zero_or_pos l.length with hnil | hpos
    · refine Returns.look_bind ?_
      rw [if_pos (h.empty (List.length_eq_zero_iff.mp hnil))]
      exact Returns.pure _ _
    · exact h.returns_leafForward_null curFirst hk (by omega) (by have := h.length_lt; omega)

/-- A key of the leaf is found. -/
theorem Holds.returns_leafSearch (h : Holds p l) (curFirst : Bool) (fence : ℕ → ℕ) {s : ℕ}
    (hs : s < l.length) (hk : (p.records s).key = key) (tries : ℕ) :
    Returns (leafSearch curFirst fence key (tries + 1)) p (p.records s).ptr := by
  refine Returns.look_bind (Returns.bind (h.returns_leafRound curFirst hs hk tries _) ?_)
  refine Returns.look_bind ?_
  rw [if_neg (not_not.mpr rfl), if_pos (h.ptr_ne hs)]
  exact Returns.pure _ _

/-- A key that is not in the leaf is sent to the sibling, or is not there. -/
theorem Holds.returns_leafSearch_sibling (h : Holds p l) (curFirst : Bool) (fence : ℕ → ℕ)
    (hk : ∀ i < l.length, (p.records i).key ≠ key) (tries : ℕ) :
    Returns (leafSearch curFirst fence key (tries + 1)) p (siblingFor fence key p.siblingPtr) := by
  refine Returns.look_bind (Returns.bind (h.returns_leafRound_null curFirst hk tries _) ?_)
  refine Returns.look_bind ?_
  rw [if_neg (not_not.mpr rfl), if_neg (not_not.mpr rfl)]
  exact Returns.look_bind (Returns.pure _ _)

/-- From left to right, the child left of the first greater key is found. -/
theorem Holds.returns_internalForward (h : Holds p l) {s : ℕ} (hs : s ≤ l.length)
    (hle : ∀ i < s, (p.records i).key ≤ key) (hlt : s < l.length → key < (p.records s).key)
    {fuel i : ℕ} (his : i ≤ s) (hpos : 0 < i) (hfuel : s < i + fuel) :
    Returns (internalForward key fuel i) p (p.prevPtr s) := by
  induction fuel generalizing i with
  | zero => omega
  | succ fuel ih =>
    refine Returns.look_bind ?_
    by_cases heq : i = s
    · subst heq
      by_cases hend : i = l.length
      · rw [if_pos (hend ▸ h.ends)]
        exact Returns.look _ _
      · have hi : i < l.length := by omega
        have hprev : p.prevPtr i ≠ .null := by
          obtain ⟨j, rfl⟩ := Nat.exists_eq_succ_of_ne_zero hpos.ne'
          exact h.ptr_ne (i := j) (by omega)
        rw [if_neg (h.ptr_ne hi)]
        refine Returns.look_bind ?_
        rw [if_neg (not_not.mpr (hlt hi))]
        refine Returns.look_bind (Returns.look_bind ?_)
        rw [if_neg (h.prevPtr_ne hi), if_neg hprev]
        exact Returns.pure _ _
    · have hi : i < s := by omega
      rw [if_neg (h.ptr_ne (hi.trans_le hs))]
      refine Returns.look_bind ?_
      rw [if_pos (not_lt.mpr (hle i hi))]
      exact ih (by omega) (by omega) (by omega)

/-- From right to left, the child right of the last key that is not greater is
found, or none if there is no such key. -/
theorem Holds.returns_internalBackward (h : Holds p l) (curFirst : Bool) {s : ℕ}
    (hs : s ≤ l.length) (hle : ∀ i < s, (p.records i).key ≤ key)
    (hgt : ∀ i, s ≤ i → i < l.length → key < (p.records i).key) {i : ℕ} (his : s ≤ i)
    (hi : i ≤ l.length) :
    Returns (internalBackward curFirst key i) p (if s = 0 then .null else p.prevPtr s) := by
  induction i with
  | zero =>
    rw [if_pos (by omega)]
    exact Returns.pure _ _
  | succ i ih =>
    refine Returns.look_bind ?_
    by_cases heq : i + 1 = s
    · subst heq
      rw [if_neg (not_not.mpr (hle i (by omega))), if_neg (Nat.succ_ne_zero i)]
      refine Returns.bind (returns_lookBoth curFirst p i) ?_
      show Returns (if p.prevPtr i = (p.records i).ptr then _ else _) p _
      rw [if_neg (h.prevPtr_ne (by omega))]
      exact Returns.pure _ _
    · rw [if_pos (not_le.mpr (hgt i (by omega) (by omega)))]
      exact ih (by omega) (by omega)

/-- The sibling if the key belongs there, and otherwise the child between the keys
around it. -/
theorem Holds.returns_internalSearch (h : Holds p l) (curFirst : Bool) (fence : ℕ → ℕ) {s : ℕ}
    (hnil : l ≠ []) (hs : s ≤ l.length) (hle : ∀ i < s, (p.records i).key ≤ key)
    (hgt : ∀ i, s ≤ i → i < l.length → key < (p.records i).key) (hleft : p.leftmostPtr ≠ .null)
    (tries : ℕ) :
    Returns (internalSearch curFirst fence key (tries + 1)) p
      (if siblingFor fence key p.siblingPtr ≠ .null then siblingFor fence key p.siblingPtr
        else p.prevPtr s) := by
  have hlen : 0 < l.length := List.length_pos_of_ne_nil hnil
  have hprev : p.prevPtr s ≠ .null := by
    cases s with
    | zero => exact hleft
    | succ s => exact h.ptr_ne (i := s) (by omega)
  have hround : ∃ t, Returns (internalRound curFirst key (tries + 1) (isForward p.switchCounter)) p
      t ∧ (if t ≠ .null then t else p.leftmostPtr) = p.prevPtr s := by
    cases isForward p.switchCounter
    · refine ⟨_, Returns.bind (h.returns_count tries)
        (h.returns_internalBackward curFirst hs hle hgt (by omega) (by omega)), ?_⟩
      by_cases hzero : s = 0
      · subst hzero
        rw [if_pos rfl, if_neg (not_not.mpr rfl)]
        rfl
      · rw [if_neg hzero, if_pos hprev]
    · refine ⟨p.prevPtr s, ?_, if_pos hprev⟩
      refine Returns.look_bind ?_
      by_cases hzero : s = 0
      · subst hzero
        rw [if_neg (not_not.mpr (hgt 0 le_rfl hlen))]
        refine Returns.look_bind (Returns.look_bind ?_)
        rw [if_neg (show p.leftmostPtr ≠ _ from h.prevPtr_ne (i := 0) hlen)]
        exact Returns.pure _ _
      · rw [if_pos (not_lt.mpr (hle 0 (by omega)))]
        have hlt := h.length_lt
        exact h.returns_internalForward hs hle (fun hs => hgt s le_rfl hs) (by omega) one_pos
          (by omega)
  obtain ⟨t, hret, ht⟩ := hround
  refine Returns.look_bind (Returns.bind hret (Returns.look_bind ?_))
  rw [if_neg (not_not.mpr rfl)]
  refine Returns.look_bind ?_
  split
  · exact Returns.pure _ _
  · rw [← ht]
    split
    · exact Returns.pure _ _
    · exact Returns.look _ _

end Atomic

/-! ## The stages of an insertion

Of a page with `n` entries, the end has moved to slot `n + 1`, and the loop has
come to slot `r`. -/

section Stages

omit [DecidableEq V]

/-- The entries behind slot `r` have moved. -/
def Page.shifted (p : Page V) (n r : ℕ) : Page V :=
  { p with
    records := fun j =>
      if j ≤ r then p.records j
      else if j ≤ n then p.records (j - 1)
      else if j = n + 1 then { p.records (n + 1) with ptr := (p.records n).ptr }
      else p.records j }

/-- The pointer of slot `r` is that of the slot to its left. -/
def Page.hole (p : Page V) (n r : ℕ) : Page V := (p.shifted n r).store (.ptr r (p.prevPtr r))

/-- Slot `r` has the new key. -/
def Page.named (p : Page V) (n key r : ℕ) : Page V := (p.hole n r).store (.key r key)

/-- Slot `r` has the new entry. -/
def Page.inserted (p : Page V) (n key : ℕ) (ptr : Ptr V) (r : ℕ) : Page V :=
  (p.named n key r).store (.ptr r ptr)

/-- The pages an insertion goes through from slot `r` on. -/
def insertStages (p : Page V) (n key : ℕ) (ptr : Ptr V) : ℕ → List (Page V)
  | 0 => [p.shifted n 0, p.hole n 0, p.named n key 0, p.inserted n key ptr 0]
  | r + 1 =>
    if key < (p.records r).key then
      p.shifted n (r + 1) :: p.hole n (r + 1) :: insertStages p n key ptr r
    else [p.shifted n (r + 1), p.hole n (r + 1), p.named n key (r + 1),
      p.inserted n key ptr (r + 1)]

/-- The pages a list of stores goes through. -/
def Page.snapshots (p : Page V) : List (Store V) → List (Page V)
  | [] => [p]
  | s :: stores => p :: (p.store s).snapshots stores

/-- The end of the page is moved to the right. -/
theorem store_end_eq_shifted (p : Page V) (n : ℕ) :
    p.store (.ptr (n + 1) (p.records n).ptr) = p.shifted n n := by
  refine congrArg (fun f => { p with records := f }) (funext fun j => ?_)
  by_cases hj : j = n + 1
  · subst hj
    rw [Function.update_self, if_neg (by omega), if_neg (by omega), if_pos rfl]
  · rw [Function.update_of_ne hj]
    by_cases hle : j ≤ n
    · rw [if_pos hle]
    · rw [if_neg hle, if_neg hle, if_neg hj]

/-- The entry at `r` is moved to the right, pointer first. -/
theorem hole_store_eq_shifted (p : Page V) {n r : ℕ} (hr : r + 1 ≤ n) :
    (p.hole n (r + 1)).store (.key (r + 1) (p.records r).key) = p.shifted n r := by
  refine congrArg (fun f => { p with records := f }) (funext fun j => ?_)
  by_cases hj : j = r + 1
  · subst hj
    rw [Function.update_self, if_neg (by omega), if_pos hr]
    show Entry.mk _ (Function.update (p.shifted n (r + 1)).records _ _ _).ptr = _
    rw [Function.update_self]
    rfl
  · rw [Function.update_of_ne hj]
    show Function.update (p.shifted n (r + 1)).records _ _ j = _
    rw [Function.update_of_ne hj]
    show (if j ≤ r + 1 then _ else _) = _
    by_cases hle : j ≤ r
    · rw [if_pos hle, if_pos (by omega)]
    · rw [if_neg hle, if_neg (by omega)]

theorem shifted_records_of_le (p : Page V) {n r j : ℕ} (hj : j ≤ r) :
    (p.shifted n r).records j = p.records j := if_pos hj

theorem hole_records_of_lt (p : Page V) {n r j : ℕ} (hj : j < r) :
    (p.hole n r).records j = p.records j := by
  show Function.update _ _ _ j = _
  rw [Function.update_of_ne (by omega)]
  exact shifted_records_of_le p (by omega)

/-- **The pages the loop of `insert_key` goes through are the stages.** -/
theorem snapshots_insertShift (p : Page V) {n : ℕ} (key : ℕ) (ptr : Ptr V) {r : ℕ} (hr : r ≤ n) :
    (p.shifted n r).snapshots (insertShift key ptr r (p.shifted n r))
      = insertStages p n key ptr r := by
  induction r with
  | zero => rfl
  | succ r ih =>
    have hrec : (p.shifted n (r + 1)).records r = p.records r :=
      shifted_records_of_le p (Nat.le_succ r)
    have hhole : (p.shifted n (r + 1)).store (.ptr (r + 1) (p.records r).ptr)
        = p.hole n (r + 1) := rfl
    have hkey : ((p.hole n (r + 1)).records r).key = (p.records r).key := by
      rw [hole_records_of_lt p (Nat.lt_succ_self r)]
    unfold insertShift insertStages
    rw [hrec]
    split
    · show _ :: ((p.shifted n (r + 1)).store _) :: Page.snapshots _ _ = _
      rw [hhole, hkey, hole_store_eq_shifted p hr, ih (by omega)]
    · rfl

/-- The last of the pages. -/
theorem snapshots_getLast? (p : Page V) (stores : List (Store V)) :
    (p.snapshots stores).getLast? = some (p.storeAll stores) := by
  induction stores generalizing p with
  | nil => rfl
  | cons s stores ih =>
    have hne : (p.store s).snapshots stores ≠ [] := by cases stores <;> exact List.cons_ne_nil _ _
    show (p :: (p.store s).snapshots stores).getLast? = _
    rw [List.getLast?_cons_of_ne_nil hne]
    exact ih _

theorem insertStages_getLast? (p : Page V) (n key : ℕ) (ptr : Ptr V) (r : ℕ) :
    (insertStages p n key ptr r).getLast? = some (p.inserted n key ptr (insertSlot key p r)) := by
  induction r with
  | zero => rfl
  | succ r ih =>
    unfold insertStages insertSlot
    split
    · have hne : insertStages p n key ptr r ≠ [] := by
        intro hnil
        rw [hnil] at ih
        cases ih
      rw [List.getLast?_cons_of_ne_nil (List.cons_ne_nil _ _), List.getLast?_cons_of_ne_nil hne]
      exact ih
    · rfl

/-- **What the loop of `insert_key` comes to.** -/
theorem storeAll_insertShift (p : Page V) (n key : ℕ) (ptr : Ptr V) :
    (p.shifted n n).storeAll (insertShift key ptr n (p.shifted n n))
      = p.inserted n key ptr (insertSlot key p n) := by
  have h := congrArg List.getLast? (snapshots_insertShift p key ptr (le_refl n))
  rw [snapshots_getLast?, insertStages_getLast?] at h
  exact Option.some.inj h

/-- The slots after an insertion at slot `r`. -/
theorem inserted_records (p : Page V) {n key : ℕ} {ptr : Ptr V} {r : ℕ} (hr : r ≤ n) (j : ℕ) :
    (p.inserted n key ptr r).records j
      = if j < r then p.records j
        else if j = r then ⟨key, ptr⟩
        else if j ≤ n then p.records (j - 1)
        else if j = n + 1 then { p.records (n + 1) with ptr := (p.records n).ptr }
        else p.records j := by
  by_cases hj : j = r
  · subst hj
    rw [if_neg (lt_irrefl j), if_pos rfl]
    simp [Page.inserted, Page.named, Page.hole, Page.store]
  · have hsame : (p.inserted n key ptr r).records j = (p.shifted n r).records j := by
      simp only [Page.inserted, Page.named, Page.hole, Page.store, Function.update_of_ne hj]
    rw [hsame, if_neg hj]
    show (if j ≤ r then _ else _) = _
    by_cases hlt : j < r
    · rw [if_pos hlt, if_pos hlt.le]
    · rw [if_neg hlt, if_neg (by omega)]

end Stages

/-! ## The list of a page after an insertion -/

section Insert

omit [DecidableEq V]

/-- Entries in the order of their keys. -/
def keyLE (a b : Entry V) : Prop := a.key ≤ b.key

instance : DecidableRel (keyLE (V := V)) := fun a b => inferInstanceAs (Decidable (a.key ≤ b.key))

/-- **A list of entries with a new one in its place.** -/
def insertEntry (l : List (Entry V)) (e : Entry V) : List (Entry V) := l.orderedInsert keyLE e

theorem length_insertEntry (l : List (Entry V)) (e : Entry V) :
    (insertEntry l e).length = l.length + 1 := List.orderedInsert_length keyLE l e

theorem mem_insertEntry {l : List (Entry V)} {e x : Entry V} :
    x ∈ insertEntry l e ↔ x = e ∨ x ∈ l := List.mem_orderedInsert keyLE

theorem perm_insertEntry (l : List (Entry V)) (e : Entry V) : (insertEntry l e).Perm (e :: l) :=
  List.perm_orderedInsert keyLE e l

theorem sorted_insertEntry {l : List (Entry V)} {e : Entry V}
    (hl : l.Pairwise (fun a b => a.key < b.key)) (he : ∀ x ∈ l, x.key ≠ e.key) :
    (insertEntry l e).Pairwise (fun a b => a.key < b.key) := by
  induction l with
  | nil => exact List.pairwise_singleton _ _
  | cons a l ih =>
    obtain ⟨ha, hl'⟩ := List.pairwise_cons.mp hl
    have hne := he a List.mem_cons_self
    unfold insertEntry
    rw [List.orderedInsert_cons]
    split
    · have hlt : e.key < a.key := lt_of_le_of_ne ‹keyLE e a› hne.symm
      refine List.pairwise_cons.mpr ⟨fun x hx => ?_, hl⟩
      rcases List.mem_cons.mp hx with rfl | hx
      · exact hlt
      · exact hlt.trans (ha x hx)
    · have hlt : a.key < e.key := not_le.mp ‹¬ keyLE e a›
      refine List.pairwise_cons.mpr ⟨fun x hx => ?_, ih hl' (fun x hx => he x (.tail a hx))⟩
      rcases mem_insertEntry.mp hx with rfl | hx
      · exact hlt
      · exact ha x hx

/-- The place of the new entry. -/
theorem insertEntry_eq_insertIdx {l : List (Entry V)} {e : Entry V} {r : ℕ} (hr : r ≤ l.length)
    (hlt : ∀ (i : ℕ) (h : i < l.length), i < r → l[i].key < e.key)
    (hge : ∀ (i : ℕ) (h : i < l.length), r ≤ i → e.key < l[i].key) :
    insertEntry l e = l.insertIdx r e := by
  induction l generalizing r with
  | nil =>
    obtain rfl : r = 0 := Nat.le_zero.mp hr
    rfl
  | cons a l ih =>
    unfold insertEntry
    rw [List.orderedInsert_cons]
    cases r with
    | zero =>
      rw [if_pos (show keyLE e a from (hge 0 (Nat.succ_pos _) le_rfl).le)]
      rfl
    | succ r =>
      have hnot : ¬ keyLE e a := not_le.mpr (hlt 0 (Nat.succ_pos _) (Nat.succ_pos _))
      rw [if_neg hnot, List.insertIdx_succ_cons]
      refine congrArg (a :: ·) (ih (by simpa using hr) ?_ ?_)
      · exact fun i h hi => hlt (i + 1) (Nat.succ_lt_succ h) (Nat.succ_lt_succ hi)
      · exact fun i h hi => hge (i + 1) (Nat.succ_lt_succ h) (Nat.succ_le_succ hi)

variable {p : Page V} {l : List (Entry V)}

/-- Where the loop stops: behind the keys that are not greater. -/
theorem insertSlot_spec (key : ℕ) (p : Page V) (n : ℕ) :
    insertSlot key p n ≤ n
      ∧ (∀ i, insertSlot key p n ≤ i → i < n → key < (p.records i).key)
      ∧ (∀ i, i + 1 = insertSlot key p n → (p.records i).key ≤ key) := by
  induction n with
  | zero => exact ⟨le_rfl, fun i _ hi => absurd hi (Nat.not_lt_zero i), fun i hi => nomatch hi⟩
  | succ n ih =>
    obtain ⟨hle, hgt, hstop⟩ := ih
    unfold insertSlot
    split
    · refine ⟨by omega, fun i hi hin => ?_, hstop⟩
      rcases Nat.lt_succ_iff_lt_or_eq.mp hin with hin | rfl
      · exact hgt i hi hin
      · assumption
    · refine ⟨le_rfl, fun i hi hin => by omega, fun i hi => ?_⟩
      obtain rfl : i = n := by omega
      exact not_lt.mp ‹_›

/-- The fields of the header that no store of `insert_key` touches. -/
def Page.frame (p : Page V) : Ptr V × Ptr V × ℕ × Bool × ℕ :=
  (p.leftmostPtr, p.siblingPtr, p.level, p.isDeleted, p.fenceKey)

theorem frame_store (p : Page V) (s : Store V) : (p.store s).frame = p.frame := by
  cases s <;> rfl

theorem frame_storeAll (p : Page V) (stores : List (Store V)) :
    (p.storeAll stores).frame = p.frame := by
  induction stores generalizing p with
  | nil => rfl
  | cons s stores ih => exact (ih (p.store s)).trans (frame_store p s)

theorem frame_insertKey (p : Page V) (key : ℕ) (ptr : Ptr V) (n : ℕ) :
    (insertKey p key ptr n).frame = p.frame := frame_storeAll p _

theorem storeAll_append (p : Page V) (s t : List (Store V)) :
    p.storeAll (s ++ t) = (p.storeAll s).storeAll t := List.foldl_append

/-- A store of a key or a pointer. -/
def Store.OnSlot : Store V → Prop
  | .key _ _ => True
  | .ptr _ _ => True
  | .switchCounter _ => False
  | .lastIndex _ => False

theorem onSlot_insertShift (key : ℕ) (ptr : Ptr V) (r : ℕ) (p : Page V) :
    ∀ s ∈ insertShift key ptr r p, s.OnSlot := by
  have hthree : ∀ i t k t', ∀ s ∈ [Store.ptr i t, .key i k, .ptr i t'],
      Store.OnSlot (V := V) s := by
    intro i t k t' s hs
    simp only [List.mem_cons, List.not_mem_nil, or_false] at hs
    obtain rfl | rfl | rfl := hs <;> trivial
  induction r generalizing p with
  | zero => exact hthree _ _ _ _
  | succ r ih =>
    unfold insertShift
    split
    · intro s hs
      rcases List.mem_cons.mp hs with rfl | hs
      · trivial
      · rcases List.mem_cons.mp hs with rfl | hs
        · trivial
        · exact ih _ s hs
    · exact hthree _ _ _ _

theorem onSlot_insertSlots (p : Page V) (key : ℕ) (ptr : Ptr V) (n : ℕ) :
    ∀ s ∈ insertSlots p key ptr n, s.OnSlot := by
  unfold insertSlots
  split
  · intro s hs
    simp only [List.mem_cons, List.not_mem_nil, or_false] at hs
    obtain rfl | rfl | rfl := hs <;> trivial
  · intro s hs
    rcases List.mem_cons.mp hs with rfl | hs
    · trivial
    · exact onSlot_insertShift _ _ _ _ s hs

/-- On a page whose searches go to the right, `insert_key` leaves `switch_counter`. -/
theorem ne_switchCounter_of_mem_insertStores {p : Page V} (hfwd : isForward p.switchCounter = true)
    {key : ℕ} {ptr : Ptr V} {n : ℕ} {s : Store V} (hs : s ∈ insertStores p key ptr n) (c : UInt8) :
    s ≠ .switchCounter c := by
  rintro rfl
  unfold insertStores turnForward at hs
  rw [if_pos hfwd, List.nil_append] at hs
  rcases List.mem_append.mp hs with hs | hs
  · exact onSlot_insertSlots _ _ _ _ _ hs
  · exact nomatch List.mem_singleton.mp hs

theorem switchCounter_storeAll {p : Page V} {stores : List (Store V)}
    (h : ∀ s ∈ stores, ∀ c, s ≠ .switchCounter c) :
    (p.storeAll stores).switchCounter = p.switchCounter := by
  induction stores generalizing p with
  | nil => rfl
  | cons s stores ih =>
    have hs : (p.store s).switchCounter = p.switchCounter := by
      cases s with
      | switchCounter c => exact absurd rfl (h _ List.mem_cons_self c)
      | _ => rfl
    exact (ih (fun s hs => h s (.tail _ hs))).trans hs

theorem isForward_add_one {c : UInt8} (h : isForward c = false) : isForward (c + 1) = true := by
  simp only [isForward, beq_eq_false_iff_ne, beq_iff_eq, ne_eq, ← UInt8.toNat_inj,
    UInt8.toNat_mod, UInt8.toNat_add, UInt8.reduceToNat] at h ⊢
  omega

theorem isForward_add_two {c : UInt8} (h : isForward c = true) : isForward (c + 2) = true := by
  simp only [isForward, beq_iff_eq, ← UInt8.toNat_inj, UInt8.toNat_mod, UInt8.toNat_add,
    UInt8.reduceToNat] at h ⊢
  omega

/-- `insert_key` leaves the searches turned to the right. -/
theorem isForward_insertKey (p : Page V) (key : ℕ) (ptr : Ptr V) (n : ℕ) :
    isForward (insertKey p key ptr n).switchCounter = true := by
  have hturn : isForward (p.storeAll (turnForward p)).switchCounter = true := by
    unfold turnForward
    split
    · assumption
    · exact isForward_add_one (Bool.not_eq_true _ ▸ ‹_›)
  unfold insertKey insertStores
  rw [List.append_assoc, storeAll_append, switchCounter_storeAll (fun s hs c => ?_)]
  · exact hturn
  · rintro rfl
    rcases List.mem_append.mp hs with hs | hs
    · exact onSlot_insertSlots _ _ _ _ _ hs
    · exact nomatch List.mem_singleton.mp hs

/-- The slots of a page when `insert_key` has turned the searches. -/
theorem records_turnForward (p : Page V) : (p.storeAll (turnForward p)).records = p.records := by
  unfold turnForward
  split <;> rfl

theorem insertSlot_congr {p q : Page V} (h : p.records = q.records) (key n : ℕ) :
    insertSlot key p n = insertSlot key q n := by
  induction n with
  | zero => rfl
  | succ n ih =>
    unfold insertSlot
    rw [h, ih]

/-- **The slots after `insert_key`** on a page that ends at slot `n`. -/
theorem records_insertKey (p : Page V) (key : ℕ) (ptr : Ptr V) {n : ℕ}
    (hend : (p.records n).ptr = .null) (j : ℕ) :
    (insertKey p key ptr n).records j
      = if j < insertSlot key p n then p.records j
        else if j = insertSlot key p n then ⟨key, ptr⟩
        else if j ≤ n then p.records (j - 1)
        else if j = n + 1 then { p.records (n + 1) with ptr := .null }
        else p.records j := by
  have hrec := records_turnForward p
  have hslot := insertSlot_congr hrec key n
  unfold insertKey insertStores insertSlots
  rw [storeAll_append, storeAll_append]
  by_cases hn : n = 0
  · subst hn
    rw [if_pos rfl]
    show ((((p.storeAll (turnForward p)).store (.key 0 key)).store (.ptr 0 ptr)).store
      (.ptr 1 .null)).records j = _
    simp only [Page.store, hrec, Function.update_apply]
    rcases j with _ | _ | j <;> simp [insertSlot]
  · rw [if_neg hn]
    show (Page.storeAll _ (_ :: insertShift key ptr n _)).records j = _
    have hstore : ∀ (q : Page V) s stores, q.storeAll (s :: stores) = (q.store s).storeAll stores :=
      fun _ _ _ => rfl
    rw [hstore, store_end_eq_shifted, storeAll_insertShift,
      inserted_records _ (insertSlot_spec key _ n).1, hslot, hrec, hend]

theorem lastIndex_insertKey (p : Page V) (key : ℕ) (ptr : Ptr V) (n : ℕ) :
    (insertKey p key ptr n).lastIndex = n := by
  unfold insertKey insertStores
  rw [storeAll_append]
  rfl

/-- **`insert_key` puts the entry in its place.** The key is not in the page, the
pointer is not one of the page's, and there is a free slot besides the one that
ends the page. -/
theorem Holds.insertKey (h : Holds p l) {key : ℕ} {ptr : Ptr V} (hkey : ∀ e ∈ l, e.key ≠ key)
    (hptr : ptr ∉ p.leftmostPtr :: l.map Entry.ptr) (hnull : ptr ≠ .null)
    (hlen : l.length + 1 < cardinality) :
    Holds (insertKey p key ptr l.length) (insertEntry l ⟨key, ptr⟩) := by
  have hleft : (FastFair.insertKey p key ptr l.length).leftmostPtr = p.leftmostPtr :=
    congrArg Prod.fst (frame_insertKey p key ptr l.length)
  obtain ⟨hle, hgt, hstop⟩ := insertSlot_spec key p l.length
  -- the slot behind the keys that are smaller
  have hidx : insertEntry l ⟨key, ptr⟩ = l.insertIdx (insertSlot key p l.length) ⟨key, ptr⟩ := by
    refine insertEntry_eq_insertIdx hle (fun i hi hir => ?_) (fun i hi hri => ?_)
    · refine lt_of_le_of_ne ?_ (hkey _ (List.getElem_mem hi))
      obtain ⟨r, hr⟩ := Nat.exists_eq_succ_of_ne_zero (Nat.ne_zero_of_lt hir)
      have hlast := hstop r hr.symm
      rw [← h.records i hi]
      rcases Nat.lt_or_ge i r with hir' | hir'
      · exact (h.key_lt hir' (by omega)).le.trans hlast
      · obtain rfl : i = r := by omega
        exact hlast
    · rw [← h.records i hi]
      exact hgt i hri hi
  refine ⟨fun i hi => ?_, ?_, fun hnil => ?_, ?_, sorted_insertEntry h.sorted hkey, ?_, ?_, ?_⟩
  · rw [records_insertKey p key ptr h.ends]
    simp only [hidx]
    rw [List.getElem_insertIdx]
    rw [length_insertEntry] at hi
    split
    · exact h.records i (by omega)
    · split
      · rfl
      · rw [if_pos (by omega)]
        exact h.records (i - 1) (by omega)
  · rw [length_insertEntry, records_insertKey p key ptr h.ends, if_neg (by omega),
      if_neg (by omega), if_neg (by omega), if_pos rfl]
  · exact absurd (congrArg List.length hnil) (by rw [length_insertEntry]; exact Nat.succ_ne_zero _)
  · rw [lastIndex_insertKey, length_insertEntry]
    omega
  · rw [hleft]
    have hperm := ((perm_insertEntry l ⟨key, ptr⟩).map Entry.ptr).cons p.leftmostPtr
    refine hperm.nodup_iff.mpr ((List.Perm.swap ptr p.leftmostPtr _).nodup_iff.mpr ?_)
    exact List.nodup_cons.mpr ⟨hptr, h.nodup⟩
  · intro e he
    rcases mem_insertEntry.mp he with rfl | he
    · exact hnull
    · exact h.ptr_ne_null e he
  · rw [length_insertEntry]
    exact hlen

/-- **A store of a pointer** to an entry, which differs from the pointers of the page. -/
theorem Holds.update (h : Holds p l) {s : ℕ} (hs : s < l.length) {t : Ptr V} (hnull : t ≠ .null)
    (hleft : t ≠ p.leftmostPtr) (hptr : ∀ e ∈ l, e.key ≠ (p.records s).key → e.ptr ≠ t) :
    Holds (p.store (.ptr s t)) (l.set s ⟨(p.records s).key, t⟩) := by
  have hrec : ∀ i, (p.store (.ptr s t)).records i
      = if i = s then ⟨(p.records s).key, t⟩ else p.records i :=
    fun i => Function.update_apply _ _ _ _
  have hkeys : (l.set s ⟨(p.records s).key, t⟩).map Entry.key = l.map Entry.key := by
    rw [List.map_set]
    refine List.ext_getElem (List.length_set) (fun i hi hi' => ?_)
    rw [List.getElem_set]
    split
    · subst i
      rw [List.getElem_map, ← h.records s hs]
    · rfl
  have hsorted : (l.set s ⟨(p.records s).key, t⟩).Pairwise (fun a b => a.key < b.key) := by
    have hmap := List.pairwise_map.mpr h.sorted
    rw [← hkeys] at hmap
    exact List.pairwise_map.mp hmap
  obtain ⟨hl, hnodup⟩ := List.nodup_cons.mp h.nodup
  refine ⟨fun i hi => ?_, ?_, fun hnil => ?_, ?_, hsorted, ?_, fun e he => ?_, ?_⟩
  · rw [hrec, List.getElem_set]
    rw [List.length_set] at hi
    by_cases heq : i = s
    · rw [if_pos heq, if_pos heq.symm]
    · rw [if_neg heq, if_neg (Ne.symm heq)]
      exact h.records i hi
  · rw [List.length_set, hrec, if_neg (by omega)]
    exact h.ends
  · have := congrArg List.length hnil
    rw [List.length_set] at this
    exact absurd hs (by rw [this]; exact Nat.not_lt_zero s)
  · rw [List.length_set]
    exact h.lastIndex
  · refine List.nodup_cons.mpr ⟨fun hmem => ?_, ?_⟩
    · obtain ⟨e, he, heq⟩ := List.mem_map.mp hmem
      rcases List.mem_or_eq_of_mem_set he with he | rfl
      · exact hl (List.mem_map.mpr ⟨e, he, heq⟩)
      · exact hleft heq
    · refine List.pairwise_map.mpr (hsorted.imp_of_mem (fun {a b} ha hb hlt => ?_))
      rcases List.mem_or_eq_of_mem_set ha with ha | rfl
      · rcases List.mem_or_eq_of_mem_set hb with hb | rfl
        · exact fun heq => hlt.ne (congrArg Entry.key (List.inj_on_of_nodup_map hnodup ha hb heq))
        · exact hptr a ha hlt.ne
      · rcases List.mem_or_eq_of_mem_set hb with hb | rfl
        · exact (hptr b hb hlt.ne').symm
        · exact absurd hlt (lt_irrefl _)
  · rcases List.mem_or_eq_of_mem_set he with he | rfl
    · exact h.ptr_ne_null e he
    · exact hnull
  · rw [List.length_set]
    exact h.length_lt

end Insert

end FastFair
