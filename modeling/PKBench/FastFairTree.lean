import Mathlib.Order.Basic
import PKBench.FastFairPage

/-!
# The FAST_FAIR tree

The pages of a level form a chain from left to right: each has a fence key, the
smallest key that may be in it, and a pointer to its right sibling. An operation goes
down from the root by `linear_search`, which sends it to the sibling when the key
belongs there, and so finds its way even while a page that was split is not yet
known to the level above. `store` puts an entry into a page under the page's lock,
splitting the page when it is full; the entry for the new page goes to the level
above after the lock is released.

What a locked section does is `lockedStore`. The invariant of the tree (`Inv`) is
one of all pages that were ever allocated, in no particular order: fence keys tell
the pages of a level apart, a sibling is the next page of its level, and an entry
of an internal page leads to a page of the level below whose fence key is the key
of the entry. Nothing says that every page has such an entry, so the invariant
holds between the split of a page and the insertion into the level above.
-/

open Loads

namespace FastFair

variable {V : Type}

/-- `LogEntryHelper`: `old_val` is in and out, with `INVALID_VALUE` the null pointer. -/
structure LogEntryHelper (V : Type) where
  newVal : Ptr V
  oldVal : Ptr V := .null
  shortcut : Option (ℕ × ℕ) := none

/-- **`btree`**, with the pages and the next address the allocator hands out. -/
structure Btree (V : Type) where
  pages : ℕ → Page V := fun _ => {}
  fresh : ℕ
  root : ℕ
  height : ℤ

/-- `btree::btree`. -/
def Btree.new : Btree V where
  fresh := 1
  root := 0
  height := 1

namespace Btree

/-- The fence key of the page at an address. -/
def fence (t : Btree V) (a : ℕ) : ℕ := (t.pages a).fenceKey

/-- The level of the page at an address. -/
def level (t : Btree V) (a : ℕ) : ℕ := (t.pages a).level

/-- A page is written. -/
def setPage (t : Btree V) (a : ℕ) (p : Page V) : Btree V :=
  { t with pages := Function.update t.pages a p }

/-- A page is replaced by two, the right one at a new address. -/
def split (t : Btree V) (a : ℕ) (left right : Page V) : Btree V :=
  { t with
    pages := Function.update (Function.update t.pages a left) t.fresh right
    fresh := t.fresh + 1 }

end Btree

/-! ## The locked section of `store` -/

/-- The loop that moves entries to a new page. -/
def migrate (p : Page V) : List ℕ → Page V → ℕ → Page V × ℕ
  | [], q, cnt => (q, cnt)
  | i :: is, q, cnt =>
    migrate p is (insertKey q (p.records i).key (p.records i).ptr cnt) (cnt + 1)

/-- `page(page *left, entry_key_t key, page *right, uint32_t level)`. -/
def newRoot (left key right level : ℕ) : Page V where
  leftmostPtr := .page left
  level := level
  lastIndex := 0
  records := Function.update (fun _ => {}) 0 ⟨key, .page right⟩

variable [DecidableEq V]

/-- The sibling of a page that is split at entry `m` of `n`, and the number of its
entries. -/
def splitRight (p : Page V) (n m : ℕ) : Page V × ℕ :=
  let leaf := p.leftmostPtr = .null
  let from_ := if leaf then m else m + 1
  let moved := migrate p (List.range' from_ (n - from_)) { level := p.level } 0
  ({ moved.1 with
      leftmostPtr := if leaf then moved.1.leftmostPtr else (p.records m).ptr
      fenceKey := (p.records m).key
      siblingPtr := p.siblingPtr }, moved.2)

/-- What stays of a page that is split at entry `m`. -/
def splitLeft (p : Page V) (m sibling : ℕ) : Page V :=
  { p.store (.ptr m .null) with
    siblingPtr := .page sibling
    switchCounter := p.switchCounter + if isForward p.switchCounter then 2 else 1
    lastIndex := (m : ℤ) - 1 }

/-- What the locked section of `store` leaves behind: the tree, the page with the
entry, the helper, and what is to be inserted into the level above, as the key, the
page and the level. -/
structure Stored (V : Type) where
  tree : Btree V
  page : ℕ
  helper : Option (LogEntryHelper V)
  pending : Option (ℕ × ℕ × ℕ) := none

/-- The key has an entry: a cleaner's helper (`old_val` is set) overwrites it only if
it has not changed. -/
def storeUpdate (t : Btree V) (a i : ℕ) (right : Ptr V) : Option (LogEntryHelper V) → Stored V
  | none =>
    { tree := t.setPage a ((t.pages a).store (.ptr i right)), page := a, helper := none }
  | some le =>
    let old := ((t.pages a).records i).ptr
    if le.oldVal ≠ .null then
      if old = le.oldVal then
        { tree := t.setPage a ((t.pages a).store (.ptr i right)), page := a
          helper := some { le with shortcut := some (a, i) } }
      else
        { tree := t, page := a
          helper := some { le with shortcut := some (a, i), oldVal := right } }
    else
      { tree := t.setPage a ((t.pages a).store (.ptr i right)), page := a
        helper := some { le with shortcut := some (a, i), oldVal := old } }

/-- The helper with the place of the entry. -/
def setShortcut (a i : ℕ) (le : Option (LogEntryHelper V)) : Option (LogEntryHelper V) :=
  le.map (fun le => { le with shortcut := some (a, i) })

/-- The page has room. -/
def storeInsert (t : Btree V) (a key : ℕ) (right : Ptr V) (n : ℕ)
    (le : Option (LogEntryHelper V)) : Stored V where
  tree := t.setPage a (insertKey (t.pages a) key right n)
  page := a
  helper := setShortcut a (insertSlot key (t.pages a) n) le

/-- The tree after the split of a page and the insertion into one of the halves. -/
def splitTree (t : Btree V) (a key : ℕ) (right : Ptr V) (n : ℕ) : Btree V :=
  let p := t.pages a
  let sib := splitRight p n (n / 2)
  let rest := splitLeft p (n / 2) t.fresh
  if key < (p.records (n / 2)).key then
    (t.split a rest sib.1).setPage a (insertKey rest key right (n / 2))
  else (t.split a rest sib.1).setPage t.fresh (insertKey sib.1 key right sib.2)

/-- `setNewRoot` with a page over two others. -/
def growRoot (t : Btree V) (left key right level : ℕ) : Btree V where
  pages := Function.update t.pages t.fresh (newRoot left key right level)
  fresh := t.fresh + 1
  root := t.fresh
  height := t.height + 1

/-- The page is full. -/
def storeSplit (t : Btree V) (a key : ℕ) (right : Ptr V) (n : ℕ)
    (le : Option (LogEntryHelper V)) : Stored V :=
  let p := t.pages a
  let splitKey := (p.records (n / 2)).key
  let sib := splitRight p n (n / 2)
  let left : Prop := key < splitKey
  let t' := splitTree t a key right n
  { tree := if t.root = a then growRoot t' a splitKey t.fresh (p.level + 1) else t'
    page := if left then a else t.fresh
    helper :=
      if left then setShortcut a (insertSlot key (splitLeft p (n / 2) t.fresh) (n / 2)) le
      else setShortcut t.fresh (insertSlot key sib.1 sib.2) le
    pending := if t.root = a then none else some (splitKey, t.fresh, p.level + 1) }

/-- **The locked section of `page::store`**, on a page the key belongs to. -/
def lockedStore (t : Btree V) (a key : ℕ) (right : Ptr V) (le : Option (LogEntryHelper V)) :
    Option (Stored V) := do
  let c ← atomically (count 1) (t.pages a)
  match findKey key (t.pages a) c.toNat 0 with
  | some i => some (storeUpdate t a i right le)
  | none =>
    if c.toNat < cardinality - 1 then some (storeInsert t a key right c.toNat le)
    else some (storeSplit t a key right c.toNat le)

/-! ## The operations -/

/-- `linear_search` of the page at an address. -/
def searchPage (t : Btree V) (a key : ℕ) : Option (Ptr V) :=
  atomically (linearSearch true t.fence key 1) (t.pages a)

/-- What `store` does when it has released its lock: the page it has made goes into
the level above. -/
def insertPending (up : Btree V → ℕ → Ptr V → ℕ → Option (Btree V)) (r : Stored V) :
    Option (Btree V) :=
  match r.pending with
  | none => some r.tree
  | some (k, c, level) => up r.tree k (.page c) level

/-- **`page::store`**, with what it calls on the level above. `none` in the place of
the page is the null pointer it returns on a deleted page. -/
def store (up : Btree V → ℕ → Ptr V → ℕ → Option (Btree V)) (key : ℕ) (right : Ptr V) :
    ℕ → Btree V → ℕ → Option (LogEntryHelper V) →
      Option (Btree V × Option ℕ × Option (LogEntryHelper V))
  | 0, _, _, _ => none
  | fuel + 1, t, a, le =>
    if (t.pages a).isDeleted then some (t, none, le)
    else
      match siblingFor t.fence key (t.pages a).siblingPtr with
      | .page b => store up key right fuel t b le
      | _ => do
        let r ← lockedStore t a key right le
        let t' ← insertPending up r
        some (t', some r.page, r.helper)

/-- `while (p->hdr.level > level) p = (page *)p->linear_search(key)`. -/
def descendTo (t : Btree V) (key level : ℕ) : ℕ → ℕ → Option ℕ
  | 0, _ => none
  | fuel + 1, a =>
    if level < t.level a then
      match searchPage t a key with
      | some (.page b) => descendTo t key level fuel b
      | _ => none
    else some a

/-- **`btree::btree_insert_internal`.** -/
def insertInternal : ℕ → Btree V → ℕ → Ptr V → ℕ → Option (Btree V)
  | 0, _, _, _, _ => none
  | fuel + 1, t, key, right, level =>
    if t.level t.root < level then some t
    else do
      let a ← descendTo t key level (fuel + 1) t.root
      let r ← store (insertInternal fuel) key right (fuel + 1) t a none
      match r.2.1 with
      | some _ => some r.1
      | none => insertInternal fuel r.1 key right level

/-- `while (p->hdr.leftmost_ptr != NULL) p = (page *)p->linear_search(key)`. -/
def descend (t : Btree V) (key : ℕ) : ℕ → ℕ → Option ℕ
  | 0, _ => none
  | fuel + 1, a =>
    if (t.pages a).leftmostPtr = .null then some a
    else
      match searchPage t a key with
      | some (.page b) => descend t key fuel b
      | _ => none

/-- **`btree::btree_insert`**: the tree and the helper. -/
def btreeInsert (key : ℕ) : ℕ → Btree V → LogEntryHelper V →
    Option (Btree V × LogEntryHelper V)
  | 0, _, _ => none
  | fuel + 1, t, le => do
    let a ← descend t key (fuel + 1) t.root
    let r ← store (insertInternal (fuel + 1)) key le.newVal (fuel + 1) t a (some le)
    match r.2.1 with
    | some _ => r.2.2.map (fun le => (r.1, le))
    | none => btreeInsert key fuel r.1 (r.2.2.getD le)

/-- The second loop of `btree_search`: the chain of leaves. -/
def searchLeaf (t : Btree V) (key : ℕ) : ℕ → ℕ → Option (Ptr V)
  | 0, _ => none
  | fuel + 1, a => do
    let r ← searchPage t a key
    if r = (t.pages a).siblingPtr then
      match r with
      | .page b => searchLeaf t key fuel b
      | _ => some .null
    else some r

/-- **`btree::btree_search`.** -/
def btreeSearch (t : Btree V) (key fuel : ℕ) : Option (Ptr V) := do
  let a ← descend t key fuel t.root
  searchLeaf t key fuel a

/-! ## Pages of a tree -/

omit [DecidableEq V]

/-- The entries of a page, by its `last_index`. -/
def Page.entries (p : Page V) : List (Entry V) :=
  (List.range (p.lastIndex + 1).toNat).map p.records

theorem Holds.entries_eq {p : Page V} {l : List (Entry V)} (h : Holds p l) : p.entries = l := by
  have hlen : (p.lastIndex + 1).toNat = l.length := by
    rw [h.lastIndex]
    omega
  unfold Page.entries
  rw [hlen]
  refine List.ext_getElem (by rw [List.length_map, List.length_range]) (fun i hi hi' => ?_)
  rw [List.getElem_map, List.getElem_range]
  exact h.records i hi'

/-- **A page as it should be in a tree.** Its sibling has a greater fence key, which
bounds its keys. A leaf has values; an internal page has for each of its keys a child
whose fence key it is. -/
structure PageOk (t : Btree V) (p : Page V) : Prop where
  holds : Holds p p.entries
  alive : p.isDeleted = false
  forward : isForward p.switchCounter = true
  sibling : p.siblingPtr = .null ∨ ∃ b < t.fresh, p.siblingPtr = .page b ∧ t.level b = p.level
    ∧ p.fenceKey < t.fence b ∧ ∀ e ∈ p.entries, e.key < t.fence b
  leaf : p.level = 0 → p.leftmostPtr = .null
    ∧ ∀ e ∈ p.entries, p.fenceKey ≤ e.key ∧ ∃ v, e.ptr = .value v
  internal : ∀ n, p.level = n + 1 → p.entries ≠ []
    ∧ (∃ c < t.fresh, p.leftmostPtr = .page c ∧ t.level c = n ∧ t.fence c = p.fenceKey)
    ∧ ∀ e ∈ p.entries, p.fenceKey < e.key
      ∧ ∃ c < t.fresh, e.ptr = .page c ∧ t.level c = n ∧ t.fence c = e.key

/-- **The pages of a tree**: a page is found by its level and its fence key, and a
sibling is the next page of the level. -/
structure Chain (t : Btree V) : Prop where
  page : ∀ a < t.fresh, PageOk t (t.pages a)
  fence_inj : ∀ a < t.fresh, ∀ b < t.fresh, t.level a = t.level b → t.fence a = t.fence b → a = b
  next : ∀ a < t.fresh, ∀ b < t.fresh, t.level a = t.level b → t.fence a < t.fence b →
    ∃ c, (t.pages a).siblingPtr = .page c ∧ t.fence c ≤ t.fence b

/-- **The invariant of a tree**: the root is the only page of its level. -/
structure Inv (t : Btree V) : Prop extends Chain t where
  root_lt : t.root < t.fresh
  root_fence : t.fence t.root = 0
  root_top : ∀ a < t.fresh, a ≠ t.root → t.level a < t.level t.root

/-- A tree that has the pages of another, with their levels and fence keys. -/
structure Keeps (t t' : Btree V) : Prop where
  fresh_le : t.fresh ≤ t'.fresh
  fence : ∀ b < t.fresh, t'.fence b = t.fence b
  level : ∀ b < t.fresh, t'.level b = t.level b

theorem Keeps.refl (t : Btree V) : Keeps t t := ⟨le_rfl, fun _ _ => rfl, fun _ _ => rfl⟩

theorem Keeps.trans {t t' t'' : Btree V} (h : Keeps t t') (h' : Keeps t' t'') : Keeps t t'' where
  fresh_le := h.fresh_le.trans h'.fresh_le
  fence b hb := (h'.fence b (hb.trans_le h.fresh_le)).trans (h.fence b hb)
  level b hb := (h'.level b (hb.trans_le h.fresh_le)).trans (h.level b hb)

theorem PageOk.mono {t t' : Btree V} (hk : Keeps t t') {p : Page V} (h : PageOk t p) :
    PageOk t' p where
  holds := h.holds
  alive := h.alive
  forward := h.forward
  sibling := by
    refine h.sibling.imp_right ?_
    rintro ⟨b, hb, hp, hl, hf, he⟩
    rw [← hk.fence b hb] at hf he
    exact ⟨b, hb.trans_le hk.fresh_le, hp, (hk.level b hb).trans hl, hf, he⟩
  leaf := h.leaf
  internal n hn := by
    obtain ⟨hne, ⟨c, hc, hp, hl, hf⟩, he⟩ := h.internal n hn
    refine ⟨hne, ⟨c, hc.trans_le hk.fresh_le, hp, (hk.level c hc).trans hl,
      (hk.fence c hc).trans hf⟩, fun e hmem => ?_⟩
    obtain ⟨hlt, c, hc, hp, hl, hf⟩ := he e hmem
    exact ⟨hlt, c, hc.trans_le hk.fresh_le, hp, (hk.level c hc).trans hl,
      (hk.fence c hc).trans hf⟩

/-- A page is found by its address. -/
theorem Chain.sibling_lt {t : Btree V} (h : Chain t) {a b : ℕ} (ha : a < t.fresh)
    (hb : (t.pages a).siblingPtr = .page b) :
    b < t.fresh ∧ t.level b = t.level a ∧ t.fence a < t.fence b
      ∧ ∀ e ∈ (t.pages a).entries, e.key < t.fence b := by
  rcases (h.page a ha).sibling with hnull | ⟨c, hc, hp, hl, hf, he⟩
  · exact nomatch hb.symm.trans hnull
  · obtain rfl : b = c := Ptr.page.inj (hb.symm.trans hp)
    exact ⟨hc, hl, hf, he⟩

/-! ## The page of a key -/

/-- A key belongs to a page: it is not below the fence key, nor at the sibling's or
above it. -/
structure Covers (t : Btree V) (a key : ℕ) : Prop where
  fence_le : t.fence a ≤ key
  lt_sibling : ∀ b, (t.pages a).siblingPtr = .page b → key < t.fence b

/-- A key belongs to one page of a level. -/
theorem Covers.unique {t : Btree V} (h : Chain t) {a b key : ℕ} (ha : a < t.fresh)
    (hb : b < t.fresh) (hl : t.level a = t.level b) (hca : Covers t a key)
    (hcb : Covers t b key) : a = b := by
  rcases lt_trichotomy (t.fence a) (t.fence b) with hlt | heq | hlt
  · obtain ⟨c, hc, hle⟩ := h.next a ha b hb hl hlt
    exact absurd (hca.lt_sibling c hc) (not_lt.mpr (hle.trans hcb.fence_le))
  · exact h.fence_inj a ha b hb hl heq
  · obtain ⟨c, hc, hle⟩ := h.next b hb a ha hl.symm hlt
    exact absurd (hcb.lt_sibling c hc) (not_lt.mpr (hle.trans hca.fence_le))

/-- A key of a leaf belongs to it. -/
theorem Chain.covers_of_mem {t : Btree V} (h : Chain t) {a : ℕ} (ha : a < t.fresh)
    (hl : t.level a = 0) {e : Entry V} (he : e ∈ (t.pages a).entries) : Covers t a e.key where
  fence_le := (((h.page a ha).leaf hl).2 e he).1
  lt_sibling _ hb := (h.sibling_lt ha hb).2.2.2 e he

/-- The keys of a page are not below its fence key. -/
theorem Chain.fence_le_key {t : Btree V} (h : Chain t) {a : ℕ} (ha : a < t.fresh) {e : Entry V}
    (he : e ∈ (t.pages a).entries) : t.fence a ≤ e.key := by
  cases hn : t.level a with
  | zero => exact (h.covers_of_mem ha hn he).fence_le
  | succ n => exact (((h.page a ha).internal n hn).2.2 e he).1.le

/-- **What the leaves say of a key.** -/
def Content (t : Btree V) (key : ℕ) (v : V) : Prop :=
  ∃ a < t.fresh, t.level a = 0 ∧ ⟨key, .value v⟩ ∈ (t.pages a).entries

/-- A page has a child. -/
def Child (p : Page V) (c : ℕ) : Prop :=
  p.leftmostPtr = .page c ∨ ∃ e ∈ p.entries, e.ptr = .page c

/-- A page that is known to the level above. -/
def Linked (t : Btree V) (c : ℕ) : Prop := ∃ a < t.fresh, Child (t.pages a) c

/-! ## How the pages change -/

section Transitions

variable {t : Btree V} {a : ℕ}

theorem pages_setPage (t : Btree V) (a : ℕ) (p : Page V) (b : ℕ) :
    (t.setPage a p).pages b = if b = a then p else t.pages b := Function.update_apply _ _ _ _

theorem frame_setPage {p : Page V} (hframe : p.frame = (t.pages a).frame) (b : ℕ) :
    ((t.setPage a p).pages b).frame = (t.pages b).frame := by
  rw [pages_setPage]
  split
  · subst b
    exact hframe
  · rfl

theorem fence_setPage {p : Page V} (hframe : p.frame = (t.pages a).frame) (b : ℕ) :
    (t.setPage a p).fence b = t.fence b :=
  congrArg (fun f => f.2.2.2.2) (frame_setPage hframe b)

theorem level_setPage {p : Page V} (hframe : p.frame = (t.pages a).frame) (b : ℕ) :
    (t.setPage a p).level b = t.level b :=
  congrArg (fun f => f.2.2.1) (frame_setPage hframe b)

theorem siblingPtr_setPage {p : Page V} (hframe : p.frame = (t.pages a).frame) (b : ℕ) :
    ((t.setPage a p).pages b).siblingPtr = (t.pages b).siblingPtr :=
  congrArg (fun f => f.2.1) (frame_setPage hframe b)

theorem keeps_setPage {p : Page V} (hframe : p.frame = (t.pages a).frame) :
    Keeps t (t.setPage a p) :=
  ⟨le_rfl, fun b _ => fence_setPage hframe b, fun b _ => level_setPage hframe b⟩

/-- The slots of a page are written. -/
theorem Chain.setPage (h : Chain t) {p : Page V} (hframe : p.frame = (t.pages a).frame)
    (hp : PageOk t p) : Chain (t.setPage a p) := by
  refine ⟨fun b hb => ?_, fun b hb c hc => ?_, fun b hb c hc hl hf => ?_⟩
  · rw [pages_setPage]
    split
    · exact hp.mono (keeps_setPage hframe)
    · exact (h.page b hb).mono (keeps_setPage hframe)
  · rw [level_setPage hframe, level_setPage hframe, fence_setPage hframe, fence_setPage hframe]
    exact h.fence_inj b hb c hc
  · rw [level_setPage hframe, level_setPage hframe] at hl
    rw [fence_setPage hframe, fence_setPage hframe] at hf
    obtain ⟨d, hd, hle⟩ := h.next b hb c hc hl hf
    refine ⟨d, (siblingPtr_setPage hframe b).trans hd, ?_⟩
    rw [fence_setPage hframe, fence_setPage hframe]
    exact hle

theorem Inv.setPage (h : Inv t) {p : Page V} (hframe : p.frame = (t.pages a).frame)
    (hp : PageOk t p) : Inv (t.setPage a p) where
  toChain := h.toChain.setPage hframe hp
  root_lt := h.root_lt
  root_fence := (fence_setPage hframe _).trans h.root_fence
  root_top b hb hne := by
    rw [level_setPage hframe b, level_setPage hframe]
    exact h.root_top b hb hne

variable {left right : Page V}

theorem pages_split (t : Btree V) (a : ℕ) (left right : Page V) (b : ℕ) :
    (t.split a left right).pages b
      = if b = t.fresh then right else if b = a then left else t.pages b := by
  show Function.update _ _ _ b = _
  rw [Function.update_apply, Function.update_apply]

/-- Two pages that may take the place of one. -/
structure Halves (t : Btree V) (a : ℕ) (left right : Page V) : Prop where
  left_level : left.level = t.level a
  left_fence : left.fenceKey = t.fence a
  left_sibling : left.siblingPtr = .page t.fresh
  right_level : right.level = t.level a
  right_fence : t.fence a < right.fenceKey
  right_sibling : right.siblingPtr = (t.pages a).siblingPtr
  fence_lt : ∀ b, (t.pages a).siblingPtr = .page b → right.fenceKey < t.fence b

namespace Halves

theorem fence_of_lt (h : Halves t a left right) {b : ℕ} (hb : b < t.fresh) :
    (t.split a left right).fence b = t.fence b := by
  unfold Btree.fence
  rw [pages_split, if_neg hb.ne]
  split
  · subst b
    exact h.left_fence
  · rfl

theorem level_of_lt (h : Halves t a left right) {b : ℕ} (hb : b < t.fresh) :
    (t.split a left right).level b = t.level b := by
  unfold Btree.level
  rw [pages_split, if_neg hb.ne]
  split
  · subst b
    exact h.left_level
  · rfl

theorem fence_fresh : (t.split a left right).fence t.fresh = right.fenceKey := by
  unfold Btree.fence
  rw [pages_split, if_pos rfl]

theorem level_fresh (h : Halves t a left right) :
    (t.split a left right).level t.fresh = t.level a := by
  unfold Btree.level
  rw [pages_split, if_pos rfl]
  exact h.right_level

theorem keeps (h : Halves t a left right) : Keeps t (t.split a left right) :=
  ⟨Nat.le_succ _, fun _ hb => h.fence_of_lt hb, fun _ hb => h.level_of_lt hb⟩

/-- No page lies between the halves and the old sibling. -/
theorem fence_le_or_lt (h : Halves t a left right) (hc : Chain t) (ha : a < t.fresh) {b : ℕ}
    (hb : b < t.fresh) (hl : t.level b = t.level a) :
    t.fence b ≤ t.fence a ∨ right.fenceKey < t.fence b := by
  rcases le_or_gt (t.fence b) (t.fence a) with hle | hlt
  · exact .inl hle
  · obtain ⟨d, hd, hdb⟩ := hc.next a ha b hb hl.symm hlt
    exact .inr ((h.fence_lt d hd).trans_le hdb)

end Halves

/-- **A page is split.** -/
theorem Chain.split (hc : Chain t) (ha : a < t.fresh) (h : Halves t a left right)
    (hleft : PageOk (t.split a left right) left) (hright : PageOk (t.split a left right) right) :
    Chain (t.split a left right) := by
  refine ⟨fun b hb => ?_, fun b hb c hcb hl hf => ?_, fun b hb c hcb hl hf => ?_⟩
  · rw [pages_split]
    split
    · exact hright
    · split
      · exact hleft
      · exact (hc.page b (by have : b < t.fresh + 1 := hb; omega)).mono h.keeps
  · -- the new page has a fence key of its own
    have hnew : ∀ b < t.fresh, t.level b = t.level a → t.fence b ≠ right.fenceKey := by
      intro b hb hl heq
      rcases h.fence_le_or_lt hc ha hb hl with hle | hlt
      · exact absurd h.right_fence (not_lt.mpr (heq ▸ hle))
      · exact hlt.ne heq.symm
    rcases Nat.lt_succ_iff_lt_or_eq.mp hb with hb | rfl
    · rw [h.level_of_lt hb, h.fence_of_lt hb] at *
      rcases Nat.lt_succ_iff_lt_or_eq.mp hcb with hc' | rfl
      · rw [h.level_of_lt hc'] at hl
        rw [h.fence_of_lt hc'] at hf
        exact hc.fence_inj b hb c hc' hl hf
      · rw [h.level_fresh] at hl
        rw [Halves.fence_fresh] at hf
        exact absurd hf (hnew b hb hl)
    · rcases Nat.lt_succ_iff_lt_or_eq.mp hcb with hc' | rfl
      · rw [h.level_of_lt hc', h.level_fresh] at hl
        rw [h.fence_of_lt hc', Halves.fence_fresh] at hf
        exact absurd hf.symm (hnew c hc' hl.symm)
      · rfl
  · have hfence : ∀ {d}, d < t.fresh → (t.split a left right).fence d = t.fence d :=
      fun hd => h.fence_of_lt hd
    have hold : ∀ {b}, b < t.fresh → b ≠ a →
        ((t.split a left right).pages b).siblingPtr = (t.pages b).siblingPtr := by
      intro b hb hne
      rw [pages_split, if_neg hb.ne, if_neg hne]
    have hsplit : ((t.split a left right).pages a).siblingPtr = .page t.fresh := by
      rw [pages_split, if_neg ha.ne, if_pos rfl]
      exact h.left_sibling
    rcases Nat.lt_succ_iff_lt_or_eq.mp hb with hb | rfl
    · rw [h.level_of_lt hb] at hl
      rw [hfence hb] at hf
      rcases Nat.lt_succ_iff_lt_or_eq.mp hcb with hc' | rfl
      · rw [h.level_of_lt hc'] at hl
        rw [hfence hc'] at hf
        obtain ⟨d, hd, hle⟩ := hc.next b hb c hc' hl hf
        by_cases hba : b = a
        · subst hba
          refine ⟨t.fresh, hsplit, ?_⟩
          rw [Halves.fence_fresh, hfence hc']
          exact (h.fence_lt d hd).le.trans hle
        · refine ⟨d, (hold hb hba).trans hd, ?_⟩
          rw [hfence (hc.sibling_lt hb hd).1, hfence hc']
          exact hle
      · rw [h.level_fresh] at hl
        rw [Halves.fence_fresh] at hf ⊢
        by_cases hba : b = a
        · subst hba
          exact ⟨t.fresh, hsplit, Halves.fence_fresh.le⟩
        · -- the new page is right of `a`, so `b` is left of `a`
          have hlt : t.fence b < t.fence a := by
            rcases h.fence_le_or_lt hc ha hb hl with hle | hlt
            · exact lt_of_le_of_ne hle (fun heq => hba (hc.fence_inj b hb a ha hl heq))
            · exact absurd hlt hf.not_gt
          obtain ⟨d, hd, hle⟩ := hc.next b hb a ha hl hlt
          refine ⟨d, (hold hb hba).trans hd, ?_⟩
          rw [hfence (hc.sibling_lt hb hd).1]
          exact hle.trans h.right_fence.le
    · rw [h.level_fresh] at hl
      rw [Halves.fence_fresh] at hf
      rcases Nat.lt_succ_iff_lt_or_eq.mp hcb with hc' | rfl
      · rw [h.level_of_lt hc'] at hl
        rw [hfence hc'] at hf ⊢
        obtain ⟨d, hd, hle⟩ := hc.next a ha c hc' hl (h.right_fence.trans hf)
        refine ⟨d, ?_, ?_⟩
        · rw [pages_split, if_pos rfl]
          exact h.right_sibling.trans hd
        · rw [hfence (hc.sibling_lt ha hd).1]
          exact hle
      · rw [Halves.fence_fresh] at hf
        exact absurd hf (lt_irrefl _)

theorem holds_newRoot {left key right : ℕ} (hne : left ≠ right) (level : ℕ) :
    Holds (newRoot left key right level : Page V) [⟨key, .page right⟩] where
  records i hi := by
    obtain rfl : i = 0 := by simpa using hi
    rfl
  ends := rfl
  empty hnil := nomatch hnil
  lastIndex := rfl
  sorted := List.pairwise_singleton _ _
  nodup := by
    refine List.nodup_cons.mpr ⟨fun hmem => ?_, List.nodup_singleton _⟩
    exact hne (Ptr.page.inj (List.mem_singleton.mp hmem))
  ptr_ne_null e he := by
    rw [List.mem_singleton.mp he]
    exact fun heq => nomatch heq
  length_lt := show 1 < cardinality by decide

theorem pages_growRoot (t : Btree V) (left key right level b : ℕ) :
    (growRoot t left key right level).pages b
      = if b = t.fresh then newRoot left key right level else t.pages b :=
  Function.update_apply _ _ _ _

theorem keeps_growRoot (t : Btree V) (left key right level : ℕ) :
    Keeps t (growRoot t left key right level) := by
  refine ⟨Nat.le_succ _, fun b hb => ?_, fun b hb => ?_⟩
  · exact congrArg Page.fenceKey ((pages_growRoot t left key right level b).trans (if_neg hb.ne))
  · exact congrArg Page.level ((pages_growRoot t left key right level b).trans (if_neg hb.ne))

/-- **The root gets a page above it** after it was split. -/
theorem Chain.growRoot (h : Chain t) {b : ℕ} (hroot : t.root < t.fresh)
    (hfence : t.fence t.root = 0) (htop : ∀ c < t.fresh, t.level c ≤ t.level t.root)
    (hb : b < t.fresh) (hl : t.level b = t.level t.root) (hpos : 0 < t.fence b) :
    Inv (growRoot t t.root (t.fence b) b (t.level t.root + 1)) := by
  have hkeeps := keeps_growRoot t t.root (t.fence b) b (t.level t.root + 1)
  have hpages := pages_growRoot t t.root (t.fence b) b (t.level t.root + 1)
  have hnew := (hpages t.fresh).trans (if_pos rfl)
  have hlevel : (FastFair.growRoot t t.root (t.fence b) b (t.level t.root + 1)).level t.fresh
      = t.level t.root + 1 := congrArg Page.level hnew
  have hne : t.root ≠ b := by
    rintro rfl
    exact hpos.ne' hfence
  have hholds : Holds (newRoot t.root (t.fence b) b (t.level t.root + 1) : Page V) _ :=
    holds_newRoot hne (t.level t.root + 1)
  have hentries := hholds.entries_eq
  -- no other page is on the level of the new one
  have hbelow : ∀ c < t.fresh,
      (FastFair.growRoot t t.root (t.fence b) b (t.level t.root + 1)).level c
        < t.level t.root + 1 := by
    intro c hc
    rw [hkeeps.level c hc]
    exact Nat.lt_succ_of_le (htop c hc)
  refine ⟨⟨fun c hc => ?_, fun c hc d hd hcd hf => ?_, fun c hc d hd hcd hf => ?_⟩,
    Nat.lt_succ_self _, congrArg Page.fenceKey hnew, fun c hc hne => ?_⟩
  · rcases Nat.lt_succ_iff_lt_or_eq.mp hc with hc | rfl
    · rw [hpages, if_neg hc.ne]
      exact (h.page c hc).mono hkeeps
    · rw [hnew]
      refine ⟨hentries.symm ▸ hholds, rfl, rfl, .inl rfl, fun h0 => absurd h0 (Nat.succ_ne_zero _),
        fun n hn => ?_⟩
      obtain rfl : t.level t.root = n := Nat.succ.inj hn
      rw [hentries]
      refine ⟨List.cons_ne_nil _ _, ⟨t.root, hroot.trans (Nat.lt_succ_self _), rfl,
        hkeeps.level _ hroot, (hkeeps.fence _ hroot).trans hfence⟩, fun e he => ?_⟩
      rw [List.mem_singleton.mp he]
      exact ⟨hpos, b, hb.trans (Nat.lt_succ_self _), rfl, (hkeeps.level b hb).trans hl,
        hkeeps.fence b hb⟩
  · rcases Nat.lt_succ_iff_lt_or_eq.mp hc with hc | rfl
    · rcases Nat.lt_succ_iff_lt_or_eq.mp hd with hd | rfl
      · rw [hkeeps.level c hc, hkeeps.level d hd] at hcd
        rw [hkeeps.fence c hc, hkeeps.fence d hd] at hf
        exact h.fence_inj c hc d hd hcd hf
      · exact absurd (hcd.trans hlevel) (hbelow c hc).ne
    · rcases Nat.lt_succ_iff_lt_or_eq.mp hd with hd | rfl
      · exact absurd (hcd.symm.trans hlevel) (hbelow d hd).ne
      · rfl
  · rcases Nat.lt_succ_iff_lt_or_eq.mp hc with hc | rfl
    · rcases Nat.lt_succ_iff_lt_or_eq.mp hd with hd | rfl
      · rw [hkeeps.level c hc, hkeeps.level d hd] at hcd
        rw [hkeeps.fence c hc, hkeeps.fence d hd] at hf
        obtain ⟨x, hx, hle⟩ := h.next c hc d hd hcd hf
        refine ⟨x, ?_, ?_⟩
        · rw [hpages, if_neg hc.ne]
          exact hx
        · rw [hkeeps.fence x (h.sibling_lt hc hx).1, hkeeps.fence d hd]
          exact hle
      · exact absurd (hcd.trans hlevel) (hbelow c hc).ne
    · rcases Nat.lt_succ_iff_lt_or_eq.mp hd with hd | rfl
      · exact absurd (hcd.symm.trans hlevel) (hbelow d hd).ne
      · exact absurd hf (lt_irrefl _)
  · rcases Nat.lt_succ_iff_lt_or_eq.mp hc with hc | rfl
    · exact (hbelow c hc).trans_eq hlevel.symm
    · exact absurd rfl hne

/-! ## An entry is written -/

/-- **What may be stored at a level**: into the leaves a value that no other key has,
and above a page of the level below, under its fence key, that is not yet there. -/
def Storable (t : Btree V) (key : ℕ) (right : Ptr V) : ℕ → Prop
  | 0 => ∃ v, right = .value v ∧ ∀ k, Content t k v → k = key
  | n + 1 => ∃ c < t.fresh, right = .page c ∧ t.level c = n ∧ t.fence c = key ∧ ¬ Linked t c

/-- A page that has an entry for the key, and otherwise the entries of another. -/
structure Writes (p q : Page V) (key : ℕ) (right : Ptr V) : Prop where
  frame : q.frame = p.frame
  holds : Holds q q.entries
  forward : isForward q.switchCounter = true
  mem : ∀ e, e ∈ q.entries ↔ e = ⟨key, right⟩ ∨ e.key ≠ key ∧ e ∈ p.entries

variable {key : ℕ} {right : Ptr V} {q : Page V}

theorem Chain.leaf_ptr (h : Chain t) (ha : a < t.fresh) (hl : t.level a = 0) {e : Entry V}
    (he : e ∈ (t.pages a).entries) : ∃ v, e.ptr = .value v := (((h.page a ha).leaf hl).2 e he).2

theorem Chain.linked_of_fence (h : Chain t) (ha : a < t.fresh) {n : ℕ} (hl : t.level a = n + 1)
    {c : ℕ} (hc : c < t.fresh) (hcl : t.level c = n)
    (hf : t.fence c = t.fence a ∨ ∃ e ∈ (t.pages a).entries, t.fence c = e.key) :
    Child (t.pages a) c := by
  obtain ⟨-, ⟨d, hd, hp, hdl, hdf⟩, hentries⟩ := (h.page a ha).internal n hl
  rcases hf with hf | ⟨e, he, hf⟩
  · left
    rw [hp, h.fence_inj c hc d hd (hcl.trans hdl.symm) (hf.trans hdf.symm)]
  · right
    obtain ⟨-, d, hd, hp, hdl, hdf⟩ := hentries e he
    refine ⟨e, he, ?_⟩
    rw [hp, h.fence_inj c hc d hd (hcl.trans hdl.symm) (hf.trans hdf.symm)]

/-- The page stays as it should be. -/
theorem Chain.pageOk_of_writes (h : Chain t) (ha : a < t.fresh) (hcov : Covers t a key)
    (hs : Storable t key right (t.level a)) (hw : Writes (t.pages a) q key right) :
    PageOk t q := by
  have hok := h.page a ha
  have hleftmost : q.leftmostPtr = (t.pages a).leftmostPtr := congrArg (fun f => f.1) hw.frame
  have hsib : q.siblingPtr = (t.pages a).siblingPtr := congrArg (fun f => f.2.1) hw.frame
  have hlevel : q.level = t.level a := congrArg (fun f => f.2.2.1) hw.frame
  have hdel : q.isDeleted = (t.pages a).isDeleted := congrArg (fun f => f.2.2.2.1) hw.frame
  have hfence : q.fenceKey = t.fence a := congrArg (fun f => f.2.2.2.2) hw.frame
  refine ⟨hw.holds, hdel.trans hok.alive, hw.forward, ?_, fun h0 => ?_, fun n hn => ?_⟩
  · rw [hsib, hlevel, hfence]
    refine hok.sibling.imp_right ?_
    rintro ⟨b, hb, hp, hl, hf, he⟩
    refine ⟨b, hb, hp, hl, hf, fun e hmem => ?_⟩
    rcases (hw.mem e).mp hmem with rfl | ⟨-, hmem⟩
    · exact hcov.lt_sibling b hp
    · exact he e hmem
  · rw [hlevel] at h0
    rw [h0] at hs
    obtain ⟨v, hv, -⟩ := hs
    refine ⟨hleftmost.trans (hok.leaf h0).1, fun e hmem => ?_⟩
    rw [hfence]
    rcases (hw.mem e).mp hmem with rfl | ⟨-, hmem⟩
    · exact ⟨hcov.fence_le, v, hv⟩
    · exact (hok.leaf h0).2 e hmem
  · rw [hlevel] at hn
    rw [hn] at hs
    obtain ⟨c, hc, hp, hl, hf, hnot⟩ := hs
    -- a page that is not linked does not start where this one does
    have hlt : t.fence a < key := by
      refine lt_of_le_of_ne hcov.fence_le (fun heq => hnot ⟨a, ha, ?_⟩)
      exact h.linked_of_fence ha hn hc hl (.inl (hf.trans heq.symm))
    obtain ⟨-, hfirst, hentries⟩ := hok.internal n hn
    rw [hleftmost, hfence]
    refine ⟨List.ne_nil_of_mem ((hw.mem _).mpr (.inl rfl)), hfirst, fun e hmem => ?_⟩
    rcases (hw.mem e).mp hmem with rfl | ⟨-, hmem⟩
    · exact ⟨hlt, c, hc, hp, hl, hf⟩
    · exact hentries e hmem

/-- Nothing but the key changes in the leaves. -/
theorem Chain.content_of_writes (h : Chain t) (ha : a < t.fresh) (hcov : Covers t a key)
    (hw : Writes (t.pages a) q key right) (hl : t.level a = 0) (k : ℕ) (v : V) :
    Content (t.setPage a q) k v ↔ if k = key then right = .value v else Content t k v := by
  constructor
  · rintro ⟨b, hb, hbl, hmem⟩
    rw [level_setPage hw.frame] at hbl
    rw [pages_setPage] at hmem
    by_cases hba : b = a
    · rw [if_pos hba] at hmem
      rcases (hw.mem _).mp hmem with heq | ⟨hne, hmem⟩
      · obtain ⟨rfl, rfl⟩ := Entry.mk.inj heq
        rw [if_pos rfl]
      · rw [if_neg hne]
        exact ⟨a, ha, hl, hmem⟩
    · rw [if_neg hba] at hmem
      rw [if_neg]
      · exact ⟨b, hb, hbl, hmem⟩
      · rintro rfl
        exact hba (Covers.unique h hb ha (hbl.trans hl.symm) (h.covers_of_mem hb hbl hmem) hcov)
  · intro hk
    by_cases hkey : k = key
    · rw [if_pos hkey] at hk
      refine ⟨a, ha, (level_setPage hw.frame a).trans hl, ?_⟩
      rw [pages_setPage, if_pos rfl]
      exact (hw.mem _).mpr (.inl (by rw [hkey, hk]))
    · rw [if_neg hkey] at hk
      obtain ⟨b, hb, hbl, hmem⟩ := hk
      refine ⟨b, hb, (level_setPage hw.frame b).trans hbl, ?_⟩
      rw [pages_setPage]
      split
      · subst b
        exact (hw.mem _).mpr (.inr ⟨hkey, hmem⟩)
      · exact hmem

/-- The pages above the leaves say nothing of the keys. -/
theorem content_of_writes_internal (hw : Writes (t.pages a) q key right) (hl : t.level a ≠ 0)
    (k : ℕ) (v : V) : Content (t.setPage a q) k v ↔ Content t k v := by
  refine exists_congr (fun b => and_congr_right (fun _ => ?_))
  rw [level_setPage hw.frame]
  refine and_congr_right (fun hbl => ?_)
  have hba : b ≠ a := by
    rintro rfl
    exact hl hbl
  rw [pages_setPage, if_neg hba]

/-- A page that is stored into the level above is linked, and no other. -/
theorem Chain.linked_of_writes (h : Chain t) (ha : a < t.fresh)
    (hs : Storable t key right (t.level a)) (hw : Writes (t.pages a) q key right) (c : ℕ) :
    Linked (t.setPage a q) c ↔ Linked t c ∨ right = .page c := by
  have hleftmost : q.leftmostPtr = (t.pages a).leftmostPtr := congrArg (fun f => f.1) hw.frame
  constructor
  · rintro ⟨b, hb, hchild⟩
    rw [pages_setPage] at hchild
    by_cases hba : b = a
    · rw [if_pos hba] at hchild
      rcases hchild with hchild | ⟨e, he, hchild⟩
      · exact .inl ⟨a, ha, .inl (hleftmost.symm.trans hchild)⟩
      · rcases (hw.mem e).mp he with rfl | ⟨-, he⟩
        · exact .inr hchild
        · exact .inl ⟨a, ha, .inr ⟨e, he, hchild⟩⟩
    · rw [if_neg hba] at hchild
      exact .inl ⟨b, hb, hchild⟩
  · have hnew : right = .page c → Linked (t.setPage a q) c := by
      intro hr
      refine ⟨a, ha, ?_⟩
      rw [pages_setPage, if_pos rfl]
      exact .inr ⟨_, (hw.mem _).mpr (.inl rfl), hr⟩
    rintro (⟨b, hb, hchild⟩ | hr)
    · by_cases hba : b = a
      · subst hba
        rcases hchild with hchild | ⟨e, he, hchild⟩
        · refine ⟨b, hb, ?_⟩
          rw [pages_setPage, if_pos rfl]
          exact .inl (hleftmost.trans hchild)
        · by_cases hk : e.key = key
          · -- an entry that is overwritten is one of a leaf
            cases hn : t.level b with
            | zero =>
              obtain ⟨v, hv⟩ := h.leaf_ptr hb hn he
              exact nomatch hchild.symm.trans hv
            | succ n =>
              rw [hn] at hs
              obtain ⟨d, hd, -, hdl, hdf, hnot⟩ := hs
              refine absurd ⟨b, hb, ?_⟩ hnot
              exact h.linked_of_fence hb hn hd hdl (.inr ⟨e, he, hdf.trans hk.symm⟩)
          · refine ⟨b, hb, ?_⟩
            rw [pages_setPage, if_pos rfl]
            exact .inr ⟨e, (hw.mem e).mpr (.inr ⟨hk, he⟩), hchild⟩
      · refine ⟨b, hb, ?_⟩
        rw [pages_setPage, if_neg hba]
        exact hchild
    · exact hnew hr

/-! ## A page is split -/

/-- **The halves of a page that is split at an entry.** The entry goes to the right,
where in an internal page its child becomes the leftmost one. -/
structure SplitAt (t : Btree V) (a : ℕ) (left right : Page V) (l : List (Entry V)) (x : Entry V)
    (rest : List (Entry V)) : Prop where
  entries : (t.pages a).entries = l ++ x :: rest
  left_frame : left.frame
    = ((t.pages a).leftmostPtr, .page t.fresh, t.level a, false, t.fence a)
  left_holds : Holds left l
  left_ne : l ≠ []
  left_forward : isForward left.switchCounter = true
  right_forward : isForward right.switchCounter = true
  right_frame : right.frame
    = (if t.level a = 0 then .null else x.ptr, (t.pages a).siblingPtr, t.level a, false, x.key)
  right_holds : Holds right (if t.level a = 0 then x :: rest else rest)
  rest_ne : rest ≠ []

namespace SplitAt

variable {l rest : List (Entry V)} {x : Entry V} {left right : Page V}

theorem key_lt (h : SplitAt t a left right l x rest) (hc : Chain t) (ha : a < t.fresh) :
    (∀ e ∈ l, e.key < x.key) ∧ ∀ e ∈ rest, x.key < e.key := by
  have hsorted := (hc.page a ha).holds.sorted
  rw [h.entries] at hsorted
  obtain ⟨-, hright, hcross⟩ := List.pairwise_append.mp hsorted
  exact ⟨fun e he => hcross e he x List.mem_cons_self, (List.pairwise_cons.mp hright).1⟩

theorem mem_entries (h : SplitAt t a left right l x rest) : x ∈ (t.pages a).entries := by
  rw [h.entries]
  exact List.mem_append_right _ List.mem_cons_self

theorem halves (h : SplitAt t a left right l x rest) (hc : Chain t) (ha : a < t.fresh) :
    Halves t a left right where
  left_level := congrArg (fun f => f.2.2.1) h.left_frame
  left_fence := congrArg (fun f => f.2.2.2.2) h.left_frame
  left_sibling := congrArg (fun f => f.2.1) h.left_frame
  right_level := congrArg (fun f => f.2.2.1) h.right_frame
  right_fence := by
    have hfence : right.fenceKey = x.key := congrArg (fun f => f.2.2.2.2) h.right_frame
    rw [hfence]
    obtain ⟨e, he⟩ := List.exists_mem_of_ne_nil l h.left_ne
    refine (hc.fence_le_key ha ?_).trans_lt ((h.key_lt hc ha).1 e he)
    rw [h.entries]
    exact List.mem_append_left _ he
  right_sibling := congrArg (fun f => f.2.1) h.right_frame
  fence_lt b hb := by
    have hfence : right.fenceKey = x.key := congrArg (fun f => f.2.2.2.2) h.right_frame
    rw [hfence]
    exact (hc.sibling_lt ha hb).2.2.2 x h.mem_entries

theorem left_ok (h : SplitAt t a left right l x rest) (hc : Chain t) (ha : a < t.fresh) :
    PageOk (t.split a left right) left := by
  have hh := h.halves hc ha
  have hok := (hc.page a ha).mono hh.keeps
  have hleftmost : left.leftmostPtr = (t.pages a).leftmostPtr :=
    congrArg (fun f => f.1) h.left_frame
  have hsub : ∀ e ∈ left.entries, e ∈ (t.pages a).entries := by
    rw [h.left_holds.entries_eq, h.entries]
    exact fun e he => List.mem_append_left _ he
  refine ⟨h.left_holds.entries_eq.symm ▸ h.left_holds,
    congrArg (fun f => f.2.2.2.1) h.left_frame, h.left_forward, .inr ?_, fun h0 => ?_,
    fun n hn => ?_⟩
  · refine ⟨t.fresh, Nat.lt_succ_self _, hh.left_sibling, ?_, ?_, fun e he => ?_⟩
    · rw [hh.level_fresh, hh.left_level]
    · rw [Halves.fence_fresh, hh.left_fence]
      exact hh.right_fence
    · rw [h.left_holds.entries_eq] at he
      rw [Halves.fence_fresh]
      exact ((h.key_lt hc ha).1 e he).trans_eq
        (congrArg (fun f => f.2.2.2.2) h.right_frame).symm
  · rw [hh.left_level] at h0
    rw [hleftmost, hh.left_fence]
    exact ⟨(hok.leaf h0).1, fun e he => (hok.leaf h0).2 e (hsub e he)⟩
  · rw [hh.left_level] at hn
    obtain ⟨-, hfirst, hentries⟩ := hok.internal n hn
    rw [hleftmost, hh.left_fence]
    exact ⟨h.left_holds.entries_eq.symm ▸ h.left_ne, hfirst,
      fun e he => hentries e (hsub e he)⟩

theorem right_ok (h : SplitAt t a left right l x rest) (hc : Chain t) (ha : a < t.fresh) :
    PageOk (t.split a left right) right := by
  have hh := h.halves hc ha
  have hok := (hc.page a ha).mono hh.keeps
  have hfence : right.fenceKey = x.key := congrArg (fun f => f.2.2.2.2) h.right_frame
  have hentries := h.right_holds.entries_eq
  have hsub : ∀ e ∈ right.entries, e ∈ (t.pages a).entries := by
    rw [hentries, h.entries]
    intro e he
    refine List.mem_append_right _ ?_
    split at he
    · exact he
    · exact .tail x he
  refine ⟨hentries.symm ▸ h.right_holds, congrArg (fun f => f.2.2.2.1) h.right_frame,
    h.right_forward, ?_, fun h0 => ?_, fun n hn => ?_⟩
  · rw [hh.right_sibling]
    refine hok.sibling.imp_right ?_
    rintro ⟨b, hb, hp, hl, hf, he⟩
    have hb' := (hc.sibling_lt ha hp).1
    refine ⟨b, hb, hp, hl.trans hh.right_level.symm, ?_, fun e hmem => he e (hsub e hmem)⟩
    rw [hh.fence_of_lt hb']
    exact hh.fence_lt b hp
  · rw [hh.right_level] at h0
    have hleftmost : right.leftmostPtr = .null :=
      (congrArg (fun f => f.1) h.right_frame).trans (if_pos h0)
    refine ⟨hleftmost, fun e he => ⟨?_, ((hok.leaf h0).2 e (hsub e he)).2⟩⟩
    rw [hentries, if_pos h0] at he
    rw [hfence]
    rcases List.mem_cons.mp he with rfl | he
    · exact le_rfl
    · exact ((h.key_lt hc ha).2 e he).le
  · rw [hh.right_level] at hn
    have h0 : t.level a ≠ 0 := by
      rw [hn]
      exact Nat.succ_ne_zero n
    have hleftmost : right.leftmostPtr = x.ptr :=
      (congrArg (fun f => f.1) h.right_frame).trans (if_neg h0)
    rw [if_neg h0] at hentries
    obtain ⟨-, -, hchild⟩ := hok.internal n hn
    rw [hleftmost, hfence, hentries]
    refine ⟨h.rest_ne, (hchild x h.mem_entries).2, fun e he => ⟨(h.key_lt hc ha).2 e he, ?_⟩⟩
    exact (hchild e (hsub e (hentries.symm ▸ he))).2

theorem chain (h : SplitAt t a left right l x rest) (hc : Chain t) (ha : a < t.fresh) :
    Chain (t.split a left right) :=
  hc.split ha (h.halves hc ha) (h.left_ok hc ha) (h.right_ok hc ha)

/-- **A split leaves what the leaves say.** -/
theorem content (h : SplitAt t a left right l x rest) (hc : Chain t) (ha : a < t.fresh) (k : ℕ)
    (v : V) : Content (t.split a left right) k v ↔ Content t k v := by
  have hh := h.halves hc ha
  constructor
  · rintro ⟨b, hb, hbl, hmem⟩
    rcases Nat.lt_succ_iff_lt_or_eq.mp hb with hb | rfl
    · rw [hh.level_of_lt hb] at hbl
      refine ⟨b, hb, hbl, ?_⟩
      rw [pages_split, if_neg hb.ne] at hmem
      split at hmem
      · subst b
        rw [h.left_holds.entries_eq] at hmem
        rw [h.entries]
        exact List.mem_append_left _ hmem
      · exact hmem
    · rw [hh.level_fresh] at hbl
      refine ⟨a, ha, hbl, ?_⟩
      rw [pages_split, if_pos rfl, h.right_holds.entries_eq, if_pos hbl] at hmem
      rw [h.entries]
      exact List.mem_append_right _ hmem
  · rintro ⟨b, hb, hbl, hmem⟩
    by_cases hba : b = a
    · subst hba
      rw [h.entries] at hmem
      rcases List.mem_append.mp hmem with hmem | hmem
      · refine ⟨b, hb.trans (Nat.lt_succ_self _), (hh.level_of_lt hb).trans hbl, ?_⟩
        rw [pages_split, if_neg hb.ne, if_pos rfl, h.left_holds.entries_eq]
        exact hmem
      · refine ⟨t.fresh, Nat.lt_succ_self _, hh.level_fresh.trans hbl, ?_⟩
        rw [pages_split, if_pos rfl, h.right_holds.entries_eq, if_pos hbl]
        exact hmem
    · refine ⟨b, hb.trans (Nat.lt_succ_self _), (hh.level_of_lt hb).trans hbl, ?_⟩
      rw [pages_split, if_neg hb.ne, if_neg hba]
      exact hmem

/-- The children of the page are those of its halves. -/
theorem child_iff (h : SplitAt t a left right l x rest) (c : ℕ) :
    Child (t.pages a) c ↔ Child left c ∨ Child right c := by
  have hleft : left.leftmostPtr = (t.pages a).leftmostPtr := congrArg (fun f => f.1) h.left_frame
  have hright : right.leftmostPtr = if t.level a = 0 then .null else x.ptr :=
    congrArg (fun f => f.1) h.right_frame
  unfold Child
  rw [hleft, hright, h.left_holds.entries_eq, h.right_holds.entries_eq, h.entries]
  by_cases h0 : t.level a = 0
  · rw [if_pos h0, if_pos h0]
    simp [or_and_right, exists_or, or_assoc]
  · rw [if_neg h0, if_neg h0]
    simp [or_and_right, exists_or, or_assoc]

/-- The new page is not linked, and all others stay as they are. -/
theorem linked (h : SplitAt t a left right l x rest) (ha : a < t.fresh) (c : ℕ) :
    Linked (t.split a left right) c ↔ Linked t c := by
  constructor
  · rintro ⟨b, hb, hchild⟩
    rcases Nat.lt_succ_iff_lt_or_eq.mp hb with hb | rfl
    · rw [pages_split, if_neg hb.ne] at hchild
      split at hchild
      · exact ⟨a, ha, (h.child_iff c).mpr (.inl hchild)⟩
      · exact ⟨b, hb, hchild⟩
    · rw [pages_split, if_pos rfl] at hchild
      exact ⟨a, ha, (h.child_iff c).mpr (.inr hchild)⟩
  · rintro ⟨b, hb, hchild⟩
    by_cases hba : b = a
    · subst hba
      rcases (h.child_iff c).mp hchild with hchild | hchild
      · refine ⟨b, hb.trans (Nat.lt_succ_self _), ?_⟩
        rw [pages_split, if_neg hb.ne, if_pos rfl]
        exact hchild
      · refine ⟨t.fresh, Nat.lt_succ_self _, ?_⟩
        rw [pages_split, if_pos rfl]
        exact hchild
    · refine ⟨b, hb.trans (Nat.lt_succ_self _), ?_⟩
      rw [pages_split, if_neg hb.ne, if_neg hba]
      exact hchild

end SplitAt

/-! ## The halves `store` makes -/

/-- Only pages there are have a page above them. -/
theorem Chain.lt_of_linked (h : Chain t) {c : ℕ} (hc : Linked t c) : c < t.fresh := by
  obtain ⟨b, hb, hchild⟩ := hc
  have hok := h.page b hb
  cases hn : t.level b with
  | zero =>
    rcases hchild with hchild | ⟨e, he, hchild⟩
    · exact nomatch hchild.symm.trans (hok.leaf hn).1
    · obtain ⟨v, hv⟩ := h.leaf_ptr hb hn he
      exact nomatch hchild.symm.trans hv
  | succ n =>
    obtain ⟨-, ⟨d, hd, hp, -⟩, hentries⟩ := hok.internal n hn
    rcases hchild with hchild | ⟨e, he, hchild⟩
    · exact Ptr.page.inj (hchild.symm.trans hp) ▸ hd
    · obtain ⟨-, d, hd, hp, -⟩ := hentries e he
      exact Ptr.page.inj (hchild.symm.trans hp) ▸ hd

end Transitions

section Split

variable {p q : Page V} {l : List (Entry V)}

/-- A page with the slots of another. -/
theorem Holds.congr (h : Holds p l) (hrec : q.records = p.records)
    (hlast : q.lastIndex = p.lastIndex) (hleft : q.leftmostPtr ∉ l.map Entry.ptr) :
    Holds q l where
  records := hrec ▸ h.records
  ends := hrec ▸ h.ends
  empty := hrec ▸ h.empty
  lastIndex := hlast.trans h.lastIndex
  sorted := h.sorted
  nodup := List.nodup_cons.mpr ⟨hleft, (List.nodup_cons.mp h.nodup).2⟩
  ptr_ne_null := h.ptr_ne_null
  length_lt := h.length_lt

theorem holds_new (level : ℕ) : Holds ({ level := level } : Page V) [] where
  records i hi := absurd hi (Nat.not_lt_zero i)
  ends := rfl
  empty _ := rfl
  lastIndex := rfl
  sorted := List.Pairwise.nil
  nodup := List.nodup_singleton _
  ptr_ne_null e he := nomatch he
  length_lt := show 0 < cardinality by decide

/-- **The entries a new page gets**: the page holds some and the others follow. -/
theorem Holds.migrate {l₀ l₁ l₂ : List (Entry V)} (h : Holds p (l₀ ++ (l₁ ++ l₂)))
    (hq : Holds q l₁) (hnull : q.leftmostPtr = .null) :
    Holds (migrate p (List.range' (l₀.length + l₁.length) l₂.length) q l₁.length).1 (l₁ ++ l₂)
      ∧ (FastFair.migrate p (List.range' (l₀.length + l₁.length) l₂.length) q l₁.length).2
        = l₁.length + l₂.length
      ∧ (FastFair.migrate p (List.range' (l₀.length + l₁.length) l₂.length) q l₁.length).1.frame
        = q.frame := by
  induction l₂ generalizing l₁ q with
  | nil =>
    rw [List.append_nil]
    exact ⟨hq, rfl, rfl⟩
  | cons x l₂ ih =>
    have hx : p.records (l₀.length + l₁.length) = x := by
      rw [h.records _ (by simp)]
      simp
    have hassoc : l₁ ++ x :: l₂ = (l₁ ++ [x]) ++ l₂ := by simp
    have hsub : (l₁ ++ [x]).Sublist (l₀ ++ (l₁ ++ x :: l₂)) := by
      rw [hassoc]
      exact (List.sublist_append_left _ l₂).trans (List.sublist_append_right l₀ _)
    have hlt : ∀ e ∈ l₁, e.key < x.key := by
      intro e he
      exact (List.pairwise_append.mp (h.sorted.sublist hsub)).2.2 e he x (List.mem_singleton_self x)
    have hptrs := (List.nodup_cons.mp h.nodup).2.sublist (hsub.map Entry.ptr)
    have hmem : x ∈ l₀ ++ (l₁ ++ x :: l₂) :=
      List.mem_append_right _ (List.mem_append_right _ List.mem_cons_self)
    have hins : insertEntry l₁ ⟨x.key, x.ptr⟩ = l₁ ++ [x] := by
      rw [insertEntry_eq_insertIdx le_rfl (fun i hi _ => hlt _ (List.getElem_mem hi))
        (fun i hi hle => absurd hi (not_lt.mpr hle)), List.insertIdx_length_self]
    have hnew : Holds (FastFair.insertKey q x.key x.ptr l₁.length) (l₁ ++ [x]) := by
      rw [← hins]
      refine hq.insertKey (fun e he => (hlt e he).ne) ?_ (h.ptr_ne_null x hmem) ?_
      · rw [hnull]
        refine List.not_mem_cons_of_ne_of_not_mem (h.ptr_ne_null x hmem) (fun hin => ?_)
        rw [List.map_append] at hptrs
        exact (List.nodup_append.mp hptrs).2.2 x.ptr hin x.ptr (List.mem_singleton_self _) rfl
      · have hlen := h.length_lt
        simp only [List.length_append, List.length_cons] at hlen
        omega
    have hframe := frame_insertKey q x.key x.ptr l₁.length
    have hnull' : (FastFair.insertKey q x.key x.ptr l₁.length).leftmostPtr = .null :=
      (congrArg (fun f => f.1) hframe).trans hnull
    rw [hassoc] at h
    have hlen : (l₁ ++ [x]).length = l₁.length + 1 := by simp
    have hrec := ih h hnew hnull'
    rw [hlen, ← hassoc] at hrec
    rw [List.length_cons, List.range'_succ]
    unfold FastFair.migrate
    rw [hx]
    exact ⟨hrec.1, hrec.2.1.trans (by omega), hrec.2.2.trans hframe⟩

variable {l₀ rest : List (Entry V)} {x : Entry V}

/-- What stays of a page that is split. -/
theorem Holds.splitLeft (h : Holds p (l₀ ++ x :: rest)) (hne : l₀ ≠ []) (b : ℕ) :
    Holds (splitLeft p l₀.length b) l₀ := by
  have hrec : ∀ i, (FastFair.splitLeft p l₀.length b).records i
      = if i = l₀.length then ⟨(p.records l₀.length).key, .null⟩ else p.records i :=
    fun i => Function.update_apply _ _ _ _
  have hsub : l₀.Sublist (l₀ ++ x :: rest) := List.sublist_append_left _ _
  refine ⟨fun i hi => ?_, ?_, fun hnil => absurd hnil hne, rfl, h.sorted.sublist hsub, ?_,
    fun e he => h.ptr_ne_null e (hsub.subset he), ?_⟩
  · rw [hrec, if_neg hi.ne, h.records i (hi.trans_le hsub.length_le)]
    exact List.getElem_append_left hi
  · rw [hrec, if_pos rfl]
  · exact h.nodup.sublist ((hsub.map Entry.ptr).cons_cons _)
  · exact hsub.length_le.trans_lt h.length_lt

theorem isForward_splitLeft (p : Page V) (m b : ℕ) :
    isForward (splitLeft p m b).switchCounter = true := by
  show isForward (p.switchCounter + if isForward p.switchCounter then 2 else 1) = true
  by_cases h : isForward p.switchCounter = true
  · rw [if_pos h]
    exact isForward_add_two h
  · rw [if_neg h]
    exact isForward_add_one (Bool.not_eq_true _ ▸ h)

theorem isForward_migrate (p : Page V) (is : List ℕ) {q : Page V} (cnt : ℕ)
    (hq : isForward q.switchCounter = true) :
    isForward (migrate p is q cnt).1.switchCounter = true := by
  induction is generalizing q cnt with
  | nil => exact hq
  | cons i is ih => exact ih (cnt + 1) (isForward_insertKey q _ _ _)

theorem frame_splitLeft (p : Page V) (m b : ℕ) :
    (splitLeft p m b).frame = (p.leftmostPtr, .page b, p.level, p.isDeleted, p.fenceKey) := rfl

variable [DecidableEq V]

/-- The page that gets the rest. -/
theorem Holds.splitRight (h : Holds p (l₀ ++ x :: rest)) :
    Holds (splitRight p (l₀ ++ x :: rest).length l₀.length).1
        (if p.leftmostPtr = .null then x :: rest else rest)
      ∧ (FastFair.splitRight p (l₀ ++ x :: rest).length l₀.length).2
        = (if p.leftmostPtr = .null then x :: rest else rest).length
      ∧ (FastFair.splitRight p (l₀ ++ x :: rest).length l₀.length).1.frame
        = (if p.leftmostPtr = .null then .null else x.ptr, p.siblingPtr, p.level, false,
          x.key) := by
  have hx : p.records l₀.length = x := by
    rw [h.records _ (by simp)]
    simp
  unfold FastFair.splitRight
  by_cases hleaf : p.leftmostPtr = .null
  · simp only [if_pos hleaf]
    have hlen : (l₀ ++ x :: rest).length - l₀.length = (x :: rest).length := by
      rw [List.length_append]
      omega
    have hl : l₀ ++ x :: rest = l₀ ++ ([] ++ x :: rest) := rfl
    have hmig := Holds.migrate (hl ▸ h) (holds_new p.level) rfl
    rw [List.nil_append, List.length_nil, Nat.add_zero, Nat.zero_add, ← hlen] at hmig
    obtain ⟨hholds, hcnt, hframe⟩ := hmig
    refine ⟨hholds.congr rfl rfl (List.nodup_cons.mp hholds.nodup).1, hcnt.trans hlen, ?_⟩
    unfold Page.frame at hframe ⊢
    simp only [Prod.mk.injEq] at hframe ⊢
    exact ⟨hframe.1, trivial, hframe.2.2.1, hframe.2.2.2.1, congrArg Entry.key hx⟩
  · simp only [if_neg hleaf]
    have hlen : (l₀ ++ x :: rest).length - (l₀.length + 1) = rest.length := by
      rw [List.length_append, List.length_cons]
      omega
    have hsplit : l₀ ++ x :: rest = (l₀ ++ [x]) ++ ([] ++ rest) := by simp
    have hmig := Holds.migrate (hsplit ▸ h) (holds_new p.level) rfl
    rw [List.nil_append, List.length_nil, Nat.add_zero, Nat.zero_add, List.length_append,
      List.length_singleton, ← hlen] at hmig
    obtain ⟨hholds, hcnt, hframe⟩ := hmig
    have hnot : x.ptr ∉ rest.map Entry.ptr := by
      have hnodup := (List.nodup_cons.mp h.nodup).2
      rw [List.map_append] at hnodup
      exact (List.nodup_cons.mp (List.nodup_append.mp hnodup).2.1).1
    refine ⟨hholds.congr rfl rfl ?_, hcnt.trans hlen, ?_⟩
    · rw [hx]
      exact hnot
    · unfold Page.frame at hframe ⊢
      simp only [Prod.mk.injEq] at hframe ⊢
      exact ⟨congrArg Entry.ptr hx, trivial, hframe.2.2.1, hframe.2.2.2.1, congrArg Entry.key hx⟩

end Split

end FastFair
