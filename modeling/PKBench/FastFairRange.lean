import Mathlib.Data.Finset.Card
import Mathlib.Data.List.Sort
import PKBench.FastFairStore

/-!
# Scans of the FAST_FAIR tree

`Scan` of the index goes down to the leaf of the start key and then along the chain of
leaves, pushing the values it meets to a vector until it has as many as were asked
for. The start key itself is passed over: only keys greater than it are taken.

The scan of a page reads without a lock, as the searches do, and starts again when
`switch_counter` has changed; what it has pushed before stays in the vector. This
module gives the scan as a program of loads, and shows what a scan returns when
nobody interferes (`Inv.scan`): the values of the smallest keys greater than the
start key, in their order.
-/

open Loads

namespace FastFair

variable {V : Type} [DecidableEq V]

/-! ## `linear_search_range` -/

/-- The first slot: the vector, and whether the scan returns. -/
def rangeZero (min cnt : ℕ) (vec : List (Ptr V)) : Prog (Page V) (List (Ptr V) × Bool) := do
  let k ← look fun p => (p.records 0).key
  if ¬ min < k then pure (vec, false)
  else if ¬ vec.length < cnt then pure (vec, true)
  else do
    let t ← look fun p => (p.records 0).ptr
    if t = .null then pure (vec, false)
    else do
      let k' ← look fun p => (p.records 0).key
      if k ≠ k' then pure (vec, false) else pure (vec ++ [t], false)

/-- Another slot. -/
def rangeSlot (curFirst : Bool) (min cnt i : ℕ) (vec : List (Ptr V)) :
    Prog (Page V) (List (Ptr V) × Bool) := do
  let k ← look fun p => (p.records i).key
  if ¬ min < k then pure (vec, false)
  else if ¬ vec.length < cnt then pure (vec, true)
  else do
    let (prev, t) ← lookBoth curFirst i
    if t = prev then pure (vec, false)
    else do
      let k' ← look fun p => (p.records i).key
      if k ≠ k' then pure (vec, false)
      else if t = .null then pure (vec, false)
      else pure (vec ++ [t], false)

/-- The slots from left to right, from one on. -/
def rangeForward (curFirst : Bool) (min cnt : ℕ) :
    ℕ → ℕ → List (Ptr V) → Prog (Page V) (List (Ptr V) × Bool)
  | 0, _, _ => stuck
  | fuel + 1, i, vec => do
    let q ← look fun p => (p.records i).ptr
    if q = .null then pure (vec, false)
    else do
      let r ← rangeSlot curFirst min cnt i vec
      if r.2 then pure r else rangeForward curFirst min cnt fuel (i + 1) r.1

/-- The slots from right to left, down to the second. -/
def rangeBackward (curFirst : Bool) (min cnt : ℕ) :
    ℕ → List (Ptr V) → Prog (Page V) (List (Ptr V) × Bool)
  | 0, vec => pure (vec, false)
  | i + 1, vec => do
    let r ← rangeSlot curFirst min cnt (i + 1) vec
    if r.2 then pure r else rangeBackward curFirst min cnt i r.1

/-- One round of the scan of a page. -/
def rangeRound (curFirst : Bool) (min cnt tries : ℕ) (forward : Bool) (vec : List (Ptr V)) :
    Prog (Page V) (List (Ptr V) × Bool) :=
  if forward then do
    let r ← rangeZero min cnt vec
    if r.2 then pure r else rangeForward curFirst min cnt cardinality 1 r.1
  else do
    let c ← count tries
    let r ← rangeBackward curFirst min cnt (c - 1).toNat vec
    if r.2 then pure r else rangeZero min cnt r.1

/-- **The scan of a page.** A round that is made again adds to what is there. -/
def rangePage (curFirst : Bool) (min cnt : ℕ) :
    ℕ → List (Ptr V) → Prog (Page V) (List (Ptr V) × Bool)
  | 0, _ => stuck
  | tries + 1, vec => do
    let prev ← look Page.switchCounter
    let r ← rangeRound curFirst min cnt (tries + 1) (isForward prev) vec
    if r.2 then pure r
    else do
      let now ← look Page.switchCounter
      if prev ≠ now then rangePage curFirst min cnt tries r.1 else pure r

/-- **`page::linear_search_range`**, along the chain of leaves. -/
def searchRange (t : Btree V) (min cnt : ℕ) : ℕ → ℕ → List (Ptr V) → Option (List (Ptr V))
  | 0, _, _ => none
  | fuel + 1, a, vec => do
    let r ← atomically (rangePage true min cnt 1 vec) (t.pages a)
    if r.2 then some r.1
    else
      match (t.pages a).siblingPtr with
      | .page b => searchRange t min cnt fuel b r.1
      | _ => some r.1

/-- **`btree::btree_search_range`.** -/
def btreeSearchRange (t : Btree V) (min cnt fuel : ℕ) : Option (List (Ptr V)) := do
  let a ← descend t min fuel t.root
  searchRange t min cnt fuel a []

/-! ## The scan of a page when nobody interferes -/

section Page

variable {p : Page V} {l : List (Entry V)} {min cnt : ℕ}

omit [DecidableEq V] in
/-- What a scan does with an entry. -/
def rangeEntry (min cnt : ℕ) (e : Entry V) (vec : List (Ptr V)) : List (Ptr V) × Bool :=
  if min < e.key then if vec.length < cnt then (vec ++ [e.ptr], false) else (vec, true)
  else (vec, false)

omit [DecidableEq V] in
/-- What a scan does with a list of entries. -/
def rangeList (min cnt : ℕ) : List (Entry V) → List (Ptr V) → List (Ptr V) × Bool
  | [], vec => (vec, false)
  | e :: l, vec =>
    if (rangeEntry min cnt e vec).2 then rangeEntry min cnt e vec
    else rangeList min cnt l (rangeEntry min cnt e vec).1

omit [DecidableEq V] in
/-- The entries a scan is after. -/
def above (min : ℕ) (l : List (Entry V)) : List (Entry V) := l.filter (fun e => min < e.key)

omit [DecidableEq V] in
/-- **A scan takes the entries with greater keys**, as many as there is room for, and
returns when it meets one more. -/
theorem rangeList_eq (l : List (Entry V)) {vec : List (Ptr V)} (hvec : vec.length ≤ cnt) :
    rangeList min cnt l vec
      = (vec ++ ((above min l).take (cnt - vec.length)).map Entry.ptr,
        decide (cnt < vec.length + (above min l).length)) := by
  induction l generalizing vec with
  | nil =>
    have hnot : ¬ cnt < vec.length := not_lt.mpr hvec
    simp [rangeList, above, hnot]
  | cons e l ih =>
    unfold rangeList rangeEntry
    by_cases hmin : min < e.key
    · have habove : above min (e :: l) = e :: above min l :=
        List.filter_cons_of_pos (decide_eq_true hmin)
      rw [habove]
      simp only [if_pos hmin]
      by_cases hcnt : vec.length < cnt
      · simp only [if_pos hcnt, Bool.false_eq_true, if_false]
        rw [ih (by rw [List.length_append]; exact hcnt)]
        obtain ⟨k, hk⟩ := Nat.exists_eq_add_of_lt hcnt
        have h1 : cnt - vec.length = k + 1 := by omega
        have h2 : cnt - (vec ++ [e.ptr]).length = k := by
          rw [List.length_append, List.length_singleton]
          omega
        rw [h1, h2]
        simp only [List.append_assoc, List.singleton_append, List.length_append,
          List.length_nil, List.take_succ_cons, List.map_cons, List.length_cons,
          Prod.mk.injEq, true_and, decide_eq_decide]
        omega
      · simp only [if_neg hcnt, if_true]
        have h1 : cnt - vec.length = 0 := by omega
        simp only [h1, List.take_zero, List.map_nil, List.append_nil, List.length_cons,
          Prod.mk.injEq, true_and, true_eq_decide_iff]
        omega
    · have habove : above min (e :: l) = above min l :=
        List.filter_cons_of_neg (by simpa using hmin)
      rw [habove]
      simp only [if_neg hmin, Bool.false_eq_true, if_false]
      exact ih hvec

theorem Holds.returns_rangeSlot (h : Holds p l) (curFirst : Bool) {i : ℕ} (hi : i < l.length)
    (vec : List (Ptr V)) :
    Returns (rangeSlot curFirst min cnt i vec) p (rangeEntry min cnt l[i] vec) := by
  refine Returns.look_bind ?_
  rw [h.records i hi]
  unfold rangeEntry
  by_cases hmin : min < l[i].key
  · rw [if_neg (not_not.mpr hmin), if_pos hmin]
    by_cases hcnt : vec.length < cnt
    · rw [if_neg (not_not.mpr hcnt), if_pos hcnt]
      refine Returns.bind (returns_lookBoth curFirst p i) ?_
      show Returns (if (p.records i).ptr = p.prevPtr i then _ else _) p _
      rw [if_neg (h.prevPtr_ne hi).symm]
      refine Returns.look_bind ?_
      rw [h.records i hi, if_neg (not_not.mpr rfl),
        if_neg (h.ptr_ne_null _ (List.getElem_mem hi))]
      exact Returns.pure _ _
    · rw [if_pos hcnt, if_neg hcnt]
      exact Returns.pure _ _
  · rw [if_pos hmin, if_neg hmin]
    exact Returns.pure _ _

theorem Holds.returns_rangeZero (h : Holds p l) (hi : 0 < l.length) (vec : List (Ptr V)) :
    Returns (rangeZero min cnt vec) p (rangeEntry min cnt l[0] vec) := by
  refine Returns.look_bind ?_
  rw [h.records 0 hi]
  unfold rangeEntry
  by_cases hmin : min < l[0].key
  · rw [if_neg (not_not.mpr hmin), if_pos hmin]
    by_cases hcnt : vec.length < cnt
    · rw [if_neg (not_not.mpr hcnt), if_pos hcnt]
      refine Returns.look_bind ?_
      rw [h.records 0 hi, if_neg (h.ptr_ne_null _ (List.getElem_mem hi))]
      refine Returns.look_bind ?_
      rw [h.records 0 hi, if_neg (not_not.mpr rfl)]
      exact Returns.pure _ _
    · rw [if_pos hcnt, if_neg hcnt]
      exact Returns.pure _ _
  · rw [if_pos hmin, if_neg hmin]
    exact Returns.pure _ _

theorem Holds.returns_rangeForward (h : Holds p l) (curFirst : Bool) {fuel i : ℕ}
    (hi : i ≤ l.length) (hfuel : l.length < i + fuel) (vec : List (Ptr V)) :
    Returns (rangeForward curFirst min cnt fuel i vec) p (rangeList min cnt (l.drop i) vec) := by
  induction fuel generalizing i vec with
  | zero => omega
  | succ fuel ih =>
    refine Returns.look_bind ?_
    by_cases heq : i = l.length
    · subst heq
      rw [if_pos h.ends, List.drop_length]
      exact Returns.pure _ _
    · have hlt : i < l.length := by omega
      rw [if_neg (h.ptr_ne hlt), List.drop_eq_getElem_cons hlt]
      refine Returns.bind (h.returns_rangeSlot curFirst hlt vec) ?_
      unfold rangeList
      split
      · exact Returns.pure _ _
      · exact ih (by omega) (by omega) _

/-- Of an empty page the first slot may still end a scan that is full. -/
theorem Holds.returns_rangeZero_nil (h : Holds p []) (vec : List (Ptr V)) :
    ∃ stop, Returns (rangeZero min cnt vec) p (vec, stop) ∧ (stop = true → cnt ≤ vec.length) := by
  have hends : (p.records 0).ptr = .null := h.ends
  by_cases hmin : min < (p.records 0).key
  · by_cases hcnt : vec.length < cnt
    · refine ⟨false, Returns.look_bind ?_, fun hf => nomatch hf⟩
      rw [if_neg (not_not.mpr hmin), if_neg (not_not.mpr hcnt)]
      refine Returns.look_bind ?_
      rw [if_pos hends]
      exact Returns.pure _ _
    · refine ⟨true, Returns.look_bind ?_, fun _ => not_lt.mp hcnt⟩
      rw [if_neg (not_not.mpr hmin), if_pos hcnt]
      exact Returns.pure _ _
  · refine ⟨false, Returns.look_bind ?_, fun hf => nomatch hf⟩
    rw [if_pos hmin]
    exact Returns.pure _ _

/-- **The scan of a page.** It ends there only when it has as many as were asked for. -/
theorem Holds.returns_rangePage (h : Holds p l) (hfwd : isForward p.switchCounter = true)
    (curFirst : Bool) (min : ℕ) {vec : List (Ptr V)} (hvec : vec.length ≤ cnt) (tries : ℕ) :
    ∃ stop, Returns (rangePage curFirst min cnt (tries + 1) vec) p
        (vec ++ ((above min l).take (cnt - vec.length)).map Entry.ptr, stop)
      ∧ (stop = true → cnt ≤ vec.length + (above min l).length)
      ∧ (stop = false → vec.length + (above min l).length ≤ cnt) := by
  have hpage : ∀ r, Returns (rangeRound curFirst min cnt (tries + 1) true vec) p r →
      Returns (rangePage curFirst min cnt (tries + 1) vec) p r := by
    intro r hr
    refine Returns.look_bind ?_
    rw [hfwd]
    refine Returns.bind hr ?_
    split
    · exact Returns.pure _ _
    · refine Returns.look_bind ?_
      rw [if_neg (not_not.mpr rfl)]
      exact Returns.pure _ _
  rcases Nat.eq_zero_or_pos l.length with hnil | hpos
  · obtain rfl := List.length_eq_zero_iff.mp hnil
    obtain ⟨stop, hzero, hstop⟩ := h.returns_rangeZero_nil vec
    have habove : above min ([] : List (Entry V)) = [] := rfl
    rw [habove, List.take_nil, List.map_nil, List.append_nil, List.length_nil, Nat.add_zero]
    refine ⟨stop, hpage _ (Returns.bind hzero ?_), hstop, fun _ => hvec⟩
    cases stop with
    | true => exact Returns.pure _ _
    | false =>
      refine Returns.look_bind ?_
      rw [if_pos (h.empty rfl)]
      exact Returns.pure _ _
  · have hround : Returns (rangeRound curFirst min cnt (tries + 1) true vec) p
        (rangeList min cnt l vec) := by
      refine Returns.bind (h.returns_rangeZero hpos vec) ?_
      have hl : l = l[0] :: l.drop 1 := List.drop_eq_getElem_cons (i := 0) hpos
      have hcons : rangeList min cnt l vec = if (rangeEntry min cnt l[0] vec).2 then
          rangeEntry min cnt l[0] vec
          else rangeList min cnt (l.drop 1) (rangeEntry min cnt l[0] vec).1 :=
        (congrArg (fun l => rangeList min cnt l vec) hl).trans rfl
      rw [hcons]
      split
      · exact Returns.pure _ _
      · exact h.returns_rangeForward curFirst hpos (by have := h.length_lt; omega) _
    rw [rangeList_eq l hvec] at hround
    refine ⟨_, hpage _ hround, fun hstop => ?_, fun hstop => ?_⟩
    · exact (of_decide_eq_true hstop).le
    · exact not_lt.mp (of_decide_eq_false hstop)

end Page

/-! ## The smallest of a set -/

section Smallest

variable {α : Type} [LinearOrder α]

/-- **The smallest elements of a set**, so many or all, in their order. -/
structure Smallest (S : Set α) (cnt : ℕ) (l : List α) : Prop where
  sorted : l.Pairwise (· < ·)
  mem : ∀ k ∈ l, k ∈ S
  length_le : l.length ≤ cnt
  rest : ∀ k ∈ S, k ∉ l → l.length = cnt ∧ ∀ k' ∈ l, k' < k

theorem Smallest.nil {S : Set α} (hS : ∀ k, k ∉ S) (cnt : ℕ) : Smallest S cnt [] where
  sorted := List.Pairwise.nil
  mem _ hk := nomatch hk
  length_le := Nat.zero_le _
  rest k hk := absurd hk (hS k)

variable {S S' : Set α} {l : List α} {cnt : ℕ}

/-- **There is one list of them.** -/
theorem Smallest.unique {l' : List α} (h : Smallest S cnt l) (h' : Smallest S cnt l') :
    l = l' := by
  -- what only one of two such lists has would be the other's next
  have hsub : ∀ {l l' : List α}, Smallest S cnt l → Smallest S cnt l' → l ⊆ l' := by
    intro l l' h h' k hk
    by_contra hnot
    obtain ⟨hlen, hlt⟩ := h'.rest k (h.mem k hk) hnot
    have hl' : l' ⊆ l := by
      intro k' hk'
      by_contra hnot'
      exact (hlt k' hk').asymm ((h.rest k' (h'.mem k' hk') hnot').2 k hk)
    have hnodup : (k :: l').Nodup := List.nodup_cons.mpr ⟨hnot, h'.sorted.imp ne_of_lt⟩
    have hle := (List.subperm_of_subset hnodup (List.cons_subset.mpr ⟨hk, hl'⟩)).length_le
    rw [List.length_cons, hlen] at hle
    exact absurd (hle.trans h.length_le) (Nat.not_succ_le_self cnt)
  exact h.sorted.eq_of_mem_iff h'.sorted (fun k => ⟨fun hk => hsub h h' hk, fun hk => hsub h' h hk⟩)

/-- The elements of the set that come first are more than are asked for. -/
theorem Smallest.take (hl : l.Pairwise (· < ·)) (hS : ∀ k, k ∈ S ↔ k ∈ l ∨ k ∈ S')
    (hlt : ∀ k ∈ l, ∀ k' ∈ S', k < k') (hcnt : cnt ≤ l.length) : Smallest S cnt (l.take cnt) where
  sorted := hl.sublist (List.take_sublist _ _)
  mem k hk := (hS k).mpr (.inl (List.mem_of_mem_take hk))
  length_le := List.length_take_le _ _
  rest k hk hnot := by
    refine ⟨List.length_take_of_le hcnt, fun k' hk' => ?_⟩
    rcases (hS k).mp hk with hk | hk
    · rw [← List.take_append_drop cnt l] at hl hk
      rcases List.mem_append.mp hk with hk | hk
      · exact absurd hk hnot
      · exact (List.pairwise_append.mp hl).2.2 k' hk' k hk
    · exact hlt k' (List.mem_of_mem_take hk') k hk

/-- The elements that come first are all taken, and then the smallest of the rest. -/
theorem Smallest.append (hl : l.Pairwise (· < ·)) (hS : ∀ k, k ∈ S ↔ k ∈ l ∨ k ∈ S')
    (hlt : ∀ k ∈ l, ∀ k' ∈ S', k < k') {l' : List α} {n : ℕ} (h : Smallest S' n l')
    (hn : l.length + n = cnt) : Smallest S cnt (l ++ l') where
  sorted := List.pairwise_append.mpr ⟨hl, h.sorted, fun k hk k' hk' => hlt k hk k' (h.mem k' hk')⟩
  mem k hk := (hS k).mpr ((List.mem_append.mp hk).imp_right (h.mem k))
  length_le := by
    rw [List.length_append, ← hn]
    exact Nat.add_le_add_left h.length_le _
  rest k hk hnot := by
    rcases (hS k).mp hk with hk | hk
    · exact absurd (List.mem_append_left _ hk) hnot
    · obtain ⟨hlen, hgt⟩ := h.rest k hk (fun hk => hnot (List.mem_append_right _ hk))
      refine ⟨by rw [List.length_append, hlen, hn], fun k' hk' => ?_⟩
      rcases List.mem_append.mp hk' with hk' | hk'
      · exact hlt k' hk' k hk
      · exact hgt k' hk'

end Smallest

/-! ## The scan of a tree -/

section Tree

variable {t : Btree V} {m : ℕ → Option V} {min cnt : ℕ} {a : ℕ}

omit [DecidableEq V]

/-- The keys a scan may still find from a leaf on. -/
def keysFrom (t : Btree V) (m : ℕ → Option V) (min a : ℕ) : Set ℕ :=
  {k | min < k ∧ t.fence a ≤ k ∧ m k ≠ none}

/-- The keys of a leaf a scan takes. -/
def keysAbove (min : ℕ) (p : Page V) : List ℕ := (above min p.entries).map Entry.key

theorem Chain.mem_keysAbove (h : Chain t) (hrep : Represents t m) (ha : a < t.fresh)
    (hl : t.level a = 0) {k : ℕ} :
    k ∈ keysAbove min (t.pages a) ↔ min < k ∧ Covers t a k ∧ m k ≠ none := by
  constructor
  · intro hk
    obtain ⟨e, he, rfl⟩ := List.mem_map.mp hk
    obtain ⟨he, hmin⟩ := List.mem_filter.mp he
    have hcov := h.covers_of_mem ha hl he
    obtain ⟨w, hw⟩ := h.leaf_ptr ha hl he
    refine ⟨of_decide_eq_true hmin, hcov, ?_⟩
    rw [(hrep.mem_entries h ha hl hcov w).mpr (hw ▸ he)]
    exact Option.some_ne_none w
  · rintro ⟨hmin, hcov, hne⟩
    obtain ⟨w, hw⟩ := Option.ne_none_iff_exists'.mp hne
    have hmem := (hrep.mem_entries h ha hl hcov w).mp hw
    exact List.mem_map.mpr ⟨_, List.mem_filter.mpr ⟨hmem, decide_eq_true hmin⟩, rfl⟩

theorem Chain.sorted_keysAbove (h : Chain t) (min : ℕ) (ha : a < t.fresh) :
    (keysAbove min (t.pages a)).Pairwise (· < ·) :=
  List.pairwise_map.mpr ((h.page a ha).holds.sorted.sublist List.filter_sublist)

/-- The values of the keys. -/
theorem Chain.map_ptr_above (h : Chain t) (hrep : Represents t m) (ha : a < t.fresh)
    (hl : t.level a = 0) :
    (above min (t.pages a).entries).map Entry.ptr
      = (keysAbove min (t.pages a)).map (fun k => .ofOption (m k)) := by
  unfold keysAbove
  rw [List.map_map]
  refine List.map_congr_left (fun e he => ?_)
  have he := (List.mem_filter.mp he).1
  obtain ⟨w, hw⟩ := h.leaf_ptr ha hl he
  show e.ptr = .ofOption (m e.key)
  rw [(hrep.mem_entries h ha hl (h.covers_of_mem ha hl he) w).mpr (hw ▸ he), hw]
  rfl

/-- **The keys from a leaf on** are those of the leaf and those from its sibling on. -/
theorem Chain.mem_keysFrom (h : Chain t) (hrep : Represents t m) (ha : a < t.fresh)
    (hl : t.level a = 0) {k : ℕ} :
    k ∈ keysFrom t m min a ↔ k ∈ keysAbove min (t.pages a)
      ∨ ∃ b, (t.pages a).siblingPtr = .page b ∧ k ∈ keysFrom t m min b := by
  rw [h.mem_keysAbove hrep ha hl]
  constructor
  · rintro ⟨hmin, hle, hne⟩
    by_cases hsib : ∃ b, (t.pages a).siblingPtr = .page b ∧ t.fence b ≤ k
    · obtain ⟨b, hb, hbk⟩ := hsib
      exact .inr ⟨b, hb, hmin, hbk, hne⟩
    · exact .inl ⟨hmin, ⟨hle, fun b hb => not_le.mp (fun hbk => hsib ⟨b, hb, hbk⟩)⟩, hne⟩
  · rintro (⟨hmin, hcov, hne⟩ | ⟨b, hb, hmin, hbk, hne⟩)
    · exact ⟨hmin, hcov.fence_le, hne⟩
    · exact ⟨hmin, (h.sibling_lt ha hb).2.2.1.le.trans hbk, hne⟩

/-- How many pages are right of a page. -/
def Btree.rightOf (t : Btree V) (a : ℕ) : ℕ :=
  ((Finset.range t.fresh).filter (fun b => t.fence a < t.fence b)).card

theorem Chain.rightOf_lt (h : Chain t) (ha : a < t.fresh) {b : ℕ}
    (hb : (t.pages a).siblingPtr = .page b) : t.rightOf b < t.rightOf a := by
  obtain ⟨hb, -, hf, -⟩ := h.sibling_lt ha hb
  refine Finset.card_lt_card (Finset.ssubset_iff_of_subset ?_ |>.mpr ⟨b, ?_, ?_⟩)
  · intro c hc
    obtain ⟨hc, hbc⟩ := Finset.mem_filter.mp hc
    exact Finset.mem_filter.mpr ⟨hc, hf.trans hbc⟩
  · exact Finset.mem_filter.mpr ⟨Finset.mem_range.mpr hb, hf⟩
  · exact fun hmem => lt_irrefl _ (Finset.mem_filter.mp hmem).2

variable [DecidableEq V]

/-- **A scan from a leaf on.** -/
theorem Chain.searchRange (h : Chain t) (hrep : Represents t m) (ha : a < t.fresh)
    (hl : t.level a = 0) {vec : List (Ptr V)} (hvec : vec.length ≤ cnt) {fuel : ℕ}
    (hfuel : t.rightOf a < fuel) :
    ∃ ks, searchRange t min cnt fuel a vec = some (vec ++ ks.map (fun k => .ofOption (m k)))
      ∧ Smallest (keysFrom t m min a) (cnt - vec.length) ks := by
  induction fuel generalizing a vec with
  | zero => exact absurd hfuel (Nat.not_lt_zero _)
  | succ fuel ih =>
    have hok := h.page a ha
    obtain ⟨stop, hret, hstop, hgo⟩ := hok.holds.returns_rangePage hok.forward true min hvec 0
    have hsorted := h.sorted_keysAbove min ha
    have hlen : (above min (t.pages a).entries).length = (keysAbove min (t.pages a)).length :=
      (List.length_map _).symm
    rw [List.map_take, h.map_ptr_above hrep ha hl, ← List.map_take] at hret
    rw [hlen] at hstop hgo
    unfold FastFair.searchRange
    rw [hret.atomically]
    simp only [Option.bind_eq_bind, Option.bind_some]
    -- the keys further right are greater than those of the leaf
    have hlt : ∀ k ∈ keysAbove min (t.pages a),
        ∀ k' ∈ {k' | ∃ b, (t.pages a).siblingPtr = .page b ∧ k' ∈ keysFrom t m min b}, k < k' := by
      rintro k hk k' ⟨b, hb, -, hbk, -⟩
      exact (((h.mem_keysAbove hrep ha hl).mp hk).2.1.lt_sibling b hb).trans_le hbk
    have hmem : ∀ k, k ∈ keysFrom t m min a ↔ k ∈ keysAbove min (t.pages a)
        ∨ ∃ b, (t.pages a).siblingPtr = .page b ∧ k ∈ keysFrom t m min b :=
      fun k => h.mem_keysFrom hrep ha hl
    cases stop with
    | true =>
      refine ⟨_, if_pos rfl, Smallest.take hsorted hmem hlt ?_⟩
      have := hstop rfl
      omega
    | false =>
      have hall := hgo rfl
      rw [List.take_of_length_le (by omega), if_neg Bool.false_ne_true]
      have hn : (keysAbove min (t.pages a)).length
          + (cnt - (vec.length + (keysAbove min (t.pages a)).length)) = cnt - vec.length := by omega
      rcases hok.sibling with hnull | ⟨b, hb, hp, hbl, -⟩
      · rw [hnull]
        refine ⟨keysAbove min (t.pages a) ++ [], by rw [List.append_nil],
          Smallest.append hsorted hmem hlt (Smallest.nil ?_ _) hn⟩
        rintro k ⟨b, hb, -⟩
        exact nomatch hnull.symm.trans hb
      · rw [hp]
        have hvec' : (vec ++ (keysAbove min (t.pages a)).map (fun k => Ptr.ofOption (m k))).length
            = vec.length + (keysAbove min (t.pages a)).length := by
          rw [List.length_append, List.length_map]
        obtain ⟨ks, hks, hsmall⟩ := ih hb (hbl.trans hl) (hvec'.trans_le hall)
          ((h.rightOf_lt ha hp).trans_le (Nat.le_of_lt_succ hfuel))
        refine ⟨keysAbove min (t.pages a) ++ ks, ?_, ?_⟩
        · rw [List.map_append, ← List.append_assoc]
          exact hks
        · rw [hvec'] at hsmall
          refine Smallest.append hsorted (fun k => ?_) ?_ hsmall hn
          · rw [hmem]
            refine or_congr_right ⟨?_, fun hk => ⟨b, hp, hk⟩⟩
            rintro ⟨c, hc, hk⟩
            rwa [Ptr.page.inj (hp.symm.trans hc)]
          · exact fun k hk k' hk' => hlt k hk k' ⟨b, hp, hk'⟩

/-- **`btree_search_range` returns the values of the smallest keys** greater than the
start key, in the order of their keys. -/
theorem Inv.scan (h : Inv t) (hrep : Represents t m) (min cnt : ℕ) {fuel : ℕ}
    (hfuel : t.steps min + t.fresh ≤ fuel) :
    ∃ ks, btreeSearchRange t min cnt fuel = some (ks.map (fun k => .ofOption (m k)))
      ∧ Smallest {k | min < k ∧ m k ≠ none} cnt ks := by
  obtain ⟨-, -, -, -, hway⟩ := h.exists_way min (Nat.zero_le _)
  obtain ⟨a, ha, hdesc, hal, hak⟩ := hway fuel (by omega)
  rw [← h.descend_eq h.root_lt (h.root_fence ▸ Nat.zero_le min)] at hdesc
  have hright : t.rightOf a < fuel := by
    have hcard : t.rightOf a ≤ t.fresh :=
      (Finset.card_filter_le _ _).trans_eq (Finset.card_range t.fresh)
    have := t.lt_steps min
    omega
  have hnil : ([] : List (Ptr V)).length ≤ cnt := Nat.zero_le cnt
  obtain ⟨ks, hks, hsmall⟩ := h.searchRange hrep ha hal hnil hright
  refine ⟨ks, ?_, ?_⟩
  · unfold btreeSearchRange
    rw [hdesc]
    exact hks
  · -- the leaf is not right of the start key
    have hset : keysFrom t m min a = {k | min < k ∧ m k ≠ none} := by
      ext k
      exact ⟨fun hk => ⟨hk.1, hk.2.2⟩, fun hk => ⟨hk.1, hak.trans hk.1.le, hk.2⟩⟩
    rwa [hset] at hsmall

end Tree

/-- **A scan after any run of calls** returns the values of the smallest keys greater
than the start key. -/
theorem scan_refines_map {calls : List (Call V)} (howned : Owned calls (fun _ => none)) :
    ∃ t N, (∀ fuel ≥ N, (runCalls fuel calls Btree.new).map Prod.fst = some t)
      ∧ ∀ min cnt fuel, t.steps min + t.fresh ≤ fuel → ∃ ks,
        btreeSearchRange t min cnt fuel
            = some (ks.map (fun k => .ofOption ((mapCalls calls (fun _ => none)).1 k)))
          ∧ Smallest {k | min < k ∧ (mapCalls calls (fun _ => none)).1 k ≠ none} cnt ks := by
  obtain ⟨t, N, hinv, -, hrep, hfuel⟩ := inv_new.runCalls not_lost_new represents_new howned
  refine ⟨t, N, fun fuel hN => ?_, fun min cnt fuel hk => hinv.scan hrep min cnt hk⟩
  rw [hfuel fuel hN]
  rfl

/-- From key 3 on, forty keys: the start key is not among them, the value of key 5 is the
one of the last put, and the walk goes over several leaves. -/
theorem scan_refines_map_manyCalls :
    Owned manyCalls (fun _ => none)
    ∧ ∃ t N, (∀ fuel ≥ N, (runCalls fuel manyCalls Btree.new).map Prod.fst = some t)
      ∧ ∀ fuel, t.steps 3 + t.fresh ≤ fuel →
        btreeSearchRange t 3 40 fuel
          = some (.value 68 :: .value 133 :: (List.range' 70 38).map Ptr.value) := by
  obtain ⟨t, N, hrun, hscan⟩ := scan_refines_map owned_manyCalls
  refine ⟨owned_manyCalls, t, N, hrun, fun fuel hfuel => ?_⟩
  obtain ⟨ks, hks, hsmall⟩ := hscan 3 40 fuel hfuel
  have hfirst : Smallest {k | 3 < k ∧ (mapCalls manyCalls (fun _ => none)).1 k ≠ none} 40
      (List.range' 4 40) := by
    refine ⟨by decide, fun k hk => ?_, le_rfl, fun k hk hnot => ⟨rfl, fun k' hk' => ?_⟩⟩
    · have hall : ∀ k ∈ List.range' 4 40, 3 < k
          ∧ (mapCalls manyCalls (fun _ => none)).1 k ≠ none := by decide +kernel
      exact hall k hk
    · rw [List.mem_range'_1] at hnot hk'
      have hgt : 3 < k := hk.1
      omega
  rw [hks, hsmall.unique hfirst]
  decide +kernel

end FastFair
