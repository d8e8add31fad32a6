import PKBench.FastFairPage

/-!
# Reading a leaf while it is written

A writer of a leaf holds its lock; readers do not. What a reader finds therefore
depends on how its loads fall between the writer's stores, and a crash leaves
whatever prefix of the stores has been made. Both questions are about the pages
in between, and there are only two kinds of them: a page that holds a list
(`Leaf`), and one with a gap, a slot with the pointer of the slot to its left
(`Gap`).

The first result is that of the writers: at every moment an uninterrupted search
finds what it would find after a whole number of `Put`s (`history_atomic`). The
second is that of the readers: for a key that is in the leaf when the search
begins, the search ends in its first round with a pointer an uninterrupted search
would find at some moment in between (`search_linearizable`). It holds for every
sequence of insertions and updates and any way the loads fall between the stores,
provided no pointer is put for two keys and the pointer of a slot is loaded before
the one to its left. In the other order, which the language allows as well, it
does not hold (`search_prevFirst_wrong`).
-/

open Loads

namespace FastFair

variable {V : Type}

/-! ## The writers -/

/-- What `page::store` does to a leaf with room, under its lock: an entry of the
key gets the new pointer, and otherwise a new entry is inserted. -/
def putStores (p : Page V) (key : ℕ) (v : V) : Option (List (Store V)) := do
  let c ← atomically (count 1) p
  match findKey key p c.toNat 0 with
  | some i => some [.ptr i (.value v)]
  | none =>
    if c.toNat < cardinality - 1 then some (insertStores p key (.value v) c.toNat) else none

/-- The stores of one `Put` after the other, as long as the leaf is not split. -/
def historyStores : Page V → List (ℕ × V) → Option (List (Store V))
  | _, [] => some []
  | p, op :: ops => do
    let s ← putStores p op.1 op.2
    let rest ← historyStores (p.storeAll s) ops
    pure (s ++ rest)

/-- The page after so many stores. -/
def pageAt (p : Page V) (stores : List (Store V)) (t : ℕ) : Page V := p.storeAll (stores.take t)

/-- The entries after a `Put`. -/
def putEntry (l : List (Entry V)) (op : ℕ × V) : List (Entry V) :=
  if ∃ e ∈ l, e.key = op.1 then
    l.map (fun e => if e.key = op.1 then ⟨op.1, .value op.2⟩ else e)
  else insertEntry l ⟨op.1, .value op.2⟩

/-! ## Leaves -/

variable (own : V → ℕ)

/-- **A leaf** whose values belong to the keys they are found under. -/
structure Leaf (p : Page V) (l : List (Entry V)) : Prop where
  holds : Holds p l
  leftmost : p.leftmostPtr = .null
  forward : isForward p.switchCounter = true
  owned : ∀ e ∈ l, ∃ v, e.ptr = .value v ∧ own v = e.key

variable {own}

namespace Leaf

variable {p : Page V} {l : List (Entry V)}

theorem turnForward_eq (h : Leaf own p l) : turnForward p = [] := by
  unfold turnForward
  rw [if_pos h.forward]

/-- The two ways of a `Put` on a leaf. -/
theorem putStores_eq_some (h : Leaf own p l) {key : ℕ} {v : V} {stores : List (Store V)}
    (hput : putStores p key v = some stores) :
    (∃ s < l.length, (p.records s).key = key ∧ stores = [.ptr s (.value v)])
      ∨ ((∀ e ∈ l, e.key ≠ key) ∧ l.length < cardinality - 1
        ∧ stores = insertStores p key (.value v) l.length) := by
  have hcount : atomically (count 1) p = some (l.length : ℤ) :=
    (h.holds.returns_count 0).atomically
  unfold putStores at hput
  rw [hcount] at hput
  by_cases hmem : ∃ e ∈ l, e.key = key
  · obtain ⟨e, he, hk⟩ := hmem
    obtain ⟨s, hs, rfl⟩ := List.getElem_of_mem he
    rw [← h.holds.records s hs] at hk
    have hfind := h.holds.findKey hs hk (Nat.zero_le s) (m := l.length) (by omega)
    refine Or.inl ⟨s, hs, hk, ?_⟩
    simp only [Option.bind_eq_bind, Option.bind_some, Int.toNat_natCast, hfind] at hput
    exact (Option.some.inj hput).symm
  · have hne : ∀ e ∈ l, e.key ≠ key := fun e he hk => hmem ⟨e, he, hk⟩
    have hfind := h.holds.findKey_eq_none hne (m := l.length) (i := 0) (by omega)
    simp only [Option.bind_eq_bind, Option.bind_some, Int.toNat_natCast, hfind] at hput
    split at hput
    · exact Or.inr ⟨hne, ‹_›, (Option.some.inj hput).symm⟩
    · cases hput

end Leaf

/-! ## The slot of a key -/

variable (own) in
/-- **The slot where a reader finds a key**: its pointer is a value of the key and
the one to its left is not, no slot before it ends the page, and a slot before it
with the same key is one that is being overwritten. -/
structure Live (q : Page V) (key s : ℕ) : Prop where
  key_eq : (q.records s).key = key
  ptr : ∃ v, (q.records s).ptr = .value v ∧ own v = key
  prev : ∀ v, q.prevPtr s = .value v → own v ≠ key
  opens : ∀ j, 0 < j → j < s → (q.records j).ptr ≠ .null
  stale : ∀ j < s, (q.records j).key = key → (q.records j).ptr = q.prevPtr j
  lt : s < cardinality

namespace Live

variable {q q' : Page V} {key s s' : ℕ}

theorem ptr_ne_null (h : Live own q key s) : (q.records s).ptr ≠ .null := by
  obtain ⟨v, hv, -⟩ := h.ptr
  rw [hv]
  exact fun heq => nomatch heq

theorem prevPtr_ne (h : Live own q key s) : q.prevPtr s ≠ (q.records s).ptr := by
  obtain ⟨v, hv, hown⟩ := h.ptr
  rw [hv]
  exact fun heq => h.prev v heq hown

theorem le_of_live (h : Live own q key s) (h' : Live own q key s') : s' ≤ s := by
  by_contra hlt
  exact h.prevPtr_ne (h'.stale s (not_le.mp hlt) h.key_eq).symm

/-- There is one such slot. -/
theorem unique (h : Live own q key s) (h' : Live own q key s') : s = s' :=
  le_antisymm (h'.le_of_live h) (h.le_of_live h')

theorem prevPtr_congr (hrec : q.records = q'.records) (hleft : q.leftmostPtr = q'.leftmostPtr)
    (i : ℕ) : q.prevPtr i = q'.prevPtr i := by
  cases i with
  | zero => exact hleft
  | succ i => exact congrArg (fun f => (f i).ptr) hrec

/-- It depends on the slots and `leftmost_ptr`. -/
theorem congr (h : Live own q key s) (hrec : q.records = q'.records)
    (hleft : q.leftmostPtr = q'.leftmostPtr) : Live own q' key s where
  key_eq := hrec ▸ h.key_eq
  ptr := hrec ▸ h.ptr
  prev v hv := h.prev v ((prevPtr_congr hrec hleft s).trans hv)
  opens j := hrec ▸ h.opens j
  stale j hj hk := by
    rw [← prevPtr_congr hrec hleft j, ← hrec]
    exact h.stale j hj (hrec ▸ hk)
  lt := h.lt

variable [DecidableEq V]

/-- An uninterrupted search that has come no further than the slot finds it. -/
theorem returns_leafForward (h : Live own q key s) (curFirst : Bool) {fuel i : ℕ} (hpos : 0 < i)
    (his : i ≤ s) (hfuel : s < i + fuel) :
    Returns (leafForward curFirst key fuel i) q (q.records s).ptr := by
  induction fuel generalizing i with
  | zero => omega
  | succ fuel ih =>
    have hnull : (q.records i).ptr ≠ .null := by
      rcases his.lt_or_eq with hlt | rfl
      · exact h.opens i hpos hlt
      · exact h.ptr_ne_null
    refine Returns.look_bind ?_
    rw [if_neg hnull]
    refine Returns.look_bind ?_
    by_cases hk : (q.records i).key = key
    · rw [if_neg (not_not.mpr hk)]
      refine Returns.bind (returns_lookBoth curFirst q i) ?_
      show Returns (if q.prevPtr i = (q.records i).ptr then _ else _) q _
      rcases his.lt_or_eq with hlt | rfl
      · rw [if_pos (h.stale i hlt hk).symm]
        exact ih (by omega) (by omega) (by omega)
      · rw [if_neg h.prevPtr_ne]
        refine Returns.look_bind ?_
        rw [if_neg (not_not.mpr hk)]
        exact Returns.pure _ _
    · have hne : i ≠ s := fun heq => hk (heq ▸ h.key_eq)
      rw [if_pos hk]
      exact ih (by omega) (by omega) (by omega)

/-- **An uninterrupted search finds the slot.** -/
theorem returns_leafSearch (h : Live own q key s) (hleft : q.leftmostPtr = .null)
    (hfwd : isForward q.switchCounter = true) (curFirst : Bool) (fence : ℕ → ℕ) (tries : ℕ) :
    Returns (leafSearch curFirst fence key (tries + 1)) q (q.records s).ptr := by
  have hround : Returns (leafRound curFirst key (tries + 1) true) q (q.records s).ptr := by
    refine Returns.bind (returns_leafZero q key) ?_
    by_cases hzero : s = 0
    · subst hzero
      rw [if_pos h.key_eq, if_pos h.ptr_ne_null]
      exact Returns.pure _ _
    · have hnull : (if (q.records 0).key = key then (q.records 0).ptr else .null) = .null := by
        split
        · exact (h.stale 0 (Nat.pos_of_ne_zero hzero) ‹_›).trans hleft
        · rfl
      rw [hnull, if_neg (not_not.mpr rfl)]
      have hlt := h.lt
      exact h.returns_leafForward curFirst one_pos (by omega) (by omega)
  refine Returns.look_bind ?_
  rw [hfwd]
  refine Returns.bind hround (Returns.look_bind ?_)
  rw [if_neg (not_not.mpr rfl), if_pos h.ptr_ne_null]
  exact Returns.pure _ _

end Live

/-! ## A reader -/

variable (own) in
/-- **What a store may do to the slot of a key**: it moves to the right or stays, and
the slots before it lose the key with the next store. -/
def Moves (key : ℕ) (q q' : Page V) : Prop :=
  ∃ s s', Live own q key s ∧ Live own q' key s' ∧ s ≤ s' ∧ ∀ j < s, (q'.records j).key ≠ key

section Reader

variable {mem : ℕ → Page V} {key : ℕ}

/-- The slot of the key over time. -/
theorem exists_slot (hmoves : ∀ t, Moves own key (mem t) (mem (t + 1))) :
    ∃ s : ℕ → ℕ, (∀ t, Live own (mem t) key (s t)) ∧ Monotone s
      ∧ ∀ t t' j, t < t' → j < s t → ((mem t').records j).key ≠ key := by
  choose s s' hlive hlive' hle hgone using hmoves
  have hnext : ∀ t, s' t = s (t + 1) := fun t => (hlive' t).unique (hlive (t + 1))
  have hmono : Monotone s := monotone_nat_of_le_succ (fun t => hnext t ▸ hle t)
  refine ⟨s, hlive, hmono, fun t t' j htt' hj => ?_⟩
  obtain ⟨u, rfl⟩ := Nat.exists_eq_succ_of_ne_zero (Nat.ne_zero_of_lt htt')
  exact hgone u j (hj.trans_le (hmono (Nat.lt_succ_iff.mp htt')))

variable [DecidableEq V] {s clock : ℕ → ℕ}

/-- From left to right and the pointer of a slot first, a reader that has not passed
the slot of the key finds it, with the pointer it has at that moment. -/
theorem leafForward_linearizable (hlive : ∀ t, Live own (mem t) key (s t)) (hmono : Monotone s)
    (hgone : ∀ t t' j, t < t' → j < s t → ((mem t').records j).key ≠ key)
    (hclock : Monotone clock) {fuel i n : ℕ} (hpos : 0 < i) (his : i ≤ s (clock n))
    (hfuel : cardinality ≤ i + fuel) :
    ∃ t n', leafForward true key fuel i (fun n => mem (clock n)) n = some (t, n') ∧ n ≤ n'
      ∧ ∃ τ, clock n ≤ τ ∧ τ ≤ clock n' ∧ t = ((mem τ).records (s τ)).ptr := by
  induction fuel generalizing i n with
  | zero =>
    have hlt := (hlive (clock n)).lt
    omega
  | succ fuel ih =>
    have hstay : ∀ d, i ≤ s (clock (n + d)) :=
      fun d => his.trans (hmono (hclock (Nat.le_add_right n d)))
    -- the reader goes on to the next slot, which is not behind that of the key
    have hskip : ∀ d, i ≠ s (clock (n + d)) → ∃ t n',
        leafForward true key fuel (i + 1) (fun n => mem (clock n)) (n + d + 1) = some (t, n')
          ∧ n ≤ n' ∧ ∃ τ, clock n ≤ τ ∧ τ ≤ clock n' ∧ t = ((mem τ).records (s τ)).ptr := by
      intro d hne
      have hlt : i < s (clock (n + d)) := lt_of_le_of_ne (hstay d) hne
      have hle : i + 1 ≤ s (clock (n + d + 1)) :=
        Nat.succ_le_of_lt (hlt.trans_le (hmono (hclock (Nat.le_succ _))))
      obtain ⟨t, n', hrun, hn, τ, hτ, hτ', ht⟩ := ih (Nat.succ_pos i) hle (by omega)
      exact ⟨t, n', hrun, by omega, τ, (hclock (by omega)).trans hτ, hτ', ht⟩
    have hnull : ((mem (clock n)).records i).ptr ≠ .null := by
      rcases his.lt_or_eq with hlt | rfl
      · exact (hlive (clock n)).opens i hpos hlt
      · exact (hlive (clock n)).ptr_ne_null
    unfold leafForward
    simp only [bind_apply, look_apply, Option.bind_some, if_neg hnull]
    by_cases hk : ((mem (clock (n + 1))).records i).key = key
    · rw [if_neg (not_not.mpr hk)]
      simp only [lookBoth, ↓reduceIte, bind_apply, look_apply, Option.bind_some, pure_apply]
      by_cases heq : (mem (clock (n + 1 + 1 + 1))).prevPtr i
          = ((mem (clock (n + 1 + 1))).records i).ptr
      · rw [if_pos heq]
        refine hskip 3 (fun his' => ?_)
        have h2 : i = s (clock (n + 1 + 1)) :=
          le_antisymm (hstay 2) (his' ▸ hmono (hclock (by omega)))
        obtain ⟨v, hv, hown⟩ := (h2 ▸ hlive (clock (n + 1 + 1))).ptr
        exact (his' ▸ hlive (clock (n + 3))).prev v (heq.trans hv) hown
      · rw [if_neg heq]
        simp only [bind_apply, look_apply, Option.bind_some]
        by_cases hk' : ((mem (clock (n + 1 + 1 + 1 + 1))).records i).key = key
        · rw [if_neg (not_not.mpr hk')]
          refine ⟨_, _, rfl, by omega, clock (n + 1 + 1), hclock (by omega), hclock (by omega), ?_⟩
          -- the slot has not moved yet, or the two pointers would be equal
          have hsame : i = s (clock (n + 1 + 1)) := by
            by_contra hne
            have hlt : i < s (clock (n + 1 + 1)) := lt_of_le_of_ne (hstay 2) hne
            have h24 : clock (n + 1 + 1) = clock (n + 1 + 1 + 1 + 1) :=
              le_antisymm (hclock (by omega))
                (not_lt.mp (fun h => hgone _ _ i h hlt hk'))
            have h23 : clock (n + 1 + 1 + 1) = clock (n + 1 + 1) :=
              le_antisymm (h24 ▸ hclock (by omega)) (hclock (by omega))
            rw [← h24] at hk'
            rw [h23] at heq
            exact heq ((hlive _).stale i hlt hk').symm
          rw [← hsame]
        · rw [if_pos hk']
          exact hskip 4 (fun his' => hk' (his' ▸ (hlive _).key_eq))
    · rw [if_pos hk]
      exact hskip 1 (fun his' => hk (his' ▸ (hlive _).key_eq))

/-- The first slot answers with the pointer it has at that moment, or the slot of
the key is further right. -/
theorem leafZero_linearizable (hlive : ∀ t, Live own (mem t) key (s t)) (hmono : Monotone s)
    (hgone : ∀ t t' j, t < t' → j < s t → ((mem t').records j).key ≠ key)
    (hclock : Monotone clock) (hleft : ∀ t, (mem t).leftmostPtr = .null) (n : ℕ) :
    ∃ t n', leafZero key (fun n => mem (clock n)) n = some (t, n') ∧ n ≤ n'
      ∧ (t = .null ∧ 0 < s (clock n')
        ∨ ∃ τ, clock n ≤ τ ∧ τ ≤ clock n' ∧ t = ((mem τ).records (s τ)).ptr) := by
  have hmove : ∀ d, 0 ≠ s (clock (n + d)) → 0 < s (clock (n + d + 1)) := fun d hne =>
    (Nat.pos_of_ne_zero hne.symm).trans_le (hmono (hclock (Nat.le_succ _)))
  unfold leafZero
  simp only [bind_apply, look_apply, Option.bind_some]
  by_cases hk : ((mem (clock n)).records 0).key = key
  · rw [if_neg (not_not.mpr hk)]
    simp only [bind_apply, look_apply, Option.bind_some]
    by_cases hnull : ((mem (clock (n + 1))).records 0).ptr = .null
    · rw [if_pos hnull]
      refine ⟨.null, _, rfl, by omega, Or.inl ⟨rfl, hmove 1 (fun h0 => ?_)⟩⟩
      exact (h0 ▸ hlive (clock (n + 1))).ptr_ne_null hnull
    · rw [if_neg hnull]
      simp only [bind_apply, look_apply, Option.bind_some]
      by_cases hk' : ((mem (clock (n + 1 + 1))).records 0).key = key
      · rw [if_neg (not_not.mpr hk')]
        refine ⟨_, _, rfl, by omega,
          Or.inr ⟨clock (n + 1), hclock (by omega), hclock (by omega), ?_⟩⟩
        have hsame : 0 = s (clock (n + 1)) := by
          by_contra hne
          have hlt : 0 < s (clock (n + 1)) := Nat.pos_of_ne_zero (Ne.symm hne)
          have h12 : clock (n + 1) = clock (n + 1 + 1) :=
            le_antisymm (hclock (by omega)) (not_lt.mp (fun h => hgone _ _ 0 h hlt hk'))
          rw [← h12] at hk'
          exact hnull (((hlive _).stale 0 hlt hk').trans (hleft _))
        rw [← hsame]
      · rw [if_pos hk']
        refine ⟨.null, _, rfl, by omega, Or.inl ⟨rfl, hmove 2 (fun h0 => ?_)⟩⟩
        exact hk' (h0 ▸ hlive (clock (n + 2))).key_eq
  · rw [if_pos hk]
    refine ⟨.null, _, rfl, by omega, Or.inl ⟨rfl, hmove 0 (fun h0 => ?_)⟩⟩
    exact hk (h0 ▸ hlive (clock n)).key_eq

/-- **A reader of a leaf** that only stores of such a kind change finds the key in
its first round. -/
theorem leafSearch_linearizable (hmoves : ∀ t, Moves own key (mem t) (mem (t + 1)))
    (hleft : ∀ t, (mem t).leftmostPtr = .null)
    (hfwd : ∀ t, isForward (mem t).switchCounter = true)
    (hcounter : ∀ t t', (mem t).switchCounter = (mem t').switchCounter)
    (hclock : Monotone clock) (fence : ℕ → ℕ) (tries n : ℕ) :
    ∃ t n', leafSearch true fence key (tries + 1) (fun n => mem (clock n)) n = some (t, n')
      ∧ t ≠ .null ∧ ∃ τ, clock n ≤ τ ∧ τ ≤ clock n'
        ∧ Returns (leafSearch true fence key 1) (mem τ) t := by
  obtain ⟨s, hlive, hmono, hgone⟩ := exists_slot hmoves
  have hround : ∃ t n', leafRound true key (tries + 1) true (fun n => mem (clock n)) (n + 1)
      = some (t, n') ∧ n + 1 ≤ n'
        ∧ ∃ τ, clock (n + 1) ≤ τ ∧ τ ≤ clock n' ∧ t = ((mem τ).records (s τ)).ptr := by
    unfold leafRound
    rw [if_pos rfl, bind_apply]
    obtain ⟨t, n₁, hzero, hn₁, hcase⟩ :=
      leafZero_linearizable hlive hmono hgone hclock hleft (n + 1)
    rw [hzero]
    simp only [Option.bind_some]
    obtain ⟨rfl, hpos⟩ | ⟨τ, hτ, hτ', ht⟩ := hcase
    · rw [if_neg (not_not.mpr rfl)]
      have hcard : cardinality ≤ 1 + cardinality := Nat.le_add_left _ _
      obtain ⟨t, n₂, hrun, hn₂, τ, hτ, hτ', ht⟩ :=
        leafForward_linearizable hlive hmono hgone hclock one_pos hpos hcard
      exact ⟨t, n₂, hrun, hn₁.trans hn₂, τ, (hclock hn₁).trans hτ, hτ', ht⟩
    · have hne : t ≠ .null := ht ▸ (hlive τ).ptr_ne_null
      rw [if_pos hne]
      exact ⟨t, n₁, rfl, hn₁, τ, hτ, hτ', ht⟩
  obtain ⟨t, n', hrun, hn', τ, hτ, hτ', ht⟩ := hround
  have hne : t ≠ .null := ht ▸ (hlive τ).ptr_ne_null
  refine ⟨t, n' + 1, ?_, hne, τ, (hclock (Nat.le_succ n)).trans hτ,
    hτ'.trans (hclock (Nat.le_succ n')), ?_⟩
  · unfold leafSearch
    simp only [bind_apply, look_apply, Option.bind_some, hfwd, hrun]
    rw [if_neg (not_not.mpr (hcounter _ _)), if_pos hne]
    rfl
  · rw [ht]
    exact (hlive τ).returns_leafSearch (hleft τ) (hfwd τ) true fence 0

end Reader

/-! ## The pages in between -/

theorem key_inj {l : List (Entry V)} (hl : l.Pairwise (fun a b => a.key < b.key)) {i j : ℕ}
    (hi : i < l.length) (hj : j < l.length) (h : l[i].key = l[j].key) : i = j := by
  rcases lt_trichotomy i j with hlt | heq | hlt
  · exact absurd h (List.pairwise_iff_getElem.mp hl i j hi hj hlt).ne
  · exact heq
  · exact absurd h (List.pairwise_iff_getElem.mp hl j i hj hi hlt).ne'

variable (own) in
/-- **A page with a gap**: slot `c` has the pointer of the slot to its left and some key
`g`, and the entries from there on are one slot further right. -/
structure Gap (q : Page V) (l : List (Entry V)) (c g : ℕ) : Prop where
  left : ∀ (j : ℕ) (h : j < l.length), j < c → q.records j = l[j]
  gap : q.records c = ⟨g, q.prevPtr c⟩
  right : ∀ (j : ℕ) (h : j < l.length), c ≤ j → q.records (j + 1) = l[j]
  ends : (q.records (l.length + 1)).ptr = .null
  le : c ≤ l.length
  leftmost : q.leftmostPtr = .null
  sorted : l.Pairwise (fun a b => a.key < b.key)
  owned : ∀ e ∈ l, ∃ v, e.ptr = .value v ∧ own v = e.key
  length_lt : l.length + 1 < cardinality

/-- Where an entry is in a page with a gap. -/
def gapSlot (c m : ℕ) : ℕ := if m < c then m else m + 1

namespace Gap

variable {q : Page V} {l : List (Entry V)} {c g : ℕ}

theorem records_gapSlot (h : Gap own q l c g) {m : ℕ} (hm : m < l.length) :
    q.records (gapSlot c m) = l[m] := by
  unfold gapSlot
  split
  · exact h.left m hm ‹_›
  · exact h.right m hm (not_lt.mp ‹_›)

/-- The pointer to the left of an entry is that of the entry before. -/
theorem prevPtr_gapSlot (h : Gap own q l c g) {m : ℕ} (hm : m + 1 < l.length) :
    q.prevPtr (gapSlot c (m + 1)) = l[m].ptr := by
  unfold gapSlot
  split
  · show (q.records m).ptr = _
    rw [h.left m (by omega) (by omega)]
  · show (q.records (m + 1)).ptr = _
    rcases Nat.lt_or_ge m c with hlt | hge
    · -- the entry stands behind the gap
      obtain rfl : c = m + 1 := by omega
      rw [h.gap]
      show (q.records m).ptr = _
      rw [h.left m (by omega) hlt]
    · rw [h.right m (by omega) hge]

theorem prevPtr_gapSlot_zero (h : Gap own q l c g) : q.prevPtr (gapSlot c 0) = .null := by
  unfold gapSlot
  split
  · exact h.leftmost
  · obtain rfl : c = 0 := by omega
    show (q.records 0).ptr = _
    rw [h.gap]
    exact h.leftmost

/-- The keys before an entry: those of other entries and that of the gap. -/
theorem key_of_lt (h : Gap own q l c g) {m j : ℕ} (hm : m < l.length) (hj : j < gapSlot c m)
    (hk : (q.records j).key = l[m].key) : j = c ∧ g = l[m].key := by
  unfold gapSlot at hj
  rcases lt_trichotomy j c with hlt | rfl | hgt
  · have hjm : j < m := by split at hj <;> omega
    rw [h.left j (by omega) hlt] at hk
    exact absurd (key_inj h.sorted (by omega) hm hk) hjm.ne
  · rw [h.gap] at hk
    exact ⟨rfl, hk⟩
  · have hjm : j - 1 < m := by split at hj <;> omega
    have hrec := h.right (j - 1) (by omega) (by omega)
    rw [Nat.sub_add_cancel (by omega)] at hrec
    rw [hrec] at hk
    exact absurd (key_inj h.sorted (by omega) hm hk) hjm.ne

/-- Only the first slot of the page may have a null pointer. -/
theorem ptr_ne_null (h : Gap own q l c g) {j : ℕ} (hpos : 0 < j) (hj : j ≤ l.length) :
    (q.records j).ptr ≠ .null := by
  have hle := h.le
  have hentry : ∀ (i : ℕ) (hi : i < l.length), l[i].ptr ≠ .null := by
    intro i hi heq
    obtain ⟨v, hv, -⟩ := h.owned _ (List.getElem_mem hi)
    exact nomatch heq.symm.trans hv
  rcases lt_trichotomy j c with hlt | rfl | hgt
  · rw [h.left j (by omega) hlt]
    exact hentry j (by omega)
  · obtain ⟨i, rfl⟩ := Nat.exists_eq_succ_of_ne_zero hpos.ne'
    rw [h.gap]
    show (q.records i).ptr ≠ _
    rw [h.left i (by omega) (Nat.lt_succ_self i)]
    exact hentry i (by omega)
  · have hrec := h.right (j - 1) (by omega) (by omega)
    rw [Nat.sub_add_cancel (by omega)] at hrec
    rw [hrec]
    exact hentry (j - 1) (by omega)

/-- **Every entry is found where it is.** -/
theorem live (h : Gap own q l c g) {m : ℕ} (hm : m < l.length) :
    Live own q l[m].key (gapSlot c m) where
  key_eq := by rw [h.records_gapSlot hm]
  ptr := by
    rw [h.records_gapSlot hm]
    exact h.owned _ (List.getElem_mem hm)
  prev v hv := by
    cases m with
    | zero => exact nomatch h.prevPtr_gapSlot_zero.symm.trans hv
    | succ m =>
      obtain ⟨w, hw, hown⟩ := h.owned _ (List.getElem_mem (Nat.lt_of_succ_lt hm))
      rw [h.prevPtr_gapSlot hm, hw] at hv
      obtain rfl := Ptr.value.inj hv
      rw [hown]
      exact fun heq => absurd (key_inj h.sorted (Nat.lt_of_succ_lt hm) hm heq) (by omega)
  opens j hpos hj := h.ptr_ne_null hpos (by unfold gapSlot at hj; split at hj <;> omega)
  stale j hj hk := by
    obtain ⟨rfl, -⟩ := h.key_of_lt hm hj hk
    rw [h.gap]
  lt := by
    have := h.length_lt
    unfold gapSlot
    split <;> omega

end Gap

namespace Leaf

variable {p : Page V} {l : List (Entry V)}

theorem key_ne_of_lt (h : Leaf own p l) {m j : ℕ} (hm : m < l.length) (hj : j < m) :
    (p.records j).key ≠ l[m].key := by
  rw [h.holds.records j (by omega)]
  exact fun heq => hj.ne (key_inj h.holds.sorted (by omega) hm heq)

/-- Every entry of a leaf is found where it is. -/
theorem live (h : Leaf own p l) {m : ℕ} (hm : m < l.length) : Live own p l[m].key m where
  key_eq := by rw [h.holds.records m hm]
  ptr := by
    rw [h.holds.records m hm]
    exact h.owned _ (List.getElem_mem hm)
  prev v hv := by
    cases m with
    | zero => exact nomatch h.leftmost.symm.trans hv
    | succ m =>
      have hm' := Nat.lt_of_succ_lt hm
      obtain ⟨w, hw, hown⟩ := h.owned _ (List.getElem_mem hm')
      have hprev : p.prevPtr (m + 1) = .value w := by
        rw [← hw, ← h.holds.records m hm']
        rfl
      obtain rfl := Ptr.value.inj (hprev.symm.trans hv)
      rw [hown]
      exact fun heq => absurd (key_inj h.holds.sorted hm' hm heq) (by omega)
  opens j _ hj := h.holds.ptr_ne (hj.trans hm)
  stale j hj hk := absurd hk (h.key_ne_of_lt hm hj)
  lt := hm.trans h.holds.length_lt

/-- A leaf that stays as it is. -/
theorem moves_self (h : Leaf own p l) {m : ℕ} (hm : m < l.length) : Moves own l[m].key p p :=
  ⟨m, m, h.live hm, h.live hm, le_rfl, fun _ hj => h.key_ne_of_lt hm hj⟩

/-! ## The stages of an insertion into a leaf -/

variable {n r : ℕ}

theorem prevPtr_of_records {p q : Page V} (hleft : q.leftmostPtr = p.leftmostPtr)
    (hrec : ∀ j < r, q.records j = p.records j) : q.prevPtr r = p.prevPtr r := by
  cases r with
  | zero => exact hleft
  | succ r => exact congrArg Entry.ptr (hrec r (Nat.lt_succ_self r))

/-- Slots behind the hole. -/
theorem shifted_records_of_gt (p : Page V) {j : ℕ} (hj : r < j) (hn : j ≤ n) :
    (p.shifted n r).records j = p.records (j - 1) := by
  show (if j ≤ r then _ else _) = _
  rw [if_neg (by omega), if_pos hn]

theorem shifted_records_end (p : Page V) (hr : r ≤ n) :
    ((p.shifted n r).records (n + 1)).ptr = (p.records n).ptr := by
  show (if n + 1 ≤ r then _ else _ : Entry V).ptr = _
  rw [if_neg (by omega), if_neg (by omega), if_pos rfl]

theorem hole_records_self (p : Page V) :
    (p.hole n r).records r = ⟨(p.records r).key, p.prevPtr r⟩ := by
  show Function.update _ _ _ r = _
  rw [Function.update_self, shifted_records_of_le p le_rfl]

theorem hole_records_of_gt (p : Page V) {j : ℕ} (hj : r < j) :
    (p.hole n r).records j = (p.shifted n r).records j :=
  Function.update_of_ne (by omega) _ _

theorem named_records_of_ne (p : Page V) {key j : ℕ} (hj : j ≠ r) :
    (p.named n key r).records j = (p.hole n r).records j :=
  Function.update_of_ne hj _ _

theorem named_records_self (p : Page V) {key : ℕ} :
    (p.named n key r).records r = ⟨key, p.prevPtr r⟩ := by
  show Function.update _ _ _ r = _
  rw [Function.update_self, hole_records_self]

/-- A slot before the end has an entry's pointer overwritten. -/
theorem gap_hole (h : Leaf own p l) (hlen : l.length + 1 < cardinality) (hr : r ≤ l.length) :
    Gap own (p.hole l.length r) l r (p.records r).key where
  left j hj hjr := by
    rw [hole_records_of_lt p hjr]
    exact h.holds.records j hj
  gap := by
    have hprev : (p.hole l.length r).prevPtr r = p.prevPtr r :=
      prevPtr_of_records rfl (fun j hj => hole_records_of_lt p hj)
    rw [hole_records_self, hprev]
  right j hj hrj := by
    rw [hole_records_of_gt p (by omega), shifted_records_of_gt p (by omega) (by omega)]
    exact h.holds.records j hj
  ends := by
    rw [hole_records_of_gt p (by omega), shifted_records_end p hr]
    exact h.holds.ends
  le := hr
  leftmost := h.leftmost
  sorted := h.holds.sorted
  owned := h.owned
  length_lt := hlen

/-- The slot has the new key. -/
theorem gap_named (h : Leaf own p l) (hlen : l.length + 1 < cardinality) (hr : r ≤ l.length)
    (key : ℕ) : Gap own (p.named l.length key r) l r key where
  left j hj hjr := by
    rw [named_records_of_ne p (by omega)]
    exact (h.gap_hole hlen hr).left j hj hjr
  gap := by
    have hprev : (p.named l.length key r).prevPtr r = p.prevPtr r :=
      prevPtr_of_records rfl (fun j hj => by
        rw [named_records_of_ne p (by omega), hole_records_of_lt p hj])
    rw [named_records_self, hprev]
  right j hj hrj := by
    rw [named_records_of_ne p (by omega)]
    exact (h.gap_hole hlen hr).right j hj hrj
  ends := by
    rw [named_records_of_ne p (by omega)]
    exact (h.gap_hole hlen hr).ends
  le := hr
  leftmost := h.leftmost
  sorted := h.holds.sorted
  owned := h.owned
  length_lt := hlen

/-- An entry is there twice. -/
theorem gap_shifted (h : Leaf own p l) (hlen : l.length + 1 < cardinality) (hr : r < l.length) :
    Gap own (p.shifted l.length r) l (r + 1) l[r].key where
  left j hj hjr := by
    rw [shifted_records_of_le p (by omega)]
    exact h.holds.records j hj
  gap := by
    rw [shifted_records_of_gt p (by omega) (by omega)]
    show p.records r = ⟨_, ((p.shifted l.length r).records r).ptr⟩
    rw [shifted_records_of_le p le_rfl, h.holds.records r hr]
  right j hj hrj := by
    rw [shifted_records_of_gt p (by omega) (by omega)]
    exact h.holds.records j hj
  ends := by
    rw [shifted_records_end p hr.le]
    exact h.holds.ends
  le := hr
  leftmost := h.leftmost
  sorted := h.holds.sorted
  owned := h.owned
  length_lt := hlen

/-- The end has moved. -/
theorem leaf_shifted (h : Leaf own p l) (hpos : 0 < l.length) :
    Leaf own (p.shifted l.length l.length) l where
  holds :=
    { records := fun i hi => by
        rw [shifted_records_of_le p hi.le]
        exact h.holds.records i hi
      ends := by
        rw [shifted_records_of_le p le_rfl]
        exact h.holds.ends
      empty := fun hnil => absurd hpos (by rw [hnil]; exact lt_irrefl 0)
      lastIndex := h.holds.lastIndex
      sorted := h.holds.sorted
      nodup := h.holds.nodup
      ptr_ne_null := h.holds.ptr_ne_null
      length_lt := h.holds.length_lt }
  leftmost := h.leftmost
  forward := h.forward
  owned := h.owned

/-! ## One insertion -/

variable {key : ℕ} {v : V}

/-- The leaf after an insertion. -/
theorem insertKey (h : Leaf own p l) (hlen : l.length + 1 < cardinality)
    (hkey : ∀ e ∈ l, e.key ≠ key) (hown : own v = key) :
    Leaf own (insertKey p key (.value v) l.length) (insertEntry l ⟨key, .value v⟩) := by
  have hptr : Ptr.value v ∉ p.leftmostPtr :: l.map Entry.ptr := by
    rw [h.leftmost]
    intro hmem
    rcases List.mem_cons.mp hmem with heq | hmem
    · exact nomatch heq
    · obtain ⟨e, he, heq⟩ := List.mem_map.mp hmem
      obtain ⟨w, hw, hown'⟩ := h.owned e he
      obtain rfl := Ptr.value.inj (hw.symm.trans heq)
      exact hkey e he (hown'.symm.trans hown)
  have hframe := frame_insertKey p key (.value v) l.length
  refine ⟨h.holds.insertKey hkey hptr (fun heq => nomatch heq) hlen, ?_, ?_, fun e he => ?_⟩
  · exact (congrArg Prod.fst hframe).trans h.leftmost
  · have hcounter : (FastFair.insertKey p key (.value v) l.length).switchCounter
        = p.switchCounter :=
      switchCounter_storeAll (fun s hs => ne_switchCounter_of_mem_insertStores h.forward hs)
    rw [hcounter]
    exact h.forward
  · rcases mem_insertEntry.mp he with rfl | he
    · exact ⟨v, rfl, hown⟩
    · exact h.owned e he

/-- The slots of the last stage but one are those of the leaf after the insertion. -/
theorem records_inserted (h : Leaf own p l) (key : ℕ) (v : V) :
    (p.inserted l.length key (.value v) (insertSlot key p l.length)).records
      = (FastFair.insertKey p key (.value v) l.length).records := by
  funext j
  rw [records_insertKey p key (.value v) h.holds.ends,
    inserted_records p (insertSlot_spec key p _).1, h.holds.ends]

theorem records_insertKey_gapSlot (h : Leaf own p l) (key : ℕ) (v : V) {m : ℕ}
    (hm : m < l.length) :
    (FastFair.insertKey p key (.value v) l.length).records
      (gapSlot (insertSlot key p l.length) m) = l[m] := by
  rw [records_insertKey p key (.value v) h.holds.ends, ← h.holds.records m hm]
  unfold gapSlot
  by_cases hlt : m < insertSlot key p l.length
  · rw [if_pos hlt, if_pos hlt]
  · rw [if_neg hlt, if_neg (by omega), if_neg (by omega), if_pos (by omega)]
    rfl

/-- The entries of a leaf are found in the slots of the last stage, too. -/
theorem live_inserted (h : Leaf own p l) (hlen : l.length + 1 < cardinality)
    (hkey : ∀ e ∈ l, e.key ≠ key) (hown : own v = key) {m : ℕ} (hm : m < l.length) :
    Live own (FastFair.insertKey p key (.value v) l.length) l[m].key
        (gapSlot (insertSlot key p l.length) m)
      ∧ ∀ j < gapSlot (insertSlot key p l.length) m,
        ((FastFair.insertKey p key (.value v) l.length).records j).key ≠ l[m].key := by
  have hleaf := h.insertKey hlen hkey hown
  have hrec := h.records_insertKey_gapSlot key v hm
  have hlt : gapSlot (insertSlot key p l.length) m
      < (insertEntry l ⟨key, .value v⟩).length := by
    rw [length_insertEntry]
    unfold gapSlot
    split <;> omega
  rw [hleaf.holds.records _ hlt] at hrec
  have hlive := hleaf.live hlt
  have hne := fun j => hleaf.key_ne_of_lt (j := j) hlt
  rw [hrec] at hlive hne
  exact ⟨hlive, hne⟩

/-! ## The steps of an insertion -/

theorem moves_hole (h : Leaf own p l) (hlen : l.length + 1 < cardinality) (hr : r ≤ l.length)
    {m : ℕ} (hm : m < l.length) :
    Moves own l[m].key (p.shifted l.length r) (p.hole l.length r) := by
  have hhole := h.gap_hole hlen hr
  rcases hr.lt_or_eq with hlt | rfl
  · refine ⟨_, _, (h.gap_shifted hlen hlt).live hm, hhole.live hm, ?_, fun j hj hk => ?_⟩
    · unfold gapSlot
      split <;> split <;> omega
    · have hj' : j < gapSlot r m := by
        unfold gapSlot at hj ⊢
        split at hj <;> split <;> omega
      obtain ⟨rfl, hkey⟩ := hhole.key_of_lt hm hj' hk
      rw [h.holds.records j hlt] at hkey
      obtain rfl := key_inj h.holds.sorted hlt hm hkey
      unfold gapSlot at hj
      rw [if_pos (Nat.lt_succ_self j)] at hj
      exact lt_irrefl j hj
  · have hslot : gapSlot l.length m = m := if_pos hm
    have hlive := hhole.live hm
    rw [hslot] at hlive
    refine ⟨m, m, (h.leaf_shifted (by omega)).live hm, hlive, le_rfl, fun j hj hk => ?_⟩
    obtain ⟨rfl, -⟩ := hhole.key_of_lt hm (hslot.symm ▸ hj) hk
    omega

theorem moves_shifted (h : Leaf own p l) (hlen : l.length + 1 < cardinality)
    (hr : r + 1 ≤ l.length) {m : ℕ} (hm : m < l.length) :
    Moves own l[m].key (p.hole l.length (r + 1)) (p.shifted l.length r) := by
  have hshifted := h.gap_shifted hlen hr
  refine ⟨_, _, (h.gap_hole hlen hr).live hm, hshifted.live hm, le_rfl, fun j hj hk => ?_⟩
  obtain ⟨rfl, hkey⟩ := hshifted.key_of_lt hm hj hk
  obtain rfl := key_inj h.holds.sorted hr hm hkey
  unfold gapSlot at hj
  rw [if_pos (Nat.lt_succ_self r)] at hj
  omega

theorem moves_named (h : Leaf own p l) (hlen : l.length + 1 < cardinality) (hr : r ≤ l.length)
    (hkey : ∀ e ∈ l, e.key ≠ key) {m : ℕ} (hm : m < l.length) :
    Moves own l[m].key (p.hole l.length r) (p.named l.length key r) := by
  have hnamed := h.gap_named hlen hr key
  refine ⟨_, _, (h.gap_hole hlen hr).live hm, hnamed.live hm, le_rfl, fun j hj hk => ?_⟩
  obtain ⟨-, heq⟩ := hnamed.key_of_lt hm hj hk
  exact hkey _ (List.getElem_mem hm) heq.symm

theorem moves_inserted (h : Leaf own p l) (hlen : l.length + 1 < cardinality)
    (hkey : ∀ e ∈ l, e.key ≠ key) (hown : own v = key) {m : ℕ} (hm : m < l.length) :
    Moves own l[m].key (p.named l.length key (insertSlot key p l.length))
      (p.inserted l.length key (.value v) (insertSlot key p l.length)) := by
  obtain ⟨hlive, hne⟩ := h.live_inserted hlen hkey hown hm
  have hrec := h.records_inserted key v
  have hleft : (FastFair.insertKey p key (.value v) l.length).leftmostPtr = p.leftmostPtr :=
    congrArg Prod.fst (frame_insertKey p key (.value v) l.length)
  refine ⟨_, _, (h.gap_named hlen (insertSlot_spec key p l.length).1 key).live hm,
    hlive.congr hrec.symm hleft, le_rfl, fun j hj => ?_⟩
  rw [hrec]
  exact hne j hj

end Leaf

/-! ## Stores one after the other -/

/-- Every store takes the page to one that is related to it. -/
def AllStores (R : Page V → Page V → Prop) : Page V → List (Store V) → Prop
  | _, [] => True
  | p, s :: stores => R p (p.store s) ∧ AllStores R (p.store s) stores

theorem allStores_append {R : Page V → Page V → Prop} {p : Page V} {s t : List (Store V)}
    (hs : AllStores R p s) (ht : AllStores R (p.storeAll s) t) : AllStores R p (s ++ t) := by
  induction s generalizing p with
  | nil => exact ht
  | cons a s ih => exact ⟨hs.1, ih hs.2 ht⟩

theorem AllStores.pageAt {R : Page V → Page V → Prop} {p : Page V} {stores : List (Store V)}
    (h : AllStores R p stores) {t : ℕ} (ht : t < stores.length) :
    R (pageAt p stores t) (pageAt p stores (t + 1)) := by
  induction stores generalizing p t with
  | nil => exact absurd ht (Nat.not_lt_zero t)
  | cons a stores ih =>
    cases t with
    | zero => exact h.1
    | succ t => exact ih h.2 (Nat.lt_of_succ_lt_succ ht)

namespace Leaf

variable {p : Page V} {l : List (Entry V)} {key : ℕ} {v : V}

/-- The loop of an insertion. -/
theorem allStores_insertShift (h : Leaf own p l) (hlen : l.length + 1 < cardinality)
    (hkey : ∀ e ∈ l, e.key ≠ key) (hown : own v = key) {m : ℕ} (hm : m < l.length) {r : ℕ}
    (hr : r ≤ l.length) (hslot : insertSlot key p r = insertSlot key p l.length) :
    AllStores (Moves own l[m].key) (p.shifted l.length r)
      (insertShift key (.value v) r (p.shifted l.length r)) := by
  -- the last three stores, at the slot where the loop ends
  have hlast : ∀ r ≤ l.length, r = insertSlot key p l.length →
      AllStores (Moves own l[m].key) (p.shifted l.length r)
        [.ptr r (p.prevPtr r), .key r key, .ptr r (.value v)] := by
    intro r hr heq
    refine ⟨h.moves_hole hlen hr hm, h.moves_named hlen hr hkey hm, ?_, trivial⟩
    have := h.moves_inserted hlen hkey hown hm
    rw [← heq] at this
    exact this
  induction r with
  | zero => exact hlast 0 hr hslot
  | succ r ih =>
    have hrec : (p.shifted l.length (r + 1)).records r = p.records r :=
      shifted_records_of_le p (Nat.le_succ r)
    have hrec' : (p.hole l.length (r + 1)).records r = p.records r :=
      hole_records_of_lt p (Nat.lt_succ_self r)
    unfold insertShift
    rw [hrec]
    by_cases hlt : key < (p.records r).key
    · have hdown : insertSlot key p (r + 1) = insertSlot key p r := if_pos hlt
      have hshift := hole_store_eq_shifted p hr
      rw [if_pos hlt]
      refine ⟨h.moves_hole hlen hr hm, ?_⟩
      show AllStores _ (p.hole l.length (r + 1))
        (.key (r + 1) ((p.hole l.length (r + 1)).records r).key :: insertShift key (.value v) r
          ((p.hole l.length (r + 1)).store
            (.key (r + 1) ((p.hole l.length (r + 1)).records r).key)))
      rw [hrec', hshift]
      refine ⟨?_, ?_⟩
      · rw [hshift]
        exact h.moves_shifted hlen hr hm
      · rw [hshift]
        exact ih (by omega) (hdown.symm.trans hslot)
    · have hstop : insertSlot key p (r + 1) = r + 1 := if_neg hlt
      rw [if_neg hlt]
      exact hlast (r + 1) hr (hstop.symm.trans hslot)

/-- **The stores of an insertion** move the entries that are there. -/
theorem allStores_insertStores (h : Leaf own p l) (hlen : l.length + 1 < cardinality)
    (hkey : ∀ e ∈ l, e.key ≠ key) (hown : own v = key) {m : ℕ} (hm : m < l.length) :
    AllStores (Moves own l[m].key) p (insertStores p key (.value v) l.length) := by
  have hpos : 0 < l.length := by omega
  have hstores : insertStores p key (.value v) l.length
      = (.ptr (l.length + 1) (p.records l.length).ptr ::
          insertShift key (.value v) l.length (p.shifted l.length l.length))
        ++ [.lastIndex l.length] := by
    unfold insertStores insertSlots
    rw [h.turnForward_eq, if_neg hpos.ne', List.nil_append]
    exact congrArg (fun q => (_ :: insertShift key (.value v) l.length q) ++ _)
      (store_end_eq_shifted p l.length)
  have hshift := h.allStores_insertShift hlen hkey hown hm le_rfl rfl
  have hpage : p.storeAll (.ptr (l.length + 1) (p.records l.length).ptr ::
      insertShift key (.value v) l.length (p.shifted l.length l.length))
        = p.inserted l.length key (.value v) (insertSlot key p l.length) := by
    show (p.store _).storeAll _ = _
    rw [store_end_eq_shifted, storeAll_insertShift]
  have hleaf := h.leaf_shifted hpos
  rw [hstores]
  refine allStores_append ⟨?_, ?_⟩ ⟨?_, trivial⟩
  · rw [store_end_eq_shifted]
    exact ⟨m, m, h.live hm, hleaf.live hm, le_rfl, fun _ hj => hleaf.key_ne_of_lt hm hj⟩
  · rw [store_end_eq_shifted]
    exact hshift
  · obtain ⟨hlive, hne⟩ := h.live_inserted hlen hkey hown hm
    have hrec := h.records_inserted key v
    have hleft : (FastFair.insertKey p key (.value v) l.length).leftmostPtr = p.leftmostPtr :=
      congrArg Prod.fst (frame_insertKey p key (.value v) l.length)
    rw [hpage]
    refine ⟨_, _, hlive.congr hrec.symm hleft, hlive.congr hrec.symm hleft, le_rfl, fun j hj => ?_⟩
    show ((p.inserted _ _ _ _).records j).key ≠ _
    rw [hrec]
    exact hne j hj

/-! ## An update -/

/-- The entries of a leaf after the update of one. -/
theorem putEntry_eq_set (h : Leaf own p l) {s : ℕ} (hs : s < l.length)
    (hk : (p.records s).key = key) : putEntry l (key, v) = l.set s ⟨key, .value v⟩ := by
  rw [h.holds.records s hs] at hk
  unfold putEntry
  rw [if_pos ⟨l[s], List.getElem_mem hs, hk⟩]
  refine List.ext_getElem (by rw [List.length_map, List.length_set]) (fun i hi hi' => ?_)
  rw [List.length_map] at hi
  rw [List.getElem_map, List.getElem_set]
  by_cases heq : s = i
  · subst heq
    rw [if_pos hk, if_pos rfl]
  · rw [if_neg heq, if_neg (fun hki => heq (key_inj h.holds.sorted hs hi (hk.trans hki.symm)))]

/-- The leaf after an update. -/
theorem update (h : Leaf own p l) {s : ℕ} (hs : s < l.length) (hk : (p.records s).key = key)
    (hown : own v = key) :
    Leaf own (p.store (.ptr s (.value v))) (l.set s ⟨key, .value v⟩) := by
  subst hk
  have hleft : Ptr.value v ≠ p.leftmostPtr := by
    rw [h.leftmost]
    exact fun heq => nomatch heq
  refine ⟨h.holds.update hs (fun heq => nomatch heq) hleft (fun e he hne heq => ?_), h.leftmost,
    h.forward, fun e he => ?_⟩
  · obtain ⟨w, hw, hown'⟩ := h.owned e he
    obtain rfl := Ptr.value.inj (hw.symm.trans heq)
    exact hne (hown'.symm.trans hown)
  · rcases List.mem_or_eq_of_mem_set he with he | rfl
    · exact h.owned e he
    · exact ⟨v, rfl, hown⟩

theorem allStores_update (h : Leaf own p l) {s : ℕ} (hs : s < l.length)
    (hk : (p.records s).key = key) (hown : own v = key) {m : ℕ} (hm : m < l.length) :
    AllStores (Moves own l[m].key) p [.ptr s (.value v)] := by
  have hleaf := h.update hs hk hown
  have hm' : m < (l.set s ⟨key, .value v⟩).length := by rw [List.length_set]; exact hm
  have hkey : (l.set s ⟨key, .value v⟩)[m].key = l[m].key := by
    rw [List.getElem_set]
    split
    · subst m
      rw [← h.holds.records s hs, hk]
    · rfl
  have hlive := hleaf.live hm'
  have hne := fun j => hleaf.key_ne_of_lt (j := j) hm'
  rw [hkey] at hlive hne
  exact ⟨⟨m, m, h.live hm, hlive, le_rfl, hne⟩, trivial⟩

/-! ## A history -/

/-- **One `Put`**: the leaf after it, and what its stores do to the entries. -/
theorem put (h : Leaf own p l) (hown : own v = key) {stores : List (Store V)}
    (hput : putStores p key v = some stores) :
    Leaf own (p.storeAll stores) (putEntry l (key, v))
      ∧ (∀ e ∈ l, AllStores (Moves own e.key) p stores)
      ∧ ∀ s ∈ stores, ∀ c, s ≠ .switchCounter c := by
  obtain ⟨s, hs, hk, rfl⟩ | ⟨hkey, hlen, rfl⟩ := h.putStores_eq_some hput
  · refine ⟨?_, fun e he => ?_, fun s' hs' c heq => ?_⟩
    · rw [h.putEntry_eq_set hs hk]
      exact h.update hs hk hown
    · obtain ⟨m, hm, rfl⟩ := List.getElem_of_mem he
      exact h.allStores_update hs hk hown hm
    · rw [List.mem_singleton.mp hs'] at heq
      exact nomatch heq
  · have hlen' : l.length + 1 < cardinality := by omega
    refine ⟨?_, fun e he => ?_, fun s hs => ne_switchCounter_of_mem_insertStores h.forward hs⟩
    · unfold putEntry
      rw [if_neg (fun ⟨e, he, hk⟩ => hkey e he hk)]
      exact h.insertKey hlen' hkey hown
    · obtain ⟨m, hm, rfl⟩ := List.getElem_of_mem he
      exact h.allStores_insertStores hlen' hkey hown hm

/-- A key stays in the leaf. -/
theorem exists_mem_putEntry {e : Entry V} (he : e ∈ l) (op : ℕ × V) :
    ∃ e' ∈ putEntry l op, e'.key = e.key := by
  unfold putEntry
  split
  · refine ⟨_, List.mem_map.mpr ⟨e, he, rfl⟩, ?_⟩
    split
    · exact Eq.symm ‹_›
    · rfl
  · exact ⟨e, mem_insertEntry.mpr (Or.inr he), rfl⟩

/-- **Any number of `Put`s.** -/
theorem history (h : Leaf own p l) {ops : List (ℕ × V)} (hown : ∀ op ∈ ops, own op.2 = op.1)
    {stores : List (Store V)} (hist : historyStores p ops = some stores) :
    Leaf own (p.storeAll stores) (ops.foldl putEntry l)
      ∧ (∀ e ∈ l, AllStores (Moves own e.key) p stores)
      ∧ ∀ s ∈ stores, ∀ c, s ≠ .switchCounter c := by
  induction ops generalizing p l stores with
  | nil =>
    obtain rfl := Option.some.inj hist
    exact ⟨h, fun _ _ => trivial, fun s hs => nomatch hs⟩
  | cons op ops ih =>
    obtain ⟨s₁, hput, hrest⟩ := Option.bind_eq_some_iff.mp hist
    obtain ⟨s₂, hhist, heq⟩ := Option.bind_eq_some_iff.mp hrest
    obtain rfl := Option.some.inj heq
    obtain ⟨hleaf, hmoves, hcounter⟩ := h.put (hown op List.mem_cons_self) hput
    obtain ⟨hleaf', hmoves', hcounter'⟩ := ih hleaf (fun o ho => hown o (.tail _ ho)) hhist
    refine ⟨?_, fun e he => ?_, fun s hs => ?_⟩
    · rw [storeAll_append]
      exact hleaf'
    · obtain ⟨e', he', hk⟩ := exists_mem_putEntry he op
      refine allStores_append (hmoves e he) ?_
      rw [← hk]
      exact hmoves' e' he'
    · rcases List.mem_append.mp hs with hs | hs
      · exact hcounter s hs
      · exact hcounter' s hs

end Leaf

/-! ## What a page shows -/

section Shows

variable {q q' p : Page V} {l : List (Entry V)} {key : ℕ}

/-- A key that a reader finds in no slot before the end of the page. -/
def Missing (q : Page V) (key : ℕ) : Prop :=
  ∃ n, 0 < n ∧ n < cardinality ∧ (q.records n).ptr = .null
    ∧ ∀ j < n, (q.records j).key = key → (q.records j).ptr = q.prevPtr j

variable (own) in
/-- **A page shows a list**: a reader finds the entries of the list, and no others. -/
structure Shows (q : Page V) (l : List (Entry V)) : Prop where
  live : ∀ e ∈ l, ∃ s, Live own q e.key s ∧ (q.records s).ptr = e.ptr
  missing : ∀ key, (∀ e ∈ l, e.key ≠ key) → Missing q key

theorem Shows.congr (h : Shows own q l) (hrec : q.records = q'.records)
    (hleft : q.leftmostPtr = q'.leftmostPtr) : Shows own q' l where
  live e he := by
    obtain ⟨s, hlive, hptr⟩ := h.live e he
    exact ⟨s, hlive.congr hrec hleft, hrec ▸ hptr⟩
  missing key hk := by
    obtain ⟨n, hpos, hn, hnull, hstale⟩ := h.missing key hk
    refine ⟨n, hpos, hn, hrec ▸ hnull, fun j hj hkey => ?_⟩
    rw [← Live.prevPtr_congr hrec hleft j, ← hrec]
    exact hstale j hj (hrec ▸ hkey)

theorem Leaf.shows (h : Leaf own p l) : Shows own p l where
  live e he := by
    obtain ⟨m, hm, rfl⟩ := List.getElem_of_mem he
    exact ⟨m, h.live hm, congrArg Entry.ptr (h.holds.records m hm)⟩
  missing key hk := by
    rcases Nat.eq_zero_or_pos l.length with hnil | hpos
    · refine ⟨1, one_pos, by decide, h.holds.empty (List.length_eq_zero_iff.mp hnil), ?_⟩
      intro j hj _
      obtain rfl : j = 0 := by omega
      have hend := h.holds.ends
      rw [hnil] at hend
      exact hend.trans h.leftmost.symm
    · refine ⟨l.length, hpos, h.holds.length_lt, h.holds.ends, fun j hj hkey => ?_⟩
      rw [h.holds.records j hj] at hkey
      exact absurd hkey (hk _ (List.getElem_mem hj))

theorem Gap.shows {c g : ℕ} (h : Gap own q l c g) : Shows own q l where
  live e he := by
    obtain ⟨m, hm, rfl⟩ := List.getElem_of_mem he
    exact ⟨gapSlot c m, h.live hm, congrArg Entry.ptr (h.records_gapSlot hm)⟩
  missing key hk := by
    refine ⟨l.length + 1, Nat.succ_pos _, h.length_lt, h.ends, fun j hj hkey => ?_⟩
    rcases lt_trichotomy j c with hlt | rfl | hgt
    · have hj' : j < l.length := hlt.trans_le h.le
      rw [h.left j hj' hlt] at hkey
      exact absurd hkey (hk _ (List.getElem_mem hj'))
    · rw [h.gap]
    · have hj' : j - 1 < l.length := by omega
      have hrec := h.right (j - 1) hj' (by omega)
      rw [Nat.sub_add_cancel (by omega)] at hrec
      rw [hrec] at hkey
      exact absurd hkey (hk _ (List.getElem_mem hj'))

/-- What a search for a key should answer on a leaf with these entries. -/
def answer (fence : ℕ → ℕ) (sibling : Ptr V) (l : List (Entry V)) (key : ℕ) : Ptr V :=
  match l.find? (fun e => e.key = key) with
  | some e => e.ptr
  | none => siblingFor fence key sibling

variable [DecidableEq V]

theorem Missing.returns_leafForward (h : Missing q key) (curFirst : Bool) :
    Returns (leafForward curFirst key cardinality 1) q .null := by
  obtain ⟨n, hpos, hn, hnull, hstale⟩ := h
  have hloop : ∀ fuel i, i ≤ n → n < i + fuel →
      Returns (leafForward curFirst key fuel i) q .null := by
    intro fuel
    induction fuel with
    | zero => intro i hi hfuel; omega
    | succ fuel ih =>
      intro i hi hfuel
      refine Returns.look_bind ?_
      by_cases hend : (q.records i).ptr = .null
      · rw [if_pos hend]
        exact Returns.pure _ _
      · have hlt : i < n := lt_of_le_of_ne hi (fun heq => hend (heq ▸ hnull))
        have hnext := ih (i + 1) (by omega) (by omega)
        rw [if_neg hend]
        refine Returns.look_bind ?_
        by_cases hk : (q.records i).key = key
        · rw [if_neg (not_not.mpr hk)]
          refine Returns.bind (returns_lookBoth curFirst q i) ?_
          show Returns (if q.prevPtr i = (q.records i).ptr then _ else _) q _
          rw [if_pos (hstale i hlt hk).symm]
          exact hnext
        · rw [if_pos hk]
          exact hnext
  exact hloop cardinality 1 hpos (by omega)

/-- An uninterrupted search does not find a key that is missing. -/
theorem Missing.returns_leafSearch (h : Missing q key) (hleft : q.leftmostPtr = .null)
    (hfwd : isForward q.switchCounter = true) (curFirst : Bool) (fence : ℕ → ℕ) (tries : ℕ) :
    Returns (leafSearch curFirst fence key (tries + 1)) q (siblingFor fence key q.siblingPtr) := by
  have hzero : (if (q.records 0).key = key then (q.records 0).ptr else .null) = .null := by
    obtain ⟨n, hpos, -, -, hstale⟩ := h
    split
    · exact (hstale 0 hpos ‹_›).trans hleft
    · rfl
  have hround : Returns (leafRound curFirst key (tries + 1) true) q .null := by
    have hleafZero := returns_leafZero q key
    rw [hzero] at hleafZero
    refine Returns.bind hleafZero ?_
    rw [if_neg (not_not.mpr rfl)]
    exact h.returns_leafForward curFirst
  refine Returns.look_bind ?_
  rw [hfwd]
  refine Returns.bind hround (Returns.look_bind ?_)
  rw [if_neg (not_not.mpr rfl), if_neg (not_not.mpr rfl)]
  exact Returns.look_bind (Returns.pure _ _)

/-- **An uninterrupted search answers by what the page shows.** -/
theorem Shows.returns_leafSearch (h : Shows own q l) (hleft : q.leftmostPtr = .null)
    (hfwd : isForward q.switchCounter = true) (curFirst : Bool) (fence : ℕ → ℕ) (key tries : ℕ) :
    Returns (leafSearch curFirst fence key (tries + 1)) q (answer fence q.siblingPtr l key) := by
  unfold answer
  cases hfind : l.find? (fun e => e.key = key) with
  | some e =>
    obtain rfl : e.key = key := by simpa using List.find?_some hfind
    obtain ⟨s, hlive, hptr⟩ := h.live e (List.mem_of_find?_eq_some hfind)
    show Returns _ q e.ptr
    rw [← hptr]
    exact hlive.returns_leafSearch hleft hfwd curFirst fence tries
  | none =>
    refine (h.missing key (fun e he heq => ?_)).returns_leafSearch hleft hfwd curFirst fence tries
    exact List.find?_eq_none.mp hfind e he (decide_eq_true heq)

end Shows

/-! ## The writers are atomic -/

theorem pageAt_of_length_le {p : Page V} {stores : List (Store V)} {t : ℕ}
    (h : stores.length ≤ t) : pageAt p stores t = p.storeAll stores := by
  unfold pageAt
  rw [List.take_of_length_le h]

theorem pageAt_mem_snapshots (p : Page V) (stores : List (Store V)) (t : ℕ) :
    pageAt p stores t ∈ p.snapshots stores := by
  induction stores generalizing p t with
  | nil => exact List.mem_singleton.mpr (congrArg p.storeAll (List.take_nil))
  | cons s stores ih =>
    cases t with
    | zero => exact List.mem_cons_self
    | succ t => exact .tail _ (ih (p.store s) t)

theorem snapshots_append {p : Page V} {s t : List (Store V)} {q : Page V}
    (h : q ∈ p.snapshots (s ++ t)) : q ∈ p.snapshots s ∨ q ∈ (p.storeAll s).snapshots t := by
  induction s generalizing p with
  | nil => exact Or.inr h
  | cons a s ih =>
    rcases List.mem_cons.mp h with rfl | h
    · exact Or.inl List.mem_cons_self
    · exact (ih h).imp_left (.tail p)

namespace Leaf

variable {p q : Page V} {l : List (Entry V)} {key : ℕ} {v : V}

/-- The stages of an insertion show the entries before or after it. -/
theorem shows_of_mem_insertStages (h : Leaf own p l) (hlen : l.length + 1 < cardinality)
    (hpos : 0 < l.length) (hkey : ∀ e ∈ l, e.key ≠ key) (hown : own v = key) {r : ℕ}
    (hr : r ≤ l.length) (hslot : insertSlot key p r = insertSlot key p l.length)
    (hq : q ∈ insertStages p l.length key (.value v) r) :
    Shows own q l ∨ Shows own q (insertEntry l ⟨key, .value v⟩) := by
  have hfour : ∀ r ≤ l.length, r = insertSlot key p l.length →
      q ∈ [p.shifted l.length r, p.hole l.length r, p.named l.length key r,
        p.inserted l.length key (.value v) r] →
      Shows own q l ∨ Shows own q (insertEntry l ⟨key, .value v⟩) := by
    intro r hr heq hq
    simp only [List.mem_cons, List.not_mem_nil, or_false] at hq
    obtain rfl | rfl | rfl | rfl := hq
    · rcases hr.lt_or_eq with hlt | rfl
      · exact Or.inl (h.gap_shifted hlen hlt).shows
      · exact Or.inl (h.leaf_shifted hpos).shows
    · exact Or.inl (h.gap_hole hlen hr).shows
    · exact Or.inl (h.gap_named hlen hr key).shows
    · refine Or.inr ((h.insertKey hlen hkey hown).shows.congr ?_ ?_)
      · rw [heq]
        exact (h.records_inserted key v).symm
      · exact congrArg Prod.fst (frame_insertKey p key (.value v) l.length)
  induction r with
  | zero => exact hfour 0 hr hslot hq
  | succ r ih =>
    unfold insertStages at hq
    by_cases hlt : key < (p.records r).key
    · have hdown : insertSlot key p (r + 1) = insertSlot key p r := if_pos hlt
      rw [if_pos hlt] at hq
      rcases List.mem_cons.mp hq with rfl | hq
      · rcases hr.lt_or_eq with hlt | heq
        · exact Or.inl (h.gap_shifted hlen hlt).shows
        · rw [heq]
          exact Or.inl (h.leaf_shifted hpos).shows
      · rcases List.mem_cons.mp hq with rfl | hq
        · exact Or.inl (h.gap_hole hlen hr).shows
        · exact ih (by omega) (hdown.symm.trans hslot) hq
    · have hstop : insertSlot key p (r + 1) = r + 1 := if_neg hlt
      rw [if_neg hlt] at hq
      exact hfour (r + 1) hr (hstop.symm.trans hslot) hq

/-- The pages of an insertion into an empty leaf. -/
theorem shows_of_empty (h : Leaf own p []) (hown : own v = key)
    (hq : q ∈ p.snapshots [.key 0 key, .ptr 0 (.value v), .ptr 1 .null]) :
    Shows own q [] ∨ Shows own q [⟨key, .value v⟩] := by
  have hend : (p.records 1).ptr = .null := h.holds.empty rfl
  have hzero : (p.records 0).ptr = .null := h.holds.ends
  -- without a pointer in the first two slots the page shows nothing
  have hnone : ∀ q : Page V, q.leftmostPtr = .null → (q.records 0).ptr = .null →
      (q.records 1).ptr = .null → Shows own q [] := by
    intro q hleft h0 h1
    refine ⟨fun e he => (nomatch he), fun k _ => ⟨1, one_pos, by decide, h1, fun j hj _ => ?_⟩⟩
    obtain rfl : j = 0 := by omega
    exact h0.trans hleft.symm
  have hone : ∀ q : Page V, q.leftmostPtr = .null → q.records 0 = ⟨key, .value v⟩ →
      (q.records 1).ptr = .null → Shows own q [⟨key, .value v⟩] := by
    intro q hleft h0 h1
    refine ⟨fun e he => ?_, fun k hk => ⟨1, one_pos, by decide, h1, fun j hj hkey => ?_⟩⟩
    · obtain rfl := List.mem_singleton.mp he
      refine ⟨0, ⟨by rw [h0], ⟨v, by rw [h0], hown⟩, fun w hw => ?_, fun j _ hj => ?_,
        fun j hj => ?_, by decide⟩, by rw [h0]⟩
      · exact nomatch hleft.symm.trans hw
      · exact absurd hj (Nat.not_lt_zero j)
      · exact absurd hj (Nat.not_lt_zero j)
    · obtain rfl : j = 0 := by omega
      rw [h0] at hkey
      exact absurd hkey (hk _ (List.mem_singleton.mpr rfl))
  rcases List.mem_cons.mp hq with rfl | hq
  · exact Or.inl (hnone _ h.leftmost hzero hend)
  rcases List.mem_cons.mp hq with rfl | hq
  · exact Or.inl (hnone _ h.leftmost hzero hend)
  rcases List.mem_cons.mp hq with rfl | hq
  · exact Or.inr (hone _ h.leftmost rfl hend)
  rcases List.mem_singleton.mp hq with rfl
  exact Or.inr (hone _ h.leftmost rfl rfl)

theorem insertStores_eq (h : Leaf own p l) (key : ℕ) (ptr : Ptr V) (n : ℕ) :
    insertStores p key ptr n = insertSlots p key ptr n ++ [.lastIndex n] := by
  unfold insertStores
  rw [h.turnForward_eq]
  rfl

/-- The pages of an insertion. -/
theorem shows_of_mem_insertSlots (h : Leaf own p l) (hlen : l.length + 1 < cardinality)
    (hkey : ∀ e ∈ l, e.key ≠ key) (hown : own v = key)
    (hq : q ∈ p.snapshots (insertSlots p key (.value v) l.length)) :
    Shows own q l ∨ Shows own q (insertEntry l ⟨key, .value v⟩) := by
  unfold insertSlots at hq
  rcases Nat.eq_zero_or_pos l.length with hnil | hpos
  · rw [if_pos hnil] at hq
    obtain rfl := List.length_eq_zero_iff.mp hnil
    exact h.shows_of_empty hown hq
  · rw [if_neg hpos.ne'] at hq
    rcases List.mem_cons.mp hq with rfl | hq
    · exact Or.inl h.shows
    · rw [store_end_eq_shifted, snapshots_insertShift p key (.value v) le_rfl] at hq
      exact h.shows_of_mem_insertStages hlen hpos hkey hown le_rfl rfl hq

/-- **Every moment of a `Put` shows the leaf before or after it.** -/
theorem shows_of_put (h : Leaf own p l) (hown : own v = key) {stores : List (Store V)}
    (hput : putStores p key v = some stores) (t : ℕ) :
    Shows own (pageAt p stores t) l ∨ Shows own (pageAt p stores t) (putEntry l (key, v)) := by
  have hafter := (h.put hown hput).1
  have hmem := pageAt_mem_snapshots p stores t
  generalize pageAt p stores t = q at hmem ⊢
  obtain ⟨s, hs, hk, rfl⟩ | ⟨hkey, hlen, rfl⟩ := h.putStores_eq_some hput
  · rcases List.mem_cons.mp hmem with rfl | hmem
    · exact Or.inl h.shows
    · rw [List.mem_singleton.mp hmem]
      exact Or.inr hafter.shows
  · have hentry : putEntry l (key, v) = insertEntry l ⟨key, .value v⟩ :=
      if_neg (fun ⟨e, he, hk⟩ => hkey e he hk)
    rw [hentry] at hafter ⊢
    rw [h.insertStores_eq] at hmem
    rcases snapshots_append hmem with hmem | hmem
    · exact h.shows_of_mem_insertSlots (by omega) hkey hown hmem
    · -- the last store is not to a slot
      rw [h.insertStores_eq, storeAll_append] at hafter
      rcases List.mem_cons.mp hmem with rfl | hmem
      · exact Or.inr (hafter.shows.congr rfl rfl)
      · rw [List.mem_singleton.mp hmem]
        exact Or.inr hafter.shows

/-- **Every moment of a history shows the leaf after a whole number of `Put`s**: those
that are finished, and perhaps the one that is not. -/
theorem shows_of_history (h : Leaf own p l) {ops : List (ℕ × V)}
    (hown : ∀ op ∈ ops, own op.2 = op.1) {stores : List (Store V)}
    (hist : historyStores p ops = some stores) (t : ℕ) :
    ∃ k ≤ ops.length,
      (∀ i s, historyStores p (ops.take i) = some s → i ≤ ops.length →
        (s.length ≤ t → i ≤ k) ∧ (t < s.length → k ≤ i))
      ∧ Shows own (pageAt p stores t) ((ops.take k).foldl putEntry l) := by
  induction ops generalizing p l stores t with
  | nil =>
    obtain rfl := Option.some.inj hist
    refine ⟨0, le_rfl, fun i s _ hi => ⟨fun _ => hi, fun _ => Nat.zero_le i⟩, ?_⟩
    rw [pageAt_of_length_le (Nat.zero_le t)]
    exact h.shows
  | cons op ops ih =>
    obtain ⟨s₁, hput, hrest⟩ := Option.bind_eq_some_iff.mp hist
    obtain ⟨s₂, hhist, heq⟩ := Option.bind_eq_some_iff.mp hrest
    obtain rfl := Option.some.inj heq
    -- the stores of the first operations begin with those of the first
    have hcons : ∀ i s, historyStores p ((op :: ops).take (i + 1)) = some s →
        ∃ s', historyStores (p.storeAll s₁) (ops.take i) = some s' ∧ s = s₁ ++ s' := by
      intro i s hs
      obtain ⟨s₁', hput', hs⟩ := Option.bind_eq_some_iff.mp hs
      obtain rfl := Option.some.inj (hput.symm.trans hput')
      obtain ⟨s', hs', heq⟩ := Option.bind_eq_some_iff.mp hs
      exact ⟨s', hs', (Option.some.inj heq).symm⟩
    rcases Nat.lt_or_ge t s₁.length with hlt | hge
    · have hpage : pageAt p (s₁ ++ s₂) t = pageAt p s₁ t :=
        congrArg p.storeAll (List.take_append_of_le_length hlt.le)
      have hbound : ∀ k ≤ 1, ∀ i s, historyStores p ((op :: ops).take i) = some s →
          i ≤ (op :: ops).length → (s.length ≤ t → i ≤ k) ∧ (t < s.length → k ≤ i) := by
        intro k hk i s hs hi
        cases i with
        | zero =>
          obtain rfl := Option.some.inj hs
          exact ⟨fun _ => Nat.zero_le k, fun h0 => absurd h0 (Nat.not_lt_zero t)⟩
        | succ i =>
          obtain ⟨s', -, rfl⟩ := hcons i s hs
          rw [List.length_append]
          exact ⟨fun hle => by omega, fun _ => by omega⟩
      rw [hpage]
      obtain hshows | hshows := h.shows_of_put (hown op List.mem_cons_self) hput t
      · exact ⟨0, Nat.zero_le _, hbound 0 (by omega), hshows⟩
      · exact ⟨1, by simp, hbound 1 le_rfl, hshows⟩
    · have hpage : pageAt p (s₁ ++ s₂) t = pageAt (p.storeAll s₁) s₂ (t - s₁.length) := by
        unfold pageAt
        rw [List.take_append, List.take_of_length_le hge, storeAll_append]
      obtain ⟨hleaf, -, -⟩ := h.put (hown op List.mem_cons_self) hput
      obtain ⟨k, hk, hbound, hshows⟩ :=
        ih hleaf (fun o ho => hown o (.tail _ ho)) hhist (t - s₁.length)
      refine ⟨k + 1, Nat.succ_le_succ hk, fun i s hs hi => ?_, hpage ▸ hshows⟩
      cases i with
      | zero =>
        obtain rfl := Option.some.inj hs
        exact ⟨fun _ => Nat.zero_le _, fun h0 => absurd h0 (Nat.not_lt_zero t)⟩
      | succ i =>
        obtain ⟨s', hs', rfl⟩ := hcons i s hs
        obtain ⟨hdone, hnot⟩ := hbound i s' hs' (Nat.le_of_succ_le_succ hi)
        rw [List.length_append]
        exact ⟨fun hle => Nat.succ_le_succ (hdone (by omega)),
          fun hlt => Nat.succ_le_succ (hnot (by omega))⟩

end Leaf

/-! ## A leaf with two keys -/

/-- A page as its constructor leaves it. -/
theorem leaf_new (own : V → ℕ) : Leaf own {} [] where
  holds :=
    { records := fun i hi => absurd hi (Nat.not_lt_zero i)
      ends := rfl
      empty := fun _ => rfl
      lastIndex := rfl
      sorted := List.Pairwise.nil
      nodup := List.nodup_singleton _
      ptr_ne_null := fun e he => (nomatch he)
      length_lt := show 0 < cardinality by decide }
  leftmost := rfl
  forward := rfl
  owned := fun e he => (nomatch he)

/-- A leaf with the keys 2 and 5; a value belongs to the key it is ten times of. -/
def twoKeys : Page ℕ := insertKey (insertKey {} 2 (.value 20) 0) 5 (.value 50) 1

theorem leaf_twoKeys : Leaf (· / 10) twoKeys [⟨2, .value 20⟩, ⟨5, .value 50⟩] := by
  have hone : Leaf (· / 10) (insertKey {} 2 (.value 20) 0) [⟨2, .value 20⟩] :=
    (leaf_new (· / 10)).insertKey (by decide) (fun e he => (nomatch he)) rfl
  exact hone.insertKey (by decide) (by decide) rfl

/-- An update of key 2 and an insertion of key 1. -/
def twoPuts : List (ℕ × ℕ) := [(2, 21), (1, 10)]

theorem own_twoPuts : ∀ op ∈ twoPuts, op.2 / 10 = op.1 := by decide

/-! ## The readers -/

variable {p : Page V} {l : List (Entry V)}

/-- **The writers are atomic.** At every moment of a history of `Put`s – and after a
crash at it – an uninterrupted search finds, for every key, what the leaf holds
after a whole number of `Put`s: all that are finished, and perhaps the one that is
not. -/
theorem history_atomic [DecidableEq V] (h : Leaf own p l) {ops : List (ℕ × V)}
    (hown : ∀ op ∈ ops, own op.2 = op.1) {stores : List (Store V)}
    (hist : historyStores p ops = some stores) (t : ℕ) :
    ∃ k ≤ ops.length,
      (∀ i s, historyStores p (ops.take i) = some s → i ≤ ops.length →
        (s.length ≤ t → i ≤ k) ∧ (t < s.length → k ≤ i))
      ∧ ∀ (curFirst : Bool) (fence : ℕ → ℕ) (key tries : ℕ),
        Returns (leafSearch curFirst fence key (tries + 1)) (pageAt p stores t)
          (answer fence p.siblingPtr ((ops.take k).foldl putEntry l) key) := by
  obtain ⟨-, -, hcounter⟩ := h.history hown hist
  obtain ⟨k, hk, hbound, hshows⟩ := h.shows_of_history hown hist t
  refine ⟨k, hk, hbound, fun curFirst fence key tries => ?_⟩
  have hframe := frame_storeAll p (stores.take t)
  have hsibling : (pageAt p stores t).siblingPtr = p.siblingPtr :=
    congrArg (fun f => f.2.1) hframe
  have hfwd : isForward (pageAt p stores t).switchCounter = true := by
    rw [show (pageAt p stores t).switchCounter = p.switchCounter from
      switchCounter_storeAll (fun s hs => hcounter s (List.mem_of_mem_take hs))]
    exact h.forward
  rw [← hsibling]
  exact hshows.returns_leafSearch ((congrArg Prod.fst hframe).trans h.leftmost) hfwd curFirst
    fence key tries

/-- After the first five stores of an update and an insertion. -/
theorem history_atomic_twoKeys :
    ∃ stores, historyStores twoKeys twoPuts = some stores ∧ ∃ k ≤ 2, ∀ key,
      Returns (leafSearch true (fun _ => 0) key 1) (pageAt twoKeys stores 5)
        (answer (fun _ => 0) .null
          ((twoPuts.take k).foldl putEntry [⟨2, .value 20⟩, ⟨5, .value 50⟩]) key) := by
  obtain ⟨k, hk, -, h⟩ := history_atomic leaf_twoKeys own_twoPuts rfl 5
  exact ⟨_, rfl, k, hk, fun key => h true (fun _ => 0) key 0⟩

/-- **The search of a leaf is linearizable.** Whatever `Put`s other threads make on
the leaf meanwhile, and however the loads of the search fall between their stores,
a search for a key of the leaf ends in its first round with a pointer that is not
null, and the pointer is the one an uninterrupted search finds at some moment in
between. A value is put for one key only, and the pointer of a slot is loaded
before the one to its left. -/
theorem search_linearizable [DecidableEq V] (h : Leaf own p l) {ops : List (ℕ × V)}
    (hown : ∀ op ∈ ops, own op.2 = op.1) {stores : List (Store V)}
    (hist : historyStores p ops = some stores) {clock : ℕ → ℕ} (hclock : Monotone clock)
    (fence : ℕ → ℕ) {e : Entry V} (he : e ∈ l) (tries n : ℕ) :
    ∃ t n', leafSearch true fence e.key (tries + 1) (fun n => pageAt p stores (clock n)) n
        = some (t, n')
      ∧ t ≠ .null ∧ ∃ τ, clock n ≤ τ ∧ τ ≤ clock n'
        ∧ Returns (leafSearch true fence e.key 1) (pageAt p stores τ) t := by
  obtain ⟨hleaf, hmoves, hcounter⟩ := h.history hown hist
  have hsame : ∀ t, (pageAt p stores t).switchCounter = p.switchCounter := fun t =>
    switchCounter_storeAll (fun s hs => hcounter s (List.mem_of_mem_take hs))
  have hsteps : ∀ t, Moves own e.key (pageAt p stores t) (pageAt p stores (t + 1)) := by
    intro t
    rcases Nat.lt_or_ge t stores.length with hlt | hge
    · exact (hmoves e he).pageAt hlt
    · rw [pageAt_of_length_le hge, pageAt_of_length_le (hge.trans (Nat.le_succ t))]
      have hkey : ∀ (ops : List (ℕ × V)) (l : List (Entry V)), (∃ x ∈ l, x.key = e.key) →
          ∃ x ∈ ops.foldl putEntry l, x.key = e.key := by
        intro ops
        induction ops with
        | nil => exact fun _ hx => hx
        | cons op ops ih =>
          rintro l ⟨x, hx, hk⟩
          obtain ⟨x', hx', hk'⟩ := Leaf.exists_mem_putEntry hx op
          exact ih _ ⟨x', hx', hk'.trans hk⟩
      obtain ⟨x, hx, hk⟩ := hkey ops l ⟨e, he, rfl⟩
      obtain ⟨m, hm, rfl⟩ := List.getElem_of_mem hx
      rw [← hk]
      exact hleaf.moves_self hm
  refine leafSearch_linearizable hsteps (fun t => ?_) (fun t => ?_) (fun t t' => ?_) hclock fence
    tries n
  · exact (congrArg Prod.fst (frame_storeAll p (stores.take t))).trans h.leftmost
  · rw [hsame]
    exact h.forward
  · rw [hsame, hsame]

/-- A search for key 5 with one load between any two stores. -/
theorem search_linearizable_twoKeys :
    ∃ stores, historyStores twoKeys twoPuts = some stores ∧ ∃ t n',
      leafSearch true (fun _ => 0) 5 1 (fun n => pageAt twoKeys stores n) 0 = some (t, n')
        ∧ t ≠ .null := by
  obtain ⟨t, n', hrun, hne, -⟩ := search_linearizable leaf_twoKeys own_twoPuts rfl monotone_id
    (fun _ => 0) (.tail _ (.head _)) 0 0
  exact ⟨_, rfl, t, n', hrun, hne⟩

/-- **The order of the two loads matters.** If the pointer to the left is loaded first,
a search for key 5 that is overtaken by the update of key 2 and four stores of the
insertion of key 1 ends with the new value of key 2. -/
theorem search_prevFirst_wrong :
    ∃ stores, historyStores twoKeys twoPuts = some stores
      ∧ leafSearch false (fun _ => 0) 5 1 (fun n => pageAt twoKeys stores (if n < 5 then 0 else 5))
        0 = some (.value 21, 8) := by
  exact ⟨_, rfl, by decide⟩

end FastFair
