import PKBench.FastFairTree

/-!
# The FAST_FAIR tree is a map

What one locked section of `store` does to the tree (`StoreStep`): it keeps the
invariant, changes nothing but its key in the leaves, and the only page it leaves
without an entry in the level above is the one it returns for the next insertion.
-/

open Loads

namespace FastFair

variable {V : Type}

/-! ## What the locked section does -/

section Locked

variable {t : Btree V} {a key : ℕ} {right : Ptr V}

theorem Chain.leftmost_eq_null_iff (h : Chain t) (ha : a < t.fresh) :
    (t.pages a).leftmostPtr = .null ↔ t.level a = 0 := by
  constructor
  · intro hnull
    cases hn : t.level a with
    | zero => rfl
    | succ n =>
      obtain ⟨-, ⟨c, -, hp, -⟩, -⟩ := (h.page a ha).internal n hn
      exact nomatch hnull.symm.trans hp
  · exact fun h0 => ((h.page a ha).leaf h0).1

/-- What may be stored is none of the pointers of the page. -/
theorem Chain.ptr_ne (h : Chain t) (ha : a < t.fresh) (hs : Storable t key right (t.level a)) :
    right ≠ .null ∧ right ≠ (t.pages a).leftmostPtr
      ∧ ∀ e ∈ (t.pages a).entries, e.key ≠ key → e.ptr ≠ right := by
  cases hn : t.level a with
  | zero =>
    rw [hn] at hs
    obtain ⟨v, rfl, hv⟩ := hs
    refine ⟨(nomatch ·), fun heq => ?_, fun e he hne heq => hne (hv e.key ?_)⟩
    · exact nomatch heq.trans ((h.page a ha).leaf hn).1
    · exact ⟨a, ha, hn, heq ▸ he⟩
  | succ n =>
    rw [hn] at hs
    obtain ⟨c, -, rfl, -, -, hnot⟩ := hs
    refine ⟨(nomatch ·), fun heq => hnot ⟨a, ha, .inl heq.symm⟩, fun e he _ heq => ?_⟩
    exact hnot ⟨a, ha, .inr ⟨e, he, heq⟩⟩

/-- A new key is put into the page. -/
theorem Chain.writes_insertKey (h : Chain t) (ha : a < t.fresh)
    (hs : Storable t key right (t.level a)) (hkey : ∀ e ∈ (t.pages a).entries, e.key ≠ key)
    (hlen : (t.pages a).entries.length + 1 < cardinality) :
    Writes (t.pages a) (insertKey (t.pages a) key right (t.pages a).entries.length) key right := by
  obtain ⟨hnull, hleft, hptr⟩ := h.ptr_ne ha hs
  have hnot : right ∉ (t.pages a).leftmostPtr :: (t.pages a).entries.map Entry.ptr := by
    refine List.not_mem_cons_of_ne_of_not_mem hleft (fun hmem => ?_)
    obtain ⟨e, he, heq⟩ := List.mem_map.mp hmem
    exact hptr e he (hkey e he) heq
  have hholds := (h.page a ha).holds.insertKey hkey hnot hnull hlen
  refine ⟨frame_insertKey _ _ _ _, hholds.entries_eq.symm ▸ hholds, isForward_insertKey _ _ _ _,
    fun e => ?_⟩
  rw [hholds.entries_eq, mem_insertEntry]
  exact or_congr_right ⟨fun he => ⟨hkey e he, he⟩, fun he => he.2⟩

/-- An entry of the page is overwritten. -/
theorem Chain.writes_update (h : Chain t) (ha : a < t.fresh)
    (hs : Storable t key right (t.level a)) {i : ℕ} (hi : i < (t.pages a).entries.length)
    (hk : ((t.pages a).records i).key = key) :
    Writes (t.pages a) ((t.pages a).store (.ptr i right)) key right := by
  obtain ⟨hnull, hleft, hptr⟩ := h.ptr_ne ha hs
  have hok := (h.page a ha).holds
  have hholds := hok.update hi hnull hleft (by rw [hk]; exact hptr)
  rw [hk] at hholds
  refine ⟨frame_store _ _, hholds.entries_eq.symm ▸ hholds, (h.page a ha).forward, fun e => ?_⟩
  rw [hholds.entries_eq]
  constructor
  · intro he
    by_cases hek : e.key = key
    · left
      obtain ⟨j, hj, rfl⟩ := List.getElem_of_mem he
      rw [List.getElem_set] at hek ⊢
      split
      · rfl
      · rename_i hij
        rw [if_neg hij, ← hok.records j (by rwa [List.length_set] at hj)] at hek
        rw [List.length_set] at hj
        exfalso
        rcases Nat.lt_or_gt_of_ne hij with hlt | hlt
        · exact (hok.key_lt hlt hj).ne (hk.trans hek.symm)
        · exact (hok.key_lt hlt hi).ne (hek.trans hk.symm)
    · rcases List.mem_or_eq_of_mem_set he with he | rfl
      · exact .inr ⟨hek, he⟩
      · exact absurd rfl hek
  · rintro (rfl | ⟨hne, he⟩)
    · exact List.mem_set hi _
    · obtain ⟨j, hj, rfl⟩ := List.getElem_of_mem he
      refine List.mem_iff_getElem.mpr ⟨j, by rwa [List.length_set], ?_⟩
      rw [List.getElem_set, if_neg]
      rintro rfl
      exact hne (hok.records i hj ▸ hk)

theorem Storable.lt_fresh {n : ℕ} (h : Storable t key right n) (c : ℕ) (hc : right = .page c) :
    c < t.fresh := by
  cases n with
  | zero =>
    obtain ⟨v, hv, -⟩ := h
    exact nomatch hc.symm.trans hv
  | succ n =>
    obtain ⟨d, hd, hp, -⟩ := h
    exact Ptr.page.inj (hc.symm.trans hp) ▸ hd

theorem Storable.mono {t' : Btree V} (hk : Keeps t t') {n : ℕ} (h : Storable t key right n)
    (hcontent : ∀ k v, Content t' k v → Content t k v) (hlinked : ∀ c, Linked t' c → Linked t c) :
    Storable t' key right n := by
  cases n with
  | zero =>
    obtain ⟨v, hv, hk⟩ := h
    exact ⟨v, hv, fun k hc => hk k (hcontent k v hc)⟩
  | succ n =>
    obtain ⟨c, hc, hp, hl, hf, hnot⟩ := h
    exact ⟨c, hc.trans_le hk.fresh_le, hp, (hk.level c hc).trans hl, (hk.fence c hc).trans hf,
      fun hlink => hnot (hlinked c hlink)⟩

/-! ### The tree between the split and the insertion -/

theorem Covers.splitLeft {left right' : Page V} {l rest : List (Entry V)} {x : Entry V}
    (h : Chain t) (ha : a < t.fresh) (hsp : SplitAt t a left right' l x rest)
    (hcov : Covers t a key) (hlt : key < x.key) : Covers (t.split a left right') a key where
  fence_le := ((hsp.halves h ha).fence_of_lt ha).trans_le hcov.fence_le
  lt_sibling b hb := by
    rw [pages_split, if_neg ha.ne, if_pos rfl, (hsp.halves h ha).left_sibling] at hb
    rw [← Ptr.page.inj hb, Halves.fence_fresh]
    exact hlt.trans_eq (congrArg (fun f => f.2.2.2.2) hsp.right_frame).symm

theorem Covers.splitRight {left right' : Page V} {l rest : List (Entry V)} {x : Entry V}
    (h : Chain t) (ha : a < t.fresh) (hsp : SplitAt t a left right' l x rest)
    (hcov : Covers t a key) (hle : x.key ≤ key) :
    Covers (t.split a left right') t.fresh key where
  fence_le := by
    rw [Halves.fence_fresh]
    exact (congrArg (fun f => f.2.2.2.2) hsp.right_frame).trans_le hle
  lt_sibling b hb := by
    rw [pages_split, if_pos rfl, (hsp.halves h ha).right_sibling] at hb
    rw [(hsp.halves h ha).fence_of_lt (h.sibling_lt ha hb).1]
    exact hcov.lt_sibling b hb

variable [DecidableEq V]

/-- **The halves of a full page.** -/
theorem Chain.splitAt (h : Chain t) (ha : a < t.fresh)
    (hfull : ¬ (t.pages a).entries.length < cardinality - 1) :
    ∃ l₀ x rest, l₀.length = (t.pages a).entries.length / 2
      ∧ (t.pages a).records ((t.pages a).entries.length / 2) = x
      ∧ (splitRight (t.pages a) (t.pages a).entries.length ((t.pages a).entries.length / 2)).2
        = (if t.level a = 0 then x :: rest else rest).length
      ∧ rest.length < cardinality - 2
      ∧ SplitAt t a (splitLeft (t.pages a) ((t.pages a).entries.length / 2) t.fresh)
        (splitRight (t.pages a) (t.pages a).entries.length ((t.pages a).entries.length / 2)).1
        l₀ x rest := by
  have hok := (h.page a ha).holds
  have hlen : (t.pages a).entries.length = 28 := by
    have h1 := hok.length_lt
    have h2 : cardinality = 29 := rfl
    omega
  obtain ⟨l₀, x, rest, hl, hl₀⟩ : ∃ l₀ x rest, (t.pages a).entries = l₀ ++ x :: rest
      ∧ l₀.length = (t.pages a).entries.length / 2 := by
    refine ⟨(t.pages a).entries.take 14, (t.pages a).entries[14], (t.pages a).entries.drop 15,
      ?_, ?_⟩
    · rw [List.getElem_cons_drop, List.take_append_drop]
    · rw [List.length_take]
      omega
  refine ⟨l₀, x, rest, hl₀, ?_⟩
  rw [hl] at hok
  have hlens := congrArg List.length hl
  rw [List.length_append, List.length_cons] at hlens
  have hx : (t.pages a).records l₀.length = x := by
    rw [hok.records _ (by simp)]
    simp
  have hne : l₀ ≠ [] := by
    rintro rfl
    rw [List.length_nil] at hl₀
    omega
  have hne' : rest ≠ [] := by
    rintro rfl
    rw [List.length_nil] at hlens
    omega
  have hcard : cardinality = 29 := rfl
  obtain ⟨hright, hcnt, hframe⟩ := hok.splitRight
  have hleaf := h.leftmost_eq_null_iff ha
  simp only [hleaf] at hright hcnt hframe
  rw [← hl₀]
  rw [hl]
  refine ⟨hx, hcnt, by omega, ⟨hl, ?_, hok.splitLeft hne _, hne, isForward_splitLeft _ _ _,
    isForward_migrate _ _ _ rfl, hframe, hright, hne'⟩⟩
  rw [frame_splitLeft, (h.page a ha).alive]
  rfl

/-! ### Steps -/

omit [DecidableEq V]

/-- A page without an entry in the level above, though it is not the root. -/
def Lost (t : Btree V) (c : ℕ) : Prop := c < t.fresh ∧ c ≠ t.root ∧ ¬ Linked t c

/-- **What a locked section of `store` does to the tree.** It takes a pointer for a key
and may leave a page that is to be inserted into the level above. -/
structure StoreStep (t t' : Btree V) (level : ℕ) (right : Ptr V) (next : Option (ℕ × ℕ × ℕ)) :
    Prop where
  inv : Inv t'
  keeps : Keeps t t'
  lost : ∀ c, Lost t' c ↔ (Lost t c ∧ right ≠ .page c) ∨ ∃ k n, next = some (k, c, n)
  pending : ∀ k c n, next = some (k, c, n) →
    t.fresh ≤ c ∧ c < t'.fresh ∧ t'.level c = level ∧ n = level + 1 ∧ t'.fence c = k
  root : next ≠ none → t'.root = t.root

/-- An entry is written into a page. -/
theorem Inv.storeStep_writes (h : Inv t) (ha : a < t.fresh) (hcov : Covers t a key)
    (hs : Storable t key right (t.level a)) {q : Page V} (hw : Writes (t.pages a) q key right) :
    StoreStep t (t.setPage a q) (t.level a) right none where
  inv := h.setPage hw.frame (h.pageOk_of_writes ha hcov hs hw)
  keeps := keeps_setPage hw.frame
  lost c := by
    unfold Lost
    rw [h.linked_of_writes ha hs hw]
    constructor
    · rintro ⟨hc, hne, hnot⟩
      exact .inl ⟨⟨hc, hne, fun hl => hnot (.inl hl)⟩, fun hr => hnot (.inr hr)⟩
    · rintro (⟨⟨hc, hne, hnot⟩, hr⟩ | ⟨k, n, hp⟩)
      · exact ⟨hc, hne, fun hl => hl.elim hnot hr⟩
      · exact nomatch hp
  pending _ _ _ hp := nomatch hp
  root hp := absurd rfl hp

/-- What the leaves say when an entry is written. -/
theorem Chain.content_iff (h : Chain t) (ha : a < t.fresh) (hcov : Covers t a key) {q : Page V}
    (hw : Writes (t.pages a) q key right) (k : ℕ) (v : V) :
    Content (t.setPage a q) k v
      ↔ if t.level a = 0 ∧ k = key then right = .value v else Content t k v := by
  by_cases hl : t.level a = 0
  · rw [h.content_of_writes ha hcov hw hl]
    simp only [hl, true_and]
  · rw [content_of_writes_internal hw hl, if_neg (fun hand => hl hand.1)]

/-- **A page is split and an entry is written into one of the halves.** -/
structure SplitStep (t t₂ : Btree V) (a key x : ℕ) (right : Ptr V) : Prop where
  chain : Chain t₂
  keeps : Keeps t t₂
  fresh : t₂.fresh = t.fresh + 1
  root : t₂.root = t.root
  level : t₂.level t.fresh = t.level a
  fence : t₂.fence t.fresh = x
  fence_pos : 0 < x
  linked : ∀ c, Linked t₂ c ↔ Linked t c ∨ right = .page c
  content : ∀ k v, Content t₂ k v
    ↔ if t.level a = 0 ∧ k = key then right = .value v else Content t k v

theorem Chain.splitStep (h : Chain t) (ha : a < t.fresh) {left right' : Page V}
    {l rest : List (Entry V)} {x : Entry V} (hsp : SplitAt t a left right' l x rest) {b : ℕ}
    (hb : b = a ∨ b = t.fresh) (hcov : Covers (t.split a left right') b key)
    (hs : Storable t key right (t.level a)) {q : Page V}
    (hw : Storable (t.split a left right') key right ((t.split a left right').level b) →
      Writes ((t.split a left right').pages b) q key right) :
    SplitStep t ((t.split a left right').setPage b q) a key x.key right := by
  have hh := hsp.halves h ha
  have hc := hsp.chain h ha
  have hb' : b < (t.split a left right').fresh := by
    rcases hb with rfl | rfl
    · exact ha.trans (Nat.lt_succ_self _)
    · exact Nat.lt_succ_self _
  have hlevel : (t.split a left right').level b = t.level a := by
    rcases hb with rfl | rfl
    · exact hh.level_of_lt ha
    · exact hh.level_fresh
  have hs' : Storable (t.split a left right') key right ((t.split a left right').level b) := by
    rw [hlevel]
    exact hs.mono hh.keeps (fun k v => (hsp.content h ha k v).mp)
      (fun c => (hsp.linked ha c).mp)
  have hw := hw hs'
  have hfence : right'.fenceKey = x.key := congrArg (fun f => f.2.2.2.2) hsp.right_frame
  refine ⟨hc.setPage hw.frame (hc.pageOk_of_writes hb' hcov hs' hw),
    hh.keeps.trans (keeps_setPage hw.frame), rfl, rfl, ?_, ?_, ?_, fun c => ?_, fun k v => ?_⟩
  · exact (level_setPage hw.frame _).trans hh.level_fresh
  · exact (fence_setPage hw.frame _).trans (Halves.fence_fresh.trans hfence)
  · exact hfence ▸ (Nat.zero_le _).trans_lt hh.right_fence
  · rw [hc.linked_of_writes hb' hs' hw, hsp.linked ha]
  · rw [hc.content_iff hb' hcov hw, hlevel, hsp.content h ha]

/-- The root is another page: the new one is left for the level above. -/
theorem Inv.storeStep_split (h : Inv t) (ha : a < t.fresh) {t₂ : Btree V} {x : ℕ}
    (hroot : t.root ≠ a) (hsp : SplitStep t t₂ a key x right)
    (hright : ∀ c, right = .page c → c < t.fresh) :
    StoreStep t t₂ (t.level a) right (some (x, t.fresh, t.level a + 1)) where
  inv := by
    refine ⟨hsp.chain, ?_, ?_, fun c hc hne => ?_⟩
    · rw [hsp.root]
      exact h.root_lt.trans_le hsp.keeps.fresh_le
    · rw [hsp.root, hsp.keeps.fence _ h.root_lt]
      exact h.root_fence
    · rw [hsp.root] at hne ⊢
      rw [hsp.keeps.level _ h.root_lt]
      rw [hsp.fresh] at hc
      rcases Nat.lt_succ_iff_lt_or_eq.mp hc with hc | rfl
      · rw [hsp.keeps.level c hc]
        exact h.root_top c hc hne
      · rw [hsp.level]
        exact h.root_top a ha hroot.symm
  keeps := hsp.keeps
  lost c := by
    unfold Lost
    rw [hsp.linked, hsp.root, hsp.fresh]
    constructor
    · rintro ⟨hc, hne, hnot⟩
      rcases Nat.lt_succ_iff_lt_or_eq.mp hc with hc | rfl
      · exact .inl ⟨⟨hc, hne, fun hl => hnot (.inl hl)⟩, fun hr => hnot (.inr hr)⟩
      · exact .inr ⟨_, _, rfl⟩
    · rintro (⟨⟨hc, hne, hnot⟩, hr⟩ | ⟨k, n, hp⟩)
      · exact ⟨hc.trans (Nat.lt_succ_self _), hne, fun hl => hl.elim hnot hr⟩
      · obtain rfl : t.fresh = c := congrArg (fun p => p.2.1) (Option.some.inj hp)
        refine ⟨Nat.lt_succ_self _, h.root_lt.ne', fun hl => ?_⟩
        rcases hl with hl | hr
        · exact absurd (h.lt_of_linked hl) (lt_irrefl _)
        · exact absurd (hright _ hr) (lt_irrefl _)
  pending k c n hp := by
    obtain ⟨rfl, rfl, rfl⟩ : x = k ∧ t.fresh = c ∧ t.level a + 1 = n := by
      simpa using hp
    refine ⟨le_rfl, ?_, hsp.level, rfl, hsp.fence⟩
    rw [hsp.fresh]
    exact Nat.lt_succ_self _
  root _ := hsp.root

theorem entries_newRoot {left right level : ℕ} (hne : left ≠ right) :
    (newRoot left key right level : Page V).entries = [⟨key, .page right⟩] :=
  (holds_newRoot hne level).entries_eq

theorem linked_growRoot {left x level : ℕ} {r : ℕ} (hne : left ≠ r) (c : ℕ) :
    Linked (growRoot t left x r level) c ↔ Linked t c ∨ c = left ∨ c = r := by
  have hnew : Child (newRoot left x r level : Page V) c ↔ c = left ∨ c = r := by
    unfold Child
    rw [entries_newRoot hne]
    simp only [newRoot, List.mem_singleton, exists_eq_left, Ptr.page.injEq, eq_comm]
  constructor
  · rintro ⟨b, hb, hchild⟩
    rw [pages_growRoot] at hchild
    rcases Nat.lt_succ_iff_lt_or_eq.mp hb with hb | rfl
    · rw [if_neg hb.ne] at hchild
      exact .inl ⟨b, hb, hchild⟩
    · rw [if_pos rfl] at hchild
      exact .inr (hnew.mp hchild)
  · rintro (⟨b, hb, hchild⟩ | hc)
    · refine ⟨b, hb.trans (Nat.lt_succ_self _), ?_⟩
      rw [pages_growRoot, if_neg hb.ne]
      exact hchild
    · refine ⟨t.fresh, Nat.lt_succ_self _, ?_⟩
      rw [pages_growRoot, if_pos rfl]
      exact hnew.mpr hc

theorem content_growRoot {left x r level : ℕ} (hlevel : level ≠ 0) (k : ℕ) (v : V) :
    Content (growRoot t left x r level) k v ↔ Content t k v := by
  constructor
  · rintro ⟨b, hb, hbl, hmem⟩
    unfold Btree.level at hbl
    rw [pages_growRoot] at hbl hmem
    rcases Nat.lt_succ_iff_lt_or_eq.mp hb with hb | rfl
    · rw [if_neg hb.ne] at hbl hmem
      exact ⟨b, hb, hbl, hmem⟩
    · rw [if_pos rfl] at hbl
      exact absurd hbl hlevel
  · rintro ⟨b, hb, hbl, hmem⟩
    refine ⟨b, hb.trans (Nat.lt_succ_self _), ((keeps_growRoot t _ _ _ _).level b hb).trans hbl, ?_⟩
    rw [pages_growRoot, if_neg hb.ne]
    exact hmem

/-- The root itself is split: it gets a page above it, which links the new page. -/
theorem Inv.storeStep_grow (h : Inv t) {t₂ : Btree V} {x : ℕ}
    (hsp : SplitStep t t₂ t.root key x right) :
    StoreStep t (growRoot t₂ t.root x t.fresh (t.level t.root + 1)) (t.level t.root) right
      none := by
  have hkeeps := hsp.keeps.trans (keeps_growRoot t₂ t.root x t.fresh (t.level t.root + 1))
  have hroot := hsp.keeps.level _ h.root_lt
  have hfresh : t.fresh < t₂.fresh := by
    rw [hsp.fresh]
    exact Nat.lt_succ_self _
  refine ⟨?_, hkeeps, fun c => ?_, fun _ _ _ hp => (nomatch hp), fun hp => absurd rfl hp⟩
  · have hgrow := hsp.chain.growRoot (b := t.fresh)
    rw [hsp.root, hsp.fence, hroot] at hgrow
    refine hgrow (h.root_lt.trans hfresh) ?_ (fun c hc => ?_) hfresh hsp.level hsp.fence_pos
    · rw [hsp.keeps.fence _ h.root_lt]
      exact h.root_fence
    · rw [hsp.fresh] at hc
      rcases Nat.lt_succ_iff_lt_or_eq.mp hc with hc | rfl
      · rw [hsp.keeps.level c hc]
        by_cases hcr : c = t.root
        · rw [hcr]
        · exact (h.root_top c hc hcr).le
      · exact hsp.level.le
  · unfold Lost
    rw [linked_growRoot h.root_lt.ne, hsp.linked]
    constructor
    · rintro ⟨hc, hne, hnot⟩
      refine .inl ⟨⟨?_, fun hcr => hnot (.inr (.inl hcr)), fun hl => hnot (.inl (.inl hl))⟩,
        fun hr => hnot (.inl (.inr hr))⟩
      have hc' : c < t₂.fresh + 1 := hc
      have hne' : c ≠ t₂.fresh := hne
      have hcf : c ≠ t.fresh := fun hcf => hnot (.inr (.inr hcf))
      have := hsp.fresh
      omega
    · rintro (⟨⟨hc, hne, hnot⟩, hr⟩ | ⟨k, n, hp⟩)
      · refine ⟨(hc.trans hfresh).trans (Nat.lt_succ_self _), (hc.trans hfresh).ne, fun hl => ?_⟩
        rcases hl with (hl | hl) | hl | hl
        · exact hnot hl
        · exact hr hl
        · exact hne hl
        · exact hc.ne hl
      · exact nomatch hp

/-! ### The branches of the locked section -/

variable [DecidableEq V]

/-- **The split of a full page**, with the insertion. -/
theorem Chain.splitTree (h : Chain t) (ha : a < t.fresh) (hcov : Covers t a key)
    (hs : Storable t key right (t.level a)) (hkey : ∀ e ∈ (t.pages a).entries, e.key ≠ key)
    (hfull : ¬ (t.pages a).entries.length < cardinality - 1) :
    SplitStep t (splitTree t a key right (t.pages a).entries.length) a key
      ((t.pages a).records ((t.pages a).entries.length / 2)).key right := by
  obtain ⟨l, x, rest, hl, hx, hcnt, hrest, hsp⟩ := h.splitAt ha hfull
  have hcard : cardinality = 29 := rfl
  have hlen := (h.page a ha).holds.length_lt
  have hc := hsp.chain h ha
  have hmem := hsp.entries
  unfold FastFair.splitTree
  simp only [hx]
  by_cases hlt : key < x.key
  · rw [if_pos hlt]
    refine h.splitStep ha hsp (.inl rfl) (hcov.splitLeft h ha hsp hlt) hs (fun hs' => ?_)
    have hpage := pages_split t a (splitLeft (t.pages a) ((t.pages a).entries.length / 2) t.fresh)
      (splitRight (t.pages a) (t.pages a).entries.length ((t.pages a).entries.length / 2)).1 a
    rw [if_neg ha.ne, if_pos rfl] at hpage
    have hw := hc.writes_insertKey (ha.trans (Nat.lt_succ_self _)) hs'
    rw [hpage, hsp.left_holds.entries_eq] at hw
    rw [hpage, ← hl]
    rw [← hl] at hw
    refine hw (fun e he => hkey e ?_) (by omega)
    rw [hmem]
    exact List.mem_append_left _ he
  · rw [if_neg hlt]
    refine h.splitStep ha hsp (.inr rfl) (hcov.splitRight h ha hsp (not_lt.mp hlt)) hs
      (fun hs' => ?_)
    have hpage := pages_split t a (splitLeft (t.pages a) ((t.pages a).entries.length / 2) t.fresh)
      (splitRight (t.pages a) (t.pages a).entries.length ((t.pages a).entries.length / 2)).1 t.fresh
    rw [if_pos rfl] at hpage
    have hw := hc.writes_insertKey (Nat.lt_succ_self _) hs'
    rw [hpage, hsp.right_holds.entries_eq, ← hcnt] at hw
    rw [hpage]
    refine hw (fun e he => hkey e ?_) ?_
    · rw [hmem]
      refine List.mem_append_right _ ?_
      split at he
      · exact he
      · exact .tail _ he
    · rw [hcnt]
      split
      · rw [List.length_cons]
        omega
      · omega

/-- A new key: there is room, or the page is split. -/
theorem Inv.storeStep_new (h : Inv t) (ha : a < t.fresh) (hcov : Covers t a key)
    (hs : Storable t key right (t.level a)) (hkey : ∀ e ∈ (t.pages a).entries, e.key ≠ key)
    (le : Option (LogEntryHelper V)) :
    let n := (t.pages a).entries.length
    let r := if n < cardinality - 1 then storeInsert t a key right n le
      else storeSplit t a key right n le
    StoreStep t r.tree (t.level a) right r.pending
      ∧ (∀ k v, Content r.tree k v
        ↔ if t.level a = 0 ∧ k = key then right = .value v else Content t k v)
      ∧ ∃ b i, r.helper = setShortcut b i le := by
  intro n r
  by_cases hroom : n < cardinality - 1
  · have hr : r = storeInsert t a key right n le := if_pos hroom
    have hw := h.writes_insertKey ha hs hkey (by show n + 1 < cardinality; omega)
    rw [hr]
    exact ⟨h.storeStep_writes ha hcov hs hw, h.content_iff ha hcov hw, _, _, rfl⟩
  · have hr : r = storeSplit t a key right n le := if_neg hroom
    have hsp := h.splitTree ha hcov hs hkey hroom
    rw [hr]
    refine ⟨?_, ?_, ?_⟩
    · unfold storeSplit
      simp only
      by_cases hroot : t.root = a
      · subst hroot
        rw [if_pos rfl, if_pos rfl]
        exact h.storeStep_grow hsp
      · rw [if_neg hroot, if_neg hroot]
        exact h.storeStep_split ha hroot hsp hs.lt_fresh
    · intro k v
      rw [← hsp.content]
      unfold storeSplit
      simp only
      split
      · exact content_growRoot (Nat.succ_ne_zero _) k v
      · rfl
    · unfold storeSplit
      simp only
      split
      · exact ⟨_, _, rfl⟩
      · exact ⟨_, _, rfl⟩

end Locked

/-! ## The map -/

/-- A value or `INVALID_VALUE`. -/
def Ptr.ofOption : Option V → Ptr V
  | none => .null
  | some v => .value v

/-- **What the leaves say, as a map.** -/
def Represents (t : Btree V) (m : ℕ → Option V) : Prop := ∀ k v, m k = some v ↔ Content t k v

/-- **What `btree_insert` is for.** A writer overwrites what the key has and is told;
a cleaner, which says what it has copied, overwrites only that, and is told its own
value when another was there. A key that is not there is inserted in both cases. -/
def putMap [DecidableEq V] (m : ℕ → Option V) (key : ℕ) (new : V) (old : Option V) :
    (ℕ → Option V) × Option V :=
  match old, m key with
  | some o, some cur =>
    if cur = o then (Function.update m key (some new), some o) else (m, some new)
  | some o, none => (Function.update m key (some new), some o)
  | none, cur => (Function.update m key (some new), cur)

section Map

variable {t t' : Btree V} {a key : ℕ} {m : ℕ → Option V} {v : V}

theorem Represents.update (h : Represents t m)
    (hcontent : ∀ k w, Content t' k w
      ↔ if k = key then (.value v : Ptr V) = .value w else Content t k w) :
    Represents t' (Function.update m key (some v)) := by
  intro k w
  rw [hcontent, Function.update_apply]
  split
  · rw [Option.some.injEq, Ptr.value.injEq]
  · exact h k w

theorem Represents.congr (h : Represents t m) (hcontent : ∀ k w, Content t' k w ↔ Content t k w) :
    Represents t' m := fun k w => (h k w).trans (hcontent k w).symm

/-- The entry of a key is in the page the key belongs to. -/
theorem Represents.mem_entries (h : Represents t m) (hc : Chain t) (ha : a < t.fresh)
    (hl : t.level a = 0) (hcov : Covers t a key) (w : V) :
    m key = some w ↔ ⟨key, .value w⟩ ∈ (t.pages a).entries := by
  rw [h]
  constructor
  · rintro ⟨b, hb, hbl, hmem⟩
    rwa [← Covers.unique hc hb ha (hbl.trans hl.symm) (hc.covers_of_mem hb hbl hmem) hcov]
  · exact fun hmem => ⟨a, ha, hl, hmem⟩

/-- A cleaner finds another value and leaves it. -/
theorem Inv.storeStep_refl (h : Inv t) (level : ℕ) (v : V) :
    StoreStep t t level (.value v) none where
  inv := h
  keeps := Keeps.refl t
  lost c := by
    constructor
    · exact fun hl => .inl ⟨hl, fun heq => nomatch heq⟩
    · rintro (⟨hl, -⟩ | ⟨k, n, hp⟩)
      · exact hl
      · exact nomatch hp
  pending _ _ _ hp := nomatch hp
  root hp := absurd rfl hp

theorem atomically_count (h : Chain t) (ha : a < t.fresh) :
    atomically (count 1) (t.pages a) = some ((t.pages a).entries.length : ℤ) :=
  ((h.page a ha).holds.returns_count 0).atomically

variable [DecidableEq V] {old : Option V} {le : LogEntryHelper V}

/-- **What a locked section on a leaf comes to.** -/
structure LeafStored (t : Btree V) (m : ℕ → Option V) (key : ℕ) (v : V) (old : Option V)
    (r : Stored V) : Prop where
  helper : ∃ le, r.helper = some le ∧ le.oldVal = .ofOption (putMap m key v old).2
  step : StoreStep t r.tree 0 (.value v) r.pending
  represents : Represents r.tree (putMap m key v old).1

/-- The key has an entry. -/
theorem Inv.leafStored_update (h : Inv t) (hrep : Represents t m) (ha : a < t.fresh)
    (hl : t.level a = 0) (hcov : Covers t a key) (hs : Storable t key (.value v) (t.level a))
    (hold : le.oldVal = .ofOption old) {i : ℕ} (hi : i < (t.pages a).entries.length)
    (hk : ((t.pages a).records i).key = key) :
    LeafStored t m key v old (storeUpdate t a i (.value v) (some le)) := by
  have he : (t.pages a).records i ∈ (t.pages a).entries := by
    rw [(h.page a ha).holds.records i hi]
    exact List.getElem_mem hi
  obtain ⟨cur, hcur⟩ := h.leaf_ptr ha hl he
  have hmcur : m key = some cur := by
    rw [hrep.mem_entries h.toChain ha hl hcov, ← hk, ← hcur]
    exact he
  have hw := h.writes_update ha hs hi hk
  have hstep := h.storeStep_writes ha hcov hs hw
  rw [hl] at hstep
  have hrep' : Represents (t.setPage a ((t.pages a).store (.ptr i (.value v))))
      (Function.update m key (some v)) := by
    refine hrep.update (fun k w => ?_)
    rw [h.content_of_writes ha hcov hw hl]
  cases old with
  | none =>
    have hput : putMap m key v none = (Function.update m key (some v), some cur) := by
      unfold putMap
      rw [hmcur]
    have hnull : ¬ le.oldVal ≠ .null := not_not.mpr hold
    unfold storeUpdate
    simp only [if_neg hnull]
    refine ⟨⟨_, rfl, ?_⟩, hstep, ?_⟩
    · rw [hput]
      exact hcur
    · rw [hput]
      exact hrep'
  | some o =>
    have hnull : le.oldVal ≠ .null := hold ▸ (nomatch ·)
    unfold storeUpdate
    simp only [if_pos hnull]
    by_cases hco : cur = o
    · have hput : putMap m key v (some o) = (Function.update m key (some v), some o) := by
        unfold putMap
        rw [hmcur]
        exact if_pos hco
      have hsame : ((t.pages a).records i).ptr = le.oldVal := by rw [hcur, hold, hco]; rfl
      simp only [if_pos hsame]
      refine ⟨⟨_, rfl, ?_⟩, hstep, ?_⟩
      · rw [hput]
        exact hold
      · rw [hput]
        exact hrep'
    · have hput : putMap m key v (some o) = (m, some v) := by
        unfold putMap
        rw [hmcur]
        exact if_neg hco
      have hdiff : ((t.pages a).records i).ptr ≠ le.oldVal := by
        rw [hcur, hold]
        exact fun heq => hco (Ptr.value.inj heq)
      simp only [if_neg hdiff]
      refine ⟨⟨_, rfl, ?_⟩, h.storeStep_refl 0 v, ?_⟩
      · rw [hput]
        rfl
      · rw [hput]
        exact hrep

/-- The key has no entry. -/
theorem putMap_of_none (hm : m key = none) :
    putMap m key v old = (Function.update m key (some v), old) := by
  unfold putMap
  rw [hm]
  cases old <;> rfl

/-- **The locked section on a leaf** does what is asked of the map. -/
theorem Inv.lockedStore_leaf (h : Inv t) (hrep : Represents t m) (ha : a < t.fresh)
    (hl : t.level a = 0) (hcov : Covers t a key) (hv : ∀ k, m k = some v → k = key)
    (hold : le.oldVal = .ofOption old) :
    ∃ r, lockedStore t a key (.value v) (some le) = some r ∧ LeafStored t m key v old r := by
  have hs : Storable t key (.value v) (t.level a) := by
    rw [hl]
    exact ⟨v, rfl, fun k hk => hv k ((hrep k v).mpr hk)⟩
  have hok := (h.page a ha).holds
  unfold lockedStore
  rw [atomically_count h.toChain ha]
  simp only [Option.bind_eq_bind, Option.bind_some, Int.toNat_natCast]
  by_cases hfound : ∃ e ∈ (t.pages a).entries, e.key = key
  · obtain ⟨e, he, hk⟩ := hfound
    obtain ⟨i, hi, rfl⟩ := List.getElem_of_mem he
    rw [← hok.records i hi] at hk
    rw [hok.findKey hi hk (Nat.zero_le i) (by omega)]
    exact ⟨_, rfl, h.leafStored_update hrep ha hl hcov hs hold hi hk⟩
  · have hkey : ∀ e ∈ (t.pages a).entries, e.key ≠ key := fun e he hk => hfound ⟨e, he, hk⟩
    have hnone : m key = none := by
      by_contra hne
      obtain ⟨w, hw⟩ := Option.ne_none_iff_exists'.mp hne
      exact hkey _ ((hrep.mem_entries h.toChain ha hl hcov w).mp hw) rfl
    obtain ⟨hstep, hcontent, b, i, hhelper⟩ := h.storeStep_new ha hcov hs hkey (some le)
    rw [hok.findKey_eq_none hkey (by omega)]
    rw [hl] at hstep
    simp only [hl, true_and] at hcontent
    simp only
    rw [← apply_ite some]
    refine ⟨_, rfl, ⟨⟨_, hhelper, ?_⟩, hstep, ?_⟩⟩
    · rw [putMap_of_none hnone]
      exact hold
    · rw [putMap_of_none hnone]
      exact hrep.update hcontent

/-- **The locked section on an internal page** adds the child. -/
theorem Inv.lockedStore_internal (h : Inv t) (ha : a < t.fresh) {n : ℕ} (hl : t.level a = n + 1)
    (hcov : Covers t a key) {right : Ptr V} (hs : Storable t key right (n + 1)) :
    ∃ r, lockedStore t a key right none = some r
      ∧ StoreStep t r.tree (n + 1) right r.pending
      ∧ ∀ k v, Content r.tree k v ↔ Content t k v := by
  have hok := (h.page a ha).holds
  have hs' : Storable t key right (t.level a) := hl.symm ▸ hs
  obtain ⟨c, hc, -, hcl, hcf, hnot⟩ := hs
  have hkey : ∀ e ∈ (t.pages a).entries, e.key ≠ key := by
    intro e he hk
    exact hnot ⟨a, ha, h.linked_of_fence ha hl hc hcl (.inr ⟨e, he, hcf.trans hk.symm⟩)⟩
  unfold lockedStore
  rw [atomically_count h.toChain ha]
  simp only [Option.bind_eq_bind, Option.bind_some, Int.toNat_natCast]
  obtain ⟨hstep, hcontent, -⟩ := h.storeStep_new ha hcov hs' hkey none
  rw [hok.findKey_eq_none hkey (by omega)]
  rw [hl] at hstep
  simp only [hl, Nat.succ_ne_zero, false_and, if_false] at hcontent
  simp only
  rw [← apply_ite some]
  exact ⟨_, rfl, hstep, hcontent⟩

end Map

/-! ## The way down -/

section Descent

variable {t : Btree V} {a key : ℕ}

/-- The sibling is the one to go to unless the key belongs to this page. -/
theorem Chain.siblingFor_cases (h : Chain t) (ha : a < t.fresh) (hle : t.fence a ≤ key) :
    (siblingFor t.fence key (t.pages a).siblingPtr = .null ∧ Covers t a key)
      ∨ ∃ b < t.fresh, (t.pages a).siblingPtr = .page b
        ∧ siblingFor t.fence key (t.pages a).siblingPtr = .page b ∧ t.level b = t.level a
        ∧ t.fence a < t.fence b ∧ t.fence b ≤ key := by
  rcases (h.page a ha).sibling with hnull | ⟨b, hb, hp, hl, hf, -⟩
  · left
    rw [hnull]
    exact ⟨rfl, hle, fun b hb => nomatch hnull.symm.trans hb⟩
  · by_cases hbk : t.fence b ≤ key
    · right
      refine ⟨b, hb, hp, ?_, hl, hf, hbk⟩
      rw [hp]
      exact if_pos hbk
    · left
      refine ⟨?_, hle, fun c hc => ?_⟩
      · rw [hp]
        exact if_neg hbk
      · obtain rfl : b = c := Ptr.page.inj (hp.symm.trans hc)
        exact not_le.mp hbk

variable [DecidableEq V]

theorem searchPage_eq_internal {ptr : Ptr V} (hleft : (t.pages a).leftmostPtr ≠ .null)
    (h : Returns (internalSearch true t.fence key 1) (t.pages a) ptr) :
    searchPage t a key = some ptr := by
  refine Returns.atomically (Returns.look_bind ?_)
  rw [if_neg hleft]
  exact h

theorem searchPage_eq_leaf {ptr : Ptr V} (hleft : (t.pages a).leftmostPtr = .null)
    (h : Returns (leafSearch true t.fence key 1) (t.pages a) ptr) :
    searchPage t a key = some ptr := by
  refine Returns.atomically (Returns.look_bind ?_)
  rw [if_pos hleft]
  exact h

/-- **`linear_search` of an internal page** leads down, or to the right. -/
theorem Chain.searchPage_internal (h : Chain t) (ha : a < t.fresh) {n : ℕ}
    (hl : t.level a = n + 1) (hle : t.fence a ≤ key) :
    ∃ b < t.fresh, searchPage t a key = some (.page b) ∧ t.fence b ≤ key
      ∧ (t.level b = n ∨ t.level b = n + 1 ∧ t.fence a < t.fence b) := by
  have hok := h.page a ha
  obtain ⟨hne, ⟨c, hc, hleft, hcl, hcf⟩, hentries⟩ := hok.internal n hl
  have hnull : (t.pages a).leftmostPtr ≠ .null := hleft ▸ (nomatch ·)
  obtain ⟨hslot, hgt, hstop⟩ := insertSlot_spec key (t.pages a) (t.pages a).entries.length
  have hsmall : ∀ i < insertSlot key (t.pages a) (t.pages a).entries.length,
      ((t.pages a).records i).key ≤ key := by
    intro i hi
    obtain ⟨r, hr⟩ := Nat.exists_eq_succ_of_ne_zero (Nat.ne_zero_of_lt hi)
    rcases Nat.lt_or_ge i r with hir | hir
    · exact (hok.holds.key_lt hir (by omega)).le.trans (hstop r hr.symm)
    · obtain rfl : i = r := by omega
      exact hstop i hr.symm
  have hsearch := searchPage_eq_internal hnull
    (hok.holds.returns_internalSearch true t.fence hne hslot hsmall hgt hnull 0)
  rcases h.siblingFor_cases ha hle with ⟨hsib, -⟩ | ⟨b, hb, -, hsib, hbl, hf, hbk⟩
  · rw [hsib, if_neg (not_not.mpr rfl)] at hsearch
    rw [hsearch]
    cases hs : insertSlot key (t.pages a) (t.pages a).entries.length with
    | zero => exact ⟨c, hc, congrArg some hleft, hcf.trans_le hle, .inl hcl⟩
    | succ s =>
      have hlt : s < (t.pages a).entries.length := by omega
      have hmem : (t.pages a).records s ∈ (t.pages a).entries := by
        rw [hok.holds.records s hlt]
        exact List.getElem_mem hlt
      obtain ⟨-, d, hd, hp, hdl, hdf⟩ := hentries _ hmem
      exact ⟨d, hd, congrArg some hp, hdf.trans_le (hsmall s (by omega)), .inl hdl⟩
  · rw [hsib, if_pos (nomatch ·)] at hsearch
    exact ⟨b, hb, hsearch, hbk, .inr ⟨hbl.trans hl, hf⟩⟩

/-- **The way down to a level ends** at a page that is not right of the key. With
every step either the level gets smaller, or the fence key comes closer to the key. -/
theorem Chain.descendTo (h : Chain t) (ha : a < t.fresh) (hle : t.fence a ≤ key) {level : ℕ}
    (hlevel : level ≤ t.level a) {fuel : ℕ}
    (hfuel : t.level a * (key + 1) + (key - t.fence a) < fuel) :
    ∃ b < t.fresh, descendTo t key level fuel a = some b ∧ t.level b = level
      ∧ t.fence b ≤ key := by
  induction fuel generalizing a with
  | zero => exact absurd hfuel (Nat.not_lt_zero _)
  | succ fuel ih =>
    unfold FastFair.descendTo
    by_cases hlt : level < t.level a
    · rw [if_pos hlt]
      obtain ⟨n, hn⟩ := Nat.exists_eq_succ_of_ne_zero (Nat.ne_zero_of_lt hlt)
      obtain ⟨b, hb, hsearch, hbk, hdown⟩ := h.searchPage_internal ha hn hle
      rw [hsearch]
      refine ih hb hbk ?_ ?_
      · rcases hdown with hbl | ⟨hbl, -⟩ <;> omega
      · rw [hn] at hfuel
        rcases hdown with hbl | ⟨hbl, hf⟩
        · rw [hbl]
          rw [Nat.succ_mul] at hfuel
          omega
        · rw [hbl]
          rw [Nat.succ_eq_add_one] at hfuel
          omega
    · rw [if_neg hlt]
      exact ⟨a, ha, rfl, by omega, hle⟩

/-- The leaves are the level the first loop of the operations goes down to. -/
theorem Chain.descend_eq (h : Chain t) (ha : a < t.fresh) (hle : t.fence a ≤ key) (fuel : ℕ) :
    descend t key fuel a = FastFair.descendTo t key 0 fuel a := by
  induction fuel generalizing a with
  | zero => rfl
  | succ fuel ih =>
    unfold FastFair.descend FastFair.descendTo
    have hleaf := h.leftmost_eq_null_iff ha
    by_cases hl : t.level a = 0
    · rw [if_pos (hleaf.mpr hl), if_neg (by omega)]
    · rw [if_neg (fun hnull => hl (hleaf.mp hnull)), if_pos (by omega)]
      obtain ⟨n, hn⟩ := Nat.exists_eq_succ_of_ne_zero hl
      obtain ⟨b, hb, hsearch, hbk, -⟩ := h.searchPage_internal ha hn hle
      rw [hsearch]
      exact ih hb hbk

/-- **`store` goes to the right** until it is at the page the key belongs to. -/
theorem Chain.store_eq (h : Chain t) (up : Btree V → ℕ → Ptr V → ℕ → Option (Btree V))
    (right : Ptr V) (le : Option (LogEntryHelper V)) {b : ℕ} (hb : b < t.fresh)
    (hcov : Covers t b key) (ha : a < t.fresh) (hl : t.level a = t.level b)
    (hle : t.fence a ≤ key) {fuel : ℕ} (hfuel : key < fuel) {r : Stored V}
    (hr : lockedStore t b key right le = some r) :
    store up key right fuel t a le
      = (insertPending up r).map (fun t' => (t', some r.page, r.helper)) := by
  replace hfuel : key - t.fence a < fuel := (Nat.sub_le _ _).trans_lt hfuel
  induction fuel generalizing a with
  | zero => exact absurd hfuel (Nat.not_lt_zero _)
  | succ fuel ih =>
    unfold store
    rw [if_neg (by rw [(h.page a ha).alive]; exact Bool.false_ne_true)]
    rcases h.siblingFor_cases ha hle with ⟨hsib, hcova⟩ | ⟨c, hc, -, hsib, hcl, hf, hck⟩
    · rw [hsib, Covers.unique h ha hb hl hcova hcov, hr]
      show (insertPending up r).bind (fun t' => some (t', some r.page, r.helper)) = _
      cases insertPending up r <;> rfl
    · rw [hsib]
      exact ih hc (hcl.trans hl) hck (by omega)

omit [DecidableEq V] in
/-- A key belongs to a page, or to one right of it. -/
theorem Chain.exists_covers (h : Chain t) (ha : a < t.fresh) (hle : t.fence a ≤ key) :
    ∃ b < t.fresh, t.level b = t.level a ∧ Covers t b key := by
  induction hd : key - t.fence a using Nat.strong_induction_on generalizing a with
  | _ d ih =>
    rcases h.siblingFor_cases ha hle with ⟨-, hcov⟩ | ⟨c, hc, -, -, hcl, hf, hck⟩
    · exact ⟨a, ha, rfl, hcov⟩
    · obtain ⟨b, hb, hbl, hcov⟩ := ih (key - t.fence c) (by omega) hc hck rfl
      exact ⟨b, hb, hbl.trans hcl, hcov⟩

/-- The number of steps that are enough for the way down from the root. -/
def Btree.steps (t : Btree V) (key : ℕ) : ℕ := (t.level t.root + 1) * (key + 1)

omit [DecidableEq V] in
theorem Btree.lt_steps (t : Btree V) (key : ℕ) : key < t.steps key := by
  unfold Btree.steps
  rw [Nat.succ_mul]
  omega

/-- **From the root to the page of a key**, at each level. -/
theorem Inv.exists_way (h : Inv t) (key : ℕ) {level : ℕ} (hlevel : level ≤ t.level t.root) :
    ∃ b < t.fresh, t.level b = level ∧ Covers t b key
      ∧ ∀ fuel, t.steps key ≤ fuel → ∃ a < t.fresh,
        FastFair.descendTo t key level fuel t.root = some a
          ∧ t.level a = level ∧ t.fence a ≤ key := by
  have hle : t.fence t.root ≤ key := h.root_fence ▸ Nat.zero_le key
  have hway : ∀ fuel, t.steps key ≤ fuel → ∃ a < t.fresh,
      FastFair.descendTo t key level fuel t.root = some a ∧ t.level a = level
        ∧ t.fence a ≤ key := by
    intro fuel hfuel
    refine h.descendTo h.root_lt hle hlevel ?_
    unfold Btree.steps at hfuel
    rw [Nat.succ_mul] at hfuel
    omega
  obtain ⟨a, ha, -, hal, hak⟩ := hway _ le_rfl
  obtain ⟨b, hb, hbl, hcov⟩ := h.exists_covers ha hak
  exact ⟨b, hb, hbl.trans hal, hcov, hway⟩

/-! ## `btree_insert_internal` -/

/-- **`btree_insert_internal` links the page**, and all that are made on the way. -/
theorem Inv.insertInternal {k c level : ℕ} (h : Inv t) (hlost : Lost t c)
    (hlevel : t.level c + 1 = level) (hk : t.fence c = k) :
    ∃ t' N, Inv t' ∧ Keeps t t' ∧ (∀ x, Lost t' x ↔ Lost t x ∧ x ≠ c)
      ∧ (∀ key v, Content t' key v ↔ Content t key v)
      ∧ ∀ fuel ≥ N, insertInternal fuel t k (.page c) level = some t' := by
  induction hd : t.level t.root - level using Nat.strong_induction_on
    generalizing t k c level with
  | _ d ih =>
    have hroot : level ≤ t.level t.root := by
      rw [← hlevel]
      exact h.root_top c hlost.1 hlost.2.1
    obtain ⟨b, hb, hbl, hcov, hway⟩ := h.exists_way k hroot
    have hs : Storable t k (.page c) (t.level c + 1) := ⟨c, hlost.1, rfl, rfl, hk, hlost.2.2⟩
    obtain ⟨r, hr, hstep, hcontent⟩ := h.lockedStore_internal hb (hbl.trans hlevel.symm) hcov hs
    -- what a call comes to, in terms of the locked section
    have hcall : ∀ fuel, t.steps k ≤ fuel → FastFair.insertInternal (fuel + 1) t k (.page c) level
        = insertPending (FastFair.insertInternal fuel) r := by
      intro fuel hfuel
      obtain ⟨a, ha, hdesc, hal, hak⟩ := hway (fuel + 1) (by omega)
      have hstore := h.store_eq (FastFair.insertInternal fuel) (.page c) none hb hcov ha
        (hal.trans hbl.symm) hak ((t.lt_steps k).trans_le (hfuel.trans (Nat.le_succ fuel))) hr
      unfold FastFair.insertInternal
      rw [if_neg (by omega), hdesc]
      simp only [Option.bind_eq_bind, Option.bind_some]
      rw [hstore]
      cases insertPending (FastFair.insertInternal fuel) r <;> rfl
    cases hp : r.pending with
    | none =>
      refine ⟨r.tree, t.steps k + 1, hstep.inv, hstep.keeps, fun x => ?_, hcontent,
        fun fuel hfuel => ?_⟩
      · rw [hstep.lost, hp]
        simp [eq_comm]
      · obtain ⟨fuel, rfl⟩ := Nat.exists_eq_add_of_le' (Nat.le_trans (Nat.le_add_left 1 _) hfuel)
        rw [hcall fuel (by omega), insertPending, hp]
    | some next =>
      obtain ⟨k', c', level'⟩ := next
      rw [hp] at hstep
      obtain ⟨hnew, hc', hcl', hl', hf'⟩ := hstep.pending _ _ _ rfl
      have hlost' : Lost r.tree c' := (hstep.lost c').mpr (.inr ⟨_, _, rfl⟩)
      have hmeasure : r.tree.level r.tree.root - level' < d := by
        rw [hstep.root (Option.some_ne_none _), hstep.keeps.level _ h.root_lt]
        have := hstep.inv.root_top c' hc' hlost'.2.1
        rw [hstep.root (Option.some_ne_none _), hstep.keeps.level _ h.root_lt] at this
        omega
      obtain ⟨t', N, hinv, hkeeps, hlost'', hcontent', hfuel'⟩ :=
        ih _ hmeasure hstep.inv hlost' (by omega) hf' rfl
      refine ⟨t', max N (t.steps k) + 1, hinv, hstep.keeps.trans hkeeps, fun x => ?_,
        fun key v => (hcontent' key v).trans (hcontent key v), fun fuel hfuel => ?_⟩
      · rw [hlost'', hstep.lost]
        constructor
        · rintro ⟨⟨hx, hne⟩ | ⟨_, _, heq⟩, hxc⟩
          · exact ⟨hx, fun hxc => hne (hxc ▸ rfl)⟩
          · exact absurd (congrArg (fun p => p.2.1) (Option.some.inj heq)).symm hxc
        · rintro ⟨hx, hne⟩
          exact ⟨.inl ⟨hx, fun heq => hne (Ptr.page.inj heq).symm⟩, (hx.1.trans_le hnew).ne⟩
      · obtain ⟨fuel, rfl⟩ := Nat.exists_eq_add_of_le' (Nat.le_trans (Nat.le_add_left 1 _) hfuel)
        have hN : N ≤ fuel := (le_max_left _ _).trans (Nat.le_of_succ_le_succ hfuel)
        have hsteps : t.steps k ≤ fuel := (le_max_right _ _).trans (Nat.le_of_succ_le_succ hfuel)
        rw [hcall fuel hsteps, insertPending, hp]
        exact hfuel' fuel hN

/-! ## `btree_insert` and `btree_search` -/

variable {m : ℕ → Option V} {v : V}

/-- **`btree_insert` does what is asked of the map**, and leaves no page that is not
known to the level above. -/
theorem Inv.btreeInsert (h : Inv t) (hlost : ∀ c, ¬ Lost t c) (hrep : Represents t m)
    (hv : ∀ k, m k = some v → k = key) {le : LogEntryHelper V} {old : Option V}
    (hnew : le.newVal = .value v) (hold : le.oldVal = .ofOption old) :
    ∃ t' le' N, Inv t' ∧ (∀ c, ¬ Lost t' c) ∧ Represents t' (putMap m key v old).1
      ∧ le'.oldVal = .ofOption (putMap m key v old).2
      ∧ ∀ fuel ≥ N, btreeInsert key fuel t le = some (t', le') := by
  obtain ⟨b, hb, hbl, hcov, hway⟩ := h.exists_way key (Nat.zero_le _)
  obtain ⟨r, hr, ⟨le', hle', hold'⟩, hstep, hrep'⟩ := h.lockedStore_leaf hrep hb hbl hcov hv hold
  have hcall : ∀ fuel, t.steps key ≤ fuel → FastFair.btreeInsert key (fuel + 1) t le
      = (insertPending (FastFair.insertInternal (fuel + 1)) r).map (fun t' => (t', le')) := by
    intro fuel hfuel
    obtain ⟨a, ha, hdesc, hal, hak⟩ := hway (fuel + 1) (by omega)
    rw [← h.descend_eq h.root_lt (h.root_fence ▸ Nat.zero_le key)] at hdesc
    have hstore := h.store_eq (FastFair.insertInternal (fuel + 1)) (.value v) (some le) hb hcov ha
      (hal.trans hbl.symm) hak ((t.lt_steps key).trans_le (hfuel.trans (Nat.le_succ fuel))) hr
    unfold FastFair.btreeInsert
    rw [hdesc]
    simp only [Option.bind_eq_bind, Option.bind_some]
    rw [hnew, hstore, hle']
    cases insertPending (FastFair.insertInternal (fuel + 1)) r <;> rfl
  cases hp : r.pending with
  | none =>
    refine ⟨r.tree, le', t.steps key + 1, hstep.inv, fun c hc => ?_, hrep', hold',
      fun fuel hfuel => ?_⟩
    · rw [hstep.lost, hp] at hc
      rcases hc with ⟨hc, -⟩ | ⟨_, _, heq⟩
      · exact hlost c hc
      · exact nomatch heq
    · obtain ⟨fuel, rfl⟩ := Nat.exists_eq_add_of_le' (Nat.le_trans (Nat.le_add_left 1 _) hfuel)
      rw [hcall fuel (by omega), insertPending, hp]
      rfl
  | some next =>
    obtain ⟨k, c, level⟩ := next
    rw [hp] at hstep
    obtain ⟨-, -, hcl, hl, hf⟩ := hstep.pending _ _ _ rfl
    have hc : Lost r.tree c := (hstep.lost c).mpr (.inr ⟨_, _, rfl⟩)
    obtain ⟨t', N, hinv, -, hlost', hcontent, hfuel'⟩ :=
      hstep.inv.insertInternal hc (show r.tree.level c + 1 = level by omega) hf
    refine ⟨t', le', max N (t.steps key) + 1, hinv, fun x hx => ?_, hrep'.congr hcontent, hold',
      fun fuel hfuel => ?_⟩
    · rw [hlost', hstep.lost] at hx
      obtain ⟨⟨hx, -⟩ | ⟨_, _, heq⟩, hxc⟩ := hx
      · exact hlost x hx
      · exact absurd (congrArg (fun p => p.2.1) (Option.some.inj heq)).symm hxc
    · obtain ⟨fuel, rfl⟩ := Nat.exists_eq_add_of_le' (Nat.le_trans (Nat.le_add_left 1 _) hfuel)
      have hN : N ≤ fuel + 1 := (le_max_left _ _).trans ((Nat.le_succ _).trans hfuel)
      have hsteps : t.steps key ≤ fuel := (le_max_right _ _).trans (Nat.le_of_succ_le_succ hfuel)
      rw [hcall fuel hsteps, insertPending, hp]
      exact congrArg (Option.map _) (hfuel' (fuel + 1) hN)

/-- **`linear_search` of a leaf** answers what the map says, or leads to the right. -/
theorem Chain.searchPage_leaf (h : Chain t) (hrep : Represents t m) (ha : a < t.fresh)
    (hl : t.level a = 0) (hle : t.fence a ≤ key) :
    searchPage t a key = some (.ofOption (m key))
      ∨ ∃ b < t.fresh, (t.pages a).siblingPtr = .page b ∧ searchPage t a key = some (.page b)
        ∧ t.level b = t.level a ∧ t.fence a < t.fence b ∧ t.fence b ≤ key := by
  have hok := h.page a ha
  have hleft := (hok.leaf hl).1
  by_cases hfound : ∃ e ∈ (t.pages a).entries, e.key = key
  · left
    obtain ⟨e, he, hk⟩ := hfound
    obtain ⟨w, hw⟩ := h.leaf_ptr ha hl he
    obtain ⟨i, hi, rfl⟩ := List.getElem_of_mem he
    have hcov := h.covers_of_mem ha hl he
    rw [hk] at hcov
    have hm : m key = some w := by
      rw [hrep.mem_entries h ha hl hcov, ← hk, ← hw]
      exact he
    rw [← hok.holds.records i hi] at hk hw
    rw [searchPage_eq_leaf hleft (hok.holds.returns_leafSearch true t.fence hi hk 0), hw, hm]
    rfl
  · have hkey : ∀ i < (t.pages a).entries.length, ((t.pages a).records i).key ≠ key := by
      intro i hi hk
      rw [hok.holds.records i hi] at hk
      exact hfound ⟨_, List.getElem_mem hi, hk⟩
    have hsearch := searchPage_eq_leaf hleft
      (hok.holds.returns_leafSearch_sibling true t.fence hkey 0)
    rcases h.siblingFor_cases ha hle with ⟨hsib, hcov⟩ | ⟨b, hb, hp, hsib, hbl, hf, hbk⟩
    · left
      have hm : m key = none := by
        by_contra hne
        obtain ⟨w, hw⟩ := Option.ne_none_iff_exists'.mp hne
        exact hfound ⟨_, (hrep.mem_entries h ha hl hcov w).mp hw, rfl⟩
      rw [hsearch, hsib, hm]
      rfl
    · right
      rw [hsib] at hsearch
      exact ⟨b, hb, hp, hsearch, hbl, hf, hbk⟩

omit [DecidableEq V] in
/-- A value is no sibling. -/
theorem Chain.siblingPtr_eq (h : Chain t) (ha : a < t.fresh) {o : Option V}
    (heq : .ofOption o = (t.pages a).siblingPtr) : o = none := by
  cases o with
  | none => rfl
  | some v =>
    rcases (h.page a ha).sibling with hnull | ⟨b, -, hp, -⟩
    · exact nomatch heq.trans hnull
    · exact nomatch heq.trans hp

/-- **The chain of leaves** leads to what the map says. -/
theorem Chain.searchLeaf (h : Chain t) (hrep : Represents t m) (ha : a < t.fresh)
    (hl : t.level a = 0) (hle : t.fence a ≤ key) {fuel : ℕ} (hfuel : key - t.fence a < fuel) :
    searchLeaf t key fuel a = some (.ofOption (m key)) := by
  induction fuel generalizing a with
  | zero => exact absurd hfuel (Nat.not_lt_zero _)
  | succ fuel ih =>
    unfold FastFair.searchLeaf
    rcases h.searchPage_leaf hrep ha hl hle with hsearch | ⟨b, hb, hp, hsearch, hbl, hf, hbk⟩
    · rw [hsearch]
      show (if _ = _ then _ else _) = _
      by_cases heq : Ptr.ofOption (m key) = (t.pages a).siblingPtr
      · rw [if_pos heq, h.siblingPtr_eq ha heq]
        rfl
      · rw [if_neg heq]
    · rw [hsearch, hp]
      show (if _ = _ then _ else _) = _
      rw [if_pos rfl]
      exact ih hb (hbl.trans hl) hbk (by omega)

/-- **`btree_search` finds what the map says.** -/
theorem Inv.btreeSearch (h : Inv t) (hrep : Represents t m) (key : ℕ) {fuel : ℕ}
    (hfuel : t.steps key ≤ fuel) : btreeSearch t key fuel = some (.ofOption (m key)) := by
  obtain ⟨-, -, -, -, hway⟩ := h.exists_way key (Nat.zero_le _)
  obtain ⟨a, ha, hdesc, hal, hak⟩ := hway fuel hfuel
  rw [← h.descend_eq h.root_lt (h.root_fence ▸ Nat.zero_le key)] at hdesc
  unfold FastFair.btreeSearch
  rw [hdesc]
  have hlt := (t.lt_steps key).trans_le hfuel
  exact h.searchLeaf hrep ha hal hak ((Nat.sub_le _ _).trans_lt hlt)

end Descent

/-! ## Whole runs -/

/-- A call of `btree_insert`. `old` is the value a cleaner has moved. -/
structure Call (V : Type) where
  key : ℕ
  new : V
  old : Option V := none

/-- The helper a call is made with. -/
def Call.helper (c : Call V) : LogEntryHelper V where
  newVal := .value c.new
  oldVal := .ofOption c.old

variable [DecidableEq V]

/-- Calls of `btree_insert` one after the other: the tree, and what the helpers tell. -/
def runCalls (fuel : ℕ) : List (Call V) → Btree V → Option (Btree V × List (Ptr V))
  | [], t => some (t, [])
  | c :: calls, t => do
    let (t', le) ← btreeInsert c.key fuel t c.helper
    let (t'', olds) ← runCalls fuel calls t'
    some (t'', le.oldVal :: olds)

/-- The same calls on the map. -/
def mapCalls : List (Call V) → (ℕ → Option V) → (ℕ → Option V) × List (Option V)
  | [], m => (m, [])
  | c :: calls, m =>
    let r := putMap m c.key c.new c.old
    let rest := mapCalls calls r.1
    (rest.1, r.2 :: rest.2)

/-- **A value is put only for its key**: when a call is made, no other key has its value. -/
def Owned : List (Call V) → (ℕ → Option V) → Prop
  | [], _ => True
  | c :: calls, m =>
    (∀ k, m k = some c.new → k = c.key) ∧ Owned calls (putMap m c.key c.new c.old).1

/-- A run of calls from a tree that is as it should be. -/
theorem Inv.runCalls {t : Btree V} (h : Inv t) (hlost : ∀ c, ¬ Lost t c) {m : ℕ → Option V}
    (hrep : Represents t m) {calls : List (Call V)} (howned : Owned calls m) :
    ∃ t' N, Inv t' ∧ (∀ c, ¬ Lost t' c) ∧ Represents t' (mapCalls calls m).1
      ∧ ∀ fuel ≥ N, runCalls fuel calls t
        = some (t', (mapCalls calls m).2.map Ptr.ofOption) := by
  induction calls generalizing t m with
  | nil => exact ⟨t, 0, h, hlost, hrep, fun _ _ => rfl⟩
  | cons c calls ih =>
    obtain ⟨hv, howned⟩ := howned
    obtain ⟨t₁, le, N₁, hinv, hlost₁, hrep₁, hold, hfuel₁⟩ :=
      h.btreeInsert hlost hrep hv (show c.helper.newVal = .value c.new from rfl) rfl
    obtain ⟨t₂, N₂, hinv₂, hlost₂, hrep₂, hfuel₂⟩ := ih hinv hlost₁ hrep₁ howned
    refine ⟨t₂, max N₁ N₂, hinv₂, hlost₂, hrep₂, fun fuel hfuel => ?_⟩
    unfold FastFair.runCalls
    rw [hfuel₁ fuel ((le_max_left _ _).trans hfuel)]
    simp only [Option.bind_eq_bind, Option.bind_some]
    rw [hfuel₂ fuel ((le_max_right _ _).trans hfuel), hold]
    rfl

/-! ## The tree from its start -/

omit [DecidableEq V] in
theorem inv_new : Inv (Btree.new : Btree V) where
  page a _ := by
    have hholds : Holds (({} : Page V)) [] := holds_new 0
    have hentries : ({} : Page V).entries = [] := rfl
    refine ⟨hholds, rfl, rfl, .inl rfl, fun _ => ⟨rfl, fun e he => ?_⟩, fun n hn => nomatch hn⟩
    rw [show ((Btree.new : Btree V).pages a).entries = [] from hentries] at he
    exact nomatch he
  fence_inj a ha b hb _ _ := by
    have ha' : a < 1 := ha
    have hb' : b < 1 := hb
    omega
  next a _ b _ _ hf := absurd hf (lt_irrefl 0)
  root_lt := Nat.zero_lt_one
  root_fence := rfl
  root_top a ha hne := by
    have ha' : a < 1 := ha
    exact absurd (Nat.lt_one_iff.mp ha') hne

omit [DecidableEq V] in
theorem represents_new : Represents (Btree.new : Btree V) (fun _ => none) := by
  intro k v
  constructor
  · exact fun h => nomatch h
  · rintro ⟨a, -, -, hmem⟩
    exact nomatch hmem

omit [DecidableEq V] in
theorem not_lost_new (c : ℕ) : ¬ Lost (Btree.new : Btree V) c := by
  rintro ⟨hc, hne, -⟩
  have hc' : c < 1 := hc
  exact hne (Nat.lt_one_iff.mp hc')

/-- **The FAST_FAIR tree is a map.** Whatever is put into it, by writers and cleaners
in any order, all calls return and tell what the calls on a map would, every search
returns what the map has, and every page but the root has its entry in the level
above. A call puts only a value that no other key has. -/
theorem btree_refines_map {calls : List (Call V)} (howned : Owned calls (fun _ => none)) :
    ∃ t N, (∀ fuel ≥ N, runCalls fuel calls Btree.new
        = some (t, (mapCalls calls (fun _ => none)).2.map Ptr.ofOption))
      ∧ (∀ key fuel, t.steps key ≤ fuel →
        btreeSearch t key fuel = some (.ofOption ((mapCalls calls (fun _ => none)).1 key)))
      ∧ ∀ c < t.fresh, c ≠ t.root → Linked t c := by
  obtain ⟨t, N, hinv, hlost, hrep, hfuel⟩ := inv_new.runCalls not_lost_new represents_new howned
  refine ⟨t, N, hfuel, fun key fuel hk => hinv.btreeSearch hrep key hk, fun c hc hne => ?_⟩
  by_contra hnot
  exact hlost c ⟨hc, hne, hnot⟩

/-- What a put makes of the map. -/
theorem putMap_eq_some {m : ℕ → Option V} {c : Call V} {k : ℕ} {v : V}
    (h : (putMap m c.key c.new c.old).1 k = some v) :
    m k = some v ∨ k = c.key ∧ v = c.new := by
  have hcases : (putMap m c.key c.new c.old).1 = m
      ∨ (putMap m c.key c.new c.old).1 = Function.update m c.key (some c.new) := by
    unfold putMap
    split
    · split
      · exact .inr rfl
      · exact .inl rfl
    · exact .inr rfl
    · exact .inr rfl
  rcases hcases with heq | heq
  · exact .inl (heq ▸ h)
  · rw [heq, Function.update_apply] at h
    split at h
    · exact .inr ⟨‹_›, (Option.some.inj h).symm⟩
    · exact .inl h

/-- Calls whose values tell their keys put no value for two keys. -/
theorem owned_of_keyOf (keyOf : V → ℕ) {calls : List (Call V)} {m : ℕ → Option V}
    (hm : ∀ k v, m k = some v → keyOf v = k) (hcalls : ∀ c ∈ calls, keyOf c.new = c.key) :
    Owned calls m := by
  induction calls generalizing m with
  | nil => trivial
  | cons c calls ih =>
    have hc := hcalls c List.mem_cons_self
    refine ⟨fun k hk => (hm k c.new hk).symm.trans hc,
      ih (fun k v hk => ?_) (fun c' hc' => hcalls c' (List.mem_cons_of_mem _ hc'))⟩
    rcases putMap_eq_some hk with hk | ⟨rfl, rfl⟩
    · exact hm k v hk
    · exact hc

/-- Sixty-four keys are put, in an order that is not theirs, one of them is put again and a
cleaner comes late with its first value. -/
def manyCalls : List (Call ℕ) :=
  (List.range 64).map (fun i => ⟨i * 37 % 64, 64 + i * 37 % 64, none⟩)
    ++ [⟨5, 133, none⟩, ⟨5, 197, some 69⟩]

theorem owned_manyCalls : Owned manyCalls (fun _ => none) :=
  owned_of_keyOf (fun v => v % 64) (fun _ _ hk => nomatch hk) (by decide +kernel)

/-- They make four leaves, under a root that is new. -/
example : (runCalls 100 manyCalls Btree.new).map (fun r => (r.1.root, r.1.fresh))
    = some (2, 5) := by
  decide +kernel

/-- The cleaner is told its own value, so it drops its copy, and the writer's stays. -/
theorem btree_refines_map_manyCalls :
    Owned manyCalls (fun _ => none) ∧ ∃ t N, (∀ fuel ≥ N, runCalls fuel manyCalls Btree.new
        = some (t, List.replicate 64 .null ++ [.value 69, .value 197]))
      ∧ (∀ fuel, t.steps 5 ≤ fuel → btreeSearch t 5 fuel = some (.value 133))
      ∧ ∀ c < t.fresh, c ≠ t.root → Linked t c := by
  obtain ⟨t, N, hrun, hsearch, hlinked⟩ := btree_refines_map owned_manyCalls
  have holds : (mapCalls manyCalls (fun _ => none)).2.map Ptr.ofOption
      = List.replicate 64 .null ++ [.value 69, .value 197] := by decide +kernel
  have hfive : (mapCalls manyCalls (fun _ => none)).1 5 = some 133 := by decide +kernel
  refine ⟨owned_manyCalls, t, N, holds ▸ hrun, fun fuel hfuel => ?_, hlinked⟩
  rw [hsearch 5 fuel hfuel, hfive]
  rfl

end FastFair
