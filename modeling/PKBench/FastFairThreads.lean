import PKBench.FastFairStore
import PKBench.Machine

/-!
# Threads on the FAST_FAIR tree

Writers, cleaners and readers work on one tree at the same time. A writer holds the
lock of one page while it stores an entry, and no lock on its way there; a page that
was split is made known to the level above by a store of its own, and until then other
threads find it by the sibling pointer. So a thread may come to a page that has been
split since it was sent there, and the root it started from may no longer be the root.

The machine below interleaves the threads page by page: one step is the search of one
page, or one locked section. What is kept is the invariant of the tree and, for each
thread, that it is not right of its key (`Sys.Ok`). The entries that still have to go
into the level above are in the hands of the threads: a page is lost exactly if some
thread is about to link it.

The map of the tree changes with the locked section on the leaf, and a reader gets its
answer from the search of a leaf, both one step. One thing is not atomic:
`btree_search` compares the result of the search with `sibling_ptr`, which it reads
afterwards. If the leaf is split in between, the pointer to the old sibling is taken for
a value.
-/

open Loads

namespace FastFair

variable {V : Type}

/-! ## States -/

/-- What a call of `btree_insert` comes back with: the call, the helper, and what the
map has answered. -/
structure Return (V : Type) where
  call : Call V
  helper : Option (LogEntryHelper V)
  want : Option V

/-- A page that is to be linked: its fence key, its address and the level for it. -/
structure Link where
  key : ℕ
  page : ℕ
  level : ℕ

/-- **A thread**, between two steps. -/
inductive Thread (V : Type) where
  | idle
  /-- `btree_insert`: on the way down, and at `store`. -/
  | insertDown (c : Call V) (a : ℕ)
  | insertStore (c : Call V) (a : ℕ)
  /-- `btree_insert_internal`: at its start, on the way down, and at `store`. -/
  | linkStart (l : Link) (ret : Return V)
  | linkDown (l : Link) (ret : Return V) (a : ℕ)
  | linkStore (l : Link) (ret : Return V) (a : ℕ)
  | inserted (ret : Return V)
  /-- `btree_search`: on the way down, before the search of a leaf, and before the result
  is compared, with what the map had. -/
  | searchDown (key a : ℕ)
  | searchLeaf (key a : ℕ)
  | searchCheck (key a : ℕ) (r : Ptr V) (want : Option V)
  | searched (key : ℕ) (r : Ptr V) (want : Option V)

/-- **The tree, the map it stands for, and the threads**, with the calls in the order in
which they reached the leaves. -/
structure Sys (V : Type) where
  tree : Btree V
  map : ℕ → Option V
  thread : ℕ → Thread V
  history : List (Call V) := []

/-- An empty tree. -/
def Sys.init : Sys V where
  tree := Btree.new
  map := fun _ => none
  thread := fun _ => .idle

/-! ## Steps -/

/-- The call a thread has not yet made visible. -/
def Thread.call? : Thread V → Option (Call V)
  | .insertDown c _ => some c
  | .insertStore c _ => some c
  | _ => none

/-- The page a thread is about to link. -/
def Thread.link? : Thread V → Option Link
  | .linkStart l _ => some l
  | .linkDown l _ _ => some l
  | .linkStore l _ _ => some l
  | _ => none

/-- A thread that is done, or has not begun. -/
def Thread.resting : Thread V → Bool
  | .idle => true
  | .inserted _ => true
  | .searched _ _ _ => true
  | _ => false

/-- What comes after a locked section. -/
def afterStore (r : Stored V) (ret : Return V) : Thread V :=
  match r.pending with
  | none => .inserted ret
  | some (k, c, n) => .linkStart ⟨k, c, n⟩ ret

section Machine

variable [DecidableEq V]

/-- **The next step of a thread**, with the tree and the map. -/
def advance (t : Btree V) (m : ℕ → Option V) :
    Thread V → Option (Btree V × (ℕ → Option V) × Thread V)
  | .idle => none
  | .inserted _ => none
  | .searched _ _ _ => none
  | .insertDown c a =>
    if (t.pages a).leftmostPtr = .null then some (t, m, .insertStore c a)
    else
      match searchPage t a c.key with
      | some (.page b) => some (t, m, .insertDown c b)
      | _ => none
  | .insertStore c a =>
    if (t.pages a).isDeleted then some (t, m, .insertDown c t.root)
    else
      match siblingFor t.fence c.key (t.pages a).siblingPtr with
      | .page b => some (t, m, .insertStore c b)
      | _ => (lockedStore t a c.key (.value c.new) (some c.helper)).map (fun r =>
        (r.tree, (putMap m c.key c.new c.old).1,
          afterStore r ⟨c, r.helper, (putMap m c.key c.new c.old).2⟩))
  | .linkStart l ret =>
    if t.level t.root < l.level then some (t, m, .inserted ret)
    else some (t, m, .linkDown l ret t.root)
  | .linkDown l ret a =>
    if l.level < t.level a then
      match searchPage t a l.key with
      | some (.page b) => some (t, m, .linkDown l ret b)
      | _ => none
    else some (t, m, .linkStore l ret a)
  | .linkStore l ret a =>
    if (t.pages a).isDeleted then some (t, m, .linkStart l ret)
    else
      match siblingFor t.fence l.key (t.pages a).siblingPtr with
      | .page b => some (t, m, .linkStore l ret b)
      | _ => (lockedStore t a l.key (.page l.page) none).map (fun r =>
        (r.tree, m, afterStore r ret))
  | .searchDown key a =>
    if (t.pages a).leftmostPtr = .null then some (t, m, .searchLeaf key a)
    else
      match searchPage t a key with
      | some (.page b) => some (t, m, .searchDown key b)
      | _ => none
  | .searchLeaf key a =>
    (searchPage t a key).map (fun r => (t, m, .searchCheck key a r (m key)))
  | .searchCheck key a r want =>
    if r = (t.pages a).siblingPtr then
      match r with
      | .page b => some (t, m, .searchLeaf key b)
      | _ => some (t, m, .searched key .null want)
    else some (t, m, .searched key r want)

omit [DecidableEq V] in
/-- The call that a step of a thread makes visible. -/
def visible (th th' : Thread V) : Option (Call V) :=
  match th'.call? with
  | none => th.call?
  | some _ => none

/-- What can happen: a thread starts, or makes a step. -/
inductive Event (V : Type) where
  | insert (i : ℕ) (c : Call V)
  | search (i key : ℕ)
  | move (i : ℕ)

/-- **One step.** A thread that is done, or has not begun, may start. -/
def step (S : Sys V) : Event V → Option (Sys V)
  | .insert i c =>
    if (S.thread i).resting then
      some { S with thread := Function.update S.thread i (.insertDown c S.tree.root) }
    else none
  | .search i key =>
    if (S.thread i).resting then
      some { S with thread := Function.update S.thread i (.searchDown key S.tree.root) }
    else none
  | .move i =>
    (advance S.tree S.map (S.thread i)).map (fun r =>
      { tree := r.1, map := r.2.1, thread := Function.update S.thread i r.2.2
        history := S.history ++ (visible (S.thread i) r.2.2).toList })

/-- Any sequence of steps. -/
def run (S : Sys V) (es : List (Event V)) : Option (Sys V) := Machine.run step S es

end Machine

/-- **A value is put only for its key**: no other key has it, and no other thread is
about to put it for another key. -/
structure Sys.Free (S : Sys V) (c : Call V) : Prop where
  map : ∀ k, S.map k = some c.new → k = c.key
  thread : ∀ j c', (S.thread j).call? = some c' → c'.new = c.new → c'.key = c.key

/-- The calls put only values of their keys. -/
def Sys.Allowed (S : Sys V) : Event V → Prop
  | .insert _ c => S.Free c
  | _ => True

/-! ## What is kept -/

/-- The helper of a call that has been made visible tells what the map has answered. -/
def Return.Ok (ret : Return V) : Prop :=
  ∃ le, ret.helper = some le ∧ le.oldVal = .ofOption ret.want

/-- A page that is to be linked, with its level and its fence key. -/
structure Link.Ok (t : Btree V) (l : Link) : Prop where
  page : l.page < t.fresh
  level : t.level l.page + 1 = l.level
  key : t.fence l.page = l.key

/-- A thread is at a page that is not right of its key. -/
structure At (t : Btree V) (a key : ℕ) : Prop where
  lt : a < t.fresh
  fence_le : t.fence a ≤ key

/-- **What is known of a thread.** -/
def Thread.Ok (t : Btree V) : Thread V → Prop
  | .idle => True
  | .insertDown c a => At t a c.key
  | .insertStore c a => At t a c.key ∧ t.level a = 0
  | .linkStart l ret => l.Ok t ∧ ret.Ok
  | .linkDown l ret a => l.Ok t ∧ ret.Ok ∧ At t a l.key ∧ l.level ≤ t.level a
  | .linkStore l ret a => l.Ok t ∧ ret.Ok ∧ At t a l.key ∧ t.level a = l.level
  | .inserted ret => ret.Ok
  | .searchDown key a => At t a key
  | .searchLeaf key a => At t a key ∧ t.level a = 0
  | .searchCheck key a r want => (At t a key ∧ t.level a = 0)
    ∧ (r = .ofOption want ∨ ∃ b, r = .page b ∧ At t b key ∧ t.level b = 0)
  | .searched _ r want => r = .ofOption want ∨ ∃ b, r = .page b

variable {t t' : Btree V}

theorem At.mono (hk : Keeps t t') {a key : ℕ} (h : At t a key) : At t' a key :=
  ⟨h.lt.trans_le hk.fresh_le, (hk.fence a h.lt).trans_le h.fence_le⟩

theorem At.level (hk : Keeps t t') {a key : ℕ} (h : At t a key) : t'.level a = t.level a :=
  hk.level a h.lt

theorem Link.Ok.mono (hk : Keeps t t') {l : Link} (h : l.Ok t) : l.Ok t' where
  page := h.page.trans_le hk.fresh_le
  level := by rw [hk.level _ h.page]; exact h.level
  key := (hk.fence _ h.page).trans h.key

theorem Thread.Ok.mono (hk : Keeps t t') {th : Thread V} (h : th.Ok t) : th.Ok t' := by
  cases th with
  | idle => trivial
  | insertDown c a => exact At.mono hk h
  | insertStore c a => exact ⟨h.1.mono hk, (h.1.level hk).trans h.2⟩
  | linkStart l ret => exact ⟨h.1.mono hk, h.2⟩
  | linkDown l ret a =>
    exact ⟨h.1.mono hk, h.2.1, h.2.2.1.mono hk, (h.2.2.1.level hk).symm ▸ h.2.2.2⟩
  | linkStore l ret a =>
    exact ⟨h.1.mono hk, h.2.1, h.2.2.1.mono hk, (h.2.2.1.level hk).trans h.2.2.2⟩
  | inserted ret => exact h
  | searchDown key a => exact At.mono hk h
  | searchLeaf key a => exact ⟨h.1.mono hk, (h.1.level hk).trans h.2⟩
  | searchCheck key a r want =>
    refine ⟨⟨h.1.1.mono hk, (h.1.1.level hk).trans h.1.2⟩, h.2.imp_right ?_⟩
    rintro ⟨b, hb, hat, hl⟩
    exact ⟨b, hb, hat.mono hk, (hat.level hk).trans hl⟩
  | searched key r want => exact h

section Effects

variable [DecidableEq V]

/-- **The invariant of the machine.** -/
structure Sys.Ok (S : Sys V) : Prop where
  inv : Inv S.tree
  represents : Represents S.tree S.map
  history : S.map = (mapCalls S.history (fun _ => none)).1
  thread : ∀ i, (S.thread i).Ok S.tree
  lost : ∀ x, Lost S.tree x ↔ ∃ i l, (S.thread i).link? = some l ∧ l.page = x
  once : ∀ i j l l', (S.thread i).link? = some l → (S.thread j).link? = some l' →
    l.page = l'.page → i = j
  free : ∀ i c, (S.thread i).call? = some c → S.Free c

/-- **What a step of a thread may do.** -/
structure Effect (t t' : Btree V) (m m' : ℕ → Option V) (th th' : Thread V) : Prop where
  inv : Inv t'
  keeps : Keeps t t'
  represents : Represents t' m'
  thread : th'.Ok t'
  lost : ∀ x, Lost t' x ↔ (Lost t x ∧ ∀ l, th.link? = some l → l.page ≠ x)
    ∨ ∃ l, th'.link? = some l ∧ l.page = x
  link : ∀ l, th'.link? = some l → th.link? = some l ∨ t.fresh ≤ l.page
  call : ∀ c, th'.call? = some c → th.call? = some c
  map : m' = (mapCalls (visible th th').toList m).1

theorem mapCalls_append (l l' : List (Call V)) (m : ℕ → Option V) :
    (mapCalls (l ++ l') m).1 = (mapCalls l' (mapCalls l m).1).1 := by
  induction l generalizing m with
  | nil => rfl
  | cons c l ih => exact ih _

omit [DecidableEq V] in
theorem call?_of_visible {th th' : Thread V} {c : Call V} (h : visible th th' = some c) :
    th.call? = some c := by
  unfold visible at h
  split at h
  · exact h
  · exact nomatch h

/-- What a step adds to the map is of the call of the thread. -/
theorem Effect.map_eq_some {t t' : Btree V} {m m' : ℕ → Option V} {th th' : Thread V}
    (he : Effect t t' m m' th th') {k : ℕ} {v : V} (hk : m' k = some v) :
    m k = some v ∨ ∃ c, th.call? = some c ∧ k = c.key ∧ v = c.new := by
  rw [he.map] at hk
  cases hvis : visible th th' with
  | none =>
    rw [hvis] at hk
    exact .inl hk
  | some c =>
    rw [hvis] at hk
    exact (putMap_eq_some hk).imp_right (fun hnew => ⟨c, call?_of_visible hvis, hnew⟩)

/-- A step takes up no call. -/
theorem call_of_move {S S' : Sys V} {i : ℕ}
    (he : Effect S.tree S'.tree S.map S'.map (S.thread i) (S'.thread i))
    (hother : ∀ j, j ≠ i → S'.thread j = S.thread j) {j : ℕ} {c : Call V}
    (hj : (S'.thread j).call? = some c) : (S.thread j).call? = some c := by
  by_cases hji : j = i
  · subst hji
    exact he.call c hj
  · rwa [hother j hji] at hj

/-- **A step of a thread keeps the invariant of the machine.** -/
theorem Sys.Ok.move {S S' : Sys V} (h : S.Ok) {i : ℕ}
    (he : Effect S.tree S'.tree S.map S'.map (S.thread i) (S'.thread i))
    (hother : ∀ j, j ≠ i → S'.thread j = S.thread j)
    (hhistory : S'.history = S.history ++ (visible (S.thread i) (S'.thread i)).toList) :
    S'.Ok := by
  refine ⟨he.inv, he.represents, ?_, fun j => ?_, fun x => ?_, fun j k l l' hj hk hpage => ?_,
    fun j c hj => ⟨fun k hk => ?_, fun k c' hk hnew => ?_⟩⟩
  · rw [hhistory, mapCalls_append, ← h.history]
    exact he.map
  · by_cases hji : j = i
    · rw [hji]
      exact he.thread
    · rw [hother j hji]
      exact (h.thread j).mono he.keeps
  · rw [he.lost]
    constructor
    · rintro (⟨hlost, hnot⟩ | ⟨l, hl, rfl⟩)
      · obtain ⟨j, l, hj, rfl⟩ := (h.lost x).mp hlost
        have hji : j ≠ i := by
          rintro rfl
          exact hnot l hj rfl
        exact ⟨j, l, (hother j hji).symm ▸ hj, rfl⟩
      · exact ⟨i, l, hl, rfl⟩
    · rintro ⟨j, l, hj, rfl⟩
      by_cases hji : j = i
      · subst hji
        exact .inr ⟨l, hj, rfl⟩
      · rw [hother j hji] at hj
        refine .inl ⟨(h.lost _).mpr ⟨j, l, hj, rfl⟩, fun l' hl' hpage => ?_⟩
        exact hji (h.once j i l l' hj hl' hpage.symm)
  · -- a page that a thread takes up is a new one
    have hold : ∀ {j l}, (S.thread j).link? = some l → l.page < S.tree.fresh :=
      fun hj => ((h.lost _).mpr ⟨_, _, hj, rfl⟩).1
    by_cases hji : j = i
    · by_cases hki : k = i
      · rw [hji, hki]
      · subst hji
        rw [hother k hki] at hk
        rcases he.link l hj with hl | hl
        · exact h.once j k l l' hl hk hpage
        · exact absurd (hold hk) (not_lt.mpr (hpage ▸ hl))
    · rw [hother j hji] at hj
      by_cases hki : k = i
      · subst hki
        rcases he.link l' hk with hl | hl
        · exact h.once j k l l' hj hl hpage
        · exact absurd (hold hj) (not_lt.mpr (hpage ▸ hl))
      · rw [hother k hki] at hk
        exact h.once j k l l' hj hk hpage
  · have hc := call_of_move he hother hj
    rcases he.map_eq_some hk with hk | ⟨d, hd, rfl, hnew⟩
    · exact (h.free j c hc).map k hk
    · exact (h.free j c hc).thread i d hd hnew.symm
  · exact (h.free j c (call_of_move he hother hj)).thread k c' (call_of_move he hother hk) hnew

end Effects

/-! ## What is left to do -/

/-- How far a page is from the page of a key at the lowest level: every step of a search
goes down a level, or comes closer to the key. -/
def Btree.distance (t : Btree V) (a key : ℕ) : ℕ :=
  t.level a * (key + 1) + (key - t.fence a)

/-- Whether a thread may still store something. -/
def Thread.writes (th : Thread V) : ℕ :=
  if th.call?.isSome || th.link?.isSome then 1 else 0

/-- The levels a thread may still store something at. -/
def Thread.levels (top : ℕ) (th : Thread V) : ℕ :=
  match th.call?, th.link? with
  | some _, _ => top + 1
  | none, some l => top - l.level
  | none, none => 0

/-- The steps of a thread until it stores something, or is done. -/
def Thread.walk (t : Btree V) : Thread V → ℕ
  | .idle => 0
  | .insertDown c a => t.distance a c.key + 2
  | .insertStore c a => (c.key - t.fence a) + 1
  | .linkStart l _ => t.distance t.root l.key + 3
  | .linkDown l _ a => t.distance a l.key + 2
  | .linkStore l _ a => (l.key - t.fence a) + 1
  | .inserted _ => 0
  | .searchDown key a => 2 * t.distance a key + 3
  | .searchLeaf key a => 2 * (key - t.fence a) + 2
  | .searchCheck key a _ _ => 2 * (key - t.fence a) + 1
  | .searched _ _ _ => 0

/-- **A step of a thread leaves less to do**: it is done with the tree, or the level above
is next and the root is the one it was, or there is a step less to the next store. -/
inductive Progress (t : Btree V) : Btree V → Thread V → Thread V → Prop
  | done {t' : Btree V} {th th' : Thread V} (hwrites : th'.writes < th.writes) :
      Progress t t' th th'
  | up {t' : Btree V} {th th' : Thread V} (hwrites : th'.writes = th.writes)
      (htop : t'.level t'.root = t.level t.root)
      (hlevels : th'.levels (t.level t.root) < th.levels (t.level t.root)) :
      Progress t t' th th'
  | walk {th th' : Thread V} (hlink : th'.link? = th.link?) (hcall : th'.call? = th.call?)
      (hwalk : th'.walk t < th.walk t) : Progress t t th th'

/-! ## The steps of a thread -/

section Steps

variable [DecidableEq V] {m : ℕ → Option V} {th th' : Thread V}

/-- A step that changes nothing but where the thread is. -/
theorem Effect.quiet (hinv : Inv t) (hrep : Represents t m)
    (hlost : ∀ l, th.link? = some l → Lost t l.page) (hok : th'.Ok t)
    (hlink : th'.link? = th.link?) (hcall : th'.call? = th.call?) : Effect t t m m th th' where
  inv := hinv
  keeps := Keeps.refl t
  represents := hrep
  thread := hok
  lost x := by
    rw [hlink]
    constructor
    · intro hx
      by_cases hl : ∃ l, th.link? = some l ∧ l.page = x
      · exact .inr hl
      · exact .inl ⟨hx, fun l hth hpage => hl ⟨l, hth, hpage⟩⟩
    · rintro (⟨hx, -⟩ | ⟨l, hl, rfl⟩)
      · exact hx
      · exact hlost l hl
  link l hl := .inl (hlink ▸ hl)
  call c hc := hcall ▸ hc
  map := by
    have hvis : visible th th' = none := by
      unfold visible
      rw [hcall]
      cases th.call? <;> rfl
    rw [hvis]
    rfl

omit [DecidableEq V] in
theorem link?_afterStore (r : Stored V) (ret : Return V) (l : Link) :
    (afterStore r ret).link? = some l ↔ r.pending = some (l.key, l.page, l.level) := by
  unfold afterStore
  cases hp : r.pending with
  | none => exact ⟨fun h => (nomatch h), fun h => nomatch h⟩
  | some next =>
    obtain ⟨k, c, n⟩ := next
    constructor
    · rintro h
      obtain rfl := Option.some.inj h
      rfl
    · intro h
      obtain ⟨rfl, rfl, rfl⟩ : k = l.key ∧ c = l.page ∧ n = l.level := by simpa using h
      rfl

omit [DecidableEq V] in
theorem call?_afterStore (r : Stored V) (ret : Return V) : (afterStore r ret).call? = none := by
  unfold afterStore
  split <;> rfl

omit [DecidableEq V] in
/-- What is known of a thread after a locked section. -/
theorem StoreStep.afterStore_ok {r : Stored V} {level : ℕ} {right : Ptr V}
    (h : StoreStep t r.tree level right r.pending) {ret : Return V} (hret : ret.Ok) :
    (afterStore r ret).Ok r.tree := by
  unfold afterStore
  cases hp : r.pending with
  | none => exact hret
  | some next =>
    obtain ⟨k, c, n⟩ := next
    obtain ⟨-, hc, hl, hn, hf⟩ := h.pending k c n hp
    exact ⟨⟨hc, by rw [hl, hn], hf⟩, hret⟩

/-- **A locked section** is what a step of the machine may do. -/
theorem StoreStep.effect {r : Stored V} {level : ℕ} {right : Ptr V} {m' : ℕ → Option V}
    (h : StoreStep t r.tree level right r.pending) (hrep : Represents r.tree m')
    {ret : Return V} (hret : ret.Ok)
    (hright : ∀ x, right = .page x ↔ ∃ l, th.link? = some l ∧ l.page = x)
    (hmap : m' = (mapCalls th.call?.toList m).1) :
    Effect t r.tree m m' th (afterStore r ret) where
  inv := h.inv
  keeps := h.keeps
  represents := hrep
  thread := h.afterStore_ok hret
  lost x := by
    rw [h.lost]
    refine or_congr (and_congr_right (fun _ => ?_)) ?_
    · rw [ne_eq, hright]
      exact ⟨fun hno l hl hpage => hno ⟨l, hl, hpage⟩, fun hno ⟨l, hl, hpage⟩ => hno l hl hpage⟩
    · simp only [link?_afterStore]
      constructor
      · rintro ⟨k, n, hp⟩
        exact ⟨⟨k, x, n⟩, hp, rfl⟩
      · rintro ⟨l, hp, rfl⟩
        exact ⟨_, _, hp⟩
  link l hl := .inr (h.pending _ _ _ ((link?_afterStore r ret l).mp hl)).1
  call c hc := nomatch (call?_afterStore r ret).symm.trans hc
  map := by
    have hvis : visible th (afterStore r ret) = th.call? := by
      unfold visible
      rw [call?_afterStore]
    rw [hvis]
    exact hmap

/-- **A thread can make its next step**, it does what it may, and leaves less to do. -/
def Advances (t : Btree V) (m : ℕ → Option V) (th : Thread V) : Prop :=
  ∃ r, advance t m th = some r ∧ Effect t r.1 m r.2.1 th r.2.2 ∧ Progress t r.1 th r.2.2

/-- A step that changes nothing but where the thread is, and brings it closer. -/
theorem advances_quiet (th' : Thread V) (hinv : Inv t) (hrep : Represents t m)
    (hadvance : advance t m th = some (t, m, th'))
    (hlost : ∀ l, th.link? = some l → Lost t l.page) (hok : th'.Ok t)
    (hlink : th'.link? = th.link?) (hcall : th'.call? = th.call?)
    (hwalk : th'.walk t < th.walk t) : Advances t m th :=
  ⟨_, hadvance, .quiet hinv hrep hlost hok hlink hcall, .walk hlink hcall hwalk⟩

variable {a : ℕ}

/-- On the way down from an internal page. -/
theorem Inv.at_searchPage (h : Inv t) {key : ℕ} (hat : At t a key) {level : ℕ}
    (hlevel : level < t.level a) :
    ∃ b, searchPage t a key = some (.page b) ∧ At t b key ∧ level ≤ t.level b
      ∧ t.distance b key < t.distance a key := by
  obtain ⟨n, hn⟩ := Nat.exists_eq_succ_of_ne_zero (Nat.ne_zero_of_lt hlevel)
  obtain ⟨b, hb, hsearch, hbk, hdown⟩ := h.searchPage_internal hat.lt hn hat.fence_le
  refine ⟨b, hsearch, ⟨hb, hbk⟩, ?_, ?_⟩
  · rcases hdown with hbl | ⟨hbl, -⟩ <;> omega
  · unfold Btree.distance
    rcases hdown with hbl | ⟨hbl, hf⟩
    · rw [hn, hbl, Nat.succ_mul]
      omega
    · rw [hn, hbl, Nat.succ_eq_add_one]
      omega

omit [DecidableEq V] in
theorem Inv.at_root (h : Inv t) (key : ℕ) : At t t.root key :=
  ⟨h.root_lt, h.root_fence ▸ Nat.zero_le key⟩

theorem advances_insertDown (hinv : Inv t) (hrep : Represents t m) {c : Call V}
    (hat : At t a c.key) : Advances t m (.insertDown c a) := by
  have hleaf := hinv.leftmost_eq_null_iff hat.lt
  by_cases hl : t.level a = 0
  · refine advances_quiet _ hinv hrep (if_pos (hleaf.mpr hl)) (fun l hl => nomatch hl) ⟨hat, hl⟩
      rfl rfl ?_
    show c.key - t.fence a + 1 < t.level a * (c.key + 1) + (c.key - t.fence a) + 2
    omega
  · obtain ⟨b, hsearch, hb, -, hd⟩ := hinv.at_searchPage hat (Nat.pos_of_ne_zero hl)
    refine advances_quiet (.insertDown c b) hinv hrep ?_ (fun l hl => nomatch hl) hb rfl rfl
      (Nat.add_lt_add_right hd 2)
    simp only [advance]
    rw [if_neg (fun hnull => hl (hleaf.mp hnull)), hsearch]

theorem advances_searchDown (hinv : Inv t) (hrep : Represents t m) {key : ℕ}
    (hat : At t a key) : Advances t m (.searchDown key a) := by
  have hleaf := hinv.leftmost_eq_null_iff hat.lt
  by_cases hl : t.level a = 0
  · refine advances_quiet _ hinv hrep (if_pos (hleaf.mpr hl)) (fun l hl => nomatch hl) ⟨hat, hl⟩
      rfl rfl ?_
    show 2 * (key - t.fence a) + 2 < 2 * (t.level a * (key + 1) + (key - t.fence a)) + 3
    omega
  · obtain ⟨b, hsearch, hb, -, hd⟩ := hinv.at_searchPage hat (Nat.pos_of_ne_zero hl)
    refine advances_quiet (.searchDown key b) hinv hrep ?_ (fun l hl => nomatch hl) hb
      rfl rfl ?_
    · simp only [advance]
      rw [if_neg (fun hnull => hl (hleaf.mp hnull)), hsearch]
    · show 2 * t.distance b key + 3 < 2 * t.distance a key + 3
      omega

theorem advances_linkStart (hinv : Inv t) (hrep : Represents t m) {l : Link} {ret : Return V}
    (hl : l.Ok t) (hret : ret.Ok) (hlost : Lost t l.page) : Advances t m (.linkStart l ret) := by
  have hroot : l.level ≤ t.level t.root := by
    rw [← hl.level]
    exact hinv.root_top _ hlost.1 hlost.2.1
  refine advances_quiet _ hinv hrep (if_neg (not_lt.mpr hroot)) (fun l' hl' => ?_)
    ⟨hl, hret, hinv.at_root _, hroot⟩ rfl rfl (Nat.lt_succ_self _)
  exact Option.some.inj hl' ▸ hlost

theorem advances_linkDown (hinv : Inv t) (hrep : Represents t m) {l : Link} {ret : Return V}
    (hl : l.Ok t) (hret : ret.Ok) (hlost : Lost t l.page) (hat : At t a l.key)
    (hlevel : l.level ≤ t.level a) : Advances t m (.linkDown l ret a) := by
  have hlost' : ∀ l', (Thread.linkDown l ret a).link? = some l' → Lost t l'.page :=
    fun l' hl' => Option.some.inj hl' ▸ hlost
  by_cases hlt : l.level < t.level a
  · obtain ⟨b, hsearch, hb, hbl, hd⟩ := hinv.at_searchPage hat hlt
    refine advances_quiet (.linkDown l ret b) hinv hrep ?_ hlost' ⟨hl, hret, hb, hbl⟩
      rfl rfl (Nat.add_lt_add_right hd 2)
    simp only [advance]
    rw [if_pos hlt, hsearch]
  · refine advances_quiet _ hinv hrep (if_neg hlt) hlost' ⟨hl, hret, hat, by omega⟩ rfl rfl ?_
    show l.key - t.fence a + 1 < t.level a * (l.key + 1) + (l.key - t.fence a) + 2
    omega

omit [DecidableEq V] in
/-- A store ends what a thread does to the tree, or the level above is next. -/
theorem StoreStep.progress {r : Stored V} {level : ℕ} {right : Ptr V}
    (hinv : Inv t) (h : StoreStep t r.tree level right r.pending) {ret : Return V}
    (hwrites : th.writes = 1)
    (hlevels : t.level t.root - level ≤ th.levels (t.level t.root)) :
    Progress t r.tree th (afterStore r ret) := by
  unfold afterStore
  cases hp : r.pending with
  | none => exact .done (hwrites ▸ Nat.zero_lt_one)
  | some next =>
    obtain ⟨k, c, n⟩ := next
    have hsome : r.pending ≠ none := hp ▸ Option.some_ne_none _
    have htop : r.tree.level r.tree.root = t.level t.root := by
      rw [h.root hsome, h.keeps.level _ hinv.root_lt]
    obtain ⟨-, hc, hl, hn, -⟩ := h.pending k c n hp
    have hlt := h.inv.root_top c hc ((h.lost c).mpr (.inr ⟨k, n, hp⟩)).2.1
    refine .up hwrites.symm htop (lt_of_lt_of_le ?_ hlevels)
    show t.level t.root - n < _
    omega

/-- **`store` of a call** goes to the right, or makes the call visible. -/
theorem advances_insertStore (hinv : Inv t) (hrep : Represents t m) {c : Call V}
    (hat : At t a c.key) (hl : t.level a = 0) (hfree : ∀ k, m k = some c.new → k = c.key) :
    Advances t m (.insertStore c a) := by
  have halive : ¬ (t.pages a).isDeleted = true := by
    rw [(hinv.page a hat.lt).alive]
    exact Bool.false_ne_true
  rcases hinv.siblingFor_cases hat.lt hat.fence_le with
    ⟨hsib, hcov⟩ | ⟨b, hb, -, hsib, hbl, hf, hbk⟩
  · obtain ⟨r, hr, ⟨le, hle, hold⟩, hstep, hrep'⟩ :=
      hinv.lockedStore_leaf hrep hat.lt hl hcov hfree
        (show c.helper.oldVal = .ofOption c.old from rfl)
    simp only [Advances, advance]
    rw [if_neg halive, hsib]
    simp only [hr, Option.map_some]
    refine ⟨_, rfl, hstep.effect hrep' ⟨le, hle, hold⟩ (fun x => ?_) rfl,
      hstep.progress hinv rfl ?_⟩
    · exact ⟨fun heq => (nomatch heq), fun ⟨_, hl', _⟩ => nomatch hl'⟩
    · exact (Nat.sub_le _ _).trans (Nat.le_succ _)
  · refine advances_quiet (.insertStore c b) hinv hrep ?_ (fun l hl => nomatch hl)
      ⟨⟨hb, hbk⟩, hbl.trans hl⟩ rfl rfl ?_
    · simp only [advance]
      rw [if_neg halive, hsib]
    · show c.key - t.fence b + 1 < c.key - t.fence a + 1
      omega

/-- **`store` of a page** goes to the right, or links the page. -/
theorem advances_linkStore (hinv : Inv t) (hrep : Represents t m) {l : Link} {ret : Return V}
    (hl : l.Ok t) (hret : ret.Ok) (hlost : Lost t l.page) (hat : At t a l.key)
    (hlevel : t.level a = l.level) : Advances t m (.linkStore l ret a) := by
  have halive : ¬ (t.pages a).isDeleted = true := by
    rw [(hinv.page a hat.lt).alive]
    exact Bool.false_ne_true
  rcases hinv.siblingFor_cases hat.lt hat.fence_le with
    ⟨hsib, hcov⟩ | ⟨b, hb, -, hsib, hbl, hf, hbk⟩
  · have hs : Storable t l.key (.page l.page) (t.level l.page + 1) :=
      ⟨l.page, hl.page, rfl, rfl, hl.key, hlost.2.2⟩
    obtain ⟨r, hr, hstep, hcontent⟩ :=
      hinv.lockedStore_internal hat.lt (hlevel.trans hl.level.symm) hcov hs
    simp only [Advances, advance]
    rw [if_neg halive, hsib]
    simp only [hr, Option.map_some]
    refine ⟨_, rfl, hstep.effect (hrep.congr hcontent) hret (fun x => ?_) rfl,
      hstep.progress hinv rfl ?_⟩
    · constructor
      · exact fun heq => ⟨l, rfl, Ptr.page.inj heq⟩
      · rintro ⟨l', hl', rfl⟩
        rw [Option.some.inj hl']
    · show t.level t.root - (t.level l.page + 1) ≤ t.level t.root - l.level
      rw [hl.level]
  · refine advances_quiet (.linkStore l ret b) hinv hrep ?_
      (fun l' hl' => Option.some.inj hl' ▸ hlost) ⟨hl, hret, ⟨hb, hbk⟩, hbl.trans hlevel⟩ rfl rfl ?_
    · simp only [advance]
      rw [if_neg halive, hsib]
    · show l.key - t.fence b + 1 < l.key - t.fence a + 1
      omega

/-- **The search of a leaf** answers what the map has, or goes to the right. -/
theorem advances_searchLeaf (hinv : Inv t) (hrep : Represents t m) {key : ℕ} (hat : At t a key)
    (hl : t.level a = 0) : Advances t m (.searchLeaf key a) := by
  rcases hinv.searchPage_leaf hrep hat.lt hl hat.fence_le with
    hsearch | ⟨b, hb, -, hsearch, hbl, -, hbk⟩
  · refine advances_quiet (.searchCheck key a (.ofOption (m key)) (m key)) hinv hrep ?_
      (fun l hl => nomatch hl) ⟨⟨hat, hl⟩, .inl rfl⟩ rfl rfl (Nat.lt_succ_self _)
    simp only [advance, hsearch, Option.map_some]
  · refine advances_quiet (.searchCheck key a (.page b) (m key)) hinv hrep ?_
      (fun l hl => nomatch hl) ⟨⟨hat, hl⟩, .inr ⟨b, rfl, ⟨hb, hbk⟩, hbl.trans hl⟩⟩ rfl rfl
      (Nat.lt_succ_self _)
    simp only [advance, hsearch, Option.map_some]

theorem advances_searchCheck (hinv : Inv t) (hrep : Represents t m) {key : ℕ} (hat : At t a key)
    {r : Ptr V} {want : Option V}
    (hr : r = .ofOption want ∨ ∃ b, r = .page b ∧ At t b key ∧ t.level b = 0) :
    Advances t m (.searchCheck key a r want) := by
  by_cases hsib : r = (t.pages a).siblingPtr
  · rcases hr with rfl | ⟨b, rfl, hb, hbl⟩
    · obtain rfl := hinv.siblingPtr_eq hat.lt hsib
      exact advances_quiet _ hinv hrep (if_pos hsib) (fun l hl => nomatch hl) (.inl rfl) rfl rfl
        (Nat.succ_pos _)
    · refine advances_quiet _ hinv hrep (if_pos hsib) (fun l hl => nomatch hl) ⟨hb, hbl⟩ rfl rfl ?_
      rcases (hinv.page a hat.lt).sibling with hnull | ⟨b', -, hb', -, hf, -⟩
      · exact nomatch hsib.trans hnull
      · obtain rfl := Ptr.page.inj (hsib.trans hb')
        have hle := hb.fence_le
        show 2 * (key - t.fence b) + 2 < 2 * (key - t.fence a) + 1
        have hf' : t.fence a < t.fence b := hf
        omega
  · refine advances_quiet _ hinv hrep (if_neg hsib) (fun l hl => nomatch hl)
      (hr.imp_right fun ⟨b, hb, _⟩ => ⟨b, hb⟩) rfl rfl (Nat.succ_pos _)

/-- **No thread is stuck.** -/
theorem Sys.Ok.advances {S : Sys V} (h : S.Ok) {i : ℕ} (hrest : (S.thread i).resting = false) :
    Advances S.tree S.map (S.thread i) := by
  have hok := h.thread i
  have hlost : ∀ l, (S.thread i).link? = some l → Lost S.tree l.page :=
    fun l hl => (h.lost _).mpr ⟨i, l, hl, rfl⟩
  have hfree := h.free i
  cases hth : S.thread i with
  | idle => rw [hth] at hrest; exact nomatch hrest
  | inserted ret => rw [hth] at hrest; exact nomatch hrest
  | searched key r want => rw [hth] at hrest; exact nomatch hrest
  | insertDown c a =>
    rw [hth] at hok
    exact advances_insertDown h.inv h.represents hok
  | insertStore c a =>
    rw [hth] at hok hfree
    exact advances_insertStore h.inv h.represents hok.1 hok.2 (hfree c rfl).map
  | linkStart l ret =>
    rw [hth] at hok hlost
    exact advances_linkStart h.inv h.represents hok.1 hok.2 (hlost l rfl)
  | linkDown l ret a =>
    rw [hth] at hok hlost
    exact advances_linkDown h.inv h.represents hok.1 hok.2.1 (hlost l rfl) hok.2.2.1 hok.2.2.2
  | linkStore l ret a =>
    rw [hth] at hok hlost
    exact advances_linkStore h.inv h.represents hok.1 hok.2.1 (hlost l rfl) hok.2.2.1 hok.2.2.2
  | searchDown key a =>
    rw [hth] at hok
    exact advances_searchDown h.inv h.represents hok
  | searchLeaf key a =>
    rw [hth] at hok
    exact advances_searchLeaf h.inv h.represents hok.1 hok.2
  | searchCheck key a r want =>
    rw [hth] at hok
    exact advances_searchCheck h.inv h.represents hok.1.1 hok.2

end Steps

/-! ## Runs -/

section Runs

variable [DecidableEq V] {S S' : Sys V}

omit [DecidableEq V] in
theorem resting_cases {th : Thread V} (h : th.resting = true) :
    th.link? = none ∧ th.call? = none := by
  cases th with
  | idle => exact ⟨rfl, rfl⟩
  | inserted ret => exact ⟨rfl, rfl⟩
  | searched key r want => exact ⟨rfl, rfl⟩
  | _ => exact nomatch h

/-- **A thread starts.** -/
theorem Sys.Ok.start (h : S.Ok) {i : ℕ} (hrest : (S.thread i).resting = true) {th : Thread V}
    (hok : th.Ok S.tree) (hlink : th.link? = none) (hfree : ∀ c, th.call? = some c → S.Free c) :
    Sys.Ok { S with thread := Function.update S.thread i th } := by
  obtain ⟨hlink', hcall'⟩ := resting_cases hrest
  -- a thread that links a page, or did so before, is another one
  have hsame : ∀ j l, (Function.update S.thread i th j).link? = some l ↔
      (S.thread j).link? = some l := by
    intro j l
    by_cases hji : j = i
    · rw [hji, Function.update_self, hlink, hlink']
    · rw [Function.update_of_ne hji]
  have hcalls : ∀ j c, (Function.update S.thread i th j).call? = some c →
      th.call? = some c ∨ (S.thread j).call? = some c := by
    intro j c hc
    by_cases hji : j = i
    · rw [hji, Function.update_self] at hc
      exact .inl hc
    · rw [Function.update_of_ne hji] at hc
      exact .inr hc
  have hboth : ∀ c, (th.call? = some c ∨ ∃ j, (S.thread j).call? = some c) → S.Free c := by
    rintro c (hc | ⟨j, hc⟩)
    · exact hfree c hc
    · exact h.free j c hc
  refine ⟨h.inv, h.represents, h.history, fun j => ?_, fun x => ?_, fun j k l l' hj hk => ?_,
    fun j c hj => ⟨fun k hk => ?_, fun k c' hk hnew => ?_⟩⟩
  · show (Function.update S.thread i th j).Ok S.tree
    by_cases hji : j = i
    · rw [hji, Function.update_self]
      exact hok
    · rw [Function.update_of_ne hji]
      exact h.thread j
  · rw [h.lost]
    exact exists_congr (fun j => exists_congr (fun l => and_congr_left' (hsame j l).symm))
  · exact h.once j k l l' ((hsame j l).mp hj) ((hsame k l').mp hk)
  · exact (hboth c ((hcalls j c hj).imp_right (fun hc => ⟨j, hc⟩))).map k hk
  · have hc := hboth c ((hcalls j c hj).imp_right (fun hc => ⟨j, hc⟩))
    rcases hcalls k c' hk with hk | hk
    · rcases hcalls j c hj with hj | hj
      · rw [Option.some.inj (hk.symm.trans hj)]
      · exact ((hfree c' hk).thread j c hj hnew.symm).symm
    · exact hc.thread k c' hk hnew

/-- What a step of a thread comes to. -/
theorem Sys.Ok.step_move (h : S.Ok) {i : ℕ} (hrest : (S.thread i).resting = false) :
    ∃ S', step S (.move i) = some S' ∧ S'.Ok := by
  obtain ⟨r, hr, he, -⟩ := h.advances hrest
  refine ⟨_, by rw [step, hr]; rfl,
    h.move (i := i) ?_ (fun j hj => Function.update_of_ne hj _ _) ?_⟩
  · show Effect _ _ _ _ _ (Function.update S.thread i r.2.2 i)
    rw [Function.update_self]
    exact he
  · show _ = _ ++ (visible _ (Function.update S.thread i r.2.2 i)).toList
    rw [Function.update_self]

theorem advance_resting {t : Btree V} {m : ℕ → Option V} {th : Thread V}
    (h : th.resting = true) : advance t m th = none := by
  cases th with
  | idle => rfl
  | inserted ret => rfl
  | searched key r want => rfl
  | _ => exact nomatch h

/-- **Every step keeps the invariant.** -/
theorem Sys.Ok.step (h : S.Ok) {e : Event V} (hallowed : S.Allowed e)
    (hstep : step S e = some S') : S'.Ok := by
  cases e with
  | insert i c =>
    simp only [FastFair.step] at hstep
    split at hstep
    · obtain rfl := Option.some.inj hstep
      refine h.start ‹_› (h.inv.at_root c.key) rfl (fun c' hc => ?_)
      exact Option.some.inj hc ▸ hallowed
    · exact nomatch hstep
  | search i key =>
    simp only [FastFair.step] at hstep
    split at hstep
    · obtain rfl := Option.some.inj hstep
      exact h.start ‹_› (h.inv.at_root key) rfl (fun c' hc => nomatch hc)
    · exact nomatch hstep
  | move i =>
    cases hrest : (S.thread i).resting with
    | false =>
      obtain ⟨S'', hS'', hok⟩ := h.step_move hrest
      exact Option.some.inj (hS''.symm.trans hstep) ▸ hok
    | true =>
      simp only [FastFair.step, advance_resting hrest] at hstep
      exact nomatch hstep

theorem ok_init : (Sys.init : Sys V).Ok where
  inv := inv_new
  represents := represents_new
  history := rfl
  thread _ := trivial
  lost x := ⟨fun hx => absurd hx (not_lost_new x), fun ⟨_, _, hl, _⟩ => nomatch hl⟩
  once _ _ _ _ hl := nomatch hl
  free _ _ hc := nomatch hc

/-- **Every state of every run** whose calls put only values of their keys. -/
theorem ok_of_run {es : List (Event V)} (hallowed : Machine.AllSteps step Sys.Allowed Sys.init es)
    (hrun : run Sys.init es = some S) : S.Ok :=
  Machine.run_inv_of_allSteps step (fun _ _ _ h ha hs => h.step ha hs) ok_init hallowed hrun

end Runs

end FastFair
