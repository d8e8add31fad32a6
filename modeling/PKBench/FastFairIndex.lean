import PKBench.FastFairRange
import PKBench.LastWrite
import PKBench.Reopen

/-!
# FlatStore on the FAST_FAIR tree

`PKBench.Reopen` gives the adapter `FastFairIndex` as a map from the first word of a
key. Here the adapter is the tree itself, and a store on the tree is shown to do what
the store on the map does (`run_treeIndex`): the same calls return, the log and the
workers' segments are the same, and every `Get` reads the same item. What makes this
work is that a `Put` tells the index an address that no entry has, since the item was
just appended.
-/

namespace FlatStore

open FastFair (Btree Ptr LogEntryHelper)

/-- The value of a pointer an index hands out, `INVALID_VALUE` for none. -/
def valueOf : Ptr ValueType → Option ValueType
  | .value v => some v
  | _ => none

/-- **`FastFairIndex`** on the tree. -/
def treeIndex (fuel : ℕ) : Index (Btree ValueType) where
  get t key := (FastFair.btreeSearch t key.word.toNat fuel).bind valueOf
  put t key val :=
    match FastFair.btreeInsert key.word.toNat fuel t { newVal := .value val } with
    | some (t', le) => (t', valueOf le.oldVal)
    | none => (t, none)

/-- The constructor of `DB` on a pool, with the tree. -/
def createTree (numSegments : ℕ) (pool : ℕ → SegmentImage KVItem) : DB (Btree ValueType) where
  log := LogStructured.create numSegments 1 pool
  index := Btree.new

/-! ## Stores with another index -/

variable {σ τ : Type}

/-- A store with another index. -/
def DB.withIndex (db : DB σ) (index : τ) : DB τ where
  log := db.log
  index := index
  epochMap := db.epochMap
  logHead := db.logHead

/-- `MakeKVItem` does not look at the index. -/
theorem makeKVItem_withIndex (db : DB σ) (index : τ) (w : ℕ) (entry : Entry) :
    makeKVItem (db.withIndex index) w entry
      = (makeKVItem db w entry).map (fun r => (r.1, r.2.withIndex index)) := by
  unfold makeKVItem getKeyEpoch
  simp only [DB.withIndex]
  split <;> rfl

/-! ## The map of a tree -/

/-- A map from words as one from numbers. -/
def natMap {V : Type} (map : UInt64 → Option V) (k : ℕ) : Option V :=
  if k < 2 ^ 64 then map (UInt64.ofNat k) else none

theorem natMap_toNat {V : Type} (map : UInt64 → Option V) (w : UInt64) :
    natMap map w.toNat = map w := by
  unfold natMap
  rw [if_pos w.toNat_lt, UInt64.ofNat_toNat]

theorem natMap_update {V : Type} (map : UInt64 → Option V) (w : UInt64) (v : Option V) :
    natMap (Function.update map w v) = Function.update (natMap map) w.toNat v := by
  funext k
  rw [Function.update_apply]
  by_cases hk : k = w.toNat
  · rw [if_pos hk, hk, natMap_toNat, Function.update_self]
  · rw [if_neg hk]
    unfold natMap
    split
    · rw [Function.update_of_ne]
      rintro rfl
      exact hk (by rw [UInt64.toNat_ofNat_of_lt' ‹_›])
    · rfl

theorem eq_of_natMap_eq_some {V : Type} {map : UInt64 → Option V} {k : ℕ} {v : V}
    (h : natMap map k = some v) : ∃ w : UInt64, k = w.toNat ∧ map w = some v := by
  unfold natMap at h
  split at h
  · exact ⟨UInt64.ofNat k, by rw [UInt64.toNat_ofNat_of_lt' ‹_›], h⟩
  · exact nomatch h

/-- **A tree does the work of a map.** -/
structure TreeOf (t : Btree ValueType) (map : UInt64 → Option ValueType) : Prop where
  inv : FastFair.Inv t
  lost : ∀ c, ¬ FastFair.Lost t c
  represents : FastFair.Represents t (natMap map)

theorem treeOf_new : TreeOf Btree.new (fun _ => none) where
  inv := FastFair.inv_new
  lost := FastFair.not_lost_new
  represents := by
    have h : natMap (fun _ => (none : Option ValueType)) = fun _ => none := by
      funext k
      unfold natMap
      split <;> rfl
    rw [h]
    exact FastFair.represents_new

theorem valueOf_ofOption (o : Option ValueType) : valueOf (.ofOption o) = o := by
  cases o <;> rfl

/-- **`Put` of the index.** -/
theorem TreeOf.put {t : Btree ValueType} {map : UInt64 → Option ValueType} (h : TreeOf t map)
    (key : Slice) (val : ValueType) (hval : ∀ w, map w = some val → w = key.word) :
    ∃ t' N, TreeOf t' (Function.update map key.word (some val))
      ∧ ∀ fuel ≥ N, (treeIndex fuel).put t key val = (t', map key.word) := by
  have hv : ∀ k, natMap map k = some val → k = key.word.toNat := by
    intro k hk
    obtain ⟨w, rfl, hw⟩ := eq_of_natMap_eq_some hk
    rw [hval w hw]
  obtain ⟨t', le, N, hinv, hlost, hrep, hold, hfuel⟩ :=
    h.inv.btreeInsert h.lost h.represents hv
      (show (LogEntryHelper.mk (.value val) .null none).newVal = .value val from rfl)
      (show Ptr.null = .ofOption none from rfl)
  have hput : FastFair.putMap (natMap map) key.word.toNat val none
      = (Function.update (natMap map) key.word.toNat (some val), map key.word) := by
    rw [← natMap_toNat map key.word]
    rfl
  rw [hput] at hrep hold
  refine ⟨t', N, ⟨hinv, hlost, by rw [natMap_update]; exact hrep⟩, fun fuel hN => ?_⟩
  unfold treeIndex
  simp only [hfuel fuel hN, hold, valueOf_ofOption]

/-- **`Get` of the index.** -/
theorem TreeOf.get {t : Btree ValueType} {map : UInt64 → Option ValueType} (h : TreeOf t map) :
    ∃ N, ∀ fuel ≥ N, ∀ key, (treeIndex fuel).get t key = map key.word := by
  refine ⟨(t.level t.root + 1) * 2 ^ 64, fun fuel hN key => ?_⟩
  have hsteps : t.steps key.word.toNat ≤ fuel := by
    refine le_trans (Nat.mul_le_mul_left _ ?_) hN
    exact key.word.toNat_lt
  show (FastFair.btreeSearch t key.word.toNat fuel).bind valueOf = _
  rw [h.inv.btreeSearch h.represents _ hsteps, natMap_toNat]
  exact valueOf_ofOption _

/-- A `Get` on the tree ends as one on the map. -/
theorem TreeOf.get_withIndex {t : Btree ValueType} {db : DB (UInt64 → Option ValueType)}
    (h : TreeOf t db.index) :
    ∃ N, ∀ fuel ≥ N, ∀ key, FlatStore.get (treeIndex fuel) (db.withIndex t) key
      = FlatStore.get fastFairIndex db key := by
  obtain ⟨N, hget⟩ := h.get
  refine ⟨N, fun fuel hN key => ?_⟩
  unfold FlatStore.get
  rw [show (treeIndex fuel).get (db.withIndex t).index key = fastFairIndex.get db.index key
    from hget fuel hN key]
  rfl

/-! ## Runs of a store -/

/-- The entries of the map point to items of the log. -/
def PointsToItems (db : DB (UInt64 → Option ValueType)) : Prop :=
  ∀ w v, db.index w = some v → ∃ a kv, v = .item a ∧ db.log.itemAt a = some kv

/-- **`MakeKVItem` hands out an address no item has.** -/
theorem makeKVItem_fresh {db : DB σ} {w : ℕ} {entry : Entry} {r : Addr × DB σ} (h : db.Ready)
    (hmake : makeKVItem db w entry = some r) :
    db.log.itemAt r.1 = none ∧ r.2.index = db.index := by
  unfold makeKVItem at hmake
  simp only [getKeyEpoch] at hmake
  generalize entry.item _ = item at hmake
  cases hloop : makeKVItemLoop item db.log.freeSegments.length db.log (db.logHead w) with
  | none => rw [hloop] at hmake; cases hmake
  | some q =>
    obtain ⟨a, log, head⟩ := q
    rw [hloop] at hmake
    cases hmake
    refine ⟨?_, rfl⟩
    have hend : ∀ {l l' : LogStructured KVItem} {s : ℕ}, l.Backed →
        l.append s item.size item = some (a, l') → l.itemAt a = none := by
      intro l l' s hb happ
      obtain ⟨seg, -, rfl, -⟩ := LogStructured.append_eq_some hb happ
      exact List.getElem?_eq_none le_rfl
    rcases makeKVItemLoop_cases h hloop with ⟨s, -, -, happ⟩ | ⟨s, log₁, hnew, -, happ⟩
    · exact hend h.backed happ
    · have hb := (h.freezeSegment (h.head w)).backed
      have hnone := hend (hb.newSegment hnew) happ
      rwa [LogStructured.itemAt_newSegment hnew, LogStructured.itemAt_freezeSegment] at hnone

variable {db : DB (UInt64 → Option ValueType)} {t : Btree ValueType}

theorem PointsToItems.put {db' : DB (UInt64 → Option ValueType)} (h : PointsToItems db)
    (hr : db.Ready) {w : ℕ} {entry : Entry} (hput : put fastFairIndex db w entry = some db') :
    PointsToItems db' := by
  obtain ⟨-, -, hkeep, a, kv, hitem, -, -, hindex⟩ := put_eq_some fastFairIndex hr hput
  intro u v hv
  rw [hindex] at hv
  replace hv : Function.update db.index entry.key.word (some (.item a)) u = some v := hv
  by_cases hu : u = entry.key.word
  · rw [hu, Function.update_self] at hv
    exact ⟨a, kv, (Option.some.inj hv).symm, hitem⟩
  · rw [Function.update_of_ne hu] at hv
    obtain ⟨b, kv', hb, hitem'⟩ := h u v hv
    exact ⟨b, kv', hb, hkeep b kv' hitem'⟩

/-- The two stores after a call: both are stuck, or the one has a tree for the map. -/
def Follows (o : Option (DB (Btree ValueType))) :
    Option (DB (UInt64 → Option ValueType)) → Prop
  | none => o = none
  | some db => db.Ready ∧ PointsToItems db ∧ ∃ t, TreeOf t db.index ∧ o = some (db.withIndex t)

theorem index_updateIndex (I : Index σ) {db db' : DB σ} {key : Slice} {a : Addr}
    (h : updateIndex I db key a = some db') :
    db'.index = (I.put db.index key (.item a)).1 := by
  unfold updateIndex at h
  cases hput : I.put db.index key (.item a) with
  | mk index old =>
    rw [hput] at h
    cases old with
    | none =>
      cases h
      rfl
    | some v =>
      cases hmark : markGarbage db.log v with
      | none => simp only [hmark] at h; cases h
      | some log =>
        simp only [hmark] at h
        cases h
        rfl

/-- **A `Put` on the tree** is one on the map. -/
theorem put_treeIndex (hr : db.Ready) (hp : PointsToItems db) (ht : TreeOf t db.index) (w : ℕ)
    (entry : Entry) :
    ∃ o N, (∀ fuel ≥ N, put (treeIndex fuel) (db.withIndex t) w entry = o)
      ∧ Follows o (put fastFairIndex db w entry) := by
  cases hmake : makeKVItem db w entry with
  | none =>
    refine ⟨none, 0, fun fuel _ => ?_, ?_⟩
    · unfold put
      rw [makeKVItem_withIndex, hmake]
      rfl
    · unfold put
      rw [hmake]
      rfl
  | some r =>
    obtain ⟨a, d⟩ := r
    obtain ⟨hfresh, hindex⟩ := makeKVItem_fresh hr hmake
    have hval : ∀ u, db.index u = some (.item a) → u = entry.key.word := by
      intro u hu
      obtain ⟨b, kv, hb, hitem⟩ := hp u _ hu
      rw [← ValueType.item.inj hb] at hitem
      exact nomatch hfresh.symm.trans hitem
    obtain ⟨t', N, ht', hfuel⟩ := ht.put entry.key (.item a) hval
    have hmap : put fastFairIndex db w entry = updateIndex fastFairIndex d entry.key a := by
      unfold put
      rw [hmake]
    have htree : ∀ fuel, put (treeIndex fuel) (db.withIndex t) w entry
        = updateIndex (treeIndex fuel) (d.withIndex t) entry.key a := by
      intro fuel
      unfold put
      rw [makeKVItem_withIndex, hmake]
      rfl
    -- the two updates, by what the key had before
    have hup : ∀ fuel ≥ N, updateIndex (treeIndex fuel) (d.withIndex t) entry.key a
        = (updateIndex fastFairIndex d entry.key a).map (fun d' => d'.withIndex t') := by
      intro fuel hN
      unfold updateIndex
      rw [show (treeIndex fuel).put (d.withIndex t).index entry.key (.item a)
          = (t', db.index entry.key.word) from hfuel fuel hN,
        show fastFairIndex.put d.index entry.key (.item a)
          = (Function.update d.index entry.key.word (some (.item a)), db.index entry.key.word) by
            rw [hindex]; rfl]
      cases db.index entry.key.word with
      | none => rfl
      | some old =>
        dsimp only [DB.withIndex]
        cases markGarbage d.log old <;> rfl
    refine ⟨_, N, fun fuel hN => (htree fuel).trans (hup fuel hN), ?_⟩
    rw [hmap]
    cases hdone : updateIndex fastFairIndex d entry.key a with
    | none => rfl
    | some db' =>
      rw [hdone] at hmap
      obtain ⟨hr', -⟩ := put_eq_some fastFairIndex hr hmap
      refine ⟨hr', hp.put hr hmap, t', ?_, rfl⟩
      rw [index_updateIndex fastFairIndex hdone]
      show TreeOf t' (Function.update d.index _ _)
      rw [hindex]
      exact ht'

theorem step_follows (hr : db.Ready) (hp : PointsToItems db) (ht : TreeOf t db.index)
    (op : ClientOp) :
    ∃ o N, (∀ fuel ≥ N, step (treeIndex fuel) (db.withIndex t) op = o)
      ∧ Follows o (step fastFairIndex db op) := by
  cases op with
  | insert w entry => exact put_treeIndex hr hp ht w entry
  | update w entry => exact put_treeIndex hr hp ht w entry
  | destroy w =>
    obtain ⟨hr', -, hitem⟩ := destroyWorker_spec hr w
    refine ⟨_, 0, fun _ _ => rfl, hr', fun u v hv => ?_, t, ht, rfl⟩
    obtain ⟨a, kv, ha, hkv⟩ := hp u v hv
    exact ⟨a, kv, ha, (hitem a).trans hkv⟩

/-- **Any run on the tree** is one on the map. -/
theorem run_follows (hr : db.Ready) (hp : PointsToItems db) (ht : TreeOf t db.index)
    (ops : List ClientOp) :
    ∃ o N, (∀ fuel ≥ N, run (treeIndex fuel) (db.withIndex t) ops = o)
      ∧ Follows o (run fastFairIndex db ops) := by
  induction ops generalizing db t with
  | nil => exact ⟨_, 0, fun _ _ => rfl, hr, hp, t, ht, rfl⟩
  | cons op ops ih =>
    obtain ⟨o, N, ho, hfollows⟩ := step_follows hr hp ht op
    have hmap : run fastFairIndex db (op :: ops)
        = (step fastFairIndex db op).bind (fun db => run fastFairIndex db ops) := rfl
    have htree : ∀ fuel ≥ N, run (treeIndex fuel) (db.withIndex t) (op :: ops)
        = o.bind (fun db => run (treeIndex fuel) db ops) := by
      intro fuel hN
      rw [← ho fuel hN]
      rfl
    rw [hmap]
    cases hstep : step fastFairIndex db op with
    | none =>
      rw [hstep] at hfollows
      obtain rfl : o = none := hfollows
      exact ⟨none, N, htree, rfl⟩
    | some db' =>
      rw [hstep] at hfollows
      obtain ⟨hr', hp', t', ht', rfl⟩ := hfollows
      obtain ⟨o', N', ho', hfollows'⟩ := ih hr' hp' ht'
      refine ⟨o', max N N', fun fuel hN => ?_, hfollows'⟩
      rw [htree fuel ((le_max_left _ _).trans hN)]
      exact ho' fuel ((le_max_right _ _).trans hN)

/-- **The store on the tree and the store on the map**: from their start, the same calls
return, what they leave is the same but for the index – the log, the epochs and the
segment of each worker – and every `Get` ends the same way. -/
theorem run_treeIndex (numSegments : ℕ) (pool : ℕ → SegmentImage KVItem) (ops : List ClientOp) :
    ∃ N, ∀ fuel ≥ N,
      (run (treeIndex fuel) (createTree numSegments pool) ops).map (fun db => db.withIndex ())
          = (run fastFairIndex (createFF numSegments pool) ops).map (fun db => db.withIndex ())
        ∧ ∀ db db', run (treeIndex fuel) (createTree numSegments pool) ops = some db →
          run fastFairIndex (createFF numSegments pool) ops = some db' →
          ∀ key, get (treeIndex fuel) db key = get fastFairIndex db' key := by
  have hr : (createFF numSegments pool).Ready := ready_create numSegments 1 pool
  obtain ⟨o, N, ho, hfollows⟩ := run_follows hr (fun _ _ h => nomatch h) treeOf_new ops
  cases hmap : run fastFairIndex (createFF numSegments pool) ops with
  | none =>
    rw [hmap] at hfollows
    obtain rfl : o = none := hfollows
    refine ⟨N, fun fuel hN => ⟨congrArg (Option.map _) (ho fuel hN), ?_⟩⟩
    intro _ _ _ h
    exact nomatch h
  | some db' =>
    rw [hmap] at hfollows
    obtain ⟨-, -, t, ht, rfl⟩ := hfollows
    obtain ⟨N', hget⟩ := ht.get_withIndex
    refine ⟨max N N', fun fuel hN => ⟨?_, fun db db'' hdb hdb'' key => ?_⟩⟩
    · exact congrArg (Option.map _) (ho fuel ((le_max_left _ _).trans hN))
    · obtain rfl := Option.some.inj (hdb.symm.trans (ho fuel ((le_max_left _ _).trans hN)))
      obtain rfl := Option.some.inj hdb''
      exact hget fuel ((le_max_right _ _).trans hN) key

/-! ## What a `Get` finds -/

/-- The value last put under a word. -/
def lastByWord (hist : List Entry) (w : UInt64) : Lookup :=
  match LastWrite.lastWrite (fun entry : Entry => entry.key.word) hist w with
  | none => .notFound
  | some entry => .found entry.value

/-- The map has for each word the item of the last record under it. -/
def HoldsLast (hist : List Entry) (db : DB (UInt64 → Option ValueType)) : Prop :=
  ∀ w, match LastWrite.lastWrite (fun entry : Entry => entry.key.word) hist w with
    | none => db.index w = none
    | some entry =>
      ∃ a kv, db.index w = some (.item a) ∧ db.log.itemAt a = some kv ∧ kv.value = entry.value

theorem HoldsLast.get {hist : List Entry} (h : HoldsLast hist db) (key : Slice) :
    get fastFairIndex db key = lastByWord hist key.word := by
  have hkey := h key.word
  unfold lastByWord
  cases hlast : LastWrite.lastWrite (fun entry : Entry => entry.key.word) hist key.word with
  | none =>
    rw [hlast] at hkey
    exact get_of_index_none fastFairIndex hkey
  | some entry =>
    rw [hlast] at hkey
    obtain ⟨a, kv, hindex, hitem, hvalue⟩ := hkey
    unfold FlatStore.get
    rw [show fastFairIndex.get db.index key = some (.item a) from hindex]
    simp only [LogStructured.read_of_itemAt hitem, hvalue]

theorem HoldsLast.put {hist : List Entry} {db' : DB (UInt64 → Option ValueType)}
    (h : HoldsLast hist db) (hr : db.Ready) {w : ℕ} {entry : Entry}
    (hput : put fastFairIndex db w entry = some db') : HoldsLast (hist ++ [entry]) db' := by
  obtain ⟨-, -, hkeep, a, kv, hitem, -, hvalue, hindex⟩ := put_eq_some fastFairIndex hr hput
  replace hindex : db'.index = Function.update db.index entry.key.word (some (.item a)) := hindex
  intro u
  rw [LastWrite.lastWrite_concat, hindex]
  by_cases hu : entry.key.word = u
  · rw [if_pos hu, ← hu, Function.update_self]
    exact ⟨a, kv, rfl, hitem, hvalue⟩
  · rw [if_neg hu, Function.update_of_ne (Ne.symm hu)]
    have hold := h u
    cases hlast : LastWrite.lastWrite (fun entry : Entry => entry.key.word) hist u with
    | none =>
      rw [hlast] at hold
      exact hold
    | some last =>
      rw [hlast] at hold
      obtain ⟨b, kv', hb, hitem', hvalue'⟩ := hold
      exact ⟨b, kv', hb, hkeep b kv' hitem', hvalue'⟩

/-- **Any run on the map.** -/
theorem holdsLast_run {numSegments : ℕ} {pool : ℕ → SegmentImage KVItem} {ops : List ClientOp}
    (hrun : run fastFairIndex (createFF numSegments pool) ops = some db) :
    HoldsLast (puts ops) db := by
  have hr : (createFF numSegments pool).Ready := ready_create numSegments 1 pool
  have hstart : HoldsLast [] (createFF numSegments pool) := fun w => rfl
  refine (run_inv fastFairIndex ?_ ?_ hr hstart hrun).2
  · exact fun hist db w entry db' hr h hput => h.put hr hput
  · intro hist db w hr h u
    obtain ⟨-, -, hitem⟩ := destroyWorker_spec hr w
    have hold := h u
    split
    · rename_i hlast
      rw [hlast] at hold
      exact hold
    · rename_i entry hlast
      rw [hlast] at hold
      obtain ⟨a, kv, hindex, hat, hvalue⟩ := hold
      exact ⟨a, kv, hindex, (hitem a).trans hat, hvalue⟩

/-- The entry a `Put` replaces can be read. -/
theorem updateIndex_isSome {d : DB (UInt64 → Option ValueType)} (hp : PointsToItems db)
    (hd : d.index = db.index) (hkeep : db.Keeps d) (key : Slice) (a : Addr) :
    (updateIndex fastFairIndex d key a).isSome := by
  unfold updateIndex
  rw [show fastFairIndex.put d.index key (.item a)
    = (Function.update db.index key.word (some (.item a)), db.index key.word) by rw [hd]; rfl]
  cases hold : db.index key.word with
  | none => rfl
  | some old =>
    obtain ⟨b, kv, rfl, hitem⟩ := hp _ _ hold
    dsimp only [markGarbage]
    rw [LogStructured.read_of_itemAt (hkeep b kv hitem)]
    rfl

/-- With as many free segments as records to come, all calls return. -/
theorem run_isSome (hr : db.Ready) (hp : PointsToItems db) {ops : List ClientOp}
    (hroom : (puts ops).length ≤ db.log.freeSegments.length) :
    ∃ db', run fastFairIndex db ops = some db' := by
  refine Machine.run_exists (step fastFairIndex) (Q := fun ops db => db.Ready ∧ PointsToItems db
    ∧ (puts ops).length ≤ db.log.freeSegments.length) ?_ ⟨hr, hp, hroom⟩
  rintro op ops db ⟨hr, hp, hroom⟩
  have hcase : ∀ w entry, op.entry? = some entry → step fastFairIndex db op
      = put fastFairIndex db w entry → ∃ db', step fastFairIndex db op = some db'
        ∧ db'.Ready ∧ PointsToItems db' ∧ (puts ops).length ≤ db'.log.freeSegments.length := by
    intro w entry hentry hstep
    have hlen : (puts (op :: ops)).length = (puts ops).length + 1 := by
      unfold puts
      rw [List.filterMap_cons_some hentry, List.length_cons]
    have hfree : db.log.freeSegments ≠ [] := by
      intro hnil
      rw [hlen, hnil, List.length_nil] at hroom
      omega
    obtain ⟨db', hput⟩ := Option.isSome_iff_exists.mp (put_isSome fastFairIndex hr hfree w entry
      (fun d hd hkeep a => updateIndex_isSome hp hd hkeep entry.key a))
    obtain ⟨hr', hfewer, -⟩ := put_eq_some fastFairIndex hr hput
    exact ⟨db', hstep.trans hput, hr', hp.put hr hput, by omega⟩
  cases op with
  | insert w entry => exact hcase w entry rfl rfl
  | update w entry => exact hcase w entry rfl rfl
  | destroy w =>
    obtain ⟨hr', hfree, hitem⟩ := destroyWorker_spec hr w
    refine ⟨_, rfl, hr', fun u v hv => ?_, ?_⟩
    · obtain ⟨a, kv, ha, hkv⟩ := hp u v hv
      exact ⟨a, kv, ha, (hitem a).trans hkv⟩
    · rw [hfree]
      exact hroom

/-- A run on the tree, with the map it stands for. -/
theorem exists_run_treeIndex {numSegments : ℕ} (pool : ℕ → SegmentImage KVItem)
    {ops : List ClientOp} (hroom : (puts ops).length < numSegments) :
    ∃ db t N, TreeOf t db.index ∧ HoldsLast (puts ops) db
      ∧ ∀ fuel ≥ N, run (treeIndex fuel) (createTree numSegments pool) ops
        = some (db.withIndex t) := by
  have hr : (createFF numSegments pool).Ready := ready_create numSegments 1 pool
  have hfree : (createFF numSegments pool).log.freeSegments.length = numSegments - 1 :=
    List.length_range
  obtain ⟨db, hdb⟩ := run_isSome hr (fun _ _ h => nomatch h)
    (show (puts ops).length ≤ (createFF numSegments pool).log.freeSegments.length by omega)
  obtain ⟨o, N, ho, hfollows⟩ := run_follows hr (fun _ _ h => nomatch h) treeOf_new ops
  rw [hdb] at hfollows
  obtain ⟨-, -, t, ht, rfl⟩ := hfollows
  exact ⟨db, t, N, ht, holdsLast_run hdb, ho⟩

/-- **FlatStore on its tree is a map from words to values.** With room for the records,
any calls of any workers return, and every `Get` finds what was last put under a key
with the same first word. -/
theorem treeStore_lastWrite {numSegments : ℕ} (pool : ℕ → SegmentImage KVItem)
    {ops : List ClientOp} (hroom : (puts ops).length < numSegments) :
    ∃ N, ∀ fuel ≥ N, ∃ db, run (treeIndex fuel) (createTree numSegments pool) ops = some db
      ∧ ∀ key, get (treeIndex fuel) db key = lastByWord (puts ops) key.word := by
  obtain ⟨db, t, N, ht, hlast, hrun⟩ := exists_run_treeIndex pool hroom
  obtain ⟨N', hget⟩ := ht.get_withIndex
  refine ⟨max N N', fun fuel hN => ⟨_, hrun fuel ((le_max_left _ _).trans hN), fun key => ?_⟩⟩
  rw [hget fuel ((le_max_right _ _).trans hN) key]
  exact hlast.get key

/-- Two records under one key, in a store of three segments. -/
theorem treeStore_lastWrite_twoRecords :
    (puts [.insert 0 (oneEntry 1), .update 0 (oneEntry 2)]).length < 3
      ∧ ∃ N, ∀ fuel ≥ N, ∃ db, run (treeIndex fuel) (createTree 3 (fun _ => {}))
          [.insert 0 (oneEntry 1), .update 0 (oneEntry 2)] = some db
        ∧ get (treeIndex fuel) db oneKey = .found (oneEntry 2).value := by
  have hroom : (puts [.insert 0 (oneEntry 1), .update 0 (oneEntry 2)]).length < 3 := by decide
  obtain ⟨N, h⟩ := treeStore_lastWrite (fun _ => {}) hroom
  refine ⟨hroom, N, fun fuel hN => ?_⟩
  obtain ⟨db, hrun, hget⟩ := h fuel hN
  exact ⟨db, hrun, (hget oneKey).trans rfl⟩

/-! ## `Scan` -/

/-- The value of the item an entry points to. -/
def readValue (log : LogStructured KVItem) : Ptr ValueType → Lookup
  | .value (.item a) =>
    match log.read a with
    | none => .fault
    | some kv => .found kv.value
  | _ => .fault

/-- **`DB::Worker::Scan`**: the values it reads. It returns their number. -/
def scan (fuel : ℕ) (db : DB (Btree ValueType)) (key : Slice) (cnt : ℕ) : Option (List Lookup) :=
  (FastFair.btreeSearchRange db.index key.word.toNat cnt fuel).map
    (fun vec => vec.map (readValue db.log))

theorem HoldsLast.index_eq_none_iff {hist : List Entry} (h : HoldsLast hist db) (w : UInt64) :
    db.index w = none ↔ lastByWord hist w = .notFound := by
  have hw := h w
  unfold lastByWord
  cases hlast : LastWrite.lastWrite (fun entry : Entry => entry.key.word) hist w with
  | none =>
    rw [hlast] at hw
    exact ⟨fun _ => rfl, fun _ => hw⟩
  | some entry =>
    rw [hlast] at hw
    obtain ⟨a, kv, hindex, -⟩ := hw
    exact ⟨fun hnone => (nomatch hnone.symm.trans hindex), fun hf => nomatch hf⟩

/-- What a scan reads for a word that is in the map. -/
theorem HoldsLast.readValue {hist : List Entry} (h : HoldsLast hist db) {w : UInt64}
    (hw : db.index w ≠ none) :
    FlatStore.readValue db.log (.ofOption (db.index w)) = lastByWord hist w := by
  have hold := h w
  unfold lastByWord
  cases hlast : LastWrite.lastWrite (fun entry : Entry => entry.key.word) hist w with
  | none =>
    rw [hlast] at hold
    exact absurd hold hw
  | some entry =>
    rw [hlast] at hold
    obtain ⟨a, kv, hindex, hitem, hvalue⟩ := hold
    rw [hindex]
    show (match db.log.read a with | none => Lookup.fault | some kv => .found kv.value) = _
    rw [LogStructured.read_of_itemAt hitem]
    exact congrArg Lookup.found hvalue

theorem natMap_ne_none_iff {map : UInt64 → Option ValueType} {k : ℕ} :
    natMap map k ≠ none ↔ k < 2 ^ 64 ∧ map (UInt64.ofNat k) ≠ none := by
  unfold natMap
  split
  · exact ⟨fun h => ⟨‹_›, h⟩, fun h => h.2⟩
  · exact ⟨fun h => absurd rfl h, fun h => absurd h.1 ‹_›⟩

/-- **A `Scan` of FlatStore on its tree** reads the values last put under the smallest
words greater than the word of its key, in the order of the words. -/
theorem treeStore_scan {numSegments : ℕ} (pool : ℕ → SegmentImage KVItem)
    {ops : List ClientOp} (hroom : (puts ops).length < numSegments) :
    ∃ N, ∀ fuel ≥ N, ∃ db, run (treeIndex fuel) (createTree numSegments pool) ops = some db
      ∧ ∀ key cnt, ∃ ks,
        scan fuel db key cnt = some (ks.map (fun k => lastByWord (puts ops) (UInt64.ofNat k)))
        ∧ FastFair.Smallest {k | key.word.toNat < k ∧ k < 2 ^ 64
          ∧ lastByWord (puts ops) (UInt64.ofNat k) ≠ .notFound} cnt ks := by
  obtain ⟨db, t, N, ht, hlast, hrun⟩ := exists_run_treeIndex pool hroom
  refine ⟨max N ((t.level t.root + 1) * 2 ^ 64 + t.fresh), fun fuel hN =>
    ⟨_, hrun fuel ((le_max_left _ _).trans hN), fun key cnt => ?_⟩⟩
  have hfuel : t.steps key.word.toNat + t.fresh ≤ fuel := by
    refine le_trans (Nat.add_le_add_right (Nat.mul_le_mul_left _ ?_) _)
      ((le_max_right _ _).trans hN)
    exact key.word.toNat_lt
  obtain ⟨ks, hks, hsmall⟩ := ht.inv.scan ht.represents key.word.toNat cnt hfuel
  refine ⟨ks, ?_, ?_⟩
  · unfold scan
    rw [show (db.withIndex t).index = t from rfl, hks, Option.map_some, List.map_map]
    refine congrArg some (List.map_congr_left (fun k hk => ?_))
    obtain ⟨hlt, hne⟩ := natMap_ne_none_iff.mp (hsmall.mem k hk).2
    have hnat : natMap db.index k = db.index (UInt64.ofNat k) := if_pos hlt
    show readValue db.log (.ofOption (natMap db.index k)) = _
    rw [hnat]
    exact hlast.readValue hne
  · have hset : {k | key.word.toNat < k ∧ natMap db.index k ≠ none} = {k | key.word.toNat < k
        ∧ k < 2 ^ 64 ∧ lastByWord (puts ops) (UInt64.ofNat k) ≠ .notFound} := by
      ext k
      refine and_congr_right (fun _ => natMap_ne_none_iff.trans (and_congr_right (fun _ => ?_)))
      exact not_congr (hlast.index_eq_none_iff _)
    rwa [hset] at hsmall

/-- A key of eight bytes whose word is `b`. -/
def wordKey (b : UInt8) : Slice where
  data := [b, 0, 0, 0, 0, 0, 0, 0]
  size := 8
  size_le := Nat.le_refl 8
  word_le := Nat.le_refl 8

/-- A record of that key with eight times the byte `v` for a value. -/
def wordEntry (b v : UInt8) : Entry :=
  { oneEntry v with key := wordKey b, keySize_lt := (oneEntry v).keySize_lt }

/-- Records of four words, in an order that is not theirs, and another of the third. -/
def fourWords : List ClientOp :=
  [.insert 0 (wordEntry 3 30), .insert 1 (wordEntry 1 10), .insert 0 (wordEntry 4 40),
    .insert 1 (wordEntry 2 20), .update 0 (wordEntry 3 31)]

/-- **A scan of two records from the first word on** leaves out the first and the last, and
reads the later record of the third. -/
theorem treeStore_scan_fourWords :
    (puts fourWords).length < 6
      ∧ ∃ N, ∀ fuel ≥ N, ∃ db,
        run (treeIndex fuel) (createTree 6 (fun _ => {})) fourWords = some db
        ∧ scan fuel db (wordKey 1) 2
          = some [.found (List.replicate 8 20), .found (List.replicate 8 31)] := by
  have hroom : (puts fourWords).length < 6 := by decide
  obtain ⟨N, h⟩ := treeStore_scan (fun _ => {}) hroom
  refine ⟨hroom, N, fun fuel hN => ?_⟩
  obtain ⟨db, hrun, hscan⟩ := h fuel hN
  obtain ⟨ks, hks, hsmall⟩ := hscan (wordKey 1) 2
  have hword : (wordKey 1).word.toNat = 1 := by decide
  rw [hword] at hsmall
  have hfirst : FastFair.Smallest {k | 1 < k ∧ k < 2 ^ 64
      ∧ lastByWord (puts fourWords) (UInt64.ofNat k) ≠ .notFound} 2 [2, 3] := by
    refine ⟨by decide, fun k hk => ?_, le_rfl, fun k hk hnot => ⟨rfl, fun k' hk' => ?_⟩⟩
    · rcases List.mem_pair.mp hk with rfl | rfl
      · exact ⟨by decide, by decide, fun hnone => (nomatch hnone)⟩
      · exact ⟨by decide, by decide, fun hnone => (nomatch hnone)⟩
    · rw [List.mem_pair] at hnot hk'
      have hgt : 1 < k := hk.1
      omega
  exact ⟨db, hrun, by rw [hks, hsmall.unique hfirst]; rfl⟩

end FlatStore
