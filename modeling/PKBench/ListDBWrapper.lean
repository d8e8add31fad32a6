import PKBench.LastWrite
import PKBench.Machine

/-!
# The ListDB wrapper

ListDB keeps for each shard a list of tables, the newest in front. A put appends
an entry to the log in persistent memory and enters its address, as a word, in the
skip list of the front table. When the front table is full a new one takes its
place, and a worker flushes it: the entries in the log are linked to a table in
persistent memory and added to the L0 cache. A get asks the tables that are still
in memory, then the cache, then the tables in persistent memory and those of the
level below.

So a get answers with a word that is one of two things: in a table in memory it is
the address of the entry, further down it is the value of the entry. The wrapper
takes either for an address and loads the word behind it, which in the first case
is the key and in the second anything at all. And the `find` for callers with a
buffer of their own never writes to the buffer. What a `find` delivers is the value
put last only by coincidence, and `delivers_iff` says what the coincidence is.

Keys and values are of eight bytes here and stand for the word they make up. Skip
lists and hash tables are taken as maps.
-/

namespace ListDB

open LastWrite (lastWrite)

/-- **An entry of the log**, with its address as `PmemPtr::dump` gives it. -/
structure PmemNode where
  paddr : UInt64
  key : UInt64
  value : UInt64
  deriving DecidableEq

/-- A skip list or a hash table: the entry it has for a key. -/
abbrev NodeMap := UInt64 → Option PmemNode

/-- What is in `new` stands before what is in `old`. -/
def NodeMap.over (new old : NodeMap) : NodeMap := fun k => (new k).or (old k)

/-- The types of a table. -/
inductive TableType where
  | memTable
  | pmemTable
  deriving DecidableEq

/-- A table of a shard. One in memory is flushed once its entries are linked to a
table in persistent memory. -/
structure Table where
  type : TableType := TableType.memTable
  nodes : NodeMap := fun _ => none
  flushed : Bool := false

/-- The kinds of L0 cache the build chooses from: none, `L0_CACHE_T_SIMPLE`, which
keeps the word of the skip list, or one of those that keep the node. -/
inductive CacheType where
  | off
  | simple
  | node
  deriving DecidableEq

/-- **The state of the store**: the log, the tables of each shard, the cache, and
the table of each shard in level 1. -/
structure DB where
  log : List PmemNode := []
  tables : ℕ → List Table := fun _ => [{}]
  cache : NodeMap := fun _ => none
  level1 : ℕ → NodeMap := fun _ _ => none

/-- `kMaxNumMemTables`. -/
def maxNumMemTables : ℕ := 4

/-- The background and the clients. -/
inductive Event where
  /-- `DBClient::Put`, by an insert or an update, with the entry it allocates. -/
  | put (node : PmemNode)
  /-- `NewMutable`: the front table of the shard is full. -/
  | newMutable (shard : ℕ)
  /-- `FlushMemTable` of the table at a place behind the front. -/
  | flush (shard i : ℕ)
  /-- `ZipperCompactionL0` of the last table. -/
  | compact (shard : ℕ)

/-! ## The store -/

/-- The entry of the first table that has one. -/
def lookup (tables : List Table) (k : UInt64) : Option PmemNode :=
  tables.findSome? (fun t => t.nodes k)

/-- `CleanUpFlushedImmutables`, from the last table on: flushed tables become
tables in persistent memory, up to the first that is not flushed. Says also whether
it came through. -/
def cleanUpTail : List Table → List Table × Bool
  | [] => ([], true)
  | t :: ts =>
      let (ts, through) := cleanUpTail ts
      if through = false then (t :: ts, false)
      else if t.type = .pmemTable then (t :: ts, true)
      else if t.flushed then ({ t with type := .pmemTable } :: ts, true)
      else (t :: ts, false)

/-- `CleanUpFlushedImmutables`, which leaves the front alone. -/
def cleanUpFlushedImmutables : List Table → List Table
  | [] => []
  | t :: ts => t :: (cleanUpTail ts).1

section Store

variable (keyShard : UInt64 → ℕ)

/-- **One step of the store.** -/
def step (db : DB) : Event → Option DB
  | .put node =>
      match db.tables (keyShard node.key) with
      | [] => none
      | front :: ts =>
          if node.paddr ≠ 0 ∧ ∀ n ∈ db.log, n.paddr ≠ node.paddr then
            some { db with
              log := node :: db.log
              tables := Function.update db.tables (keyShard node.key)
                ({ front with nodes := Function.update front.nodes node.key (some node) } :: ts) }
          else none
  | .newMutable shard =>
      if (db.tables shard).countP (fun t => t.type = .memTable) < maxNumMemTables then
        some { db with tables := Function.update db.tables shard ({} :: db.tables shard) }
      else none
  | .flush shard i =>
      match (db.tables shard)[i + 1]? with
      | none => none
      | some t =>
          if t.type = .memTable ∧ t.flushed = false then
            some { db with
              tables := Function.update db.tables shard (cleanUpFlushedImmutables
                ((db.tables shard).set (i + 1) { t with flushed := true }))
              cache := t.nodes.over db.cache }
          else none
  | .compact shard =>
      match (db.tables shard).getLast? with
      | none => none
      | some t =>
          if t.type = .pmemTable then
            some { db with
              tables := Function.update db.tables shard (db.tables shard).dropLast
              level1 := Function.update db.level1 shard (t.nodes.over (db.level1 shard)) }
          else none

/-- What the L0 cache answers. -/
def cacheGet (cacheType : CacheType) (db : DB) (k : UInt64) : Option UInt64 :=
  match cacheType with
  | .off => none
  | .simple => (db.cache k).map PmemNode.paddr
  | .node => (db.cache k).map PmemNode.value

/-- The tables `DBClient::Get` goes through before it comes to one in persistent
memory. -/
def memTables (tables : List Table) : List Table :=
  tables.takeWhile (fun t => t.type = .memTable)

/-- The tables from there on. -/
def pmemTables (tables : List Table) : List Table :=
  tables.dropWhile (fun t => t.type = .memTable)

/-- **`DBClient::Get`**: the word it stores in `value_out`. -/
def get (cacheType : CacheType) (db : DB) (k : UInt64) : Option UInt64 :=
  match lookup (memTables (db.tables (keyShard k))) k with
  | some node => some node.paddr
  | none =>
      match cacheGet cacheType db k with
      | some word => some word
      | none =>
          match lookup (pmemTables (db.tables (keyShard k))) k with
          | some node => some node.value
          | none => (db.level1 (keyShard k) k).map PmemNode.value

/-! ## The wrapper -/

/-- The overloads of `find`. -/
inductive Find where
  | chars
  | string
  deriving DecidableEq

/-- **`listdb_client::find`**: what it returns and what `value_out` holds after it,
or nothing if it faults. `load` is what a load from the address `PmemPtr::Decode`
makes of a word gives. -/
def find (load : UInt64 → Option UInt64) (cacheType : CacheType) (db : DB) (k : UInt64)
    (valueOut : UInt64) : Find → Option (Bool × UInt64)
  | .chars =>
      match get keyShard cacheType db k with
      | none => some (false, valueOut)
      | some v => (load v).map (fun _ => (true, valueOut))
  | .string =>
      match get keyShard cacheType db k with
      | none => some (false, valueOut)
      | some v => (load v).map (fun w => (true, w))

end Store

/-- **The log in memory**: the word at the address of an entry is its key. -/
def Mapped (load : UInt64 → Option UInt64) (db : DB) : Prop :=
  ∀ node ∈ db.log, load node.paddr = some node.key

/-- The entries that were put, in their order. -/
def puts (events : List Event) : List PmemNode :=
  events.filterMap fun
    | .put node => some node
    | _ => none

/-! ## What a step does -/

section Steps

variable {keyShard : UInt64 → ℕ} {db db' : DB}

theorem step_put {node : PmemNode} (h : step keyShard db (.put node) = some db') :
    ∃ front ts, db.tables (keyShard node.key) = front :: ts ∧ db' = { db with
      log := node :: db.log
      tables := Function.update db.tables (keyShard node.key)
        ({ front with nodes := Function.update front.nodes node.key (some node) } :: ts) } := by
  simp only [step] at h
  split at h
  case h_1 => cases h
  case h_2 front ts hts =>
    split at h
    case isTrue => exact ⟨front, ts, hts, (Option.some.inj h).symm⟩
    case isFalse => cases h

theorem step_newMutable {shard : ℕ} (h : step keyShard db (.newMutable shard) = some db') :
    db' = { db with tables := Function.update db.tables shard ({} :: db.tables shard) } := by
  simp only [step] at h
  split at h
  case isTrue => exact (Option.some.inj h).symm
  case isFalse => cases h

theorem step_flush {shard i : ℕ} (h : step keyShard db (.flush shard i) = some db') :
    ∃ t, (db.tables shard)[i + 1]? = some t ∧ db' = { db with
      tables := Function.update db.tables shard
        (cleanUpFlushedImmutables ((db.tables shard).set (i + 1) { t with flushed := true }))
      cache := t.nodes.over db.cache } := by
  simp only [step] at h
  split at h
  case h_1 => cases h
  case h_2 t ht =>
    split at h
    case isTrue => exact ⟨t, ht, (Option.some.inj h).symm⟩
    case isFalse => cases h

theorem step_compact {shard : ℕ} (h : step keyShard db (.compact shard) = some db') :
    ∃ t, (db.tables shard).getLast? = some t ∧ t.type = .pmemTable ∧ db' = { db with
      tables := Function.update db.tables shard (db.tables shard).dropLast
      level1 := Function.update db.level1 shard (t.nodes.over (db.level1 shard)) } := by
  simp only [step] at h
  split at h
  case h_1 => cases h
  case h_2 t ht =>
    split at h
    case isTrue htype => exact ⟨t, ht, htype, (Option.some.inj h).symm⟩
    case isFalse => cases h

end Steps

/-! ## Cleaning up -/

/-- A table whose entries the cache has been given. -/
def Table.Done (t : Table) : Prop := t.type = .pmemTable ∨ t.flushed = true

/-- A table the clean-up leaves in the place of another one. -/
def CleanedUp (t t' : Table) : Prop := t'.nodes = t.nodes ∧ (t'.Done → t.Done)

/-- Behind a table in persistent memory there are only such tables. -/
def Sorted (tables : List Table) : Prop :=
  tables.Pairwise (fun t t' => t.type = .pmemTable → t'.type = .pmemTable)

theorem cleanUpTail_forall₂ (ts : List Table) :
    List.Forall₂ CleanedUp ts (cleanUpTail ts).1 := by
  induction ts with
  | nil => exact .nil
  | cons t ts ih =>
    simp only [cleanUpTail]
    split
    · exact .cons ⟨rfl, id⟩ ih
    · split
      · exact .cons ⟨rfl, id⟩ ih
      · split
        case isTrue hflushed => exact .cons ⟨rfl, fun _ => .inr hflushed⟩ ih
        case isFalse => exact .cons ⟨rfl, id⟩ ih

/-- The clean-up comes through tables in persistent memory, and changes none. -/
theorem cleanUpTail_of_pmemTable {ts : List Table} (h : ∀ t ∈ ts, t.type = .pmemTable) :
    cleanUpTail ts = (ts, true) := by
  induction ts with
  | nil => rfl
  | cons t ts ih =>
    rw [cleanUpTail, ih fun u hu => h u (List.mem_cons_of_mem t hu)]
    simp [h t List.mem_cons_self]

theorem sorted_cleanUpTail {ts : List Table} (h : Sorted ts) :
    Sorted (cleanUpTail ts).1
      ∧ ((cleanUpTail ts).2 = true → ∀ t ∈ (cleanUpTail ts).1, t.type = .pmemTable) := by
  induction ts with
  | nil => exact ⟨.nil, fun _ t ht => (by cases ht)⟩
  | cons t ts ih =>
    obtain ⟨hhead, htail⟩ := List.pairwise_cons.mp h
    obtain ⟨hsorted, hall⟩ := ih htail
    by_cases hthrough : (cleanUpTail ts).2 = true
    · have hpmem := hall hthrough
      have hcons : ∀ t : Table, Sorted (t :: (cleanUpTail ts).1) := fun t =>
        List.pairwise_cons.mpr ⟨fun u hu _ => hpmem u hu, hsorted⟩
      simp only [cleanUpTail, hthrough, Bool.true_eq_false, if_false]
      split
      case isTrue htype =>
        exact ⟨hcons t, fun _ => List.forall_mem_cons.mpr ⟨htype, hpmem⟩⟩
      case isFalse =>
        split
        · exact ⟨hcons _, fun _ => List.forall_mem_cons.mpr ⟨rfl, hpmem⟩⟩
        · exact ⟨hcons t, fun hfalse => (by cases hfalse)⟩
    · have hstop : (cleanUpTail ts).2 = false := Bool.not_eq_true _ ▸ hthrough
      have htype : t.type ≠ .pmemTable := by
        intro htype
        rw [cleanUpTail_of_pmemTable fun u hu => hhead u hu htype] at hstop
        cases hstop
      simp only [cleanUpTail, hstop, if_true]
      exact ⟨List.pairwise_cons.mpr ⟨fun _ _ h => absurd h htype, hsorted⟩,
        fun hfalse => (by cases hfalse)⟩

theorem lookup_cons (t : Table) (ts : List Table) (k : UInt64) :
    lookup (t :: ts) k = (t.nodes k).or (lookup ts k) := by
  rw [lookup, List.findSome?_cons]
  cases t.nodes k <;> rfl

theorem lookup_append (ts ts' : List Table) (k : UInt64) :
    lookup (ts ++ ts') k = (lookup ts k).or (lookup ts' k) := by
  rw [lookup, List.findSome?_append]
  rfl

theorem exists_of_lookup {ts : List Table} {k : UInt64} {n : PmemNode}
    (h : lookup ts k = some n) : ∃ t ∈ ts, t.nodes k = some n :=
  List.exists_of_findSome?_eq_some h

/-- Every table is as the one it stands for, as far as lookups go. -/
theorem lookup_congr {ts ts' : List Table} (h : List.Forall₂ CleanedUp ts ts') (k : UInt64) :
    lookup ts' k = lookup ts k := by
  induction h with
  | nil => rfl
  | cons hhead _ ih =>
    rw [lookup_cons, lookup_cons, hhead.1, ih]

theorem exists_of_mem_cleanedUp {ts ts' : List Table} (h : List.Forall₂ CleanedUp ts ts')
    {t' : Table} (ht : t' ∈ ts') : ∃ t ∈ ts, CleanedUp t t' := by
  induction h with
  | nil => cases ht
  | cons hhead _ ih =>
    rcases List.mem_cons.mp ht with rfl | ht
    · exact ⟨_, List.mem_cons_self, hhead⟩
    · obtain ⟨t, hmem, hclean⟩ := ih ht
      exact ⟨t, List.mem_cons_of_mem _ hmem, hclean⟩

/-! ## The invariant -/

/-- The entries of a map are entries of the log, under their keys. -/
def Logged (log : List PmemNode) (m : NodeMap) : Prop :=
  ∀ k n, m k = some n → n.key = k ∧ n ∈ log

theorem Logged.over {log : List PmemNode} {m m' : NodeMap} (h : Logged log m)
    (h' : Logged log m') : Logged log (m.over m') := by
  intro k n hn
  rcases Option.or_eq_some_iff.mp hn with hn | ⟨-, hn⟩
  · exact h k n hn
  · exact h' k n hn

theorem Logged.cons {log : List PmemNode} {m : NodeMap} (h : Logged log m) (node : PmemNode) :
    Logged (node :: log) m :=
  fun k n hn => ⟨(h k n hn).1, List.mem_cons_of_mem _ (h k n hn).2⟩

/-- **A table list that is in order.** The front takes writes, tables in persistent
memory come last, and the cache has an entry for each key of a table that is done. -/
structure TablesInv (log : List PmemNode) (cache : NodeMap) (tables : List Table) : Prop where
  front : ∃ front ts, tables = front :: ts ∧ ¬ front.Done
  sorted : Sorted tables
  logged : ∀ t ∈ tables, Logged log t.nodes
  cached : ∀ t ∈ tables, t.Done → ∀ k, (t.nodes k).isSome → (cache k).isSome

/-- **The invariant** of a run: the first entry of the tables is the last that was
put, wherever the tables are by now. -/
structure Inv (keyShard : UInt64 → ℕ) (past : List Event) (db : DB) : Prop where
  tables : ∀ shard, TablesInv db.log db.cache (db.tables shard)
  cache : Logged db.log db.cache
  level1 : ∀ shard k, (db.level1 shard k).isSome → (db.cache k).isSome
  latest : ∀ k, (lookup (db.tables (keyShard k)) k).or (db.level1 (keyShard k) k)
    = lastWrite PmemNode.key (puts past) k

theorem isSome_over_right {m m' : NodeMap} {k : UInt64} (h : (m' k).isSome) :
    (m.over m' k).isSome := by
  rw [NodeMap.over, Option.isSome_or, h, Bool.or_true]

theorem isSome_over_left {m m' : NodeMap} {k : UInt64} (h : (m k).isSome) :
    (m.over m' k).isSome := by
  rw [NodeMap.over, Option.isSome_or, h, Bool.true_or]

section TablesInv

variable {log : List PmemNode} {cache : NodeMap} {tables : List Table}

theorem TablesInv.log_cons (h : TablesInv log cache tables) (node : PmemNode) :
    TablesInv (node :: log) cache tables :=
  ⟨h.front, h.sorted, fun t ht => (h.logged t ht).cons node, h.cached⟩

theorem TablesInv.cache_over (h : TablesInv log cache tables) (m : NodeMap) :
    TablesInv log (m.over cache) tables :=
  ⟨h.front, h.sorted, h.logged, fun t ht hdone k hk => isSome_over_right (h.cached t ht hdone k hk)⟩

/-- The front takes an entry. -/
theorem TablesInv.put {front : Table} {ts : List Table} (h : TablesInv log cache (front :: ts))
    (node : PmemNode) : TablesInv (node :: log) cache
      ({ front with nodes := Function.update front.nodes node.key (some node) } :: ts) := by
  obtain ⟨front', ts', heq, hfront⟩ := h.front
  obtain ⟨rfl, rfl⟩ := List.cons.inj heq
  obtain ⟨hhead, htail⟩ := List.pairwise_cons.mp h.sorted
  refine ⟨⟨_, _, rfl, hfront⟩, List.pairwise_cons.mpr ⟨hhead, htail⟩,
    List.forall_mem_cons.mpr ⟨?_, fun t ht => ?_⟩,
    List.forall_mem_cons.mpr ⟨fun hdone => absurd hdone hfront, fun t ht => ?_⟩⟩
  · intro k n hn
    by_cases hk : k = node.key
    · subst hk
      simp only [Function.update_self, Option.some.injEq] at hn
      subst hn
      exact ⟨rfl, List.mem_cons_self⟩
    · simp only [Function.update_of_ne hk] at hn
      exact (h.logged front List.mem_cons_self).cons node k n hn
  · exact (h.logged t (List.mem_cons_of_mem _ ht)).cons node
  · exact h.cached t (List.mem_cons_of_mem _ ht)

/-- A new front takes its place. -/
theorem TablesInv.newMutable (h : TablesInv log cache tables) :
    TablesInv log cache ({} :: tables) := by
  have hnew : ¬ ({} : Table).Done := by rintro (h | h) <;> cases h
  refine ⟨⟨_, _, rfl, hnew⟩, List.pairwise_cons.mpr ⟨fun _ _ h => (by cases h), h.sorted⟩,
    List.forall_mem_cons.mpr ⟨fun k n hn => (by cases hn), h.logged⟩,
    List.forall_mem_cons.mpr ⟨fun hdone => absurd hdone hnew, h.cached⟩⟩

/-- The last table leaves the list. -/
theorem TablesInv.dropLast {t : Table} (h : TablesInv log cache tables)
    (hlast : tables.getLast? = some t) (htype : t.type = .pmemTable) :
    TablesInv log cache tables.dropLast := by
  obtain ⟨front, ts, rfl, hfront⟩ := h.front
  refine ⟨?_, h.sorted.sublist (List.dropLast_sublist _),
    fun u hu => h.logged u (List.dropLast_subset _ hu),
    fun u hu => h.cached u (List.dropLast_subset _ hu)⟩
  cases ts with
  | nil =>
    obtain rfl : front = t := Option.some.inj hlast
    exact absurd (.inl htype) hfront
  | cons u ts => exact ⟨front, _, rfl, hfront⟩

/-- Marking a table as flushed changes no lookup. -/
theorem lookup_set {ts : List Table} {i : ℕ} {t : Table} (h : ts[i]? = some t) (k : UInt64) :
    lookup (ts.set i { t with flushed := true }) k = lookup ts k := by
  induction ts generalizing i with
  | nil => rfl
  | cons u ts ih =>
    cases i with
    | zero =>
      obtain rfl : u = t := Option.some.inj h
      rw [List.set_cons_zero, lookup_cons, lookup_cons]
    | succ i =>
      rw [List.set_cons_succ, lookup_cons, lookup_cons, ih h]

theorem sorted_set {ts : List Table} {i : ℕ} {t : Table} (h : Sorted ts) (ht : ts[i]? = some t) :
    Sorted (ts.set i { t with flushed := true }) := by
  induction ts generalizing i with
  | nil => exact .nil
  | cons u ts ih =>
    obtain ⟨hhead, htail⟩ := List.pairwise_cons.mp h
    cases i with
    | zero =>
      obtain rfl : u = t := Option.some.inj ht
      exact List.pairwise_cons.mpr ⟨hhead, htail⟩
    | succ i =>
      refine List.pairwise_cons.mpr ⟨fun v hv htype => ?_, ih htail ht⟩
      rcases List.mem_or_eq_of_mem_set hv with hv | rfl
      · exact hhead v hv htype
      · exact hhead t (List.mem_of_getElem? ht) htype

/-- **A flush keeps the tables in order and no lookup notices it.** -/
theorem TablesInv.flush {i : ℕ} {t : Table} (h : TablesInv log cache tables)
    (ht : tables[i + 1]? = some t) :
    TablesInv log (t.nodes.over cache)
        (cleanUpFlushedImmutables (tables.set (i + 1) { t with flushed := true }))
      ∧ ∀ k, lookup (cleanUpFlushedImmutables (tables.set (i + 1) { t with flushed := true })) k
        = lookup tables k := by
  obtain ⟨front, ts, rfl, hfront⟩ := h.front
  have hmem : t ∈ front :: ts := List.mem_of_getElem? ht
  have ht : ts[i]? = some t := ht
  have htail : Sorted ts := (List.pairwise_cons.mp h.sorted).2
  have hclean := cleanUpTail_forall₂ (ts.set i { t with flushed := true })
  have hold : ∀ u ∈ (cleanUpTail (ts.set i { t with flushed := true })).1,
      (u.nodes = t.nodes) ∨ ∃ v ∈ front :: ts, u.nodes = v.nodes ∧ (u.Done → v.Done) := by
    intro u hu
    obtain ⟨v, hv, huv⟩ := exists_of_mem_cleanedUp hclean hu
    rcases List.mem_or_eq_of_mem_set hv with hv | rfl
    · exact .inr ⟨v, List.mem_cons_of_mem _ hv, huv⟩
    · exact .inl huv.1
  rw [List.set_cons_succ]
  refine ⟨⟨⟨_, _, rfl, hfront⟩, ?_, ?_, ?_⟩, fun k => ?_⟩
  · exact List.pairwise_cons.mpr ⟨fun _ _ htype => absurd (.inl htype) hfront,
      (sorted_cleanUpTail (sorted_set htail ht)).1⟩
  · refine List.forall_mem_cons.mpr ⟨h.logged front List.mem_cons_self, fun u hu => ?_⟩
    rcases hold u hu with hnodes | ⟨v, hv, hnodes, -⟩
    · rw [hnodes]
      exact h.logged t hmem
    · rw [hnodes]
      exact h.logged v hv
  · refine List.forall_mem_cons.mpr ⟨fun hdone => absurd hdone hfront, fun u hu hdone k hk => ?_⟩
    rcases hold u hu with hnodes | ⟨v, hv, hnodes, hvdone⟩
    · exact isSome_over_left (hnodes ▸ hk)
    · exact isSome_over_right (h.cached v hv (hvdone hdone) k (hnodes ▸ hk))
  · rw [cleanUpFlushedImmutables, lookup_cons, lookup_congr hclean, lookup_set ht, ← lookup_cons]

end TablesInv

namespace Inv

variable {keyShard : UInt64 → ℕ} {past : List Event} {db db' : DB}

theorem put {node : PmemNode} (h : Inv keyShard past db)
    (hs : ListDB.step keyShard db (.put node) = some db') :
    Inv keyShard (past ++ [.put node]) db' := by
  obtain ⟨front, ts, hts, rfl⟩ := step_put hs
  have hfront := h.tables (keyShard node.key)
  rw [hts] at hfront
  have hputs : puts (past ++ [.put node]) = puts past ++ [node] := List.filterMap_append
  refine ⟨?_, h.cache.cons node, h.level1, fun k => ?_⟩
  · rw [Function.forall_update_iff db.tables (fun _ => TablesInv (node :: db.log) db.cache)]
    exact ⟨hfront.put node, fun shard _ => (h.tables shard).log_cons node⟩
  · rw [hputs, LastWrite.lastWrite_concat]
    show (lookup (Function.update db.tables _ _ (keyShard k)) k).or _ = _
    by_cases hk : node.key = k
    · subst hk
      rw [if_pos rfl, Function.update_self, lookup_cons]
      simp only [Function.update_self, Option.some_or]
    · rw [if_neg hk, ← h.latest k]
      by_cases hshard : keyShard k = keyShard node.key
      · rw [hshard, Function.update_self, hts, lookup_cons, lookup_cons]
        simp only [Function.update_of_ne (Ne.symm hk)]
      · rw [Function.update_of_ne hshard]

theorem newMutable {shard : ℕ} (h : Inv keyShard past db)
    (hs : ListDB.step keyShard db (.newMutable shard) = some db') :
    Inv keyShard (past ++ [.newMutable shard]) db' := by
  obtain rfl := step_newMutable hs
  have hputs : puts (past ++ [.newMutable shard]) = puts past :=
    List.filterMap_append.trans (List.append_nil _)
  refine ⟨?_, h.cache, h.level1, fun k => ?_⟩
  · rw [Function.forall_update_iff db.tables (fun _ => TablesInv db.log db.cache)]
    exact ⟨(h.tables shard).newMutable, fun shard _ => h.tables shard⟩
  · rw [hputs, ← h.latest k]
    show (lookup (Function.update db.tables _ _ (keyShard k)) k).or _ = _
    by_cases hshard : keyShard k = shard
    · rw [hshard, Function.update_self, lookup_cons]
      rfl
    · rw [Function.update_of_ne hshard]

theorem flush {shard i : ℕ} (h : Inv keyShard past db)
    (hs : ListDB.step keyShard db (.flush shard i) = some db') :
    Inv keyShard (past ++ [.flush shard i]) db' := by
  obtain ⟨t, ht, rfl⟩ := step_flush hs
  obtain ⟨htables, hlookup⟩ := (h.tables shard).flush ht
  have hputs : puts (past ++ [.flush shard i]) = puts past :=
    List.filterMap_append.trans (List.append_nil _)
  have hlogged : Logged db.log t.nodes := (h.tables shard).logged t (List.mem_of_getElem? ht)
  refine ⟨?_, hlogged.over h.cache, fun shard k hk => isSome_over_right (h.level1 shard k hk),
    fun k => ?_⟩
  · rw [Function.forall_update_iff db.tables (fun _ => TablesInv db.log (t.nodes.over db.cache))]
    exact ⟨htables, fun shard _ => (h.tables shard).cache_over t.nodes⟩
  · rw [hputs, ← h.latest k]
    show (lookup (Function.update db.tables _ _ (keyShard k)) k).or _ = _
    by_cases hshard : keyShard k = shard
    · rw [hshard, Function.update_self, hlookup]
    · rw [Function.update_of_ne hshard]

theorem compact {shard : ℕ} (h : Inv keyShard past db)
    (hs : ListDB.step keyShard db (.compact shard) = some db') :
    Inv keyShard (past ++ [.compact shard]) db' := by
  obtain ⟨t, ht, htype, rfl⟩ := step_compact hs
  have hputs : puts (past ++ [.compact shard]) = puts past :=
    List.filterMap_append.trans (List.append_nil _)
  have hcached := (h.tables shard).cached t (List.mem_of_getLast? ht) (.inl htype)
  refine ⟨?_, h.cache, ?_, fun k => ?_⟩
  · rw [Function.forall_update_iff db.tables (fun _ => TablesInv db.log db.cache)]
    exact ⟨(h.tables shard).dropLast ht htype, fun shard _ => h.tables shard⟩
  · rw [Function.forall_update_iff db.level1
      (fun _ (m : NodeMap) => ∀ k, (m k).isSome → (db.cache k).isSome)]
    refine ⟨fun k hk => ?_, fun shard _ => h.level1 shard⟩
    rw [NodeMap.over, Option.isSome_or, Bool.or_eq_true] at hk
    exact hk.elim (hcached k) (h.level1 shard k)
  · rw [hputs, ← h.latest k]
    show (lookup (Function.update db.tables _ _ (keyShard k)) k).or
      (Function.update db.level1 _ _ (keyShard k) k) = _
    by_cases hshard : keyShard k = shard
    · rw [hshard, Function.update_self, Function.update_self, NodeMap.over, ← Option.or_assoc]
      have hlast : lookup [t] k = t.nodes k := by rw [lookup_cons]; exact Option.or_none
      rw [← hlast, ← lookup_append, List.dropLast_append_getLast? t ht]
    · rw [Function.update_of_ne hshard, Function.update_of_ne hshard]

/-- **Every step keeps the invariant.** -/
theorem step {e : Event} (h : Inv keyShard past db)
    (hs : ListDB.step keyShard db e = some db') : Inv keyShard (past ++ [e]) db' := by
  cases e with
  | put node => exact h.put hs
  | newMutable shard => exact h.newMutable hs
  | flush shard i => exact h.flush hs
  | compact shard => exact h.compact hs

end Inv

/-- The store the wrapper opens has the invariant. -/
theorem inv_init (keyShard : UInt64 → ℕ) : Inv keyShard [] {} := by
  have hnew : ¬ ({} : Table).Done := by rintro (h | h) <;> cases h
  refine ⟨fun shard => ⟨⟨_, _, rfl, hnew⟩, List.pairwise_singleton _ _, ?_, ?_⟩,
    fun k n hn => (by cases hn), fun shard k hk => (by cases hk), fun k => rfl⟩
  · intro t ht k n hn
    obtain rfl := List.mem_singleton.mp ht
    cases hn
  · intro t ht hdone
    obtain rfl := List.mem_singleton.mp ht
    exact absurd hdone hnew

theorem inv_of_run {keyShard : UInt64 → ℕ} {events : List Event} {db : DB}
    (hrun : Machine.run (step keyShard) {} events = some db) : Inv keyShard events db :=
  @Machine.run_inv _ _ _ (Inv keyShard) (fun _ _ _ _ h hs => h.step hs) [] events _ _
    (inv_init keyShard) hrun

/-! ## What `find` delivers -/

section Find

variable (keyShard : UInt64 → ℕ) (cacheType : CacheType) (db : DB) (k : UInt64)

/-- The word a get answers with is the address of an entry: the key is in a table in
memory, or the cache is the simple one. -/
def Addressed : Prop :=
  (lookup (memTables (db.tables (keyShard k))) k).isSome ∨ cacheType = .simple

/-- The value a get answers with otherwise. A cache that was given the entries of
an older table after those of a newer one has an old one; the tables have the value
put last. -/
def storedValue (value : UInt64) : UInt64 :=
  match cacheType with
  | .node => ((db.cache k).map PmemNode.value).getD value
  | _ => value

/-- **The coincidence** that makes `find` deliver a value. With a buffer it has to
be there already. With a string it has to be the key, if the get answers with an
address; if not, it has to be found at the address the stored value is taken for. -/
def Coincides (load : UInt64 → Option UInt64) (valueOut value : UInt64) : Find → Prop
  | .chars => valueOut = value
      ∧ (Addressed keyShard cacheType db k ∨ (load (storedValue cacheType db k value)).isSome)
  | .string => (Addressed keyShard cacheType db k ∧ k = value)
      ∨ (¬ Addressed keyShard cacheType db k
        ∧ load (storedValue cacheType db k value) = some value)

variable {keyShard cacheType db k}

/-- The tables from the first one in persistent memory on are all done. -/
theorem TablesInv.done_of_mem_pmemTables {log : List PmemNode} {cache : NodeMap}
    {tables : List Table} (h : TablesInv log cache tables) {t : Table}
    (ht : t ∈ pmemTables tables) : t.Done := by
  have hsorted : Sorted (pmemTables tables) := h.sorted.sublist (List.dropWhile_sublist _)
  cases hdrop : pmemTables tables with
  | nil =>
    rw [hdrop] at ht
    cases ht
  | cons u us =>
    have hhead : u.type = .pmemTable := by
      have hnot := List.head?_dropWhile_not (fun t : Table => decide (t.type = .memTable)) tables
      rw [← pmemTables, hdrop] at hnot
      cases htype : u.type with
      | pmemTable => rfl
      | memTable => simp [htype] at hnot
    rw [hdrop] at ht hsorted
    rcases List.mem_cons.mp ht with rfl | ht
    · exact .inl hhead
    · exact .inl ((List.pairwise_cons.mp hsorted).1 t ht hhead)

variable {past : List Event} {node : PmemNode}

/-- A key that is in no table in memory is in the cache. -/
theorem Inv.exists_cache (h : Inv keyShard past db)
    (hlast : lastWrite PmemNode.key (puts past) k = some node)
    (hmem : lookup (memTables (db.tables (keyShard k))) k = none) :
    (lookup (pmemTables (db.tables (keyShard k))) k).or (db.level1 (keyShard k) k) = some node
      ∧ ∃ c, db.cache k = some c := by
  have hlatest := h.latest k
  rw [← List.takeWhile_append_dropWhile (l := db.tables (keyShard k))
      (p := fun t => decide (t.type = .memTable)), lookup_append, ← memTables, ← pmemTables, hmem,
    Option.none_or, hlast] at hlatest
  refine ⟨hlatest, Option.isSome_iff_exists.mp ?_⟩
  rcases Option.or_eq_some_iff.mp hlatest with hpmem | ⟨-, hlevel1⟩
  · obtain ⟨t, ht, hnode⟩ := exists_of_lookup hpmem
    have hdone := (h.tables (keyShard k)).done_of_mem_pmemTables ht
    exact (h.tables (keyShard k)).cached t ((List.dropWhile_sublist _).subset ht) hdone k
      (Option.isSome_iff_exists.mpr ⟨node, hnode⟩)
  · exact h.level1 _ k (Option.isSome_iff_exists.mpr ⟨node, hlevel1⟩)

/-- **The two encodings of what a get answers.** -/
theorem Inv.get_of_addressed (h : Inv keyShard past db)
    (hlast : lastWrite PmemNode.key (puts past) k = some node)
    (haddr : Addressed keyShard cacheType db k) :
    ∃ n ∈ db.log, n.key = k ∧ get keyShard cacheType db k = some n.paddr := by
  cases hmem : lookup (memTables (db.tables (keyShard k))) k with
  | some n =>
    obtain ⟨t, ht, hn⟩ := exists_of_lookup hmem
    obtain ⟨hkey, hlog⟩ := (h.tables (keyShard k)).logged t
      ((List.takeWhile_sublist _).subset ht) k n hn
    exact ⟨n, hlog, hkey, by rw [get, hmem]⟩
  | none =>
    obtain ⟨-, c, hc⟩ := h.exists_cache hlast hmem
    rw [Addressed, hmem] at haddr
    obtain rfl : cacheType = .simple := haddr.resolve_left (by simp)
    obtain ⟨hkey, hlog⟩ := h.cache k c hc
    exact ⟨c, hlog, hkey, by rw [get, hmem]; simp [cacheGet, hc]⟩

theorem Inv.get_of_not_addressed (h : Inv keyShard past db)
    (hlast : lastWrite PmemNode.key (puts past) k = some node)
    (haddr : ¬ Addressed keyShard cacheType db k) :
    get keyShard cacheType db k = some (storedValue cacheType db k node.value) := by
  rw [Addressed, not_or, Bool.not_eq_true, Option.isSome_eq_false_iff,
    Option.isNone_iff_eq_none] at haddr
  obtain ⟨hmem, hsimple⟩ := haddr
  obtain ⟨hnode, c, hc⟩ := h.exists_cache hlast hmem
  rw [get, hmem]
  cases cacheType with
  | simple => exact absurd rfl hsimple
  | node => simp [cacheGet, storedValue, hc]
  | off =>
    cases hpmem : lookup (pmemTables (db.tables (keyShard k))) k with
    | some n =>
      rw [hpmem, Option.some_or, Option.some.injEq] at hnode
      rw [hnode]
      rfl
    | none =>
      rw [hpmem, Option.none_or] at hnode
      show (db.level1 (keyShard k) k).map PmemNode.value = _
      rw [hnode]
      rfl

/-- **What `find` delivers is the value put last exactly when a coincidence makes
it so**, for both overloads and wherever the key is by now. -/
theorem delivers_iff {events : List Event} {load : UInt64 → Option UInt64}
    (hrun : Machine.run (step keyShard) {} events = some db) (hload : Mapped load db)
    (hlast : lastWrite PmemNode.key (puts events) k = some node) (valueOut : UInt64) (f : Find) :
    find keyShard load cacheType db k valueOut f = some (true, node.value)
      ↔ Coincides keyShard cacheType db k load valueOut node.value f := by
  have h := inv_of_run hrun
  by_cases haddr : Addressed keyShard cacheType db k
  · obtain ⟨n, hlog, hkey, hget⟩ := h.get_of_addressed hlast haddr
    have hk : load n.paddr = some k := hkey ▸ hload n hlog
    cases f with
    | chars => simp [find, hget, hk, Coincides, haddr]
    | string => simp [find, hget, hk, Coincides, haddr]
  · have hget := h.get_of_not_addressed hlast haddr
    cases f with
    | chars =>
      rw [find, hget, Coincides, Option.isSome_iff_exists]
      simp [haddr, and_comm]
    | string =>
      rw [find, hget, Coincides]
      simp [haddr]

end Find

/-- An entry whose address, key and value are one word. -/
def selfNode : PmemNode := { paddr := 8, key := 8, value := 8 }

/-- Memory with that entry only. -/
def selfLoad (word : UInt64) : Option UInt64 := if word = 8 then some 8 else none

/-- Its value is found once its table is flushed. -/
theorem delivers_self : ∃ db,
    Machine.run (step fun _ => 0) {} [.put selfNode, .newMutable 0, .flush 0 0] = some db
      ∧ Mapped selfLoad db
      ∧ find (fun _ => 0) selfLoad .node db 8 0 .string = some (true, 8) := by
  obtain ⟨db, hrun, hlog, hmem, hcache⟩ : ∃ db,
      Machine.run (step fun _ => 0) {} [.put selfNode, .newMutable 0, .flush 0 0] = some db
        ∧ db.log = [selfNode] ∧ lookup (memTables (db.tables 0)) 8 = none
        ∧ db.cache 8 = some selfNode :=
    ⟨_, rfl, rfl, rfl, rfl⟩
  have hmapped : Mapped selfLoad db := by
    intro n hn
    rw [hlog, List.mem_singleton] at hn
    subst hn
    rfl
  have haddr : ¬ Addressed (fun _ => 0) .node db 8 := by
    rw [Addressed, hmem]
    decide
  have hstored : selfLoad (storedValue .node db 8 8) = some 8 := by
    rw [storedValue, hcache]
    rfl
  exact ⟨db, hrun, hmapped, (delivers_iff hrun hmapped rfl 0 .string).mpr (.inr ⟨haddr, hstored⟩)⟩

/-- **`find` does not deliver the value put last**: after an insert of the value 2
under the key 1 it delivers the key. -/
theorem not_delivers : ¬ ∀ (keyShard : UInt64 → ℕ) (cacheType : CacheType)
    (load : UInt64 → Option UInt64) (events : List Event) (db : DB) (k valueOut : UInt64)
    (node : PmemNode) (f : Find),
    Machine.run (step keyShard) {} events = some db → Mapped load db →
      lastWrite PmemNode.key (puts events) k = some node →
      find keyShard load cacheType db k valueOut f = some (true, node.value) := by
  intro h
  have hfind := h (fun _ => 0) .simple (fun word => if word = 8 then some 1 else none)
    [.put { paddr := 8, key := 1, value := 2 }] _ 1 0 _ .string rfl
    (by
      intro n hn
      rw [List.mem_singleton.mp hn]
      rfl) rfl
  exact absurd hfind (by decide)

end ListDB
