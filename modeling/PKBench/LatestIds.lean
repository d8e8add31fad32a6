import PKBench.Options
import PKBench.Machine
import Mathlib.Data.UInt
import Mathlib.Data.Rat.Floor

/-!
# The ids of the latest distribution

`latest_generator_t` favours the newest ids: it takes the value before the next
of a counter for the newest id, and draws from a Zipfian distribution how far to
go back from there. Nothing ever advances the counter, so the newest id is
settled by the constructor – and the constructor starts the counter at `size`,
the size of a key, where the other distributions are given `N`.

So the ids are drawn from `1, …, size - 1`, whatever the key space
(`support_eq`). They are the ids of the key space for a single key size, and no
two key sizes agree on them (`not_supportsKeyspace`).

What the Zipfian distribution draws is input: below the number of items it is
asked for anything can come, and nothing else (`ZipfianGenerator.next`). A
counter that starts at one asks for no item, and then there is no generator.
-/

open Binary32 (toFloat)

namespace LatestIds

/-! ## The generators -/

/-- `CounterGenerator`, of which only `Last` is called. -/
structure CounterGenerator where
  counter : UInt64

/-- `CounterGenerator::Last`: the number handed out before the counter. -/
def CounterGenerator.last (cg : CounterGenerator) : UInt64 := cg.counter - 1

/-- **The Zipfian generator**, without what it computes the distribution from. -/
structure ZipfianGenerator where
  items : UInt64
  lastValue : UInt64

/-- **`ZipfianGenerator::Next(num)`** where `drawn` is what comes of it. -/
def ZipfianGenerator.next (zipfian : ZipfianGenerator) (num drawn : UInt64) :
    Option (UInt64 × ZipfianGenerator) :=
  if drawn < num then some (drawn, { zipfian with lastValue := drawn }) else none

/-- `ZipfianGenerator::ZipfianGenerator(num_items)`, which draws once. -/
def ZipfianGenerator.new (numItems drawn : UInt64) : Option ZipfianGenerator :=
  let items := numItems - 1 - 0 + 1
  (ZipfianGenerator.next { items := items, lastValue := 0 } items drawn).map Prod.snd

/-- `SkewedLatestGenerator`, apart from the counter it refers to. -/
structure SkewedLatestGenerator where
  zipfian : ZipfianGenerator
  last : UInt64

/-- **`SkewedLatestGenerator::Next`.** -/
def SkewedLatestGenerator.next (basis : CounterGenerator) (gen : SkewedLatestGenerator)
    (drawn : UInt64) : Option (UInt64 × SkewedLatestGenerator) := do
  let max := basis.last
  let (z, zipfian) ← gen.zipfian.next max drawn
  return (max - z, { zipfian := zipfian, last := max - z })

/-- `SkewedLatestGenerator::SkewedLatestGenerator`, with what its own call of `Next`
and that of the Zipfian generator draw. -/
def SkewedLatestGenerator.new (basis : CounterGenerator) (drawn₀ drawn : UInt64) :
    Option SkewedLatestGenerator := do
  let zipfian ← ZipfianGenerator.new basis.last drawn₀
  let (_, gen) ← SkewedLatestGenerator.next basis { zipfian := zipfian, last := 0 } drawn
  return gen

/-- **`latest_generator_t`**: the key space, the size of a key, the counter and the
generator on it. -/
structure LatestGenerator where
  N : UInt64
  size : UInt64
  cg : CounterGenerator
  gen : SkewedLatestGenerator

namespace LatestGenerator

/-- **The constructor.** -/
def new (N size drawn₀ drawn : UInt64) : Option LatestGenerator :=
  let cg : CounterGenerator := { counter := size }
  (SkewedLatestGenerator.new cg drawn₀ drawn).map
    (fun gen => { N := N, size := size, cg := cg, gen := gen })

/-- **`latest_generator_t::next_id`.** -/
def nextId (g : LatestGenerator) (drawn : UInt64) : Option (UInt64 × LatestGenerator) :=
  (g.gen.next g.cg drawn).map (fun (id, gen) => (id, { g with gen := gen }))

/-- A call of `next_id`, by whichever thread. -/
def step (g : LatestGenerator) (drawn : UInt64) : Option LatestGenerator :=
  (g.nextId drawn).map Prod.snd

end LatestGenerator

/-- **A generator after any number of calls.** -/
def Reachable (N size : UInt64) (g : LatestGenerator) : Prop :=
  ∃ drawn₀ drawn g₀, LatestGenerator.new N size drawn₀ drawn = some g₀
    ∧ Machine.Reaches LatestGenerator.step g₀ g

/-- **The ids `next_id` can return.** -/
def support (N size : UInt64) : Set UInt64 :=
  {id | ∃ g drawn g', Reachable N size g ∧ g.nextId drawn = some (id, g')}

/-! ## What is returned -/

/-- `next_id` goes back from the number before the counter. -/
theorem nextId_eq_some {g g' : LatestGenerator} {drawn id : UInt64} :
    g.nextId drawn = some (id, g')
      ↔ drawn < g.cg.last ∧ id = g.cg.last - drawn
        ∧ g' = { g with
            gen := ⟨{ g.gen.zipfian with lastValue := drawn }, g.cg.last - drawn⟩ } := by
  unfold LatestGenerator.nextId SkewedLatestGenerator.next ZipfianGenerator.next
  by_cases h : drawn < g.cg.last
  · simp [h, eq_comm]
  · simp [h]

/-- The constructor returns a generator if both of its draws are below the number
before the counter. -/
theorem new_eq_some {N size drawn₀ drawn : UInt64} {g : LatestGenerator} :
    LatestGenerator.new N size drawn₀ drawn = some g
      ↔ drawn₀ < size - 1 ∧ drawn < size - 1
        ∧ g = ⟨N, size, ⟨size⟩, ⟨⟨size - 1, drawn⟩, size - 1 - drawn⟩⟩ := by
  have hitems : size - 1 - 1 - 0 + 1 = size - 1 := by
    rw [UInt64.sub_zero, UInt64.sub_add_cancel]
  unfold LatestGenerator.new SkewedLatestGenerator.new ZipfianGenerator.new
    SkewedLatestGenerator.next ZipfianGenerator.next CounterGenerator.last
  dsimp only
  rw [hitems]
  by_cases h₀ : drawn₀ < size - 1
  · by_cases h : drawn < size - 1
    · simp [h₀, h, eq_comm]
    · simp [h₀, h]
  · simp [h₀]

/-- No call touches the counter. -/
theorem last_of_reachable {N size : UInt64} {g : LatestGenerator} (h : Reachable N size g) :
    g.cg.last = size - 1 ∧ 0 < size - 1 := by
  obtain ⟨drawn₀, drawn, g₀, hnew, es, hrun⟩ := h
  obtain ⟨-, hlt, rfl⟩ := new_eq_some.mp hnew
  refine ⟨?_, UInt64.lt_of_le_of_lt UInt64.zero_le hlt⟩
  refine Machine.run_preserves LatestGenerator.step (P := fun g => g.cg.last = size - 1) ?_ rfl hrun
  intro g drawn g' hlast hstep
  obtain ⟨⟨id, g₁⟩, hnext, rfl⟩ := Option.map_eq_some_iff.mp hstep
  obtain ⟨-, -, rfl⟩ := nextId_eq_some.mp hnext
  exact hlast

/-- A generator whose counter asks for an item can be built. -/
theorem exists_reachable {N size : UInt64} (h : 0 < size - 1) : ∃ g, Reachable N size g :=
  ⟨_, 0, 0, _, new_eq_some.mpr ⟨h, h, rfl⟩, Machine.Reaches.refl _⟩

/-- **The ids are those below the key size**, whatever the key space. -/
theorem support_eq (N size : UInt64) : support N size = {id | 1 ≤ id ∧ id ≤ size - 1} := by
  ext id
  constructor
  · rintro ⟨g, drawn, g', hg, hnext⟩
    obtain ⟨hlt, rfl, -⟩ := nextId_eq_some.mp hnext
    obtain ⟨hlast, -⟩ := last_of_reachable hg
    rw [hlast] at hlt ⊢
    rw [UInt64.lt_iff_toNat_lt] at hlt
    have hsub := UInt64.toNat_sub_of_le (size - 1) drawn (UInt64.le_iff_toNat_le.mpr hlt.le)
    refine ⟨UInt64.le_iff_toNat_le.mpr ?_, UInt64.le_iff_toNat_le.mpr ?_⟩
    · rw [hsub]
      exact Nat.sub_pos_of_lt hlt
    · rw [hsub]
      exact Nat.sub_le _ _
  · rintro ⟨hpos, hle⟩
    obtain ⟨g, hg⟩ := exists_reachable (N := N) (UInt64.lt_of_lt_of_le hpos hle)
    obtain ⟨hlast, -⟩ := last_of_reachable hg
    refine ⟨g, size - 1 - id, _, hg, nextId_eq_some.mpr ⟨?_, ?_, rfl⟩⟩
    · rw [hlast]
      exact UInt64.sub_lt hpos hle
    · rw [hlast, eq_comm, UInt64.sub_eq_iff_eq_add, UInt64.add_comm, UInt64.sub_add_cancel]

/-- Two sets of ids from one on are the same if their largest ids are. -/
theorem ids_eq_iff (a b : UInt64) :
    {id | 1 ≤ id ∧ id ≤ a} = {id | 1 ≤ id ∧ id ≤ b} ↔ a = b := by
  -- the larger of the two is in both sets, unless there is none
  have hle : ∀ a b : UInt64, {id | 1 ≤ id ∧ id ≤ a} = {id | 1 ≤ id ∧ id ≤ b} → a ≤ b := by
    intro a b h
    by_cases hpos : 1 ≤ a
    · have hmem : a ∈ {id | 1 ≤ id ∧ id ≤ a} := ⟨hpos, UInt64.le_refl a⟩
      rw [h] at hmem
      exact hmem.2
    · have hzero : a = 0 := by
        refine UInt64.le_antisymm ?_ UInt64.zero_le
        exact UInt64.le_iff_toNat_le.mpr (Nat.lt_succ_iff.mp (UInt64.not_le.mp hpos))
      rw [hzero]
      exact UInt64.zero_le
  constructor
  · exact fun h => UInt64.le_antisymm (hle a b h) (hle b a h.symm)
  · exact fun h => h ▸ rfl

/-- **No two key sizes draw from the same ids.** -/
theorem support_eq_support_iff (N size size' : UInt64) :
    support N size = support N size' ↔ size = size' := by
  rw [support_eq, support_eq, ids_eq_iff, UInt64.sub_eq_iff_eq_add, UInt64.sub_add_cancel]

/-! ## The key space -/

/-- **The distribution is the one of the key space**: any of its ids can be returned
and no other, and the newest is returned for the draw zero, after any number of
calls. -/
structure SupportsKeyspace (N size : UInt64) : Prop where
  exact_ids : support N size = {id | 1 ≤ id ∧ id ≤ N}
  newest : ∀ g, Reachable N size g → ∃ g', g.nextId 0 = some (N, g')

/-- It is so for a single key size. -/
theorem supportsKeyspace_iff (N size : UInt64) : SupportsKeyspace N size ↔ size = N + 1 := by
  rw [← UInt64.sub_eq_iff_eq_add]
  constructor
  · intro h
    have hids := h.exact_ids
    rwa [support_eq, ids_eq_iff] at hids
  · intro h
    refine ⟨by rw [support_eq, h], fun g hg => ?_⟩
    obtain ⟨hlast, hpos⟩ := last_of_reachable hg
    exact ⟨_, nextId_eq_some.mpr ⟨hlast ▸ hpos, by rw [hlast, UInt64.sub_zero, h], rfl⟩⟩

/-- **The ids depend on the key size, for every key space**, and are those of the key
space only for the key size one above it. -/
theorem not_supportsKeyspace (N size : UInt64) :
    ¬ (SupportsKeyspace N size ∧ ∀ size', support N size' = support N size)
      ∧ (SupportsKeyspace N size ↔ size = N + 1) := by
  refine ⟨?_, supportsKeyspace_iff N size⟩
  rintro ⟨-, hindep⟩
  have h₈ := (support_eq_support_iff N 8 size).mp (hindep 8)
  have h₁₆ := (support_eq_support_iff N 16 size).mp (hindep 16)
  exact absurd (h₈.trans h₁₆.symm) (by decide)

/-- `key_space_sz` of the constructor of `benchmark_t`, a sum of `float`s. -/
def keySpaceSz (opt : Options) : UInt64 :=
  UInt64.ofNat ⌊toFloat (toFloat opt.numRecords.toNat
    + toFloat (toFloat opt.numOps.toNat * opt.insertRatio))⌋.toNat

/-- The default options with the latest distribution. -/
def latestOptions : Options := { keyDistribution := .latest }

/-- **A million records and keys of eight bytes**: seven of the ids are ever drawn. -/
theorem latestOptions_draw_seven :
    latestOptions.Accepted
      ∧ keySpaceSz latestOptions = 1000000
      ∧ support (keySpaceSz latestOptions) latestOptions.keySize.toUInt64
          = {id | 1 ≤ id ∧ id ≤ 7}
      ∧ ¬ SupportsKeyspace (keySpaceSz latestOptions) latestOptions.keySize.toUInt64 := by
  have hN : keySpaceSz latestOptions = 1000000 := by
    decide +kernel
  refine ⟨?_, hN, ?_, ?_⟩
  · rw [Options.accepted_iff]
    decide +kernel
  · rw [support_eq]
    rfl
  · rw [supportsKeyspace_iff, hN]
    decide

end LatestIds
