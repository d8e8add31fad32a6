import PKBench.RunIds
import Mathlib.Data.Set.Function
import Mathlib.Data.Set.Finite.Basic

/-!
# The ids of a timed run

In time mode nobody knows beforehand how much will be inserted. An operation
that is no INSERT draws an id and scales it back to what there is: modulo the
number of records and of INSERTs so far, with the part beyond the records split
into the number of a worker and an offset in that worker's range.

Residues count from zero. The ids counted on by `next` start at one: the
records are `1, …, R`, and worker `t` has inserted
`R + inserts_per_thread * t + 1` and what follows. What the scaling reaches is
therefore exactly what was inserted *minus one*, on the cycle of 64-bit
integers (`remap_add_one_mem`), and a set of ids that is its own successor is
empty or holds every id. So the scaling is never a bijection onto what was
inserted (`not_bijOn_remap`); which drawn ids go astray is
`scaleBy_mem_inserted_iff`.
-/

open CyclicArc

namespace Benchmark

/-- The part of the scaling behind the division: where a residue is sent. -/
def remap (numRecords stride s id : UInt64) : UInt64 :=
  if id ≥ numRecords then
    let ins := id - numRecords
    numRecords + stride * (ins / s) + ins % s
  else id

/-- The scaling for any number of records and threads, any stride and any number
of INSERTs so far. -/
def scaleBy (numRecords numThreads stride s id : UInt64) : UInt64 :=
  remap numRecords stride s (id % (s * numThreads + numRecords))

theorem scaleId_eq (opt : Options) (successInsertCount : ℕ) (id : UInt64) :
    scaleId opt successInsertCount id
      = scaleBy opt.numRecords opt.numThreads.toUInt64 (insertsPerThread opt)
          (UInt64.ofNat successInsertCount) id := rfl

/-- **An operation that is no INSERT asks for the scaled id.** -/
theorem id_executeOp_of_time (e : Endianness) (opt : Options) (g : KeyGenerator)
    {gen : OperationGenerator} {inp : OpInput} (w : Worker) (hmode : opt.bmMode = .time)
    (h : gen.next inp.draw ≠ .insert) :
    (executeOp e opt g gen w inp).1.id
      = scaleBy opt.numRecords opt.numThreads.toUInt64 (insertsPerThread opt)
          (UInt64.ofNat w.stats.successInsertCount) inp.nextId := by
  show (pickKey e opt g (gen.next inp.draw) w inp).1 = _
  rw [pickKey, if_neg h, hmode]
  rfl

/-- **What has been inserted** when the records are loaded and each worker has
inserted its first `s` ids from the base `numRecords` on: the arcs of a load and
of a run (`insertedIds_runThread`). -/
def inserted (numRecords numThreads stride s : UInt64) : Set UInt64 :=
  {x | x.toNat ∈ arc idSpace 0 numRecords.toNat
    ∨ ∃ t < numThreads.toNat,
        x.toNat ∈ arc idSpace (numRecords.toNat + stride.toNat * t) s.toNat}

variable {R T stride s : UInt64}

/-! ## One behind -/

/-- A residue beyond the records is an offset in some worker's range. -/
theorem ins_split {m : UInt64} (hm : m < s * T + R) (hR : R ≤ m) :
    0 < s.toNat ∧ (m.toNat - R.toNat) / s.toNat < T.toNat
      ∧ (m.toNat - R.toNat) % s.toNat < s.toNat := by
  have hle : m.toNat < s.toNat * T.toNat + R.toNat := by
    rw [UInt64.lt_iff_toNat_lt, UInt64.toNat_add, UInt64.toNat_mul, Nat.mod_add_mod] at hm
    exact hm.trans_le (Nat.mod_le _ _)
  rw [UInt64.le_iff_toNat_le] at hR
  have hlt : m.toNat - R.toNat < s.toNat * T.toNat := by omega
  have hs : 0 < s.toNat := Nat.pos_of_mul_pos_right (Nat.zero_lt_of_lt hlt)
  exact ⟨hs, Nat.div_lt_of_lt_mul hlt, Nat.mod_lt _ hs⟩

/-- Where a residue beyond the records is sent, as a number. -/
theorem toNat_remap_of_ge {m : UInt64} (hR : R ≤ m) :
    (remap R stride s m).toNat
      = (R.toNat + stride.toNat * ((m.toNat - R.toNat) / s.toNat)
          + (m.toNat - R.toNat) % s.toNat) % idSpace := by
  rw [remap, if_pos hR]
  simp only [UInt64.toNat_add, UInt64.toNat_mul, UInt64.toNat_div, UInt64.toNat_mod,
    UInt64.toNat_sub_of_le _ _ hR]
  rw [Nat.add_mod_mod, Nat.mod_add_mod]
  rfl

/-- **What a residue is sent to was inserted one step later.** -/
theorem remap_add_one_mem {m : UInt64} (hm : m < s * T + R) :
    remap R stride s m + 1 ∈ inserted R T stride s := by
  by_cases hR : R ≤ m
  · obtain ⟨-, ht, ho⟩ := ins_split hm hR
    refine Or.inr ⟨_, ht, mem_arc.mpr ⟨_, ho, ?_⟩⟩
    rw [toNat_succ, toNat_remap_of_ge hR, Nat.mod_add_mod]
  · have hlt : m.toNat < R.toNat := UInt64.lt_iff_toNat_lt.mp (UInt64.not_le.mp hR)
    refine Or.inl (mem_arc.mpr ⟨m.toNat, hlt, ?_⟩)
    rw [remap, if_neg hR, toNat_succ, Nat.zero_add]

/-- A set of ids that holds the successor of each of its members is empty or
holds every id. -/
theorem eq_univ_of_add_one_mem {J : Set UInt64} (hne : J.Nonempty)
    (h : ∀ x ∈ J, x + 1 ∈ J) : J = Set.univ := by
  obtain ⟨x, hx⟩ := hne
  have hcount : ∀ n : ℕ, x + UInt64.ofNat n ∈ J := by
    intro n
    induction n with
    | zero =>
      have h0 : x + UInt64.ofNat 0 = x := UInt64.add_zero x
      rwa [h0]
    | succ n ih =>
      have hsucc : x + UInt64.ofNat (n + 1) = x + UInt64.ofNat n + 1 := by
        rw [UInt64.ofNat_add, UInt64.add_assoc]
        rfl
      rw [hsucc]
      exact h _ ih
  refine Set.eq_univ_of_forall (fun y => ?_)
  have hy : x + UInt64.ofNat (y - x).toNat = y := by
    rw [UInt64.ofNat_toNat, UInt64.add_comm, UInt64.sub_add_cancel]
  rw [← hy]
  exact hcount _

/-- **The scaling is never a bijection onto what was inserted**, for any stride
and any number of INSERTs. -/
theorem not_bijOn_remap (hR : 0 < R) :
    ¬ Set.BijOn (remap R stride s) {m | m < s * T + R} (inserted R T stride s) := by
  intro hbij
  have hne : (inserted R T stride s).Nonempty := by
    refine ⟨1, Or.inl (mem_arc.mpr ⟨0, UInt64.lt_iff_toNat_lt.mp hR, rfl⟩)⟩
  have huniv : inserted R T stride s = Set.univ := by
    refine eq_univ_of_add_one_mem hne (fun x hx => ?_)
    obtain ⟨m, hm, rfl⟩ := hbij.surjOn hx
    exact remap_add_one_mem hm
  -- there are fewer residues than ids: the largest id is none of them
  have hsurj : Function.Surjective (remap R stride s) := by
    intro y
    obtain ⟨m, -, hm⟩ := hbij.surjOn (huniv ▸ Set.mem_univ y)
    exact ⟨m, hm⟩
  have hfin : Finite UInt64 := Finite.of_injective UInt64.toFin (fun _ _ h => UInt64.toFin_inj.mp h)
  have hinj := Finite.injective_iff_surjective.mpr hsurj
  obtain ⟨m, hm, heq⟩ := hbij.surjOn (huniv ▸ Set.mem_univ (remap R stride s (-1)))
  obtain rfl := hinj heq
  have hlt : (-1 : UInt64).toNat < (s * T + R).toNat := UInt64.lt_iff_toNat_lt.mp hm
  have hmax : (-1 : UInt64).toNat = 2 ^ 64 - 1 := rfl
  have := (s * T + R).toNat_lt
  omega

/-! ## Which ids go astray -/

section Room

variable (hs : s ≤ stride) (hroom : R.toNat + stride.toNat * T.toNat < idSpace)

include hs hroom

/-- What was inserted, if the workers' ranges end before the largest id. -/
theorem mem_inserted_iff (x : UInt64) :
    x ∈ inserted R T stride s
      ↔ (0 < x.toNat ∧ x.toNat ≤ R.toNat)
        ∨ ∃ t < T.toNat, R.toNat + stride.toNat * t < x.toNat
          ∧ x.toNat ≤ R.toNat + stride.toNat * t + s.toNat := by
  have hle : s.toNat ≤ stride.toNat := UInt64.le_iff_toNat_le.mp hs
  refine or_congr ?_ (exists_congr (fun t => and_congr_right (fun ht => ?_)))
  · rw [mem_arc_of_lt (by omega), Nat.zero_add]
  · have hstep : stride.toNat * (t + 1) ≤ stride.toNat * T.toNat := Nat.mul_le_mul_left _ ht
    rw [Nat.mul_succ] at hstep
    rw [mem_arc_of_lt (by omega)]

/-- The start of a worker's range belongs to the records or is the last id of
the range before, if that is full. -/
theorem range_start_mem_iff (hR : 0 < R) (hs₀ : 0 < s.toNat) {t : ℕ} (ht : t < T.toNat)
    {x : UInt64} (hx : x.toNat = R.toNat + stride.toNat * t) :
    x ∈ inserted R T stride s ↔ t = 0 ∨ s = stride := by
  have hle : s.toNat ≤ stride.toNat := UInt64.le_iff_toNat_le.mp hs
  have hRpos : 0 < R.toNat := UInt64.lt_iff_toNat_lt.mp hR
  rw [mem_inserted_iff hs hroom, hx]
  constructor
  · rintro (⟨-, h⟩ | ⟨t', -, h₁, h₂⟩)
    · have hzero : stride.toNat * t = 0 := by omega
      exact Or.inl ((Nat.mul_eq_zero.mp hzero).resolve_left (by omega))
    · right
      have hlt : t' < t := Nat.lt_of_mul_lt_mul_left (a := stride.toNat) (by omega)
      have hstep : stride.toNat * (t' + 1) ≤ stride.toNat * t := Nat.mul_le_mul_left _ hlt
      rw [Nat.mul_succ] at hstep
      exact UInt64.toNat_inj.mp (by omega)
  · rintro (rfl | rfl)
    · left
      omega
    · rcases Nat.eq_zero_or_pos t with rfl | hpos
      · left
        omega
      · right
        obtain ⟨n, rfl⟩ := Nat.exists_eq_add_of_le' hpos
        refine ⟨n, by omega, ?_⟩
        rw [Nat.mul_succ]
        omega

/-- **A drawn id is scaled to an inserted one exactly when its residue is not
zero, and is not the start of a worker's range** – of any but the first worker,
whose range starts at the last record, and with the ranges not full. -/
theorem scaleBy_mem_inserted_iff (hR : 0 < R) (id : UInt64) :
    scaleBy R T stride s id ∈ inserted R T stride s
      ↔ id.toNat % (s.toNat * T.toNat + R.toNat) ≠ 0
        ∧ (id.toNat % (s.toNat * T.toNat + R.toNat) < R.toNat + s.toNat
          ∨ (id.toNat % (s.toNat * T.toNat + R.toNat) - R.toNat) % s.toNat ≠ 0
          ∨ s = stride) := by
  have hle : s.toNat ≤ stride.toNat := UInt64.le_iff_toNat_le.mp hs
  have hRpos : 0 < R.toNat := UInt64.lt_iff_toNat_lt.mp hR
  have hmul : s.toNat * T.toNat ≤ stride.toNat * T.toNat := Nat.mul_le_mul_right _ hle
  have hN : (s * T + R).toNat = s.toNat * T.toNat + R.toNat := by
    have hfits : s.toNat * T.toNat + R.toNat < idSpace := by omega
    rw [UInt64.toNat_add, UInt64.toNat_mul, Nat.mod_add_mod]
    exact Nat.mod_eq_of_lt hfits
  have hm : (id % (s * T + R)).toNat = id.toNat % (s.toNat * T.toNat + R.toNat) := by
    rw [UInt64.toNat_mod, hN]
  have hlt : id % (s * T + R) < s * T + R := by
    rw [UInt64.lt_iff_toNat_lt, hm, hN]
    exact Nat.mod_lt _ (by omega)
  rw [← hm, scaleBy]
  generalize id % (s * T + R) = m at hlt ⊢
  by_cases hge : R ≤ m
  · obtain ⟨hs₀, ht, ho⟩ := ins_split hlt hge
    have hv := @toNat_remap_of_ge R stride s m hge
    rw [UInt64.le_iff_toNat_le] at hge
    have hsplit := Nat.mod_add_div (m.toNat - R.toNat) s.toNat
    have hstep : stride.toNat * ((m.toNat - R.toNat) / s.toNat + 1) ≤ stride.toNat * T.toNat :=
      Nat.mul_le_mul_left _ ht
    rw [Nat.mul_succ] at hstep
    rw [Nat.mod_eq_of_lt (by omega)] at hv
    rw [and_iff_right (show m.toNat ≠ 0 by omega)]
    by_cases hoff : (m.toNat - R.toNat) % s.toNat = 0
    · rw [hoff, Nat.add_zero] at hv
      have hfirst : m.toNat < R.toNat + s.toNat ↔ (m.toNat - R.toNat) / s.toNat = 0 := by
        rw [Nat.div_eq_zero_iff]
        omega
      rw [range_start_mem_iff hs hroom hR hs₀ ht hv, hfirst, hoff]
      exact or_congr_right (or_iff_right (fun h => h rfl)).symm
    · refine iff_of_true ?_ (Or.inr (Or.inl hoff))
      rw [mem_inserted_iff hs hroom]
      exact Or.inr ⟨_, ht, by omega, by omega⟩
  · have hmR : m.toNat < R.toNat := UInt64.lt_iff_toNat_lt.mp (UInt64.not_le.mp hge)
    rw [remap, if_neg hge, mem_inserted_iff hs hroom]
    constructor
    · rintro (⟨hpos, -⟩ | ⟨t, -, h₁, -⟩)
      · exact ⟨hpos.ne', Or.inl (by omega)⟩
      · omega
    · rintro ⟨hne, -⟩
      exact Or.inl ⟨Nat.pos_of_ne_zero hne, hmR.le⟩

end Room

/-- **The scaling of time mode misses what was inserted.** For no number of
records, threads and INSERTs and no stride is it a bijection from the residues
onto the inserted ids; and as long as ids do not go round, a drawn id is scaled
to an inserted one exactly when its residue is not zero and is not the start of
a later worker's range, which the range before only reaches when it is full. -/
theorem scaling_misses_inserted (R T stride s : UInt64) (hR : 0 < R) :
    ¬ Set.BijOn (remap R stride s) {m | m < s * T + R} (inserted R T stride s)
      ∧ (s ≤ stride → R.toNat + stride.toNat * T.toNat < idSpace → ∀ id : UInt64,
        scaleBy R T stride s id ∈ inserted R T stride s
          ↔ id.toNat % (s.toNat * T.toNat + R.toNat) ≠ 0
            ∧ (id.toNat % (s.toNat * T.toNat + R.toNat) < R.toNat + s.toNat
              ∨ (id.toNat % (s.toNat * T.toNat + R.toNat) - R.toNat) % s.toNat ≠ 0
              ∨ s = stride)) :=
  ⟨not_bijOn_remap hR, fun hs hroom id => scaleBy_mem_inserted_iff hs hroom hR id⟩

/-- Four records and one thread that has inserted nothing. -/
theorem scaling_misses_inserted_four :
    (0 : UInt64) < 4 ∧ ¬ Set.BijOn (remap 4 10 0) {m | m < 0 * 1 + 4} (inserted 4 1 10 0) :=
  ⟨by decide, (scaling_misses_inserted 4 1 10 0 (by decide)).1⟩

/-- Of four records the drawn id four is scaled to zero, which nobody has
inserted. -/
theorem four_scaled_to_zero :
    scaleBy 4 1 10 0 4 = 0 ∧ scaleBy 4 1 10 0 4 ∉ inserted 4 1 10 0
      ∧ ¬ ((∀ id : UInt64, scaleBy 4 1 10 0 id ∈ inserted 4 1 10 0)
        ∧ Set.BijOn (remap 4 10 0) {m | m < 0 * 1 + 4} (inserted 4 1 10 0)) := by
  have hzero : scaleBy 4 1 10 0 4 = 0 := by decide
  have hout : scaleBy 4 1 10 0 4 ∉ inserted 4 1 10 0 := by
    rw [hzero, mem_inserted_iff (by decide) (by decide)]
    rintro (⟨h, -⟩ | ⟨t, -, h, -⟩)
    · exact absurd h (by decide)
    · exact absurd h (Nat.not_lt_zero _)
  exact ⟨hzero, hout, fun h => hout (h.1 4)⟩

end Benchmark
