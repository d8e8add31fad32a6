import PKBench.Benchmark
import PKBench.CyclicArc
import Mathlib.Order.Interval.Finset.Nat

/-!
# The ids a load inserts

`load` is meant to insert the records `1, …, R`, each thread a part of them. A
thread starts from `R / T` times its number and inserts as many ids as the
schedule gives it iterations. The two divisions are not the same: the start
rounds down, while the schedule hands the remainder to the first threads. Where
there is a remainder, a thread with one iteration more than `R / T` inserts the
first id of its neighbour as well.

The ids of one thread are an arc of the cycle of 64-bit integers
(`insertedIds_insertSeq`), and the whole load is one arc for each thread
(`loadedIds_eq`). `loadedIds_eq_Icc_iff` is the outcome: the records come out
each once exactly when the threads divide them evenly, or there is only one
record. What is inserted is an interval from one in any case
(`mem_loadedIds_iff`).
-/

open CyclicArc

namespace Benchmark

variable (e : Endianness) (opt : Options) (g : KeyGenerator)

/-- Number of values of an id. -/
def idSpace : ℕ := 2 ^ 64

theorem idSpace_pos : 0 < idSpace := by decide

/-- The ids a list of requests inserts. -/
def insertedIds (requests : List Request) : List ℕ :=
  (requests.filter (fun r => r.op = .insert)).map (fun r => r.id.toNat)

theorem insertedIds_cons (r : Request) (requests : List Request) :
    insertedIds (r :: requests)
      = if r.op = .insert then r.id.toNat :: insertedIds requests
        else insertedIds requests := by
  unfold insertedIds
  by_cases h : r.op = .insert
  · rw [List.filter_cons_of_pos (by simpa using h), List.map_cons, if_pos h]
  · rw [List.filter_cons_of_neg (by simpa using h), if_neg h]

/-- Counting on by one and wrapping. -/
theorem toNat_succ (x : UInt64) : (x + 1).toNat = (x.toNat + 1) % idSpace := by
  rw [UInt64.toNat_add]
  rfl

/-- **The keys in sequence of one thread are an arc from its running id.** -/
theorem insertedIds_insertSeq (n : ℕ) (tls : ThreadLocals) :
    insertedIds (insertSeq e g n tls).1 = arc idSpace tls.currentId.toNat n := by
  induction n generalizing tls with
  | zero => rfl
  | succ n ih =>
    rw [arc_succ_left, ← arc_mod (s := tls.currentId.toNat + 1), ← toNat_succ]
    show insertedIds (_ :: (insertSeq e g n _).1) = _
    rw [insertedIds_cons, if_pos rfl, ih]

/-- The running id after keys in sequence. -/
theorem currentId_insertSeq (n : ℕ) (tls : ThreadLocals) :
    (insertSeq e g n tls).2.currentId.toNat = (tls.currentId.toNat + n) % idSpace := by
  induction n generalizing tls with
  | zero => exact (Nat.mod_eq_of_lt tls.currentId.toNat_lt).symm
  | succ n ih =>
    show (insertSeq e g n _).2.currentId.toNat = _
    rw [ih]
    show ((tls.currentId + 1).toNat + n) % idSpace = _
    rw [toNat_succ, Nat.mod_add_mod]
    congr 1
    omega

/-- The ids `load` inserts, over all threads. -/
def loadedIds (tls : ℕ → ThreadLocals) : List ℕ := (load e opt g tls).1.flatMap insertedIds

theorem toNat_numThreads : opt.numThreads.toUInt64.toNat = team opt := rfl

theorem team_lt : team opt < 2 ^ 32 := opt.numThreads.toNat_lt

theorem toNat_ofNat_tid {tid : ℕ} (h : tid < team opt) :
    (UInt64.ofNat tid).toNat = tid := by
  have := team_lt opt
  rw [UInt64.toNat_ofNat', Nat.mod_eq_of_lt (by omega)]

/-- The id a loading thread starts from, as a number. -/
theorem toNat_loadStart {tid : ℕ} (h : tid < team opt) :
    (loadStart opt tid).toNat = opt.numRecords.toNat / team opt * tid := by
  have hle := mul_add_staticShare_le (n := opt.numRecords.toNat) h
  have hlt := opt.numRecords.toNat_lt
  rw [loadStart, UInt64.toNat_mul, UInt64.toNat_div, toNat_numThreads, toNat_ofNat_tid opt h,
    Nat.mod_eq_of_lt (by omega)]

/-- **What one thread loads is an interval**: as many ids as it has iterations,
from its start on. -/
theorem insertedIds_loadThread {tid : ℕ} (h : tid < team opt) (tls : ThreadLocals) :
    insertedIds (loadThread e opt g tid tls).1
      = List.range' (opt.numRecords.toNat / team opt * tid + 1)
          (staticShare opt.numRecords.toNat (team opt) tid) := by
  have hle := mul_add_staticShare_le (n := opt.numRecords.toNat) h
  have hlt := opt.numRecords.toNat_lt
  rw [loadThread, insertedIds_insertSeq, toNat_loadStart opt h, arc_eq_range']
  exact Nat.lt_of_le_of_lt hle hlt

theorem loadedIds_eq (hskip : opt.skipLoad = false) (tls : ℕ → ThreadLocals) :
    loadedIds e opt g tls
      = (List.range (team opt)).flatMap (fun tid =>
          List.range' (opt.numRecords.toNat / team opt * tid + 1)
            (staticShare opt.numRecords.toNat (team opt) tid)) := by
  rw [loadedIds, load, if_neg (by rw [hskip]; exact Bool.false_ne_true), List.flatMap_map]
  exact List.flatMap_congr (fun tid htid =>
    insertedIds_loadThread e opt g (List.mem_range.mp htid) (tls tid))

/-- **The main thread after a load** has counted up to the first thread's
share. -/
theorem currentId_load (hskip : opt.skipLoad = false) (hT : 0 < team opt)
    (tls : ℕ → ThreadLocals) :
    (load e opt g tls).2.currentId.toNat = staticShare opt.numRecords.toNat (team opt) 0 := by
  have hlt := opt.numRecords.toNat_lt
  have hle := staticShare_le opt.numRecords.toNat (team opt) 0
  rw [load, if_neg (by rw [hskip]; exact Bool.false_ne_true), loadThread, currentId_insertSeq,
    toNat_loadStart opt hT, Nat.mul_zero, Nat.zero_add]
  exact Nat.mod_eq_of_lt (Nat.lt_of_le_of_lt hle hlt)

/-- Equal intervals laid end to end. -/
theorem flatMap_range_range' (q n : ℕ) :
    (List.range n).flatMap (fun t => List.range' (q * t + 1) q) = List.range' 1 (q * n) := by
  induction n with
  | zero => rfl
  | succ n ih =>
    rw [List.range_succ, List.flatMap_append, ih, List.flatMap_singleton, Nat.mul_succ,
      Nat.add_comm (q * n) 1, List.range'_append_1]

/-- Two neighbouring threads insert an id in common when the first of them has
an iteration more than the quotient and the second has one at all. -/
theorem not_nodup_loadedIds {R T : ℕ} (hT : 1 < T) (hmod : R % T ≠ 0) (hR : R ≠ 1) :
    ¬ ((List.range T).flatMap
        (fun tid => List.range' (R / T * tid + 1) (staticShare R T tid))).Nodup := by
  intro h
  have hpair := (List.nodup_flatMap.mp h).2
  have hdis := List.pairwise_iff_getElem.mp hpair 0 1
    (by rw [List.length_range]; omega) (by rw [List.length_range]; exact hT) Nat.zero_lt_one
  rw [List.getElem_range, List.getElem_range] at hdis
  have hdiv : R % T + T * (R / T) = R := Nat.mod_add_div R T
  have h₁ : 0 < staticShare R T 1 := by
    rw [staticShare]
    rcases Nat.eq_zero_or_pos (R / T) with h0 | hpos
    · rw [h0, if_pos (by rw [h0] at hdiv; omega)]
      exact Nat.one_pos
    · exact Nat.add_pos_left hpos _
  -- both hold the id after the quotient
  refine @hdis (R / T + 1) ?_ ?_
  · show R / T + 1 ∈ List.range' (R / T * 0 + 1) (staticShare R T 0)
    rw [List.mem_range'_1, staticShare_zero, if_neg hmod, Nat.mul_zero, Nat.zero_add]
    exact ⟨Nat.le_add_left 1 _, Nat.lt_add_of_pos_left Nat.one_pos⟩
  · show R / T + 1 ∈ List.range' (R / T * 1 + 1) (staticShare R T 1)
    rw [List.mem_range'_1, Nat.mul_one]
    exact ⟨le_rfl, Nat.lt_add_of_pos_right h₁⟩

/-- One record is loaded by the first thread alone. -/
theorem flatMap_range_one {T : ℕ} (hT : 1 < T) :
    (List.range T).flatMap
      (fun tid => List.range' (1 / T * tid + 1) (staticShare 1 T tid)) = [1] := by
  obtain ⟨n, rfl⟩ : ∃ n, T = n + 1 := ⟨T - 1, by omega⟩
  have hdiv : 1 / (n + 1) = 0 := Nat.div_eq_of_lt hT
  have hmod : 1 % (n + 1) = 1 := Nat.mod_eq_of_lt hT
  rw [List.range_succ_eq_map, List.flatMap_cons, List.flatMap_map, staticShare, hdiv, hmod,
    List.flatMap_eq_nil_iff.mpr]
  · rfl
  · intro t _
    rw [staticShare, hdiv, hmod, if_neg (by omega)]
    rfl

/-- **A load inserts the ids `1, …, R`, each once, exactly when the number of
threads divides the number of records or there is only one record.** -/
theorem loadedIds_eq_Icc_iff (hskip : opt.skipLoad = false) (hT : 0 < team opt)
    (tls : ℕ → ThreadLocals) :
    (loadedIds e opt g tls : Multiset ℕ) = (Finset.Icc 1 opt.numRecords.toNat).val
      ↔ team opt ∣ opt.numRecords.toNat ∨ opt.numRecords.toNat = 1 := by
  rw [loadedIds_eq e opt g hskip]
  generalize opt.numRecords.toNat = R
  constructor
  · intro h
    by_contra hcond
    rw [not_or, Nat.dvd_iff_mod_eq_zero] at hcond
    have hT1 : 1 < team opt := by
      rcases Nat.lt_or_ge 1 (team opt) with h1 | h1
      · exact h1
      · exact absurd (by rw [show team opt = 1 by omega, Nat.mod_one]) hcond.1
    refine not_nodup_loadedIds hT1 hcond.1 hcond.2 ?_
    rw [← Multiset.coe_nodup, h]
    exact (Finset.Icc 1 R).nodup
  · have hIcc : (Finset.Icc 1 R).val = (List.range' 1 R : Multiset ℕ) := rfl
    rw [hIcc]
    rintro (hdvd | hone)
    · refine congrArg _ ?_
      have hmul : R / team opt * team opt = R := Nat.div_mul_cancel hdvd
      rw [← hmul, ← flatMap_range_range', hmul]
      exact List.flatMap_congr (fun t _ => by rw [staticShare_of_dvd hdvd])
    · rcases Nat.lt_or_ge 1 (team opt) with h1 | h1
      · rw [hone, flatMap_range_one h1]
        rfl
      · rw [hone, show team opt = 1 by omega]
        rfl

/-- Four records and two threads: the ids one to four. -/
theorem loadedIds_four_two :
    (loadedIds .little { numRecords := 4, numThreads := 2 } KeyGenerator.defaultGenerator
        (fun _ => {}) : Multiset ℕ) = (Finset.Icc 1 4).val :=
  (loadedIds_eq_Icc_iff .little { numRecords := 4, numThreads := 2 }
    KeyGenerator.defaultGenerator rfl (by decide) (fun _ => {})).mpr (Or.inl (by decide))

/-- Three records and two threads: the id two is loaded by both threads and the
id three by neither. -/
theorem loadedIds_three_two :
    loadedIds .little { numRecords := 3, numThreads := 2 } KeyGenerator.defaultGenerator
        (fun _ => {}) = [1, 2, 2]
      ∧ (loadedIds .little { numRecords := 3, numThreads := 2 } KeyGenerator.defaultGenerator
        (fun _ => {}) : Multiset ℕ) ≠ (Finset.Icc 1 3).val := by
  have h : loadedIds .little { numRecords := 3, numThreads := 2 }
      KeyGenerator.defaultGenerator (fun _ => {}) = [1, 2, 2] := by
    rw [loadedIds_eq .little _ _ rfl]
    decide
  refine ⟨h, ?_⟩
  rw [h]
  decide

/-- The largest id a load of at least one record inserts. -/
def lastLoadedId : ℕ := max 1 (opt.numRecords.toNat / team opt * team opt)

/-- **What is loaded is an interval from one**, even where some ids are loaded
twice and others not at all. -/
theorem mem_loadedIds_iff (hskip : opt.skipLoad = false) (hT : 0 < team opt)
    (hR : 0 < opt.numRecords.toNat) (tls : ℕ → ThreadLocals) (x : ℕ) :
    x ∈ loadedIds e opt g tls ↔ 1 ≤ x ∧ x ≤ lastLoadedId opt := by
  rw [loadedIds_eq e opt g hskip, List.mem_flatMap, lastLoadedId]
  generalize opt.numRecords.toNat = R at hR ⊢
  generalize team opt = T at hT ⊢
  have hdiv : R % T + T * (R / T) = R := Nat.mod_add_div R T
  constructor
  · rintro ⟨t, ht, hx⟩
    rw [List.mem_range] at ht
    rw [List.mem_range'_1] at hx
    have hend : R / T * t + staticShare R T t ≤ max 1 (R / T * T) :=
      mul_add_staticShare_le_max ht
    omega
  · rintro ⟨h₁, h₂⟩
    rcases Nat.eq_zero_or_pos (R / T) with h0 | hpos
    · rw [h0, Nat.zero_mul] at h₂
      refine ⟨0, List.mem_range.mpr hT, ?_⟩
      rw [List.mem_range'_1, h0, Nat.zero_mul, staticShare_zero, h0,
        if_neg (by rw [h0] at hdiv; omega)]
      omega
    · have hbound : x ≤ R / T * T := by
        rcases le_max_iff.mp h₂ with h | h
        · exact h.trans (Nat.mul_pos hpos hT)
        · exact h
      refine ⟨(x - 1) / (R / T), List.mem_range.mpr ?_, ?_⟩
      · refine Nat.div_lt_of_lt_mul ?_
        omega
      · have hmod : (x - 1) % (R / T) + R / T * ((x - 1) / (R / T)) = x - 1 :=
          Nat.mod_add_div _ _
        have hlt : (x - 1) % (R / T) < R / T := Nat.mod_lt _ hpos
        have hshare : R / T ≤ staticShare R T ((x - 1) / (R / T)) := Nat.le_add_right _ _
        rw [List.mem_range'_1]
        omega

end Benchmark
