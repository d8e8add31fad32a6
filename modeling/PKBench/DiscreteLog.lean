import Mathlib.Data.Nat.ModEq
import Mathlib.Data.Nat.Prime.Basic
import Mathlib.Data.Nat.Bitwise
import Mathlib.Data.UInt
import Mathlib.Data.Set.Function
import Mathlib.Data.Fintype.EquivFin
import Mathlib.Tactic.Ring

/-!
# The shuffle by discrete logarithms

`utils::discrete_log` shuffles the integers below `2 ^ POWER_OF_TWO` without
collisions. An integer `k` stands for the odd residue `1 + 4 * k` modulo
`2 ^ (POWER_OF_TWO + 2)`, and the loop finds the power of the generator this
residue has to be multiplied with to give one. It works bit by bit: the
expression `up + Gpow + 4 * up * Gpow` is the product of the two residues in
that representation, and the multiplication with `G ^ (2 ^ i)` clears the bit
`i` of `up` without touching the bits below.

The products are taken in 64-bit arithmetic and masked afterwards, which is
harmless as the modulus divides `2 ^ 64` (`toNat_times`). What the loop keeps is
`LogInvariant`; that it clears a bit in each round bounds the number of rounds
(`logLoop_spec`). The rest is counting: a relation between equally many residues
and exponents, defined on every residue and one-to-one, is a bijection.
-/

/-- **The template parameter** of `discrete_log`, as its assertion admits it. -/
structure PowerOfTwo where
  value : ℕ
  lower : 10 ≤ value + 2
  upper : value + 2 ≤ 55

/-- `POWER_TO_G`: the generator for each power, from ten on. -/
def powerToG : Vector UInt64 46 := #v[
    29, 29, 53, 53, 117, 125, 229, 221, 469, 517, 589, 861, 1189, 1653, 2333, 3381, 4629, 6565,
    9293, 13093, 18509, 26253, 37117, 52317, 74101, 104581, 147973, 209173, 296029, 418341, 91733,
    836661, 1183221, 1673485, 2366509, 3346853, 4732789, 6693237, 9465541, 13386341, 18931141,
    26772693, 37862197, 53545221, 75724373, 107090317]

namespace PowerOfTwo

variable (p : PowerOfTwo)

/-- `G` -/
def generator : UInt64 :=
  powerToG.get ⟨p.value + 2 - 10, by have := p.upper; omega⟩

/-- `P` -/
def bound : UInt64 := 1 <<< UInt64.ofNat (p.value + 2 - 2)

/-- `P_MASK` -/
def mask : UInt64 := p.bound - 1

/-- The state of the loop. -/
structure LogState where
  up : UInt64
  x : UInt64
  radix : UInt64
  gpow : UInt64

/-- The masked expression of the loop, which multiplies `1 + 4 * a` with
`1 + 4 * b`. -/
def times (a b : UInt64) : UInt64 := (a + b + 4 * a * b) &&& p.mask

/-- The state before the loop. -/
def logStart (k : UInt64) : LogState where
  up := k
  x := 0
  radix := 1
  gpow := (p.generator - 1) / 4

/-- One round of the loop. -/
def logStep (s : LogState) : LogState :=
  let s := if s.up &&& s.radix ≠ 0 then
      { s with x := s.x + s.radix, up := p.times s.up s.gpow }
    else s
  { s with radix := s.radix <<< 1, gpow := p.times s.gpow s.gpow }

/-- The loop, left undecided if it does not end within `rounds`. -/
def logLoop : ℕ → LogState → Option LogState
  | 0, s => if s.up = 0 then some s else none
  | rounds + 1, s => if s.up = 0 then some s else logLoop rounds (p.logStep s)

/-- **`utils::discrete_log`**, if the loop ends within `rounds`. -/
def discreteLog (rounds : ℕ) (k : UInt64) : Option UInt64 :=
  (p.logLoop rounds (p.logStart k)).map (fun s => p.bound - s.x)

/-! ## Words and numbers -/

theorem toNat_bound : p.bound.toNat = 2 ^ p.value := by
  have hu := p.upper
  have hmod : (UInt64.ofNat p.value).toNat % 64 = p.value := by
    rw [UInt64.toNat_ofNat']
    omega
  have hlt : 2 ^ p.value < 2 ^ 64 := Nat.pow_lt_pow_right (by decide) (by omega)
  rw [bound, Nat.add_sub_cancel, UInt64.toNat_shiftLeft, hmod, Nat.shiftLeft_eq]
  show 1 * 2 ^ p.value % 2 ^ 64 = _
  rw [Nat.one_mul, Nat.mod_eq_of_lt hlt]

theorem bound_pos : 0 < 2 ^ p.value := Nat.two_pow_pos p.value

theorem bound_dvd : 2 ^ p.value ∣ 2 ^ 64 := by
  have hu := p.upper
  exact pow_dvd_pow 2 (by omega)

theorem toNat_and_mask (a : UInt64) : (a &&& p.mask).toNat = a.toNat % 2 ^ p.value := by
  have hone : (1 : UInt64) ≤ p.bound := by
    rw [UInt64.le_iff_toNat_le, toNat_bound]
    exact p.bound_pos
  have hmask : p.mask.toNat = 2 ^ p.value - 1 := by
    rw [mask, UInt64.toNat_sub_of_le _ _ hone, toNat_bound]
    rfl
  rw [UInt64.toNat_and, hmask, Nat.and_two_pow_sub_one_eq_mod]

/-- **Wrapping before masking is harmless.** -/
theorem toNat_times (a b : UInt64) :
    (p.times a b).toNat
      = (a.toNat + b.toNat + 4 * a.toNat * b.toNat) % 2 ^ p.value := by
  rw [times, toNat_and_mask]
  simp only [UInt64.toNat_add, UInt64.toNat_mul]
  rw [Nat.mod_mod_of_dvd _ p.bound_dvd]
  have h64 : ∀ n, n % 2 ^ 64 ≡ n [MOD 2 ^ p.value] :=
    fun n => (Nat.mod_modEq n _).of_dvd p.bound_dvd
  refine Nat.ModEq.add (h64 _) ((h64 _).trans (Nat.ModEq.mul_right _ (h64 _)))

/-- The residue an integer stands for depends on it modulo `P`. -/
theorem residue_congr {a b : ℕ} (h : a ≡ b [MOD 2 ^ p.value]) :
    1 + 4 * a ≡ 1 + 4 * b [MOD 2 ^ (p.value + 2)] := by
  have hpow : 2 ^ (p.value + 2) = 4 * 2 ^ p.value := by
    rw [Nat.pow_add]
    exact Nat.mul_comm _ _
  rw [hpow]
  exact Nat.ModEq.add_left 1 (Nat.ModEq.mul_left' 4 h)

/-- Integers below `P` stand for different residues. -/
theorem residue_inj {a b : ℕ} (ha : a < 2 ^ p.value) (hb : b < 2 ^ p.value)
    (h : 1 + 4 * a ≡ 1 + 4 * b [MOD 2 ^ (p.value + 2)]) : a = b := by
  have hlt : ∀ n < 2 ^ p.value, 1 + 4 * n < 2 ^ (p.value + 2) := by
    intro n hn
    rw [Nat.pow_add]
    omega
  have heq := h.eq_of_lt_of_lt (hlt a ha) (hlt b hb)
  omega

/-- **The expression of the loop multiplies residues.** -/
theorem residue_times (a b : UInt64) :
    1 + 4 * (p.times a b).toNat
      ≡ (1 + 4 * a.toNat) * (1 + 4 * b.toNat) [MOD 2 ^ (p.value + 2)] := by
  have hmul : (1 + 4 * a.toNat) * (1 + 4 * b.toNat)
      = 1 + 4 * (a.toNat + b.toNat + 4 * a.toNat * b.toNat) := by ring
  rw [hmul, toNat_times]
  exact p.residue_congr (Nat.mod_modEq _ _)

/-- The bit test of the loop, on a number whose lower bits are clear. -/
theorem and_two_pow_ne_zero_iff {n i : ℕ} (h : 2 ^ i ∣ n) :
    n &&& 2 ^ i ≠ 0 ↔ ¬ 2 ^ (i + 1) ∣ n := by
  obtain ⟨m, rfl⟩ := h
  have hdiv : 2 ^ i * m / 2 ^ i = m := Nat.mul_div_cancel_left m (Nat.two_pow_pos i)
  have hdvd : 2 ^ (i + 1) ∣ 2 ^ i * m ↔ 2 ∣ m := by
    rw [Nat.pow_succ]
    exact Nat.mul_dvd_mul_iff_left (Nat.two_pow_pos i)
  rw [Nat.and_two_pow, hdvd, Nat.testBit_eq_decide_div_mod_eq, hdiv]
  by_cases hm : m % 2 = 1
  · have hbit : (decide (m % 2 = 1)).toNat = 1 := by rw [decide_eq_true hm]; rfl
    rw [hbit, Nat.one_mul]
    exact iff_of_true (Nat.two_pow_pos i).ne' (by omega)
  · have hbit : (decide (m % 2 = 1)).toNat = 0 := by rw [decide_eq_false hm]; rfl
    rw [hbit, Nat.zero_mul]
    exact iff_of_false (fun h => h rfl) (by omega)

/-- A multiple of `2 ^ i` that is none of the next power is that power plus such
a multiple. -/
theorem modEq_two_pow_of_not_dvd {n i : ℕ} (h : 2 ^ i ∣ n) (h' : ¬ 2 ^ (i + 1) ∣ n) :
    n ≡ 2 ^ i [MOD 2 ^ (i + 1)] := by
  obtain ⟨m, rfl⟩ := h
  rw [Nat.pow_succ, Nat.mul_dvd_mul_iff_left (Nat.two_pow_pos i)] at h'
  have hm : m ≡ 1 [MOD 2] := by
    show m % 2 = 1 % 2
    omega
  have hmul := Nat.ModEq.mul_left' (2 ^ i) hm
  rwa [Nat.mul_one, ← Nat.pow_succ] at hmul

/-! ## The loop -/

/-- **What the loop keeps**, before round `i`: the residue of `up` is that of `k`
times the power `x` of the generator, its lowest `i` bits are cleared, and
`Gpow` stands for the power of the generator whose lowest bit is the next. -/
structure LogInvariant (k : UInt64) (i : ℕ) (s : LogState) : Prop where
  index : i ≤ p.value
  radix : s.radix.toNat = 2 ^ i
  x_lt : s.x.toNat < 2 ^ i
  up_lt : s.up.toNat < 2 ^ p.value
  up_dvd : 2 ^ i ∣ s.up.toNat
  up : 1 + 4 * s.up.toNat
    ≡ (1 + 4 * k.toNat) * p.generator.toNat ^ s.x.toNat [MOD 2 ^ (p.value + 2)]
  gpow : 1 + 4 * s.gpow.toNat ≡ p.generator.toNat ^ 2 ^ i [MOD 2 ^ (p.value + 2)]
  gpow_bit : i < p.value → s.gpow.toNat ≡ 2 ^ i [MOD 2 ^ (i + 1)]

/-- Every entry of the table is five modulo eight. -/
theorem powerToG_mod_eight : ∀ i : Fin 46, (powerToG.get i).toNat % 8 = 5 := by
  decide +kernel

theorem generator_mod_eight : p.generator.toNat % 8 = 5 := powerToG_mod_eight _

/-- The first `Gpow` stands for the generator. -/
theorem toNat_start_gpow (k : UInt64) :
    1 + 4 * (p.logStart k).gpow.toNat = p.generator.toNat := by
  have h8 := p.generator_mod_eight
  have hone : (1 : UInt64) ≤ p.generator := by
    rw [UInt64.le_iff_toNat_le]
    show 1 ≤ p.generator.toNat
    omega
  show 1 + 4 * ((p.generator - 1) / 4).toNat = _
  rw [UInt64.toNat_div, UInt64.toNat_sub_of_le _ _ hone]
  show 1 + 4 * ((p.generator.toNat - 1) / 4) = _
  omega

theorem logInvariant_start {k : UInt64} (hk : k.toNat < 2 ^ p.value) :
    p.LogInvariant k 0 (p.logStart k) := by
  have hg := p.toNat_start_gpow k
  have h8 := p.generator_mod_eight
  refine ⟨Nat.zero_le _, rfl, Nat.one_pos, hk, one_dvd _, ?_, ?_, fun _ => ?_⟩
  · show 1 + 4 * k.toNat ≡ (1 + 4 * k.toNat) * p.generator.toNat ^ 0 [MOD _]
    rw [Nat.pow_zero, Nat.mul_one]
  · rw [hg, Nat.pow_zero, Nat.pow_one]
  · show (p.logStart k).gpow.toNat % 2 = 1
    omega

theorem exists_of_modEq_two_pow {n i : ℕ} (h : n ≡ 2 ^ i [MOD 2 ^ (i + 1)]) :
    ∃ q, n = 2 ^ i + 2 ^ (i + 1) * q := by
  have hlt : 2 ^ i < 2 ^ (i + 1) := Nat.pow_lt_pow_right (by decide) (Nat.lt_succ_self i)
  have hmod : n % 2 ^ (i + 1) = 2 ^ i := by
    rw [h, Nat.mod_eq_of_lt hlt]
  refine ⟨n / 2 ^ (i + 1), ?_⟩
  have hdiv := Nat.mod_add_div n (2 ^ (i + 1))
  rw [hmod] at hdiv
  exact hdiv.symm

/-- Squaring moves the lowest bit up by one. -/
theorem times_self_bit {i : ℕ} (hi : i + 1 < p.value) {a : UInt64}
    (h : a.toNat ≡ 2 ^ i [MOD 2 ^ (i + 1)]) :
    (p.times a a).toNat ≡ 2 ^ (i + 1) [MOD 2 ^ (i + 1 + 1)] := by
  obtain ⟨q, hq⟩ := exists_of_modEq_two_pow h
  have hsq : a.toNat + a.toNat + 4 * a.toNat * a.toNat
      = 2 ^ (i + 1) + 2 ^ (i + 1 + 1) * (q + 2 ^ i * (1 + 2 * q) ^ 2) := by
    rw [hq]
    ring
  have hdvd : 2 ^ (i + 1 + 1) ∣ 2 ^ p.value := pow_dvd_pow 2 hi
  rw [toNat_times, hsq]
  refine ((Nat.mod_modEq _ _).of_dvd hdvd).trans ?_
  exact Nat.add_mul_mod_self_left _ _ _

/-- Multiplying two residues with the same lowest bit clears it. -/
theorem dvd_times {i : ℕ} (hi : i < p.value) {a b : UInt64}
    (ha : a.toNat ≡ 2 ^ i [MOD 2 ^ (i + 1)]) (hb : b.toNat ≡ 2 ^ i [MOD 2 ^ (i + 1)]) :
    2 ^ (i + 1) ∣ (p.times a b).toNat := by
  obtain ⟨q, hq⟩ := exists_of_modEq_two_pow ha
  obtain ⟨r, hr⟩ := exists_of_modEq_two_pow hb
  have hmul : a.toNat + b.toNat + 4 * a.toNat * b.toNat
      = 2 ^ (i + 1) * (1 + q + r + 2 * 2 ^ i * (1 + 2 * q) * (1 + 2 * r)) := by
    rw [hq, hr]
    ring
  rw [toNat_times, hmul]
  exact (Nat.dvd_mod_iff (pow_dvd_pow 2 hi)).mpr (Nat.dvd_mul_right _ _)

/-- **Every round clears a bit and keeps the rest of the invariant.** -/
theorem LogInvariant.step {p : PowerOfTwo} {k : UInt64} {i : ℕ} {s : LogState}
    (h : p.LogInvariant k i s) (hi : i < p.value) :
    p.LogInvariant k (i + 1) (p.logStep s) := by
  have hu := p.upper
  have hpow : 2 ^ (i + 1) < 2 ^ 64 := Nat.pow_lt_pow_right (by decide) (by omega)
  have hdouble : 2 ^ (i + 1) = 2 ^ i + 2 ^ i := by rw [Nat.pow_succ, Nat.mul_two]
  have hradix : (s.radix <<< 1).toNat = 2 ^ (i + 1) := by
    rw [UInt64.toNat_shiftLeft, h.radix, Nat.shiftLeft_eq]
    show 2 ^ i * 2 % 2 ^ 64 = _
    rw [← Nat.pow_succ, Nat.mod_eq_of_lt hpow]
  have hgpow : 1 + 4 * (p.times s.gpow s.gpow).toNat
      ≡ p.generator.toNat ^ 2 ^ (i + 1) [MOD 2 ^ (p.value + 2)] := by
    rw [hdouble, Nat.pow_add p.generator.toNat]
    exact (p.residue_times _ _).trans (Nat.ModEq.mul h.gpow h.gpow)
  have hbit : (s.up &&& s.radix) ≠ 0 ↔ ¬ 2 ^ (i + 1) ∣ s.up.toNat := by
    rw [← and_two_pow_ne_zero_iff h.up_dvd, ← h.radix, ← UInt64.toNat_and]
    exact not_congr (UInt64.toNat_inj (b := 0)).symm
  by_cases hset : (s.up &&& s.radix) ≠ 0
  · -- the bit is set: the round multiplies with the power of the generator
    have hstep : p.logStep s
        = { up := p.times s.up s.gpow, x := s.x + s.radix, radix := s.radix <<< 1,
            gpow := p.times s.gpow s.gpow } := by
      unfold logStep
      rw [if_pos hset]
    have hx : (s.x + s.radix).toNat = s.x.toNat + 2 ^ i := by
      have hlt := h.x_lt
      rw [UInt64.toNat_add, h.radix, Nat.mod_eq_of_lt (by omega)]
    rw [hstep]
    refine ⟨hi, hradix, ?_, ?_, ?_, ?_, hgpow, fun hlt => p.times_self_bit hlt (h.gpow_bit hi)⟩
    · show (s.x + s.radix).toNat < _
      rw [hx, hdouble]
      exact Nat.add_lt_add_right h.x_lt _
    · show (p.times s.up s.gpow).toNat < _
      rw [toNat_times]
      exact Nat.mod_lt _ p.bound_pos
    · exact p.dvd_times hi (modEq_two_pow_of_not_dvd h.up_dvd (hbit.mp hset)) (h.gpow_bit hi)
    · show 1 + 4 * (p.times s.up s.gpow).toNat
        ≡ (1 + 4 * k.toNat) * p.generator.toNat ^ (s.x + s.radix).toNat [MOD _]
      rw [hx, Nat.pow_add p.generator.toNat, ← Nat.mul_assoc]
      exact (p.residue_times _ _).trans (Nat.ModEq.mul h.up h.gpow)
  · have hstep : p.logStep s
        = { up := s.up, x := s.x, radix := s.radix <<< 1,
            gpow := p.times s.gpow s.gpow } := by
      unfold logStep
      rw [if_neg hset]
    rw [hstep]
    refine ⟨hi, hradix, ?_, h.up_lt, ?_, h.up, hgpow,
      fun hlt => p.times_self_bit hlt (h.gpow_bit hi)⟩
    · have hlt := h.x_lt
      show s.x.toNat < _
      omega
    · exact not_not.mp (fun hdvd => hset (hbit.mpr hdvd))

/-- Once all its bits are cleared `up` is zero. -/
theorem LogInvariant.lt_of_up_ne {p : PowerOfTwo} {k : UInt64} {i : ℕ} {s : LogState}
    (h : p.LogInvariant k i s) (hup : s.up ≠ 0) : i < p.value := by
  refine lt_of_le_of_ne h.index (fun hi => hup ?_)
  have hdvd := h.up_dvd
  rw [hi] at hdvd
  exact UInt64.toNat_inj.mp (Nat.eq_zero_of_dvd_of_lt hdvd h.up_lt)

/-- **The loop ends within the rounds there are bits left**, with the invariant
and `up` zero. -/
theorem logLoop_spec {p : PowerOfTwo} {k : UInt64} {rounds i : ℕ} {s : LogState}
    (h : p.LogInvariant k i s) (hrounds : p.value ≤ i + rounds) :
    ∃ s' j, p.logLoop rounds s = some s' ∧ s'.up = 0 ∧ p.LogInvariant k j s' := by
  induction rounds generalizing i s with
  | zero =>
    have hup : s.up = 0 := by
      by_contra hne
      exact absurd (h.lt_of_up_ne hne) (Nat.not_lt.mpr hrounds)
    exact ⟨s, i, if_pos hup, hup, h⟩
  | succ rounds ih =>
    by_cases hup : s.up = 0
    · exact ⟨s, i, if_pos hup, hup, h⟩
    · obtain ⟨s', j, hloop, hup', hinv⟩ := ih (h.step (h.lt_of_up_ne hup)) (by omega)
      exact ⟨s', j, (if_neg hup).trans hloop, hup', hinv⟩

/-! ## The shuffle -/

/-- A relation on a finite type that is defined everywhere and one-to-one is
also onto and single-valued. -/
theorem onto_and_single_valued {α : Type} [Finite α] {R : α → α → Prop}
    (htotal : ∀ a, ∃ b, R a b) (hinj : ∀ a a' b, R a b → R a' b → a = a') :
    (∀ b, ∃ a, R a b) ∧ ∀ a b b', R a b → R a b' → b = b' := by
  choose f hf using htotal
  have hf_inj : Function.Injective f := fun a a' h => hinj a a' (f a) (hf a) (h ▸ hf a')
  have hf_surj : Function.Surjective f := Finite.surjective_of_injective hf_inj
  have honly : ∀ a b, R a b → b = f a := by
    intro a b hab
    obtain ⟨a', rfl⟩ := hf_surj b
    rw [hinj a a' (f a') hab (hf a')]
  refine ⟨fun b => ?_, fun a b b' hab hab' => (honly a b hab).trans (honly a b' hab').symm⟩
  obtain ⟨a, rfl⟩ := hf_surj b
  exact ⟨a, hf a⟩

/-- The power `x` of the generator takes the residue of `k` to one. -/
def IsLog (k x : ℕ) : Prop :=
  (1 + 4 * k) * p.generator.toNat ^ x ≡ 1 [MOD 2 ^ (p.value + 2)]

/-- No two integers have an exponent in common. -/
theorem IsLog.inj {p : PowerOfTwo} {k k' x : ℕ} (hk : k < 2 ^ p.value) (hk' : k' < 2 ^ p.value)
    (h : p.IsLog k x) (h' : p.IsLog k' x) : k = k' := by
  have hodd : Nat.Coprime 2 p.generator.toNat := by
    have h8 := p.generator_mod_eight
    refine (Nat.Prime.coprime_iff_not_dvd Nat.prime_two).mpr ?_
    omega
  have hcop : Nat.Coprime (2 ^ (p.value + 2)) (p.generator.toNat ^ x) := hodd.pow _ _
  exact p.residue_inj hk hk' (Nat.ModEq.cancel_right_of_coprime hcop (h.trans h'.symm))

/-- **What `discrete_log` returns.** -/
theorem discreteLog_spec {rounds : ℕ} (hrounds : p.value ≤ rounds) {k : UInt64}
    (hk : k.toNat < 2 ^ p.value) :
    ∃ x : UInt64, x.toNat < 2 ^ p.value ∧ p.discreteLog rounds k = some (p.bound - x)
      ∧ p.IsLog k.toNat x.toNat := by
  have henough : p.value ≤ 0 + rounds := by rwa [Nat.zero_add]
  obtain ⟨s, j, hloop, hup, hinv⟩ := logLoop_spec (p.logInvariant_start hk) henough
  refine ⟨s.x, ?_, ?_, ?_⟩
  · exact hinv.x_lt.trans_le (Nat.pow_le_pow_right (by decide) hinv.index)
  · rw [discreteLog, hloop]
    rfl
  · have h := hinv.up
    rw [hup] at h
    exact h.symm

/-- Exponents below `P` are one-to-one with integers below `P`. -/
theorem isLog_bijective :
    (∀ x < 2 ^ p.value, ∃ k < 2 ^ p.value, p.IsLog k x)
      ∧ ∀ k < 2 ^ p.value, ∀ x < 2 ^ p.value, ∀ y < 2 ^ p.value,
        p.IsLog k x → p.IsLog k y → x = y := by
  have htotal : ∀ k : Fin (2 ^ p.value), ∃ x : Fin (2 ^ p.value), p.IsLog k x := by
    intro k
    have hlt : k.val < 2 ^ 64 := k.isLt.trans_le (Nat.le_of_dvd (by decide) p.bound_dvd)
    have hk : (UInt64.ofNat k.val).toNat = k.val := by
      rw [UInt64.toNat_ofNat', Nat.mod_eq_of_lt hlt]
    obtain ⟨x, hx, -, hlog⟩ := p.discreteLog_spec le_rfl (hk.symm ▸ k.isLt)
    rw [hk] at hlog
    exact ⟨⟨x.toNat, hx⟩, hlog⟩
  obtain ⟨honto, hsingle⟩ := onto_and_single_valued htotal
    (fun k k' x h h' => Fin.ext (h.inj k.isLt k'.isLt h'))
  constructor
  · intro x hx
    obtain ⟨k, hk⟩ := honto ⟨x, hx⟩
    exact ⟨k, k.isLt, hk⟩
  · intro k hk x hx y hy h h'
    exact Fin.val_eq_of_eq (hsingle ⟨k, hk⟩ ⟨x, hx⟩ ⟨y, hy⟩ h h')

theorem toNat_bound_sub {x : UInt64} (hx : x.toNat < 2 ^ p.value) :
    (p.bound - x).toNat = 2 ^ p.value - x.toNat := by
  rw [UInt64.toNat_sub_of_le, toNat_bound]
  rw [UInt64.le_iff_toNat_le, toNat_bound]
  exact hx.le

theorem bound_sub_inj {x y : UInt64} (hx : x.toNat < 2 ^ p.value) (hy : y.toNat < 2 ^ p.value)
    (h : p.bound - x = p.bound - y) : x = y := by
  have hnat := congrArg UInt64.toNat h
  rw [p.toNat_bound_sub hx, p.toNat_bound_sub hy] at hnat
  exact UInt64.toNat_inj.mp (by omega)

/-- **The result is the exponent, counted from above.** -/
theorem discreteLog_eq_iff {rounds : ℕ} (hrounds : p.value ≤ rounds) {k x : UInt64}
    (hk : k.toNat < 2 ^ p.value) (hx : x.toNat < 2 ^ p.value) :
    p.discreteLog rounds k = some (p.bound - x) ↔ p.IsLog k.toNat x.toNat := by
  obtain ⟨y, hy, hres, hlog⟩ := p.discreteLog_spec hrounds hk
  rw [hres, Option.some_inj]
  constructor
  · intro h
    rwa [← p.bound_sub_inj hy hx h]
  · intro h
    rw [UInt64.toNat_inj.mp (p.isLog_bijective.2 _ hk _ hy _ hx hlog h)]

/-- **`discrete_log` is a shuffle.** For every power the template admits and every
argument its assertion admits the loop ends after at most as many rounds as
there are bits, the result is a bijection onto the interval from one to `P`, and
it is `P - x` for the one exponent `x` that takes the residue of `k` to one. -/
theorem discreteLog_shuffles {rounds : ℕ} (hrounds : p.value ≤ rounds) :
    Set.BijOn (p.discreteLog rounds) {k | k.toNat < 2 ^ p.value}
        (some '' {r | 1 ≤ r.toNat ∧ r.toNat ≤ 2 ^ p.value})
      ∧ ∀ k x : UInt64, k.toNat < 2 ^ p.value → x.toNat < 2 ^ p.value →
        (p.discreteLog rounds k = some (p.bound - x)
          ↔ (1 + 4 * k.toNat) * p.generator.toNat ^ x.toNat ≡ 1 [MOD 2 ^ (p.value + 2)]) := by
  refine ⟨⟨?_, ?_, ?_⟩, fun k x hk hx => p.discreteLog_eq_iff hrounds hk hx⟩
  · intro k hk
    obtain ⟨x, hx, hres, -⟩ := p.discreteLog_spec hrounds hk
    refine ⟨p.bound - x, ?_, hres.symm⟩
    show 1 ≤ (p.bound - x).toNat ∧ (p.bound - x).toNat ≤ _
    rw [p.toNat_bound_sub hx]
    omega
  · intro k hk k' hk' h
    obtain ⟨x, hx, hres, hlog⟩ := p.discreteLog_spec hrounds hk
    obtain ⟨x', hx', hres', hlog'⟩ := p.discreteLog_spec hrounds hk'
    rw [hres, hres', Option.some_inj] at h
    rw [← p.bound_sub_inj hx hx' h] at hlog'
    exact UInt64.toNat_inj.mp (hlog.inj hk hk' hlog')
  · rintro - ⟨r, ⟨h₁, h₂⟩, rfl⟩
    -- the exponent is the distance of the result from `P`
    have hle : r ≤ p.bound := by rwa [UInt64.le_iff_toNat_le, toNat_bound]
    have hx : (p.bound - r).toNat = 2 ^ p.value - r.toNat := by
      rw [UInt64.toNat_sub_of_le _ _ hle, toNat_bound]
    obtain ⟨k, hk, hlog⟩ := p.isLog_bijective.1 (p.bound - r).toNat (by omega)
    have hk64 : (UInt64.ofNat k).toNat = k := by
      rw [UInt64.toNat_ofNat', Nat.mod_eq_of_lt]
      exact hk.trans_le (Nat.le_of_dvd (by decide) p.bound_dvd)
    refine ⟨UInt64.ofNat k, ?_, ?_⟩
    · show (UInt64.ofNat k).toNat < _
      rwa [hk64]
    · have hres := (p.discreteLog_eq_iff hrounds (k := UInt64.ofNat k) (x := p.bound - r)
        (by rwa [hk64]) (by omega)).mpr (by rwa [hk64])
      rw [hres]
      congr 1
      refine UInt64.toNat_inj.mp ?_
      rw [p.toNat_bound_sub (by omega), hx]
      omega

/-- Bytes are shuffled in eight rounds. -/
theorem discreteLog_shuffles_bytes :
    (PowerOfTwo.mk 8 (by decide) (by decide)).value ≤ 8
      ∧ Set.BijOn ((PowerOfTwo.mk 8 (by decide) (by decide)).discreteLog 8)
        {k | k.toNat < 2 ^ 8} (some '' {r | 1 ≤ r.toNat ∧ r.toNat ≤ 2 ^ 8}) :=
  ⟨le_rfl, (discreteLog_shuffles (PowerOfTwo.mk 8 (by decide) (by decide)) le_rfl).1⟩

end PowerOfTwo
