import PKBench.Binary32

/-!
# The options of a benchmark run

`main` fills an `options_t` from the command line, refuses some of what it
finds there and hands the rest to the driver. The record below is that
`options_t` with the fields the driver's own logic reads, at their widths and
with their defaults; the ratios, the skew and the sampling probability are C++
`float`s and are read as the rationals they stand for. What the source computes
from them is rounded where the source rounds it (`Binary32.toFloat`).

`Options.sanitize` is the block of checks `main` runs after parsing, in its
order and with its messages. It is the whole of what a configuration has been
checked for when `load` and `run` see it: in particular nothing there looks at
the number of threads.
-/

open Binary32 (toFloat)

/-- The benchmark mode: a number of operations, or a number of seconds. -/
inductive Mode where
  | operation
  | time
  deriving DecidableEq, Repr

/-- The distribution keys are drawn from. -/
inductive KeyDistribution where
  | uniform
  | selfsimilar
  | zipfian
  | latest
  deriving DecidableEq, Repr

/-- The operations the driver issues. -/
inductive Operation where
  | read
  | insert
  | update
  | remove
  | scan
  deriving DecidableEq, Repr

/-- Total size in bytes of the buffer keys are built in. -/
def keyMax : ℕ := 128

/-- Largest value the value generator hands out, in bytes. -/
def valueMax : ℕ := 1024

/-- Largest number of records one scan asks for. -/
def maxScan : ℕ := 1000

/-- **The options of a run**, with the defaults of `options_t`. -/
structure Options where
  numRecords : UInt64 := 1000000
  numOps : UInt64 := 1000000
  numThreads : UInt32 := 1
  samplingMs : UInt32 := 1000
  /-- Bytes put in front of every key. -/
  keyPrefix : List UInt8 := []
  /-- Size of a key in bytes, without the prefix. -/
  keySize : UInt32 := 8
  valueSize : UInt32 := 8
  readRatio : ℚ := 1
  insertRatio : ℚ := 0
  updateRatio : ℚ := 0
  removeRatio : ℚ := 0
  scanRatio : ℚ := 0
  scanSize : UInt32 := 100
  keyDistribution : KeyDistribution := KeyDistribution.uniform
  keySkew : ℚ := toFloat (99 / 100)
  skipLoad : Bool := false
  latencySampling : ℚ := 0
  seconds : UInt32 := 20
  bmMode : Mode := Mode.operation
  writeAgain : Bool := false

/-- What `main` refuses, with the number it reports. -/
inductive OptionError where
  | keySize (total : ℕ)
  | valueSize (size : ℕ)
  | ratioSum (sum : ℚ)
  | scanSize (size : ℕ)
  | selfsimilarSkew
  | zipfianSkew
  | latencySampling
  deriving DecidableEq

/-- The line `main` prints before it exits. How a stream renders a `float` is
left to `showFloat`. The range given for the scan size is the one of the
source, which prints the largest value size in place of the largest scan. -/
def OptionError.message (showFloat : ℚ → String) : OptionError → String
  | .keySize total =>
      "Total key size cannot be greater than " ++ toString keyMax
        ++ ", but is " ++ toString total
  | .valueSize size =>
      "Total value size cannot be greater than " ++ toString valueMax
        ++ ", but is " ++ toString size
  | .ratioSum sum => "Sum of ratios should be 1.0 but is " ++ showFloat sum
  | .scanSize size =>
      "Scan size must be in the range [1," ++ toString valueMax
        ++ "], but is " ++ toString size
  | .selfsimilarSkew => "Skew factor must be in the range [0 , 0.5]."
  | .zipfianSkew => "Skew factor must be in the range [0.0 , 1.0]."
  | .latencySampling => "Latency sampling must be in the range [0.0 , 1.0]."

namespace Options

/-- The sum `main` compares with one, rounded after each addition. -/
def ratioSum (opt : Options) : ℚ :=
  toFloat (toFloat (toFloat (toFloat (opt.readRatio + opt.insertRatio) + opt.updateRatio)
    + opt.removeRatio) + opt.scanRatio)

/-- Size of a key with its prefix. -/
def totalKeySize (opt : Options) : ℕ := opt.keyPrefix.length + opt.keySize.toNat

/-- **The checks of `main`**, in the order it makes them. -/
def sanitize (opt : Options) : Except OptionError Unit :=
  if opt.totalKeySize > keyMax then
    .error (.keySize opt.totalKeySize)
  else if opt.valueSize.toNat > valueMax then
    .error (.valueSize opt.valueSize.toNat)
  else if opt.ratioSum ≠ 1 then
    .error (.ratioSum opt.ratioSum)
  else if opt.scanSize.toNat < 1 ∨ opt.scanSize.toNat > maxScan then
    .error (.scanSize opt.scanSize.toNat)
  else if opt.keyDistribution = .selfsimilar ∧ (opt.keySkew < 0 ∨ opt.keySkew > 1 / 2) then
    .error .selfsimilarSkew
  else if opt.keyDistribution = .zipfian ∧ (opt.keySkew < 0 ∨ opt.keySkew > 1) then
    .error .zipfianSkew
  else if opt.latencySampling < 0 ∨ opt.latencySampling > 1 then
    .error .latencySampling
  else
    .ok ()

/-- The options pass every check of `main`. -/
def Accepted (opt : Options) : Prop := opt.sanitize = .ok ()

/-- **What the checks promise.** Each conjunct is one of them having let the
options pass. -/
theorem accepted_iff (opt : Options) :
    opt.Accepted ↔
      opt.totalKeySize ≤ keyMax ∧ opt.valueSize.toNat ≤ valueMax ∧ opt.ratioSum = 1
        ∧ (1 ≤ opt.scanSize.toNat ∧ opt.scanSize.toNat ≤ maxScan)
        ∧ ¬ (opt.keyDistribution = .selfsimilar ∧ (opt.keySkew < 0 ∨ opt.keySkew > 1 / 2))
        ∧ ¬ (opt.keyDistribution = .zipfian ∧ (opt.keySkew < 0 ∨ opt.keySkew > 1))
        ∧ ¬ (opt.latencySampling < 0 ∨ opt.latencySampling > 1) := by
  have hite : ∀ (c : Prop) [Decidable c] (err : OptionError) (rest : Except OptionError Unit),
      (if c then .error err else rest) = .ok () ↔ ¬ c ∧ rest = .ok () := by
    intro c _ err rest
    by_cases hc : c
    · rw [if_pos hc]
      exact ⟨fun h => (by cases h), fun h => absurd hc h.1⟩
    · rw [if_neg hc]
      exact ⟨fun h => ⟨hc, h⟩, fun h => h.2⟩
  unfold Accepted sanitize
  rw [hite, hite, hite, hite, hite, hite, hite]
  simp only [not_lt, gt_iff_lt, ne_eq, not_not, not_or, and_true]

end Options
