import Mathlib.Data.Nat.ModEq
import Mathlib.Data.List.Basic
import Mathlib.Tactic.Ring

/-!
# Byte buffers and little-endian words

Programs that move machine words in and out of byte buffers are read here
through two functions: `leBytes w n`, the `w` low bytes of `n` with the least
significant first, and `leNat`, the number a list of bytes spells in that
order. They undo each other (`leNat_leBytes`, `leBytes_leNat`), so equality of
encodings is equality modulo `256 ^ w` (`leBytes_eq_iff`).

A buffer is a vector of bytes, and `write` is `memcpy` into it: it puts the
bytes it is given from an offset on and leaves every other byte alone. A write
that stays inside the buffer is the concatenation one expects
(`toList_write`). A memory is a function from addresses to bytes; `store` and
`load` are `memcpy` into it and out of it, and `Holds` says what stands where,
part by part (`holds_append`).
-/

namespace ByteBuffer

/-- The `w` low bytes of `n`, least significant first. -/
def leBytes : ℕ → ℕ → List UInt8
  | 0, _ => []
  | w + 1, n => UInt8.ofNat n :: leBytes w (n / 256)

/-- The number a list of bytes spells, least significant first. -/
def leNat : List UInt8 → ℕ
  | [] => 0
  | b :: bs => b.toNat + 256 * leNat bs

@[simp] theorem length_leBytes (w n : ℕ) : (leBytes w n).length = w := by
  induction w generalizing n with
  | zero => rfl
  | succ w ih => rw [leBytes, List.length_cons, ih]

/-- **Reading back what was encoded** gives the number modulo `256 ^ w`. -/
theorem leNat_leBytes (w n : ℕ) : leNat (leBytes w n) = n % 256 ^ w := by
  induction w generalizing n with
  | zero => rw [leBytes, leNat, pow_zero, Nat.mod_one]
  | succ w ih =>
    rw [leBytes, leNat, ih, UInt8.toNat_ofNat', pow_succ' 256 w, Nat.mod_mul]

theorem leNat_lt (bs : List UInt8) : leNat bs < 256 ^ bs.length := by
  induction bs with
  | nil => exact Nat.one_pos
  | cons b bs ih =>
    have hb : b.toNat < 256 := b.toNat_lt
    rw [leNat, List.length_cons, pow_succ]
    omega

/-- **Encoding what was read** gives the bytes back. -/
theorem leBytes_leNat (bs : List UInt8) : leBytes bs.length (leNat bs) = bs := by
  induction bs with
  | nil => rfl
  | cons b bs ih =>
    have hb : b.toNat < 256 := b.toNat_lt
    rw [List.length_cons, leBytes, leNat]
    refine congrArg₂ _ (UInt8.toNat_inj.mp ?_) ?_
    · rw [UInt8.toNat_ofNat']
      omega
    · rw [show (b.toNat + 256 * leNat bs) / 256 = leNat bs by omega, ih]

/-- Lists of one length that spell the same number are the same list. -/
theorem leNat_inj {bs bs' : List UInt8} (hlen : bs.length = bs'.length) :
    leNat bs = leNat bs' ↔ bs = bs' := by
  constructor
  · intro h
    rw [← leBytes_leNat bs, ← leBytes_leNat bs', h, hlen]
  · exact congrArg leNat

/-- **Two encodings agree exactly modulo `256 ^ w`.** -/
theorem leBytes_eq_iff {w m n : ℕ} :
    leBytes w m = leBytes w n ↔ m % 256 ^ w = n % 256 ^ w := by
  rw [← leNat_inj (by rw [length_leBytes, length_leBytes]), leNat_leBytes,
    leNat_leBytes]

/-- The low bytes of an encoding are the encoding at the smaller width. -/
theorem take_leBytes {v w : ℕ} (h : v ≤ w) (n : ℕ) :
    (leBytes w n).take v = leBytes v n := by
  induction v generalizing w n with
  | zero => rfl
  | succ v ih =>
    cases w with
    | zero => exact absurd h (Nat.not_succ_le_zero v)
    | succ w =>
      rw [leBytes, leBytes, List.take_succ_cons, ih (Nat.le_of_succ_le_succ h)]

/-- Appending a high part adds it above the low one. -/
theorem leNat_append (bs cs : List UInt8) :
    leNat (bs ++ cs) = leNat bs + 256 ^ bs.length * leNat cs := by
  induction bs with
  | nil => rw [List.nil_append, leNat, List.length_nil, pow_zero, Nat.one_mul, Nat.zero_add]
  | cons b bs ih =>
    rw [List.cons_append, leNat, leNat, ih, List.length_cons, pow_succ]
    ring

@[simp] theorem leNat_replicate_zero (n : ℕ) : leNat (List.replicate n 0) = 0 := by
  induction n with
  | zero => rfl
  | succ n ih => rw [List.replicate_succ, leNat, ih]; rfl

/-- A multiple of all but the top byte's weight has only a top byte. -/
theorem leBytes_succ_mul_pow (w m : ℕ) :
    leBytes (w + 1) (m * 256 ^ w) = List.replicate w 0 ++ [UInt8.ofNat m] := by
  rw [← leNat_inj (by simp), leNat_leBytes, leNat_append, leNat_replicate_zero,
    List.length_replicate, Nat.zero_add, leNat, leNat, UInt8.toNat_ofNat',
    pow_succ' 256 w, Nat.mul_mod_mul_right, Nat.mul_comm]
  rfl

/-! ## Writing into a buffer -/

variable {n : ℕ}

/-- `memcpy` of `bytes` to offset `off` of the buffer. -/
def write (buf : Vector UInt8 n) (off : ℕ) (bytes : List UInt8) : Vector UInt8 n :=
  Vector.ofFn (fun i => if off ≤ i then (bytes[i.val - off]?).getD buf[i] else buf[i])

theorem getElem_write (buf : Vector UInt8 n) (off : ℕ) (bytes : List UInt8) (i : ℕ)
    (hi : i < n) :
    (write buf off bytes)[i]
      = if off ≤ i then (bytes[i - off]?).getD buf[i] else buf[i] := by
  rw [write, Vector.getElem_ofFn]
  rfl

/-- **A write inside the buffer** replaces the bytes it covers and keeps the
others. -/
theorem toList_write (buf : Vector UInt8 n) {off : ℕ} {bytes : List UInt8}
    (h : off + bytes.length ≤ n) :
    (write buf off bytes).toList
      = buf.toList.take off ++ bytes ++ buf.toList.drop (off + bytes.length) := by
  refine List.ext_getElem ?_ (fun i h₁ h₂ => ?_)
  · simp only [Vector.length_toList, List.length_append, List.length_take,
      List.length_drop]
    omega
  · rw [Vector.length_toList] at h₁
    have hlen : (buf.toList.take off).length = off := by
      rw [List.length_take, Vector.length_toList]
      omega
    simp only [List.getElem_append, List.getElem_take, List.getElem_drop,
      List.length_append, hlen, Vector.getElem_toList]
    rw [getElem_write]
    rcases Nat.lt_or_ge i off with hlt | hge
    · rw [if_neg (Nat.not_le.mpr hlt), dif_pos (by omega), dif_pos hlt]
    · rw [if_pos hge]
      rcases Nat.lt_or_ge i (off + bytes.length) with hin | hout
      · rw [dif_pos hin, dif_neg (by omega), List.getElem?_eq_getElem (by omega),
          Option.getD_some]
      · rw [dif_neg (by omega), List.getElem?_eq_none (by omega), Option.getD_none]
        congr 1
        omega

/-- A write leaves what precedes it. -/
theorem take_toList_write (buf : Vector UInt8 n) {off : ℕ} {bytes : List UInt8}
    (h : off + bytes.length ≤ n) {m : ℕ} (hm : m ≤ off) :
    (write buf off bytes).toList.take m = buf.toList.take m := by
  rw [toList_write buf h, List.append_assoc, List.take_append_of_le_length, List.take_take,
    Nat.min_eq_left hm]
  rw [List.length_take, Vector.length_toList]
  omega

/-- Up to its end, a write shows what preceded it and then its bytes. -/
theorem take_toList_write_end (buf : Vector UInt8 n) {off : ℕ} {bytes : List UInt8}
    (h : off + bytes.length ≤ n) :
    (write buf off bytes).toList.take (off + bytes.length)
      = buf.toList.take off ++ bytes := by
  have hlen : (buf.toList.take off ++ bytes).length = off + bytes.length := by
    rw [List.length_append, List.length_take, Vector.length_toList]
    omega
  rw [toList_write buf h, ← hlen, List.take_left]

/-- A write leaves what follows it. -/
theorem drop_toList_write (buf : Vector UInt8 n) {off : ℕ} {bytes : List UInt8}
    (h : off + bytes.length ≤ n) {m : ℕ} (hm : off + bytes.length ≤ m) :
    (write buf off bytes).toList.drop m = buf.toList.drop m := by
  have hlen : (buf.toList.take off ++ bytes).length = off + bytes.length := by
    rw [List.length_append, List.length_take, Vector.length_toList]
    omega
  rw [toList_write buf h, List.drop_append, List.drop_eq_nil_of_le (by omega),
    List.nil_append, List.drop_drop, hlen]
  congr 1
  omega

/-! ## Memory -/

section Memory

variable {mem : ℕ → UInt8} {off : ℕ} {bs cs : List UInt8}

/-- `memcpy` of `bytes` to the address `off` of a memory. -/
def store (mem : ℕ → UInt8) (off : ℕ) (bytes : List UInt8) : ℕ → UInt8 :=
  fun i => if off ≤ i then (bytes[i - off]?).getD (mem i) else mem i

/-- The `n` bytes from the address `off` on. -/
def load (mem : ℕ → UInt8) (off n : ℕ) : List UInt8 := (List.range n).map (fun i => mem (off + i))

/-- **The memory holds `bytes` from the address `off` on.** -/
def Holds (mem : ℕ → UInt8) (off : ℕ) (bytes : List UInt8) : Prop :=
  load mem off bytes.length = bytes

@[simp] theorem length_load (mem : ℕ → UInt8) (off n : ℕ) : (load mem off n).length = n := by
  rw [load, List.length_map, List.length_range]

theorem getElem_load (mem : ℕ → UInt8) (off n : ℕ) {i : ℕ} (h : i < (load mem off n).length) :
    (load mem off n)[i] = mem (off + i) := by
  simp only [load, List.getElem_map, List.getElem_range]

theorem load_add (mem : ℕ → UInt8) (off m n : ℕ) :
    load mem off (m + n) = load mem off m ++ load mem (off + m) n := by
  unfold load
  rw [List.range_add, List.map_append, List.map_map]
  refine congrArg _ (List.map_congr_left (fun i _ => ?_))
  show mem (off + (m + i)) = mem (off + m + i)
  rw [Nat.add_assoc]

/-- What depends on some bytes only is the same where these are. -/
theorem load_congr {mem' : ℕ → UInt8} {n : ℕ} (h : ∀ i < n, mem' (off + i) = mem (off + i)) :
    load mem' off n = load mem off n :=
  List.map_congr_left (fun i hi => h i (List.mem_range.mp hi))

theorem holds_nil (mem : ℕ → UInt8) (off : ℕ) : Holds mem off [] := rfl

/-- A concatenation is held part by part. -/
theorem holds_append :
    Holds mem off (bs ++ cs) ↔ Holds mem off bs ∧ Holds mem (off + bs.length) cs := by
  unfold Holds
  rw [List.length_append, load_add]
  constructor
  · exact fun h => List.append_inj h (length_load _ _ _)
  · rintro ⟨h₁, h₂⟩
    rw [h₁, h₂]

theorem store_of_lt {i : ℕ} (h : i < off) : store mem off bs i = mem i :=
  if_neg (Nat.not_le.mpr h)

theorem store_of_ge {i : ℕ} (h : off + bs.length ≤ i) : store mem off bs i = mem i := by
  rw [store, if_pos (by omega), List.getElem?_eq_none (by omega), Option.getD_none]

theorem store_nil (mem : ℕ → UInt8) (off : ℕ) : store mem off [] = mem := by
  funext i
  unfold store
  split <;> rfl

/-- **A memory holds what was stored.** -/
theorem holds_store (mem : ℕ → UInt8) (off : ℕ) (bs : List UInt8) :
    Holds (store mem off bs) off bs := by
  refine List.ext_getElem (length_load _ _ _) (fun i h₁ h₂ => ?_)
  rw [getElem_load, store, if_pos (Nat.le_add_right off i), Nat.add_sub_cancel_left,
    List.getElem?_eq_getElem h₂, Option.getD_some]

/-- What lies in front of a store stays. -/
theorem load_store_of_le {a n : ℕ} (h : a + n ≤ off) :
    load (store mem off bs) a n = load mem a n :=
  load_congr (fun _ hi => store_of_lt (by omega))

end Memory

end ByteBuffer
