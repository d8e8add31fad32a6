import PKBench.KeyGenerator

/-!
# What the eight-byte indexes make of a key

The wrappers of ListDB, PACTree and the LB+-tree adapter of FlatStore are
handed a key and its size, and look at neither more nor less than the first
eight bytes at the key pointer: `listdb_client` and `pactree_client` take them
as one machine word, `PBkeyToLB` also clears the sign bit. The driver, for its
part, puts the prefix first, and behind it the low bytes of the hashed id, or
zeroes and then the hashed id.

Two ids share a key exactly when they agree in the low bytes the key has room
for, since the multiplier of the hash is odd (`keyBytes_injective_iff`).
Whether two ids with different keys keep different index words is a
matter of how far behind the first eight bytes the encoder's bytes reach. The
word sees the whole key exactly when it is at most eight bytes long
(`wordAt_separates_iff`), and the masked word when moreover the top bit of
the eighth byte carries nothing (`pbkeyToLB_separates_iff`).
-/

open ByteBuffer

namespace KeyGenerator

/-- The first eight bytes at the key pointer, read as a machine word of a
little-endian machine. -/
def wordAt (buf : Vector UInt8 keyMax) : UInt64 := UInt64.ofNat (leNat (buf.toList.take 8))

/-- `*(size_t *)key` of `listdb_client::find` and `listdb_client::insert`. -/
def listdbKey (buf : Vector UInt8 keyMax) : UInt64 := wordAt buf

/-- `*reinterpret_cast<Key_t *>(key)` of `pactree_client`. -/
def pactreeKey (buf : Vector UInt8 keyMax) : UInt64 := wordAt buf

/-- `PBkeyToLB` of the LB+-tree adapter. -/
def pbkeyToLB (buf : Vector UInt8 keyMax) : UInt64 := wordAt buf &&& 0x7fffffffffffffff

/-! ## The id part on a little-endian machine -/

/-- The multiplier of the hash. -/
def hashMultiplier : ℕ := 11400714819323198393

theorem toNat_multiplicativeHash (id : UInt64) :
    (multiplicativeHash id).toNat = hashMultiplier * id.toNat % 256 ^ 8 := by
  rw [multiplicativeHash, UInt64.toNat_mul]
  rfl

/-- The two shifts keep the low bytes. -/
theorem toNat_discardBits_little {size : ℕ} (hs : 0 < size) (hs' : size < 8) (h : UInt64) :
    (discardBits .little size h).toNat = h.toNat % 256 ^ size := by
  obtain ⟨b, hb⟩ : ∃ b, 8 * size + b = 64 := ⟨64 - 8 * size, by omega⟩
  have hbits : (8 - size) <<< 3 = b := by
    rw [Nat.shiftLeft_eq]
    omega
  have hpow : 2 ^ 64 = 256 ^ size * 2 ^ b := by
    rw [← hb, Nat.pow_add, Nat.pow_mul]
  have hmod : (UInt64.ofNat b).toNat % 64 = b := by
    rw [UInt64.toNat_ofNat']
    omega
  rw [discardBits, hbits]
  simp only [UInt64.toNat_shiftRight, UInt64.toNat_shiftLeft, hmod]
  rw [Nat.shiftLeft_eq, Nat.shiftRight_eq_div_pow, hpow, Nat.mul_mod_mul_right,
    Nat.mul_div_cancel _ (Nat.two_pow_pos b)]

/-- **The id part is zeroes and then the low bytes of the hashed id.** -/
theorem enc_little (size : ℕ) (id : UInt64) :
    enc .little size id
      = List.replicate (size - 8) 0 ++ leBytes (min size 8) (hashMultiplier * id.toNat) := by
  unfold enc
  by_cases hs : size < 8
  · rw [if_pos hs, show size - 8 = 0 by omega, List.replicate_zero, List.nil_append,
      Nat.min_eq_left hs.le, Endianness.bytesOf, take_leBytes hs.le]
    rcases Nat.eq_zero_or_pos size with rfl | hpos
    · rfl
    · rw [leBytes_eq_iff, toNat_discardBits_little hpos hs, Nat.mod_mod,
        toNat_multiplicativeHash, Nat.mod_mod_of_dvd _ (pow_dvd_pow 256 hs.le)]
  · rw [if_neg hs, Nat.min_eq_right (Nat.le_of_not_lt hs), Endianness.bytesOf]
    refine congrArg _ (leBytes_eq_iff.mpr ?_)
    rw [toNat_multiplicativeHash, Nat.mod_mod]

/-- The multiplier is odd, so hashing loses nothing modulo a power of two. -/
theorem hashMultiplier_mul_modEq_iff (k a b : ℕ) :
    hashMultiplier * a ≡ hashMultiplier * b [MOD 2 ^ k] ↔ a ≡ b [MOD 2 ^ k] := by
  have hcop : Nat.gcd (2 ^ k) hashMultiplier = 1 := by
    have hodd : Nat.Coprime 2 hashMultiplier := by decide
    exact hodd.pow_left k
  exact ⟨Nat.ModEq.cancel_left_of_coprime hcop, Nat.ModEq.mul_left hashMultiplier⟩

/-- An id that is a multiple of the top byte's weight shows only in the last
byte of its id part. -/
theorem enc_little_top {size m : ℕ} (hs : 0 < size) {id : UInt64}
    (hid : id.toNat = m * 256 ^ (min size 8 - 1)) :
    enc .little size id
      = List.replicate (size - 1) 0 ++ [UInt8.ofNat (hashMultiplier * m)] := by
  obtain ⟨w, hw⟩ : ∃ w, min size 8 = w + 1 := ⟨min size 8 - 1, by omega⟩
  rw [enc_little, hid, hw, Nat.add_sub_cancel, ← Nat.mul_assoc, leBytes_succ_mul_pow,
    ← List.append_assoc, ← List.replicate_add, show size - 8 + w = size - 1 by omega]

/-! ## Which ids share a key -/

section Injectivity

variable {Thread : Type} [DecidableEq Thread]

/-- The number of keys of a size: what is left of the hashed id decides. -/
def keySpace (g : KeyGenerator) : ℕ := 2 ^ (8 * min g.size 8)

theorem keySpace_dvd (g : KeyGenerator) : keySpace g ∣ 2 ^ 64 := by
  refine pow_dvd_pow 2 ?_
  have h := Nat.min_le_right g.size 8
  omega

/-- Two ids have the same id part exactly when they agree in the low bytes a key
has room for. -/
theorem enc_little_eq_iff (g : KeyGenerator) (a b : UInt64) :
    enc .little g.size a = enc .little g.size b ↔ a.toNat ≡ b.toNat [MOD keySpace g] := by
  rw [enc_little, enc_little, List.append_cancel_left_eq, leBytes_eq_iff,
    show (256 : ℕ) = 2 ^ 8 from rfl, ← Nat.pow_mul]
  exact hashMultiplier_mul_modEq_iff (8 * min g.size 8) a.toNat b.toNat

theorem keyBytes_eq_keyBytes_iff (g : KeyGenerator) (c : Thread)
    (calls calls' : List (Thread × Call)) (a b : UInt64) :
    keyBytes .little g (after .little g c calls c) a
        = keyBytes .little g (after .little g c calls' c) b
      ↔ a.toNat ≡ b.toNat [MOD keySpace g] := by
  rw [keyBytes_after, keyBytes_after, List.append_cancel_left_eq]
  exact enc_little_eq_iff g a b

/-- Numbers taken as 64-bit ids agree in the low bytes as they do themselves. -/
theorem toNat_ofNat_modEq_iff (g : KeyGenerator) (i j : ℕ) :
    (UInt64.ofNat i).toNat ≡ (UInt64.ofNat j).toNat [MOD keySpace g]
      ↔ i ≡ j [MOD keySpace g] := by
  have hi : (UInt64.ofNat i).toNat ≡ i [MOD keySpace g] := by
    rw [UInt64.toNat_ofNat']
    exact (Nat.mod_modEq i _).of_dvd (keySpace_dvd g)
  have hj : (UInt64.ofNat j).toNat ≡ j [MOD keySpace g] := by
    rw [UInt64.toNat_ofNat']
    exact (Nat.mod_modEq j _).of_dvd (keySpace_dvd g)
  exact ⟨fun h => hi.symm.trans (h.trans hj), fun h => hi.trans (h.trans hj.symm)⟩

/-- The numbers from one to `N` are pairwise incongruent exactly when there are
no more of them than residues. -/
theorem injOn_modEq_iff {M : ℕ} (hM : 0 < M) (N : ℕ) :
    (∀ i ∈ List.range' 1 N, ∀ j ∈ List.range' 1 N, i ≡ j [MOD M] → i = j) ↔ N ≤ M := by
  constructor
  · intro h
    by_contra hlt
    have hone : 1 ∈ List.range' 1 N := List.mem_range'_1.mpr (by omega)
    have hwrap : 1 + M ∈ List.range' 1 N := List.mem_range'_1.mpr (by omega)
    have heq := h 1 hone (1 + M) hwrap (Nat.add_modEq_right).symm
    omega
  · intro hle i hi j hj hij
    rw [List.mem_range'_1] at hi hj
    obtain ⟨i, rfl⟩ := Nat.exists_eq_add_of_le hi.1
    obtain ⟨j, rfl⟩ := Nat.exists_eq_add_of_le hj.1
    have hmod : i ≡ j [MOD M] := Nat.ModEq.add_left_cancel' 1 hij
    rw [hmod.eq_of_lt_of_lt (by omega) (by omega)]

/-- **The keys of two ids are the same bytes exactly when the ids agree modulo
the number of keys of that size**, in the thread that constructed the generator
and after any histories; so the ids from one to `N` have keys of their own
exactly as long as there are so many keys. -/
theorem keyBytes_injective_iff (g : KeyGenerator) (c : Thread) :
    (∀ (calls calls' : List (Thread × Call)) (a b : UInt64),
        keyBytes .little g (after .little g c calls c) a
            = keyBytes .little g (after .little g c calls' c) b
          ↔ a.toNat ≡ b.toNat [MOD 2 ^ (8 * min g.size 8)])
      ∧ ∀ (calls : ℕ → List (Thread × Call)) (N : ℕ),
        ((List.range' 1 N).map (fun i =>
            keyBytes .little g (after .little g c (calls i) c) (UInt64.ofNat i))).Nodup
          ↔ N ≤ 2 ^ (8 * min g.size 8) := by
  refine ⟨keyBytes_eq_keyBytes_iff g c, fun calls N => ?_⟩
  rw [List.nodup_map_iff_inj_on List.nodup_range', ← injOn_modEq_iff (Nat.two_pow_pos _) N]
  refine forall₄_congr (fun i _ j _ => ?_)
  rw [keyBytes_eq_keyBytes_iff, toNat_ofNat_modEq_iff]
  rfl

end Injectivity

/-! ## The eight bytes an index reads -/

variable {Thread : Type} [DecidableEq Thread]

/-- The place of the prefix, in thread `t` of a process whose generator was
constructed by `c`. -/
def prefixPart (g : KeyGenerator) (c t : Thread) : List UInt8 :=
  if t = c then g.keyPrefix else List.replicate g.keyPrefix.length 0

@[simp] theorem length_prefixPart (g : KeyGenerator) (c t : Thread) :
    (prefixPart g c t).length = g.keyPrefix.length := by
  unfold prefixPart
  by_cases h : t = c
  · rw [if_pos h]
  · rw [if_neg h, List.length_replicate]

/-- The buffer a wrapper is handed, in thread `t` after the history `calls`. -/
def keyBuf (g : KeyGenerator) (c t : Thread) (calls : List (Thread × Call))
    (id : UInt64) : Vector UInt8 keyMax :=
  hashId .little g (after .little g c calls t).buf id

/-- **The whole buffer**: the key, and zeroes to the end. -/
theorem toList_keyBuf (g : KeyGenerator) (c t : Thread) (calls : List (Thread × Call))
    (id : UInt64) :
    (keyBuf g c t calls id).toList
      = prefixPart g c t ++ enc .little g.size id
        ++ List.replicate (keyMax - g.totalSize) 0 := by
  have hfits := enc_fits .little g id
  have hrest := restPart_after .little g c t calls
  rw [keyBuf, hashId_eq_write, toList_write _ hfits, prefixPart_after, length_enc]
  rw [totalSize] at hrest ⊢
  rw [hrest]
  rfl

theorem keyBytes_keyBuf (g : KeyGenerator) (c t : Thread) (calls : List (Thread × Call))
    (id : UInt64) :
    keyBytes .little g (after .little g c calls t) id
      = prefixPart g c t ++ enc .little g.size id :=
  keyBytes_after .little g c t calls id

/-- The word at the key pointer, as a number. -/
theorem toNat_wordAt (buf : Vector UInt8 keyMax) :
    (wordAt buf).toNat = leNat (buf.toList.take 8) := by
  have h := leNat_lt (buf.toList.take 8)
  rw [List.length_take, Vector.length_toList, show min 8 keyMax = 8 by decide] at h
  rw [wordAt, UInt64.toNat_ofNat']
  exact Nat.mod_eq_of_lt h

/-- Two buffers give the same word exactly when they start with the same eight
bytes. -/
theorem wordAt_eq_iff (buf buf' : Vector UInt8 keyMax) :
    wordAt buf = wordAt buf' ↔ buf.toList.take 8 = buf'.toList.take 8 := by
  rw [← UInt64.toNat_inj, toNat_wordAt, toNat_wordAt, leNat_inj]
  rw [List.length_take, List.length_take, Vector.length_toList, Vector.length_toList]

/-- The masked word, as a number. -/
theorem toNat_pbkeyToLB (buf : Vector UInt8 keyMax) :
    (pbkeyToLB buf).toNat = leNat (buf.toList.take 8) % 2 ^ 63 := by
  rw [pbkeyToLB, UInt64.toNat_and, toNat_wordAt]
  exact Nat.and_two_pow_sub_one_eq_mod _ 63

/-- **A key of at most eight bytes is read whole**, with zeroes behind it. -/
theorem take_toList_keyBuf {g : KeyGenerator} (h : g.totalSize ≤ 8) (c t : Thread)
    (calls : List (Thread × Call)) (id : UInt64) :
    (keyBuf g c t calls id).toList.take 8
      = prefixPart g c t ++ enc .little g.size id ++ List.replicate (8 - g.totalSize) 0 := by
  have hlen : (prefixPart g c t ++ enc .little g.size id).length = g.totalSize := by
    rw [List.length_append, length_prefixPart, length_enc, totalSize]
  rw [toList_keyBuf, List.take_append, hlen, List.take_of_length_le (by omega),
    List.take_replicate]
  congr 2
  have : keyMax = 128 := rfl
  omega

/-- **The last byte of a longer key is not read.** -/
theorem take_toList_keyBuf_top {g : KeyGenerator} (hs : 0 < g.size)
    (h : 8 < g.totalSize) (c t : Thread) (calls : List (Thread × Call)) {m : ℕ}
    {id : UInt64} (hid : id.toNat = m * 256 ^ (min g.size 8 - 1)) :
    (keyBuf g c t calls id).toList.take 8
      = (prefixPart g c t ++ List.replicate (g.size - 1) 0).take 8 := by
  rw [totalSize] at h
  rw [toList_keyBuf, enc_little_top hs hid, ← List.append_assoc, List.append_assoc]
  refine List.take_append_of_le_length ?_
  rw [List.length_append, length_prefixPart, List.length_replicate]
  omega

/-! ## Which keys stay apart -/

/-- **A decoder keeps apart what the encoder does**: of any two ids below
`2 ^ 63`, asked for in any threads after any histories, either the keys are the
same bytes or the decoder gives different words. -/
def Separates (decode : Vector UInt8 keyMax → UInt64) (g : KeyGenerator) : Prop :=
  ∀ (c t t' : ℕ) (calls calls' : List (ℕ × Call)) (a b : UInt64),
    a.toNat < 2 ^ 63 → b.toNat < 2 ^ 63 →
    keyBytes .little g (after .little g c calls t) a
        ≠ keyBytes .little g (after .little g c calls' t') b →
    decode (keyBuf g c t calls a) ≠ decode (keyBuf g c t' calls' b)

/-- Two ids whose id parts differ only in the last byte have different keys. -/
theorem keyBytes_ne_of_top {g : KeyGenerator} (hs : 0 < g.size) {m m' : ℕ} {a b : UInt64}
    (ha : a.toNat = m * 256 ^ (min g.size 8 - 1))
    (hb : b.toNat = m' * 256 ^ (min g.size 8 - 1))
    (hne : UInt8.ofNat (hashMultiplier * m) ≠ UInt8.ofNat (hashMultiplier * m')) :
    keyBytes .little g (after .little g (0 : ℕ) [] 0) a
      ≠ keyBytes .little g (after .little g 0 [] 0) b := by
  rw [keyBytes_keyBuf, keyBytes_keyBuf, enc_little_top hs ha, enc_little_top hs hb]
  intro h
  exact hne (List.cons.inj (List.append_cancel_left (List.append_cancel_left h))).1

/-- A key longer than eight bytes hides its last byte from every decoder of the
first eight. -/
theorem not_separates_of_long {decode : Vector UInt8 keyMax → UInt64}
    (hdec : ∀ buf buf', buf.toList.take 8 = buf'.toList.take 8 → decode buf = decode buf')
    {g : KeyGenerator} (hs : 0 < g.size) (h : 8 < g.totalSize) : ¬ Separates decode g := by
  intro hsep
  have hpow : 256 ^ (min g.size 8 - 1) ≤ 256 ^ 7 :=
    Nat.pow_le_pow_right (by decide) (by omega)
  have ha : (UInt64.ofNat 0).toNat = 0 * 256 ^ (min g.size 8 - 1) := by
    rw [Nat.zero_mul]
    rfl
  have hb : (UInt64.ofNat (256 ^ (min g.size 8 - 1))).toNat
      = 1 * 256 ^ (min g.size 8 - 1) := by
    rw [UInt64.toNat_ofNat', Nat.one_mul, Nat.mod_eq_of_lt (by omega)]
  refine hsep 0 0 0 [] [] _ _ (by decide) (by rw [hb]; omega)
    (keyBytes_ne_of_top hs ha hb (by decide)) (hdec _ _ ?_)
  rw [take_toList_keyBuf_top hs h _ _ _ ha, take_toList_keyBuf_top hs h _ _ _ hb]

/-- **The plain word separates exactly the keys of at most eight bytes.** -/
theorem wordAt_separates_iff (g : KeyGenerator) (hs : 0 < g.size) :
    Separates wordAt g ↔ g.totalSize ≤ 8 := by
  constructor
  · intro hsep
    by_contra h
    exact not_separates_of_long (fun buf buf' => (wordAt_eq_iff buf buf').mpr) hs
      (Nat.lt_of_not_le h) hsep
  · intro h c t t' calls calls' a b _ _ hne heq
    rw [wordAt_eq_iff, take_toList_keyBuf h, take_toList_keyBuf h,
      List.append_cancel_right_eq] at heq
    rw [keyBytes_keyBuf, keyBytes_keyBuf] at hne
    exact hne heq

/-- An eight-byte key with a prefix has a bit of its id part in the place the
mask clears. -/
theorem not_separates_pbkeyToLB_of_eq {g : KeyGenerator} (hs : 0 < g.size)
    (h : g.totalSize = 8) (hp : g.keyPrefix ≠ []) : ¬ Separates pbkeyToLB g := by
  intro hsep
  have hplen : 0 < g.keyPrefix.length := List.length_pos_iff.mpr hp
  have h8 : g.keyPrefix.length + g.size = 8 := h
  have hpow : 256 ^ (min g.size 8 - 1) ≤ 256 ^ 6 :=
    Nat.pow_le_pow_right (by decide) (by omega)
  have ha : (UInt64.ofNat 0).toNat = 0 * 256 ^ (min g.size 8 - 1) := by
    rw [Nat.zero_mul]
    rfl
  have hb : (UInt64.ofNat (128 * 256 ^ (min g.size 8 - 1))).toNat
      = 128 * 256 ^ (min g.size 8 - 1) := by
    rw [UInt64.toNat_ofNat', Nat.mod_eq_of_lt (by omega)]
  refine hsep 0 0 0 [] [] _ _ (by decide) (by rw [hb]; omega)
    (keyBytes_ne_of_top hs ha hb (by decide)) (UInt64.toNat_inj.mp ?_)
  -- the two words differ by the weight of the top bit, which is `2 ^ 63`
  have hword : ∀ (id : UInt64) (m : ℕ), id.toNat = m * 256 ^ (min g.size 8 - 1) →
      leNat ((keyBuf g 0 0 [] id).toList.take 8)
        = leNat (prefixPart g 0 0 ++ List.replicate (g.size - 1) 0)
          + 256 ^ 7 * (UInt8.ofNat (hashMultiplier * m)).toNat := by
    intro id m hid
    rw [take_toList_keyBuf h.le, enc_little_top hs hid, h, Nat.sub_self,
      List.replicate_zero, List.append_nil, ← List.append_assoc, leNat_append, leNat, leNat,
      List.length_append, length_prefixPart, List.length_replicate,
      show g.keyPrefix.length + (g.size - 1) = 7 by omega]
    rfl
  rw [toNat_pbkeyToLB, toNat_pbkeyToLB, hword _ 0 ha, hword _ 128 hb]
  have h₀ : (UInt8.ofNat (hashMultiplier * 0)).toNat = 0 := by decide
  have h₁ : (UInt8.ofNat (hashMultiplier * 128)).toNat = 128 := by decide
  rw [h₀, h₁]
  omega

/-- **The masked word separates exactly the keys shorter than eight bytes and
the eight-byte keys without a prefix.** -/
theorem pbkeyToLB_separates_iff (g : KeyGenerator) (hs : 0 < g.size) :
    Separates pbkeyToLB g ↔ g.totalSize < 8 ∨ (g.keyPrefix = [] ∧ g.size = 8) := by
  constructor
  · intro hsep
    rcases Nat.lt_trichotomy g.totalSize 8 with hlt | heq | hgt
    · exact Or.inl hlt
    · by_cases hp : g.keyPrefix = []
      · refine Or.inr ⟨hp, ?_⟩
        rw [totalSize, hp, List.length_nil, Nat.zero_add] at heq
        exact heq
      · exact absurd hsep (not_separates_pbkeyToLB_of_eq hs heq hp)
    · refine absurd hsep (not_separates_of_long (fun buf buf' hbuf => ?_) hs hgt)
      rw [← UInt64.toNat_inj, toNat_pbkeyToLB, toNat_pbkeyToLB, hbuf]
  · rintro (hlt | ⟨hp, h8⟩)
    · intro c t t' calls calls' a b ha hb hne heq
      refine (wordAt_separates_iff g hs).mpr hlt.le c t t' calls calls' a b ha hb hne ?_
      -- a key of at most seven bytes leaves the top byte zero
      have hsmall : ∀ (t : ℕ) (calls : List (ℕ × Call)) (id : UInt64),
          leNat ((keyBuf g c t calls id).toList.take 8) < 2 ^ 63 := by
        intro t calls id
        have hlen : (prefixPart g c t ++ enc .little g.size id).length = g.totalSize := by
          rw [List.length_append, length_prefixPart, length_enc, totalSize]
        have hb := leNat_lt (prefixPart g c t ++ enc .little g.size id)
        have hpow : 256 ^ g.totalSize ≤ 256 ^ 7 :=
          Nat.pow_le_pow_right (by decide) (by omega)
        rw [hlen] at hb
        rw [take_toList_keyBuf hlt.le, leNat_append, leNat_replicate_zero, Nat.mul_zero]
        omega
      rw [← UInt64.toNat_inj, toNat_pbkeyToLB, toNat_pbkeyToLB,
        Nat.mod_eq_of_lt (hsmall t calls a), Nat.mod_eq_of_lt (hsmall t' calls' b)] at heq
      rw [← UInt64.toNat_inj, toNat_wordAt, toNat_wordAt, heq]
    · intro c t t' calls calls' a b ha hb hne heq
      have hpart : ∀ t : ℕ, prefixPart g c t = [] := by
        intro t
        refine List.eq_nil_of_length_eq_zero ?_
        rw [length_prefixPart, hp, List.length_nil]
      have htot : g.totalSize = 8 := by
        rw [totalSize, hp, h8]
        rfl
      have hword : ∀ (t : ℕ) (calls : List (ℕ × Call)) (id : UInt64),
          leNat ((keyBuf g c t calls id).toList.take 8) % 2 ^ 63
            = hashMultiplier * id.toNat % 2 ^ 63 := by
        intro t calls id
        rw [take_toList_keyBuf htot.le, hpart, htot, enc_little, h8, Nat.sub_self,
          List.replicate_zero, List.nil_append, List.nil_append,
          List.append_nil, Nat.min_self, leNat_leBytes,
          Nat.mod_mod_of_dvd _ (by decide)]
      rw [← UInt64.toNat_inj, toNat_pbkeyToLB, toNat_pbkeyToLB, hword, hword] at heq
      have hab : a.toNat % 2 ^ 63 = b.toNat % 2 ^ 63 :=
        (hashMultiplier_mul_modEq_iff 63 _ _).mp heq
      rw [Nat.mod_eq_of_lt ha, Nat.mod_eq_of_lt hb, UInt64.toNat_inj] at hab
      rw [keyBytes_keyBuf, keyBytes_keyBuf, hpart, hpart, hab] at hne
      exact hne rfl

/-- **Encoder and decoders together.** All three keep distinct keys apart
exactly for keys shorter than eight bytes and for eight-byte keys without a
prefix; the two that do not mask, exactly for keys of at most eight bytes. -/
theorem indexKeys_separate_iff (g : KeyGenerator) (hs : 0 < g.size) :
    ((Separates listdbKey g ∧ Separates pactreeKey g ∧ Separates pbkeyToLB g)
        ↔ g.totalSize < 8 ∨ (g.keyPrefix = [] ∧ g.size = 8))
      ∧ (Separates listdbKey g ↔ g.totalSize ≤ 8)
      ∧ (Separates pactreeKey g ↔ g.totalSize ≤ 8) := by
  have hword : Separates wordAt g ↔ g.totalSize ≤ 8 := wordAt_separates_iff g hs
  have hlb := pbkeyToLB_separates_iff g hs
  refine ⟨⟨fun h => hlb.mp h.2.2, fun h => ?_⟩, hword, hword⟩
  have htot : g.totalSize ≤ 8 := by
    rcases h with hlt | ⟨hp, h8⟩
    · exact hlt.le
    · rw [totalSize, hp, h8]
      exact le_rfl
  exact ⟨hword.mpr htot, hword.mpr htot, hlb.mpr h⟩

/-- The default keys are kept apart by all three decoders. -/
theorem indexKeys_separate_default :
    0 < defaultGenerator.size
      ∧ Separates listdbKey defaultGenerator ∧ Separates pactreeKey defaultGenerator
      ∧ Separates pbkeyToLB defaultGenerator :=
  ⟨by decide, (indexKeys_separate_iff defaultGenerator (by decide)).1.mpr
    (Or.inr ⟨rfl, rfl⟩)⟩

/-- The generator of sixteen-byte keys. -/
def wideGenerator : KeyGenerator where
  size := 16
  keyPrefix := []
  fits := by decide

/-- The ids one and two have different sixteen-byte keys, and every decoder
sees the eight zeroes that are put in front of both. -/
theorem wideGenerator_keys_collide :
    keyBytes .little wideGenerator (after .little wideGenerator (0 : ℕ) [] 0) 1
        ≠ keyBytes .little wideGenerator (after .little wideGenerator 0 [] 0) 2
      ∧ listdbKey (keyBuf wideGenerator (0 : ℕ) 0 [] 1)
        = listdbKey (keyBuf wideGenerator (0 : ℕ) 0 [] 2)
      ∧ pactreeKey (keyBuf wideGenerator (0 : ℕ) 0 [] 1)
        = pactreeKey (keyBuf wideGenerator (0 : ℕ) 0 [] 2)
      ∧ pbkeyToLB (keyBuf wideGenerator (0 : ℕ) 0 [] 1)
        = pbkeyToLB (keyBuf wideGenerator (0 : ℕ) 0 [] 2) := by
  have hbuf : (keyBuf wideGenerator (0 : ℕ) 0 [] 1).toList.take 8
      = (keyBuf wideGenerator (0 : ℕ) 0 [] 2).toList.take 8 := by
    rw [toList_keyBuf, toList_keyBuf, enc_little, enc_little]
    rfl
  have hword := (wordAt_eq_iff _ _).mpr hbuf
  refine ⟨?_, hword, hword, congrArg (· &&& 0x7fffffffffffffff) hword⟩
  rw [keyBytes_keyBuf, keyBytes_keyBuf, enc_little, enc_little]
  decide

end KeyGenerator
