import PKBench.ByteBuffer
import PKBench.Options
import Mathlib.Data.UInt

/-!
# The key generator

Every key of a run is built by `key_generator_t::hash_id` in a buffer of the
calling thread: the id is scrambled by a multiplicative hash, cut or padded to
the key size and copied behind the place of the prefix. Both the buffer and the
running id of the sequential keys are `thread_local`. Each thread starts with
its own zeroed copy, and the constructor – the one place that writes the prefix
– runs in one thread.

`hashId` follows the source write by write, for either byte order of the
machine. `enc` is what those writes amount to behind the prefix
(`take_toList_hashId`), and `Process` is the state of all threads' copies, on
which a history of calls is run. The bytes outside the id part never change
again after construction (`prefixPart_runCalls`, `restPart_runCalls`), so what
a key looks like is settled by which thread asks for it
(`hashId_layout_iff`).
-/

open ByteBuffer

/-- Byte order of the machine. -/
inductive Endianness where
  | little
  | big
  deriving DecidableEq, Repr

/-- The eight bytes of a 64-bit word in memory. -/
def Endianness.bytesOf : Endianness → UInt64 → List UInt8
  | .little, x => leBytes 8 x.toNat
  | .big, x => (leBytes 8 x.toNat).reverse

@[simp] theorem Endianness.length_bytesOf (e : Endianness) (x : UInt64) :
    (e.bytesOf x).length = 8 := by
  cases e with
  | little => exact length_leBytes _ _
  | big => rw [bytesOf, List.length_reverse, length_leBytes]

/-- `utils::multiplicative_hash` on 64-bit integers. -/
def multiplicativeHash (x : UInt64) : UInt64 := 11400714819323198393 * x

/-- **A key generator**: key size and prefix, which `main` has checked to fit
into the buffer together. -/
structure KeyGenerator where
  /-- Size of the id part in bytes. -/
  size : ℕ
  /-- Bytes in front of every key. -/
  keyPrefix : List UInt8
  fits : keyPrefix.length + size ≤ keyMax

/-- The `thread_local` state of the generator in one thread. -/
structure ThreadLocals where
  buf : Vector UInt8 keyMax := Vector.replicate keyMax 0
  currentId : UInt64 := 0

namespace KeyGenerator

/-- The generator of the default options: eight-byte keys and no prefix. -/
def defaultGenerator : KeyGenerator where
  size := 8
  keyPrefix := []
  fits := by decide

/-- Total key size, prefix included. -/
def totalSize (g : KeyGenerator) : ℕ := g.keyPrefix.length + g.size

/-- The hashed id with the bits a short key has no room for discarded. -/
def discardBits (e : Endianness) (size : ℕ) (hashed : UInt64) : UInt64 :=
  let bitsToShift : UInt64 := UInt64.ofNat ((8 - size) <<< 3)
  match e with
  | .big => (hashed >>> bitsToShift) <<< bitsToShift
  | .little => (hashed <<< bitsToShift) >>> bitsToShift

/-- **`key_generator_t::hash_id`**: the buffer after the key of `id` has been
built in it. -/
def hashId (e : Endianness) (g : KeyGenerator) (buf : Vector UInt8 keyMax)
    (id : UInt64) : Vector UInt8 keyMax :=
  let ptr := g.keyPrefix.length
  let hashed := multiplicativeHash id
  if g.size < 8 then
    write buf ptr ((e.bytesOf (discardBits e g.size hashed)).take g.size)
  else
    let bytesToPrepend := g.size - 8
    if bytesToPrepend > 0 then
      write (write buf ptr (List.replicate bytesToPrepend 0)) (ptr + bytesToPrepend)
        (e.bytesOf hashed)
    else
      write buf ptr (e.bytesOf hashed)

/-- The bytes a key shows: the first `totalSize` of the buffer. -/
def keyBytes (e : Endianness) (g : KeyGenerator) (tls : ThreadLocals)
    (id : UInt64) : List UInt8 :=
  (hashId e g tls.buf id).toList.take g.totalSize

/-- **The id part of a key**, as a function of the id and the key size. -/
def enc (e : Endianness) (size : ℕ) (id : UInt64) : List UInt8 :=
  if size < 8 then
    (e.bytesOf (discardBits e size (multiplicativeHash id))).take size
  else
    List.replicate (size - 8) 0 ++ e.bytesOf (multiplicativeHash id)

@[simp] theorem length_enc (e : Endianness) (size : ℕ) (id : UInt64) :
    (enc e size id).length = size := by
  unfold enc
  by_cases h : size < 8
  · rw [if_pos h, List.length_take, Endianness.length_bytesOf]
    omega
  · rw [if_neg h, List.length_append, List.length_replicate, Endianness.length_bytesOf]
    omega

/-- **The writes of `hash_id` are one write of the id part**, whichever of its
branches makes them. -/
theorem hashId_eq_write (e : Endianness) (g : KeyGenerator)
    (buf : Vector UInt8 keyMax) (id : UInt64) :
    hashId e g buf id = write buf g.keyPrefix.length (enc e g.size id) := by
  have hfits := g.fits
  unfold hashId enc
  by_cases hs : g.size < 8
  · rw [if_pos hs, if_pos hs]
  · rw [if_neg hs, if_neg hs]
    by_cases hp : g.size - 8 > 0
    · rw [if_pos hp]
      refine Vector.toList_inj.mp ?_
      have hlen : (List.replicate (g.size - 8) (0 : UInt8)).length = g.size - 8 :=
        List.length_replicate
      have h₁ : g.keyPrefix.length + (List.replicate (g.size - 8) (0 : UInt8)).length
          ≤ keyMax := by rw [hlen]; omega
      have h₂ : g.keyPrefix.length + (g.size - 8)
          + (e.bytesOf (multiplicativeHash id)).length ≤ keyMax := by
        rw [Endianness.length_bytesOf]; omega
      have hend := take_toList_write_end buf h₁
      rw [hlen] at hend
      rw [toList_write _ h₂, hend, drop_toList_write _ h₁ (by rw [hlen]; omega),
        toList_write _ (by
          rw [List.length_append, hlen, Endianness.length_bytesOf]; omega),
        List.length_append, hlen, List.append_assoc, List.append_assoc,
        List.append_assoc, List.append_assoc, Nat.add_assoc]
    · rw [if_neg hp, show g.size - 8 = 0 by omega, List.replicate_zero, List.nil_append]

theorem enc_fits (e : Endianness) (g : KeyGenerator) (id : UInt64) :
    g.keyPrefix.length + (enc e g.size id).length ≤ keyMax := by
  rw [length_enc]
  exact g.fits

/-- **A key is what stands in the place of the prefix, and the id part.** -/
theorem keyBytes_eq (e : Endianness) (g : KeyGenerator) (tls : ThreadLocals)
    (id : UInt64) :
    keyBytes e g tls id
      = tls.buf.toList.take g.keyPrefix.length ++ enc e g.size id := by
  have h := take_toList_write_end tls.buf (enc_fits e g id)
  rw [length_enc] at h
  rw [keyBytes, hashId_eq_write, totalSize, h]

/-! ## The threads of a process

Each thread has its own copy of the buffer and of the running id. A history is
a sequence of calls, each made by some thread. -/

variable {Thread : Type} [DecidableEq Thread]

/-- The `thread_local` state of every thread. -/
abbrev Process (Thread : Type) := Thread → ThreadLocals

/-- The constructor, run by thread `c`: it clears that thread's buffer and
copies the prefix into it. -/
def construct (g : KeyGenerator) (c : Thread) (p : Process Thread) : Process Thread :=
  Function.update p c
    { p c with buf := write (Vector.replicate keyMax 0) 0 g.keyPrefix }

/-- The calls a thread makes on the generator. Of a random key the drawn id is
given; the assignment is the one `load` and `run` make to `current_id_`. -/
inductive Call where
  | hashId (id : UInt64)
  | next (inSequence : Bool) (nextId : UInt64)
  | setCurrentId (id : UInt64)

/-- `key_generator_t::next`: the id it picks and the state it leaves. -/
def next (e : Endianness) (g : KeyGenerator) (tls : ThreadLocals)
    (inSequence : Bool) (nextId : UInt64) : UInt64 × ThreadLocals :=
  if inSequence then
    (tls.currentId + 1,
      { buf := hashId e g tls.buf (tls.currentId + 1), currentId := tls.currentId + 1 })
  else
    (nextId, { tls with buf := hashId e g tls.buf nextId })

/-- One call on the state of the calling thread. -/
def runCall (e : Endianness) (g : KeyGenerator) (tls : ThreadLocals) :
    Call → ThreadLocals
  | .hashId id => { tls with buf := hashId e g tls.buf id }
  | .next inSequence nextId => (next e g tls inSequence nextId).2
  | .setCurrentId id => { tls with currentId := id }

/-- A history of calls on any threads. -/
def runCalls (e : Endianness) (g : KeyGenerator) :
    List (Thread × Call) → Process Thread → Process Thread
  | [], p => p
  | (t, call) :: calls, p =>
      runCalls e g calls (Function.update p t (runCall e g (p t) call))

/-- The state of a process whose generator was constructed by thread `c` and
then used in the history `calls`. -/
def after (e : Endianness) (g : KeyGenerator) (c : Thread)
    (calls : List (Thread × Call)) : Process Thread :=
  runCalls e g calls (construct g c (fun _ => {}))

/-- **Every call leaves the buffer alone or writes one id part into it.** -/
theorem buf_runCall (e : Endianness) (g : KeyGenerator) (tls : ThreadLocals)
    (call : Call) :
    (runCall e g tls call).buf = tls.buf
      ∨ ∃ id, (runCall e g tls call).buf
          = write tls.buf g.keyPrefix.length (enc e g.size id) := by
  cases call with
  | hashId id => exact Or.inr ⟨id, hashId_eq_write e g tls.buf id⟩
  | next inSequence nextId =>
    cases inSequence with
    | true => exact Or.inr ⟨tls.currentId + 1, hashId_eq_write e g tls.buf _⟩
    | false => exact Or.inr ⟨nextId, hashId_eq_write e g tls.buf _⟩
  | setCurrentId id => exact Or.inl rfl

/-- **What no write of an id part touches, no history touches.** -/
theorem runCalls_invariant {α : Type} (e : Endianness) (g : KeyGenerator)
    (view : Vector UInt8 keyMax → α)
    (hview : ∀ buf id, view (write buf g.keyPrefix.length (enc e g.size id)) = view buf)
    (calls : List (Thread × Call)) (p : Process Thread) (t : Thread) :
    view (runCalls e g calls p t).buf = view (p t).buf := by
  induction calls generalizing p with
  | nil => rfl
  | cons tc calls ih =>
    obtain ⟨t', call⟩ := tc
    rw [runCalls, ih]
    by_cases h : t = t'
    · subst h
      rw [Function.update_self]
      rcases buf_runCall e g (p t) call with hb | ⟨id, hb⟩
      · rw [hb]
      · rw [hb, hview]
    · rw [Function.update_of_ne h]

/-- The place of the prefix keeps what it held. -/
theorem prefixPart_runCalls (e : Endianness) (g : KeyGenerator)
    (calls : List (Thread × Call)) (p : Process Thread) (t : Thread) :
    (runCalls e g calls p t).buf.toList.take g.keyPrefix.length
      = (p t).buf.toList.take g.keyPrefix.length :=
  runCalls_invariant e g (fun buf => buf.toList.take g.keyPrefix.length)
    (fun buf id => take_toList_write buf (enc_fits e g id) le_rfl) calls p t

/-- What lies behind the key keeps what it held. -/
theorem restPart_runCalls (e : Endianness) (g : KeyGenerator)
    (calls : List (Thread × Call)) (p : Process Thread) (t : Thread) :
    (runCalls e g calls p t).buf.toList.drop g.totalSize
      = (p t).buf.toList.drop g.totalSize :=
  runCalls_invariant e g (fun buf => buf.toList.drop g.totalSize)
    (fun buf id => drop_toList_write buf (enc_fits e g id)
      (by rw [length_enc]; exact le_rfl)) calls p t

/-- **What stands before the id part**: the prefix in the thread that
constructed the generator, zeroes in every other. -/
theorem prefixPart_after (e : Endianness) (g : KeyGenerator) (c t : Thread)
    (calls : List (Thread × Call)) :
    (after e g c calls t).buf.toList.take g.keyPrefix.length
      = if t = c then g.keyPrefix else List.replicate g.keyPrefix.length 0 := by
  have hfits := g.fits
  rw [after, prefixPart_runCalls, construct]
  by_cases h : t = c
  · subst h
    rw [if_pos rfl, Function.update_self]
    have hfits₀ : 0 + g.keyPrefix.length ≤ keyMax := by omega
    have hw := take_toList_write_end (Vector.replicate keyMax 0) hfits₀
    rw [Nat.zero_add] at hw
    rw [hw, List.take_zero, List.nil_append]
  · rw [if_neg h, Function.update_of_ne h]
    show (Vector.replicate keyMax (0 : UInt8)).toList.take _ = _
    rw [Vector.toList_replicate, List.take_replicate, Nat.min_eq_left (by omega)]

/-- Behind the key the buffer of every thread is zero. -/
theorem restPart_after (e : Endianness) (g : KeyGenerator) (c t : Thread)
    (calls : List (Thread × Call)) :
    (after e g c calls t).buf.toList.drop g.totalSize
      = List.replicate (keyMax - g.totalSize) 0 := by
  have hfits := g.fits
  rw [after, restPart_runCalls, construct]
  by_cases h : t = c
  · subst h
    rw [Function.update_self]
    show (write (Vector.replicate keyMax 0) 0 g.keyPrefix).toList.drop _ = _
    rw [drop_toList_write _ (by omega) (by rw [totalSize]; omega), Vector.toList_replicate,
      List.drop_replicate]
  · rw [Function.update_of_ne h]
    show (Vector.replicate keyMax (0 : UInt8)).toList.drop _ = _
    rw [Vector.toList_replicate, List.drop_replicate]

/-- **The key a thread builds, after any history.** -/
theorem keyBytes_after (e : Endianness) (g : KeyGenerator) (c t : Thread)
    (calls : List (Thread × Call)) (id : UInt64) :
    keyBytes e g (after e g c calls t) id
      = (if t = c then g.keyPrefix else List.replicate g.keyPrefix.length 0)
        ++ enc e g.size id := by
  rw [keyBytes_eq, prefixPart_after]

/-- Zeroes stand where the prefix should exactly when it is all zeroes. -/
theorem replicate_eq_keyPrefix_iff (g : KeyGenerator) :
    List.replicate g.keyPrefix.length 0 = g.keyPrefix ↔ ∀ b ∈ g.keyPrefix, b = 0 := by
  rw [eq_comm, List.eq_replicate_iff]
  exact and_iff_right rfl

/-- **The documented layout, thread by thread.** After any history a key is the
prefix followed by the id part exactly in the thread that constructed the
generator – or in any thread, if the prefix is made of zero bytes. Two threads
give one id the same key exactly when both or neither constructed the
generator, with the same exception. -/
theorem hashId_layout_iff (e : Endianness) (g : KeyGenerator) (c t t' : Thread)
    (calls calls' : List (Thread × Call)) (id : UInt64) :
    (keyBytes e g (after e g c calls t) id = g.keyPrefix ++ enc e g.size id
        ↔ t = c ∨ ∀ b ∈ g.keyPrefix, b = 0)
      ∧ (keyBytes e g (after e g c calls t) id = keyBytes e g (after e g c calls' t') id
        ↔ (t = c ↔ t' = c) ∨ ∀ b ∈ g.keyPrefix, b = 0) := by
  rw [keyBytes_after, keyBytes_after, List.append_cancel_right_eq,
    List.append_cancel_right_eq, ← replicate_eq_keyPrefix_iff]
  constructor
  · by_cases h : t = c
    · rw [if_pos h]
      exact iff_of_true rfl (Or.inl h)
    · rw [if_neg h, or_iff_right h]
  · by_cases h : t = c
    · by_cases h' : t' = c
      · rw [if_pos h, if_pos h']
        exact iff_of_true rfl (Or.inl (iff_of_true h h'))
      · rw [if_pos h, if_neg h', or_iff_right (fun hiff => h' (hiff.mp h)), eq_comm]
    · by_cases h' : t' = c
      · rw [if_neg h, if_pos h', or_iff_right (fun hiff => h (hiff.mpr h'))]
      · rw [if_neg h, if_neg h']
        exact iff_of_true rfl (Or.inl (iff_of_false h h'))

/-- The generator of eight-byte keys behind the one-letter prefix `a`. -/
def letterGenerator : KeyGenerator where
  size := 8
  keyPrefix := [97]
  fits := by decide

/-- With that generator no id part makes the layout hold in every thread: a
thread that did not construct it puts a zero byte where the letter belongs. -/
theorem letterGenerator_layout_fails :
    ¬ ∃ idPart : UInt64 → List UInt8, ∀ (t : ℕ) (calls : List (ℕ × Call)) (id : UInt64),
      keyBytes .little letterGenerator (after .little letterGenerator 0 calls t) id
        = letterGenerator.keyPrefix ++ idPart id := by
  rintro ⟨idPart, h⟩
  have h₁ := h 1 [] 0
  rw [keyBytes_after, if_neg (by decide)] at h₁
  exact absurd (List.cons.inj h₁).1 (by decide)

end KeyGenerator
