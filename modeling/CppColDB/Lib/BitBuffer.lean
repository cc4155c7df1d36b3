import Mathlib.Data.Nat.Bitwise
import CppColDB.Lib.Bytes

/-!
# Bits of a byte buffer

A byte buffer read as a sequence of bits, least significant bit of the first byte
first. Writers only ever `or` bytes into a zeroed buffer, so each write is specified by
the bits it adds (`bitAt_orAt`), and a bitmap by the booleans it holds (`bits_bitmap`).
-/

namespace BitBuffer

open ByteCodec List Nat

/-- Bit `i` of the buffer; bits past its end are clear. -/
def bitAt (buf : Bytes) (i : ℕ) : Bool :=
  (buf[i / 8]?.getD 0).toNat.testBit (i % 8)

/-- `buf[k] |= b`. -/
def orAt (buf : Bytes) (k : ℕ) (b : UInt8) : Bytes :=
  buf.modify k fun x => x ||| b

@[simp] theorem length_orAt (buf : Bytes) (k : ℕ) (b : UInt8) :
    (orAt buf k b).length = buf.length := by
  simp [orAt]

variable {buf : Bytes}

theorem bitAt_orAt {k : ℕ} (hk : k < buf.length) (b : UInt8) (i : ℕ) : bitAt (orAt buf k b) i =
      (bitAt buf i || (decide (i / 8 = k) && b.toNat.testBit (i % 8))) := by
  unfold bitAt orAt
  by_cases hi : i / 8 = k
  · subst hi
    simp [getElem?_eq_getElem hk]
  · simp [hi, Ne.symm hi]

@[simp] theorem bitAt_replicate_zero (n i : ℕ) : bitAt (replicate n 0) i = false := by
  unfold bitAt
  rw [getElem?_replicate]
  split <;> simp

variable {i : ℕ}

theorem bitAt_append_left (h : i < 8 * buf.length) (rest : Bytes) :
    bitAt (buf ++ rest) i = bitAt buf i := by
  unfold bitAt
  rw [getElem?_append_left (by omega)]

theorem bitAt_append_right (h : 8 * buf.length ≤ i) (rest : Bytes) :
    bitAt (buf ++ rest) i = bitAt rest (i - 8 * buf.length) := by
  have hdiv : i / 8 - buf.length = (i - 8 * buf.length) / 8 := by omega
  have hmod : i % 8 = (i - 8 * buf.length) % 8 := by omega
  unfold bitAt
  rw [getElem?_append_right (by omega), hdiv, hmod]

theorem bitAt_take {n : ℕ} (h : i < 8 * n) :
    bitAt (buf.take n) i = bitAt buf i := by
  unfold bitAt
  rw [getElem?_take_of_lt (by omega)]

private theorem byte_ext {a b : UInt8} (h : ∀ k < 8, a.toNat.testBit k = b.toNat.testBit k) :
    a = b := by
  apply UInt8.toNat_inj.mp
  apply eq_of_testBit_eq
  intro k
  by_cases hk : k < 8
  · exact h k hk
  · have hle : 2 ^ 8 ≤ 2 ^ k := Nat.pow_le_pow_right (by decide) (by omega)
    rw [testBit_lt_two_pow (lt_of_lt_of_le a.toNat_lt hle),
      testBit_lt_two_pow (lt_of_lt_of_le b.toNat_lt hle)]

/-- Two buffers of one length that agree on every bit are equal. -/
theorem ext_bits {a b : Bytes} (hlen : a.length = b.length)
    (h : ∀ i < 8 * a.length, bitAt a i = bitAt b i) : a = b := by
  apply ext_getElem hlen
  intro n ha hb
  apply byte_ext
  intro k hk
  have hbit := h (8 * n + k) (by omega)
  have hdiv : (8 * n + k) / 8 = n := by omega
  have hmod : (8 * n + k) % 8 = k := by omega
  simpa [bitAt, hdiv, hmod, ha, hb] using hbit

/-! ## Bitmaps -/

/-- The number of bytes of an `n`-bit map. -/
def bitmapBytes (n : ℕ) : ℕ := (n + 7) / 8

/-- Set the bits at positions `i, i + 1, ...` whose boolean is true. -/
def setFrom (buf : Bytes) : ℕ → List Bool → Bytes
  | _, [] => buf
  | i, b :: bs =>
    setFrom (if b then orAt buf (i / 8) (UInt8.ofNat (1 <<< (i % 8))) else buf) (i + 1) bs

/-- The bitmap of a list of booleans, padded with clear bits to whole bytes. -/
def bitmap (bs : List Bool) : Bytes :=
  setFrom (replicate (bitmapBytes bs.length) 0) 0 bs

/-- The first `n` bits of a buffer. -/
def bits (buf : Bytes) (n : ℕ) : List Bool := (range n).map (bitAt buf)

@[simp] theorem length_setFrom (buf : Bytes) (i : ℕ) (bs : List Bool) :
    (setFrom buf i bs).length = buf.length := by
  induction bs generalizing buf i with
  | nil => rfl
  | cons b bs ih => cases b <;> simp [setFrom, ih]

@[simp] theorem length_bitmap (bs : List Bool) : (bitmap bs).length = bitmapBytes bs.length := by
  simp [bitmap]

@[simp] theorem length_bits (buf : Bytes) (n : ℕ) : (bits buf n).length = n := by
  simp [bits]

private theorem testBit_oneHot {j : ℕ} :
    (UInt8.ofNat (1 <<< (i % 8))).toNat.testBit (j % 8) = decide (i % 8 = j % 8) := by
  have h : (UInt8.ofNat (1 <<< (i % 8))).toNat = 1 <<< (i % 8) % 256 := rfl
  rw [h, one_shiftLeft, show 256 = 2 ^ 8 from rfl, testBit_mod_two_pow, testBit_two_pow]
  simp [mod_lt]

theorem bitAt_setFrom {bs : List Bool} (h : i + bs.length ≤ 8 * buf.length) (j : ℕ) :
    bitAt (setFrom buf i bs) j =
      (bitAt buf j || (decide (i ≤ j) && bs[j - i]?.getD false)) := by
  induction bs generalizing buf i with
  | nil => simp [setFrom]
  | cons b bs ih =>
    simp only [length_cons] at h
    rw [setFrom, ih (by cases b <;> simp <;> omega)]
    -- position `j` is before, at, or after the bit this step sets
    have hset : bitAt (if b then orAt buf (i / 8) (UInt8.ofNat (1 <<< (i % 8))) else buf) j =
        (bitAt buf j || (decide (j = i) && b)) := by
      cases b with
      | false => simp
      | true =>
        rw [if_pos rfl, bitAt_orAt (by omega), testBit_oneHot]
        have : (j / 8 = i / 8 ∧ i % 8 = j % 8) ↔ j = i := by omega
        simp [← this]
    rw [hset]
    rcases lt_trichotomy i j with hij | hij | hij
    · have hs : j - i = (j - (i + 1)) + 1 := by omega
      simp [hij.le, hij.ne', succ_le_of_lt hij, hs]
    · simp [hij]
    · have h1 : ¬ i + 1 ≤ j := by omega
      simp [h1, hij.ne, Nat.not_le_of_lt hij]

/-- A bitmap holds the booleans it was built from, whatever follows it. -/
theorem bits_bitmap (bs : List Bool) (rest : Bytes) :
    bits (bitmap bs ++ rest) bs.length = bs := by
  have hlen : bs.length ≤ 8 * bitmapBytes bs.length := by unfold bitmapBytes; omega
  refine ext_getElem (by simp) fun j _ hj => ?_
  simp only [bits, getElem_map, getElem_range]
  rw [bitAt_append_left (by rw [length_bitmap]; omega), bitmap, bitAt_setFrom (by simpa using hlen)]
  simp [hj]

end BitBuffer
