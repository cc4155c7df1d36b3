import CppColDB.Lib.BitBuffer
import CppColDB.Common.Types

/-!
# Bit packing

`BitPackEncode` and `BitPackDecode`: the minimum as a 64-bit word, then the distance of
each value to the minimum in `bitWidth` bits, least significant bit first. Every value
comes back as the minimum plus its distance modulo `2 ^ bitWidth`
(`bitPackDecode_bitPackEncode`).
-/

namespace CppColDB

open BitBuffer ByteCodec Int64 List Nat Option

/-- The loop of `WriteNBits`, one byte of the buffer per iteration. -/
def writeNBitsLoop (width value : ℕ) : ℕ → Bytes → ℕ → ℕ → Bytes × ℕ
  | 0, buf, bitPos, _ => (buf, bitPos)
  | fuel + 1, buf, bitPos, remaining =>
    if remaining = 0 then (buf, bitPos)
    else
      let bitInByte := bitPos % 8
      let bitsToWrite := min remaining (8 - bitInByte)
      let mask := 2 ^ bitsToWrite - 1
      let chunk := (value >>> (width - remaining)) &&& mask
      writeNBitsLoop width value fuel
        (orAt buf (bitPos / 8) (UInt8.ofNat (chunk <<< bitInByte)))
        (bitPos + bitsToWrite) (remaining - bitsToWrite)

/-- Write the low `width` bits of `value` at bit position `bitPos`; returns the buffer and
the position after them. -/
def writeNBits (buf : Bytes) (bitPos width value : ℕ) : Bytes × ℕ :=
  writeNBitsLoop width value width buf bitPos width

/-- The loop of `ReadNBits`; a byte outside the buffer is undefined. -/
def readNBitsLoop (buf : Bytes) (width : ℕ) : ℕ → ℕ → ℕ → ℕ → Option (ℕ × ℕ)
  | 0, bitPos, _, result => some (result, bitPos)
  | fuel + 1, bitPos, bitsRead, result =>
    if bitsRead < width then do
      let bitInByte := bitPos % 8
      let toRead := min (width - bitsRead) (8 - bitInByte)
      let mask := 2 ^ toRead - 1
      let byte ← buf[bitPos / 8]?
      let chunk := (byte.toNat >>> bitInByte) &&& mask
      readNBitsLoop buf width fuel (bitPos + toRead) (bitsRead + toRead)
        (result ||| (chunk <<< bitsRead))
    else some (result, bitPos)

def readNBits (buf : Bytes) (bitPos width : ℕ) : Option (ℕ × ℕ) :=
  readNBitsLoop buf width width bitPos 0 0

/-- Pack the distances one after the other. -/
def packDeltas (bitWidth : ℕ) : List ℕ → Bytes × ℕ → Bytes × ℕ
  | [], s => s
  | delta :: deltas, (buf, bitPos) =>
    packDeltas bitWidth deltas (writeNBits buf bitPos bitWidth delta)

/-- The running minimum of the encoder. -/
def minVal (first : Int64) (values : List Int64) : Int64 :=
  values.foldl (fun m v => if v < m then v else m) first

/-- The encoded bytes: the minimum, then the packed distances. The zeroed bit area has one
spare byte, which is not part of the result. -/
def packBytes (bitWidth : ℕ) (low : Int64) (deltas : List ℕ) : Bytes :=
  let area := i64Bytes low ++ replicate ((bitWidth * deltas.length + 7) / 8 + 1) 0
  let (buf, bitPos) := packDeltas bitWidth deltas (area, 64)
  buf.take ((bitPos + 7) / 8)

/-- An empty input is read at index 0, which is undefined, as is a distance that does not
fit a signed word. -/
def bitPackEncode (bitWidth : ℕ) : List Int64 → Option Bytes
  | [] => none
  | first :: rest => do
    let low := minVal first rest
    let deltas ← (first :: rest).mapM fun v => checkedSub v low
    pure (packBytes bitWidth low (deltas.map fun d => d.toUInt64.toNat))

def unpackDeltas (src : Bytes) (bitWidth : ℕ) (low : Int64) : ℕ → ℕ → Option (List Int64)
  | 0, _ => some []
  | n + 1, bitPos => do
    let (delta, bitPos) ← readNBits src bitPos bitWidth
    let v ← checkedAdd low (UInt64.ofNat delta).toInt64
    let values ← unpackDeltas src bitWidth low n bitPos
    pure (v :: values)

/-- A width over 64 shifts a word by more bits than it has, which is undefined. -/
def bitPackDecode (src : Bytes) (rowCount bitWidth : ℕ) : Option (List Int64) :=
  if 64 < bitWidth then none
  else do
    let (low, _) ← Reader.i64 src
    unpackDeltas src bitWidth low rowCount 64

/-! ## Writing bits -/

variable {buf : Bytes} {pos n width fuel skip value : ℕ}

/-- The byte one iteration writes: the next `n` bits of `value`, moved to bit `b`. -/
theorem testBit_chunk {b k : ℕ} (hk : k < 8) :
    (UInt8.ofNat (((value >>> skip) &&& (2 ^ n - 1)) <<< b)).toNat.testBit k =
      (decide (b ≤ k ∧ k < b + n) && value.testBit (skip + (k - b))) := by
  have hbyte : ∀ m : ℕ, (UInt8.ofNat m).toNat.testBit k = m.testBit k := by
    intro m
    have hm : (UInt8.ofNat m).toNat = m % 2 ^ 8 := rfl
    rw [hm, testBit_mod_two_pow]
    simp [hk]
  rw [hbyte]
  by_cases h : b ≤ k
  · have hn : (k - b < n) ↔ k < b + n := by omega
    simp [h, hn]
  · simp [h]

/-- One iteration adds the next bits of the value at the current position. -/
theorem bitAt_writeStep (value skip : ℕ) (hpos : pos / 8 < buf.length)
    (hn : pos % 8 + n ≤ 8) (j : ℕ) :
    bitAt (orAt buf (pos / 8)
      (UInt8.ofNat (((value >>> skip) &&& (2 ^ n - 1)) <<< (pos % 8)))) j =
    (bitAt buf j || (decide (pos ≤ j ∧ j < pos + n) && value.testBit (skip + (j - pos)))) := by
  rw [bitAt_orAt hpos, testBit_chunk (mod_lt _ (by decide))]
  by_cases hj : j / 8 = pos / 8
  · have hrange : (pos % 8 ≤ j % 8 ∧ j % 8 < pos % 8 + n) ↔ pos ≤ j ∧ j < pos + n := by omega
    have hsub : j % 8 - pos % 8 = j - pos := by omega
    simp [hj, hrange, hsub]
  · have hrange : ¬ (pos ≤ j ∧ j < pos + n) := by omega
    simp [hj, hrange]

/-- What `WriteNBits` leaves: the buffer's own bits and the value's at the position. -/
structure Written (buf : Bytes) (pos width skip value : ℕ) (r : Bytes × ℕ) : Prop where
  length : r.1.length = buf.length
  endPos : r.2 = pos + width
  bit : ∀ j, bitAt r.1 j =
    (bitAt buf j || (decide (pos ≤ j ∧ j < pos + width) && value.testBit (skip + (j - pos))))

theorem written_none (buf : Bytes) (pos skip value : ℕ) :
    Written buf pos 0 skip value (buf, pos) := by
  refine ⟨rfl, rfl, ?_⟩
  simp

/-- Two adjacent writes of one value are one write. -/
theorem Written.append {mid : Bytes} {m : ℕ} {r : Bytes × ℕ}
    (h : Written buf pos n skip value (mid, pos + n))
    (h' : Written mid (pos + n) m (skip + n) value r) :
    Written buf pos (n + m) skip value r := by
  refine ⟨h'.length.trans h.length, by rw [h'.endPos, add_assoc], ?_⟩
  intro j
  rw [h'.bit, h.bit]
  by_cases hlow : j < pos + n
  · have h1 : ¬ (pos + n ≤ j ∧ j < pos + n + m) := by omega
    have h2 : (pos ≤ j ∧ j < pos + (n + m)) ↔ (pos ≤ j ∧ j < pos + n) := by omega
    simp [h1, h2]
  · have h1 : ¬ (pos ≤ j ∧ j < pos + n) := by omega
    have h2 : (pos ≤ j ∧ j < pos + (n + m)) ↔ (pos + n ≤ j ∧ j < pos + n + m) := by omega
    have h3 : skip + n + (j - (pos + n)) = skip + (j - pos) := by omega
    simp [h1, h2, h3]

theorem written_writeNBitsLoop {remaining : ℕ} (value : ℕ)
    (hfuel : remaining ≤ fuel) (hrem : remaining ≤ width)
    (hroom : pos + remaining ≤ 8 * buf.length) :
    Written buf pos remaining (width - remaining) value
      (writeNBitsLoop width value fuel buf pos remaining) := by
  induction fuel generalizing buf pos remaining with
  | zero =>
    obtain rfl : remaining = 0 := by omega
    exact written_none buf pos _ value
  | succ fuel ih =>
    by_cases hzero : remaining = 0
    · subst hzero
      simpa [writeNBitsLoop] using written_none buf pos _ value
    · simp only [writeNBitsLoop, if_neg hzero]
      generalize hn : min remaining (8 - pos % 8) = n
      have hstep : Written buf pos n (width - remaining) value
          (orAt buf (pos / 8) (UInt8.ofNat
            (((value >>> (width - remaining)) &&& (2 ^ n - 1)) <<< (pos % 8))), pos + n) :=
        ⟨length_orAt _ _ _, rfl, bitAt_writeStep value _ (by omega) (by omega)⟩
      have hrest := ih (by omega : remaining - n ≤ fuel) (by omega)
        (by rw [length_orAt]; omega : pos + n + (remaining - n) ≤ 8 * (orAt buf (pos / 8)
          (UInt8.ofNat (((value >>> (width - remaining)) &&& (2 ^ n - 1)) <<< (pos % 8)))).length)
      rw [show width - (remaining - n) = width - remaining + n by omega] at hrest
      have := hstep.append hrest
      rwa [show n + (remaining - n) = remaining by omega] at this

theorem written_writeNBits (value : ℕ)
    (hroom : pos + width ≤ 8 * buf.length) :
    Written buf pos width 0 value (writeNBits buf pos width value) := by
  have h := written_writeNBitsLoop value (le_refl width) (le_refl width) hroom
  rwa [Nat.sub_self] at h

/-! ## Reading bits -/

/-- One byte's worth of bits read from the buffer and moved to position `at`. -/
theorem testBit_readChunk {byte : UInt8} {at' : ℕ}
    (hbyte : buf[pos / 8]? = some byte) (hn : pos % 8 + n ≤ 8) (k : ℕ) :
    (((byte.toNat >>> (pos % 8)) &&& (2 ^ n - 1)) <<< at').testBit k =
      (decide (at' ≤ k ∧ k < at' + n) && bitAt buf (pos + (k - at'))) := by
  by_cases hk : at' ≤ k ∧ k < at' + n
  · have hdiv : (pos + (k - at')) / 8 = pos / 8 := by omega
    have hmod : (pos + (k - at')) % 8 = pos % 8 + (k - at') := by omega
    have hlt : k - at' < n := by omega
    simp [bitAt, hdiv, hmod, hbyte, hk, hlt]
  · by_cases hle : at' ≤ k
    · have hlt : ¬ k - at' < n := by omega
      simp [hk, hlt]
    · simp [hle]

/-- What `ReadNBits` returns: the bits it had and those from the buffer. -/
theorem readNBitsLoop_spec (pos bitsRead result : ℕ)
    (hfuel : width - bitsRead ≤ fuel) (hroom : pos + (width - bitsRead) ≤ 8 * buf.length) :
    ∃ r, readNBitsLoop buf width fuel pos bitsRead result = some (r, pos + (width - bitsRead)) ∧
      ∀ k, r.testBit k = (result.testBit k ||
        (decide (bitsRead ≤ k ∧ k < width) && bitAt buf (pos + (k - bitsRead)))) := by
  induction fuel generalizing pos bitsRead result with
  | zero =>
    have hdone : ∀ k, ¬ (bitsRead ≤ k ∧ k < width) := by omega
    refine ⟨result, ?_, fun k => by simp [hdone k]⟩
    rw [readNBitsLoop, show width - bitsRead = 0 by omega, add_zero]
  | succ fuel ih =>
    by_cases hmore : bitsRead < width
    · simp only [readNBitsLoop, if_pos hmore]
      generalize hn : min (width - bitsRead) (8 - pos % 8) = n
      have hpos : pos / 8 < buf.length := by omega
      have hbyte : buf[pos / 8]? = some (buf.get ⟨pos / 8, hpos⟩) := getElem?_eq_getElem hpos
      obtain ⟨r, hr, hbits⟩ := ih (pos + n) (bitsRead + n)
        (result ||| (((buf.get ⟨pos / 8, hpos⟩).toNat >>> (pos % 8)) &&&
          (2 ^ n - 1)) <<< bitsRead) (by omega) (by omega)
      refine ⟨r, ?_, ?_⟩
      · rw [hbyte]
        show readNBitsLoop _ _ _ _ _ _ = _
        rw [hr, show pos + n + (width - (bitsRead + n)) = pos + (width - bitsRead) by omega]
      · intro k
        rw [hbits, testBit_or, testBit_readChunk hbyte (by omega)]
        by_cases hlow : k < bitsRead + n
        · have h1 : ¬ (bitsRead + n ≤ k ∧ k < width) := by omega
          have h2 : (bitsRead ≤ k ∧ k < width) ↔ (bitsRead ≤ k ∧ k < bitsRead + n) := by omega
          simp [h1, h2]
        · have h1 : ¬ (bitsRead ≤ k ∧ k < bitsRead + n) := by omega
          have h2 : (bitsRead ≤ k ∧ k < width) ↔ (bitsRead + n ≤ k ∧ k < width) := by omega
          have h3 : pos + n + (k - (bitsRead + n)) = pos + (k - bitsRead) := by omega
          simp [h1, h2, h3]
    · have hdone : ∀ k, ¬ (bitsRead ≤ k ∧ k < width) := by omega
      refine ⟨result, ?_, fun k => by simp [hdone k]⟩
      rw [readNBitsLoop, if_neg hmore, show width - bitsRead = 0 by omega, add_zero]

/-- `ReadNBits` returns the low bits of a value stored at the position. -/
theorem readNBits_eq (hroom : pos + width ≤ 8 * buf.length)
    (hbits : ∀ k < width, bitAt buf (pos + k) = value.testBit k) :
    readNBits buf pos width = some (value % 2 ^ width, pos + width) := by
  obtain ⟨r, hr, hr'⟩ := readNBitsLoop_spec pos 0 0 (sub_le width 0) hroom
  rw [readNBits, hr]
  congr 2
  apply eq_of_testBit_eq
  intro k
  rw [hr', testBit_mod_two_pow]
  by_cases hk : k < width
  · simp [hbits k hk]
  · simp [hk]

/-! ## Packed distances -/

/-- The buffer holds the low bits of each distance from position `pos` on. -/
def Packed (buf : Bytes) (bitWidth : ℕ) : ℕ → List ℕ → Prop
  | _, [] => True
  | pos, delta :: deltas =>
    (∀ k < bitWidth, bitAt buf (pos + k) = delta.testBit k) ∧
      Packed buf bitWidth (pos + bitWidth) deltas

variable {bitWidth : ℕ} {deltas : List ℕ} {rest : List Int64} {d first : Int64}

theorem Packed.congr {buf' : Bytes} (h : Packed buf bitWidth pos deltas)
    (heq : ∀ j < pos + bitWidth * deltas.length, bitAt buf' j = bitAt buf j) :
    Packed buf' bitWidth pos deltas := by
  induction deltas generalizing pos with
  | nil => trivial
  | cons delta deltas ih =>
    have hlen : pos + bitWidth + bitWidth * deltas.length =
        pos + bitWidth * (delta :: deltas).length := by
      rw [length_cons, mul_succ]; omega
    refine ⟨?_, ih h.2 fun j hj => heq j (hlen ▸ hj)⟩
    intro k hk
    rw [heq _ (by omega), h.1 k hk]

/-- What packing leaves: the distances from `pos` on, and before them what stood there. -/
structure PackedInto (buf : Bytes) (bitWidth pos : ℕ) (deltas : List ℕ) (r : Bytes × ℕ) :
    Prop where
  length : r.1.length = buf.length
  endPos : r.2 = pos + bitWidth * deltas.length
  before : ∀ j < pos, bitAt r.1 j = bitAt buf j
  packed : Packed r.1 bitWidth pos deltas

theorem packedInto_packDeltas (deltas : List ℕ)
    (hclear : ∀ j, pos ≤ j → bitAt buf j = false)
    (hroom : pos + bitWidth * deltas.length ≤ 8 * buf.length) :
    PackedInto buf bitWidth pos deltas (packDeltas bitWidth deltas (buf, pos)) := by
  induction deltas generalizing buf pos with
  | nil => exact ⟨rfl, rfl, fun _ _ => rfl, trivial⟩
  | cons delta deltas ih =>
    rw [length_cons, mul_succ] at hroom
    have hw := written_writeNBits delta (by omega : pos + bitWidth ≤ 8 * buf.length)
    rw [packDeltas]
    generalize writeNBits buf pos bitWidth delta = mid at hw ⊢
    obtain ⟨mid, midPos⟩ := mid
    obtain ⟨hlen, rfl, hbit⟩ := hw
    have hrest := @ih mid (pos + bitWidth)
      (fun j hj => by
        have : ¬ (pos ≤ j ∧ j < pos + bitWidth) := by omega
        simp [hbit, hclear j (by omega), this])
      (by simp only at hlen; omega)
    refine ⟨hrest.length.trans hlen, ?_, ?_, ?_, hrest.packed⟩
    · rw [hrest.endPos, length_cons, mul_succ]
      omega
    · intro j hj
      have : ¬ (pos ≤ j ∧ j < pos + bitWidth) := by omega
      simp [hrest.before j (by omega), hbit, this]
    · intro k hk
      rw [hrest.before _ (by omega), hbit, hclear _ (by omega)]
      simp [hk]

/-- The bit area after the header is clear, so the distances land in it unchanged. -/
theorem packedInto_packBytes (bitWidth : ℕ) (low : Int64) (deltas : List ℕ) : ∃ r, PackedInto
        (i64Bytes low ++ replicate ((bitWidth * deltas.length + 7) / 8 + 1) 0)
        bitWidth 64 deltas r ∧
      packBytes bitWidth low deltas = r.1.take ((64 + bitWidth * deltas.length + 7) / 8) := by
  have hinto : PackedInto
      (i64Bytes low ++ replicate ((bitWidth * deltas.length + 7) / 8 + 1) 0)
      bitWidth 64 deltas (packDeltas bitWidth deltas
        (i64Bytes low ++ replicate ((bitWidth * deltas.length + 7) / 8 + 1) 0, 64)) := by
    apply packedInto_packDeltas
    · intro j hj
      rw [bitAt_append_right (by simpa using hj), bitAt_replicate_zero]
    · simp only [length_append, length_i64Bytes, length_replicate]
      omega
  refine ⟨_, hinto, ?_⟩
  rw [← hinto.endPos]
  rfl

/-- The bytes hold the minimum and the distances, whatever follows them. -/
theorem packBytes_spec (bitWidth : ℕ) (low : Int64) (deltas : List ℕ) (tail : Bytes) :
    64 + bitWidth * deltas.length ≤ 8 * (packBytes bitWidth low deltas ++ tail).length ∧
    (∃ rest, packBytes bitWidth low deltas ++ tail = i64Bytes low ++ rest) ∧
    Packed (packBytes bitWidth low deltas ++ tail) bitWidth 64 deltas := by
  obtain ⟨r, hinto, hbs⟩ := packedInto_packBytes bitWidth low deltas
  have hlen := hinto.length
  simp only [length_append, length_i64Bytes, length_replicate] at hlen
  rw [hbs]
  generalize hn : (64 + bitWidth * deltas.length + 7) / 8 = n
  have hn' : (r.1.take n).length = n := by rw [length_take]; omega
  have hbit : ∀ j < 64 + bitWidth * deltas.length, bitAt (r.1.take n ++ tail) j = bitAt r.1 j := by
    intro j hj
    rw [bitAt_append_left (by omega), bitAt_take (by omega)]
  refine ⟨by rw [length_append]; omega, ?_, hinto.packed.congr hbit⟩
  have hhead : (r.1.take n ++ tail).take 8 = i64Bytes low := by
    apply ext_bits
    · rw [length_take, length_append, length_i64Bytes]
      omega
    · intro j hj
      rw [length_take] at hj
      rw [bitAt_take (by omega), hbit j (by omega), hinto.before j (by omega),
        bitAt_append_left (by rw [length_i64Bytes]; omega)]
  exact ⟨(r.1.take n ++ tail).drop 8, by rw [← hhead, take_append_drop]⟩

theorem unpackDeltas_eq {src : Bytes} {low : Int64}
    {values : List Int64} (hpacked : Packed src bitWidth pos deltas)
    (hroom : pos + bitWidth * deltas.length ≤ 8 * src.length) (hvalues : Forall₂
      (fun delta v => checkedAdd low (UInt64.ofNat (delta % 2 ^ bitWidth)).toInt64 = some v)
      deltas values) :
    unpackDeltas src bitWidth low deltas.length pos = some values := by
  induction hvalues generalizing pos with
  | nil => rfl
  | @cons delta v deltas values hv _ ih =>
    rw [length_cons, mul_succ] at hroom
    simp only [length_cons, unpackDeltas]
    rw [readNBits_eq (by omega) hpacked.1]
    simp only [bind_eq_bind, bind_some, hv, ih hpacked.2 (by omega)]
    rfl

/-! ## Round trip -/

theorem minVal_spec (first : Int64) (values : List Int64) : minVal first values ∈ first :: values ∧
      ∀ v ∈ first :: values, (minVal first values).toInt ≤ v.toInt := by
  induction values generalizing first with
  | nil => simp [minVal]
  | cons v values ih =>
    obtain ⟨hmem, hle⟩ := ih (if v < first then v else first)
    simp only [minVal, foldl_cons] at hmem hle ⊢
    have hfirst := hle _ mem_cons_self
    by_cases h : v < first
    · have hlt := lt_iff_toInt_lt.mp h
      simp only [if_pos h] at hmem hle hfirst ⊢
      refine ⟨mem_cons_of_mem _ hmem, ?_⟩
      intro x hx
      rcases mem_cons.mp hx with rfl | hx
      · omega
      · exact hle x hx
    · have hle' := Int64.not_lt.mp h
      rw [le_iff_toInt_le] at hle'
      simp only [if_neg h] at hmem hle hfirst ⊢
      refine ⟨?_, ?_⟩
      · rcases mem_cons.mp hmem with hm | hm
        · exact mem_cons.mpr (.inl hm)
        · exact mem_cons_of_mem _ (mem_cons_of_mem _ hm)
      · intro x hx
        rcases mem_cons.mp hx with rfl | hx
        · exact hfirst
        · rcases mem_cons.mp hx with rfl | hx
          · omega
          · exact hle x (mem_cons_of_mem _ hx)

/-- What bit packing makes of a value: the minimum plus the low bits of the distance. -/
def bitPackImage (bitWidth : ℕ) (low v : Int64) : Int64 :=
  Int64.ofInt (low.toInt + (v.toInt - low.toInt) % 2 ^ bitWidth)

theorem toInt_ofNat_toInt64 {n : ℕ} (h : n < 2 ^ 63) : (UInt64.ofNat n).toInt64.toInt = n := by
  have : (UInt64.ofNat n).toInt64 = ofNat n := by simp
  rw [this, toInt_ofNat_of_lt h]

theorem toNat_toUInt64_of_nonneg (h : 0 ≤ d.toInt) :
    (d.toUInt64.toNat : ℤ) = d.toInt := by
  have hd : (0 : Int64) ≤ d := le_iff_toInt_le.mpr h
  rw [toNat_toUInt64_of_le hd, cast_toNatClampNeg d hd]

theorem bitPackEncode_eq (bitWidth : ℕ)
    (hin : ∀ v ∈ first :: rest, InInt64 (v.toInt - (minVal first rest).toInt)) :
    bitPackEncode bitWidth (first :: rest) = some (packBytes bitWidth (minVal first rest)
      ((first :: rest).map fun v => (v.toInt - (minVal first rest).toInt).toNat)) := by
  have hle := (minVal_spec first rest).2
  have hdeltas := mapM_eq_some_iff.mpr (forall₂_map_right_iff.mpr (forall₂_same.mpr fun v hv =>
    checkedSub_eq_some.mpr (toInt_ofInt_of_inInt64 (hin v hv)).symm))
  simp only [bitPackEncode, hdeltas, bind_eq_bind, bind_some, List.map_map]
  refine congrArg (fun ds => some (packBytes bitWidth _ ds)) (map_congr_left fun v hv => ?_)
  have hto := toInt_ofInt_of_inInt64 (hin v hv)
  have := toNat_toUInt64_of_nonneg (hto ▸ Int.sub_nonneg.mpr (hle v hv))
  rw [Function.comp_apply]
  omega

/-- The distances are encodable when each fits a signed word. -/
theorem exists_bitPackEncode_iff (bitWidth : ℕ) (first : Int64) (rest : List Int64) :
    (∃ bs, bitPackEncode bitWidth (first :: rest) = some bs) ↔
      ∀ v ∈ first :: rest, InInt64 (v.toInt - (minVal first rest).toInt) := by
  constructor
  · rintro ⟨bs, hbs⟩ v hv
    simp only [bitPackEncode, bind_eq_bind, bind_eq_some_iff] at hbs
    obtain ⟨deltas, hdeltas, -⟩ := hbs
    obtain ⟨d, hd⟩ := exists_mapM_eq_some_iff.mp ⟨deltas, hdeltas⟩ v hv
    exact checkedSub_eq_some.mp hd ▸ inInt64_toInt d
  · exact fun hin => ⟨_, bitPackEncode_eq bitWidth hin⟩

variable {low v : Int64}

theorem toInt_bitPackImage (hle : low.toInt ≤ v.toInt) :
    (bitPackImage bitWidth low v).toInt =
      low.toInt + (v.toInt - low.toInt) % 2 ^ bitWidth := by
  have hbound : (v.toInt - low.toInt) % 2 ^ bitWidth ≤ v.toInt - low.toInt := by
    rcases lt_or_ge (v.toInt - low.toInt) (2 ^ bitWidth) with hlt | hge
    · exact (Int.emod_eq_of_lt (by omega) hlt).le
    · omega
  have h1 := inInt64_toInt low
  have h2 := inInt64_toInt v
  apply toInt_ofInt_of_inInt64
  simp only [InInt64] at h1 h2 ⊢
  omega

theorem bitPackImage_eq_self_iff (hle : low.toInt ≤ v.toInt) :
    bitPackImage bitWidth low v = v ↔ v.toInt - low.toInt < 2 ^ bitWidth := by
  rw [← toInt_inj, toInt_bitPackImage hle]
  constructor
  · omega
  · intro hlt
    rw [Int.emod_eq_of_lt (by omega) hlt]
    omega

/-- The decoder's value for a stored distance never overflows. -/
theorem checkedAdd_image (hle : low.toInt ≤ v.toInt) (hd : checkedSub v low = some d) :
    checkedAdd low (UInt64.ofNat (d.toUInt64.toNat % 2 ^ bitWidth)).toInt64 =
      some (bitPackImage bitWidth low v) := by
  rw [checkedSub_eq_some] at hd
  have hnat := toNat_toUInt64_of_nonneg (d := d) (by omega)
  have hmod : d.toUInt64.toNat % 2 ^ bitWidth ≤ d.toUInt64.toNat := mod_le _ _
  have hlt := d.toInt_lt
  have hcast : ((d.toUInt64.toNat % 2 ^ bitWidth : ℕ) : ℤ) =
      (v.toInt - low.toInt) % 2 ^ bitWidth := by
    rw [Int.natCast_mod, hnat, hd]
    norm_cast
  rw [checkedAdd_eq_some, toInt_ofNat_toInt64 (by omega), hcast, toInt_bitPackImage hle]

/-- **Round trip of bit packing.** Every value comes back as the minimum plus the low
bits of its distance. -/
theorem bitPackDecode_bitPackEncode (hwidth : bitWidth ≤ 64)
    {bs : Bytes} (h : bitPackEncode bitWidth (first :: rest) = some bs)
    (tail : Bytes) :
    bitPackDecode (bs ++ tail) (first :: rest).length bitWidth =
      some ((first :: rest).map (bitPackImage bitWidth (minVal first rest))) := by
  obtain ⟨-, hle⟩ := minVal_spec first rest
  simp only [bitPackEncode, bind_eq_bind, bind_eq_some_iff] at h
  obtain ⟨deltas, hdeltas, hbs⟩ := h
  cases hbs
  generalize minVal first rest = low at *
  generalize first :: rest = values at *
  rw [mapM_eq_some_iff] at hdeltas
  obtain ⟨hroom, ⟨rest', hhead⟩, hpacked⟩ :=
    packBytes_spec bitWidth low (deltas.map fun d => d.toUInt64.toNat) tail
  have hvalues : Forall₂
      (fun delta v => checkedAdd low (UInt64.ofNat (delta % 2 ^ bitWidth)).toInt64 = some v)
      (deltas.map fun d => d.toUInt64.toNat) (values.map (bitPackImage bitWidth low)) := by
    rw [forall₂_map_left_iff, forall₂_map_right_iff]
    apply Forall₂.flip
    have hboth := (forall₂_and_left values deltas).mpr ⟨hle, hdeltas⟩
    exact hboth.imp fun v d hd => checkedAdd_image hd.1 hd.2
  have hunpack := unpackDeltas_eq hpacked hroom hvalues
  rw [length_map, ← hdeltas.length_eq] at hunpack
  rw [bitPackDecode, if_neg (not_lt.mpr hwidth), hhead, (reads_i64 low).eq, ← hhead]
  exact hunpack

/-- **Values within the width come back unchanged**, from the least number of bytes, which
hold every distance in its own bits. -/
theorem bitPack_round_trip {first : Int64} {rest : List Int64} (hwidth : bitWidth ≤ 63)
    (hspan : ∀ a ∈ first :: rest, ∀ b ∈ first :: rest, b.toInt - a.toInt < 2 ^ bitWidth) :
    ∃ bs, bitPackEncode bitWidth (first :: rest) = some bs ∧
      bs.length = (64 + bitWidth * (first :: rest).length + 7) / 8 ∧
      bitPackDecode bs (first :: rest).length bitWidth = some (first :: rest) ∧
      Packed bs bitWidth 64
        ((first :: rest).map fun v => (v.toInt - (minVal first rest).toInt).toNat) := by
  obtain ⟨hmin, hle⟩ := minVal_spec first rest
  have hpow : (2 : ℤ) ^ bitWidth ≤ 2 ^ 63 := pow_le_pow_right₀ one_le_two hwidth
  have hbs := bitPackEncode_eq bitWidth fun v hv => by
    have := hspan _ hmin v hv
    have := hle v hv
    exact ⟨by omega, by omega⟩
  have hdecode := bitPackDecode_bitPackEncode (by omega) hbs []
  rw [append_nil, map_congr_left (g := id) fun v hv =>
    (bitPackImage_eq_self_iff (hle v hv)).mpr (hspan _ hmin v hv), List.map_id] at hdecode
  refine ⟨_, hbs, ?_, hdecode, ?_⟩
  · obtain ⟨r, hinto, htake⟩ := packedInto_packBytes bitWidth (minVal first rest)
      ((first :: rest).map fun v => (v.toInt - (minVal first rest).toInt).toNat)
    have hlen := hinto.length
    simp only [length_append, length_i64Bytes, length_replicate, length_map] at hlen htake
    rw [htake, length_take]
    omega
  · simpa only [append_nil] using (packBytes_spec bitWidth _ _ []).2.2

theorem bitPack_round_trip_straddling :
    ∃ bs, bitPackEncode 5 [-3, 28, 9] = some bs ∧ bs.length = 10 ∧
      bitPackDecode bs 3 5 = some [-3, 28, 9] ∧ Packed bs 5 64 [0, 31, 12] :=
  bitPack_round_trip (by decide) (by simp)

end CppColDB
