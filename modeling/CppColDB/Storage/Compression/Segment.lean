import CppColDB.Storage.Compression.Rle
import CppColDB.Storage.Compression.BitPacking
import CppColDB.Storage.Compression.Delta
import CppColDB.Storage.Compression.Dictionary

/-!
# Column segments

`SelectCompression`, `Compress` and `Decompress`. A segment is a nine-byte header, the
validity bitmap and the encoded rows. `compress` returns the bytes it writes;
`decompress` reads them from the front of a buffer that may be longer.

`none` stands for undefined behaviour: an access outside a vector or the buffer, a signed
overflow, or a shift by the width of the word or more.
-/

namespace CppColDB

open BitBuffer ByteCodec Reader

/-- The encodings of a segment. -/
inductive CompressionType where
  | uncompressed | rle | bitPacked | delta | dictionary
  deriving DecidableEq, Repr

namespace CompressionType

def toByte : CompressionType → UInt8
  | uncompressed => 0
  | rle => 1
  | bitPacked => 2
  | delta => 3
  | dictionary => 4

/-- The cast from the header byte; `none` for a byte the enumeration does not name. -/
def ofByte (b : UInt8) : Option CompressionType :=
  match b.toNat with
  | 0 => some uncompressed
  | 1 => some rle
  | 2 => some bitPacked
  | 3 => some delta
  | 4 => some dictionary
  | _ => none

@[simp] theorem ofByte_toByte (t : CompressionType) : ofByte t.toByte = some t := by
  cases t <;> rfl

end CompressionType

/-- A scheme and, for bit packing, its width. -/
structure CompressionChoice where
  type : CompressionType := .uncompressed
  bitWidth : ℕ := 0
  deriving DecidableEq, Repr

/-! ## The rows of a vector -/

/-- Row `i` of a vector whose values are in `data`. -/
def DataVector.row {α : Type} (v : DataVector) (data : List α) (i : ℕ) : Option (Option α) :=
  if v.isNull i then some none else data[i]?.map some

/-- All rows of a vector, as the loops over `0 .. count` read them. -/
def DataVector.rows {α : Type} (v : DataVector) (data : List α) : Option (List (Option α)) :=
  if v.count ≤ standardVectorSize then (List.range v.count).mapM (v.row data) else none

/-! ## Choosing a scheme -/

/-- The loop of `AllIdentical`, with the first non-NULL value once it is found. -/
def allIdenticalFrom : Option Int64 → List (Option Int64) → Bool
  | _, [] => true
  | first, none :: rows => allIdenticalFrom first rows
  | none, some v :: rows => allIdenticalFrom (some v) rows
  | some first, some v :: rows => if v = first then allIdenticalFrom (some first) rows else false

def allIdentical (rows : List (Option Int64)) : Bool := allIdenticalFrom none rows

/-- The running minimum and maximum of the non-NULL values. -/
def boundsFrom : Int64 × Int64 → List (Option Int64) → Int64 × Int64
  | b, [] => b
  | b, none :: rows => boundsFrom b rows
  | (mn, mx), some v :: rows =>
    boundsFrom (if v < mn then v else mn, if mx < v then v else mx) rows

/-- `while ((1ULL << bits) <= range) ++bits`. -/
def bitsLoop (range : ℕ) : ℕ → ℕ → ℕ
  | 0, bits => bits
  | fuel + 1, bits => if 2 ^ bits ≤ range then bitsLoop range fuel (bits + 1) else bits

/-- The width of the largest distance between non-NULL values. The difference of the
bounds is a signed subtraction; below `2 ^ 63` the loop ends before the shift overflows. -/
def minBitsRequired (rows : List (Option Int64)) : Option ℕ := do
  let (mn, mx) := boundsFrom (Int64.maxValue, Int64.minValue) rows
  if mn = Int64.maxValue then pure 0
  else
    let range ← checkedSub mx mn
    if range = 0 then pure 1 else pure (bitsLoop range.toUInt64.toNat 64 0)

/-- The loop of `IsMonotonic`. -/
def isMonotonicFrom (prev : Int64) : List (Option Int64) → Bool
  | [] => true
  | none :: rows => isMonotonicFrom prev rows
  | some v :: rows => if v < prev then false else isMonotonicFrom v rows

def isMonotonic (rows : List (Option Int64)) : Bool := isMonotonicFrom Int64.minValue rows

/-- The size of the set of non-NULL strings. -/
def countDistinct (rows : List (Option Bytes)) : ℕ := rows.reduceOption.dedup.length

/-- `SelectCompression` for a non-empty integer or boolean column. -/
def selectInt (rows : List (Option Int64)) : Option CompressionChoice :=
  if allIdentical rows then some { type := .rle }
  else do
    let bits ← minBitsRequired rows
    if bits ≤ 32 then pure { type := .bitPacked, bitWidth := bits }
    else if isMonotonic rows then pure { type := .delta }
    else pure { type := .uncompressed }

def selectCompression (v : DataVector) : Option CompressionChoice :=
  if v.count = 0 then some { type := .uncompressed }
  else match v.type.storageClass with
    | .int => (v.rows v.intData).bind selectInt
    | .float => some { type := .uncompressed }
    | .str => do
      let rows ← v.rows v.strData
      if countDistinct rows ≤ 1000 then pure { type := .dictionary }
      else pure { type := .uncompressed }
    | .none => some { type := .uncompressed }

/-! ## Writing a segment -/

/-- One string of an uncompressed column. The length is cast to 16 bits before the copy, so
a longer string is cut. -/
def plainStrBytes (s : Bytes) : Bytes := leBytes 2 s.length ++ s.take (s.length % 2 ^ 16)

/-- The encoded rows, NULLs as zero or the empty string where the scheme needs a value. -/
def compressData (choice : CompressionChoice) (v : DataVector) : Option Bytes :=
  match choice.type with
  | .uncompressed =>
    match v.type.storageClass with
    | .int => (v.rows v.intData).map fun rows => rows.flatMap fun row => i64Bytes (row.getD 0)
    | .float => (v.rows v.floatData).map fun rows =>
      rows.flatMap fun row => leBytes 8 (row.getD 0).toNat
    | _ => (v.rows v.strData).map fun rows => rows.flatMap fun row => plainStrBytes (row.getD [])
  | .rle => (v.rows v.intData).map rleEncode
  | .bitPacked => do
    let rows ← v.rows v.intData
    let packed ← bitPackEncode choice.bitWidth (rows.map fun row => row.getD 0)
    pure (UInt8.ofNat choice.bitWidth :: packed)
  | .delta => do
    let rows ← v.rows v.intData
    deltaEncode (rows.map fun row => row.getD 0)
  | .dictionary => (v.rows v.strData).map dictEncode

/-- `BuildBitmap`. -/
def buildBitmap (v : DataVector) : Bytes :=
  bitmap ((List.range v.count).map fun i => !v.isNull i)

/-- The packed `SegmentHeader`. -/
def segmentHeader (type : CompressionType) (rowCount bitmapSize : ℕ) : Bytes :=
  type.toByte :: (leBytes 4 rowCount ++ leBytes 4 bitmapSize)

def compress (choice : CompressionChoice) (v : DataVector) : Option Bytes := do
  let data ← compressData choice v
  pure (segmentHeader choice.type v.count (bitmapBytes v.count) ++ (buildBitmap v ++ data))

/-! ## Reading a segment -/

/-- `ApplyBitmap`: the first `count` bits of a bitmap become the validity bits. -/
def applyBitmap (map : Bytes) (v : DataVector) : Option DataVector :=
  if v.count ≤ standardVectorSize ∧ bitmapBytes v.count ≤ map.length then
    some { v with validity := v.validity.putFrom 0 (bits map v.count) }
  else none

/-- Decoded rows written over a fresh vector of the column's type. -/
def withIntRows (v : DataVector) (rows : List (Option Int64)) : Option DataVector :=
  if v.count ≤ standardVectorSize ∧ v.type.storageClass = .int then
    some { v with intData := rows.map fun row => row.getD 0
                  validity := v.validity.putFrom 0 (rows.map Option.isSome) }
  else none

def withStrRows (v : DataVector) (rows : List (Option Bytes)) : Option DataVector :=
  if v.count ≤ standardVectorSize ∧ v.type.storageClass = .str then
    some { v with strData := rows.map fun row => row.getD []
                  validity := v.validity.putFrom 0 (rows.map Option.isSome) }
  else none

/-- Decoded values written into the integer array of a fresh vector. -/
def withInts (v : DataVector) (values : List Int64) : Option DataVector :=
  if v.type.storageClass = .int then some { v with intData := values } else none

/-- The header fields: scheme byte, row count and bitmap size. -/
def readHeader : Reader (UInt8 × ℕ × ℕ) := do
  let type ← byte
  let rowCount ← le 4
  let bitmapSize ← le 4
  pure (type, rowCount, bitmapSize)

/-- The switch of `Decompress` over the scheme. `map` is the buffer from the bitmap on. A
scheme whose values go to an array the column type does not use writes outside that array;
an unnamed scheme leaves every row at its default. -/
def decompressRows (type : Option CompressionType) (colType : TypeId) (rowCount bitmapSize : ℕ)
    (map : Bytes) : Option DataVector :=
  let data := map.drop bitmapSize
  let dst := DataVector.reset colType rowCount
  match type with
  | some .uncompressed =>
    match colType.storageClass with
    | .int => do
      let (values, _) ← many i64 rowCount data
      applyBitmap map { dst with intData := values }
    | .float => do
      let (values, _) ← many (le 8) rowCount data
      applyBitmap map { dst with floatData := values.map UInt64.ofNat }
    | _ => do
      let (values, _) ← many str16 rowCount data
      if colType.storageClass = .str ∨ rowCount = 0 then
        applyBitmap map { dst with strData := values }
      else none
  | some .rle => do
    let (rows, _) ← rleDecode rowCount data
    if bitmapBytes rowCount ≤ bitmapSize then withIntRows dst rows else none
  | some .bitPacked => do
    let (bitWidth, packed) ← byte data
    let values ← bitPackDecode packed rowCount bitWidth.toNat
    (withInts dst values).bind (applyBitmap map)
  | some .delta => do
    let (values, _) ← deltaDecode rowCount data
    (withInts dst values).bind (applyBitmap map)
  | some .dictionary => do
    let (rows, _) ← dictDecode rowCount data
    if bitmapBytes rowCount ≤ bitmapSize then withStrRows dst rows else none
  | none => applyBitmap map dst

def decompress (src : Bytes) (colType : TypeId) : Option DataVector := do
  let ((type, rowCount, bitmapSize), map) ← readHeader src
  decompressRows (CompressionType.ofByte type) colType rowCount bitmapSize map

end CppColDB
