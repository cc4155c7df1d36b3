import CppColDB.Lib.Imp
import CppColDB.Common.Types

/-!
# Values, errors and operations on vectors

Scalar values with the comparisons of `common/types.cpp`, the exceptions of the program,
and the row-wise operations on `DataVector` and `DataChunk`.
-/

namespace CppColDB

open ByteCodec

/-! ## Exceptions -/

/-- The exception classes the program throws itself, and those of the standard library that
its containers throw. -/
inductive ErrorKind where
  | bindError | runtimeError | ioError | badVariantAccess | outOfRange | lengthError | badAlloc
  deriving DecidableEq, Repr

structure Error where
  kind : ErrorKind
  message : Bytes := []
  deriving DecidableEq, Repr

/-- The bytes of a message text. -/
def text (s : String) : Bytes := s.toList.map fun c => UInt8.ofNat c.toNat

def Error.bind (message : Bytes) : Error := { kind := .bindError, message }

def Error.runtime (message : Bytes) : Error := { kind := .runtimeError, message }

def Error.io (message : Bytes) : Error := { kind := .ioError, message }

/-- `std::bad_variant_access`. -/
def Error.badVariant : Error := { kind := .badVariantAccess }

/-- `std::length_error`. -/
def Error.length : Error := { kind := .lengthError }

/-- `std::bad_alloc`. -/
def Error.badAlloc : Error := { kind := .badAlloc }

/-! ## Doubles

A double is its bit pattern: sign, eleven exponent bits and 52 fraction bits. -/

namespace Double

/-- All exponent bits set and a non-zero fraction. -/
def isNaN (bits : UInt64) : Bool := 0x7FF0000000000000 < bits.toNat % 2 ^ 63

/-- The position of a number in the order of the reals; both zeros are `0`. -/
def key (bits : UInt64) : ℤ :=
  if bits.toNat < 2 ^ 63 then bits.toNat else -((bits.toNat % 2 ^ 63 : ℕ) : ℤ)

def lt (a b : UInt64) : Bool := !isNaN a && !isNaN b && decide (key a < key b)

def eq (a b : UInt64) : Bool := !isNaN a && !isNaN b && decide (key a = key b)

end Double

/-! ## Values -/

/-- The alternatives of the variant. -/
inductive ValueData where
  | int (v : Int64)
  | float (bits : UInt64)
  | bool (b : Bool)
  | str (s : Bytes)
  deriving DecidableEq, Repr

/-- A typed scalar. The type does not have to match the alternative the variant holds. -/
structure Value where
  type : TypeId := .invalid
  data : ValueData := .int 0
  deriving DecidableEq, Repr

namespace Value

def integer (v : Int64) : Value := { type := .int64, data := .int v }

def float (bits : UInt64) : Value := { type := .float64, data := .float bits }

def boolean (b : Bool) : Value := { type := .boolean, data := .bool b }

def varchar (s : Bytes) : Value := { type := .varchar, data := .str s }

def isNull (v : Value) : Bool := v.type = .invalid

/-- The shared body of `operator==` and `operator<`: values of different types and NULL
compare false, and a variant without the alternative of the type throws. -/
def compareWith (int : Int64 → Int64 → Bool) (float : UInt64 → UInt64 → Bool)
    (bool : Bool → Bool → Bool) (str : Bytes → Bytes → Bool) (a b : Value) : Except Error Bool :=
  if a.type ≠ b.type then .ok false
  else match a.type with
    | .int8 | .int16 | .int32 | .int64 =>
      match a.data, b.data with
      | .int x, .int y => .ok (int x y)
      | _, _ => .error Error.badVariant
    | .float32 | .float64 =>
      match a.data, b.data with
      | .float x, .float y => .ok (float x y)
      | _, _ => .error Error.badVariant
    | .boolean =>
      match a.data, b.data with
      | .bool x, .bool y => .ok (bool x y)
      | _, _ => .error Error.badVariant
    | .varchar =>
      match a.data, b.data with
      | .str x, .str y => .ok (str x y)
      | _, _ => .error Error.badVariant
    | .invalid | .unnamed _ _ => .ok false

def eq : Value → Value → Except Error Bool :=
  compareWith (fun x y => decide (x = y)) Double.eq (fun x y => x == y)
    (fun x y => decide (x = y))

def lt : Value → Value → Except Error Bool :=
  compareWith (fun x y => decide (x < y)) Double.lt (fun x y => !x && y)
    (fun x y => decide (x < y))

end Value

/-! ## Rows of vectors -/

namespace DataVector

/-- `std::vector::resize(n, d)`. -/
def resize {α : Type} (xs : List α) (n : ℕ) (d : α) : List α :=
  xs.take n ++ List.replicate (n - xs.length) d

/-- Store a datum at index `i` of the array a storage class uses. The array must reach
that far. -/
def store (v : DataVector) (i : ℕ) : Datum → Option DataVector
  | .int x => if i < v.intData.length then some { v with intData := v.intData.set i x } else none
  | .float x =>
    if i < v.floatData.length then some { v with floatData := v.floatData.set i x } else none
  | .str x => if i < v.strData.length then some { v with strData := v.strData.set i x } else none

/-- The element at index `i` of the array of a storage class, whatever the vector's type. -/
def load (v : DataVector) (cls : TypeId.StorageClass) (i : ℕ) : Option Datum :=
  match cls with
  | .int => v.intData[i]?.map .int
  | .float => v.floatData[i]?.map .float
  | .str => v.strData[i]?.map .str
  | .none => none

/-- Make the array of a storage class long enough to hold index `i`. -/
def grow (v : DataVector) (cls : TypeId.StorageClass) (i : ℕ) : DataVector :=
  match cls with
  | .int => if v.intData.length ≤ i then { v with intData := resize v.intData (i + 1) 0 } else v
  | .float =>
    if v.floatData.length ≤ i then { v with floatData := resize v.floatData (i + 1) 0 } else v
  | .str => if v.strData.length ≤ i then { v with strData := resize v.strData (i + 1) [] } else v
  | .none => v

/-- `DataVectorAppend`: append row `srcIdx` of `src`. The value goes through the arrays of
the destination's type. -/
def append (dst src : DataVector) (srcIdx : ℕ) : Option DataVector :=
  let i := dst.count
  if standardVectorSize ≤ i ∨ standardVectorSize ≤ srcIdx then none
  else if src.isNull srcIdx then
    some { dst with count := i + 1, validity := dst.validity.put i false }
  else
    let dst := { dst with count := i + 1, validity := dst.validity.put i true }
    match dst.type.storageClass with
    | .none => some dst
    | cls => do
      let x ← src.load cls srcIdx
      (dst.grow cls i).store i x

/-- The array of the vector's type with `n` default elements. -/
def reserve (v : DataVector) (n : ℕ) : DataVector :=
  match v.type.storageClass with
  | .int => { v with intData := resize v.intData n 0 }
  | .float => { v with floatData := resize v.floatData n 0 }
  | .str => { v with strData := resize v.strData n [] }
  | .none => v

/-- `BulkCopyRows`: append `count` rows of `src` from `srcStart` on. The array is chosen by
the source's type; validity bits are only ever set. -/
def bulkCopyRows (dst src : DataVector) (srcStart count : ℕ) : Option DataVector :=
  let dstStart := dst.count
  if standardVectorSize < srcStart + count ∨ standardVectorSize < dstStart + count then none
  else
    let validity := (List.range count).foldl (fun m j =>
      if src.validity.getLsbD (srcStart + j) then Validity.put m (dstStart + j) true else m)
      dst.validity
    let dst := { dst with count := dstStart + count, validity }
    match src.type.storageClass with
    | .int =>
      if srcStart + count ≤ src.intData.length then
        some { dst with
          intData := resize dst.intData dstStart 0 ++ (src.intData.drop srcStart).take count }
      else none
    | .float =>
      if srcStart + count ≤ src.floatData.length then
        some { dst with
          floatData := resize dst.floatData dstStart 0 ++ (src.floatData.drop srcStart).take count }
      else none
    | .str =>
      if srcStart + count ≤ src.strData.length then
        some { dst with
          strData := resize dst.strData dstStart [] ++ (src.strData.drop srcStart).take count }
      else none
    | .none => some dst

/-- The `write_value` of `WriteRow` and `WriteRows`: overwrite row `idx` of a vector of a
column of type `type` with row `srcIdx` of `src`. A NULL leaves the stored value. -/
def writeValue (type : TypeId) (target : DataVector) (idx : ℕ) (src : DataVector) (srcIdx : ℕ) :
    Option DataVector :=
  if standardVectorSize ≤ idx ∨ standardVectorSize ≤ srcIdx then none
  else if src.isNull srcIdx then some { target with validity := target.validity.put idx false }
  else
    let target := { target with validity := target.validity.put idx true }
    match type.storageClass with
    | .none => some target
    | cls => do
      let x ← src.load cls srcIdx
      target.store idx x

end DataVector

/-- `DataChunkSlice`: the given rows of a chunk, in the given order. -/
def DataChunk.slice (src : DataChunk) (rowIndices : List ℕ) : Option DataChunk := do
  let columns ← src.columns.mapM fun col =>
    rowIndices.foldlM (fun dst idx => dst.append col idx)
      ((DataVector.reset col.type 0).reserve rowIndices.length)
  pure { columns, count := rowIndices.length }

end CppColDB
