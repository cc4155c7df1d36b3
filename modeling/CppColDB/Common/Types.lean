import Mathlib.Tactic.IntervalCases
import CppColDB.Lib.Bytes

/-!
# Types, vectors and chunks

The data model of `common/types.hpp`. A `DataVector` is one column of at most
`standardVectorSize` rows: three typed arrays of which one is in use, and a validity
bitset whose bit `i` is set when row `i` is not NULL. Doubles are raw 64-bit patterns.

Access outside an array is undefined behaviour in the source; here it is `none`.
-/

namespace CppColDB

open ByteCodec Int64

/-- Maximum number of rows of a `DataChunk`. -/
def standardVectorSize : ℕ := 1024

/-- Row capacity of a row group. -/
def rowGroupSize : ℕ := 122880

/-- SQL type identifiers. The enumeration is backed by one byte, so a value read from
disk may be one the enumeration does not name. -/
inductive TypeId where
  | invalid | boolean | int8 | int16 | int32 | int64 | float32 | float64 | varchar
  | unnamed (code : UInt8) (h : 8 < code)
  deriving DecidableEq, Repr

namespace TypeId

/-- The underlying byte of a type identifier. -/
def toByte : TypeId → UInt8
  | invalid => 0
  | boolean => 1
  | int8 => 2
  | int16 => 3
  | int32 => 4
  | int64 => 5
  | float32 => 6
  | float64 => 7
  | varchar => 8
  | unnamed code _ => code

/-- The cast from the underlying byte. -/
def ofByte (b : UInt8) : TypeId :=
  if h : 8 < b then unnamed b h
  else match b.toNat with
    | 0 => invalid
    | 1 => boolean
    | 2 => int8
    | 3 => int16
    | 4 => int32
    | 5 => int64
    | 6 => float32
    | 7 => float64
    | _ => varchar

@[simp] theorem ofByte_toByte (t : TypeId) : ofByte t.toByte = t := by
  cases t with
  | unnamed code h => simp [toByte, ofByte, h]
  | _ => rfl

@[simp] theorem toByte_ofByte (b : UInt8) : (ofByte b).toByte = b := by
  by_cases h : 8 < b
  · simp [ofByte, h, toByte]
  · have hle : b.toNat ≤ 8 := Nat.not_lt.mp fun hlt => h (UInt8.lt_iff_toNat_lt.mpr hlt)
    apply UInt8.toNat_inj.mp
    simp only [ofByte, h]
    generalize b.toNat = n at hle
    interval_cases n <;> rfl

/-- Which typed array of a `DataVector` holds the rows of a type. -/
inductive StorageClass where
  | int | float | str | none
  deriving DecidableEq, Repr

/-- The array `DataVector::Reset` and its readers switch to. -/
def storageClass : TypeId → StorageClass
  | boolean | int8 | int16 | int32 | int64 => .int
  | float32 | float64 => .float
  | varchar => .str
  | invalid | unnamed _ _ => .none

end TypeId

/-! ## Signed arithmetic

Overflow of signed 64-bit arithmetic is undefined behaviour, so the checked operations
return `none` there. -/

/-- The integers a signed 64-bit word represents. -/
def InInt64 (z : ℤ) : Prop := -2 ^ 63 ≤ z ∧ z < 2 ^ 63

instance (z : ℤ) : Decidable (InInt64 z) := inferInstanceAs (Decidable (_ ∧ _))

theorem inInt64_toInt (a : Int64) : InInt64 a.toInt := ⟨a.le_toInt, a.toInt_lt⟩

theorem toInt_ofInt_of_inInt64 {z : ℤ} (h : InInt64 z) : (ofInt z).toInt = z :=
  toInt_ofInt_of_le h.1 h.2

def checkedAdd (a b : Int64) : Option Int64 :=
  if InInt64 (a.toInt + b.toInt) then some (Int64.ofInt (a.toInt + b.toInt)) else none

def checkedSub (a b : Int64) : Option Int64 :=
  if InInt64 (a.toInt - b.toInt) then some (Int64.ofInt (a.toInt - b.toInt)) else none

theorem checkedAdd_eq_some {a b c : Int64} :
    checkedAdd a b = some c ↔ a.toInt + b.toInt = c.toInt := by
  unfold checkedAdd
  split
  next h =>
    rw [Option.some.injEq, ← toInt_inj, toInt_ofInt_of_inInt64 h]
  next h =>
    refine ⟨nofun, fun hc => absurd ?_ h⟩
    rw [hc]
    exact inInt64_toInt c

theorem checkedSub_eq_some {a b c : Int64} :
    checkedSub a b = some c ↔ a.toInt - b.toInt = c.toInt := by
  unfold checkedSub
  split
  next h =>
    rw [Option.some.injEq, ← toInt_inj, toInt_ofInt_of_inInt64 h]
  next h =>
    refine ⟨nofun, fun hc => absurd ?_ h⟩
    rw [hc]
    exact inInt64_toInt c

theorem add_of_checkedAdd {a b c : Int64} (h : checkedAdd a b = some c) : a + b = c := by
  rw [checkedAdd] at h
  split at h <;> cases h
  simp

theorem sub_of_checkedSub {a b c : Int64} (h : checkedSub a b = some c) : a - b = c := by
  rw [checkedSub] at h
  split at h <;> cases h
  simp

/-! ## Validity bitsets -/

/-- The bitset of a vector: bit `i` is set when row `i` is not NULL. -/
abbrev Validity := BitVec standardVectorSize

namespace Validity

/-- `bitset::set(i)` or `bitset::reset(i)`. -/
def put (m : Validity) (i : ℕ) (b : Bool) : Validity :=
  if b then m ||| BitVec.twoPow standardVectorSize i
  else m &&& ~~~ BitVec.twoPow standardVectorSize i

theorem getLsbD_put (m : Validity) (i j : ℕ) (b : Bool) :
    (m.put i b).getLsbD j = if i = j ∧ j < standardVectorSize then b else m.getLsbD j := by
  by_cases hj : j < standardVectorSize
  · by_cases hi : i = j
    · cases b <;> simp [put, hj, hi]
    · cases b <;> simp [put, hj, hi, Ne.symm hi]
  · cases b <;> simp [hj, BitVec.getLsbD_of_ge _ _ (Nat.le_of_not_lt hj)]

@[simp] theorem put_false_zero (i : ℕ) : (0 : Validity).put i false = 0 := by
  apply BitVec.eq_of_getLsbD_eq
  intro j _
  rw [getLsbD_put]
  simp

/-- Put the given booleans at positions `i, i + 1, ...`. -/
def putFrom (m : Validity) : ℕ → List Bool → Validity
  | _, [] => m
  | i, b :: bs => (m.put i b).putFrom (i + 1) bs

theorem getLsbD_putFrom (m : Validity) (i j : ℕ) (bs : List Bool) : (m.putFrom i bs).getLsbD j =
      if i ≤ j ∧ j < standardVectorSize then (bs[j - i]?).getD (m.getLsbD j)
      else m.getLsbD j := by
  induction bs generalizing m i with
  | nil => simp [putFrom]
  | cons b bs ih =>
    rw [putFrom, ih, getLsbD_put]
    by_cases hj : j < standardVectorSize
    · rcases Nat.lt_trichotomy i j with h | h | h
      · have hs : j - i = (j - (i + 1)) + 1 := by omega
        simp [h.le, hs, h.ne, Nat.succ_le_of_lt h]
      · simp [h]
      · have h1 : ¬ i + 1 ≤ j := by omega
        simp [h1, h.ne', Nat.not_le_of_lt h]
    · simp [hj]

end Validity

/-! ## Vectors -/

/-- One stored element of a vector. -/
inductive Datum where
  | int (v : Int64)
  | float (bits : UInt64)
  | str (s : Bytes)
  deriving DecidableEq, Repr

/-- A column of values of one type. -/
structure DataVector where
  type : TypeId := .invalid
  count : ℕ := 0
  intData : List Int64 := []
  floatData : List UInt64 := []
  strData : List Bytes := []
  validity : Validity := 0
  deriving DecidableEq, Repr

namespace DataVector

/-- Resize to `n` rows of type `t`, all of them NULL. -/
def reset (t : TypeId) (n : ℕ) : DataVector :=
  match t.storageClass with
  | .int => { type := t, count := n, intData := List.replicate n 0 }
  | .float => { type := t, count := n, floatData := List.replicate n 0 }
  | .str => { type := t, count := n, strData := List.replicate n [] }
  | .none => { type := t, count := n }

def isNull (v : DataVector) (i : ℕ) : Bool := !v.validity.getLsbD i

/-- The element at index `i` of the array that the vector's type uses. -/
def datum? (v : DataVector) (i : ℕ) : Option Datum :=
  match v.type.storageClass with
  | .int => v.intData[i]?.map .int
  | .float => v.floatData[i]?.map .float
  | .str => v.strData[i]?.map .str
  | .none => none

/-- A vector that fits a chunk and whose every non-NULL row has its value. -/
structure WellFormed (v : DataVector) : Prop where
  count_le : v.count ≤ standardVectorSize
  stored : ∀ i < v.count, v.isNull i = false → (v.datum? i).isSome

/-- Two vectors that hold the same rows; what a NULL row stores does not count. -/
structure SameRows (v w : DataVector) : Prop where
  type : v.type = w.type
  count : v.count = w.count
  isNull : ∀ i < w.count, v.isNull i = w.isNull i
  datum : ∀ i < w.count, w.isNull i = false → v.datum? i = w.datum? i

@[simp] theorem reset_type (t : TypeId) (n : ℕ) : (reset t n).type = t := by
  unfold reset; split <;> rfl

@[simp] theorem reset_count (t : TypeId) (n : ℕ) : (reset t n).count = n := by
  unfold reset; split <;> rfl

@[simp] theorem reset_validity (t : TypeId) (n : ℕ) : (reset t n).validity = 0 := by
  unfold reset; split <;> rfl

theorem reset_zero (t : TypeId) : reset t 0 = { type := t } := by
  unfold reset; split <;> rfl

end DataVector

/-- A batch of rows, one vector per column. -/
structure DataChunk where
  columns : List DataVector := []
  count : ℕ := 0
  deriving DecidableEq, Repr

namespace DataChunk

/-- `DataChunk::Initialize`: one empty vector for each type. -/
def initializeTypes (types : List TypeId) : DataChunk :=
  { columns := types.map fun t => DataVector.reset t 0, count := 0 }

/-- A chunk whose columns all have its row count and are well formed. -/
structure WellFormed (c : DataChunk) : Prop where
  count_le : c.count ≤ standardVectorSize
  column : ∀ col ∈ c.columns, col.WellFormed ∧ col.count = c.count

/-- Two chunks that hold the same rows, column by column. -/
structure SameRows (c d : DataChunk) : Prop where
  count : c.count = d.count
  columns : List.Forall₂ DataVector.SameRows c.columns d.columns

end DataChunk

end CppColDB
