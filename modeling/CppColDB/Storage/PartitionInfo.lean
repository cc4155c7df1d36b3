import CppColDB.Common.Value

/-!
# Partition metadata and routing

`PartitionInfo::RouteRow` and what the program takes from the standard library without a
specified result: hash values, the text of a double, the order in which a hash map is
traversed and the order `std::sort` gives to equal elements.
-/

namespace CppColDB

open ByteCodec

/-- What the standard library leaves open. -/
structure Platform where
  hashInt64 : Int64 → UInt64
  hashDouble : UInt64 → UInt64
  /-- Equal doubles have equal hashes, the two zeros too. -/
  hashDouble_eq : ∀ a b, Double.eq a b = true → hashDouble a = hashDouble b
  hashBool : Bool → UInt64
  hashString : Bytes → UInt64
  doubleToString : UInt64 → Bytes
  /-- The order in which a hash map with the given keys is traversed. -/
  traversal : List ℕ → List ℕ
  traversal_perm : ∀ keys, (traversal keys).Perm keys
  /-- `std::sort` with the given comparison. -/
  sort : (ℕ → ℕ → Bool) → List ℕ → List ℕ
  sort_perm : ∀ lt xs, (sort lt xs).Perm xs

/-- A platform that keeps every order it is given. -/
def Platform.plain : Platform where
  hashInt64 _ := 0
  hashDouble _ := 0
  hashDouble_eq _ _ _ := rfl
  hashBool _ := 0
  hashString _ := 0
  doubleToString _ := []
  traversal keys := keys
  traversal_perm _ := .refl _
  sort _ xs := xs
  sort_perm _ _ := .refl _

/-- How a table is partitioned. The enumeration is backed by one byte, so a value read
from a log may be one it does not name. -/
inductive PartitionType where
  | none | range | hash | list
  | unnamed (code : UInt8) (h : 3 < code)
  deriving DecidableEq, Repr

/-- One partition. No upper bounds means that a range partition is open above. -/
structure PartitionDef where
  upperBounds : List Value := []
  listValues : List (List Value) := []
  deriving DecidableEq, Repr

structure PartitionInfo where
  type : PartitionType := .none
  partitionCols : List Bytes := []
  partitionColIdxs : List ℤ := []
  numPartitions : ℕ := 0
  defs : List PartitionDef := []
  deriving DecidableEq, Repr

namespace Value

/-- `ValueHash`. -/
def hash (P : Platform) (v : Value) : Except Error UInt64 :=
  match v.type, v.data with
  | .int8, .int x | .int16, .int x | .int32, .int x | .int64, .int x => .ok (P.hashInt64 x)
  | .float32, .float x | .float64, .float x => .ok (P.hashDouble x)
  | .boolean, .bool x => .ok (P.hashBool x)
  | .varchar, .str x => .ok (P.hashString x)
  | .invalid, _ | .unnamed _ _, _ => .ok 0
  | _, _ => .error Error.badVariant

/-- `Value::ToString`. -/
def toText (P : Platform) (v : Value) : Except Error Bytes :=
  match v.type, v.data with
  | .int8, .int x | .int16, .int x | .int32, .int x | .int64, .int x =>
    .ok (text (toString x.toInt))
  | .float32, .float x | .float64, .float x => .ok (P.doubleToString x)
  | .boolean, .bool x => .ok (text (if x then "true" else "false"))
  | .varchar, .str x => .ok x
  | .invalid, _ | .unnamed _ _, _ => .ok (text "NULL")
  | _, _ => .error Error.badVariant

end Value

namespace PartitionInfo

def isPartitioned (pi : PartitionInfo) : Bool := pi.type ≠ .none

/-- The column loop of the range case: whether the keys fall below the bounds. Keys equal
to the bounds in every compared column count as below. -/
def belowBounds : List Value → List Value → Except Error Bool
  | [], _ | _, [] => .ok false
  | key :: keys, ub :: ubs => do
    if ← key.lt ub then pure true
    else if ← ub.lt key then pure false
    else if keys.isEmpty || ubs.isEmpty then pure true
    else belowBounds keys ubs

/-- The first range partition, counting from `i`, that takes the keys. -/
def routeRange (keys : List Value) : ℕ → List PartitionDef → Except Error (Option ℕ)
  | _, [] => .ok none
  | i, d :: defs => do
    if d.upperBounds.isEmpty then pure (some i)
    else if ← belowBounds keys d.upperBounds then pure (some i)
    else routeRange keys (i + 1) defs

/-- Keys and tuple agree in every column both have. -/
def matchesTuple : List Value → List Value → Except Error Bool
  | key :: keys, v :: vs => do
    if ← key.eq v then matchesTuple keys vs else pure false
  | _, _ => .ok true

def matchesAny (keys : List Value) : List (List Value) → Except Error Bool
  | [] => .ok false
  | tuple :: tuples => do
    if ← matchesTuple keys tuple then pure true else matchesAny keys tuples

/-- The first list partition, counting from `i`, that names the keys. -/
def routeList (keys : List Value) : ℕ → List PartitionDef → Except Error (Option ℕ)
  | _, [] => .ok none
  | i, d :: defs => do
    if ← matchesAny keys d.listValues then pure (some i) else routeList keys (i + 1) defs

/-- The combined hash of a key tuple, from `h` on. -/
def hashKeys (P : Platform) : UInt64 → List Value → Except Error UInt64
  | h, [] => .ok h
  | h, key :: keys => do
    let k ← key.hash P
    hashKeys P (h * 31 + k) keys

/-- The partition of a key tuple. No result is undefined behaviour: a remainder by zero
partitions. -/
def routeRow (P : Platform) (pi : PartitionInfo) (keys : List Value) : Option (Except Error ℕ) :=
  if keys.any Value.isNull then some (.error (Error.runtime (text "partition key must not be NULL")))
  else match pi.type with
    | .range => some do
        match ← routeRange keys 0 pi.defs with
        | some i => pure i
        | none => pure ((2 ^ 32 + pi.defs.length - 1) % 2 ^ 32)
    | .hash =>
      if pi.numPartitions = 0 then none
      else some do
        let h ← hashKeys P 0 keys
        pure (h.toNat % pi.numPartitions % 2 ^ 32)
    | .list => some do
        match ← routeList keys 0 pi.defs with
        | some i => pure i
        | none => do
          let shown ← (keys.headD {}).toText P
          throw (Error.runtime
            (text "INSERT: value does not match any LIST partition: " ++ shown))
    | .none | .unnamed _ _ => some (.ok 0)

end PartitionInfo

end CppColDB
