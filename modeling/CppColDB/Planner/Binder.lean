import CppColDB.Catalog.Table

/-!
# The binder

The parts of `Binder` that decide what reaches storage: the target columns of an `INSERT`
and the partitioning of a `CREATE TABLE`.
-/

namespace CppColDB

open ByteCodec Except

/-- `FindColumn`: the first column of the name. -/
def findColumn (columns : List ColumnDefinition) (name : Bytes) : Option ℕ :=
  columns.findIdx? (·.name = name)

namespace Binder

/-- The target columns of `BindInsert`: all of them, or those the statement names. -/
def insertColumnIds (columns : List ColumnDefinition) (columnNames : List Bytes) :
    Except Error (List ℕ) :=
  if columnNames.isEmpty then .ok (List.range columns.length)
  else columnNames.mapM fun name =>
    match findColumn columns name with
    | some i => .ok i
    | none => .error (Error.bind (text "column not found in table: " ++ name))

/-! ## Partition clauses -/

/-- A parsed bound of a partition: a literal, or an expression of another kind. -/
inductive BoundExpr where
  | integer (v : Int64)
  | float (bits : UInt64)
  | string (s : Bytes)
  | other
  deriving DecidableEq, Repr

/-- A parsed tuple of bounds. `ParseBoundTuple` reads at least one. -/
structure BoundTuple where
  first : BoundExpr
  rest : List BoundExpr := []
  deriving DecidableEq, Repr

/-- The partition clause of a `CREATE TABLE`. -/
inductive PartitionClause where
  | none
  | range (cols : List Bytes) (bounds : List BoundTuple)
  | hash (cols : List Bytes) (count : UInt32)
  | list (cols : List Bytes) (values : List (List BoundTuple))
  deriving DecidableEq, Repr

/-- `ExprToValue`: the literal as a value of a key column. A number takes the column's type
whatever its own. -/
def exprToValue (type : TypeId) : BoundExpr → Except Error Value
  | .integer v => .ok { type, data := .int v }
  | .float bits => .ok { type, data := .float bits }
  | .string s => .ok (.varchar s)
  | .other => .error (Error.bind (text "partition bound must be a literal constant"))

/-- The types of the key columns. -/
def keyTypes (columns : List ColumnDefinition) (keys : List ℕ) : List TypeId :=
  keys.map fun i => ((columns[i]?).map ColumnDefinition.type).getD .invalid

/-- The values of a tuple, as many as there are key columns. -/
def tupleValues (types : List TypeId) (tuple : BoundTuple) : Except Error (List Value) :=
  (types.zip (tuple.first :: tuple.rest)).mapM fun (type, e) => exprToValue type e

/-- `LexLess`: lexicographic order, a proper initial part being smaller. -/
def lexLess : List Value → List Value → Except Error Bool
  | a :: as, b :: bs => do
    if ← a.lt b then pure true
    else if ← b.lt a then pure false
    else lexLess as bs
  | as, bs => .ok (as.length < bs.length)

/-- The key columns of a partition clause. -/
def partitionKeys (columns : List ColumnDefinition) (cols : List Bytes) :
    Except Error (List ℕ) :=
  if cols.isEmpty then .error (Error.bind (text "partition clause has no key columns"))
  else cols.mapM fun col =>
    match findColumn columns col with
    | some i => .ok i
    | none => .error (Error.bind (text "partition column not found: " ++ col))

/-- The bounds of range partitions are strictly increasing. -/
def checkBounds : List (List Value) → Except Error Unit
  | a :: b :: bounds => do
    if ← lexLess a b then checkBounds (b :: bounds)
    else throw (Error.bind (text "RANGE partition bounds must be strictly increasing"))
  | _ => .ok ()

/-- The partitioning that `BindCreateTable` makes of a partition clause. -/
def bindPartition (columns : List ColumnDefinition) (clause : PartitionClause) :
    Except Error PartitionInfo :=
  match clause with
  | .none => .ok {}
  | .range cols bounds => do
    let keys ← partitionKeys columns cols
    if bounds.isEmpty then
      throw (Error.bind (text "RANGE partitioning requires at least one bound"))
    else do
      let upperBounds ← bounds.mapM (tupleValues (keyTypes columns keys))
      checkBounds upperBounds
      pure { type := .range, partitionCols := cols, partitionColIdxs := keys.map Int.ofNat
             numPartitions := bounds.length + 1
             defs := (upperBounds.map fun ub => { upperBounds := ub }) ++ [{}] }
  | .hash cols count => do
    let keys ← partitionKeys columns cols
    if count < 1 then throw (Error.bind (text "HASH partitioning requires PARTITIONS >= 1"))
    else pure { type := .hash, partitionCols := cols, partitionColIdxs := keys.map Int.ofNat
                numPartitions := count.toNat }
  | .list cols values => do
    let keys ← partitionKeys columns cols
    if values.isEmpty then
      throw (Error.bind (text "LIST partitioning requires at least one partition"))
    else do
      let defs ← values.mapM fun tuples => do
        let listValues ← tuples.mapM (tupleValues (keyTypes columns keys))
        pure { listValues }
      pure { type := .list, partitionCols := cols, partitionColIdxs := keys.map Int.ofNat
             numPartitions := values.length, defs }

/-! ## What is accepted -/

variable {columns : List ColumnDefinition} {clause : PartitionClause} {pi : PartitionInfo}

theorem partitionKeys_ne_nil {cols : List Bytes} {keys : List ℕ}
    (h : partitionKeys columns cols = .ok keys) : keys ≠ [] := by
  rw [partitionKeys] at h
  split at h
  next => cases h
  next hne =>
    have hlen := (mapM_eq_ok_iff.mp h).length_eq
    rintro rfl
    simp_all

theorem tupleValues_ne_nil {types : List TypeId} (hne : types ≠ []) {tuple : BoundTuple}
    {vs : List Value} (h : tupleValues types tuple = .ok vs) : vs ≠ [] := by
  have hlen := (mapM_eq_ok_iff.mp h).length_eq
  rintro rfl
  cases types <;> simp_all

/-- What holds of an accepted partitioning: range partitions end with an open one, and list
partitions name tuples with at least one value. -/
inductive Accepted (pi : PartitionInfo) : Prop
  | range (htype : pi.type = .range) (hn : pi.numPartitions = pi.defs.length)
      (hopen : ∃ d ∈ pi.defs, d.upperBounds = [])
  | hash (htype : pi.type = .hash) (hpos : 0 < pi.numPartitions) (hn : pi.numPartitions < 2 ^ 32)
  | list (htype : pi.type = .list) (hn : pi.numPartitions = pi.defs.length)
      (htuples : ∀ d ∈ pi.defs, ∀ t ∈ d.listValues, t ≠ [])

theorem accepted_of_bindPartition (h : bindPartition columns clause = .ok pi)
    (hp : pi.isPartitioned) : pi.partitionColIdxs ≠ [] ∧ Accepted pi := by
  cases clause with
  | none =>
    cases h
    exact absurd hp (by decide)
  | range cols bounds =>
    rw [bindPartition, bind_eq_ok_iff] at h
    obtain ⟨keys, hkeys, h⟩ := h
    split at h
    · cases h
    · obtain ⟨ubs, hubs, h⟩ := bind_eq_ok_iff.mp h
      obtain ⟨_, _, h⟩ := bind_eq_ok_iff.mp h
      cases h
      refine ⟨by simpa using partitionKeys_ne_nil hkeys, .range rfl ?_ ⟨{}, by simp, rfl⟩⟩
      simp [(mapM_eq_ok_iff.mp hubs).length_eq]
  | hash cols count =>
    rw [bindPartition, bind_eq_ok_iff] at h
    obtain ⟨keys, hkeys, h⟩ := h
    split at h
    next => cases h
    next hcount =>
      cases h
      refine ⟨by simpa using partitionKeys_ne_nil hkeys, .hash rfl ?_ count.toNat_lt⟩
      have hle := UInt32.not_lt.mp hcount
      exact UInt32.le_iff_toNat_le.mp hle
  | list cols values =>
    rw [bindPartition, bind_eq_ok_iff] at h
    obtain ⟨keys, hkeys, h⟩ := h
    split at h
    · cases h
    · obtain ⟨defs, hdefs, h⟩ := bind_eq_ok_iff.mp h
      cases h
      have hne := partitionKeys_ne_nil hkeys
      rw [mapM_eq_ok_iff] at hdefs
      refine ⟨by simpa using hne, .list rfl hdefs.length_eq fun d hd t ht => ?_⟩
      obtain ⟨tuples, _, hdef⟩ := hdefs.exists_of_mem_right hd
      obtain ⟨listValues, hlist, hdef⟩ := bind_eq_ok_iff.mp hdef
      cases hdef
      obtain ⟨tuple, _, htuple⟩ := (mapM_eq_ok_iff.mp hlist).exists_of_mem_right ht
      exact tupleValues_ne_nil (by simpa [keyTypes] using hne) htuple

end Binder

end CppColDB
