import CppColDB.Execution.Pipeline
import CppColDB.Storage.Column.Contents
import CppColDB.Storage.PartitionInfo

/-!
# The hash join

The build side boxes its rows and groups them by the hash of their keys; the probe side looks
its rows up by a hash that it computes from the typed arrays, compares the boxed keys and
emits the two rows side by side. A NULL is boxed as a value that carries its column's type,
and such a value does not count as NULL any more.
-/

namespace CppColDB

open Imp

/-! ## Boxing -/

/-- The boxed form of a stored element of a column. -/
def Datum.box (type : TypeId) : Datum → Value
  | .int x => if type = .boolean then .boolean (x ≠ 0) else { type, data := .int x }
  | .float bits => { type, data := .float bits }
  | .str s => { type, data := .str s }

/-- What a column of the type stores of a boxed value. -/
def ValueData.unbox (type : TypeId) (data : ValueData) : Option Datum :=
  match type, data with
  | .boolean, .bool b => some (.int (if b then 1 else 0))
  | .int8, .int x | .int16, .int x | .int32, .int x | .int64, .int x => some (.int x)
  | .float32, .float bits | .float64, .float bits => some (.float bits)
  | .varchar, .str s => some (.str s)
  | _, _ => none

namespace DataVector

/-- `ExtractValue` and `ReadRowValue`. The box of a NULL has the type of the column and the
first alternative of the variant. -/
def extractValue (vec : DataVector) (idx : ℕ) : Option Value :=
  if standardVectorSize ≤ idx then none
  else if vec.isNull idx then some { type := vec.type }
  else match vec.type.storageClass with
    | .none => some { type := vec.type }
    | _ => (vec.datum? idx).map (Datum.box vec.type)

/-- `DataVectorAppendValue`: append a boxed value. A variant without the alternative of the
column's type throws. -/
def appendValue (dst : DataVector) (val : Value) : Option (Except Error DataVector) :=
  let i := dst.count
  if standardVectorSize ≤ i then none
  else if val.isNull then
    some (.ok { dst with count := i + 1, validity := dst.validity.put i false })
  else
    let dst := { dst with count := i + 1, validity := dst.validity.put i true }
    match dst.type.storageClass with
    | .none => some (.ok { dst with validity := dst.validity.put i (dst.type ≠ .invalid) })
    | cls =>
      match val.data.unbox dst.type with
      | none => some (.error Error.badVariant)
      | some x => ((dst.grow cls i).store i x).map .ok

end DataVector

/-! ## The hash table -/

/-- How a hash takes up the next one. -/
def combineHash (h k : UInt64) : UInt64 :=
  h ^^^ (k + (0x9e3779b9 : UInt64) + (h <<< (6 : UInt64)) + (h >>> (2 : UInt64)))

structure JoinEntry where
  key : List Value
  row : List Value
  deriving DecidableEq, Repr

/-- The build rows by the hash of their keys. -/
structure JoinHashTable where
  table : Finmap fun _ : UInt64 => List JoinEntry := ∅

namespace JoinHashTable

def hashKey (P : Platform) (key : List Value) : Except Error UInt64 :=
  key.foldlM (fun h v => do
    let k ← v.hash P
    pure (combineHash h k)) 0

def probeByHash (ht : JoinHashTable) (h : UInt64) : List JoinEntry :=
  (ht.table.lookup h).getD []

/-- The key values of a row. -/
def keyValues (keyCols : List ℕ) (input : DataChunk) (row : ℕ) : Option (List Value) :=
  keyCols.mapM fun col => do
    let vec ← input.columns[col]?
    vec.extractValue row

def insert (P : Platform) (keyCols : List ℕ) (input : DataChunk) (row : ℕ) :
    Imp Error JoinHashTable Unit := do
  let key ← ofOption (keyValues keyCols input row)
  let values ← ofOption (input.columns.mapM (·.extractValue row))
  let h ← ofExcept (some (hashKey P key))
  modify fun ht => { table := ht.table.insert h (ht.probeByHash h ++ [⟨key, values⟩]) }

/-- The hash of a row of a key column: that of the element, or 0 for NULL. -/
def columnHash (P : Platform) (vec : DataVector) (row : ℕ) : Option UInt64 :=
  if standardVectorSize ≤ row then none
  else if vec.isNull row then some 0
  else match vec.type.storageClass with
    | .int => vec.intData[row]?.map P.hashInt64
    | .float => vec.floatData[row]?.map P.hashDouble
    | .str => vec.strData[row]?.map P.hashString
    | .none => some 0

/-- `ComputeHashes` for one row. A column without values is passed over. -/
def computeHash (P : Platform) (keyCols : List ℕ) (input : DataChunk) (row : ℕ) :
    Option UInt64 :=
  keyCols.foldlM (fun h col => do
    let vec ← input.columns[col]?
    if vec.type.storageClass = .none then pure h
    else do
      let k ← columnHash P vec row
      pure (combineHash h k)) 0

end JoinHashTable

/-! ## The operators -/

/-- `PhysicalHashJoinBuild::Consume`. -/
def joinConsume (P : Platform) (keyCols : List ℕ) (input : DataChunk) :
    Imp Error JoinHashTable Unit :=
  forEach (List.range input.count) fun row => JoinHashTable.insert P keyCols input row

/-- Where a probe call resumes. -/
structure JoinProbeState where
  probeRowIdx : ℕ := 0
  matchIdx : ℕ := 0
  deriving DecidableEq, Repr

/-- Append the values of a build row to the output columns. -/
def appendValues : List DataVector → List Value → Option (Except Error (List DataVector))
  | outs, [] => some (.ok outs)
  | [], _ :: _ => none
  | out :: outs, v :: vs =>
    match out.appendValue v with
    | none => none
    | some (.error e) => some (.error e)
    | some (.ok out) => (appendValues outs vs).map fun r => r.map (out :: ·)

/-- `EmitMatchRow` on the output columns: the probe row, and after it the build row. -/
def emitColumns (leftRow : ℕ) (right : List Value) :
    List DataVector → List DataVector → Option (Except Error (List DataVector))
  | outs, [] => appendValues outs right
  | [], _ :: _ => none
  | out :: outs, left :: lefts =>
    match out.append left leftRow with
    | none => none
    | some out => (emitColumns leftRow right outs lefts).map fun r => r.map (out :: ·)

def emitMatchRow (left : DataChunk) (leftRow : ℕ) (right : List Value) :
    Imp Error DataChunk Unit := do
  let out ← get
  let columns ← ofExcept (emitColumns leftRow right out.columns left.columns)
  set { columns, count := out.count + 1 }

/-- The comparison of a probe key with the key of a candidate. -/
def keysEqual : List Value → List Value → Option (Except Error Bool)
  | [], _ => some (.ok true)
  | _ :: _, [] => none
  | a :: as, b :: bs =>
    match a.eq b with
    | .error e => some (.error e)
    | .ok false => some (.ok false)
    | .ok true => keysEqual as bs

/-- The candidates of a probe row, the first of which has index `midx`. Returns the index to
resume at if the output is full. -/
def probeCandidates (left : DataChunk) (leftRow : ℕ) (key : List Value) :
    List JoinEntry → ℕ → Imp Error DataChunk (Option ℕ)
  | [], _ => pure none
  | e :: es, midx => do
    if ← ofExcept (keysEqual key e.key) then emitMatchRow left leftRow e.row
    let out ← get
    if out.count = standardVectorSize then pure (some (midx + 1))
    else probeCandidates left leftRow key es (midx + 1)

/-- The probe rows from a position on. -/
def probeRows (P : Platform) (ht : JoinHashTable) (keyCols : List ℕ) (input : DataChunk) :
    List ℕ → ℕ → Imp Error DataChunk (OperatorResultType × JoinProbeState)
  | [], _ => pure (.needMoreInput, {})
  | row :: rows, midx => do
    let h ← ofOption (JoinHashTable.computeHash P keyCols input row)
    if ht.probeByHash h = [] then probeRows P ht keyCols input rows 0
    else do
      let key ← ofOption (JoinHashTable.keyValues keyCols input row)
      match ← probeCandidates input row key ((ht.probeByHash h).drop midx) midx with
      | some midx => pure (.haveMoreOutput, { probeRowIdx := row, matchIdx := midx })
      | none => probeRows P ht keyCols input rows 0

/-- The output chunk of a call: its columns have room for a vector of rows. -/
def joinOutput (outputTypes : List TypeId) : DataChunk :=
  { columns := outputTypes.map fun type => (DataVector.reset type 0).reserve standardVectorSize }

/-- `PhysicalHashJoinProbe::Execute`. -/
def joinExecute (P : Platform) (ht : JoinHashTable) (keyCols : List ℕ) (outputTypes : List TypeId)
    (input : DataChunk) (state : JoinProbeState) :
    Option (Except Error (OperatorResultType × JoinProbeState) × DataChunk) :=
  probeRows P ht keyCols input
    (List.range' state.probeRowIdx (input.count - state.probeRowIdx)) state.matchIdx
    (joinOutput outputTypes)

/-- The calls on one probe chunk: again while there is more output. -/
def probeChunk (P : Platform) (ht : JoinHashTable) (keyCols : List ℕ) (outputTypes : List TypeId)
    (input : DataChunk) : ℕ → JoinProbeState → Option (Except Error (List DataChunk))
  | 0, _ => none
  | fuel + 1, state =>
    match joinExecute P ht keyCols outputTypes input state with
    | none => none
    | some (.error e, _) => some (.error e)
    | some (.ok (.haveMoreOutput, state), out) =>
      (probeChunk P ht keyCols outputTypes input fuel state).map fun r => r.map (out :: ·)
    | some (.ok (_, _), out) => some (.ok [out])

/-- All the probe chunks. -/
def probeChunks (P : Platform) (ht : JoinHashTable) (keyCols : List ℕ) (outputTypes : List TypeId)
    (fuel : ℕ) : List DataChunk → Option (Except Error (List DataChunk))
  | [] => some (.ok [])
  | input :: inputs =>
    match probeChunk P ht keyCols outputTypes input fuel {} with
    | none => none
    | some (.error e) => some (.error e)
    | some (.ok outs) =>
      (probeChunks P ht keyCols outputTypes fuel inputs).map fun r => r.map (outs ++ ·)

/-- The join of some build chunks and some probe chunks. -/
def hashJoin (P : Platform) (leftKeys rightKeys : List ℕ) (outputTypes : List TypeId)
    (probe build : List DataChunk) (fuel : ℕ) : Option (Except Error (List DataChunk)) :=
  match forEach build (joinConsume P rightKeys) {} with
  | none => none
  | some (.error e, _) => some (.error e)
  | some (.ok (), ht) => probeChunks P ht leftKeys outputTypes fuel probe

end CppColDB
