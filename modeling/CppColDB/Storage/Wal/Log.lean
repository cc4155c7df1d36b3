import CppColDB.Storage.Wal.Chunk
import CppColDB.Transaction.UndoBuffer

/-!
# The write-ahead log

Entries are a type byte, a 32-bit payload size and the payload. Writes gather in a buffer
that `Flush` moves to the file. `WriteToWAL` writes the changes of a transaction one entry
each; nothing marks where a transaction begins or ends.
-/

namespace CppColDB

open ByteCodec

/-- Entry types. The enumeration is backed by one byte, so a value read from a log may be
one it does not name. -/
inductive WalEntryType where
  | createTable | dropTable | insert | delete | update | createSchema | dropSchema
  | checkpoint | alterTable
  | unnamed (code : UInt8) (h : code = 0 ∨ 9 < code)
  deriving DecidableEq, Repr

namespace WalEntryType

def toByte : WalEntryType → UInt8
  | createTable => 1
  | dropTable => 2
  | insert => 3
  | delete => 4
  | update => 5
  | createSchema => 6
  | dropSchema => 7
  | checkpoint => 8
  | alterTable => 9
  | unnamed code _ => code

/-- The cast from the header byte. -/
def ofByte (b : UInt8) : WalEntryType :=
  if h : b = 0 ∨ 9 < b then unnamed b h
  else match b.toNat with
    | 1 => createTable
    | 2 => dropTable
    | 3 => insert
    | 4 => delete
    | 5 => update
    | 6 => createSchema
    | 7 => dropSchema
    | 8 => checkpoint
    | _ => alterTable

@[simp] theorem ofByte_toByte (t : WalEntryType) : ofByte t.toByte = t := by
  cases t with
  | unnamed code h => simp [toByte, ofByte, h]
  | _ => rfl

end WalEntryType

/-- An entry as the replay reads it. -/
structure WalEntry where
  type : WalEntryType
  data : Bytes
  deriving DecidableEq, Repr

/-- The file and the entries not yet flushed to it. -/
structure Wal where
  file : Bytes := []
  writeBuffer : Bytes := []
  deriving DecidableEq, Repr

/-! ## Writing -/

/-- Header and payload of an entry; the size is cast to 32 bits. -/
def entryBytes (e : WalEntry) : Bytes :=
  e.type.toByte :: (leBytes 4 e.data.length ++ e.data)

namespace Wal

def appendEntry (w : Wal) (type : WalEntryType) (payload : Bytes) : Wal :=
  { w with writeBuffer := w.writeBuffer ++ entryBytes { type, data := payload } }

/-- `Flush`, when the file takes the whole buffer. -/
def flush (w : Wal) : Wal := { file := w.file ++ w.writeBuffer, writeBuffer := [] }

end Wal

def PartitionType.toByte : PartitionType → UInt8
  | none => 0
  | range => 1
  | hash => 2
  | list => 3
  | unnamed code _ => code

/-- `WriteVal`: a partition bound. The accessor of the value's type throws when the
variant holds something else; a type without an accessor here is not an integer. -/
def valueBytes (v : Value) : Except Error Bytes :=
  match v.type with
  | .varchar =>
    match v.data with
    | .str s => .ok (v.type.toByte :: str16Bytes s)
    | _ => .error Error.badVariant
  | .float32 | .float64 =>
    match v.data with
    | .float bits => .ok (v.type.toByte :: leBytes 8 bits.toNat)
    | _ => .error Error.badVariant
  | .int8 | .int16 | .int32 | .int64 =>
    match v.data with
    | .int x => .ok (v.type.toByte :: i64Bytes x)
    | _ => .error Error.badVariant
  | .boolean | .invalid | .unnamed _ _ =>
    .error (Error.runtime (text "Value::GetInt64 called on non-integer type"))

def valuesBytes (vs : List Value) : Except Error Bytes := do
  let bs ← vs.mapM valueBytes
  pure (leBytes 4 vs.length ++ bs.flatten)

/-- The partition definitions: bounds for ranges, value tuples for lists. -/
def defsBytes (pi : PartitionInfo) : Except Error Bytes :=
  match pi.type with
  | .range => do
    let bs ← pi.defs.mapM fun d => valuesBytes d.upperBounds
    pure (leBytes 4 pi.defs.length ++ bs.flatten)
  | .list => do
    let bs ← pi.defs.mapM fun d => do
      let tuples ← d.listValues.mapM valuesBytes
      pure (leBytes 4 d.listValues.length ++ tuples.flatten)
    pure (leBytes 4 pi.defs.length ++ bs.flatten)
  | .none | .hash | .unnamed _ _ => .ok []

/-- Partition metadata, in the layout that table definitions and partition changes share. -/
def partitionBytes (pi : PartitionInfo) : Except Error Bytes :=
  if pi.isPartitioned then do
    let defs ← defsBytes pi
    pure (pi.type.toByte :: (leBytes 4 pi.partitionCols.length ++
      (pi.partitionCols.flatMap str16Bytes ++ (leBytes 4 pi.numPartitions ++ defs))))
  else .ok [pi.type.toByte]

/-- A row id is one 64-bit word, the row group in its upper half. -/
def rowIdBytes (r : RowId) : Bytes := leBytes 8 (r.group * 2 ^ 32 + r.offset)

def insertPayload (schema table : Bytes) (chunk : DataChunk) : Bytes :=
  str16Bytes schema ++ (str16Bytes table ++ serializeChunk chunk)

def deletePayload (schema table : Bytes) (rowIds : List RowId) : Bytes :=
  str16Bytes schema ++ (str16Bytes table ++ (leBytes 4 rowIds.length ++ rowIds.flatMap rowIdBytes))

def updatePayload (schema table : Bytes) (colIds : List ℕ) (rowIds : List RowId)
    (newValues : DataChunk) : Bytes :=
  str16Bytes schema ++ (str16Bytes table ++
    (leBytes 4 colIds.length ++ (colIds.flatMap (leBytes 4) ++
      (leBytes 4 rowIds.length ++ (rowIds.flatMap rowIdBytes ++ serializeChunk newValues)))))

def columnBytes (col : Bytes × TypeId) : Bytes := str16Bytes col.1 ++ [col.2.toByte]

def createTablePayload (schema table : Bytes) (cols : List (Bytes × TypeId))
    (pi : PartitionInfo) : Except Error Bytes := do
  let partition ← partitionBytes pi
  pure (str16Bytes schema ++ (str16Bytes table ++
    (leBytes 4 cols.length ++ (cols.flatMap columnBytes ++ partition))))

def dropTablePayload (schema table : Bytes) : Bytes := str16Bytes schema ++ str16Bytes table

def rgIndicesBytes (rgIndices : List (List ℕ)) : Bytes :=
  leBytes 4 rgIndices.length ++
    rgIndices.flatMap fun rgs => leBytes 4 rgs.length ++ rgs.flatMap (leBytes 8)

def alterTablePayload (schema table : Bytes) (pi : PartitionInfo) (rgIndices : List (List ℕ)) :
    Except Error Bytes := do
  let partition ← partitionBytes pi
  pure (str16Bytes schema ++ (str16Bytes table ++ (partition ++ rgIndicesBytes rgIndices)))

/-- The log entry of one change, if it has one. A `Write` function that reads a column type
beyond the list of types is undefined, hence the `zip`. -/
def undoWalEntry : UndoEntry → Except Error (Option WalEntry)
  | .catalog e =>
    if e.wasCreate then do
      let data ← createTablePayload e.schema e.table (e.colNames.zip e.colTypes) e.partitionInfo
      pure (some { type := .createTable, data })
    else .ok (some { type := .dropTable, data := dropTablePayload e.schema e.table })
  | .insert e =>
    if 0 < e.insertedRows.count then
      .ok (some { type := .insert, data := insertPayload e.schema e.table e.insertedRows })
    else .ok none
  | .delete e =>
    if e.rowIds.isEmpty then .ok none
    else .ok (some { type := .delete, data := deletePayload e.schema e.table e.rowIds })
  | .update e =>
    if e.rowIds.isEmpty ∨ e.newValues.count = 0 then .ok none
    else .ok (some { type := .update
                     data := updatePayload e.schema e.table e.colIds e.rowIds e.newValues })
  | .alterPartition e => do
    let data ← alterTablePayload e.schema e.table e.newPartitionInfo e.newPartitionRgIndices
    pure (some { type := .alterTable, data })

/-- One round of the loop of `WriteToWAL`. -/
def writeUndoEntry (e : UndoEntry) : Imp Error Wal Unit := do
  match ← Imp.ofExcept (some (undoWalEntry e)) with
  | some entry => Imp.modify fun w => w.appendEntry entry.type entry.data
  | none => pure ()

/-- Write the changes of a transaction, in their order, and flush. -/
def Transaction.writeToWal (tx : Transaction) : Imp Error Wal Unit := do
  Imp.forEach tx.undoBuffer writeUndoEntry
  Imp.modify Wal.flush

end CppColDB
