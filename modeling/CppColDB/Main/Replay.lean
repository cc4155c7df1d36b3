import CppColDB.Storage.PartitionCodec
import CppColDB.Storage.Wal.Prefix
import CppColDB.Transaction.Session

/-!
# Replay of the log

`ReplayWAL` decodes the entries after the last checkpoint marker one by one and re-runs each
in a transaction of its own, which is rolled back if it throws. Rows go through the undo
buffer as in a statement; definitions of tables do not.

The decoder of chunks is a parameter; that of the program is `deserializeChunkPayload`.
Reading past the end of a payload is undefined.
-/

namespace CppColDB

open ByteCodec Catalog Imp Reader

/-! ## Payloads -/

/-- The index of each key column among the columns of a table; a name that is not there is
left out. -/
def resolveKeys (columns : List ColumnDefinition) (partitionCols : List Bytes) : List ℤ :=
  partitionCols.filterMap fun name => (columns.findIdx? (·.name = name)).map Int.ofNat

structure CreatePayload where
  schema : Bytes
  table : Bytes
  columns : List ColumnDefinition
  partitionInfo : PartitionInfo

/-- A column of a `CREATE TABLE` entry; NOT NULL is not logged. -/
def readLoggedColumn : Reader ColumnDefinition := do
  let name ← str16
  let type ← byte
  pure { name, type := TypeId.ofByte type }

def readCreate : Reader CreatePayload := do
  let schema ← str16
  let table ← str16
  let columns ← list32 readLoggedColumn
  let pi ← readPartition
  pure { schema, table, columns
         partitionInfo := { pi with partitionColIdxs := resolveKeys columns pi.partitionCols } }

def readDrop : Reader (Bytes × Bytes) := do
  let schema ← str16
  let table ← str16
  pure (schema, table)

def readInsert (decode : Reader DataChunk) : Reader (Bytes × Bytes × DataChunk) := do
  let schema ← str16
  let table ← str16
  let chunk ← decode
  pure (schema, table, chunk)

/-- A row id; `RowIdGroup` and `RowIdOffset` are its halves. -/
def readRowId : Reader RowId := do
  let id ← le 8
  pure { group := id / 2 ^ 32, offset := id % 2 ^ 32 }

def readDelete : Reader (Bytes × Bytes × List RowId) := do
  let schema ← str16
  let table ← str16
  let rowIds ← list32 readRowId
  pure (schema, table, rowIds)

structure UpdatePayload where
  schema : Bytes
  table : Bytes
  colIds : List ℕ
  rowIds : List RowId
  newValues : DataChunk

def readUpdate (decode : Reader DataChunk) : Reader UpdatePayload := do
  let schema ← str16
  let table ← str16
  let colIds ← list32 (le 4)
  let rowIds ← list32 readRowId
  let newValues ← decode
  pure { schema, table, colIds, rowIds, newValues }

structure AlterPayload where
  schema : Bytes
  table : Bytes
  partitionInfo : PartitionInfo
  rgIndices : List (List ℕ)

def readAlter : Reader AlterPayload := do
  let schema ← str16
  let table ← str16
  let partitionInfo ← readPartition
  let rgIndices ← list32 (list32 (le 8))
  pure { schema, table, partitionInfo, rgIndices }

/-! ## One entry -/

namespace Database

/-- A transaction of its own: it commits, or rolls back if something throws. -/
def replayTransaction (body : Snapshot → Imp Error Database Unit) : Imp Error Database Unit := do
  let db ← get
  let tx := (db.newTransaction true).toSnapshot
  modify fun db => db.beginTransaction true
  catchAll
    (do
      body tx
      let tx ← transaction tx.txId
      commit tx)
    (do
      let tx ← transaction tx.txId
      rollback tx)

def replayCreate (e : CreatePayload) : Imp Error Database Unit :=
  replayTransaction fun tx =>
    onCatalog (createTable e.schema e.table e.columns tx e.partitionInfo)

def replayDrop (schema table : Bytes) : Imp Error Database Unit :=
  replayTransaction fun tx => onCatalog (dropTable schema table tx)

/-- The keys of row `i` by the first eight key columns. NULL is not looked at. -/
def replayKeys (chunk : DataChunk) (i : ℕ) (keyCols : List ℤ) :
    Option (Except Error (List Value)) :=
  ((keyCols.take 8).mapM fun (key : ℤ) => do
    let vec ← if 0 ≤ key then chunk.columns[key.toNat]? else none
    partitionKey vec i).map .ok

/-- The rows of a `WAL_INSERT` entry. They are routed as in an INSERT, and not sorted. -/
def replayRows (P : Platform) (tx : Snapshot) (r : TableRef) (chunk : DataChunk) :
    Imp Error Database Unit := do
  let db ← get
  let t ← ofOption (db.catalog.table? r)
  let colIds := List.range t.columns.length
  if t.partitionInfo.isPartitioned then do
    let parts ← ofExcept (byPartition P t.partitionInfo
      (fun i => replayKeys chunk i t.partitionInfo.partitionColIdxs) (List.range chunk.count) [])
    forEach (traverse P parts) fun (pid, rows) => appendPartition tx r chunk colIds pid rows
  else insertPlain tx r chunk colIds

def replayInsert (P : Platform) (schema table : Bytes) (chunk : DataChunk) :
    Imp Error Database Unit :=
  replayTransaction fun tx => do
    let db ← get
    match db.catalog.getTable schema table tx with
    | none => pure ()
    | some r => replayRows P tx r chunk

def replayDelete (schema table : Bytes) (rowIds : List RowId) : Imp Error Database Unit :=
  replayTransaction fun tx => do
    let db ← get
    match db.catalog.getTable schema table tx with
    | none => pure ()
    | some r => do
      modify fun db => db.withCatalog
        (db.catalog.forRows r rowIds fun off vi => vi.markDeleted off tx.txId)
      modify fun db => db.pushUndo tx.txId (.delete { schema, table, rowIds })

/-- One column of one row of a `WAL_UPDATE` entry: the old value, and the new one in its
place. -/
def replayCell (r : TableRef) (row : RowId) (col : ℕ) (new : DataVector) (i : ℕ)
    (olds : DataVector × DataVector) : Imp Error Database (DataVector × DataVector) := do
  let db ← get
  let rg ← ofOption (db.catalog.rowGroup? r row.group)
  let cc ← ofOption rg.columnChunks[col]?
  let cur ← ofOption (cc.scan row.offset 1)
  let old ← ofOption (olds.1.append cur 0)
  onCatalog (onRowGroup r row.group
    (RowGroup.onColumn col (ColumnChunk.writeRow row.offset new i)))
  let new ← ofOption (olds.2.append new i)
  pure (old, new)

/-- The columns of one row. -/
def replayCells (r : TableRef) (row : RowId) (i : ℕ) :
    List (ℕ × DataVector) → List (DataVector × DataVector) →
      Imp Error Database (List (DataVector × DataVector))
  | [], _ => pure []
  | _ :: _, [] => undefined
  | (col, new) :: cols, olds :: rest => do
    let olds ← replayCell r row col new i olds
    let rest ← replayCells r row i cols rest
    pure (olds :: rest)

/-- The rows of a `WAL_UPDATE` entry: those that were written, with their old and new
values. A row of a row group that the table does not have is skipped. -/
def replayUpdatedRows (tx : Snapshot) (r : TableRef) (cols : List (ℕ × DataVector)) :
    List (RowId × ℕ) → List RowId × List (DataVector × DataVector) →
      Imp Error Database (List RowId × List (DataVector × DataVector))
  | [], done => pure done
  | (row, i) :: rows, (applied, olds) => do
    let db ← get
    if (db.catalog.rowGroup? r row.group).isNone then
      replayUpdatedRows tx r cols rows (applied, olds)
    else do
      let olds ← replayCells r row i cols olds
      modify fun db => db.withCatalog (db.catalog.modifyVersionInfo r row.group fun vi =>
        vi.markUpdated row.offset tx.txId)
      replayUpdatedRows tx r cols rows (applied ++ [row], olds)

def replayUpdate (e : UpdatePayload) : Imp Error Database Unit :=
  replayTransaction fun tx => do
    let db ← get
    match db.catalog.getTable e.schema e.table tx with
    | none => pure ()
    | some r =>
      if e.rowIds.length = e.newValues.count ∧ e.colIds.length = e.newValues.columns.length then
        do
        let t ← ofOption (db.catalog.table? r)
        let types ← ofOption (e.colIds.mapM fun c => t.columns[c]?.map ColumnDefinition.type)
        let (applied, values) ← replayUpdatedRows tx r (e.colIds.zip e.newValues.columns)
          e.rowIds.zipIdx ([], types.map fun type =>
            (DataVector.reset type 0, DataVector.reset type 0))
        if applied.isEmpty then pure ()
        else modify fun db => db.pushUndo tx.txId (.update
          { schema := e.schema, table := e.table, rowIds := applied, colIds := e.colIds
            oldValues := { columns := values.map Prod.fst, count := applied.length }
            newValues := { columns := values.map Prod.snd, count := applied.length } })
      else pure ()

/-- The key columns of a changed partitioning are looked up in a transaction that is rolled
back at once. -/
def resolvePartition (e : AlterPayload) : Imp Error Database PartitionInfo := do
  if e.partitionInfo.isPartitioned then do
    let db ← get
    let tx := db.newTransaction true
    modify fun db => db.beginTransaction true
    rollback tx
    match db.catalog.getTable e.schema e.table tx.toSnapshot with
    | none => pure e.partitionInfo
    | some r => do
      let t ← ofOption (db.catalog.table? r)
      pure { e.partitionInfo with
        partitionColIdxs := resolveKeys t.columns e.partitionInfo.partitionCols }
  else pure e.partitionInfo

def replayAlter (e : AlterPayload) : Imp Error Database Unit := do
  let pi ← resolvePartition e
  replayTransaction fun tx => modify fun db => db.withCatalog
    (db.catalog.restorePartitionState e.schema e.table pi e.rgIndices tx)

/-- The payload of an entry. -/
def parse {α : Type} (r : Reader α) (data : Bytes) : Imp Error Database α :=
  ofOption ((r data).map Prod.fst)

/-- One entry of the loop of `ReplayWAL`. -/
def replayEntry (P : Platform) (decode : Reader DataChunk) (e : WalEntry) :
    Imp Error Database Unit :=
  match e.type with
  | .createTable => do replayCreate (← parse readCreate e.data)
  | .dropTable => do
    let (schema, table) ← parse readDrop e.data
    replayDrop schema table
  | .insert => do
    let (schema, table, chunk) ← parse (readInsert decode) e.data
    replayInsert P schema table chunk
  | .delete => do
    let (schema, table, rowIds) ← parse readDelete e.data
    replayDelete schema table rowIds
  | .update => do replayUpdate (← parse (readUpdate decode) e.data)
  | .alterTable => do replayAlter (← parse readAlter e.data)
  | .createSchema | .dropSchema | .checkpoint | .unnamed _ _ => pure ()

/-- `ReplayWAL` on the given entries. -/
def replayEntries (P : Platform) (decode : Reader DataChunk) (es : List WalEntry) :
    Imp Error Database Unit :=
  forEach es (replayEntry P decode)

/-- `ReplayWAL` on a log file. -/
def replayWal (P : Platform) (decode : Reader DataChunk) (file : Bytes) :
    Imp Error Database Unit := do
  let es ← ofExcept (some (replayedEntries file))
  replayEntries P decode es

end Database

end CppColDB
