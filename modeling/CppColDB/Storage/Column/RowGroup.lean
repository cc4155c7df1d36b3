import CppColDB.Storage.Column.ColumnChunk
import CppColDB.Storage.Column.VersionInfo

/-!
# Row groups

A horizontal slice of a table: one `ColumnChunk` per column, the version markers of its
rows, and the start of the most recent append. `CommitAppend` and `RevertAppend` act on
the rows from that start to the end, whoever appended them.
-/

namespace CppColDB

structure RowGroup where
  rowGroupId : ℕ
  colTypes : List TypeId
  columnChunks : List ColumnChunk
  rowCount : ℕ := 0
  versionInfo : VersionInfo := {}
  pendingAppendStart : ℕ := 0
  pendingAppendTxId : TransactionId := invalidTransaction

namespace RowGroup

/-- A row group without rows. -/
def create (rowGroupId : ℕ) (colTypes : List TypeId) (blockSize : ℕ) : RowGroup :=
  { rowGroupId, colTypes, columnChunks := colTypes.map fun type => { type, blockSize } }

/-- A call on the version markers. -/
def mapVersionInfo (f : VersionInfo → VersionInfo) (rg : RowGroup) : RowGroup :=
  { rg with versionInfo := f rg.versionInfo }

/-! ## Appending -/

/-- The column loop of `Append`: column `ci` of the chunk goes to column `colIds[ci]`. -/
def appendColumns (chunk : DataChunk) (colIds : List ℕ) (chunks : List ColumnChunk) :
    Option (List ColumnChunk) :=
  colIds.zipIdx.foldlM (fun chunks (colId, ci) => do
    let vec ← chunk.columns[ci]?
    let cc ← chunks[colId]?
    let cc ← cc.appendFromVector vec chunk.count
    pure (chunks.set colId cc)) chunks

/-- Mark `count` rows from `start` on as inserted. -/
def markRows (txId : TransactionId) (start count : ℕ) (vi : VersionInfo) : VersionInfo :=
  (List.range' start count).foldl (fun vi i => vi.markInserted i txId) vi

def append (rg : RowGroup) (chunk : DataChunk) (colIds : List ℕ) (txId : TransactionId) :
    Option RowGroup := do
  let columnChunks ← appendColumns chunk colIds rg.columnChunks
  pure { rg with
    pendingAppendStart := rg.rowCount
    pendingAppendTxId := txId
    columnChunks
    versionInfo := if txId = invalidTransaction then rg.versionInfo
      else markRows txId rg.rowCount chunk.count rg.versionInfo
    rowCount := rg.rowCount + chunk.count }

/-- What `Append` leaves when `AllocateBlock` throws: column `colIds[ci]` has rows left to copy
after `rounds` rounds of its loop, and its pending rows cannot be flushed. -/
def appendThrows (rg : RowGroup) (chunk : DataChunk) (colIds : List ℕ) (txId : TransactionId)
    (ci rounds : ℕ) : Option RowGroup := do
  let columnChunks ← appendColumns chunk (colIds.take ci) rg.columnChunks
  let c ← colIds[ci]?
  let vec ← chunk.columns[ci]?
  let cc ← columnChunks[c]?
  let cc' ← ColumnChunk.appendLoop vec chunk.count rounds 0 cc
  if cc'.rowCount < cc.rowCount + chunk.count ∧ standardVectorSize ≤ cc'.pendingData.count then
    pure { rg with
      pendingAppendStart := rg.rowCount
      pendingAppendTxId := txId
      columnChunks := columnChunks.set c cc' }
  else none

/-- The rows `CommitAppend` and `RevertAppend` loop over. -/
def pendingRows (rg : RowGroup) : List ℕ :=
  List.range' rg.pendingAppendStart (rg.rowCount - rg.pendingAppendStart)

def commitAppend (rg : RowGroup) (commitTime : Timestamp) : RowGroup :=
  { rg with
    versionInfo := rg.pendingRows.foldl (fun vi i => vi.commitInsert i commitTime) rg.versionInfo }

/-- What `RevertAppend` cuts off a column. Rows that were flushed meanwhile stay. -/
def revertColumn (start : ℕ) (cc : ColumnChunk) : ColumnChunk :=
  if cc.segmentRowCount ≤ start then cc.truncatePending (start - cc.segmentRowCount)
  else cc.truncatePending 0

def revertAppend (rg : RowGroup) : RowGroup :=
  { rg with
    versionInfo := rg.pendingRows.foldl (fun vi i => vi.revertInsert i) rg.versionInfo
    columnChunks := rg.columnChunks.map (revertColumn rg.pendingAppendStart)
    rowCount := rg.pendingAppendStart }

def flush (rg : RowGroup) : Option RowGroup := do
  let columnChunks ← rg.columnChunks.mapM ColumnChunk.flush
  pure { rg with columnChunks }

/-- What `Flush` leaves when `AllocateBlock` throws after the first `n` columns. -/
def flushThrows (rg : RowGroup) (n : ℕ) : Option RowGroup := do
  let columnChunks ← (rg.columnChunks.take n).mapM ColumnChunk.flush
  pure { rg with columnChunks := columnChunks ++ rg.columnChunks.drop n }

/-- A call on one of the columns, such as an update in place. -/
def modifyColumn (c : ℕ) (f : ColumnChunk → Option ColumnChunk) (rg : RowGroup) :
    Option RowGroup := do
  let cc ← rg.columnChunks[c]?
  let cc ← f cc
  pure { rg with columnChunks := rg.columnChunks.set c cc }

/-! ## Scanning -/

/-- The unfiltered batch: the given columns of up to a vector of rows. -/
def readBatch (rg : RowGroup) (rowOffset : ℕ) (colIds : List ℕ) : Option DataChunk := do
  let rowsToRead := min standardVectorSize (rg.rowCount - rowOffset)
  let columns ← colIds.mapM fun c => do
    let _ ← rg.colTypes[c]?
    let cc ← rg.columnChunks[c]?
    cc.scan rowOffset rowsToRead
  pure { columns, count := rowsToRead }

/-- The positions in the batch at `rowOffset` of the rows a transaction sees. -/
def selection (rg : RowGroup) (rowOffset : ℕ) (tx : Snapshot) : List ℕ :=
  (List.range (min standardVectorSize (rg.rowCount - rowOffset))).filter fun i =>
    rg.versionInfo.isVisible (rowOffset + i) tx

/-- Keep the selected rows of a batch. -/
def filterBatch (batch : DataChunk) (selection : List ℕ) : Option DataChunk :=
  if selection.length < batch.count then batch.slice selection else some batch

/-- The rows of the batch at `rowOffset` that `Scan` returns: all of them when the
counters say that every marker is a committed insert in the snapshot. -/
def scanSelection (rg : RowGroup) (rowOffset : ℕ) (tx : Snapshot) : List ℕ :=
  if rg.versionInfo.hasAnyMarkers && !rg.versionInfo.allInsertedVisibleTo tx.startTime then
    rg.selection rowOffset tx
  else List.range (min standardVectorSize (rg.rowCount - rowOffset))

/-- One batch of a table scan; it advances the offset by the rows read. -/
def scan (rg : RowGroup) (rowOffset : ℕ) (colIds : List ℕ) (tx : Snapshot) :
    Option DataChunk :=
  if rg.rowCount ≤ rowOffset then some {}
  else do
    let batch ← rg.readBatch rowOffset colIds
    filterBatch batch (rg.scanSelection rowOffset tx)

/-- One batch with the row offsets of what it returns; never takes the fast path. -/
def scanBatchWithOffsets (rg : RowGroup) (rowOffset : ℕ) (colIds : List ℕ) (tx : Snapshot) :
    Option (DataChunk × List ℕ) :=
  if rg.rowCount ≤ rowOffset then some ({}, [])
  else do
    let batch ← rg.readBatch rowOffset colIds
    let chunk ← filterBatch batch (rg.selection rowOffset tx)
    pure (chunk, (rg.selection rowOffset tx).map (rowOffset + ·))

/-- The given columns of the given rows. -/
def scanLate (rg : RowGroup) (rowOffsets : List ℕ) (lateColIds : List ℕ) : Option DataChunk := do
  let columns ← lateColIds.mapM fun c => do
    let _ ← rg.colTypes[c]?
    let cc ← rg.columnChunks[c]?
    cc.scanRows rowOffsets
  pure { columns, count := rowOffsets.length }

end RowGroup

end CppColDB
