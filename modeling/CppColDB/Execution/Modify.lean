import CppColDB.Transaction.Manager

/-!
# DELETE and UPDATE

Both walk all row groups in batches of a vector, select the matching rows among those the
transaction sees and mark them. `DELETE` records all of them in one undo entry at the end,
`UPDATE` writes the new values and records each batch on its own.

Predicates and `SET` expressions are arbitrary functions of the batch that may throw.
-/

namespace CppColDB

open ByteCodec

/-- A `WHERE` condition: which rows of a batch match. -/
abbrev Predicate := DataChunk → Except Error (ℕ → Bool)

/-- A `SET` expression, evaluated on a whole batch. -/
abbrev SetExpr := DataChunk → Except Error DataVector

/-- The indices of a batch that match; all of them without a condition. -/
def matching (predicate : Option Predicate) (batch : DataChunk) : Except Error (List ℕ) :=
  match predicate with
  | none => .ok (List.range batch.count)
  | some p => do
    let keep ← p batch
    pure ((List.range batch.count).filter keep)

/-- Where the batches of a row group with `rowCount` rows begin. -/
def batchStarts (rowCount : ℕ) : List ℕ :=
  (List.range ((rowCount + standardVectorSize - 1) / standardVectorSize)).map
    (· * standardVectorSize)

namespace Database

/-! ## DELETE -/

/-- One batch of a `DELETE`: the offsets of the rows it marks. -/
def deleteBatch (tx : Snapshot) (r : TableRef) (g : ℕ) (colIds : List ℕ)
    (predicate : Option Predicate) (start : ℕ) : Imp Error Database (List ℕ) := do
  let db ← Imp.get
  let rg ← Imp.ofOption (db.catalog.rowGroup? r g)
  let (batch, offsets) ← Imp.ofOption (rg.scanBatchWithOffsets start colIds tx)
  if batch.count = 0 then pure []
  else do
    let hits ← Imp.ofExcept (some (matching predicate batch))
    let marked ← Imp.ofOption (hits.mapM fun i => offsets[i]?)
    Imp.modify fun db => db.withCatalog (db.catalog.modifyVersionInfo r g fun vi =>
      marked.foldl (fun vi off => vi.markDeleted off tx.txId) vi)
    pure marked

/-- The batches of one row group. -/
def deleteGroup (tx : Snapshot) (r : TableRef) (g : ℕ) (colIds : List ℕ)
    (predicate : Option Predicate) : List ℕ → Imp Error Database (List RowId)
  | [] => pure []
  | start :: starts => do
    let marked ← deleteBatch tx r g colIds predicate start
    let rest ← deleteGroup tx r g colIds predicate starts
    pure (marked.map (fun offset => { group := g, offset }) ++ rest)

/-- The row groups of a table, from `g` on. -/
def deleteGroups (tx : Snapshot) (r : TableRef) (colIds : List ℕ)
    (predicate : Option Predicate) : List ℕ → Imp Error Database (List RowId)
  | [] => pure []
  | g :: gs => do
    let db ← Imp.get
    let rg ← Imp.ofOption (db.catalog.rowGroup? r g)
    let here ← deleteGroup tx r g colIds predicate (batchStarts rg.rowCount)
    let rest ← deleteGroups tx r colIds predicate gs
    pure (here ++ rest)

def physicalDelete (tx : Snapshot) (schema table : Bytes) (predicate : Option Predicate) :
    Imp Error Database Unit := do
  let db ← Imp.get
  match db.catalog.getTable schema table tx with
  | none => Imp.throw (Error.runtime (text "DELETE: table not found: " ++ table))
  | some r => do
    let t ← Imp.ofOption (db.catalog.table? r)
    let colIds := if predicate.isSome then List.range t.columns.length else []
    let rowIds ← deleteGroups tx r colIds predicate (List.range t.rowGroups.length)
    if rowIds.isEmpty then pure ()
    else Imp.modify fun db => db.pushUndo tx.txId (.delete { schema, table, rowIds })

/-! ## UPDATE -/

/-- A column that an `UPDATE` sets, with its type and expression. -/
structure SetClause where
  col : ℕ
  type : TypeId
  expr : SetExpr

/-- The columns an `UPDATE` scans and those it sets. -/
structure UpdatePlan where
  scanColIds : List ℕ
  sets : List SetClause
  predicate : Option Predicate

/-- The given rows of a vector, appended to an empty one of type `type`. -/
def selectRows (type : TypeId) (vec : DataVector) (rows : List ℕ) : Option DataVector :=
  rows.foldlM (fun dst i => dst.append vec i) (DataVector.reset type 0)

/-- One `SET` clause on one batch: the old and the new values of the rows it writes. The
scanned copy of a column is the last of its occurrences. -/
def updateColumn (plan : UpdatePlan) (r : TableRef) (g : ℕ) (batch : DataChunk)
    (hits offsets : List ℕ) (set : SetClause) : Imp Error Database (DataVector × DataVector) := do
  match plan.scanColIds.reverse.findIdx? (· = set.col) with
  | none =>
    Imp.throw (Error.runtime (text "UPDATE: missing scanned value for updated column"))
  | some i => do
    let scanned ← Imp.ofOption (batch.columns[plan.scanColIds.length - 1 - i]?)
    let old ← Imp.ofOption (selectRows set.type scanned hits)
    let full ← Imp.ofExcept (some (set.expr batch))
    let new ← Imp.ofOption (selectRows set.type full hits)
    onCatalog (Catalog.onRowGroup r g
      (RowGroup.onColumn set.col (ColumnChunk.writeRows offsets new)))
    pure (old, new)

/-- The loop over the `SET` clauses. -/
def updateColumns (plan : UpdatePlan) (r : TableRef) (g : ℕ) (batch : DataChunk)
    (hits offsets : List ℕ) :
    List SetClause → Imp Error Database (List DataVector × List DataVector)
  | [] => pure ([], [])
  | set :: rest => do
    let (old, new) ← updateColumn plan r g batch hits offsets set
    let (olds, news) ← updateColumns plan r g batch hits offsets rest
    pure (old :: olds, new :: news)

/-- One batch of an `UPDATE`. The rows are marked before any value is evaluated. -/
def updateBatch (plan : UpdatePlan) (tx : Snapshot) (r : TableRef) (g start : ℕ) :
    Imp Error Database Unit := do
  let db ← Imp.get
  let rg ← Imp.ofOption (db.catalog.rowGroup? r g)
  let (batch, offsets) ← Imp.ofOption (rg.scanBatchWithOffsets start plan.scanColIds tx)
  if batch.count = 0 then pure ()
  else do
    let hits ← Imp.ofExcept (some (matching plan.predicate batch))
    let marked ← Imp.ofOption (hits.mapM fun i => offsets[i]?)
    if marked.isEmpty then pure ()
    else do
      Imp.modify fun db => db.withCatalog (db.catalog.modifyVersionInfo r g fun vi =>
        marked.foldl (fun vi off => vi.markUpdated off tx.txId) vi)
      let (olds, news) ← updateColumns plan r g batch hits marked plan.sets
      Imp.modify fun db => db.pushUndo tx.txId (.update
        { schema := r.schema, table := r.name
          rowIds := marked.map fun offset => { group := g, offset }
          colIds := plan.sets.map SetClause.col
          oldValues := { columns := olds, count := hits.length }
          newValues := { columns := news, count := hits.length } })

/-- All batches of the given row groups. -/
def updateGroups (plan : UpdatePlan) (tx : Snapshot) (r : TableRef) :
    List ℕ → Imp Error Database Unit
  | [] => pure ()
  | g :: gs => do
    let db ← Imp.get
    let rg ← Imp.ofOption (db.catalog.rowGroup? r g)
    Imp.forEach (batchStarts rg.rowCount) (updateBatch plan tx r g)
    updateGroups plan tx r gs

def physicalUpdate (tx : Snapshot) (schema table : Bytes) (scanColIds : List ℕ)
    (sets : List (ℕ × SetExpr)) (predicate : Option Predicate) : Imp Error Database Unit := do
  let db ← Imp.get
  match db.catalog.getTable schema table tx with
  | none => Imp.throw (Error.runtime (text "UPDATE: table not found: " ++ table))
  | some r => do
    let t ← Imp.ofOption (db.catalog.table? r)
    let clauses ← Imp.ofOption (sets.mapM fun (col, expr) =>
      t.columns[col]?.map fun c => ({ col, type := c.type, expr } : SetClause))
    let plan : UpdatePlan :=
      { scanColIds := if scanColIds.isEmpty then sets.map Prod.fst else scanColIds
        sets := clauses, predicate }
    updateGroups plan tx r (List.range t.rowGroups.length)

end Database

end CppColDB
