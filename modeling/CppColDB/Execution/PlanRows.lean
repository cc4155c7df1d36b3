import CppColDB.Execution.ScanLoop
import CppColDB.Execution.SortRows
import CppColDB.Planner.Prune

/-!
# Execution of a physical plan

The operators of a plan above its scan on batches of rows. An operator sees its input only
through the values of its expressions, apart from the rows that a filter, a sort and a LIMIT
pass on; the scan is that of `PhysicalTableScan`, and the hash table of an aggregate and the
comparison of a sort are those of the operators on chunks.
An operator has the whole result of the one below it: that LIMIT stops the pipeline early is
not visible here, except for errors after the last row it needs.
-/

namespace CppColDB

open Fallible List Selection

/-- The rows of a chunk, each with a value for every column of the chunk. -/
abbrev Batch := List (List Scalar)

namespace Expr

/-- The values of an expression on the rows of a batch. -/
def evalBatch (D : DoubleOps) (rows : Batch) (e : Expr) : Fallible Error (List Scalar) :=
  Fallible.traverse (fun row => e.eval D (row[·]?)) rows

/-- The rows of a batch that satisfy a predicate. -/
def filterBatch (D : DoubleOps) (e : Expr) : Batch → Fallible Error Batch
  | [] => pure []
  | row :: rows => do
    let keep ← e.holds D (row[·]?)
    let rows ← e.filterBatch D rows
    pure (if keep then row :: rows else rows)

end Expr

/-! ## LIMIT -/

/-- `PhysicalLimit::Execute` on one batch after the other, with the numbers of rows skipped and
emitted so far. -/
def limitBatches (limit offset : Int64) : ℕ → ℕ → List Batch → List Batch
  | _, _, [] => []
  | skipped, emitted, rows :: batches =>
    let skip := min (offset.toInt.toNat - skipped) rows.length
    let kept := rows.drop skip
    if kept = [] then limitBatches limit offset (skipped + skip) emitted batches
    else if limit < 0 then
      kept :: limitBatches limit offset (skipped + skip) (emitted + kept.length) batches
    else if limit.toInt ≤ emitted then []
    else
      let kept := kept.take (limit.toInt.toNat - emitted)
      let emitted := emitted + kept.length
      if limit.toInt ≤ emitted then [kept]
      else kept :: limitBatches limit offset (skipped + skip) emitted batches

/-! ## Sort -/

namespace PhysicalSort

variable (op : PhysicalSort) (R : SortRuntime) (D : DoubleOps)

/-- Rows in chunks of `standardVectorSize`. -/
def inChunks (rows : Batch) : List Batch :=
  (range ((rows.length + standardVectorSize - 1) / standardVectorSize)).map fun i =>
    (rows.drop (i * standardVectorSize)).take standardVectorSize

/-- The sort of some batches. -/
def sortBatches (batches : List Batch) : Fallible Error (List Batch) := do
  let keyVecs ← Fallible.traverse
    (fun key => Fallible.traverse (fun rows => key.expr.evalBatch D rows) batches) op.sortKeys
  let sortedOrder ← op.order R keyVecs (positionsFrom 0 (batches.map length))
  let rows ← Fallible.traverse
    (fun pos => ofOption (batches[pos.1]?.bind (·[pos.2]?))) sortedOrder
  pure (inChunks rows)

end PhysicalSort

/-! ## Plans -/

/-- The rows of a chunk. -/
def DataChunk.toBatch (c : DataChunk) : Option Batch :=
  (range c.count).mapM fun i => (range c.columns.length).mapM (c.scalars i)

/-- The batches of a scan of some row groups. Each call of `GetData` ends after at most one turn
for every row and every row group. -/
def TableScan.batches (D : DoubleOps) (tx : Snapshot) (groups : List RowGroup) (S : TableScan) :
    Fallible Error (List Batch) := do
  let fuel := TableScan.turns groups {} + 1
  let chunks ← (S.scanAll D tx groups fuel fuel {}).map Prod.fst
  ofOption (chunks.mapM DataChunk.toBatch)

/-- The scan of columns of a table whose columns have the given types. -/
def TableScan.ofPlan (types : List TypeId) (columnIds : List ℕ) (pushedFilters : List Expr) :
    TableScan where
  columnIds := columnIds
  pushedFilters := pushedFilters
  outputTypes := columnIds.map fun c => types.getD c .invalid

namespace PhysicalPlan

/-- The scan at the bottom of a plan. -/
def scan (types : List TypeId) : PhysicalPlan → TableScan
  | .tableScan columnIds pushedFilters => .ofPlan types columnIds pushedFilters
  | .filter _ child | .projection _ child | .limit _ _ child | .sort _ child
  | .aggregation _ _ child => child.scan types

/-- The batches that a plan returns on a table with columns of the given types, which is not
partitioned. -/
def execute (D : DoubleOps) (P : Platform) (R : SortRuntime) (tx : Snapshot)
    (types : List TypeId) (groups : List RowGroup) : PhysicalPlan → Fallible Error (List Batch)
  | .tableScan columnIds pushedFilters =>
    (TableScan.ofPlan types columnIds pushedFilters).batches D tx groups
  | .filter predicate child => do
    let batches ← child.execute D P R tx types groups
    Fallible.traverse (predicate.filterBatch D) batches
  | .projection exprs child => do
    let batches ← child.execute D P R tx types groups
    Fallible.traverse (fun rows => Fallible.traverse (fun row =>
      Fallible.traverse (fun e => e.eval D (row[·]?)) exprs) rows) batches
  | .limit rows offset child => do
    let batches ← child.execute D P R tx types groups
    pure (limitBatches rows offset 0 0 batches)
  | .sort op child => do
    let batches ← child.execute D P R tx types groups
    op.sortBatches R D (batches.filter (· ≠ []))
  | .aggregation op source child => do
    let batches ← child.execute D P R tx types groups
    let ht ← foldl (fun ht rows => op.consumeValues P D rows.length (Expr.evalBatch D rows) ht)
      { numAggregates := op.aggrExprs.length } batches
    let chunks ← source.drain D ht (ht.entryPool.length + 1) 0
    ofOption (chunks.mapM DataChunk.toBatch)

end PhysicalPlan

end CppColDB
