import CppColDB.Execution.Expr
import CppColDB.Execution.Pipeline

/-!
# Table scans

`PhysicalTableScan` on a table without partitions. The pushed filters serve twice: the
comparisons of a column with a literal are checked against zone maps, and the columns that
occur in a filter are read first, so that the other ones are read for the rows that pass.
Where every column occurs in a filter, the batch is read without looking at the filters.
-/

namespace CppColDB

open Imp

/-! ## Zone maps -/

namespace RowGroup

/-- The rows that the first predicate with something to skip skips. The column of a predicate
is looked up among all columns of the row group. -/
def zoneMapSkipRows (rg : RowGroup) (rowOffset : ℕ) : List ScanPredicate → Except Error ℕ
  | [] => .ok 0
  | pred :: preds =>
    match rg.columnChunks[pred.colIdx]? with
    | none => zoneMapSkipRows rg rowOffset preds
    | some cc =>
      match cc.zoneMapSkipRows rowOffset pred.op pred.bound with
      | .error e => .error e
      | .ok skip => if 0 < skip then .ok skip else zoneMapSkipRows rg rowOffset preds

/-- The zone-map loop: skip as long as there is something to skip. Every turn moves on, so
the rows of the group bound the turns. -/
def skipRows (rg : RowGroup) (preds : List ScanPredicate) : ℕ → ℕ → Except Error ℕ
  | 0, rowOffset => .ok rowOffset
  | n + 1, rowOffset =>
    if rg.rowCount ≤ rowOffset then .ok rowOffset
    else match rg.zoneMapSkipRows rowOffset preds with
      | .error e => .error e
      | .ok skip => if skip = 0 then .ok rowOffset else skipRows rg preds n (rowOffset + skip)

end RowGroup

/-! ## Predicates on chunks -/

/-- A row of a chunk, by column. -/
def DataChunk.scalars (c : DataChunk) (i : ℕ) (col : ℕ) : Option Scalar := do
  let vec ← c.columns[col]?
  let cell ← vec.cell? i
  pure { type := vec.type, cell }

/-- `ExprEvaluator::EvaluatePredicate` on the given rows of a chunk. -/
def evaluateRows (D : DoubleOps) (pred : Expr) (chunk : DataChunk) :
    List ℕ → Option (Except Error (List ℕ))
  | [] => some (.ok [])
  | i :: is =>
    match pred.holds D (chunk.scalars i) with
    | none => none
    | some (.error e) => some (.error e)
    | some (.ok b) =>
      (evaluateRows D pred chunk is).map fun r => r.map fun sel => if b then i :: sel else sel

def evaluatePredicate (D : DoubleOps) (pred : Expr) (chunk : DataChunk) :
    Option (Except Error (List ℕ)) :=
  evaluateRows D pred chunk (List.range chunk.count)

/-- The intersection of two ascending selections. -/
def intersect : List ℕ → List ℕ → List ℕ
  | [], _ => []
  | idx :: sel, sel2 =>
    let rest := sel2.dropWhile (· < idx)
    if rest.head? = some idx then idx :: intersect sel rest else intersect sel rest

/-- The filters after the first one, as long as a row is left. -/
def narrow (D : DoubleOps) (chunk : DataChunk) :
    List Expr → List ℕ → Option (Except Error (List ℕ))
  | [], sel => some (.ok sel)
  | f :: fs, sel =>
    if sel = [] then some (.ok sel)
    else match evaluatePredicate D f chunk with
      | none => none
      | some (.error e) => some (.error e)
      | some (.ok sel2) => narrow D chunk fs (intersect sel sel2)

/-- The rows of a chunk that pass every filter. -/
def predSelection (D : DoubleOps) (chunk : DataChunk) :
    List Expr → Option (Except Error (List ℕ))
  | [] => some (.ok (List.range chunk.count))
  | f :: fs =>
    match evaluatePredicate D f chunk with
    | none => none
    | some (.error e) => some (.error e)
    | some (.ok sel) => narrow D chunk fs sel

/-! ## The operator -/

/-- The columns to read, by their number in the table, and the filters on them, whose columns
are positions in that list. -/
structure TableScan where
  columnIds : List ℕ
  pushedFilters : List Expr
  outputTypes : List TypeId

structure TableScanState where
  rowGroupIdx : ℕ := 0
  rowOffsetInGroup : ℕ := 0
  deriving DecidableEq, Repr

namespace TableScan

variable (S : TableScan)

/-! ### `InitScan` -/

def scanPredicates : List ScanPredicate := S.pushedFilters.filterMap Expr.tryExtractPredicate

/-- The positions that occur in some filter. -/
def filterSet : List ℕ := S.pushedFilters.flatMap Expr.columns

def filterColIds : List ℕ :=
  if S.pushedFilters = [] then []
  else (List.range S.columnIds.length).filter fun i => decide (i ∈ S.filterSet)

def payloadColIds : List ℕ :=
  if S.pushedFilters = [] then []
  else (List.range S.columnIds.length).filter fun i => decide (i ∉ S.filterSet)

/-- The columns of the table at some positions. -/
def tableColIds (positions : List ℕ) : List ℕ := positions.filterMap (S.columnIds[·]?)

/-- The position of a column among those that are read first. -/
def earlyPosition (c : ℕ) : ℕ := if c ∈ S.filterColIds then S.filterColIds.idxOf c else c

def earlyFilters : List Expr := S.pushedFilters.map (Expr.remap S.earlyPosition)

/-! ### `GetData` -/

/-- The output of the late path: the selected rows of the columns read first, and the other
columns. -/
def assemble (early late : DataChunk) (predSel : List ℕ) : Option DataChunk := do
  let columns := (DataChunk.initializeTypes S.outputTypes).columns
  let columns ← S.filterColIds.zipIdx.foldlM (fun columns (pos, i) => do
    let dst ← columns[pos]?
    let src ← early.columns[i]?
    let dst ← predSel.foldlM (fun dst idx => dst.append src idx) dst
    pure (columns.set pos dst)) columns
  let columns ← S.payloadColIds.zipIdx.foldlM (fun columns (pos, i) => do
    let _ ← columns[pos]?
    let src ← late.columns[i]?
    pure (columns.set pos src)) columns
  pure { columns, count := predSel.length }

/-- The batch at an offset in two phases; an empty chunk where nothing is left. -/
def lateBatch (D : DoubleOps) (tx : Snapshot) (rg : RowGroup) (rowOffset : ℕ) :
    Option (Except Error DataChunk) :=
  match rg.scanBatchWithOffsets rowOffset (S.tableColIds S.filterColIds) tx with
  | none => none
  | some (early, visOffsets) =>
    if early.count = 0 then some (.ok {})
    else match predSelection D early S.earlyFilters with
      | none => none
      | some (.error e) => some (.error e)
      | some (.ok predSel) =>
        if predSel = [] then some (.ok {})
        else do
          let finalOffsets ← predSel.mapM (visOffsets[·]?)
          let late ← rg.scanLate finalOffsets (S.tableColIds S.payloadColIds)
          let output ← S.assemble early late predSel
          pure (.ok output)

/-- The batch at an offset. -/
def batch (D : DoubleOps) (tx : Snapshot) (rg : RowGroup) (rowOffset : ℕ) :
    Option (Except Error DataChunk) :=
  if S.payloadColIds ≠ [] then S.lateBatch D tx rg rowOffset
  else (rg.scan rowOffset S.columnIds tx).map .ok

/-- The state after the batch at an offset. -/
def next (rg : RowGroup) (rowGroupIdx rowOffset : ℕ) : TableScanState :=
  let rowOffset := rowOffset + min standardVectorSize (rg.rowCount - rowOffset)
  if rg.rowCount ≤ rowOffset then { rowGroupIdx := rowGroupIdx + 1 }
  else { rowGroupIdx, rowOffsetInGroup := rowOffset }

/-- `GetData`: the next batch that has a row. -/
def getData (D : DoubleOps) (tx : Snapshot) (rowGroups : List RowGroup) :
    ℕ → Imp Error TableScanState (OperatorResultType × DataChunk)
  | 0 => undefined
  | fuel + 1 => do
    let state ← get
    match rowGroups[state.rowGroupIdx]? with
    | none => pure (.finished, {})
    | some rg => do
      let rowOffset ← ofExcept (some (rg.skipRows S.scanPredicates
        (rg.rowCount - state.rowOffsetInGroup) state.rowOffsetInGroup))
      if rg.rowCount ≤ rowOffset then do
        set { rowGroupIdx := state.rowGroupIdx + 1 }
        getData D tx rowGroups fuel
      else do
        set (next rg state.rowGroupIdx rowOffset)
        let output ← ofExcept (S.batch D tx rg rowOffset)
        if 0 < output.count then pure (.haveMoreOutput, output)
        else getData D tx rowGroups fuel

/-- The chunks of the calls until the scan is finished. -/
def scanAll (D : DoubleOps) (tx : Snapshot) (rowGroups : List RowGroup) (fuel : ℕ) :
    ℕ → Imp Error TableScanState (List DataChunk)
  | 0 => undefined
  | calls + 1 => do
    let (result, output) ← S.getData D tx rowGroups fuel
    if result = .finished then pure []
    else do
      let rest ← scanAll D tx rowGroups fuel calls
      pure (output :: rest)

end TableScan

end CppColDB
