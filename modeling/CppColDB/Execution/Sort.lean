import CppColDB.Execution.Evaluate
import CppColDB.Lib.Selection

/-!
# ORDER BY

`PhysicalSort` keeps copies of its input chunks, and when all of them are there it sorts the
positions of their rows. With a bound on the number of rows (from LIMIT) it keeps the least
rows in a heap instead. `PhysicalSortSource` then emits the rows in that order, in chunks of
`standardVectorSize` rows.
-/

namespace CppColDB

open Fallible Selection

/-- A sort key with its direction. -/
structure SortKey where
  expr : Expr
  ascending : Bool
  deriving DecidableEq, Repr

structure PhysicalSort where
  sortKeys : List SortKey
  /-- The number of rows to keep; all of them if it is negative. -/
  topK : Int64 := -1
  deriving DecidableEq, Repr

/-- The buffer of the sort, with the keys of a chunk for each sort key. A row is given by the
index of its chunk and its own. -/
structure SortBuffer where
  chunks : List DataChunk := []
  keyVecs : List (List (List Scalar)) := []
  sortedOrder : List (ℕ × ℕ) := []
  sorted : Bool := false

/-- The algorithms of the standard library for row positions, `max_size` of a vector of them
(their 16 bytes each have to fit the address space), and the number of them that the allocator
has memory for. -/
structure SortRuntime extends Algorithms (ℕ × ℕ) where
  maxSize : ℕ
  maxSize_lt : maxSize * 16 < 2 ^ 64
  available : ℕ

/-- `reserve` of a vector of row positions. -/
def SortRuntime.reserve (R : SortRuntime) (n : ℕ) : Fallible Error Unit :=
  if R.maxSize < n then throw Error.length
  else if R.available < n then throw Error.badAlloc
  else pure ()

/-! ## Comparison -/

/-- Comparison of two elements of a key. They are in the array of the key's type, so in the
same one. -/
def Datum.compare : Datum → Datum → Ordering
  | .int a, .int b => threeWay (fun a b => decide (a < b)) a b
  | .float a, .float b => threeWay Double.lt a b
  | .str a, .str b => threeWay (fun a b => decide (a < b)) a b
  | _, _ => .eq

/-- Comparison of one key of two rows: a NULL comes last in both directions. -/
def compareKey (ascending : Bool) : Cell → Cell → Ordering := missingLast ascending Datum.compare

/-- The key of the row at a position. -/
def keyAt (vecs : List (List Scalar)) (pos : ℕ × ℕ) : Cell :=
  (vecs[pos.1]?.bind (·[pos.2]?)).bind Scalar.cell

/-- Positions in the order of the input. -/
def comparePositions (a b : ℕ × ℕ) : Ordering :=
  if a.1 ≠ b.1 then (if a.1 < b.1 then .lt else .gt)
  else if a.2 ≠ b.2 then (if a.2 < b.2 then .lt else .gt)
  else .eq

/-- `CompareSortRows`. -/
def compareSortRows : List (List (List Scalar) × Bool) → ℕ × ℕ → ℕ × ℕ → Ordering
  | [], a, b => comparePositions a b
  | (vecs, ascending) :: keys, a, b =>
    match compareKey ascending (keyAt vecs a) (keyAt vecs b) with
    | .eq => compareSortRows keys a b
    | o => o

/-! ## The sink -/

/-- The copy of a column in `Consume`. -/
def DataVector.copyRows (src : DataVector) : Option DataVector :=
  match src.type.storageClass with
  | .int =>
    if src.count ≤ src.intData.length then
      some { src with intData := src.intData.take src.count, floatData := [], strData := [] }
    else none
  | .float =>
    if src.count ≤ src.floatData.length then
      some { src with floatData := src.floatData.take src.count, intData := [], strData := [] }
    else none
  | .str => some { src with intData := [], floatData := [] }
  | .none => some { src with intData := [], floatData := [], strData := [] }

namespace SortBuffer

/-- `PhysicalSort::Consume`. -/
def consume (buf : SortBuffer) (input : DataChunk) : Fallible Error SortBuffer :=
  if input.count = 0 then pure buf
  else do
    let columns ← ofOption (input.columns.mapM DataVector.copyRows)
    pure { buf with chunks := buf.chunks ++ [{ columns, count := input.count }] }

/-- The positions of all rows, in the order of the input. -/
def positions (buf : SortBuffer) : List (ℕ × ℕ) :=
  buf.chunks.zipIdx.flatMap fun p => (List.range p.1.count).map fun ri => (p.2, ri)

end SortBuffer

namespace PhysicalSort

variable (op : PhysicalSort) (R : SortRuntime) (D : DoubleOps)

/-- One turn of the loop that keeps the `k` least rows in a heap. -/
def offer (less : ℕ × ℕ → ℕ × ℕ → Bool) (k : ℕ) (heap : List (ℕ × ℕ)) (row : ℕ × ℕ) :
    List (ℕ × ℕ) :=
  if heap.length < k then R.pushHeap less (heap ++ [row])
  else
    match heap with
    | [] => heap
    | front :: _ =>
      if less row front then R.pushHeap less ((R.popHeap less heap).dropLast ++ [row])
      else heap

/-- The order of the positions of the rows with the given keys. The heap is as large as the
bound, however many rows there are. -/
def order (keyVecs : List (List (List Scalar))) (positions : List (ℕ × ℕ)) :
    Fallible Error (List (ℕ × ℕ)) :=
  let less := fun a b =>
    decide (compareSortRows (keyVecs.zip (op.sortKeys.map SortKey.ascending)) a b = .lt)
  if op.topK = 0 then pure []
  else if 0 < op.topK then do
    let k := op.topK.toInt.toNat
    R.reserve k
    pure (R.sort less (positions.foldl (offer R less k) []))
  else do
    R.reserve positions.length
    pure (stableSort less positions)

/-- `PhysicalSort::Finalize`. -/
def finalize (buf : SortBuffer) : Fallible Error SortBuffer := do
  let keyVecs ← Fallible.traverse
    (fun key => Fallible.traverse (fun chunk => key.expr.evaluate D chunk) buf.chunks) op.sortKeys
  let sortedOrder ← op.order R keyVecs buf.positions
  pure { buf with keyVecs, sortedOrder, sorted := true }

end PhysicalSort

/-! ## The source -/

/-- A row of some columns appended to the columns of the output. -/
def appendColumns (ri : ℕ) : List DataVector → List DataVector → Option (List DataVector)
  | out, [] => some out
  | [], _ :: _ => none
  | col :: out, src :: srcs => do
    let col ← col.append src ri
    let out ← appendColumns ri out srcs
    pure (col :: out)

namespace SortBuffer

variable (buf : SortBuffer)

/-- The rows at the given positions, appended to the output. -/
def emit : DataChunk → List (ℕ × ℕ) → Option DataChunk
  | output, [] => some output
  | output, (ci, ri) :: order => do
    let src ← buf.chunks[ci]?
    let columns ← appendColumns ri output.columns src.columns
    emit { columns, count := output.count + 1 } order

/-- `PhysicalSortSource::GetData`, from a position in the order. -/
def getData (chunkIdx : ℕ) : Option (OperatorResultType × DataChunk × ℕ) :=
  if !buf.sorted then some (.finished, {}, chunkIdx)
  else if buf.sortedOrder.length ≤ chunkIdx then some (.finished, {}, chunkIdx)
  else
    match buf.chunks with
    | [] => some (.finished, {}, chunkIdx)
    | first :: _ => do
      let next := (buf.sortedOrder.drop chunkIdx).take standardVectorSize
      let output ← buf.emit (DataChunk.initializeTypes (first.columns.map DataVector.type)) next
      let chunkIdx := chunkIdx + next.length
      if buf.sortedOrder.length ≤ chunkIdx then some (.finished, output, chunkIdx)
      else some (.haveMoreOutput, output, chunkIdx)

/-- The chunks that the source emits, up to the first `FINISHED`. -/
def drain : ℕ → ℕ → Option (List DataChunk)
  | 0, _ => none
  | fuel + 1, chunkIdx => do
    let (result, output, chunkIdx) ← buf.getData chunkIdx
    let outputs := if output.count = 0 then [] else [output]
    if result = .finished then some outputs
    else do
      let rest ← drain fuel chunkIdx
      some (outputs ++ rest)

end SortBuffer

/-- The sort pipeline: all chunks are consumed, then the source is drained. -/
def PhysicalSort.run (op : PhysicalSort) (R : SortRuntime) (D : DoubleOps) (fuel : ℕ)
    (chunks : List DataChunk) : Fallible Error (List DataChunk) := do
  let buf ← foldl SortBuffer.consume {} chunks
  let buf ← op.finalize R D buf
  ofOption (buf.drain fuel 0)

end CppColDB
