import CppColDB.Execution.Evaluate
import CppColDB.Execution.HashJoin

/-!
# GROUP BY

`PhysicalHashAggregation` boxes the group key of every row, looks it up in a chained hash
table that grows with the number of groups, and updates the accumulators of the group.
`PhysicalAggregationSource` then emits a row for each group, in the order in which the groups
were made. The box of a NULL carries its column's type, and does not count as NULL any more.
-/

namespace CppColDB

open Fallible List

inductive AggFunc where
  | count | sum | min | max | avg
  deriving DecidableEq, Repr

/-- `LogicalAggrExpr`; there is no argument if `isStar`. -/
structure AggrExpr where
  func : AggFunc
  isStar : Bool := false
  arg : Expr
  resultType : TypeId
  deriving DecidableEq, Repr

/-! ## Accumulators -/

structure AggregateState where
  count : ℕ := 0
  sum : UInt64 := 0
  minVal : Value := { type := .invalid }
  maxVal : Value := { type := .invalid }
  minSet : Bool := false
  maxSet : Bool := false
  deriving DecidableEq, Repr

/-- `VectorGetValue`: the box of a row of a vector. -/
def Scalar.getValue (s : Scalar) : Value :=
  match s.cell with
  | none => { type := s.type }
  | some x => x.box s.type

namespace AggregateState

variable (D : DoubleOps) (state : AggregateState)

/-- `AggUpdate`. -/
def update (func : AggFunc) (s : Scalar) : Fallible Error AggregateState :=
  match s.cell with
  | none => pure state
  | some x =>
    match func with
    | .count => pure { state with count := state.count + 1 }
    | .sum | .avg => do
      let v ← ofOption (D.number s.type x)
      pure { state with sum := D.add state.sum v, count := state.count + 1 }
    | .min => do
      let v := s.getValue
      let less ← if state.minSet then some (v.lt state.minVal) else pure true
      if less then pure { state with minVal := v, minSet := true, count := state.count + 1 }
      else pure { state with count := state.count + 1 }
    | .max => do
      let v := s.getValue
      let less ← if state.maxSet then some (state.maxVal.lt v) else pure true
      if less then pure { state with maxVal := v, maxSet := true, count := state.count + 1 }
      else pure { state with count := state.count + 1 }

/-- `AggFinalize`. -/
def finalize (func : AggFunc) (resultType : TypeId) : Fallible Error Value :=
  match func with
  | .count => pure (.integer (Int64.ofNat state.count))
  | .sum =>
    if state.count = 0 then pure { type := resultType }
    else if resultType = .float64 ∨ resultType = .float32 then pure (.float state.sum)
    else do
      let v ← ofOption (D.toInt state.sum)
      pure (.integer v)
  | .avg =>
    if state.count = 0 then pure { type := .float64 }
    else pure (.float (D.div state.sum (D.ofInt (Int64.ofNat state.count))))
  | .min => pure (if state.minSet then state.minVal else { type := resultType })
  | .max => pure (if state.maxSet then state.maxVal else { type := resultType })

end AggregateState

/-! ## The hash table -/

structure AggEntry where
  groupKey : List Value
  aggStates : List AggregateState
  deriving DecidableEq, Repr

/-- The groups in the order in which they were made, and the chain of group numbers of each
bucket. -/
structure AggregateHashTable where
  numAggregates : ℕ
  capacity : ℕ := 256
  buckets : List (List ℕ) := replicate 256 []
  entryPool : List AggEntry := []

/-- `operator==` of two vectors of values. -/
def valuesEqual : List Value → List Value → Except Error Bool
  | [], [] => .ok true
  | a :: as, b :: bs => do
    let equal ← a.eq b
    if equal then valuesEqual as bs else pure false
  | _, _ => .ok false

namespace AggregateHashTable

variable (P : Platform) (ht : AggregateHashTable)

/-- The bucket of a key; `HashGroupKey` combines the hashes of its values. -/
def bucketOf (capacity : ℕ) (key : List Value) : Except Error ℕ :=
  (JoinHashTable.hashKey P key).map fun h => h.toNat &&& (capacity - 1)

/-- The entry of a chain with the given key. -/
def findInChain (key : List Value) : List ℕ → Fallible Error (Option ℕ)
  | [] => pure none
  | i :: chain => do
    let entry ← ofOption ht.entryPool[i]?
    let equal ← some (valuesEqual entry.groupKey key)
    if equal then pure (some i) else findInChain key chain

/-- The chains of the given entries, which are put in from the first to the last. -/
def rebuild (capacity : ℕ) (entries : List AggEntry) : Except Error (List (List ℕ)) :=
  entries.zipIdx.foldlM (fun buckets p => do
    let h ← bucketOf P capacity p.1.groupKey
    pure (buckets.modify h (p.2 :: ·))) (replicate capacity [])

/-- `Resize`. -/
def resize : Fallible Error AggregateHashTable := do
  let capacity := ht.capacity * 2
  let buckets ← some (rebuild P capacity ht.entryPool)
  pure { ht with capacity, buckets }

/-- `FindOrCreate`: the number of the entry, and the table. -/
def findOrCreate (key : List Value) : Fallible Error (ℕ × AggregateHashTable) := do
  let h ← some (bucketOf P ht.capacity key)
  let chain ← ofOption ht.buckets[h]?
  match ← ht.findInChain key chain with
  | some i => pure (i, ht)
  | none => do
    let i := ht.entryPool.length
    let entry : AggEntry := { groupKey := key, aggStates := replicate ht.numAggregates {} }
    let ht := { ht with
      buckets := ht.buckets.modify h (i :: ·), entryPool := ht.entryPool ++ [entry] }
    if ht.capacity * 3 / 4 < ht.entryPool.length then do
      let ht ← resize P ht
      pure (i, ht)
    else pure (i, ht)

end AggregateHashTable

/-! ## The sink -/

structure PhysicalHashAggregation where
  groupExprs : List Expr
  aggrExprs : List AggrExpr
  deriving DecidableEq, Repr

namespace PhysicalHashAggregation

variable (op : PhysicalHashAggregation) (P : Platform) (D : DoubleOps)

/-- The evaluated argument of an aggregate, none for a star. -/
def argVec (values : Expr → Fallible Error (List Scalar)) (agg : AggrExpr) :
    Fallible Error (List Scalar) :=
  if agg.isStar then pure [] else values agg.arg

/-- One aggregate of a group, updated for one row. -/
def updateState (row : ℕ) (agg : AggrExpr) (vec : List Scalar) (state : AggregateState) :
    Fallible Error AggregateState :=
  if agg.isStar then pure { state with count := state.count + 1 }
  else do
    let s ← ofOption vec[row]?
    state.update D agg.func s

/-- All aggregates of a group, updated for one row. -/
def updateStates (row : ℕ) : List AggrExpr → List (List Scalar) → List AggregateState →
    Fallible Error (List AggregateState)
  | [], _, states => pure states
  | agg :: aggs, vec :: vecs, state :: states => do
    let state ← updateState D row agg vec state
    let states ← updateStates row aggs vecs states
    pure (state :: states)
  | _, _, _ => none

/-- One aggregate of the only group, updated for all rows of a chunk. -/
def updateColumn (rows : ℕ) (agg : AggrExpr) (vec : List Scalar) (state : AggregateState) :
    Fallible Error AggregateState :=
  if agg.isStar then pure { state with count := state.count + rows }
  else foldl (fun state row => do
    let s ← ofOption vec[row]?
    state.update D agg.func s) state (range rows)

def updateColumns (rows : ℕ) : List AggrExpr → List (List Scalar) → List AggregateState →
    Fallible Error (List AggregateState)
  | [], _, states => pure states
  | agg :: aggs, vec :: vecs, state :: states => do
    let state ← updateColumn D rows agg vec state
    let states ← updateColumns rows aggs vecs states
    pure (state :: states)
  | _, _, _ => none

/-- All aggregates of a group are updated, one by one. -/
structure UpdatesEach (f : AggrExpr → List Scalar → AggregateState → Fallible Error AggregateState)
    (g : List AggrExpr → List (List Scalar) → List AggregateState →
      Fallible Error (List AggregateState)) : Prop where
  nil : ∀ vecs states, g [] vecs states = pure states
  cons : ∀ agg aggs vec vecs state states, g (agg :: aggs) (vec :: vecs) (state :: states) = (do
    let state ← f agg vec state
    let states ← g aggs vecs states
    pure (state :: states))
  short : ∀ agg aggs vecs, g (agg :: aggs) vecs [] = none

theorem updateStates_each (row : ℕ) : UpdatesEach (updateState D row) (updateStates D row) :=
  ⟨fun _ _ => rfl, fun _ _ _ _ _ _ => rfl, fun _ _ vecs => by cases vecs <;> rfl⟩

theorem updateColumns_each (rows : ℕ) : UpdatesEach (updateColumn D rows) (updateColumns D rows) :=
  ⟨fun _ _ => rfl, fun _ _ _ _ _ _ => rfl, fun _ _ vecs => by cases vecs <;> rfl⟩

/-- The entry with the given number, changed. -/
def updateEntry (ht : AggregateHashTable) (i : ℕ)
    (f : List AggregateState → Fallible Error (List AggregateState)) :
    Fallible Error AggregateHashTable := do
  let entry ← ofOption ht.entryPool[i]?
  let aggStates ← f entry.aggStates
  pure { ht with entryPool := ht.entryPool.set i { entry with aggStates } }

/-- One row of a chunk. -/
def consumeRow (groupVecs aggVecs : List (List Scalar)) (ht : AggregateHashTable) (row : ℕ) :
    Fallible Error AggregateHashTable := do
  let key ← ofOption (groupVecs.mapM fun vec => (vec[row]?).map Scalar.getValue)
  let (i, ht) ← ht.findOrCreate P key
  updateEntry ht i (updateStates D row op.aggrExprs aggVecs)

/-- `PhysicalHashAggregation::Consume` on some rows, by the values of expressions on them. -/
def consumeValues (count : ℕ) (values : Expr → Fallible Error (List Scalar))
    (ht : AggregateHashTable) : Fallible Error AggregateHashTable :=
  if count = 0 then pure ht
  else if op.groupExprs = [] then do
    let aggVecs ← Fallible.traverse (argVec values) op.aggrExprs
    let (i, ht) ← ht.findOrCreate P []
    updateEntry ht i (updateColumns D count op.aggrExprs aggVecs)
  else do
    let groupVecs ← Fallible.traverse values op.groupExprs
    let aggVecs ← Fallible.traverse (argVec values) op.aggrExprs
    foldl (consumeRow op P D groupVecs aggVecs) ht (range count)

/-- `PhysicalHashAggregation::Consume`. -/
def consume (ht : AggregateHashTable) (input : DataChunk) : Fallible Error AggregateHashTable :=
  consumeValues op P D input.count (Expr.evaluate D input) ht

end PhysicalHashAggregation

/-! ## The source -/

structure PhysicalAggregationSource where
  outputTypes : List TypeId
  numGroupCols : ℕ
  aggs : List (AggFunc × TypeId)
  deriving DecidableEq, Repr

/-- The finalised aggregates of a group, appended to their columns. -/
def appendAggregates (D : DoubleOps) : List DataVector → List (AggFunc × TypeId) →
    List AggregateState → Fallible Error (List DataVector)
  | cols, [], _ => pure cols
  | col :: cols, agg :: aggs, state :: states => do
    let v ← state.finalize D agg.1 agg.2
    let col ← col.appendValue v
    let cols ← appendAggregates D cols aggs states
    pure (col :: cols)
  | _, _, _ => none

namespace PhysicalAggregationSource

variable (src : PhysicalAggregationSource) (D : DoubleOps)

/-- A row for a group. -/
def emitEntry (output : DataChunk) (entry : AggEntry) : Fallible Error DataChunk := do
  let keys ← appendValues (output.columns.take src.numGroupCols) entry.groupKey
  let aggs ← appendAggregates D (output.columns.drop src.numGroupCols) src.aggs entry.aggStates
  pure { columns := keys ++ aggs, count := output.count + 1 }

/-- `PhysicalAggregationSource::GetData`. Without GROUP BY and without input there is a row of
fresh accumulators. -/
def getData (ht : AggregateHashTable) (entryIdx : ℕ) :
    Fallible Error (OperatorResultType × DataChunk × ℕ) :=
  let output := DataChunk.initializeTypes src.outputTypes
  if src.numGroupCols = 0 ∧ ht.entryPool.length = 0 ∧ entryIdx = 0 then do
    let columns ← appendAggregates D output.columns src.aggs (replicate src.aggs.length {})
    pure (.finished, { columns, count := 1 }, 1)
  else do
    let next := (ht.entryPool.drop entryIdx).take standardVectorSize
    let output ← foldl (src.emitEntry D) output next
    let entryIdx := entryIdx + next.length
    pure (if ht.entryPool.length ≤ entryIdx then .finished else .haveMoreOutput, output, entryIdx)

/-- The chunks that the source emits, up to the first `FINISHED`. -/
def drain (ht : AggregateHashTable) : ℕ → ℕ → Fallible Error (List DataChunk)
  | 0, _ => none
  | fuel + 1, entryIdx => do
    let (result, output, entryIdx) ← src.getData D ht entryIdx
    let outputs := if output.count = 0 then [] else [output]
    if result = .finished then pure outputs
    else do
      let rest ← drain ht fuel entryIdx
      pure (outputs ++ rest)

end PhysicalAggregationSource

namespace PhysicalHashAggregation

/-- `PlanAggregate`: the source of an aggregation whose group columns have the given types. -/
def source (op : PhysicalHashAggregation) (groupTypes : List TypeId) :
    PhysicalAggregationSource where
  outputTypes := groupTypes ++ op.aggrExprs.map AggrExpr.resultType
  numGroupCols := op.groupExprs.length
  aggs := op.aggrExprs.map fun agg => (agg.func, agg.resultType)

/-- The aggregation pipeline: all chunks are consumed, then the source is drained. -/
def run (op : PhysicalHashAggregation) (P : Platform) (D : DoubleOps) (groupTypes : List TypeId)
    (fuel : ℕ) (chunks : List DataChunk) : Fallible Error (List DataChunk) := do
  let ht ← foldl (op.consume P D) { numAggregates := op.aggrExprs.length } chunks
  (op.source groupTypes).drain D ht fuel 0

end PhysicalHashAggregation

end CppColDB
