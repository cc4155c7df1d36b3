import CppColDB.Transaction.Manager

/-!
# INSERT

`DoInsertChunk`, which `INSERT ... VALUES` calls once and `INSERT ... SELECT` once per
chunk. Each row group that receives rows gets one append and one undo entry.
-/

namespace CppColDB

open ByteCodec Imp List Option

namespace Database

/-- Append a chunk to a row group and record it in the undo buffer. -/
def appendRows (tx : Snapshot) (r : TableRef) (g : ℕ) (chunk : DataChunk) (colIds : List ℕ) :
    Imp Error Database Unit := do
  let db ← get
  let rg ← ofOption (db.catalog.rowGroup? r g)
  let rg' ← ofOption (rg.append chunk colIds tx.txId)
  modify fun db => db.withCatalog (db.catalog.modifyRowGroup r g fun _ => rg')
  modify fun db => db.pushUndo tx.txId (.insert
    { schema := r.schema, table := r.name, rowGroupId := g, appendStart := rg.rowCount
      appendCount := chunk.count, insertedRows := chunk })

end Database

/-! ## Routing the rows of a chunk -/

/-- The value of row `i` of a column as a partition key; it keeps the column's type. -/
def partitionKey (vec : DataVector) (i : ℕ) : Option Value :=
  match vec.type.storageClass with
  | .float => vec.floatData[i]?.map fun x => { Value.float x with type := vec.type }
  | .str => vec.strData[i]?.map Value.varchar
  | .int | .none => vec.intData[i]?.map fun x => { Value.integer x with type := vec.type }

/-- The position in the chunk of each of the first eight key columns. -/
def keyPositions (columnIds : List ℕ) (keyCols : List ℤ) : Except Error (List ℕ) :=
  (keyCols.take 8).mapM fun key =>
    match columnIds.findIdx? fun c => (c : ℤ) = key with
    | some i => .ok i
    | none => .error (Error.runtime (text "INSERT: partition key column not included in INSERT"))

/-- The keys of row `i`; a NULL among them is an error. -/
def rowKeys (chunk : DataChunk) (i : ℕ) : List ℕ → Option (Except Error (List Value))
  | [] => some (.ok [])
  | pos :: rest => do
    let vec ← chunk.columns[pos]?
    if vec.isNull i then
      pure (.error (Error.runtime (text "partition key must not be NULL")))
    else
      let key ← partitionKey vec i
      match ← rowKeys chunk i rest with
      | .ok keys => pure (.ok (key :: keys))
      | .error e => pure (.error e)

/-- Put row `i` at the end of the rows of its partition. -/
def addToPartition (pid i : ℕ) : List (ℕ × List ℕ) → List (ℕ × List ℕ)
  | [] => [(pid, [i])]
  | (pid', rows) :: rest =>
    if pid' = pid then (pid', rows ++ [i]) :: rest
    else (pid', rows) :: addToPartition pid i rest

/-- The rows of a chunk by partition, given the keys of each row. -/
def byPartition (P : Platform) (pi : PartitionInfo)
    (keysOf : ℕ → Option (Except Error (List Value))) :
    List ℕ → List (ℕ × List ℕ) → Option (Except Error (List (ℕ × List ℕ)))
  | [], acc => some (.ok acc)
  | i :: rest, acc => do
    match ← keysOf i with
    | .error e => pure (.error e)
    | .ok keys =>
      match ← pi.routeRow P keys with
      | .error e => pure (.error e)
      | .ok pid => byPartition P pi keysOf rest (addToPartition pid i acc)

/-- The partitions in the order the hash map is traversed. -/
def traverse (P : Platform) (parts : List (ℕ × List ℕ)) : List (ℕ × List ℕ) :=
  (P.traversal (parts.map Prod.fst)).map fun pid => (pid, (parts.lookup pid).getD [])

/-- `CompareRowsByKey`. -/
def rowLess (vec : DataVector) (a b : ℕ) : Bool :=
  match vec.type.storageClass with
  | .float => Double.lt ((vec.floatData[a]?).getD 0) ((vec.floatData[b]?).getD 0)
  | .str => decide ((vec.strData[a]?).getD [] < (vec.strData[b]?).getD [])
  | .int | .none => decide ((vec.intData[a]?).getD 0 < (vec.intData[b]?).getD 0)

/-- The comparison orders the rows, so that sorting by it is defined: every row has a value
and none of them is not a number. -/
def sortable (vec : DataVector) (rows : List ℕ) : Bool :=
  match vec.type.storageClass with
  | .float => rows.all fun i => (vec.floatData[i]?).any fun x => !Double.isNaN x
  | .str => rows.all fun i => i < vec.strData.length
  | .int | .none => rows.all fun i => i < vec.intData.length

/-- The rows of one partition, sorted by the leading key column. -/
def sortRows (P : Platform) (chunk : DataChunk) (sortCol : ℕ) (rows : List ℕ) :
    Option (List ℕ) := do
  if rows.length ≤ 1 then pure rows
  else
    let vec ← chunk.columns[sortCol]?
    if sortable vec rows then pure (P.sort (rowLess vec) rows) else none

namespace Database

/-- One round of the partition loop, for the given rows in their final order. -/
def appendPartition (tx : Snapshot) (r : TableRef) (chunk : DataChunk) (columnIds : List ℕ)
    (pid : ℕ) (rows : List ℕ) : Imp Error Database Unit := do
  let slice ← ofOption (chunk.slice rows)
  let db ← get
  let t ← ofOption (db.catalog.table? r)
  let (t, g) ← ofOption (t.getOrAddRowGroupForPartition pid)
  modify fun db => db.withCatalog (db.catalog.modifyTable r fun _ => t)
  appendRows tx r g slice columnIds

/-- The branch for tables that are not partitioned. -/
def insertPlain (tx : Snapshot) (r : TableRef) (chunk : DataChunk) (columnIds : List ℕ) :
    Imp Error Database Unit := do
  modify fun db =>
    db.withCatalog (db.catalog.modifyTable r TableCatalogEntry.getOrAddRowGroup)
  let db ← get
  let t ← ofOption (db.catalog.table? r)
  appendRows tx r (t.rowGroups.length - 1) chunk columnIds

/-- The branch for partitioned tables. Every row is routed before any is appended. -/
def insertPartitioned (P : Platform) (tx : Snapshot) (r : TableRef) (pi : PartitionInfo)
    (chunk : DataChunk) (columnIds : List ℕ) : Imp Error Database Unit := do
  let positions ← ofExcept (some (keyPositions columnIds pi.partitionColIdxs))
  let parts ← ofExcept
    (byPartition P pi (fun i => rowKeys chunk i positions) (range chunk.count) [])
  forEach (traverse P parts) fun (pid, rows) => do
    let rows ← ofOption (sortRows P chunk (positions.headD 0) rows)
    appendPartition tx r chunk columnIds pid rows

def doInsertChunk (P : Platform) (tx : Snapshot) (r : TableRef) (chunk : DataChunk)
    (columnIds : List ℕ) : Imp Error Database Unit := do
  let db ← get
  let t ← ofOption (db.catalog.table? r)
  if t.partitionInfo.isPartitioned then
    insertPartitioned P tx r t.partitionInfo chunk columnIds
  else insertPlain tx r chunk columnIds

/-- `PhysicalInsert`, for one chunk of rows. -/
def physicalInsert (P : Platform) (tx : Snapshot) (schema table : Bytes) (columnIds : List ℕ)
    (rows : DataChunk) : Imp Error Database Unit :=
  if rows.count = 0 then pure ()
  else do
    let db ← get
    match db.catalog.getTable schema table tx with
    | none => throw (Error.runtime (text "INSERT: table not found: " ++ table))
    | some r => doInsertChunk P tx r rows columnIds

end Database

/-! ## The rows of a partition -/

section Routing

variable {P : Platform} {pi : PartitionInfo} {keysOf : ℕ → Option (Except Error (List Value))}
  {rows sorted : List ℕ} {acc parts : List (ℕ × List ℕ)} {Q : ℕ × List ℕ → Prop}

/-- Row `i` is routed to partition `pid`. -/
def RoutesTo (P : Platform) (pi : PartitionInfo)
    (keysOf : ℕ → Option (Except Error (List Value))) (i pid : ℕ) : Prop :=
  ∃ keys, keysOf i = some (.ok keys) ∧ pi.routeRow P keys = some (.ok pid)

theorem mem_addToPartition {pid i : ℕ} (hacc : ∀ p ∈ acc, Q p) (hnew : Q (pid, [i]))
    (hadd : ∀ rows, Q (pid, rows) → Q (pid, rows ++ [i])) :
    ∀ p ∈ addToPartition pid i acc, Q p := by
  induction acc with
  | nil => exact forall_mem_singleton.mpr hnew
  | cons p acc ih =>
    obtain ⟨hp, hrest⟩ := forall_mem_cons.mp hacc
    rw [addToPartition]
    split
    next heq => exact forall_mem_cons.mpr ⟨heq ▸ hadd _ (heq ▸ hp), hrest⟩
    next => exact forall_mem_cons.mpr ⟨hp, ih hrest⟩

/-- What holds of a partition with one row that is routed to it, and is kept by adding such
rows, holds of every partition. -/
theorem mem_byPartition (hacc : ∀ p ∈ acc, Q p)
    (hnew : ∀ pid i, i ∈ rows → RoutesTo P pi keysOf i pid → Q (pid, [i]))
    (hadd : ∀ pid i done, i ∈ rows → RoutesTo P pi keysOf i pid → Q (pid, done) →
      Q (pid, done ++ [i]))
    (h : byPartition P pi keysOf rows acc = some (.ok parts)) : ∀ p ∈ parts, Q p := by
  induction rows generalizing acc with
  | nil =>
    cases h
    exact hacc
  | cons i rows ih =>
    rw [byPartition, bind_eq_bind, bind_eq_some_iff] at h
    obtain ⟨keys, hkeys, h⟩ := h
    cases keys with
    | error e => cases h
    | ok keys =>
      obtain ⟨pid, hpid, h⟩ := bind_eq_some_iff.mp h
      cases pid with
      | error e => cases h
      | ok pid =>
        have hi : RoutesTo P pi keysOf i pid := ⟨keys, hkeys, hpid⟩
        refine ih (mem_addToPartition hacc (hnew pid i mem_cons_self hi)
          fun done => hadd pid i done mem_cons_self hi) ?_ ?_ h
        · exact fun pid j hj => hnew pid j (mem_cons_of_mem i hj)
        · exact fun pid j done hj => hadd pid j done (mem_cons_of_mem i hj)

theorem mem_of_mem_traverse {p : ℕ × List ℕ} (hp : p ∈ traverse P parts) : p ∈ parts := by
  obtain ⟨pid, hpid, rfl⟩ := mem_map.mp hp
  obtain ⟨part, hmem, rfl⟩ := mem_map.mp ((P.traversal_perm _).mem_iff.mp hpid)
  obtain ⟨rows, hlookup⟩ := isSome_iff_exists.mp
    (lookup_isSome_iff.mpr ⟨part, hmem, beq_self_eq_true _⟩)
  obtain ⟨front, back, hparts, -⟩ := lookup_eq_some_iff.mp hlookup
  rw [hlookup]
  simp [hparts]

theorem sortRows_perm {chunk : DataChunk} {sortCol : ℕ}
    (h : sortRows P chunk sortCol rows = some sorted) : sorted.Perm rows := by
  rw [sortRows] at h
  split at h
  · cases h
    exact .refl _
  · obtain ⟨vec, -, h⟩ := bind_eq_some_iff.mp h
    split at h
    · cases h
      exact P.sort_perm (rowLess vec) rows
    · cases h

end Routing

end CppColDB
