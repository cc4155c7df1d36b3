import CppColDB.Catalog.Catalog
import CppColDB.Storage.Wal.Log

/-!
# The transaction manager

`Database` is the catalog, the counters and active transactions of the
`TransactionManager`, and its log if it has one. `Commit` writes the log, takes the next
commit time and stamps what the undo buffer names; `Rollback` walks the undo buffer
backwards.
-/

namespace CppColDB

open Imp

structure Database where
  catalog : Catalog
  nextTxId : TransactionId := 1
  commitCounter : Timestamp := 0
  activeTransactions : Finmap (fun _ : TransactionId => Transaction) := ∅
  wal : Option Wal := none

/-! ## Undo entries at commit -/

namespace Catalog

/-- Change the version markers of one row group, if the table has it. -/
def modifyVersionInfo (c : Catalog) (r : TableRef) (g : ℕ) (f : VersionInfo → VersionInfo) :
    Catalog :=
  c.modifyRowGroup r g (RowGroup.mapVersionInfo f)

/-- Apply a call on version markers to every given row of a table. -/
def forRows (c : Catalog) (r : TableRef) (rowIds : List RowId)
    (f : ℕ → VersionInfo → VersionInfo) : Catalog :=
  rowIds.foldl (fun c row => c.modifyVersionInfo r row.group (f row.offset)) c

/-- One entry of `ApplyUndoBuffer`. -/
def applyUndoEntry (tx : Transaction) (c : Catalog) : UndoEntry → Catalog
  | .catalog e => c.commitEntry e.schema e.table tx.txId tx.commitTime
  | .insert e =>
    match c.getTable e.schema e.table tx.toSnapshot with
    | none => c
    | some r => c.modifyRowGroup r e.rowGroupId fun rg => rg.commitAppend tx.commitTime
  | .delete e =>
    match c.getTable e.schema e.table tx.toSnapshot with
    | none => c
    | some r => c.forRows r e.rowIds fun off vi => vi.commitDelete off tx.commitTime
  | .update e =>
    match c.getTable e.schema e.table tx.toSnapshot with
    | none => c
    | some r => c.forRows r e.rowIds fun off vi => vi.commitUpdate off tx.commitTime
  | .alterPartition _ => c

def applyUndoBuffer (c : Catalog) (tx : Transaction) : Catalog :=
  tx.undoBuffer.foldl (applyUndoEntry tx) c

/-! ## Undo entries at rollback -/

/-- Run a program on one row group; a missing one is undefined. -/
def onRowGroup {α : Type} (r : TableRef) (g : ℕ) (m : Imp Error RowGroup α) :
    Imp Error Catalog α :=
  focus (fun c => c.rowGroup? r g) (fun rg c => c.modifyRowGroup r g fun _ => rg) m

end Catalog

namespace RowGroup

/-- Run a program on one column of a row group. -/
def onColumn {α : Type} (col : ℕ) (m : Imp Error ColumnChunk α) : Imp Error RowGroup α :=
  focus (fun rg => rg.columnChunks[col]?)
    (fun cc rg => { rg with columnChunks := rg.columnChunks.set col cc }) m

/-- Write back the old values of an update and erase its markers. Columns the entry has no
values for end the loop; columns the row group does not have are skipped. -/
def undoUpdate (e : UpdateUndoEntry) (offsets : List ℕ) : Imp Error RowGroup Unit := do
  forEach (e.colIds.zip e.oldValues.columns) fun (col, old) => do
    let rg ← get
    if col < rg.columnChunks.length then onColumn col (ColumnChunk.writeRows offsets old)
    else pure ()
  modify (mapVersionInfo fun vi => offsets.foldl (fun vi off => vi.revertUpdate off) vi)

end RowGroup

namespace Catalog

/-- One entry of `UndoBufferReverse`. All rows of an update entry are taken to be in the row
group of the first one. -/
def undoEntry (tx : Transaction) : UndoEntry → Imp Error Catalog Unit
  | .catalog e =>
    if e.wasCreate then modify fun c => c.rollbackCreate e.schema e.table tx.txId
    else modify fun c => c.rollbackDrop e.schema e.table tx.txId
  | .insert e => modify fun c =>
    match c.getTable e.schema e.table tx.toSnapshot with
    | none => c
    | some r => c.modifyRowGroup r e.rowGroupId RowGroup.revertAppend
  | .delete e => modify fun c =>
    match c.getTable e.schema e.table tx.toSnapshot with
    | none => c
    | some r => c.forRows r e.rowIds fun off vi => vi.clearDeleteMarker off
  | .update e => do
    let c ← get
    match c.getTable e.schema e.table tx.toSnapshot with
    | none => pure ()
    | some r =>
      let rowIds := e.rowIds.take e.oldValues.count
      match rowIds with
      | [] => pure ()
      | first :: _ =>
        if (c.rowGroup? r first.group).isSome then
          onRowGroup r first.group (RowGroup.undoUpdate e (rowIds.map RowId.offset))
        else pure ()
  | .alterPartition e => modify fun c =>
    c.restorePartitionState e.schema e.table e.oldPartitionInfo e.oldPartitionRgIndices
      tx.toSnapshot

def undoBufferReverse (tx : Transaction) : Imp Error Catalog Unit :=
  forEach tx.undoBuffer.reverse (undoEntry tx)

end Catalog

/-! ## Transactions -/

namespace Database

/-- Put a catalog in the place of the current one. -/
def withCatalog (db : Database) (c : Catalog) : Database := { db with catalog := c }

/-- The transaction that the next `BeginTransaction` returns. -/
def newTransaction (db : Database) (autoCommit : Bool) : Transaction :=
  { txId := db.nextTxId, startTime := db.commitCounter + 1, autoCommit }

def beginTransaction (db : Database) (autoCommit : Bool) : Database :=
  { db with
    nextTxId := db.nextTxId + 1
    activeTransactions := db.activeTransactions.insert db.nextTxId (db.newTransaction autoCommit) }

/-- The changes of a statement go to the undo buffer of its transaction. -/
def pushUndo (db : Database) (id : TransactionId) (e : UndoEntry) : Database :=
  match db.activeTransactions.lookup id with
  | none => db
  | some tx =>
    { db with
      activeTransactions :=
        db.activeTransactions.insert id { tx with undoBuffer := tx.undoBuffer ++ [e] } }

/-- Take the commit time, stamp the changes and leave the active transactions. -/
def publish (db : Database) (tx : Transaction) : Database :=
  { db with
    commitCounter := db.commitCounter + 1
    catalog := db.catalog.applyUndoBuffer { tx with commitTime := db.commitCounter + 1 }
    activeTransactions := db.activeTransactions.erase tx.txId }

/-- Run a program on the log. -/
def onWal (m : Imp Error Wal Unit) : Imp Error Database Unit :=
  focus Database.wal (fun w db => { db with wal := some w }) m

/-- Run a program on the catalog. -/
def onCatalog {α : Type} (m : Imp Error Catalog α) : Imp Error Database α :=
  focus (fun db => some db.catalog) (fun c db => db.withCatalog c) m

def commit (tx : Transaction) : Imp Error Database Unit := do
  let db ← get
  if !tx.undoBuffer.isEmpty && db.wal.isSome then onWal tx.writeToWal else pure ()
  modify fun db => db.publish tx

def rollback (tx : Transaction) : Imp Error Database Unit := do
  onCatalog (Catalog.undoBufferReverse tx)
  modify fun db => { db with activeTransactions := db.activeTransactions.erase tx.txId }

end Database

/-! ## Timestamps -/

/-- The two atomics of the manager, at their widths. -/
structure Counters where
  nextTxId : UInt64
  commitCounter : Int64
  deriving DecidableEq, Repr

/-- The atomic steps of `BeginTransaction`, which takes an id and then reads the counter, and of
`Commit`, of any transactions. -/
inductive ClockStep where
  | takeId
  | readCounter
  | increment
  deriving DecidableEq, Repr

namespace Counters

def step (c : Counters) : ClockStep → Counters
  | .takeId => { c with nextTxId := c.nextTxId + 1 }
  | .readCounter => c
  | .increment => { c with commitCounter := c.commitCounter + 1 }

/-- The id that step `i` takes. -/
def txIdAt (c : Counters) (steps : List ClockStep) (i : ℕ) : UInt64 :=
  ((steps.take i).foldl step c).nextTxId

/-- The start time or the commit time that step `i` makes of the counter. -/
def timeAt (c : Counters) (steps : List ClockStep) (i : ℕ) : Int64 :=
  ((steps.take i).foldl step c).commitCounter + 1

theorem foldl_step (id : ℕ) (now : ℤ) (steps : List ClockStep) :
    steps.foldl step ⟨.ofNat id, .ofInt now⟩ =
      ⟨.ofNat (id + steps.count .takeId), .ofInt (now + steps.count .increment)⟩ := by
  induction steps generalizing id now with
  | nil => simp
  | cons s steps ih =>
    cases s with
    | takeId =>
      rw [List.foldl_cons, step, ← UInt64.ofNat_one, ← UInt64.ofNat_add, ih]
      simp [add_assoc, add_comm 1]
    | readCounter => simpa [step] using ih id now
    | increment =>
      rw [List.foldl_cons, step, show (1 : Int64) = .ofInt 1 from rfl, ← Int64.ofInt_add, ih]
      simp [add_assoc, add_comm (1 : ℤ)]

end Counters

namespace Database

/-- The counters of the manager as the machine has them. -/
def counters (db : Database) : Counters := ⟨.ofNat db.nextTxId, .ofInt db.commitCounter⟩

/-- Calls of the manager from `db` to `db'`, and the atomic steps they take. -/
inductive CallRun (db : Database) : List ClockStep → Database → Prop
  | refl : CallRun db [] db
  | begin {steps : List ClockStep} {db' : Database} (h : CallRun db steps db') (autoCommit : Bool) :
      CallRun db (steps ++ [.takeId, .readCounter]) (db'.beginTransaction autoCommit)
  | commit {steps : List ClockStep} {db' db'' : Database} {tx : Transaction}
      (h : CallRun db steps db') (hrun : commit tx db' = some (.ok (), db'')) :
      CallRun db (steps ++ [.increment]) db''
  -- statements, rollbacks, and commits whose log cannot be written
  | other {steps : List ClockStep} {db' db'' : Database} (h : CallRun db steps db')
      (hid : db''.nextTxId = db'.nextTxId) (htime : db''.commitCounter = db'.commitCounter) :
      CallRun db steps db''

variable {db db' : Database} {steps : List ClockStep} {i j : ℕ}

theorem counters_commit {tx : Transaction} (h : commit tx db = some (.ok (), db')) :
    db'.nextTxId = db.nextTxId ∧ db'.commitCounter = db.commitCounter + 1 := by
  rw [commit, bind_run_ok get_run] at h
  split at h
  · obtain ⟨⟨⟩, db₁, hlog, hpublish⟩ := bind_run_eq_ok_iff.mp h
    obtain ⟨w, w', -, -, rfl⟩ := focus_run_eq_some_iff.mp hlog
    cases hpublish
    exact ⟨rfl, rfl⟩
  · cases h
    exact ⟨rfl, rfl⟩

theorem CallRun.nextTxId (h : CallRun db steps db') :
    db'.nextTxId = db.nextTxId + steps.count .takeId ∧
      db'.commitCounter = db.commitCounter + steps.count .increment := by
  induction h with
  | refl => simp
  | begin _ _ ih => simp [beginTransaction, ih, add_assoc]
  | commit _ hrun ih =>
    obtain ⟨hid, htime⟩ := counters_commit hrun
    simp [hid, htime, ih, add_assoc]
  | other _ hid htime ih => rw [hid, htime]; exact ih

theorem count_take_lt_iff {step : ClockStep} (hi : steps[i]? = some step) :
    (steps.take i).count step < (steps.take j).count step ↔ i < j := by
  have mono {m n : ℕ} (h : m ≤ n) : (steps.take m).count step ≤ (steps.take n).count step :=
    (List.take_prefix_take_left h).sublist.count_le step
  refine ⟨fun h => lt_of_not_ge fun hji => h.not_ge (mono hji), fun hij => ?_⟩
  have hcount : (steps.take (i + 1)).count step = (steps.take i).count step + 1 := by
    simp [List.take_add_one, hi]
  exact (Nat.lt_of_succ_le hcount.ge).trans_le (mono hij)

/-- A manager that has just been made. -/
def freshManager : Database := { catalog := .create 64 }

/-- Two transactions: the second one takes its id before the first one commits, and reads the
counter afterwards. -/
def interleaved : List ClockStep := [.takeId, .readCounter, .takeId, .increment, .readCounter]

end Database

end CppColDB
