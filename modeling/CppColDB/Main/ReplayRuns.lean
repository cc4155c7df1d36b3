import CppColDB.Main.Recovery

/-!
# What the replay of an entry changes

A replayed transaction that leaves nothing in its undo buffer changes the catalog as its body
does and the counters of the transaction manager: `replayTransaction_run`. That is so for every
definition of a table, and for every entry whose table the transaction does not see.
-/

namespace CppColDB

open ByteCodec Catalog Imp

namespace Database

variable {P : Platform} {db db' : Database} {c : Catalog}

/-- After a transaction of the replay, which commits or rolls back with an empty undo
buffer. -/
def replayed (db : Database) (committed : Bool) (c : Catalog) : Database :=
  { db with
    catalog := c
    nextTxId := db.nextTxId + 1
    commitCounter := if committed then db.commitCounter + 1 else db.commitCounter
    activeTransactions := (db.beginTransaction true).activeTransactions.erase db.nextTxId }

/-- What a transaction of the replay sees. -/
def replaySnapshot (db : Database) : Snapshot := (db.newTransaction true).toSnapshot

theorem replayWal_run_iff {decode : Reader DataChunk} {file : Bytes} :
    replayWal P decode file db = some (.ok (), db') ↔
      ∃ es, replayedEntries file = .ok es ∧
        replayEntries P decode es db = some (.ok (), db') := by
  rw [replayWal, bind_run_eq_ok_iff]
  constructor
  · rintro ⟨es, db₁, hread, hrun⟩
    obtain ⟨hes, rfl⟩ := Prod.mk.inj (Option.some.inj hread)
    exact ⟨es, hes, hrun⟩
  · rintro ⟨es, hes, hrun⟩
    exact ⟨es, db, by rw [hes]; rfl, hrun⟩

variable {r : Except Error Unit} {e : CreatePayload}

theorem replayTransaction_run {body : Snapshot → Imp Error Database Unit}
    (h : body db.replaySnapshot (db.beginTransaction true) =
      some (r, (db.beginTransaction true).withCatalog c)) :
    replayTransaction body db = some (.ok (), db.replayed r.isOk c) := by
  have htx : transaction db.nextTxId ((db.beginTransaction true).withCatalog c) =
      some (.ok (db.newTransaction true), (db.beginTransaction true).withCatalog c) := by
    simp [transaction, bind_run, beginTransaction, withCatalog]
  rw [replaySnapshot] at h
  rw [replayTransaction, bind_run_ok get_run, bind_run_ok (modify_run _)]
  cases r with
  | ok a =>
    refine catchAll_run_ok ?_
    rw [bind_run_ok h]
    exact bind_run_ok htx
  | error e =>
    rw [catchAll_run_error (bind_run_error h)]
    exact bind_run_ok htx

/-! ## Entries without effect on rows -/

theorem onCatalog_run {α : Type} {m : Imp Error Catalog α} {res : Except Error α}
    (h : m db.catalog = some (res, c)) : onCatalog m db = some (res, db.withCatalog c) := by
  simp [onCatalog, focus, h]

theorem replayTransaction_onCatalog {m : Snapshot → Imp Error Catalog Unit}
    (h : m db.replaySnapshot db.catalog = some (r, c)) :
    replayTransaction (fun tx => onCatalog (m tx)) db = some (.ok (), db.replayed r.isOk c) :=
  replayTransaction_run (onCatalog_run h)

/-- The table is created, by a transaction that never commits it. -/
theorem replayCreate_new {s : Schema} (hschema : db.catalog.schemas.lookup e.schema = some s)
    (h : db.catalog.getTable e.schema e.table db.replaySnapshot = none) :
    replayCreate e db = some (.ok (), db.replayed true (db.catalog.createEntry e.schema
      { name := e.table, schemaName := e.schema, columns := e.columns, createTxId := db.nextTxId
        createCommitTime := invalidTimestamp, blockSize := db.catalog.blockSize
        partitionInfo := e.partitionInfo
        partitionRgIndices :=
          if e.partitionInfo.isPartitioned then List.replicate e.partitionInfo.numPartitions []
          else [] })) := by
  refine replayTransaction_onCatalog (r := .ok ()) ?_
  rw [createTable, bind_run_ok get_run, if_neg (by simp [hschema]), if_neg (by simp [h])]
  rfl

theorem replayCreate_throws (h : db.catalog.schemas.lookup e.schema = none ∨
      (db.catalog.getTable e.schema e.table db.replaySnapshot).isSome) :
    replayCreate e db = some (.ok (), db.replayed false db.catalog) := by
  have hthrows : ∃ err, createTable e.schema e.table e.columns db.replaySnapshot
      e.partitionInfo db.catalog = some (.error err, db.catalog) := by
    rw [createTable, bind_run_ok get_run]
    by_cases hschema : db.catalog.schemas.lookup e.schema = none
    · rw [if_pos (by simp [hschema])]
      exact ⟨_, rfl⟩
    · rw [if_neg (by simpa using hschema), if_pos (h.resolve_left hschema)]
      exact ⟨_, rfl⟩
  obtain ⟨err, herr⟩ := hthrows
  exact replayTransaction_onCatalog (r := .error err) herr

theorem replayDrop_throws {schema table : Bytes}
    (h : db.catalog.getTable schema table db.replaySnapshot = none) :
    replayDrop schema table db = some (.ok (), db.replayed false db.catalog) := by
  have hthrows : ∃ err, dropTable schema table db.replaySnapshot db.catalog =
      some (.error err, db.catalog) := by
    rw [dropTable, bind_run_ok get_run]
    cases db.catalog.schemas.lookup schema with
    | none => exact ⟨_, rfl⟩
    | some s =>
      simp only [h]
      exact ⟨_, rfl⟩
  obtain ⟨err, herr⟩ := hthrows
  exact replayTransaction_onCatalog herr

section Unseen

variable {schema table : Bytes}

theorem replayInsert_unseen {chunk : DataChunk}
    (h : db.catalog.getTable schema table db.replaySnapshot = none) :
    replayInsert P schema table chunk db = some (.ok (), db.replayed true db.catalog) := by
  refine replayTransaction_run (r := .ok ()) ?_
  rw [bind_run_ok get_run]
  simp only [show (db.beginTransaction true).catalog = db.catalog from rfl, h]
  rfl

theorem replayDelete_unseen {rowIds : List RowId}
    (h : db.catalog.getTable schema table db.replaySnapshot = none) :
    replayDelete schema table rowIds db = some (.ok (), db.replayed true db.catalog) := by
  refine replayTransaction_run (r := .ok ()) ?_
  rw [bind_run_ok get_run]
  simp only [show (db.beginTransaction true).catalog = db.catalog from rfl, h]
  rfl

theorem replayUpdate_unseen {e : UpdatePayload}
    (h : db.catalog.getTable e.schema e.table db.replaySnapshot = none) :
    replayUpdate e db = some (.ok (), db.replayed true db.catalog) := by
  refine replayTransaction_run (r := .ok ()) ?_
  rw [bind_run_ok get_run]
  simp only [show (db.beginTransaction true).catalog = db.catalog from rfl, h]
  rfl

end Unseen

/-! ## Changes of the partitions -/

variable {e : AlterPayload}

/-- Looking up the key columns takes at most a transaction id. -/
theorem resolvePartition_run {r : Except Error PartitionInfo}
    (h : resolvePartition e db = some (r, db')) :
    r.isOk ∧ (db' = db ∨ db' = db.replayed false db.catalog) := by
  rw [resolvePartition] at h
  split at h
  · have hrollback : rollback (db.newTransaction true) (db.beginTransaction true) =
        some (.ok (), db.replayed false db.catalog) := rfl
    rw [bind_run_ok get_run, bind_run_ok (modify_run _), bind_run_ok hrollback] at h
    cases hget : db.catalog.getTable e.schema e.table (db.newTransaction true).toSnapshot with
    | none =>
      simp only [hget] at h
      cases h
      exact ⟨rfl, .inr rfl⟩
    | some ref =>
      simp only [hget, bind_run] at h
      cases ht : db.catalog.table? ref with
      | none => simp [ht] at h
      | some t =>
        simp only [ht] at h
        cases h
        exact ⟨rfl, .inr rfl⟩
  · cases h
    exact ⟨rfl, .inl rfl⟩

/-- The new partitions are put in place at once; only the counters move besides. -/
theorem replayAlter_run (h : replayAlter e db = some (r, db')) :
    ∃ db₁ pi, (db₁ = db ∨ db₁ = db.replayed false db.catalog) ∧
      db' = db₁.replayed true (db.catalog.restorePartitionState e.schema e.table pi e.rgIndices
        db₁.replaySnapshot) := by
  rw [replayAlter, bind_run_eq_some_iff] at h
  obtain ⟨err, hresolve, -⟩ | ⟨pi, db₁, hresolve, h⟩ := h
  · exact absurd (resolvePartition_run hresolve).1 nofun
  · have hdb₁ := (resolvePartition_run hresolve).2
    have hcatalog : db₁.catalog = db.catalog := by
      rcases hdb₁ with rfl | rfl <;> rfl
    rw [replayTransaction_run (modify_run _)] at h
    cases h
    exact ⟨db₁, pi, hdb₁, by rw [← hcatalog]; rfl⟩

end Database

end CppColDB
