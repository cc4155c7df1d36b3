import CppColDB.Main.ReplayRuns
import CppColDB.Main.Serial
import CppColDB.Storage.Column.Reading

/-!
# Replaying the definitions of tables

A replayed `CREATE TABLE` has no undo entry, so its commit does not stamp the table: the
transaction that created it is over, and no other one sees it. After the replay of a log on an
empty database there is no table, whatever the log holds.
-/

namespace CppColDB

open ByteCodec Catalog Imp List

/-- The rows of a row group that a transaction sees, with the given columns. -/
def RowGroup.visibleRows (rg : RowGroup) (cols : List ℕ) (tx : Snapshot) : List Row :=
  ((range rg.rowCount).filter fun o => rg.versionInfo.isVisible o tx).map (rg.row cols)

/-- The rows of a table that a transaction sees. -/
def TableCatalogEntry.visibleRows (t : TableCatalogEntry) (tx : Snapshot) : List Row :=
  t.rowGroups.flatMap fun rg => rg.visibleRows (range t.columns.length) tx

namespace Database

/-- What the next transaction finds under a name: names and types of the columns, and the
rows. -/
def contents (db : Database) (schema name : Bytes) :
    Option (List (Bytes × TypeId) × Multiset Row) := do
  let r ← db.catalog.getTable schema name db.replaySnapshot
  let t ← db.catalog.table? r
  pure (t.columns.map fun col => (col.name, col.type), t.visibleRows db.replaySnapshot)

/-- The log file. -/
def logFile (db : Database) : Bytes := (db.wal.map Wal.file).getD []

/-- Two databases in which the next transaction finds the same tables and rows. -/
def SameContents (db db' : Database) : Prop :=
  ∀ schema name, db'.contents schema name = db.contents schema name

variable {P : Platform} {decode : Reader DataChunk} {db db' : Database} {schema name : Bytes}

theorem contents_eq_none_iff : db.contents schema name = none ↔
      db.catalog.getTable schema name db.replaySnapshot = none := by
  rw [contents]
  cases hr : db.catalog.getTable schema name db.replaySnapshot with
  | none => exact iff_of_true rfl rfl
  | some r =>
    obtain ⟨t, ht⟩ := exists_table?_of_getTable hr
    simp [ht]

/-! ## Tables that nobody sees -/

/-- Every table was created by a transaction that is over and did not stamp it. -/
def Unseen (db : Database) : Prop := ∀ schema name, ∀ e ∈ db.catalog.stampsOf schema name,
  e.createCommitTime = invalidTimestamp ∧ e.createTxId < db.nextTxId

theorem Unseen.getTable (h : db.Unseen) {tx : Snapshot} (htx : db.nextTxId ≤ tx.txId) :
    db.catalog.getTable schema name tx = none := by
  refine getTable_eq_none_iff.mpr fun e he => ?_
  obtain ⟨htime, hid⟩ := h schema name e he
  rw [EntryStamps.isVisible, if_pos ⟨(hid.trans_le htx).ne, .inl htime⟩]

theorem Unseen.replayed (h : db.Unseen) (committed : Bool) :
    (db.replayed committed db.catalog).Unseen := by
  intro schema name e he
  obtain ⟨htime, hid⟩ := h schema name e he
  exact ⟨htime, Nat.lt_succ_of_lt hid⟩

variable {r : Except Error Unit}

theorem Unseen.replayCreate (h : db.Unseen) {e : CreatePayload}
    (hrun : Database.replayCreate e db = some (r, db')) : db'.Unseen := by
  have hnone : db.catalog.getTable e.schema e.table db.replaySnapshot = none := h.getTable le_rfl
  cases hs : db.catalog.schemas.lookup e.schema with
  | none =>
    rw [replayCreate_throws (.inl hs)] at hrun
    cases hrun
    exact h.replayed false
  | some s =>
    rw [replayCreate_new hs hnone] at hrun
    cases hrun
    intro schema name e' he'
    change e' ∈ (db.catalog.createEntry e.schema _).stampsOf schema name at he'
    rw [stampsOf_createEntry hs] at he'
    have hold : e' ∈ db.catalog.stampsOf schema name →
        e'.createCommitTime = invalidTimestamp ∧ e'.createTxId < db.nextTxId + 1 := fun hmem =>
      ⟨(h schema name e' hmem).1, Nat.lt_succ_of_lt (h schema name e' hmem).2⟩
    by_cases hname : schema = e.schema ∧ name = e.table
    · rw [if_pos hname] at he'
      rcases mem_append.mp he' with hmem | hmem
      · exact hold hmem
      · rw [mem_singleton.mp hmem]
        exact ⟨rfl, Nat.lt_succ_self _⟩
    · rw [if_neg hname] at he'
      exact hold he'

theorem Unseen.replayAlter (h : db.Unseen) {e : AlterPayload}
    (hrun : Database.replayAlter e db = some (r, db')) : db'.Unseen := by
  obtain ⟨db₁, pi, hdb₁, rfl⟩ := replayAlter_run hrun
  have hunseen : db₁.Unseen ∧ db₁.catalog = db.catalog := by
    rcases hdb₁ with rfl | rfl
    · exact ⟨h, rfl⟩
    · exact ⟨h.replayed false, rfl⟩
  have hsame : db.catalog.restorePartitionState e.schema e.table pi e.rgIndices
      db₁.replaySnapshot = db₁.catalog := by
    rw [restorePartitionState, ← hunseen.2, hunseen.1.getTable le_rfl]
  rw [hsame]
  exact hunseen.1.replayed true

theorem exists_of_parse {α : Type} {reader : Reader α} {data : Bytes}
    {f : α → Imp Error Database Unit}
    (h : (parse reader data >>= f) db = some (r, db')) :
    ∃ a, (∃ rest, reader data = some (a, rest)) ∧ f a db = some (r, db') := by
  rw [parse, bind_run] at h
  cases hread : reader data with
  | none => simp [hread] at h
  | some res =>
    simp only [hread] at h
    exact ⟨_, ⟨_, rfl⟩, h⟩

/-- **One entry**: no table becomes visible. -/
theorem Unseen.replayEntry (h : db.Unseen) {e : WalEntry}
    (hrun : Database.replayEntry P decode e db = some (r, db')) : db'.Unseen := by
  have hnone : ∀ {schema name}, db.catalog.getTable schema name db.replaySnapshot = none :=
    h.getTable le_rfl
  obtain ⟨type, data⟩ := e
  cases type with
  | createTable =>
    obtain ⟨p, -, hrun⟩ := exists_of_parse hrun
    exact h.replayCreate hrun
  | dropTable =>
    obtain ⟨⟨schema, table⟩, -, hrun⟩ := exists_of_parse hrun
    cases (replayDrop_throws hnone).symm.trans hrun
    exact h.replayed false
  | insert =>
    obtain ⟨⟨schema, table, chunk⟩, -, hrun⟩ := exists_of_parse hrun
    cases (replayInsert_unseen hnone).symm.trans hrun
    exact h.replayed true
  | delete =>
    obtain ⟨⟨schema, table, rowIds⟩, -, hrun⟩ := exists_of_parse hrun
    cases (replayDelete_unseen hnone).symm.trans hrun
    exact h.replayed true
  | update =>
    obtain ⟨p, -, hrun⟩ := exists_of_parse hrun
    cases (replayUpdate_unseen hnone).symm.trans hrun
    exact h.replayed true
  | alterTable =>
    obtain ⟨p, -, hrun⟩ := exists_of_parse hrun
    exact h.replayAlter hrun
  | createSchema | dropSchema | checkpoint | unnamed code hcode =>
    cases hrun
    exact h

/-- **The replay of a log** on an empty database leaves no visible table. -/
theorem unseen_replayWal {blockSize : ℕ} {file : Bytes}
    (hrun : replayWal P decode file { catalog := create blockSize } = some (.ok (), db)) :
    db.Unseen := by
  have hentries : ∀ {db₁ : Database} {es : List WalEntry}, db₁.Unseen →
      replayEntries P decode es db₁ = some (.ok (), db) → db.Unseen := by
    intro db₁ es h hrun
    refine (Keeps.forEach (fun e _ => Keeps.of_run fun hkeep hstep => ?_) :
      Keeps Unseen (replayEntries P decode es)).run h hrun
    exact Unseen.replayEntry hkeep hstep
  obtain ⟨es, -, hrun⟩ := replayWal_run_iff.mp hrun
  refine hentries ?_ hrun
  intro schema name e he
  rw [stampsOf_create] at he
  cases he

/-! ## Rebuilding the catalog -/

/-- **The replay rebuilds the catalog** exactly where there was no table: after it a transaction
finds none, and before the crash one found those of `liveTables`. -/
theorem replay_rebuilds_iff (P : Platform) (decode : Reader DataChunk) (blockSize : ℕ)
    (txs : List (List TableStatement)) (db db' : Database)
    (hrun : runSerialAll P txs { catalog := create blockSize, wal := some {} } = some (.ok (), db))
    (hreplay : replayWal P decode db.logFile { catalog := create blockSize } = some (.ok (), db')) :
    SameContents db db' ↔ liveTables txs = ∅ := by
  have hserial := serial_runSerialAll hrun
  have hempty : ∀ schema name, db'.contents schema name = none := fun schema name =>
    contents_eq_none_iff.mpr ((unseen_replayWal hreplay).getTable le_rfl)
  have hlive : ∀ schema name, db.contents schema name = none ↔ (schema, name) ∉ liveTables txs :=
    fun schema name => contents_eq_none_iff.trans hserial.getTable_eq_none_iff
  rw [Finset.eq_empty_iff_forall_notMem]
  constructor
  · rintro h ⟨schema, name⟩
    rw [← hlive, ← h, hempty]
  · intro h schema name
    rw [hempty, (hlive schema name).mpr (h _)]

/-- The table `a` of one BIGINT column. -/
def createA : TableStatement :=
  .create defaultSchema (text "a") [{ name := text "x", type := .int64 }] {} false

/-- A row for it. -/
def rowA : DataChunk :=
  { columns := [{ type := .int64, count := 1, intData := [7], validity := 1 }], count := 1 }

def insertA : TableStatement := .insert defaultSchema (text "a") [0] rowA

def dropA : TableStatement := .drop defaultSchema (text "a") false

/-- A decoder that reads this row back. -/
def decodeA : Reader DataChunk := fun input => some (rowA, input.drop (serializeChunk rowA).length)

theorem decodeA_serializeChunk (rest : Bytes) :
    decodeA (serializeChunk rowA ++ rest) = some (rowA, rest) := by
  rw [decodeA, drop_left]

/-- The transactions run from an empty database, and their log is replayed. -/
def replays (txs : List (List TableStatement)) : Bool :=
  match runSerialAll Platform.plain txs { catalog := create 4096, wal := some {} } with
  | some (.ok _, db) => match replayWal Platform.plain decodeA db.logFile
      { catalog := create 4096 } with
    | some (.ok _, _) => true
    | _ => false
  | _ => false

theorem exists_of_replays {txs : List (List TableStatement)} (h : replays txs) : ∃ db db',
    runSerialAll Platform.plain txs { catalog := create 4096, wal := some {} } = some (.ok (), db) ∧
    replayWal Platform.plain decodeA db.logFile { catalog := create 4096 } =
      some (.ok (), db') := by
  rw [replays] at h
  split at h
  next db hrun =>
    split at h
    next db' hreplay => exact ⟨db, db', hrun, hreplay⟩
    next => cases h
  next => cases h

/-- A table that was dropped again. -/
theorem replay_rebuilds_dropped : ∃ db db',
    runSerialAll Platform.plain [[createA], [insertA], [dropA]]
      { catalog := create 4096, wal := some {} } = some (.ok (), db) ∧
    replayWal Platform.plain decodeA db.logFile { catalog := create 4096 } =
      some (.ok (), db') ∧ SameContents db db' := by
  have hreplays : replays [[createA], [insertA], [dropA]] := by decide +kernel
  obtain ⟨db, db', hrun, hreplay⟩ := exists_of_replays hreplays
  exact ⟨db, db', hrun, hreplay, (replay_rebuilds_iff _ _ _ _ db db' hrun hreplay).mpr (by decide)⟩

/-- A table with a row: it is gone after the replay, although the row is read back. -/
theorem replay_loses_table : (∀ rest, decodeA (serializeChunk rowA ++ rest) = some (rowA, rest)) ∧
    ∃ db db', runSerialAll Platform.plain [[createA], [insertA]]
        { catalog := create 4096, wal := some {} } = some (.ok (), db) ∧
      replayWal Platform.plain decodeA db.logFile { catalog := create 4096 } = some (.ok (), db') ∧
      db.contents defaultSchema (text "a") ≠ none ∧
      db'.contents defaultSchema (text "a") = none ∧ ¬ SameContents db db' := by
  have hreplays : replays [[createA], [insertA]] := by decide +kernel
  obtain ⟨db, db', hrun, hreplay⟩ := exists_of_replays hreplays
  have hbefore : db.contents defaultSchema (text "a") ≠ none := by
    rw [ne_eq, contents_eq_none_iff]
    exact fun hnone => (serial_runSerialAll hrun).getTable_eq_none_iff.mp hnone (by decide)
  have hafter : db'.contents defaultSchema (text "a") = none :=
    contents_eq_none_iff.mpr ((unseen_replayWal hreplay).getTable le_rfl)
  exact ⟨decodeA_serializeChunk, db, db', hrun, hreplay, hbefore, hafter,
    fun h => hbefore (h _ _ ▸ hafter)⟩

end Database

end CppColDB
