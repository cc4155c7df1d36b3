import CppColDB.Main.Rebuild

/-!
# Transaction ids and commit times across a recovery

The replay runs under a transaction manager of its own, and its stamps and markers stay behind
when `InitPersistent` puts a new one in its place, whose ids and times start over. A table or
row that the replay left is owned by a transaction id that is given again, and its commit time
lies in the future of the next transactions.

Entries that the replay skips leave nothing of that kind: those of tables that are not there,
and definitions of tables that are.
-/

namespace CppColDB

open ByteCodec EntryStamps Imp List Option

namespace Catalog

variable {c c' : Catalog} {blocks : List Bytes} {t : TableCatalogEntry} {r : Except Error Unit}
  {image : TableImage} {tx : Snapshot}

/-- The transaction created or dropped a table, or has a marker. -/
def Owns (c : Catalog) (id : TransactionId) : Prop :=
  ∃ schema name, ∃ t ∈ c.versions schema name, t.createTxId = id ∨ t.deleteTxId = id ∨
    ∃ rg ∈ t.rowGroups, ∃ o m, rg.versionInfo.marker? o = some m ∧ m.txId = id

/-- The commit time is that of a table or of a marker. -/
def Stamped (c : Catalog) (time : Timestamp) : Prop :=
  time ≠ invalidTimestamp ∧ ∃ schema name, ∃ t ∈ c.versions schema name,
    t.createCommitTime = time ∨ t.deleteCommitTime = time ∨
      ∃ rg ∈ t.rowGroups, ∃ o m, rg.versionInfo.marker? o = some m ∧ m.commitTime = time

/-- The stamps of a table that was loaded from a checkpoint. -/
def loadedStamps : EntryStamps where
  createTxId := invalidTransaction
  createCommitTime := 0
  deleteTxId := invalidTransaction
  deleteCommitTime := invalidTimestamp

/-- A table as a checkpoint loads it: no transaction owns it or has a marker in it. -/
def LoadedTable (t : TableCatalogEntry) : Prop :=
  t.stamps = loadedStamps ∧ ∀ rg ∈ t.rowGroups, rg.versionInfo.markers = ∅

/-- All tables are as they were loaded. -/
def Loaded (c : Catalog) : Prop := ∀ schema name, ∀ t ∈ c.versions schema name, LoadedTable t

/-! ## Loading -/

theorem isVisible_loadedStamps (hid : tx.txId ≠ invalidTransaction)
    (htime : 0 < tx.startTime) : loadedStamps.isVisible tx = true := by
  have hcreate : ¬ (invalidTransaction ≠ tx.txId ∧
      ((0 : Timestamp) = invalidTimestamp ∨ tx.startTime ≤ 0)) := by
    rintro ⟨-, hinvalid | hle⟩
    · exact absurd hinvalid (by decide)
    · exact htime.not_ge hle
  simp only [loadedStamps, isVisible, if_neg hcreate, if_neg hid.symm, if_true]

theorem LoadedTable.commitStamps (h : LoadedTable t) :
    LoadedTable (commitStamps invalidTransaction 0 t) := by
  refine ⟨?_, h.2⟩
  have htime : t.createCommitTime ≠ invalidTimestamp := by
    rw [show t.createCommitTime = 0 from congrArg createCommitTime h.1]
    decide
  rw [← h.1]
  simp [Catalog.commitStamps, htime]

theorem LoadedTable.restoreTable
    (h : t.stamps = loadedStamps) : LoadedTable (restoreTable blocks image t) := by
  constructor
  · rw [← h, Catalog.restoreTable]
    split <;> rfl
  · intro rg hrg
    rw [Catalog.restoreTable, List.mem_map] at hrg
    obtain ⟨⟨rgImage, ri⟩, -, rfl⟩ := hrg
    rfl

theorem Loaded.deserializeTable (h : c.Loaded) {schema : Bytes}
    (hrun : deserializeTable blocks schema image c = some (r, c')) : c'.Loaded := by
  rw [Catalog.deserializeTable, bind_run_eq_some_iff] at hrun
  obtain ⟨err, herr, -⟩ | ⟨⟨⟩, c₁, hcreate, hrun⟩ := hrun
  · obtain ⟨-, rfl, -⟩ | ⟨hok, -⟩ := createTable_run herr
    · exact h
    · cases hok
  · obtain ⟨hfailed, -⟩ | ⟨-, -, s, entry, hs, hname, hentry, hgroups, rfl⟩ :=
      createTable_run hcreate
    · cases hfailed
    · cases hrun
      have hnew : LoadedTable (commitStamps invalidTransaction 0 entry) := by
        constructor
        · have hstamps : (commitStamps invalidTransaction 0 entry).stamps =
              entry.stamps.commit invalidTransaction 0 := rfl
          rw [hstamps, hentry]
          rfl
        · rw [show (commitStamps invalidTransaction 0 entry).rowGroups = [] from hgroups]
          exact fun rg hrg => absurd hrg not_mem_nil
      have hcommitted : ((c.createEntry schema entry).commitEntry schema image.name
          invalidTransaction 0).Loaded := by
        intro schema' name' t ht
        rw [commitEntry, versions_modifyVersions rfl] at ht
        split at ht
        next heq =>
          obtain ⟨old, hold, rfl⟩ := mem_map.mp ht
          rw [versions_createEntry hs] at hold
          split at hold
          · rcases mem_append.mp hold with hmem | hmem
            · exact (h _ _ old hmem).commitStamps
            · rw [mem_singleton.mp hmem]
              exact hnew
          · exact (h _ _ old hold).commitStamps
        next hne =>
          rw [versions_createEntry hs, hname, if_neg hne] at ht
          exact h _ _ t ht
      intro schema' name' t ht
      rw [versions_modifyVersions (by simp)] at ht
      split at ht
      · obtain ⟨t, hmem, rfl | rfl⟩ := exists_of_mem_modify ht
        · exact LoadedTable.restoreTable (hcommitted _ _ t hmem).1
        · exact hcommitted _ _ _ hmem
      · exact hcommitted _ _ t ht

/-- **What a checkpoint loads** belongs to nobody. -/
theorem Loaded.loadCheckpoint {blockSize : ℕ}
    (hrun : loadCheckpoint blocks (create blockSize) = some (r, c)) : c.Loaded := by
  have hschema : ∀ image : SchemaImage, Keeps Loaded (deserializeSchema blocks image) := by
    intro image
    refine Keeps.bind (Keeps.modify fun c h => ?_) fun _ =>
      Keeps.forEach fun t _ => Keeps.of_run fun h hrun => Loaded.deserializeTable h hrun
    rw [ensureSchema]
    split
    next hnone =>
      intro schema' name' t ht
      by_cases hs : schema' = image.name
      · subst hs
        simp [versions, setSchema] at ht
      · refine h schema' name' t ?_
        simpa [versions, setSchema, Finmap.lookup_insert_of_ne _ hs] using ht
    next => exact h
  have hempty : (create blockSize).Loaded := by
    intro schema name t ht
    rw [versions_create] at ht
    cases ht
  cases blocks with
  | nil =>
    cases hrun
    exact hempty
  | cons block blocks =>
    refine (Keeps.bind (Keeps.of_run fun h hread => ?_) fun a =>
      Keeps.forEach fun image _ => hschema image : Keeps Loaded
        (Catalog.loadCheckpoint (block :: blocks))).run hempty hrun
    rw [ofOption_run, map_eq_some_iff] at hread
    obtain ⟨a, -, ha⟩ := hread
    cases ha
    exact h

/-- A transaction sees all that was loaded. -/
theorem Loaded.getTable_eq_none_iff (h : c.Loaded) (hid : tx.txId ≠ invalidTransaction)
    (htime : 0 < tx.startTime) {schema name : Bytes} :
    c.getTable schema name tx = none ↔ c.versions schema name = [] := by
  rw [Catalog.getTable_eq_none_iff]
  constructor
  · intro hnone
    rw [eq_nil_iff_forall_not_mem]
    intro t ht
    have hstamps := hnone t.stamps (mem_map_of_mem ht)
    rw [(h schema name t ht).1, isVisible_loadedStamps hid htime] at hstamps
    cases hstamps
  · intro hnil e he
    rw [stampsOf, hnil] at he
    cases he

/-- Nothing of a loaded catalog is in the way of later transactions. -/
theorem Loaded.not_owns (h : c.Loaded) {id : TransactionId} (hid : id ≠ invalidTransaction) :
    ¬ c.Owns id := by
  rintro ⟨schema, name, t, ht, hcreate | hdelete | ⟨rg, hrg, o, m, hm, -⟩⟩
  · have hstamps := congrArg createTxId (h schema name t ht).1
    exact hid (hcreate.symm.trans hstamps)
  · have hstamps := congrArg deleteTxId (h schema name t ht).1
    exact hid (hdelete.symm.trans hstamps)
  · rw [VersionInfo.marker?, (h schema name t ht).2 rg hrg] at hm
    cases hm

theorem Loaded.eq_zero_of_stamped (h : c.Loaded) {time : Timestamp} (htime : c.Stamped time) :
    time = 0 := by
  obtain ⟨hvalid, schema, name, t, ht, hcreate | hdelete | ⟨rg, hrg, o, m, hm, -⟩⟩ := htime
  · have hstamps := congrArg createCommitTime (h schema name t ht).1
    exact hcreate.symm.trans hstamps
  · have hstamps := congrArg deleteCommitTime (h schema name t ht).1
    exact absurd (hdelete.symm.trans hstamps) hvalid
  · rw [VersionInfo.marker?, (h schema name t ht).2 rg hrg] at hm
    cases hm

end Catalog

namespace Database

open Catalog

/-- Reading the payload of an entry. -/
def Reads {α : Type} (reader : Reader α) (e : WalEntry) (p : α → Prop) : Prop :=
  ∀ a rest, reader e.data = some (a, rest) → p a

/-- The replay skips the entry, if the given catalog was loaded: it defines a table that is
there, or is about one that is not. Changes of partitions leave no stamps. -/
def Skips (decode : Reader DataChunk) (c : Catalog) (e : WalEntry) : Prop :=
  match e.type with
  | .createTable => Reads readCreate e fun p =>
    c.schemas.lookup p.schema = none ∨ c.versions p.schema p.table ≠ []
  | .dropTable => Reads readDrop e fun p => c.versions p.1 p.2 = []
  | .insert => Reads (readInsert decode) e fun p => c.versions p.1 p.2.1 = []
  | .delete => Reads readDelete e fun p => c.versions p.1 p.2.1 = []
  | .update => Reads (readUpdate decode) e fun p => c.versions p.schema p.table = []
  | .alterTable | .createSchema | .dropSchema | .checkpoint | .unnamed _ _ => True

/-- A transaction that is begun later, after some others of which some have committed. -/
def Later (db : Database) (tx : Snapshot) : Prop :=
  ∃ begun committed : ℕ, committed ≤ begun ∧ tx.txId = db.nextTxId + begun ∧
    tx.startTime = db.commitCounter + committed + 1

/-- **Ids and clock are consistent**: all commit times are in the past of every later
transaction, and none of them owns anything. -/
def Consistent (db : Database) : Prop :=
  ∀ tx, db.Later tx → (∀ time, db.catalog.Stamped time → time < tx.startTime) ∧
    ¬ db.catalog.Owns tx.txId

variable {P : Platform} {decode : Reader DataChunk} {db db' : Database} {c₀ : Catalog}

/-- The tables are those of `c₀`, as they were loaded. -/
structure Skipped (c₀ : Catalog) (db : Database) : Prop where
  loaded : db.catalog.Loaded
  nextTxId : 0 < db.nextTxId
  commitCounter : 0 ≤ db.commitCounter
  schemas : db.catalog.SameSchemas c₀
  versions : ∀ schema name, db.catalog.versions schema name = [] ↔ c₀.versions schema name = []

theorem Skipped.getTable_eq_none_iff (h : Skipped c₀ db) {schema name : Bytes} :
    db.catalog.getTable schema name db.replaySnapshot = none ↔ c₀.versions schema name = [] := by
  rw [← h.versions]
  refine h.loaded.getTable_eq_none_iff h.nextTxId.ne' ?_
  exact h.commitCounter.trans_lt (lt_add_one _)

theorem Skipped.replayed (h : Skipped c₀ db) (committed : Bool) :
    Skipped c₀ (db.replayed committed db.catalog) where
  loaded := h.loaded
  nextTxId := Nat.succ_pos _
  commitCounter := by
    cases committed with
    | false => exact h.commitCounter
    | true => exact h.commitCounter.trans (lt_add_one _).le
  schemas := h.schemas
  versions := h.versions

/-- New partitions leave the stamps and rows alone. -/
theorem Skipped.restorePartitionState (h : Skipped c₀ db) (schema name : Bytes)
    (pi : PartitionInfo) (rgIndices : List (List ℕ)) (tx : Snapshot) :
    Skipped c₀ (db.withCatalog
      (db.catalog.restorePartitionState schema name pi rgIndices tx)) := by
  rw [Catalog.restorePartitionState]
  split
  · exact h
  · next r _ =>
    refine ⟨?_, h.nextTxId, h.commitCounter,
      (sameSchemas_modifyVersions _).trans h.schemas, fun schema' name' => ?_⟩
    · intro schema' name' t ht
      rw [catalog_withCatalog, Catalog.modifyTable, versions_modifyVersions (by simp)] at ht
      split at ht
      · obtain ⟨t, hmem, rfl | rfl⟩ := exists_of_mem_modify ht
        · exact h.loaded _ _ t hmem
        · exact h.loaded _ _ _ hmem
      · exact h.loaded _ _ t ht
    · rw [← h.versions, catalog_withCatalog, Catalog.modifyTable, versions_modifyVersions (by simp)]
      split
      next heq => rw [modify_eq_nil_iff, heq.1, heq.2]
      next => rfl

variable {r : Except Error Unit}

theorem Skipped.replayCreate (h : Skipped c₀ db) {p : CreatePayload}
    (hskips : c₀.schemas.lookup p.schema = none ∨ c₀.versions p.schema p.table ≠ [])
    (hrun : Database.replayCreate p db = some (r, db')) :
    Skipped c₀ db' := by
  have hthrows : db.catalog.schemas.lookup p.schema = none ∨
      (db.catalog.getTable p.schema p.table db.replaySnapshot).isSome := by
    refine hskips.imp (fun hnone => ?_) fun hsome => ?_
    · have hsame := h.schemas p.schema
      rw [hnone] at hsame
      simpa using hsame
    · rw [isSome_iff_ne_none]
      exact fun hnone => hsome (h.getTable_eq_none_iff.mp hnone)
  cases (replayCreate_throws hthrows).symm.trans hrun
  exact h.replayed false

theorem Skipped.replayAlter (h : Skipped c₀ db) {p : AlterPayload}
    (hrun : Database.replayAlter p db = some (r, db')) : Skipped c₀ db' := by
  obtain ⟨db₁, pi, hdb₁, rfl⟩ := replayAlter_run hrun
  have hskipped : Skipped c₀ db₁ ∧ db₁.catalog = db.catalog := by
    rcases hdb₁ with rfl | rfl
    · exact ⟨h, rfl⟩
    · exact ⟨h.replayed false, rfl⟩
  rw [← hskipped.2]
  exact (hskipped.1.restorePartitionState p.schema p.table pi p.rgIndices
    db₁.replaySnapshot).replayed true

theorem Reads.of_parse {α : Type} {reader : Reader α} {type : WalEntryType} {data : Bytes}
    {p : α → Prop} (h : Reads reader { type, data } p) {f : α → Imp Error Database Unit}
    (hrun : (parse reader data >>= f) db = some (r, db')) :
    ∃ a, p a ∧ f a db = some (r, db') := by
  obtain ⟨a, ⟨rest, hread⟩, hrun⟩ := exists_of_parse hrun
  exact ⟨a, h a rest hread, hrun⟩

/-- **One entry that is skipped** leaves no stamp and no marker. -/
theorem Skipped.replayEntry (h : Skipped c₀ db) {e : WalEntry} (hskips : Skips decode c₀ e)
    (hrun : Database.replayEntry P decode e db = some (r, db')) :
    Skipped c₀ db' := by
  obtain ⟨type, data⟩ := e
  cases type with
  | createTable =>
    obtain ⟨p, hp, hrun⟩ := Reads.of_parse hskips hrun
    exact h.replayCreate hp hrun
  | dropTable =>
    obtain ⟨⟨schema, table⟩, hp, hrun⟩ := Reads.of_parse hskips hrun
    cases (replayDrop_throws (h.getTable_eq_none_iff.mpr hp)).symm.trans hrun
    exact h.replayed false
  | insert =>
    obtain ⟨⟨schema, table, chunk⟩, hp, hrun⟩ := Reads.of_parse hskips hrun
    cases (replayInsert_unseen (h.getTable_eq_none_iff.mpr hp)).symm.trans hrun
    exact h.replayed true
  | delete =>
    obtain ⟨⟨schema, table, rowIds⟩, hp, hrun⟩ := Reads.of_parse hskips hrun
    cases (replayDelete_unseen (h.getTable_eq_none_iff.mpr hp)).symm.trans hrun
    exact h.replayed true
  | update =>
    obtain ⟨p, hp, hrun⟩ := Reads.of_parse hskips hrun
    cases (replayUpdate_unseen (h.getTable_eq_none_iff.mpr hp)).symm.trans hrun
    exact h.replayed true
  | alterTable =>
    obtain ⟨p, -, hrun⟩ := exists_of_parse hrun
    exact h.replayAlter hrun
  | createSchema | dropSchema | checkpoint | unnamed code hcode =>
    cases hrun
    exact h

theorem Skipped.replayEntries (h : Skipped c₀ db) {es : List WalEntry}
    (hskips : ∀ e ∈ es, Skips decode c₀ e)
    (hrun : Database.replayEntries P decode es db = some (r, db')) : Skipped c₀ db' :=
  (Keeps.forEach fun e he => Keeps.of_run fun hkeep hstep =>
    Skipped.replayEntry hkeep (hskips e he) hstep).run h hrun

/-- All entries that are replayed are skipped, given the tables of the checkpoint. -/
def SkipsAll (decode : Reader DataChunk) (blockSize : ℕ) (d : Disk) : Prop :=
  ∀ c es, loadCheckpoint d.blocks (create blockSize) = some (.ok (), c) →
    replayedEntries d.log = .ok es → ∀ e ∈ es, Skips decode c e

theorem skipped_recovery {blockSize : ℕ} {d : Disk} (hskips : SkipsAll decode blockSize d)
    (hrun : recovery P decode d { catalog := create blockSize } = some (.ok (), db)) :
    db.catalog.Loaded := by
  rw [recovery_eq, bind_run_eq_ok_iff] at hrun
  obtain ⟨⟨⟩, db₁, hload, hrun⟩ := hrun
  obtain ⟨c₁, c, hc₁, hload, rfl⟩ := focus_run_eq_some_iff.mp hload
  cases hc₁
  rw [replayWal, bind_run_eq_ok_iff] at hrun
  obtain ⟨es, db₂, hread, hrun⟩ := hrun
  obtain ⟨hes, rfl⟩ := Prod.mk.inj (some.inj hread)
  have hskipped : Skipped c (({ catalog := create blockSize } : Database).withCatalog c) :=
    ⟨Loaded.loadCheckpoint hload, Nat.one_pos, le_rfl, fun _ => rfl, fun _ _ => Iff.rfl⟩
  exact (hskipped.replayEntries (hskips c es hload hes) hrun).loaded

/-- **Ids and clock stay consistent** across a recovery that leaves nothing behind: every entry
after the last marker is skipped. -/
theorem consistent_initPersistent (P : Platform) (decode : Reader DataChunk) (blockSize : ℕ)
    (d : Disk) (db : Database) (h : initPersistent P decode blockSize d = some (.ok db))
    (hskips : SkipsAll decode blockSize d) : db.Consistent := by
  rw [initPersistent, map_eq_some_iff] at h
  obtain ⟨⟨res, db₁⟩, hrun, hres⟩ := h
  cases res with
  | error e => cases hres
  | ok a =>
    cases hres
    have hloaded := skipped_recovery hskips hrun
    rintro tx ⟨begun, committed, -, hid, htime⟩
    -- the new transaction manager starts over: ids at 1 and times at 0
    have hid' : tx.txId = 1 + begun := hid
    have htime' := htime
    constructor
    · intro time hstamped
      rw [hloaded.eq_zero_of_stamped hstamped, htime']
      positivity
    · rw [hid', Nat.add_comm]
      exact hloaded.not_owns (Nat.succ_ne_zero begun)

/-- The log drops a table that the checkpoint does not have. -/
def dropDisk : Disk :=
  { log := entryBytes { type := .dropTable, data := dropTablePayload (text "main") (text "a") } }

theorem consistent_dropDisk :
    ∃ db, initPersistent Platform.plain deserializeChunkPayload 1024 dropDisk = some (.ok db) ∧
      db.Consistent := by
  obtain ⟨db, hopen⟩ : ∃ db, initPersistent Platform.plain deserializeChunkPayload 1024 dropDisk =
      some (.ok db) := exists_of_isOk (by decide +kernel)
  refine ⟨db, hopen, consistent_initPersistent _ _ _ dropDisk db hopen ?_⟩
  intro c es hload hes e he
  cases hload
  have hentries : es = [{ type := .dropTable, data := dropTablePayload (text "main") (text "a") }] :=
    Except.ok.inj (hes.symm.trans (by decide +kernel))
  rw [hentries, mem_singleton] at he
  subst he
  exact fun p rest _ => versions_create _ _ _

theorem stampsOf_createTwoDisk :
    (initPersistent Platform.plain deserializeChunkPayload 1024 createTwoDisk).map
      (fun res => res.toOption.map fun db => db.catalog.stampsOf defaultSchema (text "a")) =
      some (some [created { txId := 1, startTime := 1 }]) := by
  decide +kernel

/-- After a replayed `CREATE TABLE` the first transaction has the id of its creator. -/
theorem inconsistent_createTwoDisk :
    ∃ db, initPersistent Platform.plain deserializeChunkPayload 1024 createTwoDisk =
      some (.ok db) ∧ db.Later (db.newTransaction true).toSnapshot ∧
        db.catalog.Owns (db.newTransaction true).txId ∧ ¬ db.Consistent := by
  obtain ⟨db, hopen⟩ := initPersistent_createTwoDisk
  have hstamps := stampsOf_createTwoDisk
  rw [hopen] at hstamps
  have hlater : db.Later (db.newTransaction true).toSnapshot :=
    ⟨0, 0, le_rfl, rfl, by simp [newTransaction]⟩
  have hnext : db.nextTxId = 1 := by
    rw [initPersistent, map_eq_some_iff] at hopen
    obtain ⟨⟨res, db₁⟩, -, hres⟩ := hopen
    cases res <;> cases hres
    rfl
  have howns : db.catalog.Owns (db.newTransaction true).txId := by
    have ha : db.catalog.stampsOf defaultSchema (text "a") =
        [created { txId := 1, startTime := 1 }] := some.inj (some.inj hstamps)
    obtain ⟨t, ht, hcreated⟩ := mem_map.mp
      (ha ▸ mem_singleton_self _ : created { txId := 1, startTime := 1 } ∈
        db.catalog.stampsOf defaultSchema (text "a"))
    refine ⟨_, _, t, ht, .inl ?_⟩
    exact (congrArg createTxId hcreated).trans hnext.symm
  exact ⟨db, hopen, hlater, howns, fun h => (h _ hlater).2 howns⟩

end Database

end CppColDB
