import CppColDB.Execution.Define
import CppColDB.Transaction.NameMachine
import CppColDB.Transaction.Session

/-!
# Creating and dropping a table concurrently

The steps of a database that define one table name, by any number of transactions, are steps of
the machine `NameView`. What a create and a drop check is what their own transaction sees, and a
version has one mark for all who drop it. Two transactions that cannot see each other's
definitions therefore end up with two versions, and a mark that another one replaces is lost
when that one rolls back.
-/

namespace CppColDB

open ByteCodec Finmap Function Imp List NameView Option TableCatalogEntry UndoEntry

/-! ## Rollback of definitions -/

/-- Whether an undo entry is a create (`true`) or a drop of the name. -/
def UndoEntry.definitionOf (schema name : Bytes) : UndoEntry → Option Bool
  | .catalog e => if schema = e.schema ∧ name = e.table then some e.wasCreate else none
  | .insert _ | .delete _ | .update _ | .alterPartition _ => none

namespace Catalog

variable {c c' : Catalog} {schema name schema' name' : Bytes} {tx : Transaction}
  {id : TransactionId}

/-- What the rollback of a definition does to the stamps. -/
def undoStamps (id : TransactionId) (es : List EntryStamps) : Bool → List EntryStamps
  | true => es.filter fun e => ¬ e.OpenBy id
  | false => es.map (EntryStamps.undrop id)

theorem stampsOf_rollbackCreate : (c.rollbackCreate schema name id).stampsOf schema' name' =
      if schema' = schema ∧ name' = name then undoStamps id (c.stampsOf schema name) true
      else c.stampsOf schema' name' := by
  rw [stampsOf, rollbackCreate, versions_modifyVersions rfl]
  split
  · rw [stampsOf, undoStamps, List.filter_map]
    rfl
  · rfl

theorem stampsOf_rollbackDrop : (c.rollbackDrop schema name id).stampsOf schema' name' =
      if schema' = schema ∧ name' = name then undoStamps id (c.stampsOf schema name) false
      else c.stampsOf schema' name' := by
  rw [stampsOf, rollbackDrop, versions_modifyVersions rfl]
  split
  · rw [stampsOf, undoStamps, List.map_map, List.map_map]
    refine map_congr_left fun t _ => ?_
    by_cases hmark : t.deleteTxId = id ∧ t.deleteCommitTime = invalidTimestamp
    · simp [EntryStamps.undrop, stamps, hmark]
    · simp [EntryStamps.undrop, stamps, hmark]
  · rfl

theorem stampsOf_undoEntry {u : UndoEntry} (h : undoEntry tx u c = some (.ok (), c')) :
    c'.stampsOf schema name =
      match u.definitionOf schema name with
      | none => c.stampsOf schema name
      | some create => undoStamps tx.txId (c.stampsOf schema name) create := by
  cases u with
  | catalog e =>
    obtain ⟨schema', table, wasCreate⟩ := e
    by_cases hname : schema = schema' ∧ name = table
    · obtain ⟨rfl, rfl⟩ := hname
      cases wasCreate with
      | true =>
        cases h
        simp [definitionOf, stampsOf_rollbackCreate]
      | false =>
        cases h
        simp [definitionOf, stampsOf_rollbackDrop]
    · cases wasCreate with
      | true =>
        cases h
        simp [definitionOf, stampsOf_rollbackCreate, hname]
      | false =>
        cases h
        simp [definitionOf, stampsOf_rollbackDrop, hname]
  | insert e =>
    cases h
    simp only [definitionOf]
    split
    · rfl
    · exact sameStamps_modifyRowGroup _ _ _ schema name
  | delete e =>
    cases h
    simp only [definitionOf]
    split
    · rfl
    · exact sameStamps_forRows _ _ _ schema name
  | alterPartition e =>
    cases h
    simp only [restorePartitionState]
    cases c.getTable e.schema e.table tx.toSnapshot with
    | none => rfl
    | some r =>
      have hsame : ∀ t : TableCatalogEntry, ({ t with
          partitionInfo := e.oldPartitionInfo
          partitionRgIndices := e.oldPartitionRgIndices } : TableCatalogEntry).stamps =
            t.stamps := fun _ => rfl
      exact sameStamps_modifyTable r hsame schema name
  | update e =>
    rw [undoEntry, bind_run_ok get_run] at h
    cases hget : c.getTable e.schema e.table tx.toSnapshot with
    | none =>
      simp only [hget] at h
      cases h
      rfl
    | some r =>
      simp only [hget] at h
      cases hrows : e.rowIds.take e.oldValues.count with
      | nil =>
        simp only [hrows] at h
        cases h
        rfl
      | cons first rest =>
        simp only [hrows] at h
        split at h
        · obtain ⟨_, rg', _, _, rfl⟩ := focus_run_eq_some_iff.mp h
          exact sameStamps_modifyRowGroup _ _ _ schema name
        · cases h
          rfl

/-- **A rollback** takes back the definitions that its undo buffer lists, last to first. -/
theorem stampsOf_undoBufferReverse (h : undoBufferReverse tx c = some (.ok (), c')) :
    c'.stampsOf schema name = ((tx.undoBuffer.filterMap (definitionOf schema name)).reverse).foldl
        (undoStamps tx.txId) (c.stampsOf schema name) := by
  rw [← filterMap_reverse]
  rw [undoBufferReverse] at h
  revert h
  generalize tx.undoBuffer.reverse = us
  intro h
  induction us generalizing c with
  | nil =>
    cases h
    rfl
  | cons u us ih =>
    obtain ⟨_, c₁, hfirst, hrest⟩ := bind_run_eq_ok_iff.mp h
    rw [ih hrest, stampsOf_undoEntry hfirst, filterMap_cons]
    cases u.definitionOf schema name <;> rfl

end Catalog

namespace Database

variable {db db' db₀ : Database} {schema name : Bytes} {v : NameView} {a : NameAct}

/-! ## Steps -/

/-- What `CREATE TABLE` does to the name: nothing if there is no such schema or a visible
version. -/
def createAct (db : Database) (schema name : Bytes) (tx : Snapshot) : NameAct :=
  if (db.catalog.schemas.lookup schema).isSome ∧ db.catalog.getTable schema name tx = none then
    .create tx.txId
  else .idle

/-- What `DROP TABLE` does to the name: nothing if no version is visible. -/
def dropAct (db : Database) (schema name : Bytes) (tx : Snapshot) : NameAct :=
  match db.catalog.getTable schema name tx with
  | none => .idle
  | some r => .drop tx.txId r.version

/-- The database holds what the machine shows of the name. -/
structure HoldsName (db : Database) (schema name : Bytes) (v : NameView) : Prop where
  versions : v.versions.map Prod.snd = db.catalog.stampsOf schema name
  active : ∀ id, v.active id = (db.activeTransactions.lookup id).map Transaction.toSnapshot
  changes : ∀ id, v.changes id = ((db.activeTransactions.lookup id).map fun tx =>
    tx.undoBuffer.filterMap (definitionOf schema name)).getD []
  nextTxId : v.nextTxId = db.nextTxId
  commitCounter : v.commitCounter = db.commitCounter

/-- The steps that concern the name. Other steps leave what is shown of it alone. -/
inductive DefinitionStep (schema name : Bytes) : Database → NameAct → Database → Prop
  | begin {db : Database} (autoCommit : Bool) :
      DefinitionStep schema name db .start (db.beginTransaction autoCommit)
  | create {db db' : Database} {tx : Transaction} {columns : List ColumnDefinition}
      {pi : PartitionInfo} {ifNotExists : Bool} {res : Except Error Unit}
      (htx : db.activeTransactions.lookup tx.txId = some tx)
      (h : physicalCreateTable tx.toSnapshot schema name columns pi ifNotExists db =
        some (res, db')) :
      DefinitionStep schema name db (db.createAct schema name tx.toSnapshot) db'
  | drop {db db' : Database} {tx : Transaction} {ifExists : Bool} {res : Except Error Unit}
      (htx : db.activeTransactions.lookup tx.txId = some tx)
      (h : physicalDropTable tx.toSnapshot schema name ifExists db = some (res, db')) :
      DefinitionStep schema name db (db.dropAct schema name tx.toSnapshot) db'
  | commit {db db' : Database} {tx : Transaction}
      (htx : db.activeTransactions.lookup tx.txId = some tx)
      (h : Database.commit tx db = some (.ok (), db')) :
      DefinitionStep schema name db (.commit tx.txId) db'
  | rollback {db db' : Database} {tx : Transaction}
      (htx : db.activeTransactions.lookup tx.txId = some tx)
      (h : Database.rollback tx db = some (.ok (), db')) :
      DefinitionStep schema name db (.rollback tx.txId) db'
  | other {db db' : Database} (h : ∀ v, db.HoldsName schema name v → db'.HoldsName schema name v) :
      DefinitionStep schema name db .idle db'

/-! ## The database moves as the machine -/

variable {e : CatalogUndoEntry} {res : Except Error Unit} {change : Imp Error Catalog Unit}
  {tx : Snapshot}

theorem define_run_isOk (h : define tx change e db = some (res, db')) :
    ∃ r c', change db.catalog = some (r, c') ∧
      db' = if r.isOk then (db.withCatalog c').pushUndo tx.txId (.catalog e)
        else db.withCatalog c' := by
  obtain ⟨err, c', hrun, rfl⟩ | ⟨c', hrun, rfl⟩ := define_run h
  · exact ⟨.error err, c', hrun, rfl⟩
  · exact ⟨.ok (), c', hrun, rfl⟩

variable {b : Bool}

/-- `IF [NOT] EXISTS` changes only what is reported. -/
theorem define_of_catchAll
    (h : (if b then catchAll (define tx change e) (pure ()) else define tx change e) db =
      some (res, db')) : ∃ res', define tx change e db = some (res', db') := by
  cases b with
  | false => exact ⟨res, h⟩
  | true =>
    rw [if_pos rfl] at h
    cases hrun : define tx change e db with
    | none => simp [catchAll, hrun] at h
    | some out =>
      obtain ⟨res', db₁⟩ := out
      cases res' with
      | ok _ =>
        rw [catchAll_run_ok hrun] at h
        cases h
        exact ⟨_, rfl⟩
      | error err =>
        rw [catchAll_run_error hrun] at h
        cases h
        exact ⟨_, rfl⟩

variable {tx : Transaction}

section

variable (h : db.HoldsName schema name v) (htx : db.activeTransactions.lookup tx.txId = some tx)
include h htx

theorem HoldsName.pushUndo {c : Catalog} {create : Bool}
    (he : (UndoEntry.catalog e).definitionOf schema name = some create)
    {vs : List (ℕ × EntryStamps)} {t : ℕ} {ds : TransactionId → List ℕ}
    (hvs : vs.map Prod.snd = c.stampsOf schema name) :
    ((db.withCatalog c).pushUndo tx.txId (.catalog e)).HoldsName schema name
      { v with
        versions := vs
        nextTag := t
        changes := update v.changes tx.txId (v.changes tx.txId ++ [create])
        drops := ds } := by
  have hlookup : (db.withCatalog c).activeTransactions.lookup tx.txId = some tx := htx
  have hcatalog : ((db.withCatalog c).pushUndo tx.txId (.catalog e)).catalog = c := by
    simp [withCatalog]
  have hclock : ((db.withCatalog c).pushUndo tx.txId (.catalog e)).nextTxId = db.nextTxId ∧
      ((db.withCatalog c).pushUndo tx.txId (.catalog e)).commitCounter = db.commitCounter := by
    simp [Database.pushUndo, htx, withCatalog]
  refine ⟨by rw [hcatalog]; exact hvs, fun id => ?_, fun id => ?_, h.nextTxId.trans hclock.1.symm,
    h.commitCounter.trans hclock.2.symm⟩
  · rw [snapshot_pushUndo]
    exact h.active id
  · rw [lookup_pushUndo]
    by_cases hid : id = tx.txId
    · subst hid
      simp [h.changes, htx, hlookup, he]
    · rw [if_neg hid]
      exact (update_of_ne hid _ _).trans (h.changes id)

theorem HoldsName.create {columns : List ColumnDefinition} {pi : PartitionInfo}
    (hrun : physicalCreateTable tx.toSnapshot schema name columns pi b db = some (res, db')) :
    v.Allows (db.createAct schema name tx.toSnapshot) ∧
      db'.HoldsName schema name (v.apply (db.createAct schema name tx.toSnapshot)) := by
  obtain ⟨res', hrun⟩ := define_of_catchAll hrun
  obtain ⟨r, c', hcreate, rfl⟩ := define_run_isOk hrun
  rcases Catalog.createTable_run hcreate with
    ⟨hr, rfl, hwhy⟩ | ⟨hr, hget, s, entry, hs, rfl, hstamps, -, rfl⟩
  · have hact : db.createAct schema name tx.toSnapshot = .idle := by
      rw [createAct, if_neg]
      rintro ⟨hschema, hnone⟩
      rcases hwhy with hwhy | hwhy
      · simp [hwhy] at hschema
      · simp [hnone] at hwhy
    rw [hact, if_neg (by simp [hr])]
    exact ⟨trivial, h⟩
  · have hact : db.createAct schema entry.name tx.toSnapshot = .create tx.txId := by
      rw [createAct, if_pos ⟨by simp [hs], hget⟩]
    rw [hact, if_pos hr]
    refine ⟨⟨tx.toSnapshot, by rw [h.active, htx]; rfl⟩, h.pushUndo htx ?_ ?_⟩
    · simp [UndoEntry.definitionOf]
    · rw [Catalog.stampsOf_createEntry hs, if_pos ⟨rfl, rfl⟩, map_append, h.versions, hstamps]
      rfl

theorem HoldsName.drop (hrun : physicalDropTable tx.toSnapshot schema name b db = some (res, db')) :
    v.Allows (db.dropAct schema name tx.toSnapshot) ∧
      db'.HoldsName schema name (v.apply (db.dropAct schema name tx.toSnapshot)) := by
  obtain ⟨res', hrun⟩ := define_of_catchAll hrun
  obtain ⟨r, c', hdrop, rfl⟩ := define_run_isOk hrun
  rcases Catalog.dropTable_run hdrop with ⟨hr, rfl, hwhy⟩ | ⟨hr, ref, hget, rfl⟩
  · have hnone : db.catalog.getTable schema name tx.toSnapshot = none := by
      rcases hwhy with hwhy | hwhy
      · rw [Catalog.getTable_eq_none_iff, Catalog.stampsOf_eq_nil hwhy]
        exact forall_mem_nil _
      · exact hwhy
    rw [dropAct, hnone, if_neg (by simp [hr])]
    exact ⟨trivial, h⟩
  · obtain ⟨rfl, rfl, e, he, hvisible⟩ := Catalog.exists_of_getTable hget
    rw [dropAct, hget, if_pos hr]
    rw [← h.versions, getElem?_map, map_eq_some_iff] at he
    obtain ⟨p, hp, rfl⟩ := he
    refine ⟨⟨tx.toSnapshot, by rw [h.active, htx]; rfl, p, hp, hvisible⟩, h.pushUndo htx ?_ ?_⟩
    · simp [UndoEntry.definitionOf]
    · rw [Catalog.stampsOf_markDropped, if_pos ⟨rfl, rfl⟩, ← h.versions]
      exact map_modify_comm fun _ => rfl

end

theorem isSome_definitionOf {u : UndoEntry} :
    (u.definitionOf schema name).isSome ↔ Catalog.Defines schema name u := by
  cases u with
  | catalog e =>
    by_cases h : schema = e.schema ∧ name = e.table
    · simp [definitionOf, Catalog.Defines]
    · simp [definitionOf, Catalog.Defines]
  | _ => simp [definitionOf, Catalog.Defines]

/-- What the end of a transaction leaves of the others. -/
theorem HoldsName.finish (h : db.HoldsName schema name v) (id : TransactionId) :
    (v.finish tx.txId).active id =
        ((db.activeTransactions.erase tx.txId).lookup id).map Transaction.toSnapshot ∧
      (v.finish tx.txId).changes id = (((db.activeTransactions.erase tx.txId).lookup id).map
        fun tx => tx.undoBuffer.filterMap (definitionOf schema name)).getD [] := by
  by_cases hid : id = tx.txId
  · subst hid
    simp [NameView.finish]
  · rw [lookup_erase_ne hid, ← h.active, ← h.changes]
    exact ⟨update_of_ne hid _ _, update_of_ne hid _ _⟩

theorem HoldsName.commit (h : db.HoldsName schema name v)
    (htx : db.activeTransactions.lookup tx.txId = some tx)
    (hrun : Database.commit tx db = some (.ok (), db')) :
    db'.HoldsName schema name (v.apply (.commit tx.txId)) := by
  obtain ⟨wal, rfl⟩ := commit_run hrun
  have hchanges : v.changes tx.txId =
      tx.undoBuffer.filterMap (definitionOf schema name) := by
    rw [h.changes, htx]
    rfl
  have hnone : v.changes tx.txId = [] ↔ ¬ ∃ u ∈ tx.undoBuffer, Catalog.Defines schema name u := by
    rw [hchanges, filterMap_eq_nil_iff]
    simp only [not_exists, not_and, ← isSome_definitionOf, not_isSome_iff_eq_none]
  have hstamps := @Catalog.stampsOf_applyUndoBuffer db.catalog schema name
    { tx with commitTime := db.commitCounter + 1 }
  refine ⟨?_, fun id => (h.finish id).1, fun id => (h.finish id).2, h.nextTxId,
    congrArg (· + 1) h.commitCounter⟩
  refine Eq.trans ?_ hstamps.symm
  simp only [apply, h.commitCounter]
  by_cases hdefines : ∃ u ∈ tx.undoBuffer, Catalog.Defines schema name u
  · rw [if_neg fun hnil => hnone.mp hnil hdefines, if_pos hdefines, ← h.versions, List.map_map,
      List.map_map]
    rfl
  · rw [if_pos (hnone.mpr hdefines), if_neg hdefines]
    exact h.versions

theorem map_snd_foldl_undo (id : TransactionId) (cs : List Bool) (vs : List (ℕ × EntryStamps)) :
    (cs.foldl (undo id) vs).map Prod.snd =
      cs.foldl (Catalog.undoStamps id) (vs.map Prod.snd) := by
  induction cs generalizing vs with
  | nil => rfl
  | cons c cs ih =>
    rw [foldl_cons, ih, foldl_cons]
    cases c with
    | true =>
      rw [Catalog.undoStamps, List.filter_map]
      rfl
    | false =>
      rw [Catalog.undoStamps, undo, List.map_map, List.map_map]
      rfl

theorem HoldsName.rollback (h : db.HoldsName schema name v)
    (htx : db.activeTransactions.lookup tx.txId = some tx)
    (hrun : Database.rollback tx db = some (.ok (), db')) :
    db'.HoldsName schema name (v.apply (.rollback tx.txId)) := by
  obtain ⟨c, hc, rfl⟩ := rollback_run hrun
  have hchanges : v.changes tx.txId =
      tx.undoBuffer.filterMap (definitionOf schema name) := by
    rw [h.changes, htx]
    rfl
  refine ⟨?_, fun id => (h.finish id).1, fun id => (h.finish id).2, h.nextTxId, h.commitCounter⟩
  refine (map_snd_foldl_undo _ _ _).trans ?_
  rw [hchanges, h.versions]
  exact (Catalog.stampsOf_undoBufferReverse hc).symm

/-- **The steps of the database are steps of the machine.** -/
theorem DefinitionStep.holdsName (hstep : DefinitionStep schema name db a db')
    (h : db.HoldsName schema name v) : v.Allows a ∧ db'.HoldsName schema name (v.apply a) := by
  cases hstep with
  | other hother => exact ⟨trivial, hother v h⟩
  | create htx hrun => exact h.create htx hrun
  | drop htx hrun => exact h.drop htx hrun
  | commit htx hrun =>
    exact ⟨⟨_, by rw [h.active, htx]; rfl⟩, h.commit htx hrun⟩
  | rollback htx hrun =>
    exact ⟨⟨_, by rw [h.active, htx]; rfl⟩, h.rollback htx hrun⟩
  | begin autoCommit =>
    refine ⟨trivial, h.versions, fun id => ?_, fun id => ?_, congrArg (· + 1) h.nextTxId,
      h.commitCounter⟩
    · simp only [apply, beginTransaction, h.nextTxId, h.commitCounter]
      by_cases hid : id = db.nextTxId
      · subst hid
        simp [newTransaction]
      · rw [update_of_ne hid, lookup_insert_of_ne _ hid, h.active]
    · simp only [apply, beginTransaction, h.nextTxId]
      by_cases hid : id = db.nextTxId
      · subst hid
        simp [newTransaction]
      · rw [update_of_ne hid, lookup_insert_of_ne _ hid, h.changes]

/-! ## Runs -/

/-- The name between transactions: all versions but the last one are dropped. -/
structure Rested (db : Database) (schema name : Bytes) : Prop extends db.Idle where
  createTxId_lt : ∀ e ∈ db.catalog.stampsOf schema name, e.createTxId < db.nextTxId
  deleteTxId_lt : ∀ e ∈ db.catalog.stampsOf schema name, e.deleteTxId < db.nextTxId
  created : ∀ e ∈ db.catalog.stampsOf schema name,
    e.createCommitTime ≠ invalidTimestamp ∧ e.createCommitTime ≤ db.commitCounter
  dropped : ∀ e ∈ db.catalog.stampsOf schema name, e.deleteCommitTime ≤ db.commitCounter ∧
    (e.deleteCommitTime = invalidTimestamp ↔ e.deleteTxId = invalidTransaction)
  last : (db.catalog.stampsOf schema name).Pairwise fun e _ =>
    e.deleteCommitTime ≠ invalidTimestamp

/-- The machine at the start of a run: versions are tagged by their position. -/
def startView (db : Database) (schema name : Bytes) : NameView where
  versions := (db.catalog.stampsOf schema name).zipIdx.map Prod.swap
  nextTag := (db.catalog.stampsOf schema name).length
  active _ := none
  changes _ := []
  drops _ := []
  gone := []
  nextTxId := db.nextTxId
  commitCounter := db.commitCounter

/-- The runs whose steps all meet a condition. -/
inductive DefinitionRun (C : NameView → NameAct → Prop) (schema name : Bytes) (db₀ : Database) :
    Database → NameView → Prop
  | refl : DefinitionRun C schema name db₀ db₀ (db₀.startView schema name)
  | step {db db' : Database} {v : NameView} {a : NameAct}
      (hrun : DefinitionRun C schema name db₀ db v) (hstep : DefinitionStep schema name db a db')
      (hC : C v a) : DefinitionRun C schema name db₀ db' (v.apply a)

theorem Rested.startView (h : db₀.Rested schema name) :
    db₀.HoldsName schema name (db₀.startView schema name) ∧
      (db₀.startView schema name).Inv := by
  have hsnd : (db₀.startView schema name).versions.map Prod.snd =
      db₀.catalog.stampsOf schema name := by
    simp only [Database.startView, List.map_map]
    exact zipIdx_map_fst 0 _
  have hfst : (db₀.startView schema name).versions.map Prod.fst =
      range' 0 (db₀.catalog.stampsOf schema name).length := by
    simp only [Database.startView, List.map_map]
    exact zipIdx_map_snd 0 _
  have hmem : ∀ p ∈ (db₀.startView schema name).versions,
      p.2 ∈ db₀.catalog.stampsOf schema name := by
    intro p hp
    rw [← hsnd]
    exact mem_map_of_mem hp
  refine ⟨⟨hsnd, fun id => ?_, fun id => ?_, rfl, rfl⟩, ?_⟩
  · simp [Database.startView, h.activeTransactions]
  · simp [Database.startView, h.activeTransactions]
  · refine { nextTxId_pos := h.nextTxId_pos, commitCounter_nonneg := h.commitCounter_nonneg
             txId_eq := nofun, txId_pos := nofun, txId_lt := nofun, startTime_le := nofun
             changes_eq_nil := fun _ => rfl, stamped := fun p hp => ?_, succeeds := ?_, nodup := ?_
             tag_lt := fun p hp => ?_, dropped_lt := nofun, gone_lt := nofun, dropped := nofun
             gone := nofun }
    · have hp := hmem p hp
      have hdropped := (h.dropped p.2 hp).2
      exact { createTxId_lt := h.createTxId_lt p.2 hp, deleteTxId_lt := h.deleteTxId_lt p.2 hp
              createCommitTime_le := (h.created p.2 hp).2
              deleteCommitTime_le := (h.dropped p.2 hp).1
              openCreate := fun ho => absurd ho (h.created p.2 hp).1
              openDrop := fun hd ho => absurd (hdropped.mp ho) hd
              committedDrop := fun hd ho => hd (hdropped.mpr ho)
              ownDrop := fun _ ho => absurd ho (h.created p.2 hp).1 }
    · have hlast := h.last
      rw [← hsnd, pairwise_map] at hlast
      refine (Pairwise.and_mem.mp hlast).imp fun {p q} hpq tx hcur _ => ?_
      obtain ⟨hp, -, hne⟩ := hpq
      rcases hcur with hactive | ⟨-, hlt⟩
      · cases hactive
      · exact .inr ⟨hne, (h.dropped p.2 (hmem p hp)).1.trans_lt hlt⟩
    · rw [hfst]
      exact nodup_range'
    · have htag : p.1 ∈ (db₀.startView schema name).versions.map Prod.fst := mem_map_of_mem hp
      rw [hfst, mem_range'_1] at htag
      have hlt : p.1 < (db₀.catalog.stampsOf schema name).length := by simpa using htag.2
      exact hlt

/-- **Catalog versions are consistent** in every run in which nobody else has a part in what is
created or dropped. -/
theorem definitions_consistent (h₀ : db₀.Rested schema name)
    (h : DefinitionRun NameView.Exclusive schema name db₀ db v) :
    db.HoldsName schema name v ∧ v.Consistent := by
  have hinv : db.HoldsName schema name v ∧ v.Inv := by
    induction h with
    | refl => exact h₀.startView
    | step hrun hstep hex ih =>
      obtain ⟨hallows, hholds⟩ := hstep.holdsName ih.1
      exact ⟨hholds, ih.2.apply hallows hex⟩
  exact ⟨hinv.1, hinv.2.consistent⟩

/-! ## Sessions on fixed inputs -/

/-- A command of a session that defines one name. -/
inductive DefinitionCommand where
  | begin
  | create (id : TransactionId)
  | drop (id : TransactionId)
  | commit (id : TransactionId)
  | rollback (id : TransactionId)

def DefinitionCommand.run (schema name : Bytes) : DefinitionCommand → Imp Error Database Unit
  | .begin => modify fun db => db.beginTransaction false
  | .create id => do
    let tx ← transaction id
    physicalCreateTable tx.toSnapshot schema name [] {} false
  | .drop id => do
    let tx ← transaction id
    physicalDropTable tx.toSnapshot schema name false
  | .commit id => do
    let tx ← transaction id
    Database.commit tx
  | .rollback id => do
    let tx ← transaction id
    Database.rollback tx

/-- What a command does to the name. -/
def DefinitionCommand.act (db : Database) (schema name : Bytes) : DefinitionCommand → NameAct
  | .begin => .start
  | .create id => ((db.activeTransactions.lookup id).map fun tx =>
    db.createAct schema name tx.toSnapshot).getD .idle
  | .drop id => ((db.activeTransactions.lookup id).map fun tx =>
    db.dropAct schema name tx.toSnapshot).getD .idle
  | .commit id => .commit id
  | .rollback id => .rollback id

/-- Run the commands, all of which return and meet the condition. -/
def definitionSession (C : NameView → NameAct → Prop) [∀ v a, Decidable (C v a)]
    (schema name : Bytes) : List DefinitionCommand → Database → NameView →
      Option (Database × NameView)
  | [], db, v => some (db, v)
  | cmd :: cmds, db, v =>
    match cmd.run schema name db with
    | some (.ok _, db') =>
      if C v (cmd.act db schema name) then
        definitionSession C schema name cmds db' (v.apply (cmd.act db schema name))
      else none
    | _ => none

variable {C : NameView → NameAct → Prop} {cmds : List DefinitionCommand}

section

variable (h₀ : db₀.Rested schema name) (h : DefinitionRun C schema name db₀ db v)
include h₀ h

theorem DefinitionRun.holdsName : db.HoldsName schema name v ∧ v.Clocked := by
  induction h with
  | refl => exact ⟨h₀.startView.1, h₀.startView.2.toTxClock⟩
  | step hrun hstep _ ih => exact ⟨(hstep.holdsName ih.1).2, Clocked.apply ih.2 _⟩

theorem DefinitionRun.command {cmd : DefinitionCommand}
    (hrun : cmd.run schema name db = some (.ok (), db')) (hC : C v (cmd.act db schema name)) :
    DefinitionRun C schema name db₀ db' (v.apply (cmd.act db schema name)) := by
  obtain ⟨hholds, hclocked⟩ := h.holdsName h₀
  have htxId : ∀ {id tx}, db.activeTransactions.lookup id = some tx → tx.txId = id := by
    intro id tx htx
    exact hclocked.txId_eq ((hholds.active id).trans (by rw [htx, map_some]))
  refine h.step ?_ hC
  cases cmd with
  | begin =>
    cases hrun
    exact .begin false
  | create id =>
    obtain ⟨tx, htx, hcall⟩ := transaction_run hrun
    simp only [DefinitionCommand.act, htx]
    exact .create (by rw [htxId htx, htx]) hcall
  | drop id =>
    obtain ⟨tx, htx, hcall⟩ := transaction_run hrun
    simp only [DefinitionCommand.act, htx]
    exact .drop (by rw [htxId htx, htx]) hcall
  | commit id =>
    obtain ⟨tx, htx, hcall⟩ := transaction_run hrun
    obtain rfl := htxId htx
    exact .commit htx hcall
  | rollback id =>
    obtain ⟨tx, htx, hcall⟩ := transaction_run hrun
    obtain rfl := htxId htx
    exact .rollback htx hcall

theorem DefinitionRun.session [∀ v a, Decidable (C v a)]
    {v' : NameView} (hrun : definitionSession C schema name cmds db v = some (db', v')) :
    DefinitionRun C schema name db₀ db' v' := by
  induction cmds generalizing db v with
  | nil =>
    cases hrun
    exact h
  | cons cmd cmds ih =>
    rw [definitionSession] at hrun
    split at hrun
    next db₁ hcmd =>
      split at hrun
      next hC => exact ih (h.command h₀ hcmd hC) hrun
      next => cases hrun
    next => cases hrun

end

instance (v : NameView) : ∀ a, Decidable (v.Exclusive a)
  | .create id =>
    match h : v.active id with
    | none => isTrue fun tx htx => absurd (h.symm.trans htx) (by simp)
    | some tx => decidable_of_iff (∀ p ∈ v.versions, p.2.IsDropped tx)
        ⟨fun hall tx' htx' => some.inj (h.symm.trans htx') ▸ hall, fun hall => hall tx h⟩
  | .drop _ i =>
    match h : v.versions[i]? with
    | none => isTrue fun p hp => absurd (h.symm.trans hp) (by simp)
    | some q => decidable_of_iff (q.2.deleteTxId = invalidTransaction)
        ⟨fun hq p hp => some.inj (h.symm.trans hp) ▸ hq, fun hall => hall q h⟩
  | .idle | .start | .commit _ | .rollback _ => isTrue trivial

theorem rested_emptyTable (name : Bytes) : emptyTable.Rested Catalog.defaultSchema name := by
  have hlookup : (Catalog.create 4096).schemas.lookup Catalog.defaultSchema =
      some { name := Catalog.defaultSchema } := lookup_insert _
  have hstamps : ∀ e ∈ emptyTable.catalog.stampsOf Catalog.defaultSchema name,
      e = { createTxId := invalidTransaction, createCommitTime := 0
            deleteTxId := invalidTransaction, deleteCommitTime := invalidTimestamp } := by
    intro e he
    rw [emptyTable, Catalog.stampsOf_createEntry hlookup, Catalog.stampsOf_create] at he
    split at he
    · simpa [stamps] using he
    · cases he
  refine { quiet_emptyTable.idle with
           createTxId_lt := fun e he => ?_, deleteTxId_lt := fun e he => ?_
           created := fun e he => ?_, dropped := fun e he => ?_, last := ?_ }
  · rw [hstamps e he]
    decide
  · rw [hstamps e he]
    decide
  · rw [hstamps e he]
    decide
  · rw [hstamps e he]
    decide
  · rw [emptyTable, Catalog.stampsOf_createEntry hlookup]
    split
    · exact pairwise_singleton _ _
    · exact .nil

/-- What a session on a name of `emptyTable` leaves behind. -/
def afterDefinitions (C : NameView → NameAct → Prop) [∀ v a, Decidable (C v a)] (name : Bytes)
    (cmds : List DefinitionCommand) {α : Type} (f : NameView → α) : Option α :=
  (definitionSession C Catalog.defaultSchema name cmds emptyTable
    (emptyTable.startView Catalog.defaultSchema name)).map fun out => f out.2

theorem exists_of_afterDefinitions [∀ v a, Decidable (C v a)] {α : Type} {f : NameView → α} {x : α}
    (h : afterDefinitions C name cmds f = some x) : ∃ db v,
      DefinitionRun C Catalog.defaultSchema name emptyTable db v ∧ f v = x := by
  obtain ⟨⟨db, v⟩, hrun, hx⟩ := map_eq_some_iff.mp h
  exact ⟨db, v, DefinitionRun.session (rested_emptyTable name) .refl hrun, hx⟩

/-- Transaction 1 drops `t` and creates it again. -/
theorem recreated_consistent : ∃ db v,
    DefinitionRun NameView.Exclusive Catalog.defaultSchema (text "t") emptyTable db v ∧
      v.versions.length = 2 ∧ v.gone = [(0, 1)] ∧ v.Consistent := by
  obtain ⟨db, v, hrun, hv⟩ := exists_of_afterDefinitions
    (show afterDefinitions Exclusive (text "t") [.begin, .drop 1, .create 1, .commit 1]
      (fun v => (v.versions.length, v.gone)) = some (2, [(0, 1)]) by decide +kernel)
  exact ⟨db, v, hrun, congrArg Prod.fst hv, congrArg Prod.snd hv,
    (definitions_consistent (rested_emptyTable _) hrun).2⟩

/-- Two transactions create `u`, and a third one sees both versions. Two transactions drop `t`,
the first one commits, the second one rolls back, and a third one sees the table. -/
theorem definitions_inconsistent :
    (∃ db v, DefinitionRun (fun _ _ => True) Catalog.defaultSchema (text "u") emptyTable db v ∧
      ¬ v.Consistent) ∧
    ∃ db v, DefinitionRun (fun _ _ => True) Catalog.defaultSchema (text "t") emptyTable db v ∧
      ¬ v.Consistent := by
  constructor
  · obtain ⟨db, v, hrun, hv⟩ := exists_of_afterDefinitions
      (show afterDefinitions (fun _ _ => True) (text "u")
        [.begin, .begin, .create 1, .create 2, .commit 1, .commit 2] (fun v =>
          (v.nextTxId, v.commitCounter, v.versions.map fun p => p.2.isVisible ⟨3, 3⟩)) =
        some (3, 2, [true, true]) by decide +kernel)
    simp only [Prod.mk.injEq] at hv
    obtain ⟨hnext, hnow, hvisible⟩ := hv
    refine ⟨db, v, hrun, fun hcons => ?_⟩
    obtain ⟨p, q, hpq⟩ : ∃ p q, v.versions = [p, q] := by
      have hlen := congrArg length hvisible
      rw [length_map] at hlen
      exact length_eq_two.mp hlen
    simp only [hpq, map_cons, map_nil, cons.injEq, and_true] at hvisible
    have heq := hcons.single ⟨3, 3⟩ (.inr ⟨hnext.le, by rw [hnow]; decide⟩)
      (show v.versions[0]? = some p by rw [hpq]; rfl)
      (show v.versions[1]? = some q by rw [hpq]; rfl) hvisible.1 hvisible.2
    exact absurd heq (by decide)
  · obtain ⟨db, v, hrun, hv⟩ := exists_of_afterDefinitions
      (show afterDefinitions (fun _ _ => True) (text "t")
        [.begin, .begin, .drop 1, .drop 2, .commit 1, .rollback 2] (fun v =>
          ((v.nextTxId, v.commitCounter, v.gone),
            v.versions.map fun p => (p.1, p.2.isVisible ⟨3, 2⟩))) =
        some ((3, 1, [(0, 1)]), [(0, true)]) by decide +kernel)
    simp only [Prod.mk.injEq] at hv
    obtain ⟨⟨hnext, hnow, hgone⟩, hvisible⟩ := hv
    refine ⟨db, v, hrun, fun hcons => ?_⟩
    obtain ⟨p, hp⟩ : ∃ p, v.versions = [p] := by
      have hlen := congrArg length hvisible
      rw [length_map] at hlen
      exact length_eq_one_iff.mp hlen
    simp only [hp, map_cons, map_nil, cons.injEq, and_true, Prod.mk.injEq]
      at hvisible
    have hfalse := hcons.permanent (0, 1) (by rw [hgone]; exact mem_singleton_self _) ⟨3, 2⟩
      (.inr ⟨hnext.le, by rw [hnow]; decide⟩) (by decide) p (by rw [hp]; exact mem_singleton_self _)
      hvisible.1
    exact absurd (hvisible.2.symm.trans hfalse) (by decide)

end Database

end CppColDB
