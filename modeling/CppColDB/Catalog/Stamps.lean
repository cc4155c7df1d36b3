import CppColDB.Transaction.GroupVersions

/-!
# The stamps of the versions of a name

Who created and dropped the versions of a name, and when, is all that a lookup of the name
depends on. These are the stamps after each change of the catalog.
-/

namespace CppColDB

open ByteCodec List Option

variable {txId : TransactionId}

namespace EntryStamps

/-- What `CommitEntry` does to the stamps of a version. -/
def commit (txId : TransactionId) (commitTime : Timestamp) (e : EntryStamps) : EntryStamps :=
  { e with
    createCommitTime :=
      if e.createTxId = txId ∧ e.createCommitTime = invalidTimestamp then commitTime
      else e.createCommitTime
    deleteCommitTime :=
      if txId ≠ invalidTransaction ∧ e.deleteTxId = txId ∧ e.deleteCommitTime = invalidTimestamp
      then commitTime else e.deleteCommitTime }

/-- The version is dropped by a transaction that has not committed. -/
def drop (txId : TransactionId) (e : EntryStamps) : EntryStamps :=
  { e with deleteTxId := txId, deleteCommitTime := invalidTimestamp }

theorem commit_commit (txId : TransactionId) (ct : Timestamp) (e : EntryStamps) :
    (e.commit txId ct).commit txId ct = e.commit txId ct := by
  by_cases hc : e.createTxId = txId ∧ e.createCommitTime = invalidTimestamp
  · by_cases hd : txId ≠ invalidTransaction ∧ e.deleteTxId = txId ∧
        e.deleteCommitTime = invalidTimestamp
    · simp [commit, hc, hd]
    · simp [commit, hc, hd]
  · by_cases hd : txId ≠ invalidTransaction ∧ e.deleteTxId = txId ∧
        e.deleteCommitTime = invalidTimestamp
    · simp [commit, hc, hd]
    · simp [commit, hc, hd]

/-- A version that a transaction neither created nor dropped is not changed by its commit. -/
theorem commit_eq_self {e : EntryStamps} (hc : e.createTxId ≠ txId)
    (hd : e.deleteTxId ≠ txId) (ct : Timestamp) : e.commit txId ct = e := by
  simp [commit, hc, hd]

end EntryStamps

namespace Catalog

variable {c : Catalog} {tx : Snapshot} {schema name schema' name' : Bytes} {es : List EntryStamps}

/-- The stamps of the versions of a name, oldest first. -/
def stampsOf (c : Catalog) (schema name : Bytes) : List EntryStamps :=
  (c.versions schema name).map TableCatalogEntry.stamps

/-! ## Lookups -/

theorem lastVisible_eq_none_iff :
    lastVisible tx es = none ↔ ∀ e ∈ es, e.isVisible tx = false := by
  induction es with
  | nil => simp [lastVisible]
  | cons e es ih =>
    rw [forall_mem_cons, ← ih, lastVisible]
    cases lastVisible tx es with
    | none => simp
    | some i => simp

theorem exists_of_lastVisible {i : ℕ} (h : lastVisible tx es = some i) :
    ∃ e, es[i]? = some e ∧ e.isVisible tx := by
  induction es generalizing i with
  | nil => cases h
  | cons e es ih =>
    rw [lastVisible] at h
    cases hlast : lastVisible tx es with
    | none =>
      rw [hlast] at h
      simp only [ite_none_right_eq_some, some.injEq] at h
      obtain ⟨hvisible, rfl⟩ := h
      exact ⟨e, rfl, hvisible⟩
    | some j =>
      rw [hlast] at h
      obtain rfl : j + 1 = i := by simpa using h
      exact ih hlast

theorem getTable_eq_none_iff :
    c.getTable schema name tx = none ↔ ∀ e ∈ c.stampsOf schema name, e.isVisible tx = false := by
  rw [getTable, map_eq_none_iff]
  exact lastVisible_eq_none_iff

variable {r : TableRef} {e : TableCatalogEntry}

theorem exists_of_getTable (h : c.getTable schema name tx = some r) :
    r.schema = schema ∧ r.name = name ∧
      ∃ e, (c.stampsOf schema name)[r.version]? = some e ∧ e.isVisible tx := by
  rw [getTable, map_eq_some_iff] at h
  obtain ⟨i, hi, rfl⟩ := h
  exact ⟨rfl, rfl, exists_of_lastVisible hi⟩

theorem exists_table?_of_getTable (h : c.getTable schema name tx = some r) :
    ∃ t, c.table? r = some t := by
  obtain ⟨hs, hn, e, he, -⟩ := exists_of_getTable h
  rw [stampsOf, getElem?_map, map_eq_some_iff] at he
  obtain ⟨t, ht, -⟩ := he
  exact ⟨t, by rw [table?, hs, hn, ht]⟩

/-! ## Changes -/

theorem stampsOf_create (blockSize : ℕ) : (create blockSize).stampsOf schema name = [] := by
  rw [stampsOf, versions_create, map_nil]

theorem stampsOf_createEntry {s : Schema} (hs : c.schemas.lookup schema = some s) :
    (c.createEntry schema e).stampsOf schema' name' =
      if schema' = schema ∧ name' = e.name then c.stampsOf schema' name' ++ [e.stamps]
      else c.stampsOf schema' name' := by
  rw [stampsOf, versions_createEntry hs]
  split
  · rw [map_append]
    rfl
  · rfl

theorem stampsOf_markDropped : (c.markDropped r tx).stampsOf schema name =
      if schema = r.schema ∧ name = r.name then
        (c.stampsOf r.schema r.name).modify r.version (EntryStamps.drop tx.txId)
      else c.stampsOf schema name := by
  rw [stampsOf, markDropped, modifyTable, versions_modifyVersions (by simp)]
  split
  · exact map_modify_comm fun _ => rfl
  · rfl

theorem stampsOf_commitEntry {ct : Timestamp} :
    (c.commitEntry schema name txId ct).stampsOf schema' name' =
      if schema' = schema ∧ name' = name then
        (c.stampsOf schema name).map (EntryStamps.commit txId ct)
      else c.stampsOf schema' name' := by
  rw [stampsOf, commitEntry, versions_modifyVersions rfl]
  split
  · rw [stampsOf, List.map_map, List.map_map]
    rfl
  · rfl

/-- The undo entry is that of a definition of the table. -/
def Defines (schema name : Bytes) : UndoEntry → Prop
  | .catalog e => schema = e.schema ∧ name = e.table
  | _ => False

instance (schema name : Bytes) : DecidablePred (Defines schema name) := fun u =>
  match u with
  | .catalog e => inferInstanceAs (Decidable (schema = e.schema ∧ name = e.table))
  | .insert _ | .delete _ | .update _ | .alterPartition _ => inferInstanceAs (Decidable False)

theorem stampsOf_applyUndoEntry (tx : Transaction) (u : UndoEntry) :
    (c.applyUndoEntry tx u).stampsOf schema name =
      if Defines schema name u then
        (c.stampsOf schema name).map (EntryStamps.commit tx.txId tx.commitTime)
      else c.stampsOf schema name := by
  cases u with
  | catalog e =>
    rw [applyUndoEntry, stampsOf_commitEntry]
    by_cases h : schema = e.schema ∧ name = e.table
    · rw [if_pos h, if_pos (show Defines schema name (.catalog e) from h), h.1, h.2]
    · rw [if_neg h, if_neg (show ¬ Defines schema name (.catalog e) from h)]
  | insert e =>
    rw [applyUndoEntry]
    split
    · rfl
    · exact sameStamps_modifyRowGroup _ _ _ schema name
  | delete e | update e =>
    rw [applyUndoEntry]
    split
    · rfl
    · exact sameStamps_forRows _ _ _ schema name
  | alterPartition e => rw [applyUndoEntry, if_neg (by simp [Defines])]

/-- **A commit** stamps the versions of the names that its undo buffer defines. -/
theorem stampsOf_applyUndoBuffer (tx : Transaction) : (c.applyUndoBuffer tx).stampsOf schema name =
      if ∃ u ∈ tx.undoBuffer, Defines schema name u then
        (c.stampsOf schema name).map (EntryStamps.commit tx.txId tx.commitTime)
      else c.stampsOf schema name := by
  have hmap : ∀ es : List EntryStamps, (es.map (EntryStamps.commit tx.txId tx.commitTime)).map
        (EntryStamps.commit tx.txId tx.commitTime) =
      es.map (EntryStamps.commit tx.txId tx.commitTime) := by
    intro es
    rw [List.map_map]
    exact map_congr_left fun e _ => EntryStamps.commit_commit ..
  rw [applyUndoBuffer]
  induction tx.undoBuffer generalizing c with
  | nil => simp
  | cons u us ih =>
    rw [foldl_cons, ih, stampsOf_applyUndoEntry]
    by_cases hu : Defines schema name u
    · simp [hu, hmap]
    · simp [hu]

/-! ## Definitions of tables -/

/-- The stamps of a table that a transaction has just created. -/
def created (tx : Snapshot) : EntryStamps where
  createTxId := tx.txId
  createCommitTime := invalidTimestamp
  deleteTxId := invalidTransaction
  deleteCommitTime := invalidTimestamp

variable {c' : Catalog} {r : Except Error Unit}

/-- `CreateTable` throws and changes nothing, or adds a version to a name without a visible
one. -/
theorem createTable_run {cols : List ColumnDefinition} {pi : PartitionInfo}
    (h : createTable schema name cols tx pi c = some (r, c')) :
    (r.isOk = false ∧ c' = c ∧
      (c.schemas.lookup schema = none ∨ (c.getTable schema name tx).isSome)) ∨
    (r.isOk ∧ c.getTable schema name tx = none ∧ ∃ s entry,
      c.schemas.lookup schema = some s ∧ entry.name = name ∧ entry.stamps = created tx ∧
        entry.rowGroups = [] ∧ c' = c.createEntry schema entry) := by
  rw [createTable, Imp.bind_run_ok Imp.get_run] at h
  cases hs : c.schemas.lookup schema with
  | none =>
    rw [if_pos (by simp [hs])] at h
    cases h
    exact .inl ⟨rfl, rfl, .inl rfl⟩
  | some s =>
    rw [if_neg (by simp [hs])] at h
    cases hget : c.getTable schema name tx with
    | some r =>
      rw [if_pos (by simp [hget])] at h
      cases h
      exact .inl ⟨rfl, rfl, .inr rfl⟩
    | none =>
      rw [if_neg (by simp [hget])] at h
      cases h
      exact .inr ⟨rfl, rfl, s, _, rfl, rfl, rfl, rfl, rfl⟩

/-- `DropTable` throws and changes nothing, or marks the visible version. -/
theorem dropTable_run (h : dropTable schema name tx c = some (r, c')) : (r.isOk = false ∧ c' = c ∧
      (c.schemas.lookup schema = none ∨ c.getTable schema name tx = none)) ∨
    (r.isOk ∧ ∃ ref, c.getTable schema name tx = some ref ∧ c' = c.markDropped ref tx) := by
  rw [dropTable, Imp.bind_run_ok Imp.get_run] at h
  cases hs : c.schemas.lookup schema with
  | none =>
    simp only [hs] at h
    cases h
    exact .inl ⟨rfl, rfl, .inl rfl⟩
  | some s =>
    simp only [hs] at h
    cases hget : c.getTable schema name tx with
    | none =>
      simp only [hget] at h
      cases h
      exact .inl ⟨rfl, rfl, .inr rfl⟩
    | some ref =>
      simp only [hget] at h
      cases h
      exact .inr ⟨rfl, ref, rfl, rfl⟩

/-- A name of a schema that is not there has no versions. -/
theorem stampsOf_eq_nil (h : c.schemas.lookup schema = none) : c.stampsOf schema name = [] := by
  simp [stampsOf, versions, h]

/-! ## Schemas -/

/-- Two catalogs with the same schemas. -/
def SameSchemas (c c' : Catalog) : Prop :=
  ∀ schema, (c.schemas.lookup schema).isSome = (c'.schemas.lookup schema).isSome

theorem SameSchemas.trans {c'' : Catalog} (h : c.SameSchemas c') (h' : c'.SameSchemas c'') :
    c.SameSchemas c'' :=
  fun schema => (h schema).trans (h' schema)

theorem sameSchemas_setSchema {s s' : Schema} (hs : c.schemas.lookup schema = some s) :
    (c.setSchema schema s').SameSchemas c := by
  intro schema'
  by_cases h : schema' = schema
  · subst h
    simp [setSchema, hs]
  · simp [setSchema, Finmap.lookup_insert_of_ne _ h]

theorem sameSchemas_modifyVersions (f : List TableCatalogEntry → List TableCatalogEntry) :
    (c.modifyVersions schema name f).SameSchemas c := by
  rw [modifyVersions]
  split
  · exact fun _ => rfl
  · next s hs =>
    split
    · exact fun _ => rfl
    · exact sameSchemas_setSchema hs

theorem sameSchemas_createEntry :
    (c.createEntry schema e).SameSchemas c := by
  rw [createEntry]
  split
  · exact fun _ => rfl
  · next s hs => exact sameSchemas_setSchema hs

theorem sameSchemas_forRows (r : TableRef) (rowIds : List RowId)
    (f : ℕ → VersionInfo → VersionInfo) : (c.forRows r rowIds f).SameSchemas c := by
  induction rowIds generalizing c with
  | nil => exact fun _ => rfl
  | cons row rows ih => exact ih.trans (sameSchemas_modifyVersions _)

theorem sameSchemas_applyUndoBuffer (tx : Transaction) :
    (c.applyUndoBuffer tx).SameSchemas c := by
  have hentry : ∀ (c : Catalog) u, (c.applyUndoEntry tx u).SameSchemas c := by
    intro c u
    cases u with
    | catalog e => exact sameSchemas_modifyVersions _
    | insert e =>
      rw [applyUndoEntry]
      split
      · exact fun _ => rfl
      · exact sameSchemas_modifyVersions _
    | delete e | update e =>
      rw [applyUndoEntry]
      split
      · exact fun _ => rfl
      · exact sameSchemas_forRows _ _ _
    | alterPartition e => exact fun _ => rfl
  rw [applyUndoBuffer]
  induction tx.undoBuffer generalizing c with
  | nil => exact fun _ => rfl
  | cons u us ih => exact ih.trans (hentry c u)

end Catalog

end CppColDB
