import CppColDB.Catalog.Table
import CppColDB.Lib.Finmaps
import CppColDB.Lib.Modify

/-!
# The catalog

Schemas by name, and in each schema the versions of every table name in creation order.
A lookup returns the last version the transaction sees. Where the source holds a pointer
to a table, the model holds a `TableRef`.
-/

namespace CppColDB

open ByteCodec Finmap Imp List Option TableCatalogEntry

structure Schema where
  name : Bytes
  entries : Finmap (fun _ : Bytes => List TableCatalogEntry) := ∅

structure Catalog where
  blockSize : ℕ
  schemas : Finmap (fun _ : Bytes => Schema) := ∅

/-- A pointer to a table: one version of a name. -/
structure TableRef where
  schema : Bytes
  name : Bytes
  version : ℕ
  deriving DecidableEq, Repr

namespace Catalog

def defaultSchema : Bytes := text "main"

/-- A catalog with the empty default schema. -/
def create (blockSize : ℕ) : Catalog :=
  { blockSize, schemas := (∅ : Finmap _).insert defaultSchema { name := defaultSchema } }

/-- Put a schema in the place of the one of that name. -/
def setSchema (c : Catalog) (schema : Bytes) (s : Schema) : Catalog :=
  { c with schemas := c.schemas.insert schema s }

/-- All versions of a name, oldest first. -/
def versions (c : Catalog) (schema name : Bytes) : List TableCatalogEntry :=
  match c.schemas.lookup schema with
  | none => []
  | some s => (s.entries.lookup name).getD []

/-- Change the versions of a name that the schema has. -/
def modifyVersions (c : Catalog) (schema name : Bytes)
    (f : List TableCatalogEntry → List TableCatalogEntry) : Catalog :=
  match c.schemas.lookup schema with
  | none => c
  | some s =>
    match s.entries.lookup name with
    | none => c
    | some vs => c.setSchema schema { s with entries := s.entries.insert name (f vs) }

/-- The index of the last visible version: the reverse loop of `Schema::GetEntry`. -/
def lastVisible (tx : Snapshot) : List EntryStamps → Option ℕ
  | [] => none
  | e :: es =>
    match lastVisible tx es with
    | some i => some (i + 1)
    | none => if e.isVisible tx then some 0 else none

/-- `GetTable`: no table if the schema or a visible version is missing. -/
def getTable (c : Catalog) (schema name : Bytes) (tx : Snapshot) : Option TableRef :=
  (lastVisible tx ((c.versions schema name).map stamps)).map fun version =>
    { schema, name, version }

/-! ## Access through a reference -/

def table? (c : Catalog) (r : TableRef) : Option TableCatalogEntry :=
  (c.versions r.schema r.name)[r.version]?

def modifyTable (c : Catalog) (r : TableRef) (f : TableCatalogEntry → TableCatalogEntry) :
    Catalog :=
  c.modifyVersions r.schema r.name fun vs => vs.modify r.version f

def rowGroup? (c : Catalog) (r : TableRef) (g : ℕ) : Option RowGroup :=
  (c.table? r).bind fun t => t.rowGroups[g]?

def modifyRowGroup (c : Catalog) (r : TableRef) (g : ℕ) (f : RowGroup → RowGroup) : Catalog :=
  c.modifyTable r fun t => { t with rowGroups := t.rowGroups.modify g f }

/-! ## Definitions of tables -/

/-- `CreateEntry` of a schema: a new version after the others. -/
def createEntry (c : Catalog) (schema : Bytes) (entry : TableCatalogEntry) : Catalog :=
  match c.schemas.lookup schema with
  | none => c
  | some s =>
    let vs := (s.entries.lookup entry.name).getD []
    c.setSchema schema { s with entries := s.entries.insert entry.name (vs ++ [entry]) }

def createTable (schema name : Bytes) (cols : List ColumnDefinition) (tx : Snapshot)
    (partitionInfo : PartitionInfo) : Imp Error Catalog Unit := do
  let c ← get
  if (c.schemas.lookup schema).isNone then
    throw (Error.bind (text "Schema not found: " ++ schema))
  else if (c.getTable schema name tx).isSome then
    throw (Error.bind (text "Table already exists: " ++ schema ++ text "." ++ name))
  else
    set (c.createEntry schema
      { name, schemaName := schema, columns := cols, createTxId := tx.txId
        createCommitTime := invalidTimestamp, blockSize := c.blockSize, partitionInfo
        partitionRgIndices :=
          if partitionInfo.isPartitioned then replicate partitionInfo.numPartitions []
          else [] })

/-- `MarkDeleted` on the version that the lookup found. -/
def markDropped (c : Catalog) (r : TableRef) (tx : Snapshot) : Catalog :=
  c.modifyTable r fun t =>
    { t with deleteTxId := tx.txId, deleteCommitTime := invalidTimestamp }

def dropTable (schema name : Bytes) (tx : Snapshot) : Imp Error Catalog Unit := do
  let c ← get
  match c.schemas.lookup schema with
  | none => throw (Error.bind (text "Schema not found: " ++ schema))
  | some s =>
    match c.getTable schema name tx with
    | none =>
      throw (Error.bind
        (text "Entry not found in schema '" ++ s.name ++ text "': " ++ name))
    | some r => set (c.markDropped r tx)

/-- What `CommitEntry` does to one version. A drop is only stamped for a real transaction. -/
def commitStamps (txId : TransactionId) (commitTime : Timestamp) (t : TableCatalogEntry) :
    TableCatalogEntry :=
  { t with
    createCommitTime :=
      if t.createTxId = txId ∧ t.createCommitTime = invalidTimestamp then commitTime
      else t.createCommitTime
    deleteCommitTime :=
      if txId ≠ invalidTransaction ∧ t.deleteTxId = txId ∧ t.deleteCommitTime = invalidTimestamp
      then commitTime else t.deleteCommitTime }

def commitEntry (c : Catalog) (schema name : Bytes) (txId : TransactionId)
    (commitTime : Timestamp) : Catalog :=
  c.modifyVersions schema name fun vs => vs.map (commitStamps txId commitTime)

/-- Remove the uncommitted versions the transaction created. -/
def rollbackCreate (c : Catalog) (schema name : Bytes) (txId : TransactionId) : Catalog :=
  c.modifyVersions schema name fun vs =>
    vs.filter fun t => ¬ (t.createTxId = txId ∧ t.createCommitTime = invalidTimestamp)

/-- Clear the uncommitted drops of the transaction. -/
def rollbackDrop (c : Catalog) (schema name : Bytes) (txId : TransactionId) : Catalog :=
  c.modifyVersions schema name fun vs =>
    vs.map fun t =>
      if t.deleteTxId = txId ∧ t.deleteCommitTime = invalidTimestamp then
        { t with deleteTxId := invalidTransaction, deleteCommitTime := invalidTimestamp }
      else t

/-- `RestorePartitionState`; does nothing when the table is not visible. -/
def restorePartitionState (c : Catalog) (schema name : Bytes) (pi : PartitionInfo)
    (rgIndices : List (List ℕ)) (tx : Snapshot) : Catalog :=
  match c.getTable schema name tx with
  | none => c
  | some r => c.modifyTable r fun t =>
    { t with partitionInfo := pi, partitionRgIndices := rgIndices }

/-! ## Lookups after an update -/

variable {c c' : Catalog} {schema name : Bytes}
  {f : List TableCatalogEntry → List TableCatalogEntry}

/-- Where nothing is stored under the name there is nothing to change. -/
theorem modifyVersions_cases (c : Catalog) (schema name : Bytes) :
    (c.versions schema name = [] ∧ ∀ f, c.modifyVersions schema name f = c) ∨
      ∃ s vs, c.schemas.lookup schema = some s ∧ s.entries.lookup name = some vs := by
  cases hs : c.schemas.lookup schema with
  | none => simp [versions, modifyVersions, hs]
  | some s => cases hn : s.entries.lookup name <;> simp [versions, modifyVersions, hs, hn]

theorem versions_modifyVersions (hf : f [] = []) (schema' name' : Bytes) :
    (c.modifyVersions schema name f).versions schema' name' =
      if schema' = schema ∧ name' = name then f (c.versions schema name)
      else c.versions schema' name' := by
  obtain ⟨hv, hc⟩ | ⟨s, vs, hs, hn⟩ := c.modifyVersions_cases schema name
  · rw [hc, hv, hf]
    split
    next h => rw [h.1, h.2, hv]
    next h => rfl
  · have hc : c.modifyVersions schema name f =
        c.setSchema schema { s with entries := s.entries.insert name (f vs) } := by
      simp [modifyVersions, hs, hn]
    rw [hc]
    by_cases h1 : schema' = schema
    · subst h1
      by_cases h2 : name' = name
      · subst h2
        simp [versions, setSchema, hs, hn]
      · simp [versions, setSchema, hs, h2]
    · simp [versions, setSchema, h1]

theorem versions_createEntry {s : Schema} {e : TableCatalogEntry}
    (hs : c.schemas.lookup schema = some s) (schema' name : Bytes) :
    (c.createEntry schema e).versions schema' name =
      if schema' = schema ∧ name = e.name then c.versions schema' name ++ [e]
      else c.versions schema' name := by
  simp only [createEntry, hs, versions, setSchema]
  by_cases hsc : schema' = schema
  · subst hsc
    by_cases hn : name = e.name
    · subst hn
      simp [hs]
    · simp [hs, hn]
  · simp [hsc]

theorem versions_create (blockSize : ℕ) (schema name : Bytes) :
    (create blockSize).versions schema name = [] := by
  simp only [create, versions]
  by_cases hs : schema = defaultSchema
  · subst hs
    simp
  · simp [lookup_insert_of_ne _ hs]

theorem table?_modifyTable (r r' : TableRef) (f : TableCatalogEntry → TableCatalogEntry) :
    (c.modifyTable r f).table? r' = if r' = r then (c.table? r).map f else c.table? r' := by
  have h : (c.modifyTable r f).versions r'.schema r'.name = _ :=
    versions_modifyVersions (by simp) r'.schema r'.name
  rw [table?, h]
  obtain ⟨schema, name, version⟩ := r
  obtain ⟨schema', name', version'⟩ := r'
  by_cases hsn : schema' = schema ∧ name' = name
  · obtain ⟨rfl, rfl⟩ := hsn
    by_cases hv : version' = version
    · subst hv
      simp [table?]
    · simp [table?, hv, getElem?_modify_ne _ _ (Ne.symm hv)]
  · have hne : ¬ ({ schema := schema', name := name', version := version' } : TableRef) =
        { schema, name, version } := by
      intro h
      cases h
      exact hsn ⟨rfl, rfl⟩
    rw [if_neg hsn, if_neg hne, table?]

theorem rowGroup?_modifyRowGroup (r r' : TableRef) (g g' : ℕ) (f : RowGroup → RowGroup) :
    (c.modifyRowGroup r g f).rowGroup? r' g' =
      if r' = r ∧ g' = g then (c.rowGroup? r g).map f else c.rowGroup? r' g' := by
  rw [modifyRowGroup, rowGroup?, table?_modifyTable]
  by_cases hr : r' = r
  · subst hr
    by_cases hg : g' = g
    · subst hg
      cases h : c.table? r' <;> simp [rowGroup?, h]
    · cases h : c.table? r' <;>
        simp [rowGroup?, h, hg, getElem?_modify_ne _ _ (Ne.symm hg)]
  · simp [hr, rowGroup?]

/-! ## Repeated updates -/

theorem modifyVersions_modifyVersions (schema name : Bytes)
    (f f' : List TableCatalogEntry → List TableCatalogEntry) :
    (c.modifyVersions schema name f).modifyVersions schema name f' =
      c.modifyVersions schema name (f' ∘ f) := by
  obtain ⟨-, hc⟩ | ⟨s, vs, hs, hn⟩ := c.modifyVersions_cases schema name
  · simp only [hc]
  · simp [modifyVersions, setSchema, hs, hn]

theorem modifyVersions_eq_self (h : f (c.versions schema name) = c.versions schema name) :
    c.modifyVersions schema name f = c := by
  obtain ⟨-, hc⟩ | ⟨s, vs, hs, hn⟩ := c.modifyVersions_cases schema name
  · exact hc f
  · simp only [versions, hs, hn, getD_some] at h
    simp only [modifyVersions, hs, hn, h, insert_eq_self_of_lookup hn, setSchema]
    rw [insert_eq_self_of_lookup hs]

theorem modifyVersions_congr {f' : List TableCatalogEntry → List TableCatalogEntry}
    (h : f (c.versions schema name) = f' (c.versions schema name)) :
    c.modifyVersions schema name f = c.modifyVersions schema name f' := by
  obtain ⟨-, hc⟩ | ⟨s, vs, hs, hn⟩ := c.modifyVersions_cases schema name
  · rw [hc, hc]
  · simp only [versions, hs, hn, getD_some] at h
    simp [modifyVersions, hs, hn, h]

theorem modifyTable_modifyTable (r : TableRef) (f f' : TableCatalogEntry → TableCatalogEntry) :
    (c.modifyTable r f).modifyTable r f' = c.modifyTable r (f' ∘ f) := by
  rw [modifyTable, modifyTable, modifyVersions_modifyVersions]
  congr 1
  funext vs
  simp [modify_modify_eq]

variable {r : TableRef} {f : TableCatalogEntry → TableCatalogEntry} {g : ℕ}

theorem modifyTable_congr {f' : TableCatalogEntry → TableCatalogEntry}
    (h : ∀ t, c.table? r = some t → f t = f' t) : c.modifyTable r f = c.modifyTable r f' :=
  modifyVersions_congr (modify_congr h)

theorem modifyTable_eq_self (h : ∀ t, c.table? r = some t → f t = t) : c.modifyTable r f = c := by
  rw [modifyTable_congr (show ∀ t, c.table? r = some t → f t = id t from h)]
  exact modifyVersions_eq_self (modify_id _ _)

theorem modifyRowGroup_modifyRowGroup (r : TableRef) (g : ℕ) (f f' : RowGroup → RowGroup) :
    (c.modifyRowGroup r g f).modifyRowGroup r g f' = c.modifyRowGroup r g (f' ∘ f) := by
  rw [modifyRowGroup, modifyRowGroup, modifyTable_modifyTable]
  simp [modifyRowGroup, Function.comp_def, modify_modify_eq]

theorem modifyRowGroup_congr {f f' : RowGroup → RowGroup}
    (h : ∀ rg, c.rowGroup? r g = some rg → f rg = f' rg) :
    c.modifyRowGroup r g f = c.modifyRowGroup r g f' := by
  refine modifyTable_congr fun t ht => ?_
  rw [modify_congr fun rg hrg => h rg (by simp [rowGroup?, ht, hrg])]

theorem modifyRowGroup_eq_self {f : RowGroup → RowGroup}
    (h : ∀ rg, c.rowGroup? r g = some rg → f rg = rg) : c.modifyRowGroup r g f = c := by
  rw [modifyRowGroup_congr (show ∀ rg, c.rowGroup? r g = some rg → f rg = id rg from h)]
  exact modifyTable_eq_self fun t _ => by rw [modify_id]

/-! ## Lookups of names -/

/-- Two catalogs whose versions carry the same stamps. -/
def SameStamps (c c' : Catalog) : Prop :=
  ∀ schema name, (c.versions schema name).map stamps = (c'.versions schema name).map stamps

theorem SameStamps.getTable (h : c.SameStamps c') : c.getTable = c'.getTable := by
  funext schema name tx
  rw [Catalog.getTable, Catalog.getTable, h]

theorem SameStamps.trans {c'' : Catalog} (h : c.SameStamps c') (h' : c'.SameStamps c'') :
    c.SameStamps c'' :=
  fun schema name => (h schema name).trans (h' schema name)

theorem sameStamps_modifyTable (r : TableRef)
    (hf : ∀ t, (f t).stamps = t.stamps) : (c.modifyTable r f).SameStamps c := by
  intro schema name
  rw [modifyTable, versions_modifyVersions (by simp)]
  split
  next h =>
    rw [h.1, h.2, map_modify_comm (k := id) hf, modify_id]
  next h => rfl

theorem sameStamps_modifyRowGroup (r : TableRef) (g : ℕ) (f : RowGroup → RowGroup) :
    (c.modifyRowGroup r g f).SameStamps c :=
  sameStamps_modifyTable r fun _ => rfl

end Catalog

end CppColDB
