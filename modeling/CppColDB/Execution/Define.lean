import CppColDB.Transaction.Manager

/-!
# CREATE TABLE and DROP TABLE

The operators change the catalog and push an undo entry, by which the commit stamps the
definition. With `IF [NOT] EXISTS` an exception of the catalog is ignored.
-/

namespace CppColDB

open ByteCodec Imp

namespace Database

/-- A change of the catalog with its undo entry. -/
def define (tx : Snapshot) (change : Imp Error Catalog Unit) (e : CatalogUndoEntry) :
    Imp Error Database Unit := do
  onCatalog change
  modify fun db => db.pushUndo tx.txId (.catalog e)

theorem define_run {db db' : Database} {s : Snapshot} {change : Imp Error Catalog Unit}
    {e : CatalogUndoEntry} {r : Except Error Unit} (h : define s change e db = some (r, db')) :
    (∃ err c, change db.catalog = some (.error err, c) ∧ db' = db.withCatalog c) ∨
      ∃ c, change db.catalog = some (.ok (), c) ∧
        db' = (db.withCatalog c).pushUndo s.txId (.catalog e) := by
  rw [define, bind_run_eq_some_iff] at h
  obtain ⟨err, herr, -⟩ | ⟨⟨⟩, db₁, hok, h⟩ := h
  · obtain ⟨c, c', hc, hrun, rfl⟩ := focus_run_eq_some_iff.mp herr
    cases hc
    exact .inl ⟨err, c', hrun, rfl⟩
  · obtain ⟨c, c', hc, hrun, rfl⟩ := focus_run_eq_some_iff.mp hok
    cases hc
    cases h
    exact .inr ⟨c', hrun, rfl⟩

/-- `PhysicalCreateTable`. -/
def physicalCreateTable (tx : Snapshot) (schema table : Bytes) (columns : List ColumnDefinition)
    (partitionInfo : PartitionInfo) (ifNotExists : Bool) : Imp Error Database Unit :=
  let create := define tx (Catalog.createTable schema table columns tx partitionInfo)
    { schema, table, wasCreate := true, partitionInfo
      colNames := columns.map ColumnDefinition.name, colTypes := columns.map ColumnDefinition.type }
  if ifNotExists then catchAll create (pure ()) else create

/-- `PhysicalDropTable`. -/
def physicalDropTable (tx : Snapshot) (schema table : Bytes) (ifExists : Bool) :
    Imp Error Database Unit :=
  let drop := define tx (Catalog.dropTable schema table tx) { schema, table, wasCreate := false }
  if ifExists then catchAll drop (pure ()) else drop

end Database

end CppColDB
