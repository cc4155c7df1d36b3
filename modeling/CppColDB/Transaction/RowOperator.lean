import CppColDB.Transaction.Session

/-!
# The operators that change rows

`INSERT`, `DELETE` and `UPDATE` as one type of statement, with the rows that a statement has
marked when it ends.
-/

namespace CppColDB

open ByteCodec Catalog Fallible Option Relation

namespace Database

/-- The rows that the loop of an `UPDATE` has marked when it ends. -/
def updateTrace (plan : UpdatePlan) (tx : Snapshot) (r : TableRef) :
    List RowId → Database → List RowId
  | [], _ => []
  | b :: bs, db =>
    match db.catalog.hits tx r plan.scanColIds plan.predicate b with
    | some (.ok rows) =>
      rows ++
        match updateBatch plan tx r b.group b.offset db with
        | some (.ok _, db') => updateTrace plan tx r bs db'
        | _ => []
    | _ => []

/-- The rows of a row group; none if it does not exist. -/
def rowsIn (db : Database) (r : TableRef) (g : ℕ) : ℕ :=
  (db.catalog.rowGroup? r g).elim 0 RowGroup.rowCount

end Database

/-- `PhysicalInsert`, `PhysicalDelete` and `PhysicalUpdate`. The rows of an `INSERT` come in
chunks, each read from the database as it is then: one chunk for `VALUES`, and for
`INSERT ... SELECT` as many as the pipeline delivers. -/
inductive RowOperator where
  | insert (schema table : Bytes) (columnIds : List ℕ)
      (source : List (Database → Fallible Error DataChunk))
  | delete (schema table : Bytes) (predicate : Option Predicate)
  | update (schema table : Bytes) (scanColIds : List ℕ) (sets : List (ℕ × SetExpr))
      (predicate : Option Predicate)

namespace RowOperator

open Database

def run (P : Platform) (tx : Snapshot) : RowOperator → Imp Error Database Unit
  | .insert schema table columnIds source => Imp.forEach source fun next => do
    let db ← Imp.get
    let chunk ← Imp.ofExcept (next db)
    physicalInsert P tx schema table columnIds chunk
  | .delete schema table predicate => physicalDelete tx schema table predicate
  | .update schema table scanColIds sets predicate =>
    physicalUpdate tx schema table scanColIds sets predicate

/-- The rows that a statement from `db` to `db'` has marked. -/
def Marks (tx : Snapshot) (db db' : Database) (r : TableRef) (row : RowId) : RowOperator → Prop
  | .insert _ _ _ _ => db.rowsIn r row.group ≤ row.offset ∧ row.offset < db'.rowsIn r row.group
  | .delete schema table predicate => db.catalog.getTable schema table tx = some r ∧
      ∃ t out, db.catalog.table? r = some t ∧
        gather (db.catalog.hits tx r (deleteColIds t predicate) predicate)
          (db.tableBatches r t) = some out ∧ row ∈ out.2
  | .update schema table scanColIds sets predicate =>
    db.catalog.getTable schema table tx = some r ∧
    ∃ t plan, db.catalog.table? r = some t ∧
      updatePlan? t scanColIds sets predicate = some plan ∧
      row ∈ updateTrace plan tx r (db.tableBatches r t) db

end RowOperator

end CppColDB
