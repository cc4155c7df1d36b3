import CppColDB.Execution.Insert
import CppColDB.Execution.Modify
import CppColDB.Transaction.GroupVersions

/-!
# What a statement on rows can do

`Dml tx` lists the changes that `INSERT`, `DELETE` and `UPDATE` make to the database: a new
row group, an append, a set of deleted rows, a batch of updated rows. A statement is a sequence
of such changes (`Effect`), and one that throws may leave a last change without its undo
entry. Invariants are proved against `Dml`.
-/

namespace CppColDB

open ByteCodec Catalog ColumnChunk Imp List Option Relation RowGroup TableCatalogEntry

/-- Distinct rows of a table that a transaction sees. -/
structure Catalog.Selected (c : Catalog) (tx : Snapshot) (r : TableRef) (rowIds : List RowId) :
    Prop where
  nodup : rowIds.Nodup
  seen : ∀ row ∈ rowIds, ∃ rg, c.rowGroup? r row.group = some rg ∧ row.offset < rg.rowCount ∧
    rg.versionInfo.isVisible row.offset tx = true

/-- Write new values to some columns, the same rows in each. -/
def RowGroup.writeColumns (offsets : List ℕ) (writes : List (ℕ × DataVector)) :
    Imp Error RowGroup Unit :=
  forEach writes fun (col, new) => onColumn col (writeRows offsets new)

/-- Mark rows as updated. -/
def RowGroup.markUpdatedRows (txId : TransactionId) (offsets : List ℕ) : RowGroup → RowGroup :=
  mapVersionInfo fun vi => offsets.foldl (fun vi off => vi.markUpdated off txId) vi

namespace Database

/-- What a change is about: the rows it adds, deletes or updates. -/
inductive Change where
  | grow (r : TableRef)
  | append (r : TableRef) (g count : ℕ)
  | delete (r : TableRef) (rowIds : List RowId)
  | update (r : TableRef) (g : ℕ) (offsets : List ℕ)

/-- The statement a change comes from. -/
inductive ChangeKind where
  | insert | delete | update
  deriving DecidableEq, Repr

def Change.kind : Change → ChangeKind
  | .grow _ | .append _ _ _ => .insert
  | .delete _ _ => .delete
  | .update _ _ _ => .update

/-- One change of a statement of transaction `tx`. The flag says that the change has its
undo entry. -/
inductive Dml (tx : Snapshot) : Bool → Change → Database → Database → Prop
  | grow {db : Database} {r : TableRef} {indices : TableCatalogEntry → List (List ℕ)} :
      Dml tx true (.grow r) db (db.withCatalog (db.catalog.modifyTable r fun t =>
        { t.addRowGroup with partitionRgIndices := indices t }))
  | append {db : Database} {r : TableRef} {g : ℕ} {rg rg' : RowGroup} {chunk : DataChunk}
      {colIds : List ℕ} (hr : db.catalog.resolve tx r.schema r.name = some r)
      (hrg : db.catalog.rowGroup? r g = some rg)
      (happend : rg.append chunk colIds tx.txId = some rg') :
      Dml tx true (.append r g chunk.count) db
        ((db.withCatalog (db.catalog.modifyRowGroup r g fun _ => rg')).pushUndo
          tx.txId (.insert { schema := r.schema, table := r.name, rowGroupId := g
                             appendStart := rg.rowCount, appendCount := chunk.count
                             insertedRows := chunk }))
  | delete {db : Database} {r : TableRef} {rowIds : List RowId}
      (hr : db.catalog.resolve tx r.schema r.name = some r)
      (hrows : db.catalog.Selected tx r rowIds) :
      Dml tx true (.delete r rowIds) db ((db.withCatalog (db.catalog.forRows r rowIds fun off vi =>
        vi.markDeleted off tx.txId)).pushUndo
        tx.txId (.delete { schema := r.schema, table := r.name, rowIds }))
  | deleteFailed {db : Database} {r : TableRef} {rowIds : List RowId}
      (hrows : db.catalog.Selected tx r rowIds) :
      Dml tx false (.delete r rowIds) db (db.withCatalog (db.catalog.forRows r rowIds fun off vi =>
        vi.markDeleted off tx.txId))
  | update {db : Database} {r : TableRef} {g : ℕ} {rg rg' : RowGroup} {offsets : List ℕ}
      {writes : List (ℕ × DataVector)} {e : UpdateUndoEntry}
      (hr : db.catalog.resolve tx r.schema r.name = some r)
      (hrg : db.catalog.rowGroup? r g = some rg)
      (hrows : db.catalog.Selected tx r (offsets.map fun offset => { group := g, offset }))
      (hrun : writeColumns offsets writes (rg.markUpdatedRows tx.txId offsets) = some (.ok (), rg'))
      (hschema : e.schema = r.schema) (htable : e.table = r.name)
      (hids : e.rowIds = offsets.map fun offset => { group := g, offset })
      (hcount : e.oldValues.count = offsets.length) :
      Dml tx true (.update r g offsets) db
        ((db.withCatalog (db.catalog.modifyRowGroup r g fun _ => rg')).pushUndo tx.txId (.update e))
  | updateFailed {db : Database} {r : TableRef} {g : ℕ} {rg rg' : RowGroup} {offsets : List ℕ}
      {writes : List (ℕ × DataVector)} {res : Except Error Unit}
      (hrg : db.catalog.rowGroup? r g = some rg)
      (hrows : db.catalog.Selected tx r (offsets.map fun offset => { group := g, offset }))
      (hrun : writeColumns offsets writes (rg.markUpdatedRows tx.txId offsets) = some (res, rg')) :
      Dml tx false (.update r g offsets) db
        (db.withCatalog (db.catalog.modifyRowGroup r g fun _ => rg'))

/-- A change of the given kind that has its undo entry. -/
def Logged (tx : Snapshot) (k : ChangeKind) (db db' : Database) : Prop :=
  ∃ ch, ch.kind = k ∧ Dml tx true ch db db'

/-- The changes of a whole statement; only one that throws ends without an undo entry. -/
def Effect (tx : Snapshot) (k : ChangeKind) (db : Database) (ok : Bool) (db' : Database) : Prop :=
  ∃ mid, ReflTransGen (Logged tx k) db mid ∧
    (mid = db' ∨ ok = false ∧ ∃ ch, ch.kind = k ∧ Dml tx false ch mid db')

/-! ## Fields that statements leave alone -/

section Frame

variable {db db' : Database} {tx : Snapshot} {logged ok : Bool} {ch : Change} {k : ChangeKind}
  {db'' : Database}

@[simp] theorem catalog_withCatalog (c : Catalog) : (db.withCatalog c).catalog = c := rfl

@[simp] theorem catalog_pushUndo (id : TransactionId) (e : UndoEntry) :
    (db.pushUndo id e).catalog = db.catalog := by
  unfold pushUndo
  split <;> rfl

theorem lookup_pushUndo (id id' : TransactionId) (e : UndoEntry) :
    (db.pushUndo id e).activeTransactions.lookup id' =
      if id' = id then (db.activeTransactions.lookup id).map fun t =>
        { t with undoBuffer := t.undoBuffer ++ [e] }
      else db.activeTransactions.lookup id' := by
  cases ht : db.activeTransactions.lookup id with
  | none =>
    have hdb : db.pushUndo id e = db := by simp [pushUndo, ht]
    rw [hdb]
    split
    next h => rw [h, ht, map_none]
    next h => rfl
  | some t =>
    simp only [pushUndo, ht]
    split
    next h => rw [h, Finmap.lookup_insert, map_some]
    next h => rw [Finmap.lookup_insert_of_ne _ h]

/-- What no statement changes: the counters, the log and the names of the tables. -/
structure SameClock (db db' : Database) : Prop where
  nextTxId : db'.nextTxId = db.nextTxId
  commitCounter : db'.commitCounter = db.commitCounter
  wal : db'.wal = db.wal
  sameStamps : db'.catalog.SameStamps db.catalog

theorem SameClock.refl (db : Database) : db.SameClock db := ⟨rfl, rfl, rfl, fun _ _ => rfl⟩

theorem SameClock.trans (h : db.SameClock db') (h' : db'.SameClock db'') : db.SameClock db'' :=
  ⟨h'.nextTxId.trans h.nextTxId, h'.commitCounter.trans h.commitCounter, h'.wal.trans h.wal,
    h'.sameStamps.trans h.sameStamps⟩

theorem sameClock_withCatalog {c : Catalog} (h : c.SameStamps db.catalog) :
    db.SameClock (db.withCatalog c) := ⟨rfl, rfl, rfl, h⟩

theorem sameClock_pushUndo (id : TransactionId) (e : UndoEntry) :
    db.SameClock (db.pushUndo id e) := by
  unfold pushUndo
  split
  · exact .refl db
  · exact ⟨rfl, rfl, rfl, fun _ _ => rfl⟩

theorem Dml.sameClock (h : Dml tx logged ch db db') : db.SameClock db' := by
  cases h with
  | grow => exact sameClock_withCatalog (sameStamps_modifyTable _ fun _ => rfl)
  | append =>
    exact (sameClock_withCatalog (sameStamps_modifyRowGroup _ _ _)).trans
      (sameClock_pushUndo _ _)
  | delete =>
    exact (sameClock_withCatalog (sameStamps_forRows _ _ _)).trans
      (sameClock_pushUndo _ _)
  | deleteFailed => exact sameClock_withCatalog (sameStamps_forRows _ _ _)
  | update =>
    exact (sameClock_withCatalog (sameStamps_modifyRowGroup _ _ _)).trans
      (sameClock_pushUndo _ _)
  | updateFailed => exact sameClock_withCatalog (sameStamps_modifyRowGroup _ _ _)

theorem sameClock_of_logged (h : ReflTransGen (Logged tx k) db db') : db.SameClock db' := by
  induction h with
  | refl => exact .refl db
  | tail _ hstep ih =>
    obtain ⟨_, _, hstep⟩ := hstep
    exact ih.trans hstep.sameClock

theorem Effect.sameClock (h : Effect tx k db ok db') : db.SameClock db' := by
  obtain ⟨mid, hmid, rfl | ⟨_, _, _, hlast⟩⟩ := h
  · exact sameClock_of_logged hmid
  · exact (sameClock_of_logged hmid).trans hlast.sameClock

theorem Effect.refl (tx : Snapshot) (db : Database) (ok : Bool) : Effect tx k db ok db :=
  ⟨db, .refl, .inl rfl⟩

theorem Effect.of_dml (h : Dml tx true ch db db') : Effect tx ch.kind db ok db' :=
  ⟨db', .single ⟨ch, rfl, h⟩, .inl rfl⟩

theorem Effect.of_failed (h : Dml tx false ch db db') : Effect tx ch.kind db false db' :=
  ⟨db, .refl, .inr ⟨rfl, ch, rfl, h⟩⟩

theorem Effect.trans (h : Effect tx k db true db')
    (h' : Effect tx k db' ok db'') : Effect tx k db ok db'' := by
  obtain ⟨mid, hmid, rfl | ⟨hfalse, _⟩⟩ := h
  · obtain ⟨mid', hmid', hlast⟩ := h'
    exact ⟨mid', hmid.trans hmid', hlast⟩
  · cases hfalse

end Frame

/-! ## Programs of statements -/

/-- A program whose runs are effects of statements of `tx` on table `r`. -/
def Acts {α : Type} (tx : Snapshot) (k : ChangeKind) (r : TableRef) (m : Imp Error Database α) : Prop :=
  ∀ db res db', db.catalog.resolve tx r.schema r.name = some r → m db = some (res, db') →
    Effect tx k db res.isOk db'

namespace Acts

variable {tx : Snapshot} {k : ChangeKind} {r : TableRef} {α β : Type}

theorem pure (a : α) : Acts tx k r (pure a) := by
  intro db res db' _ h
  cases h
  exact .refl tx db true

theorem get : Acts tx k r get := by
  intro db res db' _ h
  cases h
  exact .refl tx db true

theorem ofOption (o : Option α) : Acts tx k r (ofOption o) := by
  intro db res db' _ h
  obtain ⟨a, _, heq⟩ := map_eq_some_iff.mp h
  cases heq
  exact .refl tx db true

theorem ofExcept (o : Option (Except Error α)) : Acts tx k r (ofExcept o) := by
  intro db res db' _ h
  obtain ⟨a, _, heq⟩ := map_eq_some_iff.mp h
  cases heq
  exact .refl tx db _

theorem bind {m : Imp Error Database α} {f : α → Imp Error Database β} (hm : Acts tx k r m)
    (hf : ∀ a, Acts tx k r (f a)) : Acts tx k r (m >>= f) := by
  intro db res db' hr h
  rw [bind_run] at h
  rcases hms : m db with _ | ⟨e | a, db₁⟩
  · simp [hms] at h
  · rw [hms] at h
    cases h
    exact hm db _ _ hr hms
  · rw [hms] at h
    have h₁ : Effect tx k db true db₁ := hm db _ _ hr hms
    have hr₁ : db₁.catalog.resolve tx r.schema r.name = some r := by
      rw [h₁.sameClock.sameStamps.resolve]
      exact hr
    exact h₁.trans (hf a db₁ res db' hr₁ h)

theorem forEach {xs : List α} {body : α → Imp Error Database Unit}
    (h : ∀ x ∈ xs, Acts tx k r (body x)) : Acts tx k r (forEach xs body) := by
  induction xs with
  | nil => exact pure ()
  | cons x xs ih =>
    exact bind (h x mem_cons_self) fun _ => ih fun y hy => h y (mem_cons_of_mem _ hy)

end Acts

/-! ## INSERT -/

section Insert

variable {tx : Snapshot} {r : TableRef} {t t' : TableCatalogEntry}

theorem acts_appendRows (g : ℕ) (chunk : DataChunk) (colIds : List ℕ) :
    Acts tx .insert r (appendRows tx r g chunk colIds) := by
  intro db res db' hr h
  simp only [appendRows, bind_run, get_run, ofOption_run] at h
  cases hrg : db.catalog.rowGroup? r g with
  | none => simp [hrg] at h
  | some rg =>
    cases hrg' : rg.append chunk colIds tx.txId with
    | none => simp [hrg, hrg'] at h
    | some rg' =>
      simp only [hrg, hrg', map_some] at h
      obtain ⟨rfl, rfl⟩ := h
      exact .of_dml (.append hr hrg hrg')

/-- Replacing a table by itself with a new row group. -/
theorem acts_addRowGroup {db : Database} {ok : Bool} (ht : db.catalog.table? r = some t)
    (h : t' = t ∨ ∃ indices, t' = { t.addRowGroup with partitionRgIndices := indices }) :
    Effect tx .insert db ok (db.withCatalog (db.catalog.modifyTable r fun _ => t')) := by
  rcases h with rfl | ⟨indices, rfl⟩
  · rw [modifyTable_eq_self fun t₁ h₁ =>
      some.inj (ht.symm.trans h₁)]
    exact .refl tx db ok
  · have hcongr : db.catalog.modifyTable r (fun _ =>
        { t.addRowGroup with partitionRgIndices := indices }) =
        db.catalog.modifyTable r fun t₁ =>
          { t₁.addRowGroup with partitionRgIndices := indices } := by
      apply modifyTable_congr
      intro t₁ h₁
      rw [some.inj (ht.symm.trans h₁)]
    rw [hcongr]
    exact .of_dml (@Dml.grow tx db r fun _ => indices)

theorem getOrAddRowGroup_eq (t : TableCatalogEntry) : t.getOrAddRowGroup = t ∨
      ∃ indices, t.getOrAddRowGroup = { t.addRowGroup with partitionRgIndices := indices } := by
  unfold getOrAddRowGroup
  split
  next rg _ =>
    split
    · exact .inl rfl
    · exact .inr ⟨_, rfl⟩
  next => exact .inr ⟨_, rfl⟩

theorem getOrAddRowGroupForPartition_eq {pid g : ℕ}
    (h : t.getOrAddRowGroupForPartition pid = some (t', g)) :
    t' = t ∨ ∃ indices, t' = { t.addRowGroup with partitionRgIndices := indices } := by
  simp only [getOrAddRowGroupForPartition, bind_eq_bind, bind_eq_some_iff] at h
  obtain ⟨indices, _, h⟩ := h
  split at h
  next =>
    cases h
    exact .inr ⟨_, rfl⟩
  next last _ =>
    obtain ⟨rg, _, h⟩ := bind_eq_some_iff.mp h
    split at h
    · cases h
      exact .inl rfl
    · cases h
      exact .inr ⟨_, rfl⟩

theorem acts_getOrAddRowGroup : Acts tx .insert r (modify fun db =>
    db.withCatalog (db.catalog.modifyTable r getOrAddRowGroup)) := by
  intro db res db' _ h
  cases h
  cases ht : db.catalog.table? r with
  | none =>
    have hself : db.catalog.modifyTable r getOrAddRowGroup = db.catalog :=
      modifyTable_eq_self fun t h => by simp [ht] at h
    change Effect tx .insert db true (db.withCatalog _)
    rw [hself]
    exact .refl tx db true
  | some t =>
    have hcongr : db.catalog.modifyTable r getOrAddRowGroup =
        db.catalog.modifyTable r fun _ => t.getOrAddRowGroup :=
      modifyTable_congr fun t' h' => by rw [some.inj (ht.symm.trans h')]
    change Effect tx .insert db true (db.withCatalog _)
    rw [hcongr]
    exact acts_addRowGroup ht (getOrAddRowGroup_eq t)

theorem acts_insertPlain (chunk : DataChunk) (columnIds : List ℕ) :
    Acts tx .insert r (insertPlain tx r chunk columnIds) := by
  apply Acts.bind acts_getOrAddRowGroup
  intro _
  apply Acts.bind Acts.get
  intro db
  apply Acts.bind (Acts.ofOption _)
  intro t
  exact acts_appendRows _ chunk columnIds

theorem acts_appendPartition (chunk : DataChunk) (columnIds : List ℕ) (pid : ℕ)
    (rows : List ℕ) : Acts tx .insert r (appendPartition tx r chunk columnIds pid rows) := by
  apply Acts.bind (Acts.ofOption _)
  intro slice db res db' hr h
  simp only [bind_run, get_run, ofOption_run] at h
  cases ht : db.catalog.table? r with
  | none => simp [ht] at h
  | some t =>
    cases hg : t.getOrAddRowGroupForPartition pid with
    | none => simp [ht, hg] at h
    | some tg =>
      obtain ⟨t', g⟩ := tg
      simp only [ht, hg, map_some] at h
      have h₁ : Effect tx .insert db true (db.withCatalog (db.catalog.modifyTable r fun _ => t')) :=
        acts_addRowGroup ht (getOrAddRowGroupForPartition_eq hg)
      refine h₁.trans (acts_appendRows g slice columnIds _ _ _ ?_ h)
      rw [h₁.sameClock.sameStamps.resolve]
      exact hr

theorem acts_insertPartitioned (P : Platform) (pi : PartitionInfo) (chunk : DataChunk)
    (columnIds : List ℕ) : Acts tx .insert r (insertPartitioned P tx r pi chunk columnIds) := by
  apply Acts.bind (Acts.ofExcept _)
  intro positions
  apply Acts.bind (Acts.ofExcept _)
  intro parts
  apply Acts.forEach
  intro (pid, rows) _
  apply Acts.bind (Acts.ofOption _)
  intro sorted
  exact acts_appendPartition chunk columnIds pid sorted

theorem acts_doInsertChunk (P : Platform) (chunk : DataChunk) (columnIds : List ℕ) :
    Acts tx .insert r (doInsertChunk P tx r chunk columnIds) := by
  apply Acts.bind Acts.get
  intro db
  apply Acts.bind (Acts.ofOption _)
  intro t
  split
  · exact acts_insertPartitioned P _ chunk columnIds
  · exact acts_insertPlain chunk columnIds

end Insert

theorem effect_physicalInsert {P : Platform} {tx : Snapshot} {schema table : Bytes}
    {columnIds : List ℕ} {rows : DataChunk} {db db' : Database} {res : Except Error Unit}
    (h : physicalInsert P tx schema table columnIds rows db = some (res, db')) :
    Effect tx .insert db res.isOk db' := by
  simp only [physicalInsert] at h
  split at h
  · cases h
    exact .refl tx db true
  · simp only [bind_run, get_run] at h
    cases hr : db.catalog.getTable schema table tx with
    | none =>
      rw [hr] at h
      cases h
      exact .refl tx db false
    | some r =>
      simp only [hr] at h
      exact acts_doInsertChunk P rows columnIds db res db' (resolve_self hr) h

/-! ## Choosing rows -/

/-- The elements that distinct positions pick from a list without repetitions. -/
theorem nodup_of_mapM_getElem? {offsets hits marked : List ℕ} (hoff : offsets.Nodup)
    (hhits : hits.Nodup) (h : hits.mapM (fun i => offsets[i]?) = some marked) :
    marked.Nodup ∧ ∀ off ∈ marked, ∃ i ∈ hits, offsets[i]? = some off := by
  rw [mapM_eq_some_iff] at h
  induction h with
  | nil => simp
  | @cons i off is offs hi his ih =>
    obtain ⟨hnot, hnodup⟩ := nodup_cons.mp hhits
    obtain ⟨ih₁, ih₂⟩ := ih hnodup
    refine ⟨nodup_cons.mpr ⟨fun hmem => hnot ?_, ih₁⟩, ?_⟩
    · -- the same element picked twice comes from the same position
      obtain ⟨j, hj, hjoff⟩ := ih₂ off hmem
      obtain ⟨hilt, hi⟩ := List.getElem?_eq_some_iff.mp hi
      obtain ⟨hjlt, hjoff⟩ := List.getElem?_eq_some_iff.mp hjoff
      have hij : i = j := hoff.getElem_inj_iff.mp (hi.trans hjoff.symm)
      exact hij ▸ hj
    · intro x hx
      rcases mem_cons.mp hx with rfl | hx
      · exact ⟨i, mem_cons_self, hi⟩
      · obtain ⟨j, hj, hx⟩ := ih₂ x hx
        exact ⟨j, mem_cons_of_mem _ hj, hx⟩

variable {batch : DataChunk}

theorem nodup_matching {predicate : Option Predicate} {hits : List ℕ}
    (h : matching predicate batch = .ok hits) : hits.Nodup := by
  cases predicate with
  | none =>
    cases h
    exact nodup_range
  | some p =>
    simp only [matching] at h
    cases hp : p batch with
    | error e =>
      rw [hp] at h
      cases h
    | ok keep =>
      rw [hp] at h
      cases h
      exact nodup_range.filter keep

/-- The offsets a batch returns are rows of that batch that the transaction sees. -/
theorem scanBatchWithOffsets_offsets {rg : RowGroup} {start : ℕ} {colIds : List ℕ}
    {tx : Snapshot} {offsets : List ℕ}
    (h : rg.scanBatchWithOffsets start colIds tx = some (batch, offsets)) :
    offsets.Nodup ∧ ∀ off ∈ offsets, start ≤ off ∧ off < start + standardVectorSize ∧
      off < rg.rowCount ∧ rg.versionInfo.isVisible off tx = true := by
  simp only [scanBatchWithOffsets] at h
  split at h
  next =>
    cases h
    simp
  next hlt =>
    simp only [bind_eq_bind, bind_eq_some_iff] at h
    obtain ⟨_, _, _, _, h⟩ := h
    cases h
    refine ⟨(nodup_range.filter _).map fun a b hab => by omega, fun off hoff => ?_⟩
    obtain ⟨i, hi, rfl⟩ := mem_map.mp hoff
    obtain ⟨hi, hvis⟩ := mem_filter.mp hi
    rw [mem_range] at hi
    exact ⟨by omega, by omega, by omega, by simpa using hvis⟩

/-! ## Batches -/

theorem modifyVersionInfo_foldl (c : Catalog) (r : TableRef) (g : ℕ)
    (f : ℕ → VersionInfo → VersionInfo) (offs : List ℕ) :
    c.modifyVersionInfo r g (fun vi => offs.foldl (fun vi off => f off vi) vi) =
      c.forRows r (offs.map fun offset => { group := g, offset }) f := by
  induction offs generalizing c with
  | nil => exact modifyRowGroup_eq_self fun _ _ => rfl
  | cons off offs ih =>
    have hsplit : c.modifyVersionInfo r g
        (fun vi => (off :: offs).foldl (fun vi off => f off vi) vi) =
        (c.modifyVersionInfo r g (f off)).modifyVersionInfo r g
          (fun vi => offs.foldl (fun vi off => f off vi) vi) := by
      rw [modifyVersionInfo, modifyVersionInfo, modifyVersionInfo, modifyRowGroup_modifyRowGroup]
      rfl
    rw [hsplit, ih]
    rfl

/-- The rows of group `g` in the batch at `start`. -/
def InBatch (g start : ℕ) (row : RowId) : Prop :=
  row.group = g ∧ start ≤ row.offset ∧ row.offset < start + standardVectorSize

theorem pairwise_batchStarts (n : ℕ) :
    (batchStarts n).Pairwise fun a b => a + standardVectorSize ≤ b := by
  rw [batchStarts, pairwise_map]
  refine pairwise_lt_range.imp fun {a b} hab => ?_
  simp only [standardVectorSize]
  omega

/-! ## UPDATE -/

section Update

variable {r : TableRef} {g : ℕ} {db db' : Database}

/-- `db'` is `db` after writing some columns of one row group, as far as it came. -/
def Writes (r : TableRef) (g : ℕ) (offsets : List ℕ) (rg : RowGroup) (db db' : Database)
    (ok : Bool) : Prop :=
  ∃ writes rg' res, writeColumns offsets writes rg = some (res, rg') ∧ (ok = true → res = .ok ()) ∧
    db' = db.withCatalog (db.catalog.modifyRowGroup r g fun _ => rg')

variable {offsets : List ℕ} {rg : RowGroup}

section

variable (hrg : db.catalog.rowGroup? r g = some rg) {plan : UpdatePlan} {batch : DataChunk}
  {hits : List ℕ}
include hrg

theorem Writes.refl {ok : Bool} : Writes r g offsets rg db db ok := by
  refine ⟨[], rg, .ok (), rfl, fun _ => rfl, ?_⟩
  rw [modifyRowGroup_eq_self fun rg' h =>
    some.inj (hrg.symm.trans h)]
  rfl

theorem writes_updateColumn {set : SetClause} {res : Except Error (DataVector × DataVector)}
    (h : updateColumn plan r g batch hits offsets set db = some (res, db')) :
    (∃ e, res = .error e ∧ db' = db) ∨ ∃ new rg' res', onColumn set.col (writeRows offsets new) rg =
        some (res', rg') ∧ (res.isOk = true → res' = .ok ()) ∧
        (res.isOk = false → ∃ e, res' = .error e) ∧
        db' = db.withCatalog (db.catalog.modifyRowGroup r g fun _ => rg') := by
  cases hfind : plan.scanColIds.reverse.findIdx? (· = set.col) with
  | none =>
    simp only [updateColumn, hfind] at h
    cases h
    exact .inl ⟨_, rfl, rfl⟩
  | some i =>
    simp only [updateColumn, hfind, bind_run_eq_some_iff, ofOption_run, ofExcept_run,
      map_eq_some_iff, map_some, Prod.mk.injEq, some.injEq, reduceCtorEq, false_and, and_false,
      exists_false, false_or] at h
    obtain ⟨scanned, _, ⟨_, _, _, rfl⟩, old, _, ⟨_, _, _, rfl⟩, h⟩ := h
    rcases h with ⟨e, ⟨_, rfl⟩, rfl⟩ | ⟨full, _, ⟨_, rfl⟩, new, _, ⟨_, _, _, rfl⟩, h⟩
    · exact .inl ⟨e, rfl, rfl⟩
    · have hwrite : ∀ {res'} {db₁ : Database}, onCatalog (onRowGroup r g
          (onColumn set.col (writeRows offsets new))) db = some (res', db₁) →
          ∃ rg', onColumn set.col (writeRows offsets new) rg = some (res', rg') ∧
            db₁ = db.withCatalog (db.catalog.modifyRowGroup r g fun _ => rg') := by
        intro res' db₁ hrun
        obtain ⟨_, c', hc, hrun, rfl⟩ := focus_run_eq_some_iff.mp hrun
        cases hc
        obtain ⟨rg₀, rg', hview, hrun, rfl⟩ := focus_run_eq_some_iff.mp hrun
        cases hrg.symm.trans hview
        exact ⟨rg', hrun, rfl⟩
      rcases h with ⟨e, hcat, rfl⟩ | ⟨_, db₁, hcat, h⟩
      · obtain ⟨rg', hrun, rfl⟩ := hwrite hcat
        exact .inr ⟨_, rg', _, hrun, nofun, fun _ => ⟨e, rfl⟩, rfl⟩
      · obtain ⟨rg', hrun, rfl⟩ := hwrite hcat
        cases h
        exact .inr ⟨_, rg', _, hrun, fun _ => rfl, nofun, rfl⟩

theorem writes_updateColumns {sets : List SetClause}
    {res : Except Error (List DataVector × List DataVector)}
    (h : updateColumns plan r g batch hits offsets sets db = some (res, db')) :
    Writes r g offsets rg db db' res.isOk := by
  induction sets generalizing db db' rg res with
  | nil =>
    cases h
    exact .refl hrg
  | cons set rest ih =>
    rcases bind_run_eq_some_iff.mp h with ⟨e, hcol, rfl⟩ | ⟨⟨old, new⟩, db₁, hcol, h⟩
    · rcases writes_updateColumn hrg hcol with ⟨_, _, rfl⟩ | ⟨new, rg', res', hrun, _, herr, rfl⟩
      · exact .refl hrg
      · obtain ⟨e', rfl⟩ := herr rfl
        exact ⟨[(set.col, new)], rg', .error e', bind_run_error hrun, nofun, rfl⟩
    · rcases writes_updateColumn hrg hcol with ⟨_, hres, _⟩ | ⟨new', rg₁, res', hrun, hok, _, rfl⟩
      · cases hres
      obtain rfl := hok rfl
      have hrg₁ : (db.withCatalog (db.catalog.modifyRowGroup r g fun _ => rg₁)).catalog.rowGroup?
          r g = some rg₁ := by
        rw [catalog_withCatalog, rowGroup?_modifyRowGroup, if_pos ⟨rfl, rfl⟩, hrg]
        rfl
      -- the writes of the other columns follow those of this one
      have hrest : ∀ {res₂ : Except Error (List DataVector × List DataVector)} {db₂},
          updateColumns plan r g batch hits offsets rest
            (db.withCatalog (db.catalog.modifyRowGroup r g fun _ => rg₁)) = some (res₂, db₂) →
          Writes r g offsets rg db db₂ res₂.isOk := by
        intro res₂ db₂ hrun₂
        obtain ⟨writes, rg', res'', hw, hok', rfl⟩ := ih hrg₁ hrun₂
        refine ⟨(set.col, new') :: writes, rg', res'', ?_, hok', ?_⟩
        · exact (bind_run_ok hrun).trans hw
        · rw [catalog_withCatalog, modifyRowGroup_modifyRowGroup]
          rfl
      rcases bind_run_eq_some_iff.mp h with ⟨e, h₂, rfl⟩ | ⟨⟨olds, news⟩, db₂, h₂, h⟩
      · have hw := hrest h₂
        exact hw
      · have hw := hrest h₂
        cases h
        exact hw

end

end Update

end Database

end CppColDB
