import CppColDB.Execution.Batches
import CppColDB.Transaction.Runs

/-!
# The batches of an UPDATE

An `UPDATE` visits the batches of its table one after the other. Unlike a `DELETE` it writes
while it goes, so each batch is read in the state the ones before have left.
`updateBatch_cases` says what one batch does, `updateGroups_run` that the whole statement is
the loop over the batches.
-/

namespace CppColDB

open ByteCodec Catalog Fallible Imp

namespace Database

variable {tx : Snapshot} {r : TableRef} {db db' : Database} {plan : UpdatePlan}

/-- What a batch of an `UPDATE` has read when it begins to write: the batch, the positions in
it of the matching rows, and their offsets. -/
structure ReadsBatch (db : Database) (tx : Snapshot) (r : TableRef) (plan : UpdatePlan)
    (b : RowId) (batch : DataChunk) (hits marked : List ℕ) : Prop where
  scan : ∃ rg offsets, db.catalog.rowGroup? r b.group = some rg ∧
    rg.scanBatchWithOffsets b.offset plan.scanColIds tx = some (batch, offsets) ∧
    hits.mapM (fun i => offsets[i]?) = some marked
  matching : matching plan.predicate batch = .ok hits
  count : batch.count ≠ 0

variable {b : RowId} {batch : DataChunk} {marked : List ℕ}

theorem ReadsBatch.hits {hits : List ℕ} (h : db.ReadsBatch tx r plan b batch hits marked) :
    db.catalog.hits tx r plan.scanColIds plan.predicate b =
      some (.ok (marked.map fun offset => { group := b.group, offset })) := by
  obtain ⟨rg, offsets, hrg, hscan, hmarked⟩ := h.scan
  rw [Catalog.hits, bind_of_ok (ofOption_eq_ok_iff.mpr hrg),
    bind_of_ok (ofOption_eq_ok_iff.mpr hscan)]
  simp only [hitsIn, h.count]
  rw [bind_of_ok (congrArg some h.matching), bind_of_ok (ofOption_eq_ok_iff.mpr hmarked)]
  rfl

/-- The database with some rows of a row group marked as updated. -/
def markUpdated (db : Database) (tx : Snapshot) (r : TableRef) (g : ℕ) (offsets : List ℕ) :
    Database :=
  db.withCatalog (db.catalog.modifyVersionInfo r g fun vi =>
    offsets.foldl (fun vi off => vi.markUpdated off tx.txId) vi)

/-- The entry that a batch of an `UPDATE` records. -/
def updateEntry (plan : UpdatePlan) (r : TableRef) (g : ℕ) (hits marked : List ℕ)
    (olds news : List DataVector) : UpdateUndoEntry :=
  { schema := r.schema, table := r.name
    rowIds := marked.map fun offset => { group := g, offset }
    colIds := plan.sets.map SetClause.col
    oldValues := { columns := olds, count := hits.length }
    newValues := { columns := news, count := hits.length } }

variable {res : Except Error Unit} {g : ℕ}

/-- **One batch of an `UPDATE`**: the condition throws, or nothing matches, or the matching
rows are marked and the `SET` clauses run. -/
theorem updateBatch_cases (h : updateBatch plan tx r b.group b.offset db = some (res, db')) :
    (∃ e, db.catalog.hits tx r plan.scanColIds plan.predicate b = some (.error e) ∧
      res = .error e ∧ db' = db) ∨
    (db.catalog.hits tx r plan.scanColIds plan.predicate b = some (.ok []) ∧ res = .ok () ∧
      db' = db) ∨
    ∃ batch hits marked, db.ReadsBatch tx r plan b batch hits marked ∧ marked ≠ [] ∧
      ((∃ e, updateColumns plan r b.group batch hits marked plan.sets
          (db.markUpdated tx r b.group marked) = some (.error e, db') ∧ res = .error e) ∨
        ∃ olds news mid, updateColumns plan r b.group batch hits marked plan.sets
          (db.markUpdated tx r b.group marked) = some (.ok (olds, news), mid) ∧ res = .ok () ∧
          db' = mid.pushUndo tx.txId
            (.update (updateEntry plan r b.group hits marked olds news))) := by
  simp only [updateBatch, bind_run_ok get_run] at h
  rcases bind_run_eq_some_iff.mp h with ⟨e, hb, rfl⟩ | ⟨rg, db₀, hb, h⟩
  · simp at hb
  obtain ⟨rfl, hrg⟩ : db = db₀ ∧ db.catalog.rowGroup? r b.group = some rg := by
    simpa [and_comm] using hb
  rcases bind_run_eq_some_iff.mp h with ⟨e, hb, rfl⟩ | ⟨⟨batch, offsets⟩, db₀, hb, h⟩
  · simp at hb
  obtain ⟨rfl, hscan⟩ : db = db₀ ∧ rg.scanBatchWithOffsets b.offset plan.scanColIds tx =
      some (batch, offsets) := by simpa [and_comm] using hb
  have hread : db.catalog.hits tx r plan.scanColIds plan.predicate b =
      hitsIn b.group plan.predicate batch offsets := by
    rw [hits, bind_of_ok (ofOption_eq_ok_iff.mpr hrg), bind_of_ok (ofOption_eq_ok_iff.mpr hscan)]
  by_cases hcount : batch.count = 0
  · rw [if_pos hcount] at h
    rw [hitsIn, if_pos hcount] at hread
    cases h
    exact .inr (.inl ⟨hread, rfl, rfl⟩)
  rw [if_neg hcount] at h
  rw [hitsIn, if_neg hcount] at hread
  rcases bind_run_eq_some_iff.mp h with ⟨e, hb, rfl⟩ | ⟨hits, db₀, hb, h⟩
  · obtain ⟨hthrow, rfl⟩ : matching plan.predicate batch = .error e ∧ db = db' := by simpa using hb
    rw [hthrow] at hread
    exact .inl ⟨e, hread, rfl, rfl⟩
  obtain ⟨hhits, rfl⟩ : matching plan.predicate batch = .ok hits ∧ db = db₀ := by simpa using hb
  rcases bind_run_eq_some_iff.mp h with ⟨e, hb, rfl⟩ | ⟨marked, db₀, hb, h⟩
  · simp at hb
  obtain ⟨rfl, hmarked⟩ : db = db₀ ∧ (hits.mapM fun i => offsets[i]?) = some marked := by
    simpa [and_comm] using hb
  have hreads : db.ReadsBatch tx r plan b batch hits marked :=
    ⟨⟨rg, offsets, hrg, hscan, hmarked⟩, hhits, hcount⟩
  by_cases hempty : marked.isEmpty
  · rw [if_pos hempty] at h
    cases h
    refine .inr (.inl ⟨?_, rfl, rfl⟩)
    rw [hreads.hits, List.isEmpty_iff.mp hempty]
    rfl
  · rw [if_neg hempty, bind_run_ok (modify_run _)] at h
    refine .inr (.inr ⟨batch, hits, marked, hreads, fun hnil => hempty (hnil ▸ rfl), ?_⟩)
    rcases bind_run_eq_some_iff.mp h with ⟨e, hrun, rfl⟩ | ⟨⟨olds, news⟩, mid, hrun, h⟩
    · exact .inl ⟨e, hrun, rfl⟩
    · cases h
      exact .inr ⟨olds, news, mid, hrun, rfl, rfl⟩

/-- What the batches of an `UPDATE` leave alone: the number of rows and the names. -/
structure SameShape (r : TableRef) (db db' : Database) : Prop where
  rowCount : ∀ g, (db'.catalog.rowGroup? r g).map RowGroup.rowCount =
    (db.catalog.rowGroup? r g).map RowGroup.rowCount
  sameStamps : db'.catalog.SameStamps db.catalog

theorem SameShape.refl (db : Database) : db.SameShape r db := ⟨fun _ => rfl, fun _ _ => rfl⟩

theorem SameShape.trans {db'' : Database} (h : db.SameShape r db') (h' : db'.SameShape r db'') :
    db.SameShape r db'' :=
  ⟨fun g => (h'.rowCount g).trans (h.rowCount g), h'.sameStamps.trans h.sameStamps⟩

theorem SameShape.batchesIn (h : db.SameShape r db') (g : ℕ) :
    db'.catalog.batchesIn r g = db.catalog.batchesIn r g := by
  have hcount := h.rowCount g
  rw [Catalog.batchesIn, Catalog.batchesIn]
  cases h₁ : db.catalog.rowGroup? r g <;> cases h₂ : db'.catalog.rowGroup? r g <;>
    simp_all

theorem sameShape_modifyRowGroup {rg rg' : RowGroup} (hrg : db.catalog.rowGroup? r g = some rg)
    (hcount : rg'.rowCount = rg.rowCount) :
    db.SameShape r (db.withCatalog (db.catalog.modifyRowGroup r g fun _ => rg')) := by
  refine ⟨fun g' => ?_, sameStamps_modifyRowGroup _ _ _⟩
  rw [catalog_withCatalog, rowGroup?_modifyRowGroup]
  split
  next h =>
    rw [h.2, hrg]
    exact congrArg some hcount
  next => rfl

theorem sameShape_markUpdated (g : ℕ) (offsets : List ℕ) :
    db.SameShape r (db.markUpdated tx r g offsets) := by
  refine ⟨fun g' => ?_, sameStamps_modifyRowGroup _ _ _⟩
  rw [markUpdated, catalog_withCatalog, modifyVersionInfo, rowGroup?_modifyRowGroup]
  split
  next h =>
    rw [h.2]
    cases db.catalog.rowGroup? r g <;> rfl
  next => rfl

/-- The `SET` clauses write one row group and nothing else. -/
theorem updateColumns_frame {hits offsets : List ℕ} {sets : List SetClause}
    {res : Except Error (List DataVector × List DataVector)}
    (hrg : ∃ rg, db.catalog.rowGroup? r g = some rg)
    (h : updateColumns plan r g batch hits offsets sets db = some (res, db')) :
    db.SameShape r db' ∧ db'.activeTransactions = db.activeTransactions := by
  obtain ⟨rg, hrg⟩ := hrg
  obtain ⟨writes, rg', res', hw, -, rfl⟩ := writes_updateColumns hrg h
  have hcount : rg'.rowCount = rg.rowCount :=
    congrArg GroupVersions.rowCount (versions_writeColumns hw)
  exact ⟨sameShape_modifyRowGroup hrg hcount, rfl⟩

theorem sameShape_pushUndo (id : TransactionId) (e : UndoEntry) :
    db.SameShape r (db.pushUndo id e) := by
  refine ⟨fun g => ?_, ?_⟩
  · rw [catalog_pushUndo]
  · rw [catalog_pushUndo]
    exact fun _ _ => rfl

theorem rowGroup?_markUpdated {rg : RowGroup} (hrg : db.catalog.rowGroup? r b.group = some rg) :
    (db.markUpdated tx r b.group marked).catalog.rowGroup? r b.group =
      some (rg.markUpdatedRows tx.txId marked) := by
  rw [markUpdated, catalog_withCatalog, modifyVersionInfo, rowGroup?_modifyRowGroup,
    if_pos ⟨rfl, rfl⟩, hrg]
  rfl

theorem ReadsBatch.exists_rowGroup {hits : List ℕ}
    (h : db.ReadsBatch tx r plan b batch hits marked) :
    ∃ rg, (db.markUpdated tx r b.group marked).catalog.rowGroup? r b.group = some rg := by
  obtain ⟨rg, offsets, hrg, -, -⟩ := h.scan
  exact ⟨_, rowGroup?_markUpdated hrg⟩

theorem sameShape_updateBatch
    (h : updateBatch plan tx r b.group b.offset db = some (res, db')) : db.SameShape r db' := by
  rcases updateBatch_cases h with ⟨e, -, -, rfl⟩ | ⟨-, -, rfl⟩ | ⟨batch, hits, marked, hread, -, hrun⟩
  · exact .refl db'
  · exact .refl db'
  have hmark : db.SameShape r (db.markUpdated tx r b.group marked) := sameShape_markUpdated _ _
  rcases hrun with ⟨e, hrun, -⟩ | ⟨olds, news, mid, hrun, -, rfl⟩
  · exact hmark.trans (updateColumns_frame hread.exists_rowGroup hrun).1
  · exact (hmark.trans (updateColumns_frame hread.exists_rowGroup hrun).1).trans
      (sameShape_pushUndo _ _)

/-- The loop of an `UPDATE` over batches. -/
def updateBatches (plan : UpdatePlan) (tx : Snapshot) (r : TableRef) (bs : List RowId) :
    Imp Error Database Unit :=
  forEach bs fun b => updateBatch plan tx r b.group b.offset

theorem sameShape_updateBatches {bs : List RowId}
    (h : updateBatches plan tx r bs db = some (res, db')) : db.SameShape r db' := by
  have hkeep : Keeps (fun mid => db.SameShape r mid) (updateBatches plan tx r bs) :=
    Keeps.forEach fun b _ => Keeps.of_run fun hmid hrun =>
      hmid.trans (sameShape_updateBatch hrun)
  exact hkeep.run (.refl db) h

/-- **An `UPDATE` is the loop over its batches**, which are known from the start. -/
theorem updateGroups_run (db : Database) {gs : List ℕ}
    (hrg : ∀ g ∈ gs, ∃ rg, db.catalog.rowGroup? r g = some rg) :
    updateGroups plan tx r gs db = updateBatches plan tx r (db.catalog.batches r gs) db := by
  induction gs generalizing db with
  | nil => rfl
  | cons g gs ih =>
    obtain ⟨⟨rg, hrgg⟩, hrgs⟩ := List.forall_mem_cons.mp hrg
    have hstarts : db.catalog.batchesIn r g =
        (batchStarts rg.rowCount).map fun offset => { group := g, offset } := by
      rw [batchesIn, hrgg]
      rfl
    rw [batches, List.flatMap_cons, updateBatches, forEach_append, hstarts,
      forEach_map, updateGroups, bind_run_ok get_run, hrgg,
      bind_run_ok (ofOption_run (some rg)), bind_run, bind_run]
    rcases hhere : forEach (batchStarts rg.rowCount) (updateBatch plan tx r g) db with
      _ | ⟨_ | _, mid⟩
    · rfl
    · rfl
    · have hshape : db.SameShape r mid := by
        rw [← forEach_map (batchStarts rg.rowCount) (fun offset => RowId.mk g offset)
          fun b => updateBatch plan tx r b.group b.offset] at hhere
        exact sameShape_updateBatches hhere
      have hbatches : mid.catalog.batches r gs = db.catalog.batches r gs :=
        List.flatMap_congr fun g' _ => hshape.batchesIn g'
      refine (ih mid fun g' hg' => ?_).trans (by rw [hbatches]; rfl)
      obtain ⟨rg', hrg'⟩ := hrgs g' hg'
      have hcount := hshape.rowCount g'
      rw [hrg'] at hcount
      obtain ⟨rg'', hrg'', -⟩ := Option.map_eq_some_iff.mp hcount
      exact ⟨rg'', hrg''⟩

/-! ## The statement -/

/-- The plan of an `UPDATE`, if the table has the columns. -/
def updatePlan? (t : TableCatalogEntry) (scanColIds : List ℕ) (sets : List (ℕ × SetExpr))
    (predicate : Option Predicate) : Option UpdatePlan := do
  let clauses ← sets.mapM fun (col, expr) =>
    t.columns[col]?.map fun c => ({ col, type := c.type, expr } : SetClause)
  pure { scanColIds := if scanColIds.isEmpty then sets.map Prod.fst else scanColIds
         sets := clauses, predicate }

variable {schema table : Bytes} {scanColIds : List ℕ} {sets : List (ℕ × SetExpr)}
  {predicate : Option Predicate}

/-- **An `UPDATE`** is the loop over the batches of the table. -/
theorem physicalUpdate_run {t : TableCatalogEntry}
    (hr : db.catalog.getTable schema table tx = some r) (ht : db.catalog.table? r = some t)
    (hplan : updatePlan? t scanColIds sets predicate = some plan) :
    physicalUpdate tx schema table scanColIds sets predicate db =
      updateBatches plan tx r (db.tableBatches r t) db := by
  obtain ⟨clauses, hclauses, hplan⟩ := Option.bind_eq_some_iff.mp hplan
  cases hplan
  simp only [physicalUpdate, bind_run_ok get_run, hr, ht,
    bind_run_ok (ofOption_run (some t)), hclauses]
  exact updateGroups_run db (exists_rowGroup_of_range ht)

/-- **Runs of an `UPDATE`**: there is no such table, or the loop runs. -/
theorem physicalUpdate_cases
    (h : physicalUpdate tx schema table scanColIds sets predicate db = some (res, db')) :
    (db.catalog.getTable schema table tx = none ∧ res.isOk = false ∧ db' = db) ∨
      ∃ r t plan, db.catalog.getTable schema table tx = some r ∧ db.catalog.table? r = some t ∧
        updatePlan? t scanColIds sets predicate = some plan ∧
        updateBatches plan tx r (db.tableBatches r t) db = some (res, db') := by
  cases hr : db.catalog.getTable schema table tx with
  | none =>
    simp only [physicalUpdate, bind_run_ok get_run, hr] at h
    cases h
    exact .inl ⟨rfl, rfl, rfl⟩
  | some r =>
    cases ht : db.catalog.table? r with
    | none => simp [physicalUpdate, hr, ht, bind_run] at h
    | some t =>
      cases hclauses : sets.mapM fun (set : ℕ × SetExpr) =>
          t.columns[set.1]?.map fun (c : ColumnDefinition) =>
            ({ col := set.1, type := c.type, expr := set.2 } : SetClause) with
      | none =>
        simp [physicalUpdate, hr, ht, hclauses, bind_run] at h
      | some clauses =>
        obtain ⟨plan, hplan⟩ : ∃ plan, updatePlan? t scanColIds sets predicate = some plan :=
          ⟨_, Option.bind_eq_some_iff.mpr ⟨clauses, hclauses, rfl⟩⟩
        rw [physicalUpdate_run hr ht hplan] at h
        exact .inr ⟨r, t, plan, rfl, ht, hplan, h⟩

theorem acts_updateBatch (plan : UpdatePlan) (b : RowId) :
    Acts tx .update r (updateBatch plan tx r b.group b.offset) := by
  intro db res db' hr h
  rcases updateBatch_cases h with ⟨e, -, rfl, rfl⟩ | ⟨-, rfl, rfl⟩ |
    ⟨batch, hits, marked, hread, -, hrun⟩
  · exact .refl tx _ false
  · exact .refl tx _ true
  obtain ⟨rg, offsets, hrg, -, hmarked⟩ := hread.scan
  have hsel := (selected_of_hits hread.hits).1
  -- marking and writing together replace the row group once
  have hwrites : ∀ {res₂ : Except Error (List DataVector × List DataVector)} {db₂},
      updateColumns plan r b.group batch hits marked plan.sets
        (db.markUpdated tx r b.group marked) = some (res₂, db₂) →
      Writes r b.group marked (rg.markUpdatedRows tx.txId marked) db db₂ res₂.isOk := by
    intro res₂ db₂ hrun
    obtain ⟨writes, rg', res', hw, hok, rfl⟩ :=
      writes_updateColumns (rowGroup?_markUpdated hrg) hrun
    refine ⟨writes, rg', res', hw, hok, ?_⟩
    rw [markUpdated, catalog_withCatalog, modifyVersionInfo, modifyRowGroup_modifyRowGroup]
    rfl
  rcases hrun with ⟨e, hrun, rfl⟩ | ⟨olds, news, mid, hrun, rfl, rfl⟩
  · obtain ⟨writes, rg', res', hw, _, rfl⟩ := hwrites hrun
    exact .of_failed (.updateFailed hrg hsel hw)
  · obtain ⟨writes, rg', res', hw, hok, rfl⟩ := hwrites hrun
    obtain rfl := hok rfl
    exact .of_dml (.update hr hrg hsel hw rfl rfl rfl (mapM_eq_some_iff.mp hmarked).length_eq)

theorem effect_physicalUpdate
    (h : physicalUpdate tx schema table scanColIds sets predicate db = some (res, db')) :
    Effect tx .update db res.isOk db' := by
  rcases physicalUpdate_cases h with ⟨-, -, rfl⟩ | ⟨r, t, plan, hr, -, -, hrun⟩
  · exact .refl tx _ _
  obtain ⟨rfl, rfl⟩ := resolve_name hr
  exact Acts.forEach (fun b _ => acts_updateBatch plan b) db res db' hr hrun

end Database

end CppColDB
