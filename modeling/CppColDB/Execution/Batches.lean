import CppColDB.Execution.Effects
import CppColDB.Lib.Fallible

/-!
# The rows a DELETE selects

`hits` are the rows of one batch that match a condition, as a function of the catalog.
`deleteGroups_run` says that a `DELETE` marks the hits of all batches up to the first one on
which the condition throws, each read in the state before the statement: the marks of one
batch do not change what the transaction sees of another.
-/

namespace CppColDB

open ByteCodec Except Fallible Imp List Option

namespace Catalog

/-- The first rows of the batches of one row group. -/
def batchesIn (c : Catalog) (r : TableRef) (g : ℕ) : List RowId :=
  (batchStarts ((c.rowGroup? r g).elim 0 RowGroup.rowCount)).map fun offset => { group := g, offset }

/-- The first rows of the batches of some row groups, in the order of a statement. -/
def batches (c : Catalog) (r : TableRef) (gs : List ℕ) : List RowId :=
  gs.flatMap (c.batchesIn r)

/-- The rows of row group `g` that match in a batch, which comes with the offsets of its
rows. -/
def hitsIn (g : ℕ) (predicate : Option Predicate) (batch : DataChunk) (offsets : List ℕ) :
    Fallible Error (List RowId) :=
  if batch.count = 0 then pure []
  else do
    let hits ← (some (matching predicate batch) : Fallible Error (List ℕ))
    let marked ← ofOption (hits.mapM fun i => offsets[i]?)
    pure (marked.map fun offset => { group := g, offset })

/-- The rows of the batch at `b` that a transaction sees and that match. -/
def hits (c : Catalog) (tx : Snapshot) (r : TableRef) (colIds : List ℕ)
    (predicate : Option Predicate) (b : RowId) : Fallible Error (List RowId) := do
  let rg ← ofOption (c.rowGroup? r b.group)
  let (batch, offsets) ← ofOption (rg.scanBatchWithOffsets b.offset colIds tx)
  hitsIn b.group predicate batch offsets

variable {c : Catalog} {tx : Snapshot} {r : TableRef} {colIds : List ℕ}
  {predicate : Option Predicate} {rows : List RowId} {b : RowId}

theorem exists_of_hits (h : c.hits tx r colIds predicate b = some (.ok rows)) :
    ∃ rg batch offsets hits marked, c.rowGroup? r b.group = some rg ∧
      rg.scanBatchWithOffsets b.offset colIds tx = some (batch, offsets) ∧
      (batch.count = 0 ∧ marked = [] ∨ batch.count ≠ 0 ∧ matching predicate batch = .ok hits ∧
        hits.mapM (fun i => offsets[i]?) = some marked) ∧
      rows = marked.map fun offset => { group := b.group, offset } := by
  obtain ⟨rg, hrg, h⟩ := bind_eq_ok_iff.mp h
  obtain ⟨⟨batch, offsets⟩, hscan, h⟩ := bind_eq_ok_iff.mp h
  rw [ofOption_eq_ok_iff] at hrg hscan
  refine ⟨rg, batch, offsets, ?_⟩
  dsimp only [hitsIn] at h
  by_cases hcount : batch.count = 0
  · simp only [hcount] at h
    obtain rfl := pure_eq_ok_iff.mp h
    exact ⟨[], [], hrg, hscan, .inl ⟨hcount, rfl⟩, rfl⟩
  · simp only [hcount] at h
    obtain ⟨hits, hhits, h⟩ := bind_eq_ok_iff.mp h
    obtain ⟨marked, hmarked, h⟩ := bind_eq_ok_iff.mp h
    obtain rfl := pure_eq_ok_iff.mp h
    rw [ofOption_eq_ok_iff] at hmarked
    exact ⟨hits, marked, hrg, hscan, .inr ⟨hcount, some.inj hhits, hmarked⟩, rfl⟩

/-- The hits of a batch are distinct rows of it that the transaction sees. -/
theorem selected_of_hits (h : c.hits tx r colIds predicate b = some (.ok rows)) :
    c.Selected tx r rows ∧ ∀ row ∈ rows, Database.InBatch b.group b.offset row := by
  obtain ⟨rg, batch, offsets, hits, marked, hrg, hscan, hmarked, rfl⟩ := exists_of_hits h
  obtain ⟨hoff, hin⟩ := Database.scanBatchWithOffsets_offsets hscan
  have hsub : marked.Nodup ∧ ∀ off ∈ marked, off ∈ offsets := by
    obtain ⟨_, rfl⟩ | ⟨_, hhits, hmarked⟩ := hmarked
    · simp
    · obtain ⟨hnodup, hmem⟩ :=
        Database.nodup_of_mapM_getElem? hoff (Database.nodup_matching hhits) hmarked
      refine ⟨hnodup, fun off hoffm => ?_⟩
      obtain ⟨i, _, hi⟩ := hmem off hoffm
      exact mem_of_getElem? hi
  refine ⟨⟨hsub.1.map fun a b hab => by simpa using hab, fun row hrow => ?_⟩, fun row hrow => ?_⟩
  · obtain ⟨off, hoffm, rfl⟩ := mem_map.mp hrow
    obtain ⟨_, _, hlt, hvis⟩ := hin off (hsub.2 off hoffm)
    exact ⟨rg, hrg, hlt, hvis⟩
  · obtain ⟨off, hoffm, rfl⟩ := mem_map.mp hrow
    obtain ⟨h₁, h₂, _⟩ := hin off (hsub.2 off hoffm)
    exact ⟨rfl, h₁, h₂⟩

end Catalog

namespace RowGroup

variable {rg : RowGroup} {tx : Snapshot}

/-- A batch reads the markers of its own rows only. -/
theorem scanBatchWithOffsets_mapVersionInfo {f : VersionInfo → VersionInfo} {start : ℕ}
    {colIds : List ℕ} (h : ∀ off, start ≤ off → off < start + standardVectorSize →
      (f rg.versionInfo).isVisible off tx = rg.versionInfo.isVisible off tx) :
    (rg.mapVersionInfo f).scanBatchWithOffsets start colIds tx =
      rg.scanBatchWithOffsets start colIds tx := by
  have hsel : (rg.mapVersionInfo f).selection start tx = rg.selection start tx := by
    refine filter_congr fun i hi => ?_
    rw [mem_range] at hi
    exact h _ (Nat.le_add_right _ _) (by omega)
  rw [scanBatchWithOffsets, hsel]
  rfl

end RowGroup

namespace Catalog

variable {c : Catalog} {tx : Snapshot} {r : TableRef} {colIds : List ℕ}
  {predicate : Option Predicate} {rows : List RowId}

theorem not_mem_offsetsIn {g off : ℕ}
    (h : ({ group := g, offset := off } : RowId) ∉ rows) : off ∉ offsetsIn rows g := by
  intro hmem
  obtain ⟨⟨g', off'⟩, hrow, rfl⟩ := mem_map.mp hmem
  obtain ⟨hrow, hg⟩ := mem_filter.mp hrow
  simp only [decide_eq_true_eq] at hg
  exact h (hg ▸ hrow)

/-- Marking rows outside a batch does not change its hits. -/
theorem hits_forRows {b : RowId} {id : TransactionId}
    (h : ∀ row ∈ rows, ¬ Database.InBatch b.group b.offset row) :
    (c.forRows r rows fun off vi => vi.markDeleted off id).hits tx r colIds predicate b =
      c.hits tx r colIds predicate b := by
  rw [hits, hits, rowGroup?_forRows, if_pos rfl]
  cases c.rowGroup? r b.group with
  | none => rfl
  | some rg =>
    have hscan : (rg.mapVersionInfo fun vi =>
        (offsetsIn rows b.group).foldl (fun vi i => vi.markDeleted i id) vi).scanBatchWithOffsets
          b.offset colIds tx = rg.scanBatchWithOffsets b.offset colIds tx := by
      refine RowGroup.scanBatchWithOffsets_mapVersionInfo fun off hle hlt => ?_
      refine VersionInfo.isVisible_congr ?_ tx
      have hnot : off ∉ offsetsIn rows b.group :=
        not_mem_offsetsIn fun hmem => h _ hmem ⟨rfl, hle, hlt⟩
      exact (VersionInfo.marker?_foldl_mark _ _ _ _ _).trans (if_neg hnot)
    simp only [map_some, bind_of_ok (ofOption_eq_ok_iff.mpr rfl), hscan]

theorem batchesIn_forRows (rows : List RowId) (f : ℕ → VersionInfo → VersionInfo) (g : ℕ) :
    (c.forRows r rows f).batchesIn r g = c.batchesIn r g := by
  rw [batchesIn, batchesIn, rowGroup?_forRows, if_pos rfl]
  cases c.rowGroup? r g <;> rfl

end Catalog

namespace Database

variable {tx : Snapshot} {r : TableRef} {colIds : List ℕ} {predicate : Option Predicate}
  {gs : List ℕ}

/-- Different batches have no row in common. -/
theorem pairwise_batches (c : Catalog) (hgs : gs.Nodup) :
    (c.batches r gs).Pairwise fun b b' =>
      ∀ row, InBatch b.group b.offset row → ¬ InBatch b'.group b'.offset row := by
  rw [Catalog.batches, pairwise_flatMap]
  refine ⟨fun g _ => ?_, hgs.imp fun {g g'} hne => ?_⟩
  · rw [Catalog.batchesIn, pairwise_map]
    refine (pairwise_batchStarts _).imp fun {a b} hab row hrow hrow' => ?_
    have h₁ : row.offset < a + standardVectorSize := hrow.2.2
    have h₂ : b ≤ row.offset := hrow'.2.1
    omega
  · intro b hb b' hb' row hrow hrow'
    obtain ⟨_, _, rfl⟩ := mem_map.mp hb
    obtain ⟨_, _, rfl⟩ := mem_map.mp hb'
    exact hne (hrow.1.symm.trans hrow'.1)

/-- The database with some rows marked as deleted. -/
def markDeleted (db : Database) (tx : Snapshot) (r : TableRef) (rows : List RowId) : Database :=
  db.withCatalog (db.catalog.forRows r rows fun off vi => vi.markDeleted off tx.txId)

theorem markDeleted_append (db : Database) (rows rows' : List RowId) :
    (db.markDeleted tx r rows).markDeleted tx r rows' = db.markDeleted tx r (rows ++ rows') := by
  simp [markDeleted, withCatalog, Catalog.forRows]

theorem batches_markDeleted (db : Database) (rows : List RowId) (gs : List ℕ) :
    (db.markDeleted tx r rows).catalog.batches r gs = db.catalog.batches r gs := by
  rw [markDeleted, catalog_withCatalog]
  exact flatMap_congr fun g _ => Catalog.batchesIn_forRows rows _ g

/-- One batch: the hits are marked, or the condition throws. -/
theorem deleteBatch_run (db : Database) (g start : ℕ) :
    deleteBatch tx r g colIds predicate start db =
      match db.catalog.hits tx r colIds predicate { group := g, offset := start } with
      | none => none
      | some (.error e) => some (.error e, db)
      | some (.ok rows) => some (.ok (rows.map RowId.offset), db.markDeleted tx r rows) := by
  simp only [deleteBatch, Catalog.hits, Catalog.hitsIn, bind_run_ok get_run]
  cases hrg : db.catalog.rowGroup? r g with
  | none => rfl
  | some rg =>
    simp only [bind_run, ofOption_run, map_some, bind_of_ok (ofOption_eq_ok_iff.mpr rfl)]
    cases hscan : rg.scanBatchWithOffsets start colIds tx with
    | none => rfl
    | some out =>
      obtain ⟨batch, offsets⟩ := out
      simp only [map_some, bind_of_ok (ofOption_eq_ok_iff.mpr rfl)]
      by_cases hcount : batch.count = 0
      · simp only [hcount]
        rfl
      · simp only [hcount, if_false]
        cases hhits : matching predicate batch with
        | error e => rfl
        | ok hits =>
          simp only [bind_run, ofExcept_run, ofOption_run, map_some, bind_of_ok rfl]
          cases hmarked : hits.mapM fun i => offsets[i]? with
          | none => rfl
          | some marked =>
            simp only [map_some, modify_run]
            rw [modifyVersionInfo_foldl db.catalog r g
              (fun off vi => vi.markDeleted off tx.txId) marked]
            change _ = some (ok _, _)
            simp [markDeleted, Function.comp_def]

/-- The result of marking what a gathering has found. -/
def deleted (db : Database) (tx : Snapshot) (r : TableRef)
    (out : Except Error Unit × List RowId) : Except Error (List RowId) × Database :=
  (out.1.map fun _ => out.2, db.markDeleted tx r out.2)

/-- The batches of one row group, from pairwise disjoint starts. -/
theorem deleteGroup_run (db : Database) (g : ℕ) {starts : List ℕ}
    (hstarts : starts.Pairwise fun a b => a + standardVectorSize ≤ b) :
    deleteGroup tx r g colIds predicate starts db = (gather (db.catalog.hits tx r colIds predicate)
        (starts.map fun offset => { group := g, offset })).map (db.deleted tx r) := by
  induction starts generalizing db with
  | nil => rfl
  | cons start starts ih =>
    obtain ⟨hfirst, htail⟩ := pairwise_cons.mp hstarts
    rw [deleteGroup, map_cons, gather, bind_run, deleteBatch_run]
    rcases hhits : db.catalog.hits tx r colIds predicate { group := g, offset := start } with
      _ | _ | rows
    · rfl
    · rfl
    · have hin := (Catalog.selected_of_hits hhits).2
      -- the rest of the batches sees the same rows as before the marks
      have hrest : gather ((db.markDeleted tx r rows).catalog.hits tx r colIds predicate)
          (starts.map fun offset => { group := g, offset }) =
          gather (db.catalog.hits tx r colIds predicate)
            (starts.map fun offset => { group := g, offset }) := by
        refine gather_congr fun b hb => Catalog.hits_forRows fun row hrow hrow' => ?_
        obtain ⟨start', hmem, rfl⟩ := mem_map.mp hb
        have h₁ := hfirst start' hmem
        have h₂ : row.offset < start + standardVectorSize := (hin row hrow).2.2
        have h₃ : start' ≤ row.offset := hrow'.2.1
        omega
      simp only [bind_run, ih _ htail, hrest]
      have hmap : (rows.map RowId.offset).map (fun offset => ({ group := g, offset } : RowId)) =
          rows := by
        rw [List.map_map]
        refine (map_congr_left fun row hrow => ?_).trans (map_id rows)
        obtain ⟨hg, -⟩ := hin row hrow
        exact congrArg (RowId.mk · _) hg.symm
      cases gather (db.catalog.hits tx r colIds predicate)
          (starts.map fun offset => { group := g, offset }) with
      | none => rfl
      | some out =>
        obtain ⟨_ | _, rows'⟩ := out
        · simp [deleted, Except.map, markDeleted_append]
        · simp [deleted, Except.map, markDeleted_append, hmap]

/-- **The row groups of a table**: a `DELETE` marks the hits of all batches before the first
that throws. -/
theorem deleteGroups_run (db : Database) (hgs : gs.Nodup)
    (hrg : ∀ g ∈ gs, ∃ rg, db.catalog.rowGroup? r g = some rg) :
    deleteGroups tx r colIds predicate gs db =
      (gather (db.catalog.hits tx r colIds predicate) (db.catalog.batches r gs)).map
        (db.deleted tx r) := by
  induction gs generalizing db with
  | nil => rfl
  | cons g gs ih =>
    obtain ⟨hg, hgs⟩ := nodup_cons.mp hgs
    obtain ⟨⟨rg, hrgg⟩, hrgs⟩ := forall_mem_cons.mp hrg
    have hstarts : db.catalog.batchesIn r g =
        (batchStarts rg.rowCount).map fun offset => { group := g, offset } := by
      rw [Catalog.batchesIn, hrgg]
      rfl
    rw [Catalog.batches, flatMap_cons, gather_append, deleteGroups,
      bind_run_ok get_run, hrgg, bind_run_ok (ofOption_run (some rg)),
      bind_run, deleteGroup_run db g (pairwise_batchStarts _), hstarts]
    match hhere : gather (db.catalog.hits tx r colIds predicate)
        ((batchStarts rg.rowCount).map fun offset => { group := g, offset }) with
    | none => rfl
    | some (.error e, rows) => rfl
    | some (.ok _, rows) =>
      have hin : ∀ row ∈ rows, row.group = g := by
        intro row hrow
        obtain ⟨b, hb, out, hout, hmem⟩ := exists_of_mem_gather hhere hrow
        obtain ⟨start, _, rfl⟩ := mem_map.mp hb
        exact ((Catalog.selected_of_hits hout).2 row hmem).1
      have hrest : gather
          ((db.markDeleted tx r rows).catalog.hits tx r colIds predicate)
          ((db.markDeleted tx r rows).catalog.batches r gs) =
          gather (db.catalog.hits tx r colIds predicate)
            (db.catalog.batches r gs) := by
        rw [batches_markDeleted]
        refine gather_congr fun b hb => Catalog.hits_forRows fun row hrow hrow' => ?_
        obtain ⟨g', hg', hb⟩ := mem_flatMap.mp hb
        obtain ⟨start, _, rfl⟩ := mem_map.mp hb
        have heq : g = g' := (hin row hrow).symm.trans hrow'.1
        exact hg (heq ▸ hg')
      have hpresent : ∀ g ∈ gs, ∃ rg, (db.markDeleted tx r rows).catalog.rowGroup? r g =
          some rg := by
        intro g' hg'
        obtain ⟨rg', hrg'⟩ := hrgs g' hg'
        rw [markDeleted, catalog_withCatalog, Catalog.rowGroup?_forRows, if_pos rfl, hrg']
        exact ⟨_, rfl⟩
      change (deleteGroups tx r colIds predicate gs >>= fun rest => pure (rows ++ rest))
        (db.markDeleted tx r rows) = _
      rw [bind_run, ih _ hgs hpresent, hrest]
      match gather (db.catalog.hits tx r colIds predicate)
          (gs.flatMap (db.catalog.batchesIn r)) with
      | none => rfl
      | some (.error e, rows') =>
        exact congrArg (fun db' => some (error e, db')) (markDeleted_append db rows rows')
      | some (.ok _, rows') =>
        exact congrArg (fun db' => some (ok (rows ++ rows'), db'))
          (markDeleted_append db rows rows')

/-! ## The statement -/

/-- The batches of a whole table. -/
def tableBatches (db : Database) (r : TableRef) (t : TableCatalogEntry) : List RowId :=
  db.catalog.batches r (range t.rowGroups.length)

/-- The columns that a `DELETE` reads. -/
def deleteColIds (t : TableCatalogEntry) (predicate : Option Predicate) : List ℕ :=
  if predicate.isSome then range t.columns.length else []

variable {db db' : Database} {t : TableCatalogEntry}

theorem exists_rowGroup_of_range (ht : db.catalog.table? r = some t) :
    ∀ g ∈ range t.rowGroups.length, ∃ rg, db.catalog.rowGroup? r g = some rg := by
  intro g hg
  rw [mem_range] at hg
  exact ⟨t.rowGroups[g], by simp [Catalog.rowGroup?, ht]⟩

variable {schema table : Bytes}

/-- **A `DELETE`** marks what it has gathered, and records it if nothing was thrown. -/
theorem physicalDelete_run (hr : db.catalog.getTable schema table tx = some r)
    (ht : db.catalog.table? r = some t) (predicate : Option Predicate) :
    physicalDelete tx schema table predicate db =
      (gather (db.catalog.hits tx r (deleteColIds t predicate) predicate)
        (db.tableBatches r t)).map fun out => (out.1,
          if out.1.isOk ∧ out.2 ≠ [] then (db.markDeleted tx r out.2).pushUndo tx.txId
            (.delete { schema, table, rowIds := out.2 })
          else db.markDeleted tx r out.2) := by
  simp only [physicalDelete, bind_run_ok get_run, hr, ht, bind_run_ok (ofOption_run (some t))]
  rw [bind_run, deleteGroups_run db nodup_range (exists_rowGroup_of_range ht)]
  rw [deleteColIds, tableBatches]
  rcases gather (db.catalog.hits tx r
      (if predicate.isSome then range t.columns.length else []) predicate)
    (db.catalog.batches r (range t.rowGroups.length)) with _ | ⟨_ | _, _ | _⟩ <;> rfl

variable {res : Except Error Unit}

/-- **Runs of a `DELETE`**: there is no such table, or the batches of the table are gathered. -/
theorem physicalDelete_cases (h : physicalDelete tx schema table predicate db = some (res, db')) :
    (db.catalog.getTable schema table tx = none ∧ res.isOk = false ∧ db' = db) ∨
      ∃ r t rows, db.catalog.getTable schema table tx = some r ∧ db.catalog.table? r = some t ∧
        gather (db.catalog.hits tx r (deleteColIds t predicate) predicate)
          (db.tableBatches r t) = some (res, rows) ∧
        db' = if res.isOk ∧ rows ≠ [] then (db.markDeleted tx r rows).pushUndo tx.txId
            (.delete { schema, table, rowIds := rows })
          else db.markDeleted tx r rows := by
  cases hr : db.catalog.getTable schema table tx with
  | none =>
    simp only [physicalDelete, bind_run_ok get_run, hr] at h
    cases h
    exact .inl ⟨rfl, rfl, rfl⟩
  | some r =>
    cases ht : db.catalog.table? r with
    | none => simp [physicalDelete, hr, ht, bind_run] at h
    | some t =>
      rw [physicalDelete_run hr ht] at h
      obtain ⟨⟨res, rows⟩, hgather, hout⟩ := map_eq_some_iff.mp h
      cases hout
      exact .inr ⟨r, t, rows, rfl, ht, hgather, rfl⟩

/-- What the batches of some row groups give are distinct rows that the transaction sees. -/
theorem selected_of_gather (hgs : gs.Nodup)
    {rows : List RowId} (h : gather (db.catalog.hits tx r colIds predicate)
      (db.catalog.batches r gs) = some (res, rows)) : db.catalog.Selected tx r rows := by
  refine ⟨nodup_gather (pairwise_batches db.catalog hgs) (fun b rows hb => ?_) h,
    fun row hrow => ?_⟩
  · obtain ⟨hsel, hin⟩ := Catalog.selected_of_hits hb
    exact ⟨hsel.nodup, hin⟩
  · obtain ⟨b, -, rows', hb, hmem⟩ := exists_of_mem_gather h hrow
    exact (Catalog.selected_of_hits hb).1.seen row hmem

theorem effect_physicalDelete (h : physicalDelete tx schema table predicate db = some (res, db')) :
    Effect tx .delete db res.isOk db' := by
  rcases physicalDelete_cases h with ⟨-, -, rfl⟩ | ⟨r, t, rows, hr, -, hgather, rfl⟩
  · exact .refl tx _ _
  have hsel := selected_of_gather nodup_range hgather
  obtain ⟨rfl, rfl⟩ := Catalog.resolve_name hr
  cases res with
  | error e =>
    exact .of_failed (.deleteFailed hsel)
  | ok _ =>
    split
    next => exact .of_dml (.delete hr hsel)
    next hempty =>
      have hnil : rows = [] := by
        by_contra hne
        exact hempty ⟨rfl, hne⟩
      rw [hnil]
      exact .refl tx db true

end Database

end CppColDB
