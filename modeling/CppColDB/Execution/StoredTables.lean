import CppColDB.Execution.Effects
import CppColDB.Storage.Column.Rows

/-!
# What appends store

A table without its version markers: what its columns hold, and which row groups its
partitions list. The appends of an `INSERT` and of the replay of its log entry do the same
to it whatever transaction makes them.
-/

namespace CppColDB

open ByteCodec Catalog Imp List Option

/-! ## Slices -/

namespace DataVector

variable {dst dst' src v : DataVector} {i : ℕ} {rows : List ℕ} {null : Bool}

/-- What `append` does with the row it takes from its source: a NULL, or an element of the
array of the destination's type. -/
def appendElement (dst : DataVector) (null : Bool) (x : Option Datum) : Option DataVector :=
  if null then
    some { dst with count := dst.count + 1, validity := dst.validity.put dst.count false }
  else
    let v := { dst with count := dst.count + 1, validity := dst.validity.put dst.count true }
    if dst.type.storageClass = .none then some v
    else x.bind fun x => (v.grow dst.type.storageClass dst.count).store dst.count x

theorem append_eq (hi : i < standardVectorSize) (hcount : dst.count < standardVectorSize) :
    dst.append src i =
      dst.appendElement (src.isNull i) (src.load dst.type.storageClass i) := by
  have hlt : ¬ (standardVectorSize ≤ dst.count ∨ standardVectorSize ≤ i) := by omega
  rw [append, appendElement]
  simp only [hlt]
  cases dst.type.storageClass <;> rfl

theorem lt_of_append (h : dst.append src i = some dst') :
    i < standardVectorSize ∧ dst.count < standardVectorSize := by
  rw [append] at h
  split at h
  · cases h
  · omega

/-- What appending a row leaves alone, and where the row is. -/
theorem appendElement_fields {x : Option Datum} (hcount : dst.count < standardVectorSize)
    (hx : ∀ y, x = some y → y.storageClass = dst.type.storageClass)
    (h : dst.appendElement null x = some dst') :
    dst'.type = dst.type ∧ dst'.count = dst.count + 1 ∧
      (∀ j, dst'.isNull j = if j = dst.count then null else dst.isNull j) ∧
      (dst.type.storageClass ≠ .none → null = false →
        dst'.load dst.type.storageClass dst.count = x) ∧
      ∀ j y, j ≠ dst.count → dst.load dst.type.storageClass j = some y →
        dst'.load dst.type.storageClass j = some y := by
  cases null with
  | true =>
    cases h
    refine ⟨rfl, rfl, fun j => ?_, nofun, fun j y _ hy => hy⟩
    rw [isNull_put hcount]
    rfl
  | false =>
    rw [appendElement, if_neg Bool.false_ne_true] at h
    split at h
    next hnone =>
      cases h
      refine ⟨rfl, rfl, fun j => ?_, fun hne => absurd hnone hne, fun j y _ hy => hy⟩
      rw [isNull_put hcount]
      rfl
    next hne =>
      obtain ⟨y, rfl, hstore⟩ := bind_eq_some_iff.mp h
      have hycls := hx y rfl
      generalize hv : ({ dst with count := dst.count + 1
                                  validity := dst.validity.put dst.count true } : DataVector) = v
        at hstore
      obtain ⟨htype, hcnt, hvalid⟩ := grow_fields dst.type.storageClass dst.count
      obtain ⟨v', hv', htype', hcount', hvalid', hload⟩ :=
        exists_store (v := v.grow dst.type.storageClass dst.count)
          (by rw [hycls]; exact lt_size_grow hne _)
      rw [hstore] at hv'
      cases hv'
      rw [hycls] at hload
      refine ⟨by rw [htype', htype, ← hv], by rw [hcount', hcnt, ← hv], fun j => ?_,
        fun _ _ => by rw [hload, if_pos rfl], fun j z hj hz => ?_⟩
      · have hnull : dst'.isNull j = v.isNull j := by simp only [isNull, hvalid', hvalid]
        rw [hnull, ← hv, isNull_put hcount]
        rfl
      · rw [hload, if_neg hj]
        refine load_grow ?_
        rw [← hv, ← hz]
        rfl

/-- Rows that are copied one by one can be copied again from the copy. -/
theorem foldlM_append_again (h : rows.foldlM (fun v i => v.append src i) dst = some v) :
    (∀ k row, rows[k]? = some row → row < standardVectorSize ∧
      v.isNull (dst.count + k) = src.isNull row ∧
      (dst.type.storageClass ≠ .none → src.isNull row = false →
        v.load dst.type.storageClass (dst.count + k) = src.load dst.type.storageClass row)) ∧
    v.type = dst.type ∧ v.count = dst.count + rows.length ∧
    (∀ j < dst.count, v.isNull j = dst.isNull j) ∧
    ∀ j y, j < dst.count → dst.load dst.type.storageClass j = some y →
      v.load dst.type.storageClass j = some y := by
  induction rows generalizing dst with
  | nil =>
    cases h
    exact ⟨nofun, rfl, rfl, fun _ _ => rfl, fun _ _ _ hy => hy⟩
  | cons row rows ih =>
    rw [foldlM_cons] at h
    obtain ⟨w, hw, h⟩ := bind_eq_some_iff.mp h
    obtain ⟨hrow, hcount⟩ := lt_of_append hw
    rw [append_eq hrow hcount] at hw
    obtain ⟨htype, hcnt, hnull, hload, hkeep⟩ := appendElement_fields hcount
      (fun y hy => storageClass_of_load hy) hw
    obtain ⟨hrows, htype', hcnt', hnull', hkeep'⟩ := ih h
    rw [htype, hcnt] at hrows
    refine ⟨fun k row' hk => ?_, htype'.trans htype, ?_, fun j hj => ?_, fun j y hj hy => ?_⟩
    · cases k with
      | zero =>
        cases hk
        refine ⟨hrow, ?_, fun hne hn => ?_⟩
        · rw [add_zero, hnull' _ (by omega), hnull, if_pos rfl]
        · have hx := hload hne hn
          cases hsrc : src.load dst.type.storageClass row with
          | none =>
            rw [appendElement, hn] at hw
            simp [hne, hsrc] at hw
          | some y =>
            rw [hsrc] at hx
            rw [htype] at hkeep'
            exact hkeep' _ y (by omega) hx
      | succ k =>
        have hstep := hrows k row' hk
        rw [add_right_comm, add_assoc] at hstep
        exact hstep
    · rw [length_cons]
      omega
    · rw [hnull' j (by omega), hnull, if_neg (by omega)]
    · rw [htype] at hkeep'
      exact hkeep' j y (by omega) (hkeep j y (by omega) hy)

theorem appendElement_congr {x x' : Option Datum}
    (h : dst.type.storageClass ≠ .none → null = false → x = x') :
    dst.appendElement null x = dst.appendElement null x' := by
  cases null with
  | true => rfl
  | false =>
    simp only [appendElement]
    by_cases hcls : dst.type.storageClass = .none
    · simp [hcls]
    · rw [h hcls rfl]

/-- Copying rows, and copying the rows of another vector that has the same at the positions
from the first on. -/
theorem foldlM_append_congr {other : DataVector}
    (hother : ∀ k row, rows[k]? = some row → other.isNull (dst.count + k) = src.isNull row ∧
      (dst.type.storageClass ≠ .none → src.isNull row = false →
        other.load dst.type.storageClass (dst.count + k) = src.load dst.type.storageClass row))
    (h : rows.foldlM (fun v i => v.append src i) dst = some v) :
    (range' dst.count rows.length).foldlM (fun v i => v.append other i) dst = some v := by
  induction rows generalizing dst with
  | nil => exact h
  | cons row rows ih =>
    rw [foldlM_cons] at h
    obtain ⟨w, hw, h⟩ := bind_eq_some_iff.mp h
    obtain ⟨hrow, hcount⟩ := lt_of_append hw
    have hhere := hother 0 row rfl
    rw [add_zero] at hhere
    rw [append_eq hrow hcount] at hw
    obtain ⟨htype, hcnt, -, -, -⟩ := appendElement_fields hcount
      (fun y hy => storageClass_of_load hy) hw
    have hstep : dst.append other dst.count = some w := by
      rw [append_eq hcount hcount, hhere.1, ← hw]
      exact appendElement_congr hhere.2
    rw [length_cons, range'_succ, foldlM_cons, hstep, ← hcnt]
    refine ih (fun k row' hk => ?_) h
    rw [htype, hcnt, add_right_comm]
    exact hother (k + 1) row' hk

end DataVector

/-- **A slice is a slice of itself.** -/
theorem DataChunk.slice_slice {chunk s : DataChunk} {rows : List ℕ}
    (h : chunk.slice rows = some s) : s.slice (range s.count) = some s := by
  obtain ⟨columns, hcolumns, hs⟩ := bind_eq_some_iff.mp h
  cases hs
  have hagain : columns.mapM (fun col => (range rows.length).foldlM
      (fun dst idx => dst.append col idx)
      ((DataVector.reset col.type 0).reserve (range rows.length).length)) = some columns := by
    rw [mapM_eq_some_iff, forall₂_iff_get] at hcolumns ⊢
    refine ⟨rfl, fun i hi _ => ?_⟩
    have hcol := hcolumns.2 i (hcolumns.1 ▸ hi) hi
    obtain ⟨hrows, htype, -⟩ := DataVector.foldlM_append_again hcol
    have hfields := DataVector.reserve_reset_fields (chunk.columns.get ⟨i, hcolumns.1 ▸ hi⟩).type
      rows.length
    have hcopy := DataVector.foldlM_append_congr (fun k row hk => (hrows k row hk).2) hcol
    rw [hfields.2] at hcopy
    rw [length_range, htype, hfields.1, range_eq_range']
    exact hcopy
  exact bind_eq_some_iff.mpr ⟨columns, hagain, by rw [length_range]; rfl⟩

/-! ## Tables without markers -/

namespace RowGroup

variable {rg : RowGroup} {chunk : DataChunk} {colIds : List ℕ}

/-- A row group without its version markers. -/
def stored (rg : RowGroup) : RowGroup :=
  { rg with versionInfo := {}, pendingAppendStart := 0, pendingAppendTxId := invalidTransaction }

/-- An append stores the same whatever the markers are. -/
theorem stored_append (txId : TransactionId) : (rg.append chunk colIds txId).map stored =
      (rg.stored.append chunk colIds invalidTransaction).map stored := by
  simp only [append, show rg.stored.columnChunks = rg.columnChunks from rfl]
  cases appendColumns chunk colIds rg.columnChunks <;> rfl

end RowGroup

namespace TableCatalogEntry

variable {t s : TableCatalogEntry} {g pid : ℕ} {chunk : DataChunk} {colIds : List ℕ}

/-- What a version of a table stores: its columns, its partitions and its row groups. -/
def stored (t : TableCatalogEntry) : TableCatalogEntry :=
  { name := [], schemaName := [], columns := t.columns, rowGroups := t.rowGroups.map RowGroup.stored
    blockSize := t.blockSize, partitionInfo := t.partitionInfo
    partitionRgIndices := t.partitionRgIndices }

/-- Append a chunk to a row group. -/
def storeRows (s : TableCatalogEntry) (g : ℕ) (chunk : DataChunk) (colIds : List ℕ) :
    Option TableCatalogEntry := do
  let rg ← s.rowGroups[g]?
  let rg ← rg.append chunk colIds invalidTransaction
  pure { s with rowGroups := s.rowGroups.set g rg.stored }

/-- Append a chunk to the last row group of a table. -/
def storePlain (s : TableCatalogEntry) (chunk : DataChunk) (colIds : List ℕ) :
    Option TableCatalogEntry :=
  s.getOrAddRowGroup.storeRows (s.getOrAddRowGroup.rowGroups.length - 1) chunk colIds

/-- Append a chunk to the last row group of a partition. -/
def storeSlice (s : TableCatalogEntry) (colIds : List ℕ) (slice : ℕ × DataChunk) :
    Option TableCatalogEntry := do
  let (s, g) ← s.getOrAddRowGroupForPartition slice.1
  s.storeRows g slice.2 colIds

theorem stored_addRowGroup : t.addRowGroup.stored = t.stored.addRowGroup := by
  simp only [addRowGroup, stored, map_append, length_map]
  rfl

theorem stored_getOrAddRowGroup : t.getOrAddRowGroup.stored = t.stored.getOrAddRowGroup := by
  rw [getOrAddRowGroup, getOrAddRowGroup, ← stored_addRowGroup,
    show t.stored.rowGroups = t.rowGroups.map RowGroup.stored from rfl, getLast?_map]
  cases t.rowGroups.getLast? with
  | none => rfl
  | some rg =>
    simp only [map_some, show rg.stored.rowCount = rg.rowCount from rfl]
    split <;> rfl

theorem stored_getOrAddRowGroupForPartition :
    (t.getOrAddRowGroupForPartition pid).map (Prod.map stored id) =
      t.stored.getOrAddRowGroupForPartition pid := by
  rw [getOrAddRowGroupForPartition, getOrAddRowGroupForPartition,
    show t.stored.partitionRgIndices = t.partitionRgIndices from rfl,
    show t.stored.rowGroups = t.rowGroups.map RowGroup.stored from rfl]
  cases t.partitionRgIndices[pid]? with
  | none => rfl
  | some indices =>
    simp only [bind_eq_bind, bind_some, length_map, getElem?_map, ← stored_addRowGroup]
    cases indices.getLast? with
    | none => rfl
    | some last =>
      dsimp only
      cases t.rowGroups[last]? with
      | none => rfl
      | some rg =>
        simp only [map_some, bind_some, show rg.stored.rowCount = rg.rowCount from rfl]
        split <;> rfl

theorem storeSlice_fields {p : ℕ × DataChunk} (h : s.storeSlice colIds p = some t) :
    t.columns = s.columns ∧ t.partitionInfo = s.partitionInfo := by
  obtain ⟨⟨s₁, g⟩, hg, h⟩ := bind_eq_some_iff.mp h
  obtain ⟨rg, -, h⟩ := bind_eq_some_iff.mp h
  obtain ⟨rg', -, h⟩ := bind_eq_some_iff.mp h
  cases h
  rcases Database.getOrAddRowGroupForPartition_eq hg with rfl | ⟨_, rfl⟩ <;> exact ⟨rfl, rfl⟩

theorem storeRows_stored (txId : TransactionId) :
    t.stored.storeRows g chunk colIds = (do
      let rg ← t.rowGroups[g]?
      let rg ← rg.append chunk colIds txId
      pure { t with rowGroups := t.rowGroups.set g rg }.stored) := by
  rw [storeRows, show t.stored.rowGroups = t.rowGroups.map RowGroup.stored from rfl, getElem?_map]
  cases t.rowGroups[g]? with
  | none => rfl
  | some rg =>
    have happend : (rg.append chunk colIds txId).map RowGroup.stored = _ :=
      RowGroup.stored_append txId
    cases hrg : rg.append chunk colIds txId with
    | none =>
      rw [hrg] at happend
      simp only [map_some, bind_eq_bind, bind_some]
      cases hs : rg.stored.append chunk colIds invalidTransaction with
      | none => simp [hrg]
      | some rg' => simp [hs] at happend
    | some rg' =>
      rw [hrg] at happend
      obtain ⟨rg'', hs, heq⟩ := map_eq_some_iff.mp happend.symm
      simp [hrg, hs, heq, stored]

end TableCatalogEntry

/-! ## Programs that append -/

namespace Database

variable {tx : Snapshot} {r : TableRef} {db db' db'' : Database} {s : TableCatalogEntry}
  {chunk slice : DataChunk} {chunks chunks' : List DataChunk} {colIds : List ℕ}
  {t t' : TableCatalogEntry}

/-- What a version of a table stores. -/
def storedTable? (db : Database) (r : TableRef) : Option TableCatalogEntry :=
  (db.catalog.table? r).map TableCatalogEntry.stored

/-- The undo entry of an append. -/
def IsAppend (r : TableRef) (chunk : DataChunk) (e : UndoEntry) : Prop :=
  ∃ rowGroupId appendStart, e = .insert
    { schema := r.schema, table := r.name, rowGroupId, appendStart, appendCount := chunk.count
      insertedRows := chunk }

/-- The appends of some chunks as the transaction manager sees them. -/
structure Inserted (tx : Snapshot) (r : TableRef) (chunks : List DataChunk) (db db' : Database) :
    Prop where
  sameClock : db.SameClock db'
  undo : ∀ t, db.activeTransactions.lookup tx.txId = some t → ∃ es, Forall₂ (IsAppend r) chunks es ∧
      db'.activeTransactions.lookup tx.txId = some { t with undoBuffer := t.undoBuffer ++ es }

theorem Inserted.refl (db : Database) : Inserted tx r [] db db :=
  ⟨.refl db, fun t ht => ⟨[], .nil, by simpa using ht⟩⟩

theorem Inserted.trans (h : Inserted tx r chunks db db') (h' : Inserted tx r chunks' db' db'') :
    Inserted tx r (chunks ++ chunks') db db'' := by
  refine ⟨h.sameClock.trans h'.sameClock, fun t ht => ?_⟩
  obtain ⟨es, hes, ht'⟩ := h.undo t ht
  obtain ⟨es', hes', ht''⟩ := h'.undo _ ht'
  exact ⟨es ++ es', rel_append hes hes', by rw [ht'', append_assoc]⟩

/-- Replacing a version of a table by one with the same stamps. -/
theorem inserted_modifyTable (ht : db.catalog.table? r = some t) (hstamps : t'.stamps = t.stamps) :
    Inserted tx r [] db (db.withCatalog (db.catalog.modifyTable r fun _ => t')) := by
  refine ⟨⟨rfl, rfl, rfl, ?_⟩, fun t ht => ⟨[], .nil, by rw [append_nil]; exact ht⟩⟩
  have hcatalog : db.catalog.modifyTable r (fun _ => t') =
      db.catalog.modifyTable r fun u => if u.stamps = t.stamps then t' else u :=
    modifyTable_congr fun u hu => by
      rw [if_pos (congrArg _ (some.inj (hu.symm.trans ht)))]
  rw [hcatalog]
  refine sameStamps_modifyTable r fun u => ?_
  split
  next hu => rw [hstamps, hu]
  next => rfl

theorem inserted_pushUndo (rowGroupId appendStart : ℕ) :
    Inserted tx r [chunk] db (db.pushUndo tx.txId (.insert
      { schema := r.schema, table := r.name, rowGroupId, appendStart, appendCount := chunk.count
        insertedRows := chunk })) := by
  refine ⟨sameClock_pushUndo _ _, fun t ht => ⟨_, .cons ⟨rowGroupId, appendStart, rfl⟩ .nil, ?_⟩⟩
  rw [lookup_pushUndo, if_pos rfl, ht]
  rfl

/-- What a program that appends some chunks to a table stores in it; `none` if it is not
defined. -/
def Stores (tx : Snapshot) (r : TableRef) (m : Imp Error Database Unit) (db : Database)
    (chunks : List DataChunk) : Option TableCatalogEntry → Prop
  | none => m db = none
  | some s => ∃ db', m db = some (.ok (), db') ∧ Inserted tx r chunks db db' ∧
      db'.storedTable? r = some s

variable {m : Imp Error Database Unit} {o : Option TableCatalogEntry} {g : ℕ}

theorem Stores.of_run (h : Stores tx r m db chunks o) (hrun : m db = some (.ok (), db')) :
    Inserted tx r chunks db db' ∧ ∃ s, o = some s ∧ db'.storedTable? r = some s := by
  cases o with
  | none => exact absurd (hrun.symm.trans h) (by simp)
  | some s =>
    obtain ⟨db₁, hrun₁, hins, hs⟩ := h
    cases hrun.symm.trans hrun₁
    exact ⟨hins, s, rfl, hs⟩

/-- A program that appends after a step that does not. -/
theorem Stores.congr {m' : Imp Error Database Unit} (hrun : m db = m' db')
    (hins : Inserted tx r [] db db') (h : Stores tx r m' db' chunks o) :
    Stores tx r m db chunks o := by
  cases o with
  | none => exact hrun.trans h
  | some s =>
    obtain ⟨db₁, h, hins₁, hs⟩ := h
    exact ⟨db₁, hrun.trans h, hins.trans hins₁, hs⟩

theorem exists_table (h : db.storedTable? r = some s) :
    ∃ t, db.catalog.table? r = some t ∧ t.stored = s :=
  map_eq_some_iff.mp h

theorem stores_appendRows (h : db.storedTable? r = some s) :
    Stores tx r (appendRows tx r g chunk colIds) db [chunk] (s.storeRows g chunk colIds) := by
  obtain ⟨t, ht, rfl⟩ := exists_table h
  have hrg : db.catalog.rowGroup? r g = t.rowGroups[g]? := by rw [rowGroup?, ht]; rfl
  rw [TableCatalogEntry.storeRows_stored tx.txId]
  cases hg : t.rowGroups[g]? with
  | none =>
    rw [bind_eq_bind, bind_none, Stores, appendRows, bind_run_ok get_run, hrg, hg]
    rfl
  | some rg =>
    rw [hg] at hrg
    have hget : (ofOption (db.catalog.rowGroup? r g) : Imp Error Database RowGroup) db =
        some (.ok rg, db) := by
      rw [hrg]
      rfl
    cases happend : rg.append chunk colIds tx.txId with
    | none =>
      simp only [bind_eq_bind, bind_some, happend, bind_none]
      rw [Stores, appendRows, bind_run_ok get_run, bind_run_ok hget, happend]
      rfl
    | some rg' =>
      simp only [Option.bind_eq_bind, Option.bind_some, happend]
      have hcatalog : db.catalog.modifyRowGroup r g (fun _ => rg') =
          db.catalog.modifyTable r fun _ =>
            { t with rowGroups := t.rowGroups.set g rg' } := by
        refine modifyTable_congr fun u hu => ?_
        cases ht.symm.trans hu
        rw [← set_eq_modify]
      have hins : Inserted tx r [] db (db.withCatalog (db.catalog.modifyTable r fun _ =>
          { t with rowGroups := t.rowGroups.set g rg' })) :=
        inserted_modifyTable ht rfl
      refine ⟨_, ?_, hins.trans (inserted_pushUndo g rg.rowCount), ?_⟩
      · rw [appendRows, bind_run_ok get_run, bind_run_ok hget, happend, ← hcatalog]
        rfl
      · rw [storedTable?, catalog_pushUndo, catalog_withCatalog, table?_modifyTable, if_pos rfl, ht]
        rfl

/-- An append to a table that a row group may have been added to. -/
theorem stores_appendTo
    (ht : db.catalog.table? r = some t) (hstamps : t'.stamps = t.stamps)
    (hrun : m db = appendRows tx r g chunk colIds
      (db.withCatalog (db.catalog.modifyTable r fun _ => t'))) :
    Stores tx r m db [chunk] (t'.stored.storeRows g chunk colIds) := by
  refine .congr hrun (inserted_modifyTable ht hstamps) (stores_appendRows ?_)
  rw [storedTable?, catalog_withCatalog, table?_modifyTable, if_pos rfl, ht]
  rfl

theorem stores_insertPlain (h : db.storedTable? r = some s) :
    Stores tx r (insertPlain tx r chunk colIds) db [chunk] (s.storePlain chunk colIds) := by
  obtain ⟨t, ht, rfl⟩ := exists_table h
  have hcatalog : db.catalog.modifyTable r TableCatalogEntry.getOrAddRowGroup =
      db.catalog.modifyTable r fun _ => t.getOrAddRowGroup :=
    modifyTable_congr fun u hu => by rw [some.inj (hu.symm.trans ht)]
  have hlength : t.stored.getOrAddRowGroup.rowGroups.length =
      t.getOrAddRowGroup.rowGroups.length := by
    rw [← TableCatalogEntry.stored_getOrAddRowGroup, TableCatalogEntry.stored, length_map]
  rw [TableCatalogEntry.storePlain, hlength, ← TableCatalogEntry.stored_getOrAddRowGroup]
  refine stores_appendTo ht ?_ ?_
  · rw [TableCatalogEntry.getOrAddRowGroup]
    split
    · split <;> rfl
    · rfl
  · rw [insertPlain, bind_run_ok (modify_run _), bind_run_ok get_run, hcatalog,
      catalog_withCatalog, table?_modifyTable, if_pos rfl, ht]
    rfl

theorem stores_appendPartition {rows : List ℕ} {pid : ℕ} (h : db.storedTable? r = some s)
    (hslice : chunk.slice rows = some slice) :
    Stores tx r (appendPartition tx r chunk colIds pid rows) db [slice]
      (s.storeSlice colIds (pid, slice)) := by
  obtain ⟨t, ht, rfl⟩ := exists_table h
  have hrun : appendPartition tx r chunk colIds pid rows db =
      (ofOption (t.getOrAddRowGroupForPartition pid) >>= fun p => do
        modify fun db => db.withCatalog (db.catalog.modifyTable r fun _ => p.1)
        appendRows tx r p.2 slice colIds) db := by
    rw [appendPartition, hslice, bind_run_ok rfl, bind_run_ok get_run, ht]
    rfl
  rw [TableCatalogEntry.storeSlice, ← TableCatalogEntry.stored_getOrAddRowGroupForPartition]
  cases hg : t.getOrAddRowGroupForPartition pid with
  | none =>
    rw [hg] at hrun
    exact hrun
  | some p =>
    rw [hg] at hrun
    obtain ⟨t', g⟩ := p
    refine stores_appendTo ht ?_ hrun
    rcases getOrAddRowGroupForPartition_eq hg with rfl | ⟨_, rfl⟩ <;> rfl

end Database

end CppColDB
