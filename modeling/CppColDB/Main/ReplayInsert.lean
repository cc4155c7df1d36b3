import CppColDB.Execution.StoredTables
import CppColDB.Main.ReplayRuns
import CppColDB.Storage.Column.Filling

/-!
# Replay of an INSERT

The log entry of an `INSERT` holds the inserted chunk and not its column list; the replay
puts column `c` of the chunk into column `c` of the table. On a table restored empty it
stores what the statement stored where the column list names all columns in order, and
otherwise only where the vectors it exchanges store the same.
-/

namespace CppColDB

open ByteCodec ColumnChunk DataVector Imp List Nat Option RowGroup

namespace Catalog

variable {c : Catalog}

theorem stored_modifyRowGroup (r r' : TableRef) (g : ℕ) {f : RowGroup → RowGroup}
    (hf : ∀ rg, (f rg).stored = rg.stored) :
    ((c.modifyRowGroup r' g f).table? r).map TableCatalogEntry.stored =
      (c.table? r).map TableCatalogEntry.stored := by
  rw [modifyRowGroup, table?_modifyTable]
  split
  next h =>
    subst h
    cases c.table? r with
    | none => rfl
    | some t =>
      simp [TableCatalogEntry.stored, map_modify_comm (k := id) hf]
  next => rfl

/-- The commit of some appends stores nothing and changes no stamps of tables. -/
theorem applyUndoBuffer_appends (tx : Transaction) {r : TableRef} {chunks : List DataChunk}
    {es : List UndoEntry} (hes : Forall₂ (Database.IsAppend r) chunks es) (r' : TableRef) :
    ((es.foldl (applyUndoEntry tx) c).table? r').map TableCatalogEntry.stored =
        (c.table? r').map TableCatalogEntry.stored ∧
      (es.foldl (applyUndoEntry tx) c).SameStamps c := by
  induction hes generalizing c with
  | nil => exact ⟨rfl, fun _ _ => rfl⟩
  | cons he _ ih =>
    obtain ⟨g, start, rfl⟩ := he
    rw [foldl_cons, applyUndoEntry]
    split
    next => exact ih
    next ref _ =>
      obtain ⟨hstored, hstamps⟩ := @ih (c.modifyRowGroup ref g fun rg =>
        rg.commitAppend tx.commitTime)
      exact ⟨hstored.trans (stored_modifyRowGroup _ _ _ fun _ => rfl),
        hstamps.trans (sameStamps_modifyRowGroup _ _ _)⟩

end Catalog

namespace Database

variable {P : Platform} {d d' : Database} {schema table : Bytes} {r : TableRef}
  {s : TableCatalogEntry}

/-- A database in which the log is replayed: it has no log of its own, every transaction
that begins finds the version `r` of the table, and this stores `s`. -/
structure Restored (d : Database) (schema table : Bytes) (r : TableRef)
    (s : TableCatalogEntry) : Prop where
  wal : d.wal = none
  seen : ∀ tx : Snapshot, d.nextTxId ≤ tx.txId → d.commitCounter < tx.startTime →
    d.catalog.getTable schema table tx = some r
  stored : d.storedTable? r = some s

variable {chunks : List DataChunk}

/-- A replayed transaction that appends. -/
theorem replayTransaction_appends (body : Snapshot → Imp Error Database Unit)
    (hwal : d.wal = none) {d₁ : Database}
    (hbody : body d.replaySnapshot (d.beginTransaction true) = some (.ok (), d₁))
    (hins : Inserted d.replaySnapshot r chunks (d.beginTransaction true) d₁) :
    ∃ d', replayTransaction body d = some (.ok (), d') ∧ d'.wal = none ∧
      d'.nextTxId = d.nextTxId + 1 ∧ d'.commitCounter = d.commitCounter + 1 ∧
      d'.storedTable? r = d₁.storedTable? r ∧ d'.catalog.SameStamps d.catalog := by
  have hlookup : (d.beginTransaction true).activeTransactions.lookup d.replaySnapshot.txId =
      some (d.newTransaction true) := Finmap.lookup_insert _
  obtain ⟨es, hes, ht⟩ := hins.undo _ hlookup
  have hwal₁ : d₁.wal = none := hins.sameClock.wal.trans hwal
  have hget : transaction d.nextTxId d₁ = some (.ok
      { d.newTransaction true with undoBuffer := (d.newTransaction true).undoBuffer ++ es }, d₁) := by
    exact (congrArg (ofOption · d₁) ht)
  obtain ⟨hstored, hstamps⟩ := Catalog.applyUndoBuffer_appends
    { d.newTransaction true with undoBuffer := es, commitTime := d₁.commitCounter + 1 } hes r
  refine ⟨d₁.publish { d.newTransaction true with undoBuffer := es }, ?_, hwal₁,
    hins.sameClock.nextTxId, ?_, hstored, hstamps.trans hins.sameClock.sameStamps⟩
  · refine catchAll_run_ok ?_
    rw [← replaySnapshot, bind_run_ok hbody]
    refine (bind_run_ok hget).trans ?_
    rw [commit, bind_run_ok get_run, hwal₁, isSome_none, Bool.and_false]
    rfl
  · rw [← show (d.beginTransaction true).commitCounter = d.commitCounter from rfl,
      ← hins.sameClock.commitCounter]
    rfl

/-- What the table stores after a replay, `none` if this is not defined. -/
def Replays (m : Imp Error Database Unit) (d : Database) (schema table : Bytes) (r : TableRef) :
    Option TableCatalogEntry → Prop
  | none => m d = none
  | some s => ∃ d', m d = some (.ok (), d') ∧ d'.Restored schema table r s

variable {o : Option TableCatalogEntry}

theorem Replays.congr {m m' : Imp Error Database Unit} (hrun : m d = m' d)
    (h : Replays m' d schema table r o) : Replays m d schema table r o := by
  cases o with
  | none => exact hrun.trans h
  | some s =>
    obtain ⟨d', hd', hrestored⟩ := h
    exact ⟨d', hrun.trans hd', hrestored⟩

/-- What the transaction of a replayed `INSERT` does. -/
def replayInto (P : Platform) (schema table : Bytes) (chunk : DataChunk) (tx : Snapshot) :
    Imp Error Database Unit := do
  let db ← get
  match db.catalog.getTable schema table tx with
  | none => pure ()
  | some r => replayRows P tx r chunk

/-- **The replay of an `INSERT` entry** stores what the appends of its rows store. -/
theorem Restored.replayInsert (h : d.Restored schema table r s) {chunk : DataChunk}
    (hrows : ∀ tx d₁, d₁.storedTable? r = some s →
      Stores tx r (replayRows P tx r chunk) d₁ chunks o) :
    Replays (replayInsert P schema table chunk) d schema table r o := by
  have hget := h.seen d.replaySnapshot le_rfl (lt_add_one d.commitCounter)
  have hrun := hrows d.replaySnapshot (d.beginTransaction true) h.stored
  have hbody : replayInto P schema table chunk d.replaySnapshot (d.beginTransaction true) =
      replayRows P d.replaySnapshot r chunk (d.beginTransaction true) := by
    rw [replayInto, bind_run_ok get_run, show (d.beginTransaction true).catalog = d.catalog from rfl,
      hget]
  cases o with
  | none =>
    exact catchAll_run_none (bind_run_none (hbody.trans hrun))
  | some s' =>
    obtain ⟨d₁, hrun, hins, hs⟩ := hrun
    obtain ⟨d', hreplay, hwal, hnext, hcounter, hstored, hstamps⟩ :=
      replayTransaction_appends (replayInto P schema table chunk) h.wal (hbody.trans hrun) hins
    refine ⟨d', hreplay, hwal, fun tx hid htime => ?_, hstored.trans hs⟩
    rw [hstamps.getTable]
    rw [hnext] at hid
    rw [hcounter] at htime
    exact h.seen tx (le_trans (le_succ _) hid) (lt_trans (lt_add_one d.commitCounter) htime)

end Database

/-! ## Tables that are not partitioned -/

namespace TableCatalogEntry

variable {s s₁ t t' : TableCatalogEntry} {chunk : DataChunk} {colIds : List ℕ}
  {chunks chunks' : List ColumnChunk}

/-- Row `o` of column `c` of row group `g`. -/
def cellAt (t : TableCatalogEntry) (g c o : ℕ) : Option Cell := do
  let rg ← t.rowGroups[g]?
  let cc ← rg.columnChunks[c]?
  cc.cell? o

/-- Two tables with the same rows, in the same row groups of the same partitions, and with
the same values in every column. -/
structure SameRows (t t' : TableCatalogEntry) : Prop where
  rowCounts : t'.rowGroups.map RowGroup.rowCount = t.rowGroups.map RowGroup.rowCount
  partitions : t'.partitionRgIndices = t.partitionRgIndices
  cells : ∀ g c o, t'.cellAt g c o = t.cellAt g c o

theorem cellAt_stored (g c o : ℕ) : t.stored.cellAt g c o = t.cellAt g c o := by
  rw [cellAt, cellAt, show t.stored.rowGroups = t.rowGroups.map RowGroup.stored from rfl,
    getElem?_map]
  cases t.rowGroups[g]? <;> rfl

theorem sameRows_stored_iff : SameRows t.stored t'.stored ↔ SameRows t t' := by
  have hcounts : ∀ t : TableCatalogEntry,
      t.stored.rowGroups.map RowGroup.rowCount = t.rowGroups.map RowGroup.rowCount := by
    intro t
    rw [stored, List.map_map]
    rfl
  constructor
  · intro h
    exact ⟨(hcounts t').symm.trans (h.rowCounts.trans (hcounts t)), h.partitions,
      fun g c o => (cellAt_stored g c o).symm.trans ((h.cells g c o).trans (cellAt_stored g c o))⟩
  · intro h
    exact ⟨by rw [hcounts, hcounts, h.rowCounts], h.partitions,
      fun g c o => by rw [cellAt_stored, cellAt_stored, h.cells]⟩

/-- The table with one row group, which has the given columns. -/
def filled (s : TableCatalogEntry) (rowCount : ℕ) (columnChunks : List ColumnChunk) :
    TableCatalogEntry :=
  { s with rowGroups := [{ rowGroupId := 0, colTypes := s.columnTypes, columnChunks, rowCount }] }

/-- The columns of an empty row group. -/
def emptyColumns (s : TableCatalogEntry) : List ColumnChunk :=
  s.columnTypes.map fun type => { type, blockSize := s.blockSize }

variable {c : ℕ} {col : ColumnDefinition}

theorem getElem?_emptyColumns (hc : s.columns[c]? = some col) :
    s.emptyColumns[c]? = some { type := col.type, blockSize := s.blockSize } := by
  simp [emptyColumns, columnTypes, hc]

theorem length_emptyColumns : s.emptyColumns.length = s.columns.length := by
  simp [emptyColumns, columnTypes]

theorem storePlain_empty (h : s.rowGroups = []) : s.storePlain chunk colIds =
      (RowGroup.appendColumns chunk colIds s.emptyColumns).map (s.filled chunk.count) := by
  have hadd : s.getOrAddRowGroup = { s with rowGroups :=
      [{ rowGroupId := 0, colTypes := s.columnTypes, columnChunks := s.emptyColumns }] } := by
    rw [getOrAddRowGroup]
    simp only [addRowGroup, h]
    rfl
  rw [storePlain, hadd, storeRows]
  simp only [length_singleton, Nat.sub_self, getElem?_cons_zero, bind_eq_bind,
    bind_some, RowGroup.append, Nat.zero_add]
  cases RowGroup.appendColumns chunk colIds s.emptyColumns <;> rfl

variable {n : ℕ}

theorem sameRows_filled_iff : SameRows (s.filled n chunks) (s.filled n chunks') ↔
      ∀ c o : ℕ, chunks'[c]?.bind (cell? · o) =
        chunks[c]?.bind (cell? · o) := by
  constructor
  · exact fun h c o => h.cells 0 c o
  · intro h
    refine ⟨rfl, rfl, fun g c o => ?_⟩
    cases g with
    | zero => exact h c o
    | succ g => rfl

/-- What the live insert puts into row `o` of column `c`. -/
def insertedCell (chunk : DataChunk) (colIds : List ℕ) (c : ℕ) (type : TypeId) (o : ℕ) :
    Option Cell := do
  let i ← colIds.findIdx? (· = c)
  let vec ← chunk.columns[i]?
  vec.storedCell type o

theorem cell?_filled (hcount : 0 < chunk.count)
    (h : Filled chunk colIds 0 s.emptyColumns chunks) (hc : s.columns[c]? = some col)
    (o : ℕ) :
    chunks[c]?.bind (cell? · o) =
      if o < chunk.count then insertedCell chunk colIds c col.type o else none := by
  have hempty := getElem?_emptyColumns hc
  rw [insertedCell]
  cases hfind : colIds.findIdx? (· = c) with
  | none =>
    rw [h.others c fun hc => by simpa using findIdx?_eq_none_iff.mp hfind c hc, hempty]
    simp [ColumnChunk.cell?, ColumnChunk.cellIn]
  | some i =>
    obtain ⟨hi, heq, -⟩ := findIdx?_eq_some_iff_getElem.mp hfind
    obtain ⟨vec, cc, cc', hvec, hcc, happend, hcc'⟩ := h.named i c (by
      rw [getElem?_eq_getElem hi, of_decide_eq_true heq])
    cases hempty.symm.trans hcc
    rw [hcc', bind_some, cell?_appendFromVector_empty hcount happend]
    rw [add_zero] at hvec
    simp [hvec]

/-- Column `c` of the chunk can be stored in column `c` of the table, and stores there what
the live insert has put into it. -/
def ReplaysColumn (chunk : DataChunk) (colIds : List ℕ) (c : ℕ) (type : TypeId) : Prop :=
  ∃ vec, chunk.columns[c]? = some vec ∧ Storable type vec chunk.count ∧
    ∀ o < chunk.count, vec.storedCell type o = insertedCell chunk colIds c type o

instance {c : ℕ} {type : TypeId} : Decidable (ReplaysColumn chunk colIds c type) :=
  match hvec : chunk.columns[c]? with
  | none => isFalse fun ⟨_, h, _⟩ => nomatch hvec.symm.trans h
  | some vec => decidable_of_iff (Storable type vec chunk.count ∧
      ∀ o < chunk.count, vec.storedCell type o = insertedCell chunk colIds c type o)
    ⟨fun h => ⟨vec, hvec, h⟩, fun ⟨_, hvec', h⟩ => some.inj (hvec.symm.trans hvec') ▸ h⟩

theorem insertedCell_range (hc : c < n) (type : TypeId) (o : ℕ) :
    insertedCell chunk (range n) c type o = chunk.columns[c]?.bind (·.storedCell type o) := by
  have hfind : (range n).findIdx? (· = c) = some c := by
    rw [findIdx?_eq_some_iff_getElem]
    refine ⟨by simpa using hc, by simp, fun j hj => ?_⟩
    simp only [getElem_range, decide_eq_true_eq]
    omega
  rw [insertedCell, hfind]
  rfl

/-- If every column can be filled, the column loop of the replay is defined. -/
theorem exists_filled_range (hcount : 0 < chunk.count)
    (h : ∀ (c : ℕ) (col : ColumnDefinition), s.columns[c]? = some col →
      ∃ vec, chunk.columns[c]? = some vec ∧ Storable col.type vec chunk.count) :
    ∃ chunks, Filled chunk (range s.columns.length) 0 s.emptyColumns chunks := by
  have hfill : ∀ c ∈ range s.columns.length, ∃ cc', (do
      let vec ← chunk.columns[c]?
      let cc ← s.emptyColumns[c]?
      cc.appendFromVector vec chunk.count) = some cc' := by
    intro c hc
    have hcol := getElem?_eq_getElem (mem_range.mp hc)
    obtain ⟨vec, hvec, hstorable⟩ := h c _ hcol
    obtain ⟨cc', hcc'⟩ := isSome_iff_exists.mp
      ((isSome_appendFromVector_empty_iff hcount).mpr hstorable)
    exact ⟨cc', by rw [hvec, getElem?_emptyColumns hcol]; exact hcc'⟩
  obtain ⟨chunks, hchunks⟩ := exists_mapM_eq_some_iff.mpr hfill
  obtain ⟨hlength, hget⟩ := forall₂_iff_get.mp (mapM_eq_some_iff.mp hchunks)
  rw [length_range] at hlength
  refine ⟨chunks, hlength.symm.trans length_emptyColumns.symm, fun i c hi => ?_, fun c hc => ?_⟩
  · obtain ⟨hlt, rfl⟩ := List.getElem?_eq_some_iff.mp hi
    have hlt' : i < s.columns.length := by simpa using hlt
    have hcc' := hget i hlt (hlength ▸ hlt')
    simp only [get_eq_getElem, getElem_range] at hcc' ⊢
    obtain ⟨vec, hvec, hcc'⟩ := bind_eq_some_iff.mp hcc'
    obtain ⟨cc, hcc, happend⟩ := bind_eq_some_iff.mp hcc'
    exact ⟨vec, cc, _, hvec, hcc, happend, getElem?_eq_getElem _⟩
  · have hge : s.columns.length ≤ c := by simpa using hc
    rw [getElem?_eq_none (hlength ▸ hge), getElem?_eq_none (length_emptyColumns ▸ hge)]

/-- **The replay of a plain insert** on an empty table. -/
theorem sameRows_storePlain_iff (hempty : s.rowGroups = []) (hcount : 0 < chunk.count)
    (hnodup : colIds.Nodup) (hlive : s.storePlain chunk colIds = some s₁) :
    (∃ s₂, s.storePlain chunk (range s.columns.length) = some s₂ ∧ SameRows s₁ s₂) ↔
      ∀ c col, s.columns[c]? = some col → ReplaysColumn chunk colIds c col.type := by
  rw [storePlain_empty hempty] at hlive ⊢
  obtain ⟨chunks, hchunks, rfl⟩ := map_eq_some_iff.mp hlive
  rw [appendColumns_eq_some_iff hnodup] at hchunks
  constructor
  · rintro ⟨s₂, hs₂, hsame⟩ c col hc
    obtain ⟨chunks₂, hchunks₂, rfl⟩ := map_eq_some_iff.mp hs₂
    rw [appendColumns_eq_some_iff nodup_range] at hchunks₂
    have hlt := (List.getElem?_eq_some_iff.mp hc).1
    obtain ⟨vec, cc, cc', hvec, hcc, happend, -⟩ := hchunks₂.named c c (by simp [hlt])
    cases (getElem?_emptyColumns hc).symm.trans hcc
    refine ⟨vec, hvec, (isSome_appendFromVector_empty_iff hcount).mp
      (isSome_of_eq_some happend), fun o ho => ?_⟩
    have hcell := sameRows_filled_iff.mp hsame c o
    rw [cell?_filled hcount hchunks₂ hc, cell?_filled hcount hchunks hc, if_pos ho, if_pos ho,
      insertedCell_range hlt, show chunk.columns[c]? = _ from hvec] at hcell
    exact hcell
  · intro h
    obtain ⟨chunks₂, hchunks₂⟩ := exists_filled_range hcount fun c col hc =>
      let ⟨vec, hvec, hstorable, _⟩ := h c col hc
      ⟨vec, hvec, hstorable⟩
    refine ⟨s.filled chunk.count chunks₂, ?_, sameRows_filled_iff.mpr fun c o => ?_⟩
    · rw [(appendColumns_eq_some_iff nodup_range).mpr hchunks₂, map_some]
    · cases hc : s.columns[c]? with
      | none =>
        have hge : s.emptyColumns.length ≤ c := length_emptyColumns ▸ getElem?_eq_none_iff.mp hc
        rw [getElem?_eq_none (hchunks₂.length ▸ hge), getElem?_eq_none (hchunks.length ▸ hge)]
      | some col =>
        obtain ⟨vec, hvec, -, hcells⟩ := h c col hc
        rw [cell?_filled hcount hchunks₂ hc, cell?_filled hcount hchunks hc,
          insertedCell_range (List.getElem?_eq_some_iff.mp hc).1, hvec]
        split
        next ho => exact hcells o ho
        next => rfl

end TableCatalogEntry

/-! ## Slices are routed as their rows were -/

section Slices

variable {P : Platform} {pi : PartitionInfo} {chunk slice : DataChunk} {rows positions : List ℕ}
  {keyCols : List ℤ} {n k row : ℕ} {keys : List Value} {vec : DataVector}

/-- A column of a slice, and the column it was taken from. -/
theorem DataChunk.column_slice (hslice : chunk.slice rows = some slice) {j : ℕ}
    (hvec : chunk.columns[j]? = some vec) : ∃ vec', slice.columns[j]? = some vec' ∧
      vec'.type = vec.type ∧ ∀ (k row : ℕ), rows[k]? = some row →
        vec.type.storageClass ≠ .none → vec.isNull row = false →
        vec'.load vec.type.storageClass k = vec.load vec.type.storageClass row := by
  obtain ⟨columns, hcolumns, hs⟩ := bind_eq_some_iff.mp hslice
  cases hs
  obtain ⟨hlength, hget⟩ := forall₂_iff_get.mp (mapM_eq_some_iff.mp hcolumns)
  obtain ⟨hj, rfl⟩ := List.getElem?_eq_some_iff.mp hvec
  have hj' : j < columns.length := hlength ▸ hj
  obtain ⟨hrows, htype, -⟩ := foldlM_append_again (hget j hj hj')
  obtain ⟨hreset, hcount⟩ := reserve_reset_fields
    (chunk.columns.get ⟨j, hj⟩).type rows.length
  rw [hreset] at htype hrows
  rw [hcount] at hrows
  refine ⟨columns[j], getElem?_eq_getElem hj', htype, fun k row hk hcls hnull => ?_⟩
  have hload := (hrows k row hk).2.2 hcls hnull
  rwa [zero_add] at hload

theorem partitionKey_congr {vec' : DataVector} (htype : vec'.type = vec.type)
    (hcls : vec.type.storageClass ≠ .none)
    (hload : vec'.load vec.type.storageClass k = vec.load vec.type.storageClass row) :
    partitionKey vec' k = partitionKey vec row := by
  rw [partitionKey, partitionKey, htype]
  cases h : vec.type.storageClass <;> simp only [h] at hload hcls ⊢
  case none => exact absurd rfl hcls
  all_goals
    have hget := map_injective (fun _ _ heq => by injection heq) hload
    rw [hget]

/-- The positions of the key columns in the list of all columns. -/
theorem keyPositions_range (h : keyPositions (range n) keyCols = .ok positions) :
    keyCols.take 8 = positions.map Nat.cast := by
  have hmap : (range n >>= fun a => pure (a : ℤ)) = (range n).map Nat.cast := by
    simp [map_eq_flatMap]
  rw [keyPositions, hmap] at h
  generalize keyCols.take 8 = ks at h
  induction ks generalizing positions with
  | nil =>
    cases h
    rfl
  | cons key ks ih =>
    rw [mapM_cons] at h
    obtain ⟨pos, hpos, h⟩ := Except.bind_eq_ok_iff.mp h
    obtain ⟨rest, hrest, h⟩ := Except.bind_eq_ok_iff.mp h
    cases h
    rw [map_cons, ih hrest]
    split at hpos
    next i hfind =>
      cases hpos
      obtain ⟨hi, heq, -⟩ := findIdx?_eq_some_iff_getElem.mp hfind
      simp only [getElem_map, getElem_range, decide_eq_true_eq] at heq
      rw [heq]
    next => cases hpos

/-- The key columns that are read have a storage class. -/
def DataChunk.NamedKeys (chunk : DataChunk) (keyCols : List ℤ) : Prop :=
  ∀ key ∈ keyCols.take 8, ∀ vec, chunk.columns[key.toNat]? = some vec →
    vec.type.storageClass ≠ .none

/-- The keys of a row of a slice are those of the row it was taken from. -/
theorem replayKeys_slice (hslice : chunk.slice rows = some slice) (hk : rows[k]? = some row)
    (hpositions : keyPositions (range n) keyCols = .ok positions)
    (hnamed : chunk.NamedKeys keyCols) (hkeys : rowKeys chunk row positions = some (.ok keys)) :
    Database.replayKeys slice k keyCols = some (.ok keys) := by
  rw [DataChunk.NamedKeys, keyPositions_range hpositions] at hnamed
  rw [Database.replayKeys, keyPositions_range hpositions, map_eq_some_iff]
  refine ⟨keys, ?_, rfl⟩
  clear hpositions
  induction positions generalizing keys with
  | nil =>
    cases hkeys
    rfl
  | cons pos positions ih =>
    rw [map_cons, forall_mem_cons] at hnamed
    obtain ⟨vec, hvec, hkeys⟩ := bind_eq_some_iff.mp hkeys
    split at hkeys
    next => cases hkeys
    next hnull =>
      obtain ⟨key, hkey, hkeys⟩ := bind_eq_some_iff.mp hkeys
      obtain ⟨rest, hrest, hkeys⟩ := bind_eq_some_iff.mp hkeys
      cases rest with
      | error e => cases hkeys
      | ok rest =>
        cases hkeys
        obtain ⟨vec', hvec', htype, hload⟩ := DataChunk.column_slice hslice hvec
        have hcls : vec.type.storageClass ≠ .none := hnamed.1 vec hvec
        have hkey' : partitionKey vec' k = some key := (partitionKey_congr htype hcls
            (hload k row hk hcls (by simpa using hnull))).trans hkey
        rw [map_cons, mapM_cons, ih hnamed.2 hrest]
        simp [hvec', hkey']

/-- A slice of a chunk, and the partition that its rows are routed to. -/
def IsSlice (P : Platform) (pi : PartitionInfo) (chunk : DataChunk) (positions : List ℕ)
    (p : ℕ × DataChunk) : Prop :=
  ∃ rows, rows ≠ [] ∧ chunk.slice rows = some p.2 ∧
    ∀ i ∈ rows, RoutesTo P pi (fun i => rowKeys chunk i positions) i p.1

theorem count_slice (h : chunk.slice rows = some slice) : slice.count = rows.length := by
  obtain ⟨columns, -, hs⟩ := bind_eq_some_iff.mp h
  rw [← some.inj hs]

variable {p : ℕ × DataChunk}

theorem IsSlice.count_pos (h : IsSlice P pi chunk positions p) :
    0 < p.2.count := by
  obtain ⟨rows, hne, hslice, -⟩ := h
  rw [count_slice hslice]
  exact length_pos_iff.mpr hne

theorem byPartition_of_routesTo {keysOf : ℕ → Option (Except Error (List Value))} {pid : ℕ}
    (h : ∀ i ∈ rows, RoutesTo P pi keysOf i pid) (done : List ℕ) :
    byPartition P pi keysOf rows [(pid, done)] = some (.ok [(pid, done ++ rows)]) := by
  induction rows generalizing done with
  | nil => rw [byPartition, append_nil]
  | cons i rows ih =>
    obtain ⟨⟨keys, hkeys, hpid⟩, hrest⟩ := forall_mem_cons.mp h
    have hstep := ih hrest (done ++ [i])
    rw [append_assoc, singleton_append] at hstep
    simp only [byPartition, hkeys, hpid, bind_eq_bind, bind_some, addToPartition, if_true, hstep]

/-- All rows of a slice go to one partition again. -/
theorem byPartition_slice
    (hpositions : keyPositions (range n) pi.partitionColIdxs = .ok positions)
    (hnamed : chunk.NamedKeys pi.partitionColIdxs) (hp : IsSlice P pi chunk positions p) :
    byPartition P pi (fun i => Database.replayKeys p.2 i pi.partitionColIdxs)
      (range p.2.count) [] = some (.ok [(p.1, range p.2.count)]) := by
  obtain ⟨rows, hne, hslice, hroutes⟩ := hp
  have hcount := count_slice hslice
  have hall : ∀ k ∈ range p.2.count,
      RoutesTo P pi (fun i => Database.replayKeys p.2 i pi.partitionColIdxs) k p.1 := by
    intro k hk
    have hrow := getElem?_eq_getElem (hcount ▸ mem_range.mp hk)
    obtain ⟨keys, hkeys, hpid⟩ := hroutes _ (mem_of_getElem? hrow)
    exact ⟨keys, replayKeys_slice hslice hrow hpositions hnamed hkeys, hpid⟩
  obtain ⟨m, hm⟩ : ∃ m, p.2.count = m + 1 :=
    exists_eq_succ_of_ne_zero (by rw [hcount]; simpa using hne)
  rw [hm, range_succ_eq_map] at hall ⊢
  obtain ⟨⟨keys, hkeys, hpid⟩, hrest⟩ := forall_mem_cons.mp hall
  have htail := byPartition_of_routesTo hrest [0]
  rw [singleton_append] at htail
  simp only [byPartition, hkeys, hpid, bind_eq_bind, bind_some, addToPartition, htail]

end Slices

namespace Database

variable {P : Platform} {tx : Snapshot} {db db' d : Database} {r : TableRef}
  {s s' : TableCatalogEntry} {chunk : DataChunk} {positions colIds : List ℕ}
  {schema table : Bytes}

theorem stores_replayRows_slice {p : ℕ × DataChunk} (h : db.storedTable? r = some s)
    (hpart : s.partitionInfo.isPartitioned = true)
    (hpositions : keyPositions (range s.columns.length) s.partitionInfo.partitionColIdxs =
      .ok positions) (hnamed : chunk.NamedKeys s.partitionInfo.partitionColIdxs)
    (hp : IsSlice P s.partitionInfo chunk positions p) :
    Stores tx r (replayRows P tx r p.2) db [p.2]
      (s.storeSlice (range s.columns.length) p) := by
  have hself : p.2.slice (range p.2.count) = some p.2 := by
    obtain ⟨rows, -, hslice, -⟩ := hp
    exact DataChunk.slice_slice hslice
  obtain ⟨t, ht, rfl⟩ := exists_table h
  have hparts := byPartition_slice hpositions hnamed hp
  have htraverse : traverse P [(p.1, range p.2.count)] = [(p.1, range p.2.count)] := by
    simp [traverse, perm_singleton.mp (P.traversal_perm [p.1])]
  have hrun : replayRows P tx r p.2 db = appendPartition tx r p.2
      (range t.stored.columns.length) p.1 (range p.2.count) db := by
    rw [replayRows, bind_run_ok get_run, ht, bind_run_ok rfl,
      show t.partitionInfo = t.stored.partitionInfo from rfl, if_pos hpart, hparts,
      bind_run_ok rfl, htraverse, forEach_singleton]
    rfl
  exact .congr hrun (.refl db) (stores_appendPartition h hself)

theorem stores_replayRows_plain (h : db.storedTable? r = some s)
    (hpart : s.partitionInfo.isPartitioned = false) :
    Stores tx r (replayRows P tx r chunk) db [chunk]
      (s.storePlain chunk (range s.columns.length)) := by
  obtain ⟨t, ht, rfl⟩ := exists_table h
  have hrun : replayRows P tx r chunk db =
      insertPlain tx r chunk (range t.stored.columns.length) db := by
    rw [replayRows, bind_run_ok get_run, ht, bind_run_ok rfl,
      show t.partitionInfo = t.stored.partitionInfo from rfl, hpart]
    rfl
  exact .congr hrun (.refl db) (stores_insertPlain h)

/-- The partition loop of an insert, whose rounds append slices. -/
theorem insertLoop_run {pi : PartitionInfo} {parts : List (ℕ × List ℕ)} {sortCol : ℕ}
    (hparts : ∀ p ∈ parts, p.2 ≠ [] ∧
      ∀ i ∈ p.2, RoutesTo P pi (fun i => rowKeys chunk i positions) i p.1)
    (h : db.storedTable? r = some s) (hrun : forEach parts (fun (pid, offs) => do
      let rows ← ofOption (sortRows P chunk sortCol offs)
      appendPartition tx r chunk colIds pid rows) db = some (.ok (), db')) :
    ∃ slices : List (ℕ × DataChunk), (∀ p ∈ slices, IsSlice P pi chunk positions p) ∧
      Inserted tx r (slices.map Prod.snd) db db' ∧
      ∃ s', slices.foldlM (fun s p => s.storeSlice colIds p) s = some s' ∧
        db'.storedTable? r = some s' := by
  induction parts generalizing db s with
  | nil =>
    cases hrun
    exact ⟨[], by simp, .refl _, s, rfl, h⟩
  | cons part parts ih =>
    obtain ⟨⟨hne, hroutes⟩, hrest⟩ := forall_mem_cons.mp hparts
    obtain ⟨⟨⟩, db₁, hfirst, hothers⟩ := bind_run_eq_ok_iff.mp hrun
    obtain ⟨sorted, db₀, hsort, happend⟩ := bind_run_eq_ok_iff.mp hfirst
    obtain ⟨_, hsorted, hres, rfl⟩ := ofOption_run_eq_some hsort
    cases hres
    have hperm := sortRows_perm hsorted
    obtain ⟨slice, hslice⟩ : ∃ slice, chunk.slice sorted = some slice := by
      obtain ⟨slice, _, hslice, -⟩ := bind_run_eq_ok_iff.mp happend
      obtain ⟨slice, hslice, -⟩ := ofOption_run_eq_some hslice
      exact ⟨slice, hslice⟩
    obtain ⟨hins, s₁, hs₁, hstored⟩ := (stores_appendPartition h hslice).of_run happend
    obtain ⟨slices, hslices, hins', s', hs', hstored'⟩ := ih hrest hstored hothers
    refine ⟨(part.1, slice) :: slices, forall_mem_cons.mpr ⟨?_, hslices⟩,
      hins.trans hins', s', ?_, hstored'⟩
    · exact ⟨sorted, fun hnil => hne (hnil ▸ hperm).symm.eq_nil, hslice,
        fun i hi => hroutes i (hperm.mem_iff.mp hi)⟩
    · rw [foldlM_cons, hs₁]
      exact hs'

/-- The log entry of an inserted chunk. -/
def insertEntry (r : TableRef) (chunk : DataChunk) : WalEntry :=
  { type := .insert, data := insertPayload r.schema r.name chunk }

/-- The log entry of a chunk is read back as it was written. -/
def Decodes (decode : Reader DataChunk) (schema table : Bytes) (chunk : DataChunk) : Prop :=
  ∃ rest, readInsert decode (insertPayload schema table chunk) = some ((schema, table, chunk), rest)

variable {decode : Reader DataChunk}

theorem replayEntry_insert (hr : r.schema = schema ∧ r.name = table)
    (hdecode : Decodes decode schema table chunk) :
    replayEntry P decode (insertEntry r chunk) d = replayInsert P schema table chunk d := by
  obtain ⟨rfl, rfl⟩ := hr
  obtain ⟨rest, hread⟩ := hdecode
  have hparse : parse (readInsert decode) (insertPayload r.schema r.name chunk) d =
      some (.ok (r.schema, r.name, chunk), d) := by
    rw [parse, hread]
    rfl
  simp only [replayEntry, insertEntry]
  rw [bind_run_ok hparse]

/-- **The replay of the slices** of a partitioned insert. -/
theorem Restored.replaySlices (decode : Reader DataChunk) {n : ℕ}
    (h : d.Restored schema table r s) (hr : r.schema = schema ∧ r.name = table)
    (hn : s.columns.length = n) (hpart : s.partitionInfo.isPartitioned = true)
    (hpositions : keyPositions (range n) s.partitionInfo.partitionColIdxs = .ok positions)
    (hnamed : chunk.NamedKeys s.partitionInfo.partitionColIdxs)
    {slices : List (ℕ × DataChunk)}
    (hslices : ∀ p ∈ slices, IsSlice P s.partitionInfo chunk positions p)
    (hdecode : ∀ p ∈ slices, Decodes decode schema table p.2)
    (hs : slices.foldlM (fun s p => s.storeSlice (range n) p) s = some s') :
    ∃ d', replayEntries P decode (slices.map fun p => insertEntry r p.2) d = some (.ok (), d') ∧
      d'.Restored schema table r s' := by
  induction slices generalizing d s with
  | nil =>
    cases hs
    exact ⟨d, rfl, h⟩
  | cons p slices ih =>
    obtain ⟨hp, hrest⟩ := forall_mem_cons.mp hslices
    obtain ⟨hdec, hdecs⟩ := forall_mem_cons.mp hdecode
    rw [foldlM_cons] at hs
    obtain ⟨s₁, hs₁, hs⟩ := bind_eq_some_iff.mp hs
    have hone := h.replayInsert fun tx d₁ hd₁ =>
      stores_replayRows_slice hd₁ hpart (hn ▸ hpositions) hnamed hp
    rw [hn, hs₁] at hone
    obtain ⟨d₁, hrun, h₁⟩ := hone
    obtain ⟨hcolumns, hpi⟩ := TableCatalogEntry.storeSlice_fields hs₁
    rw [← hpi] at hpart hpositions hnamed hrest
    obtain ⟨d', hruns, h'⟩ := ih h₁ (hcolumns ▸ hn) hpart hpositions hnamed hrest hdecs hs
    refine ⟨d', ?_, h'⟩
    rw [replayEntries, map_cons, forEach_cons,
      bind_run_ok ((replayEntry_insert hr hdec).trans hrun)]
    exact hruns

/-! ## A committed INSERT and its replay -/

variable {chunks : List DataChunk} {es : List UndoEntry}

/-- The log entries of some appends. -/
theorem filterMap_appends (hes : Forall₂ (IsAppend r) chunks es)
    (hcounts : ∀ c ∈ chunks, 0 < c.count) :
    es.filterMap (fun e => (undoWalEntry e).toOption.join) = chunks.map (insertEntry r) := by
  induction hes with
  | nil => rfl
  | cons he _ ih =>
    obtain ⟨hcount, hrest⟩ := forall_mem_cons.mp hcounts
    obtain ⟨g, start, rfl⟩ := he
    rw [filterMap_cons, undoWalEntry, if_pos hcount, ih hrest]
    rfl

theorem exists_append_of_mem (hes : Forall₂ (IsAppend r) chunks es) (hc : chunk ∈ chunks) :
    ∃ e ∈ es, IsAppend r chunk e := by
  induction hes with
  | nil => cases hc
  | cons he _ ih =>
    rcases mem_cons.mp hc with rfl | hc
    · exact ⟨_, mem_cons_self, he⟩
    · obtain ⟨e, hmem, happend⟩ := ih hc
      exact ⟨e, mem_cons_of_mem _ hmem, happend⟩

theorem decodes_of_inverts (hschema : schema.length < 2 ^ 16) (htable : table.length < 2 ^ 16)
    (h : decode (serializeChunk chunk) = some (chunk, [])) :
    Decodes decode schema table chunk := by
  refine ⟨[], ?_⟩
  rw [readInsert, insertPayload, (reads_str16 hschema).bind_apply, (reads_str16 htable).bind_apply,
    Reader.bind_apply, h]
  rfl

/-- A committed `INSERT` of one chunk into an empty table: `db` is the database before the
statement, `db₁` after it and `db₂` after the commit. -/
structure CommittedInsert (P : Platform) (schema table : Bytes) (colIds : List ℕ)
    (chunk : DataChunk) (tx tx₁ : Transaction) (r : TableRef) (t : TableCatalogEntry)
    (db db₁ db₂ : Database) : Prop where
  begun : db.activeTransactions.lookup tx.txId = some tx
  fresh : tx.undoBuffer = []
  seen : db.catalog.getTable schema table tx.toSnapshot = some r
  entry : db.catalog.table? r = some t
  empty : t.rowGroups = []
  insert : physicalInsert P tx.toSnapshot schema table colIds chunk db = some (.ok (), db₁)
  active : db₁.activeTransactions.lookup tx.txId = some tx₁
  commit : Database.commit tx₁ db₁ = some (.ok (), db₂)

variable {db₂ : Database}

/-- What the transaction stored and logged. -/
theorem CommittedInsert.of_inserted {tx tx₁ : Transaction} {t : TableCatalogEntry}
    {db₁ : Database} (h : CommittedInsert P schema table colIds chunk tx tx₁ r t db db₁ db₂)
    (hins : Inserted tx.toSnapshot r chunks db db₁) (hcounts : ∀ c ∈ chunks, 0 < c.count) :
    tx₁.walEntries = chunks.map (insertEntry r) ∧ db₂.storedTable? r = db₁.storedTable? r ∧
      ∀ c ∈ chunks, ∃ e, UndoEntry.insert e ∈ tx₁.undoBuffer ∧ e.insertedRows = c := by
  obtain ⟨es, hes, hlookup⟩ := hins.undo tx h.begun
  rw [h.fresh] at hlookup
  cases h.active.symm.trans hlookup
  obtain ⟨wal, hdb₂⟩ := commit_run h.commit
  refine ⟨filterMap_appends hes hcounts, ?_, fun c hc => ?_⟩
  · rw [hdb₂]
    exact (Catalog.applyUndoBuffer_appends _ hes r).1
  · obtain ⟨e, he, g, start, rfl⟩ := exists_append_of_mem hes hc
    exact ⟨_, he, rfl⟩

/-- The replay of the log entries of the transaction restores the rows and values of the
live table. -/
def ReplaySame (P : Platform) (decode : Reader DataChunk) (entries : List WalEntry)
    (db₂ d : Database) (r r' : TableRef) : Prop :=
  ∃ d' t₂ t', replayEntries P decode entries d = some (.ok (), d') ∧
    db₂.catalog.table? r = some t₂ ∧ d'.catalog.table? r' = some t' ∧
    TableCatalogEntry.SameRows t₂ t'

theorem replaySame_iff {entries : List WalEntry} {r' : TableRef} {s₁ : TableCatalogEntry}
    {o : Option TableCatalogEntry} (hlive : db₂.storedTable? r = some s₁)
    (h : Replays (replayEntries P decode entries) d schema table r' o) :
    ReplaySame P decode entries db₂ d r r' ↔
      ∃ s₂, o = some s₂ ∧ TableCatalogEntry.SameRows s₁ s₂ := by
  obtain ⟨t₂, ht₂, rfl⟩ := exists_table hlive
  constructor
  · rintro ⟨d', t₂', t', hrun, ht₂', ht', hsame⟩
    cases ht₂.symm.trans ht₂'
    cases o with
    | none => exact absurd (hrun.symm.trans h) (by simp)
    | some s₂ =>
      obtain ⟨d'', hrun', hd''⟩ := h
      cases hrun.symm.trans hrun'
      have hstored := hd''.stored
      rw [storedTable?, ht'] at hstored
      refine ⟨s₂, rfl, ?_⟩
      rw [← some.inj hstored]
      exact TableCatalogEntry.sameRows_stored_iff.mpr hsame
  · rintro ⟨s₂, rfl, hsame⟩
    obtain ⟨d', hrun, hd'⟩ := h
    obtain ⟨t', ht', rfl⟩ := exists_table hd'.stored
    exact ⟨d', t₂, t', hrun, ht₂, ht', TableCatalogEntry.sameRows_stored_iff.mp hsame⟩

section Replay

variable {decode : Reader DataChunk} {tx tx₁ : Transaction} {t : TableCatalogEntry}
  {db₁ db₂ : Database} {r' : TableRef}

section

variable (h : CommittedInsert P schema table colIds chunk tx tx₁ r t db db₁ db₂)
include h

/-- What the statement did to a table that it found. -/
theorem CommittedInsert.run (hcount : chunk.count ≠ 0) :
    (if t.partitionInfo.isPartitioned then
      insertPartitioned P tx.toSnapshot r t.partitionInfo chunk colIds
    else insertPlain tx.toSnapshot r chunk colIds) db = some (.ok (), db₁) := by
  have hrun := h.insert
  rw [physicalInsert, if_neg hcount, bind_run_ok get_run, h.seen] at hrun
  dsimp only at hrun
  rw [doInsertChunk, bind_run_ok get_run, h.entry] at hrun
  exact hrun

theorem CommittedInsert.storedTable?_eq :
    db.storedTable? r = some t.stored := by
  rw [storedTable?, h.entry, map_some]

theorem CommittedInsert.replay_plain
    (hd : d.Restored schema table r' t.stored) (hnodup : colIds.Nodup)
    (hdecode : ∀ e, UndoEntry.insert e ∈ tx₁.undoBuffer →
      Decodes decode schema table e.insertedRows)
    (hpart : t.partitionInfo.isPartitioned = false) (hcount : 0 < chunk.count) :
    ReplaySame P decode tx₁.walEntries db₂ d r r' ↔ ∀ c col, t.columns[c]? = some col →
        TableCatalogEntry.ReplaysColumn chunk colIds c col.type := by
  have hrun := h.run hcount.ne'
  rw [hpart] at hrun
  obtain ⟨hins, s₁, hs₁, hstored⟩ := (stores_insertPlain h.storedTable?_eq).of_run hrun
  obtain ⟨hentries, hdb₂, hchunks⟩ := h.of_inserted hins (by simpa using hcount)
  have hdecodes : Decodes decode schema table chunk := by
    obtain ⟨e, he, rfl⟩ := hchunks chunk mem_cons_self
    exact hdecode e he
  have hentry : replayEntries P decode tx₁.walEntries d = replayInsert P schema table chunk d := by
    rw [replayEntries, hentries, map_singleton, forEach_singleton]
    exact replayEntry_insert (Catalog.resolve_name h.seen) hdecodes
  rw [replaySame_iff (hdb₂.trans hstored) (.congr hentry
    (hd.replayInsert fun tx d₁ hd₁ => stores_replayRows_plain hd₁ hpart))]
  exact TableCatalogEntry.sameRows_storePlain_iff
    (by rw [TableCatalogEntry.stored, h.empty]; rfl) hcount hnodup hs₁

theorem CommittedInsert.replay_partitioned
    (hd : d.Restored schema table r' t.stored) (hdecode : ∀ e, UndoEntry.insert e ∈ tx₁.undoBuffer →
      Decodes decode schema table e.insertedRows)
    (hpart : t.partitionInfo.isPartitioned = true) (hcount : chunk.count ≠ 0)
    (hcolIds : colIds = range t.columns.length)
    (hnamed : chunk.NamedKeys t.partitionInfo.partitionColIdxs) :
    ReplaySame P decode tx₁.walEntries db₂ d r r' := by
  subst hcolIds
  have hrun := h.run hcount
  rw [hpart] at hrun
  obtain ⟨positions, db₀, hpos, hrest⟩ := bind_run_eq_ok_iff.mp hrun
  obtain ⟨hpositions, rfl⟩ := ofExcept_run_eq_some hpos
  obtain ⟨parts, db', hroute, hloop⟩ := bind_run_eq_ok_iff.mp hrest
  obtain ⟨hparts, rfl⟩ := ofExcept_run_eq_some hroute
  have hrouted : ∀ p ∈ traverse P parts, p.2 ≠ [] ∧ ∀ i ∈ p.2,
      RoutesTo P t.partitionInfo (fun i => rowKeys chunk i positions) i p.1 := by
    intro p hp
    refine mem_byPartition (Q := fun p => p.2 ≠ [] ∧ ∀ i ∈ p.2, RoutesTo P t.partitionInfo
      (fun i => rowKeys chunk i positions) i p.1) (by simp) ?_ ?_ hparts p (mem_of_mem_traverse hp)
    · exact fun pid i _ hi => ⟨by simp, by simpa using hi⟩
    · rintro pid i done - hi ⟨-, hdone⟩
      refine ⟨by simp, fun j hj => ?_⟩
      rcases mem_append.mp hj with hj | hj
      · exact hdone j hj
      · rw [mem_singleton.mp hj]
        exact hi
  obtain ⟨slices, hslices, hins, s', hs', hstored⟩ := insertLoop_run hrouted h.storedTable?_eq hloop
  have hcounts : ∀ c ∈ slices.map Prod.snd, 0 < c.count := by
    rintro _ hc
    obtain ⟨p, hp, rfl⟩ := mem_map.mp hc
    exact (hslices p hp).count_pos
  obtain ⟨hentries, hdb₂, hchunks⟩ := h.of_inserted hins hcounts
  have hnames := Catalog.resolve_name h.seen
  have hnames' := Catalog.resolve_name (hd.seen d.replaySnapshot le_rfl (lt_add_one _))
  have hreplay := hd.replaySlices decode hnames' rfl hpart (some.inj hpositions)
    hnamed hslices (fun p hp => by
      obtain ⟨e, he, heq⟩ := hchunks p.2 (mem_map_of_mem hp)
      exact heq ▸ hdecode e he) hs'
  have hsame : tx₁.walEntries = slices.map fun p => insertEntry r' p.2 := by
    rw [hentries]
    simp [insertEntry, hnames.1, hnames.2, hnames'.1, hnames'.2]
  rw [← hsame] at hreplay
  rw [replaySame_iff (o := some s') (hdb₂.trans hstored) hreplay]
  exact ⟨s', rfl, rfl, rfl, fun _ _ _ => rfl⟩

/-- Of no rows, nothing is logged. -/
theorem CommittedInsert.replay_empty (hd : d.Restored schema table r' t.stored)
    (hcount : chunk.count = 0) :
    ReplaySame P decode tx₁.walEntries db₂ d r r' := by
  have hrun := h.insert
  rw [physicalInsert, if_pos hcount] at hrun
  cases hrun
  obtain ⟨hentries, hdb₂, -⟩ := h.of_inserted (.refl _) (by simp)
  rw [hentries, replaySame_iff (o := some t.stored) (hdb₂.trans h.storedTable?_eq) ⟨d, rfl, hd⟩]
  exact ⟨_, rfl, rfl, rfl, fun _ _ _ => rfl⟩

end

/-- **Replay of an `INSERT`.** In a table that is not partitioned, the replay restores the rows
exactly if each vector of the chunk can be stored in the column at its own position and stores
there what the live insert put there. In a partitioned table it does if there are no rows, or if
the column list names all columns in order and the key columns are of a type that has an
array. -/
theorem CommittedInsert.replaySame
    (h : CommittedInsert P schema table colIds chunk tx tx₁ r t db db₁ db₂)
    (hd : d.Restored schema table r' t.stored)
    (hschema : schema.length < 2 ^ 16) (htable : table.length < 2 ^ 16) (hnodup : colIds.Nodup)
    (hdecode : ∀ e, UndoEntry.insert e ∈ tx₁.undoBuffer →
      decode (serializeChunk e.insertedRows) = some (e.insertedRows, [])) :
    (t.partitionInfo.isPartitioned = false →
      (ReplaySame P decode tx₁.walEntries db₂ d r r' ↔ chunk.count = 0 ∨
        ∀ c col, t.columns[c]? = some col →
          TableCatalogEntry.ReplaysColumn chunk colIds c col.type)) ∧
    (t.partitionInfo.isPartitioned = true → (chunk.count = 0 ∨ colIds = range t.columns.length ∧
      ∀ key ∈ t.partitionInfo.partitionColIdxs.take 8, ∀ vec,
        chunk.columns[key.toNat]? = some vec → vec.type.storageClass ≠ .none) →
      ReplaySame P decode tx₁.walEntries db₂ d r r') := by
  have hdecodes : ∀ e, UndoEntry.insert e ∈ tx₁.undoBuffer →
      Decodes decode schema table e.insertedRows :=
    fun e he => decodes_of_inverts hschema htable (hdecode e he)
  rcases Nat.eq_zero_or_pos chunk.count with hzero | hpos
  · exact ⟨fun _ => iff_of_true (h.replay_empty hd hzero) (.inl hzero),
      fun _ _ => h.replay_empty hd hzero⟩
  · refine ⟨fun hpart => ?_, fun hpart hcols => ?_⟩
    · rw [h.replay_plain hd hnodup hdecodes hpart hpos, or_iff_right hpos.ne']
    · obtain ⟨hids, hnamed⟩ := hcols.resolve_left hpos.ne'
      exact h.replay_partitioned hd hdecodes hpart hpos.ne' hids hnamed

/-- A database with one empty table `t` of two integer columns. -/
def emptyAB : Database where
  catalog := (Catalog.create 4096).createEntry Catalog.defaultSchema
    { name := text "t", schemaName := Catalog.defaultSchema, createCommitTime := 0
      columns := TaggedGroup.columnsAB, blockSize := 4096 }

/-- The table of `emptyAB`. -/
def tableAB : TableCatalogEntry :=
  { name := text "t", schemaName := Catalog.defaultSchema, createCommitTime := 0
    columns := TaggedGroup.columnsAB, blockSize := 4096 }

theorem versions_emptyAB :
    emptyAB.catalog.versions Catalog.defaultSchema (text "t") = [tableAB] := by
  have hlookup : (Catalog.create 4096).schemas.lookup Catalog.defaultSchema =
      some { name := Catalog.defaultSchema } := Finmap.lookup_insert _
  rfl

theorem restored_emptyAB :
    emptyAB.Restored Catalog.defaultSchema (text "t") tableT tableAB.stored := by
  refine ⟨rfl, fun tx hid htime => ?_, ?_⟩
  · have hvisible : tableAB.stamps.isVisible tx = true := by
      have hdelete : invalidTransaction ≠ tx.txId := (lt_of_lt_of_le (by decide) hid).ne
      simp only [EntryStamps.isVisible, TableCatalogEntry.stamps, tableAB, hdelete, ne_eq,
        not_false_eq_true, true_and, if_false, if_true, ite_eq_right_iff, Bool.false_eq_true,
        imp_false, not_or, not_le]
      exact ⟨by decide, htime⟩
    rw [Catalog.getTable, versions_emptyAB]
    simp [Catalog.lastVisible, hvisible, tableT]
  · rfl

/-- An `INSERT` into `emptyAB` in a transaction of its own: the transaction, and the databases
after the statement and after the commit. -/
def insertAB (colIds : List ℕ) (chunk : DataChunk) : Option (Transaction × Database × Database) :=
  match physicalInsert .plain (emptyAB.newTransaction true).toSnapshot Catalog.defaultSchema
      (text "t") colIds chunk (emptyAB.beginTransaction true) with
  | some (.ok _, db₁) => do
    let tx₁ ← db₁.activeTransactions.lookup 1
    match Database.commit tx₁ db₁ with
    | some (.ok _, db₂) => pure (tx₁, db₁, db₂)
    | _ => none
  | _ => none

theorem committedInsert_insertAB (h : insertAB colIds chunk = some (tx₁, db₁, db₂)) :
    CommittedInsert .plain Catalog.defaultSchema (text "t") colIds chunk
      (emptyAB.newTransaction true) tx₁ tableT tableAB (emptyAB.beginTransaction true) db₁ db₂ := by
  rw [insertAB] at h
  split at h
  next db hinsert =>
    obtain ⟨tx, hactive, h⟩ := bind_eq_some_iff.mp h
    split at h
    next db' hcommit =>
      cases h
      refine ⟨Finmap.lookup_insert _, rfl, ?_, ?_, rfl, hinsert, hactive, hcommit⟩
      · exact restored_emptyAB.seen _ le_rfl (lt_add_one emptyAB.commitCounter)
      · exact congrArg (·[0]?) versions_emptyAB
    next => cases h
  next => cases h

/-- A decoder for one chunk only. -/
def decodeOnly (chunk : DataChunk) : Reader DataChunk := fun _ => some (chunk, [])

/-- The statement logs the chunk as it is. -/
def logsChunk (colIds : List ℕ) (chunk : DataChunk) : Bool :=
  (insertAB colIds chunk).any fun p => p.1.undoBuffer.all fun e =>
    match e with
    | .insert e => e.insertedRows = chunk
    | _ => false

theorem exists_insertAB (colIds : List ℕ) (chunk : DataChunk) (h : logsChunk colIds chunk = true) :
    ∃ tx₁ db₁ db₂, insertAB colIds chunk = some (tx₁, db₁, db₂) ∧
      ∀ e, UndoEntry.insert e ∈ tx₁.undoBuffer →
        decodeOnly chunk (serializeChunk e.insertedRows) = some (e.insertedRows, []) := by
  obtain ⟨⟨tx₁, db₁, db₂⟩, hrun, hall⟩ := (any_eq_true _ _).mp h
  refine ⟨tx₁, db₁, db₂, hrun, fun e he => ?_⟩
  have heq := all_eq_true.mp hall _ he
  rw [decodeOnly, of_decide_eq_true heq]

/-- `INSERT INTO t (a, b) VALUES (1, 2)` is replayed as it was. -/
theorem insert_in_order_replayed : ∃ tx₁ db₁ db₂,
    insertAB [0, 1] (TaggedGroup.intRow [1, 2]) = some (tx₁, db₁, db₂) ∧
    ReplaySame .plain (decodeOnly (TaggedGroup.intRow [1, 2])) tx₁.walEntries db₂ emptyAB tableT
      tableT := by
  obtain ⟨tx₁, db₁, db₂, hrun, hdecode⟩ := exists_insertAB [0, 1]
    (TaggedGroup.intRow [1, 2]) (by decide +kernel)
  refine ⟨tx₁, db₁, db₂, hrun, ?_⟩
  refine (((committedInsert_insertAB hrun).replaySame restored_emptyAB (by decide) (by decide)
    (by decide) hdecode).1 rfl).mpr (.inr fun c col hc => ?_)
  have hall : ∀ p ∈ TaggedGroup.columnsAB.zipIdx, TableCatalogEntry.ReplaysColumn
      (TaggedGroup.intRow [1, 2]) [0, 1] p.2 p.1.type := by
    decide +kernel
  exact hall (col, c) (mk_mem_zipIdx_iff_getElem?.mpr hc)

/-- `INSERT INTO t (b, a) VALUES (1, 2)` is replayed as if it were `INSERT INTO t (a, b)`. -/
theorem insert_swapped_not_replayed :
    Binder.insertColumnIds TaggedGroup.columnsAB [text "b", text "a"] = .ok [1, 0] ∧
    ∃ tx₁ db₁ db₂, CommittedInsert .plain Catalog.defaultSchema (text "t") [1, 0]
        (TaggedGroup.intRow [1, 2]) (emptyAB.newTransaction true) tx₁ tableT tableAB
        (emptyAB.beginTransaction true) db₁ db₂ ∧
      emptyAB.Restored Catalog.defaultSchema (text "t") tableT tableAB.stored ∧
      (∀ e, UndoEntry.insert e ∈ tx₁.undoBuffer →
        decodeOnly (TaggedGroup.intRow [1, 2]) (serializeChunk e.insertedRows) =
          some (e.insertedRows, [])) ∧
      ¬ ReplaySame .plain (decodeOnly (TaggedGroup.intRow [1, 2])) tx₁.walEntries db₂ emptyAB tableT
        tableT := by
  obtain ⟨tx₁, db₁, db₂, hrun, hdecode⟩ := exists_insertAB [1, 0]
    (TaggedGroup.intRow [1, 2]) (by decide +kernel)
  have hlive := committedInsert_insertAB hrun
  refine ⟨by decide +kernel, tx₁, db₁, db₂, hlive, restored_emptyAB, hdecode, fun hsame => ?_⟩
  rw [hlive.replay_plain restored_emptyAB (by decide)
    (fun e he => decodes_of_inverts (by decide) (by decide) (hdecode e he)) rfl (by decide)] at hsame
  exact absurd (hsame 0 _ rfl) (by decide +kernel)

end Replay

end Database

end CppColDB
