import CppColDB.Storage.Column.Contents
import CppColDB.Transaction.SnapshotVisibility

/-!
# What a rollback undoes

`RevertAppend` cuts a row group off where its latest append begins, whoever made it, and
`ClearDeleteMarker` erases the marker a row has, whoever set it. `rollsBack_iff` says for
which states that takes back what the transaction did and nothing else.
-/

namespace CppColDB

open GroupChange GroupVersions Imp List Option UndoEntry VersionMarker

/-- An entry of a transaction that inserts and deletes. -/
def UndoEntry.IsRowEntry : UndoEntry → Prop
  | .insert _ | .delete _ => True
  | .update _ | .catalog _ | .alterPartition _ => False

theorem UndoEntry.IsRowEntry.undoable {e : UndoEntry} (h : e.IsRowEntry) : e.Undoable := by
  cases e <;> first | exact trivial | exact h.elim

namespace Catalog

variable {c c' : Catalog} {tx : Transaction} {r : TableRef} {g : ℕ}

/-- The columns of a row group after the appends among the changes are reverted. -/
def revertColumns (rg : RowGroup) (chs : List GroupChange) : List ColumnChunk :=
  if chs.filterMap append? = [] then rg.columnChunks
  else rg.columnChunks.map (RowGroup.revertColumn rg.pendingAppendStart)

variable {rg : RowGroup}

/-- The effect of one entry of the undo buffer on the columns of a row group. -/
theorem rowGroup?_undoEntry {e : UndoEntry} (he : e.IsRowEntry)
    (h : undoEntry tx e c = some (.ok (), c')) (hrg : c.rowGroup? r g = some rg) :
    ∃ rg', c'.rowGroup? r g = some rg' ∧ rg'.pendingAppendStart = rg.pendingAppendStart ∧
      rg'.columnChunks =
        revertColumns rg (e.changeAt (c.resolve tx.toSnapshot) r g).toList := by
  cases e with
  | update e => exact he.elim
  | catalog e => exact he.elim
  | alterPartition e => exact he.elim
  | insert e =>
    cases h
    cases ht : c.getTable e.schema e.table tx.toSnapshot with
    | none =>
      simp only [changeAt, resolve, ht]
      exact ⟨rg, hrg, rfl, by simp [revertColumns]⟩
    | some r' =>
      simp only [changeAt, resolve, ht]
      rw [rowGroup?_modifyRowGroup]
      by_cases hr : r = r' ∧ g = e.rowGroupId
      · obtain ⟨rfl, rfl⟩ := hr
        exact ⟨rg.revertAppend, by simp [hrg], rfl, by
          simp [revertColumns, append?, RowGroup.revertAppend]⟩
      · have hr' : ¬ (r' = r ∧ e.rowGroupId = g) := fun h => hr ⟨h.1.symm, h.2.symm⟩
        exact ⟨rg, by simp [hr, hrg], rfl, by simp [hr', revertColumns]⟩
  | delete e =>
    cases h
    cases ht : c.getTable e.schema e.table tx.toSnapshot with
    | none =>
      simp only [changeAt, resolve, ht]
      exact ⟨rg, hrg, rfl, by simp [revertColumns]⟩
    | some r' =>
      have hnone : ((delete e).changeAt (c.resolve tx.toSnapshot) r g).toList.filterMap
          append? = [] := by
        simp only [changeAt]
        split <;> simp [append?]
      simp only [revertColumns, hnone, ht]
      rw [rowGroup?_forRows]
      by_cases hr : r = r'
      · rw [if_pos hr, hrg]
        exact ⟨_, rfl, rfl, rfl⟩
      · rw [if_neg hr, hrg]
        exact ⟨rg, rfl, rfl, rfl⟩

/-- Reverting the appends among two lists of changes, one list after the other. -/
theorem revertColumns_append {rg' : RowGroup} {chs chs' : List GroupChange}
    (hstart : rg'.pendingAppendStart = rg.pendingAppendStart)
    (hcols : rg'.columnChunks = revertColumns rg chs) :
    revertColumns rg' chs' = revertColumns rg (chs ++ chs') := by
  rw [revertColumns, hstart, hcols, revertColumns, revertColumns]
  by_cases h : chs.filterMap append? = [] <;> by_cases h' : chs'.filterMap append? = []
  · simp [h]
  · simp [h, h']
  · simp [h']
  · simp [h, RowGroup.revertColumn_revertColumn]

/-- **Rollback of inserts and deletes**, seen from one row group. -/
theorem rowGroup?_undoBufferReverse (he : ∀ e ∈ tx.undoBuffer, e.IsRowEntry)
    (h : undoBufferReverse tx c = some (.ok (), c')) (hrg : c.rowGroup? r g = some rg) :
    ∃ rg', c'.rowGroup? r g = some rg' ∧ rg'.columnChunks = revertColumns rg (c.changesAt tx r g) ∧
      rg'.versions = (c.changesAt tx r g).reverse.foldl revert rg.versions := by
  have hloop : ∀ {entries : List UndoEntry} {c c' : Catalog} {rg : RowGroup},
      (∀ e ∈ entries, e.IsRowEntry) →
      forEach entries (undoEntry tx) c = some (.ok (), c') → c.rowGroup? r g = some rg →
      ∃ rg', c'.rowGroup? r g = some rg' ∧ rg'.columnChunks = revertColumns rg
        (entries.filterMap (changeAt (c.resolve tx.toSnapshot) r g)) := by
    intro entries
    induction entries with
    | nil =>
      intro c c' rg _ h hrg
      cases h
      exact ⟨rg, hrg, rfl⟩
    | cons e es ih =>
      intro c c' rg hes h hrg
      obtain ⟨_, c₁, hfirst, hrest⟩ := bind_run_eq_ok_iff.mp h
      have hentry := hes e mem_cons_self
      obtain ⟨rg₁, hrg₁, hstart, hcols⟩ := rowGroup?_undoEntry hentry hfirst hrg
      obtain ⟨rg', hrg', hcols'⟩ := ih (fun e' he' => hes e' (mem_cons_of_mem _ he')) hrest hrg₁
      refine ⟨rg', hrg', ?_⟩
      rw [hcols', (reverts_undoEntry hentry.undoable hfirst).sameStamps.resolve,
        revertColumns_append hstart hcols, filterMap_cons]
      cases e.changeAt (c.resolve tx.toSnapshot) r g <;> rfl
  obtain ⟨rg', hrg', hcols⟩ := hloop (fun e hmem => he e (mem_reverse.mp hmem)) h hrg
  refine ⟨rg', hrg', ?_, ?_⟩
  · rw [hcols]
    refine if_congr ?_ rfl rfl
    rw [filterMap_reverse, filterMap_reverse, reverse_eq_nil_iff, changesAt]
  · have hrev := (reverts_undoBufferReverse (fun e hmem => (he e hmem).undoable) h).groupVersions? r g
    simpa [Catalog.groupVersions?, hrg, hrg'] using hrev

end Catalog

namespace RowGroup

/-- The row group `rg'` is `rg` without the rows that a transaction has appended and without
its delete marks, and with everything else as it was. -/
structure UndoneTo (rg rg' : RowGroup) (id : TransactionId) (chs : List GroupChange) : Prop where
  removed : ∀ o ∈ chs.flatMap insertedRows,
    rg'.rowCount ≤ o ∧ ∀ cc ∈ rg'.columnChunks, cc.rowCount ≤ o
  unmarked : ∀ {o m}, rg'.versionInfo.marker? o = some m → m.type = .delete → m.txId ≠ id
  kept : ∀ o < rg.rowCount, o ∉ chs.flatMap insertedRows → o < rg'.rowCount ∧
    ∀ col : ℕ, (rg'.columnChunks[col]?).map (·.cell? o) = (rg.columnChunks[col]?).map (·.cell? o)
  marked : ∀ {o m}, o ∉ chs.flatMap insertedRows → rg.versionInfo.marker? o = some m →
    m.txId ≠ id → rg'.versionInfo.marker? o = some m

/-- The rows that a rollback acts on are those of its transaction: its appends make up the
latest append of the row group and are not flushed, nobody has marked again what it deleted,
and each of its delete marks has its entry. -/
structure OwnRows (rg : RowGroup) (id : TransactionId) (chs : List GroupChange) : Prop where
  after_start : ∀ o ∈ chs.flatMap insertedRows, rg.pendingAppendStart ≤ o
  latest : chs.filterMap append? ≠ [] → ∀ o ∈ rg.pendingRows, o ∈ chs.flatMap insertedRows
  pending : ∀ o ∈ chs.flatMap insertedRows, ∀ cc ∈ rg.columnChunks, cc.segmentRowCount ≤ o
  own : ∀ {o m}, o ∈ chs.flatMap deletedRows → o ∉ chs.flatMap insertedRows →
    rg.versionInfo.marker? o = some m → m.txId = id
  recorded : ∀ {o m}, rg.versionInfo.marker? o = some m → m.type = .delete → m.txId = id →
    o ∈ chs.flatMap deletedRows ∨ (chs.filterMap append? ≠ [] ∧ o ∈ rg.pendingRows)

theorem undoneTo_iff {rg rg' : RowGroup} {id : TransactionId} {chs : List GroupChange}
    (hupd : chs.flatMap updatedRows = []) (hcols : rg'.columnChunks = Catalog.revertColumns rg chs)
    (hversions : rg'.versions = chs.reverse.foldl revert rg.versions) :
    rg.UndoneTo rg' id chs ↔ rg.OwnRows id chs := by
  obtain ⟨hm, _, hr⟩ := @GroupVersions.foldl_revert rg.versions chs.reverse
  rw [← hversions] at hm hr
  have hmarker : ∀ o, rg'.versionInfo.marker? o =
      if o ∈ chs.flatMap deletedRows ∨ (chs.filterMap append? ≠ [] ∧ o ∈ rg.pendingRows) then none
      else rg.versionInfo.marker? o := by
    intro o
    refine (hm o).trans (if_congr ?_ rfl rfl)
    have hnot : ¬ o ∈ chs.flatMap updatedRows := by simp [hupd]
    simp only [mem_flatMap, mem_reverse, filterMap_reverse, ne_eq, reverse_eq_nil_iff] at hnot ⊢
    simp only [hnot, or_false]
    rfl
  have hcount : rg'.rowCount =
      if chs.filterMap append? = [] then rg.rowCount else rg.pendingAppendStart := by
    refine hr.trans (if_congr ?_ rfl rfl)
    rw [filterMap_reverse, reverse_eq_nil_iff]
  have hins : ∀ {o}, o ∈ chs.flatMap insertedRows → chs.filterMap append? ≠ [] := by
    intro o ho hnil
    rw [flatMap_insertedRows, hnil] at ho
    cases ho
  constructor
  · intro h
    have hafter : ∀ o ∈ chs.flatMap insertedRows, rg.pendingAppendStart ≤ o := by
      intro o ho
      have hle := (h.removed o ho).1
      rwa [hcount, if_neg (hins ho)] at hle
    refine ⟨hafter, fun happ o ho => ?_, fun o ho cc hcc => ?_, fun {o m} hdel hnot hm => ?_,
      fun {o m} hm htype hid => ?_⟩
    · by_contra hnot
      obtain ⟨hge, hlt⟩ := mem_range'_1.mp ho
      have hkept := (h.kept o (by omega) hnot).1
      rw [hcount, if_neg happ] at hkept
      omega
    · rw [← rowCount_revertColumn_le (hafter o ho)]
      apply (h.removed o ho).2
      rw [hcols, Catalog.revertColumns, if_neg (hins ho)]
      exact mem_map_of_mem hcc
    · by_contra hne
      have hmark := h.marked hnot hm hne
      rw [hmarker, if_pos (.inl hdel)] at hmark
      cases hmark
    · by_contra hnot
      have hmark : rg'.versionInfo.marker? o = some m := by rw [hmarker, if_neg hnot, hm]
      exact h.unmarked hmark htype hid
  · intro h
    refine ⟨fun o ho => ?_, fun {o m} hm htype hid => ?_, fun o ho hnot => ?_,
      fun {o m} hnot hm hne => ?_⟩
    · rw [hcount, if_neg (hins ho), hcols, Catalog.revertColumns, if_neg (hins ho)]
      refine ⟨h.after_start o ho, fun cc hcc => ?_⟩
      obtain ⟨cc₀, hcc₀, rfl⟩ := mem_map.mp hcc
      exact (rowCount_revertColumn_le (h.after_start o ho)).mpr (h.pending o ho cc₀ hcc₀)
    · rw [hmarker] at hm
      split at hm
      next => cases hm
      next hnot => exact hnot (h.recorded hm htype hid)
    · rw [hcount, hcols, Catalog.revertColumns]
      by_cases happ : chs.filterMap append? = []
      · rw [if_pos happ, if_pos happ]
        exact ⟨ho, fun _ => rfl⟩
      · rw [if_neg happ, if_neg happ]
        have hlt : o < rg.pendingAppendStart := by
          by_contra hge
          exact hnot (h.latest happ o (mem_range'_1.mpr (by omega)))
        refine ⟨hlt, fun col => ?_⟩
        rw [getElem?_map, Option.map_map]
        exact congrArg (Option.map · _) (funext fun cc => cell?_revertColumn hlt)
    · rw [hmarker, if_neg, hm]
      rintro (hdel | ⟨happ, hpend⟩)
      · exact hne (h.own hdel hnot hm)
      · exact hnot (h.latest happ o hpend)

end RowGroup

namespace Database

variable {db db' : Database} {tx : Transaction}

/-- The rollback from `db` to `db'` has undone what `tx` did and nothing else. -/
def RollsBack (tx : Transaction) (db db' : Database) : Prop :=
  ∀ {r g rg}, db.catalog.rowGroup? r g = some rg → ∃ rg', db'.catalog.rowGroup? r g = some rg' ∧
    rg.UndoneTo rg' tx.txId (db.catalog.changesAt tx r g)

theorem updatedRows_changesAt (he : ∀ e ∈ tx.undoBuffer, e.IsRowEntry) (r : TableRef) (g : ℕ) :
    (db.catalog.changesAt tx r g).flatMap updatedRows = [] := by
  rw [flatMap_eq_nil_iff]
  intro ch hch
  obtain ⟨e, hmem, heq⟩ := mem_filterMap.mp hch
  have hrow := he e hmem
  cases e with
  | update e => exact hrow.elim
  | catalog e => exact hrow.elim
  | alterPartition e => exact hrow.elim
  | insert e | delete e =>
    simp only [changeAt] at heq
    split at heq <;> cases heq
    rfl

/-- **Rollback touches only its own rows** if and only if, in every row group, the rows it
acts on are those of its transaction. -/
theorem rollsBack_iff (he : ∀ e ∈ tx.undoBuffer, e.IsRowEntry)
    (h : Database.rollback tx db = some (.ok (), db')) :
    RollsBack tx db db' ↔ ∀ {r g rg}, db.catalog.rowGroup? r g = some rg →
      rg.OwnRows tx.txId (db.catalog.changesAt tx r g) := by
  obtain ⟨c, hrun, rfl⟩ := rollback_run h
  have hgroup : ∀ {r g rg}, db.catalog.rowGroup? r g = some rg → ∃ rg', c.rowGroup? r g = some rg' ∧
      (rg.UndoneTo rg' tx.txId (db.catalog.changesAt tx r g) ↔
        rg.OwnRows tx.txId (db.catalog.changesAt tx r g)) := by
    intro r g rg hrg
    obtain ⟨rg', hrg', hcols, hversions⟩ := Catalog.rowGroup?_undoBufferReverse he hrun hrg
    exact ⟨rg', hrg', RowGroup.undoneTo_iff (updatedRows_changesAt he r g) hcols hversions⟩
  constructor
  · intro hroll r g rg hrg
    obtain ⟨rg', hrg', hiff⟩ := hgroup hrg
    obtain ⟨rg'', hrg'', hundone⟩ := hroll hrg
    cases hrg'.symm.trans hrg''
    exact hiff.mp hundone
  · intro hown r g rg hrg
    obtain ⟨rg', hrg', hiff⟩ := hgroup hrg
    exact ⟨rg', hrg', hiff.mpr (hown hrg)⟩

/-- Where the markers track who inserted and who deleted, a transaction whose append is the
latest one and is not flushed owns the rows its rollback acts on. -/
theorem ownRows_of_tracks {log : TxLog} {rows : ℕ} {r : TableRef} {g : ℕ} {rg : RowGroup}
    (h : (db.view log r g).Tracks rows) (htx : db.activeTransactions.lookup tx.txId = some tx)
    (hrg : db.catalog.rowGroup? r g = some rg)
    (hlatest : (db.view log r g).versions.LatestAppend ((db.view log r g).changes tx.txId))
    (hpending : ∀ o ∈ (db.catalog.changesAt tx r g).flatMap insertedRows,
      ∀ cc ∈ rg.columnChunks, cc.segmentRowCount ≤ o) :
    rg.OwnRows tx.txId (db.catalog.changesAt tx r g) := by
  have hversions : (db.view log r g).versions = rg.versions := versions_view hrg
  have hchanges : (db.view log r g).changes tx.txId = _ := changes_view htx
  rw [hversions, hchanges] at hlatest
  have hdeleter : ∀ {o}, o ∈ (db.catalog.changesAt tx r g).flatMap deletedRows ↔
      deleter (rg.versionInfo.marker? o) = some tx.txId := by
    intro o
    rw [← hchanges, show rg.versionInfo = (db.view log r g).versions.info by rw [hversions]; rfl]
    rcases Nat.lt_or_ge o (db.view log r g).versions.rowCount with ho | ho
    · exact (h.agrees o ho).deleter_iff tx.txId
    · rw [h.marker_beyond o ho]
      exact ⟨fun hdel => absurd hdel (h.open_beyond o ho tx.txId).2,
        fun hdel => by cases hdel⟩
  refine ⟨fun o ho => ?_, fun happ o ho => hlatest.mem_insertedRows_iff.mpr ⟨happ, ho⟩, hpending,
    fun {o m} hdel _ hm => ?_, fun {o m} hm htype hid => .inl (hdeleter.mpr ?_)⟩
  · exact (mem_range'_1.mp (hlatest.mem_insertedRows_iff.mp ho).2).1
  · have hown := hdeleter.mp hdel
    rw [hm, deleter_eq_some, some.injEq] at hown
    rw [hown]
  · have hopen : m.commitTime = invalidTimestamp := by
      by_contra hct
      have hnone := h.owner (by rw [hversions]; exact hm) hct
      rw [hid, active_view htx] at hnone
      cases hnone
    rw [deleter_eq_some]
    cases m
    simp_all

/-- Transaction 1 inserts a row behind one of transaction 2 and rolls back. -/
theorem insert_rolls_back : ∃ db log tx db',
    Run (fun v a => v.InsertsAndDeletes a ∧ v.NothingLost a) emptyTable db log ∧
    db.activeTransactions.lookup 1 = some tx ∧ (∀ e ∈ tx.undoBuffer, e.IsRowEntry) ∧
    Database.rollback tx db = some (.ok (), db') ∧ RollsBack tx db db' ∧
    (db'.catalog.rowGroup? tableT 0).map RowGroup.rowCount = some 1 := by
  obtain ⟨db, h, hf⟩ := exists_run_of_after
    (forall_mem_cons.mpr ⟨meets_begin, forall_mem_cons.mpr ⟨meets_begin, forall_mem_cons.mpr
      ⟨meets_insert, forall_mem_singleton.mpr meets_insert⟩⟩⟩) (show after
    [.begin, .begin, .statement 2 (insertInt 8), .statement 1 (insertInt 7)] (fun db => do
      let tx ← db.activeTransactions.lookup 1
      let db' ← okState? (Database.rollback tx db)
      let e ← tx.onlyInsert?
      let r ← db.catalog.resolve tx.toSnapshot e.schema e.table
      let rg ← db.catalog.rowGroup? r e.rowGroupId
      pure (tx.txId, rg.columnChunks.map ColumnChunk.segmentRowCount, onlyLatest 1 db,
        (db'.catalog.rowGroup? tableT 0).map RowGroup.rowCount)) =
      some (1, [0], true, some 1) by decide +kernel)
  obtain ⟨tx, htx, hf⟩ := bind_eq_some_iff.mp hf
  obtain ⟨⟨⟩, db', hroll, hf⟩ := bind_okState? hf
  obtain ⟨e, he, hf⟩ := bind_eq_some_iff.mp hf
  obtain ⟨r, hr, hf⟩ := bind_eq_some_iff.mp hf
  obtain ⟨rg, hrg, hf⟩ := bind_eq_some_iff.mp hf
  simp only [Option.pure_def, Option.some.injEq, Prod.mk.injEq] at hf
  obtain ⟨hid, hsegments, honly, hkept⟩ := hf
  have hrow : ∀ e ∈ tx.undoBuffer, e.IsRowEntry := by
    rw [Transaction.undoBuffer_of_onlyInsert? he]
    exact forall_mem_singleton.mpr trivial
  refine ⟨db, _, tx, db', h, htx, hrow, hroll, (rollsBack_iff hrow hroll).mpr ?_, hkept⟩
  intro r' g' rg' hrg'
  obtain ⟨_, htracks⟩ := h.invariant quiet_emptyTable.idle (quiet_emptyTable.tracks r' g')
    GroupView.Tracks.apply
  refine ownRows_of_tracks htracks (by rw [hid]; exact htx) hrg' ?_ fun o ho => ?_
  · rw [hid]
    exact latestAppend_of_onlyLatest honly r' g'
  · rw [Catalog.changesAt_of_onlyInsert? he hr] at ho
    split at ho
    next heq =>
      obtain ⟨rfl, rfl⟩ := heq
      cases hrg.symm.trans hrg'
      intro cc hcc
      have hmem := mem_map_of_mem (f := ColumnChunk.segmentRowCount) hcc
      rw [hsegments, mem_singleton] at hmem
      omega
    next => cases ho

/-- Transaction 2 appends after transaction 1; the rollback of transaction 1 removes the row
of transaction 2 and leaves its own. -/
theorem rollback_removes_foreign_row : ∃ db log tx db', Run (fun _ _ => True) emptyTable db log ∧
    db.activeTransactions.lookup 1 = some tx ∧ (∀ e ∈ tx.undoBuffer, e.IsRowEntry) ∧
    Database.rollback tx db = some (.ok (), db') ∧ ¬ RollsBack tx db db' := by
  obtain ⟨db, hrun, hf⟩ := exists_run_of_after (fun cmd _ _ _ => meets_true _ _ cmd) (show after
    [.begin, .begin, .statement 1 (insertInt 7), .statement 2 (insertInt 8)] (fun db => do
      let tx ← db.activeTransactions.lookup 1
      let db' ← okState? (Database.rollback tx db)
      let e ← tx.onlyInsert?
      let rg ← db.catalog.rowGroup? tableT 0
      let rg' ← db'.catalog.rowGroup? tableT 0
      pure (rg.rowCount, rg'.rowCount, db.catalog.changesAt tx tableT 0)) =
      some (2, 1, [.append 0 1]) by decide +kernel)
  obtain ⟨tx, htx, hf⟩ := bind_eq_some_iff.mp hf
  obtain ⟨⟨⟩, db', hroll, hf⟩ := bind_okState? hf
  obtain ⟨e, he, hf⟩ := bind_eq_some_iff.mp hf
  obtain ⟨rg, hrg, hf⟩ := bind_eq_some_iff.mp hf
  obtain ⟨rg', hrg', hf⟩ := bind_eq_some_iff.mp hf
  simp only [Option.pure_def, Option.some.injEq, Prod.mk.injEq] at hf
  obtain ⟨hcount, hcount', hchanges⟩ := hf
  refine ⟨db, _, tx, db', hrun, htx, ?_, hroll, fun hback => ?_⟩
  · rw [Transaction.undoBuffer_of_onlyInsert? he]
    exact forall_mem_singleton.mpr trivial
  · obtain ⟨rg'', hrg'', hundone⟩ := hback hrg
    cases hrg'.symm.trans hrg''
    have hlt := (hundone.kept 1 (by omega) (by rw [hchanges]; decide)).1
    omega

end Database

end CppColDB
