import CppColDB.Execution.Effects
import CppColDB.Transaction.GroupMachine

/-!
# Runs of transactions

A run begins transactions, lets them change rows, and commits and rolls them back, in any
order. Its changes are those of `Dml`, so every `INSERT`, `DELETE` and `UPDATE` statement is
a piece of a run (`steps_of_effect`). The log of a run is the order of its begins and
commits.

Seen from one row group a run is a run of the machine `GroupView` (`Step.view`); an
invariant of the machine is therefore one of every row group (`Run.invariant`).
-/

namespace CppColDB

open Catalog Finmap Function GroupChange GroupVersions GroupView Imp List Option Relation RowGroup
  Transaction TxEvent UndoEntry

/-- The log of a run; a committed transaction keeps its undo buffer. -/
abbrev TxLog := List (TxEvent Transaction)

namespace Database

/-- A step of a run. The flags say whether the call returned. -/
inductive Act where
  | begin
  | dml (id : TransactionId) (logged : Bool) (ch : Change)
  | commit (id : TransactionId) (ok : Bool)
  | rollback (id : TransactionId) (ok : Bool)

inductive Step : Database → Act → Database → Prop
  | begin {db : Database} (autoCommit : Bool) : Step db .begin (db.beginTransaction autoCommit)
  | dml {db db' : Database} {tx : Transaction} {logged : Bool} {ch : Change}
      (htx : db.activeTransactions.lookup tx.txId = some tx)
      (h : Dml tx.toSnapshot logged ch db db') : Step db (.dml tx.txId logged ch) db'
  | commit {db db' : Database} {tx : Transaction} {res : Except Error Unit}
      (htx : db.activeTransactions.lookup tx.txId = some tx)
      (h : Database.commit tx db = some (res, db')) : Step db (.commit tx.txId res.isOk) db'
  | rollback {db db' : Database} {tx : Transaction} {res : Except Error Unit}
      (htx : db.activeTransactions.lookup tx.txId = some tx)
      (h : Database.rollback tx db = some (res, db')) : Step db (.rollback tx.txId res.isOk) db'

/-- What a step adds to the log. -/
def Act.record (db : Database) : Act → TxLog
  | .begin => [.began db.nextTxId]
  | .commit id true => ((db.activeTransactions.lookup id).map committed).toList
  | .dml _ _ _ | .commit _ false | .rollback _ _ => []

/-- The row group as a state of the machine, with the log of the run. A row group that the
table does not have yet is an empty one. -/
def view (db : Database) (log : TxLog) (r : TableRef) (g : ℕ) : GroupView where
  versions := (db.catalog.groupVersions? r g).getD {}
  active id := (db.activeTransactions.lookup id).map toSnapshot
  changes id := ((db.activeTransactions.lookup id).map (db.catalog.changesAt · r g)).getD []
  nextTxId := db.nextTxId
  commitCounter := db.commitCounter
  history := log.map (map (db.catalog.changesAt · r g))

/-- A change as row group `g` of table `r` sees it. -/
def Change.at (v : GroupView) (r : TableRef) (g : ℕ) : Change → Option GroupChange
  | .grow _ => none
  | .append r' g' count =>
    if r = r' ∧ g = g' then some (.append v.versions.rowCount count) else none
  | .delete r' rowIds => if r = r' then some (.delete (offsetsIn rowIds g)) else none
  | .update r' g' offsets =>
    if r = r' then some (.update (if g = g' then offsets else [])) else none

/-- A step as row group `g` of table `r` sees it. A rollback that throws has no such view:
it has undone only some of the changes. -/
def Act.at (v : GroupView) (r : TableRef) (g : ℕ) : Act → Option GroupAct
  | .begin => some .start
  | .dml id logged ch =>
    match ch.at v r g with
    | none => some .idle
    | some ch => some (if logged then .change id ch else .abandoned id ch)
  | .commit id ok => some (if ok then .commit id else .idle)
  | .rollback id ok => if ok then some (.rollback id) else none

/-- All undo entries are those of statements on rows. -/
def RowsOnly (db : Database) : Prop :=
  ∀ {id tx}, db.activeTransactions.lookup id = some tx → ∀ e ∈ tx.undoBuffer, e.Undoable

/-! ## How the view moves -/

variable {id : TransactionId}

section View

variable {db db' : Database} {log : TxLog} {r : TableRef} {g : ℕ} {tx : Transaction}

theorem versions_view {rg : RowGroup} (hrg : db.catalog.rowGroup? r g = some rg) :
    (db.view log r g).versions = rg.versions := by
  simp [view, groupVersions?, hrg]

theorem active_view (htx : db.activeTransactions.lookup id = some tx) :
    (db.view log r g).active id = some tx.toSnapshot := by
  simp [view, htx]

theorem changes_view (htx : db.activeTransactions.lookup id = some tx) :
    (db.view log r g).changes id = db.catalog.changesAt tx r g := by
  simp [view, htx]

variable {c : Catalog}

theorem changesAt_sameStamps {c' : Catalog} (h : c.SameStamps c') :
    c.changesAt = c'.changesAt := by
  funext tx r g
  rw [changesAt, h.resolve, changesAt]

theorem view_withCatalog (h : c.SameStamps db.catalog) : (db.withCatalog c).view log r g =
      { db.view log r g with versions := (c.groupVersions? r g).getD {} } := by
  simp only [view, catalog_withCatalog, changesAt_sameStamps h]
  rfl

theorem snapshot_pushUndo (id' : TransactionId) (e : UndoEntry) (id : TransactionId) :
    ((db.pushUndo id' e).activeTransactions.lookup id).map toSnapshot =
      (db.activeTransactions.lookup id).map toSnapshot := by
  rw [lookup_pushUndo]
  split
  next hid =>
    subst hid
    rw [Option.map_map]
    rfl
  next => rfl

theorem view_pushUndo {e : UndoEntry} (htx : db.activeTransactions.lookup tx.txId = some tx) :
    (db.pushUndo tx.txId e).view log r g =
      match e.changeAt (db.catalog.resolve tx.toSnapshot) r g with
      | none => db.view log r g
      | some ch =>
        { db.view log r g with
          changes := update (db.view log r g).changes tx.txId
            ((db.view log r g).changes tx.txId ++ [ch]) } := by
  have hclock : db.SameClock _ := sameClock_pushUndo tx.txId e
  have hchanges : ∀ id, ((db.pushUndo tx.txId e).activeTransactions.lookup id).map
      (db.catalog.changesAt · r g) = if id = tx.txId then
        some (db.catalog.changesAt tx r g ++
          (e.changeAt (db.catalog.resolve tx.toSnapshot) r g).toList)
      else (db.activeTransactions.lookup id).map (db.catalog.changesAt · r g) := by
    intro id
    rw [lookup_pushUndo]
    by_cases hid : id = tx.txId
    · simp only [hid, htx, if_true, map_some, changesAt, filterMap_append,
        filterMap_cons]
      cases e.changeAt (db.catalog.resolve tx.toSnapshot) r g <;> rfl
    · simp [hid]
  simp only [view, catalog_pushUndo, snapshot_pushUndo, hchanges, hclock.nextTxId, hclock.commitCounter]
  cases e.changeAt (db.catalog.resolve tx.toSnapshot) r g with
  | none | some ch =>
    congr 1
    funext id
    by_cases hid : id = tx.txId
    · subst hid
      simp [htx]
    · simp [hid]

/-- A new row group is an empty one. -/
theorem groupVersions?_addRowGroup (c : Catalog) (r' : TableRef)
    (indices : TableCatalogEntry → List (List ℕ)) :
    ((c.modifyTable r' fun t => { t.addRowGroup with partitionRgIndices := indices t
      }).groupVersions? r g).getD {} = (c.groupVersions? r g).getD {} := by
  rw [groupVersions?, rowGroup?, table?_modifyTable, groupVersions?, rowGroup?]
  by_cases hr : r = r'
  · subst hr
    cases c.table? r with
    | none => simp
    | some t =>
      simp only [if_true, map_some, bind_some, TableCatalogEntry.addRowGroup]
      rcases lt_trichotomy g t.rowGroups.length with hg | rfl | hg
      · rw [getElem?_append_left hg]
      · rw [getElem?_concat_length, getElem?_eq_none (le_refl _)]
        rfl
      · rw [getElem?_eq_none (by simp; omega), getElem?_eq_none (by omega)]
  · simp [hr]

variable {offsets : List ℕ} {res : Except Error Unit} {writes : List (ℕ × DataVector)}
  {rg rg' : RowGroup}

theorem versions_writeColumns (h : writeColumns offsets writes rg = some (res, rg')) :
    rg'.versions = rg.versions := by
  have hkeep : Keeps (fun x : RowGroup => x.versions = rg.versions)
      (writeColumns offsets writes) :=
    Keeps.forEach fun (col, new) _ => Keeps.focus fun s t hs => hs
  cases res with
  | ok _ => exact hkeep.ok rfl h
  | error _ => exact hkeep.error rfl h

variable {rowIds : List RowId}

/-- Marking rows moves the markers of their row groups. -/
theorem getD_groupVersions?_forRows (log : TxLog) {r' : TableRef}
    (hrows : db.catalog.Selected tx.toSnapshot r' rowIds) :
    ((db.catalog.forRows r' rowIds fun off vi => vi.markDeleted off tx.txId).groupVersions? r
      g).getD {} = if r = r' then (db.view log r g).versions.make tx.txId
        (.delete (offsetsIn rowIds g)) else (db.view log r g).versions := by
  rw [groupVersions?_forRows]
  by_cases hr : r = r'
  · subst hr
    cases hgv : db.catalog.groupVersions? r g with
    | some gv => simp [view, hgv, make]
    | none =>
      have hnil : offsetsIn rowIds g = [] := by
        rw [offsetsIn, map_eq_nil_iff, filter_eq_nil_iff]
        intro row hrow
        obtain ⟨rg, hrg, _⟩ := hrows.seen row hrow
        intro hg
        rw [of_decide_eq_true hg] at hrg
        simp [groupVersions?, hrg] at hgv
      simp [view, hgv, hnil, make]
  · rw [if_neg hr, if_neg hr]
    rfl

theorem possible_delete (hrows : db.catalog.Selected tx.toSnapshot r rowIds) :
    (delete (offsetsIn rowIds g)).Possible (db.view log r g).versions
      tx.toSnapshot := by
  constructor
  · refine (hrows.nodup.filter _).map_on fun a ha b hb hab => ?_
    cases a
    cases b
    simp_all
  · intro o ho
    obtain ⟨row, hrow, rfl⟩ := mem_map.mp ho
    obtain ⟨hmem, hg⟩ := mem_filter.mp hrow
    obtain ⟨rg, hrg, hlt, hvis⟩ := hrows.seen row hmem
    rw [of_decide_eq_true hg] at hrg
    simpa [view, groupVersions?, hrg] using ⟨hlt, hvis⟩

variable {g' : ℕ}

/-- What marking and writing some rows of a row group does to its view. -/
theorem view_update (hrg : db.catalog.rowGroup? r g' = some rg)
    (hrun : writeColumns offsets writes (rg.markUpdatedRows tx.txId offsets) = some (res, rg'))
    (r₀ : TableRef) :
    (db.withCatalog (db.catalog.modifyRowGroup r g' fun _ => rg')).view log r₀ g =
      { db.view log r₀ g with
        versions := if r₀ = r then (db.view log r₀ g).versions.make tx.txId
          (.update (if g = g' then offsets else [])) else (db.view log r₀ g).versions } := by
  rw [view_withCatalog (sameStamps_modifyRowGroup _ _ _),
    groupVersions?_modifyRowGroup r g' (F := fun _ => rg'.versions) fun _ => rfl,
    versions_writeColumns hrun]
  by_cases hr : r₀ = r
  · subst hr
    by_cases hg : g = g'
    · subst hg
      simp [view, groupVersions?, hrg]
      rfl
    · simp [hg, view, make]
  · simp [hr, view]

theorem possible_update (hrows : db.catalog.Selected tx.toSnapshot r
      (offsets.map fun offset => { group := g', offset })) :
    (update (if g = g' then offsets else [])).Possible (db.view log r g).versions
      tx.toSnapshot := by
  by_cases hg : g = g'
  · subst hg
    rw [if_pos rfl]
    refine ⟨hrows.nodup.of_map _, fun o ho => ?_⟩
    obtain ⟨rg, hrg, hlt, hvis⟩ := hrows.seen _ (mem_map_of_mem ho)
    simpa [view, groupVersions?, hrg] using ⟨hlt, hvis⟩
  · rw [if_neg hg]
    exact ⟨nodup_nil, forall_mem_nil _⟩

/-- **A change, seen from one row group.** -/
theorem Dml.view {logged : Bool} {ch : Change}
    (htx : db.activeTransactions.lookup tx.txId = some tx) (h : Dml tx.toSnapshot logged ch db db')
    (log : TxLog) (r : TableRef) (g : ℕ) :
    match ch.at (db.view log r g) r g with
    | none => db'.view log r g = db.view log r g
    | some gch =>
      gch.Possible (db.view log r g).versions tx.toSnapshot ∧
      (logged = false → gch.isAppend = false) ∧
      db'.view log r g = (db.view log r g).apply
        (if logged then .change tx.txId gch else .abandoned tx.txId gch) := by
  cases h with
  | @grow _ r' indices =>
    have hsame : (db.catalog.modifyTable r' fun t =>
        { t.addRowGroup with partitionRgIndices := indices t }).SameStamps db.catalog :=
      sameStamps_modifyTable _ fun _ => rfl
    rw [view_withCatalog hsame, groupVersions?_addRowGroup]
    rfl
  | @append _ r' g' rg rg' chunk colIds hr hrg happend =>
    have hsame := sameStamps_modifyRowGroup (c := db.catalog) r' g' fun _ => rg'
    rw [view_pushUndo (by exact htx), view_withCatalog hsame, catalog_withCatalog,
      hsame.resolve, groupVersions?_modifyRowGroup r' g' (F := fun _ => rg'.versions)
      fun _ => rfl]
    simp only [Change.at, changeAt, hr]
    by_cases hrg' : r = r' ∧ g = g'
    · obtain ⟨rfl, rfl⟩ := hrg'
      simp [Possible, apply, make, Database.view, groupVersions?, hrg, versions_append happend]
    · have hrg'' : ¬ (r' = r ∧ g' = g) := fun h => hrg' ⟨h.1.symm, h.2.symm⟩
      simp [hrg', hrg'', Database.view]
  | @delete _ r' rowIds hr hrows =>
    have hsame := sameStamps_forRows (c := db.catalog) r' rowIds fun off vi =>
      vi.markDeleted off tx.txId
    rw [view_pushUndo (by exact htx), view_withCatalog hsame, catalog_withCatalog,
      hsame.resolve, getD_groupVersions?_forRows log hrows]
    simp only [Change.at, changeAt, hr]
    by_cases hr' : r = r'
    · subst hr'
      simp [possible_delete hrows, apply]
    · simp [hr', Ne.symm hr']
  | @deleteFailed _ r' rowIds hrows =>
    rw [view_withCatalog (sameStamps_forRows _ _ _), getD_groupVersions?_forRows log hrows]
    simp only [Change.at]
    by_cases hr' : r = r'
    · subst hr'
      simp [possible_delete hrows, apply, isAppend]
    · simp [hr']
  | @update _ r' g' rg rg' offsets writes e hr hrg hrows hrun hschema htable hids hcount =>
    have hsame := sameStamps_modifyRowGroup (c := db.catalog) r' g' fun _ => rg'
    have hoff : offsetsIn e.rowIds g = if g = g' then offsets else [] := by
      rw [hids, offsetsIn, List.filter_map]
      by_cases hg : g = g'
      · simp [hg, comp_def]
      · simp [hg, Ne.symm hg]
    rw [view_pushUndo (by exact htx), view_update hrg hrun, catalog_withCatalog, hsame.resolve]
    simp only [Change.at, changeAt, hschema, htable, hr, hoff]
    by_cases hr' : r = r'
    · subst hr'
      simp [possible_update hrows, apply]
    · simp [hr', Ne.symm hr']
  | @updateFailed _ r' g' rg rg' offsets writes res hrg hrows hrun =>
    rw [view_update hrg hrun]
    simp only [Change.at]
    by_cases hr' : r = r'
    · subst hr'
      simp [possible_update hrows, apply, isAppend]
    · simp [hr']

theorem view_beginTransaction (autoCommit : Bool) :
    (db.beginTransaction autoCommit).view (.began db.nextTxId :: log) r g =
      (db.view log r g).apply .start := by
  simp only [view, beginTransaction, newTransaction]
  congr 1
  · funext id
    by_cases hid : id = db.nextTxId
    · subst hid
      simp
    · simp [lookup_insert_of_ne _ hid, update_of_ne hid]
  · funext id
    by_cases hid : id = db.nextTxId
    · subst hid
      simp [changesAt]
    · simp [lookup_insert_of_ne _ hid, update_of_ne hid]

/-- What ends a transaction in the manager ends it in the view. -/
theorem view_finish (log : TxLog) (h : db'.catalog.SameStamps db.catalog)
    (hactive : db'.activeTransactions = db.activeTransactions.erase id) (log' : TxLog) :
    db'.view log' r g =
      { (db.view log r g).finish id with
        versions := (db'.catalog.groupVersions? r g).getD {}
        nextTxId := db'.nextTxId
        commitCounter := db'.commitCounter
        history := log'.map (map (db.catalog.changesAt · r g)) } := by
  have hlookup : ∀ id', db'.activeTransactions.lookup id' =
      if id' = id then none else db.activeTransactions.lookup id' := by
    intro id'
    rw [hactive]
    by_cases hid : id' = id
    · subst hid
      simp
    · simp [hid]
  simp only [view, hlookup, changesAt_sameStamps h, finish]
  congr 1
  · funext id'
    by_cases hid : id' = id <;> simp [hid]
  · funext id'
    by_cases hid : id' = id <;> simp [hid]

theorem commit_run (h : Database.commit tx db = some (res, db')) :
    ∃ wal, db' = if res.isOk then ({ db with wal }).publish tx else { db with wal } := by
  rw [Database.commit, bind_run_ok get_run] at h
  split at h
  · rcases bind_run_eq_some_iff.mp h with ⟨e, h₁, rfl⟩ | ⟨_, db₁, h₁, h⟩
    · obtain ⟨_, w, _, _, rfl⟩ := focus_run_eq_some_iff.mp h₁
      exact ⟨some w, rfl⟩
    · obtain ⟨_, w, _, _, rfl⟩ := focus_run_eq_some_iff.mp h₁
      cases h
      exact ⟨some w, rfl⟩
  · cases h
    exact ⟨db.wal, rfl⟩

theorem view_publish (htx : db.activeTransactions.lookup tx.txId = some tx)
    (he : ∀ e ∈ tx.undoBuffer, e.Undoable) :
    (db.publish tx).view (.committed tx :: log) r g =
      (db.view log r g).apply (.commit tx.txId) := by
  have hgv : ((db.publish tx).catalog.groupVersions? r g).getD {} =
      (db.catalog.changesAt tx r g).foldl (GroupVersions.commit (db.commitCounter + 1))
        (db.view log r g).versions := by
    refine (congrArg (getD · {}) groupVersions?_applyUndoBuffer).trans ?_
    cases hnone : db.catalog.groupVersions? r g with
    | some gv =>
      simp only [view, hnone]
      rfl
    | none =>
      simp only [view, hnone]
      exact (foldl_commit_empty _ _).symm
  have hsame : (db.publish tx).catalog.SameStamps db.catalog :=
    sameStamps_applyUndoBuffer (by exact he)
  rw [view_finish log hsame rfl, hgv]
  simp only [apply, changes_view htx]
  rfl

theorem rollback_run (h : Database.rollback tx db = some (.ok (), db')) :
    ∃ c, undoBufferReverse tx db.catalog = some (.ok (), c) ∧
      db' = { db with
              catalog := c, activeTransactions := db.activeTransactions.erase tx.txId } := by
  obtain ⟨_, db₁, hrun, hmod⟩ := bind_run_eq_ok_iff.mp h
  obtain ⟨c, c', hc, hrun, rfl⟩ := focus_run_eq_some_iff.mp hrun
  cases hc
  cases hmod
  exact ⟨c', hrun, rfl⟩

theorem view_rollback (htx : db.activeTransactions.lookup tx.txId = some tx)
    (he : ∀ e ∈ tx.undoBuffer, e.Undoable) (h : Database.rollback tx db = some (.ok (), db')) :
    db'.view log r g = (db.view log r g).apply (.rollback tx.txId) := by
  obtain ⟨c, hrun, rfl⟩ := rollback_run h
  have hrev := reverts_undoBufferReverse he hrun
  have hgv : (c.groupVersions? r g).getD {} = (db.catalog.changesAt tx r g).reverse.foldl
      revert (db.view log r g).versions := by
    rw [hrev.groupVersions?]
    cases hnone : db.catalog.groupVersions? r g with
    | some gv => simp [view, hnone]
    | none =>
      simp only [view, hnone]
      exact (foldl_revert_empty _).symm
  rw [view_finish log hrev.sameStamps rfl, hgv]
  simp only [apply, changes_view htx]
  rfl

end View

/-! ## Runs -/

section Runs

variable {db db' : Database} {log : TxLog} {tx : Transaction} {a : Act}

theorem rowsOnly_pushUndo (h : db.RowsOnly) (id : TransactionId) (e : UndoEntry)
    (he : e.Undoable) : (db.pushUndo id e).RowsOnly := by
  intro id' tx' htx'
  rw [lookup_pushUndo] at htx'
  split at htx'
  next hid =>
    obtain ⟨tx, htx, rfl⟩ := map_eq_some_iff.mp htx'
    intro e' he'
    rcases mem_append.mp he' with he' | he'
    · exact h htx e' he'
    · rw [mem_singleton.mp he']
      exact he
  next hid => exact h htx'

theorem rowsOnly_erase {c : Catalog} {wal : Option Wal} {ct : Timestamp} (h : db.RowsOnly) :
    RowsOnly { db with
               catalog := c, wal, commitCounter := ct
               activeTransactions := db.activeTransactions.erase id } := by
  intro id' tx' htx'
  by_cases hid : id' = id
  · subst hid
    simp at htx'
  · exact h ((lookup_erase_ne hid).symm.trans htx')

variable {logged : Bool} {ch : Change} {tx : Snapshot}

theorem Dml.rowsOnly (hdb : db.RowsOnly) (h : Dml tx logged ch db db') : db'.RowsOnly := by
  cases h with
  | grow => exact hdb
  | deleteFailed => exact hdb
  | updateFailed => exact hdb
  | append =>
    apply rowsOnly_pushUndo
    · exact hdb
    · trivial
  | delete =>
    apply rowsOnly_pushUndo
    · exact hdb
    · trivial
  | @update _ r g rg rg' offsets writes e hr hrg hrows hrun hschema htable hids hcount =>
    apply rowsOnly_pushUndo
    · exact hdb
    constructor
    · rw [hids, length_map, hcount]
    · simp only [hids, List.mem_map]
      rintro _ ⟨_, _, rfl⟩ _ ⟨_, _, rfl⟩
      rfl

variable {r : TableRef} {g : ℕ} {ga : GroupAct}

/-- **A step, seen from one row group**, is a step of the machine. -/
theorem Step.view (hdb : db.RowsOnly) (h : Step db a db')
    (ha : a.at (db.view log r g) r g = some ga) :
    (db.view log r g).Allows ga ∧
      db'.view (a.record db ++ log) r g = (db.view log r g).apply ga := by
  have hactive : ∀ {tx : Transaction}, db.activeTransactions.lookup tx.txId = some tx →
      (db.view log r g).active tx.txId = some tx.toSnapshot := by
    intro tx htx
    simp [Database.view, htx]
  cases h with
  | begin autoCommit =>
    cases ha
    exact ⟨trivial, view_beginTransaction autoCommit⟩
  | @dml _ tx logged ch htx h =>
    have hview := h.view htx log r g
    simp only [Act.at] at ha
    cases hch : ch.at (db.view log r g) r g with
    | none =>
      rw [hch] at ha hview
      cases ha
      exact ⟨trivial, hview⟩
    | some gch =>
      rw [hch] at ha hview
      obtain ⟨hpos, happ, hview⟩ := hview
      cases ha
      refine ⟨?_, hview⟩
      cases logged with
      | true => exact ⟨_, hactive htx, hpos⟩
      | false => exact ⟨happ rfl, _, hactive htx, hpos⟩
  | @commit _ tx res htx h =>
    cases ha
    obtain ⟨wal, rfl⟩ := commit_run h
    cases res with
    | error e => exact ⟨trivial, rfl⟩
    | ok _ =>
      refine ⟨⟨_, hactive htx⟩, ?_⟩
      have hrecord : (Act.commit tx.txId true).record db = [.committed tx] := by
        simp [Act.record, htx]
      exact (congrArg (fun l => (({ db with wal }).publish tx).view (l ++ log) r g)
        hrecord).trans (@view_publish { db with wal } log r g tx htx (hdb htx))
  | @rollback _ tx res htx h =>
    cases res with
    | error e => simp [Act.at, Except.toBool] at ha
    | ok _ =>
      cases ha
      exact ⟨⟨_, hactive htx⟩, view_rollback htx (hdb htx) h⟩

theorem Step.rowsOnly (hdb : db.RowsOnly) (h : Step db a db')
    (ha : a.at (db.view log r g) r g = some ga) : db'.RowsOnly := by
  cases h with
  | begin autoCommit =>
    intro id tx htx
    by_cases hid : id = db.nextTxId
    · subst hid
      obtain rfl : db.newTransaction autoCommit = tx := by
        simpa [beginTransaction] using htx
      exact forall_mem_nil _
    · exact hdb ((lookup_insert_of_ne _ hid).symm.trans htx)
  | dml htx h => exact h.rowsOnly hdb
  | @commit _ tx res htx h =>
    obtain ⟨wal, rfl⟩ := commit_run h
    cases res with
    | error e => exact hdb
    | ok _ => exact rowsOnly_erase hdb
  | @rollback _ tx res htx h =>
    cases res with
    | error e => simp [Act.at, Except.toBool] at ha
    | ok _ =>
      obtain ⟨c, _, rfl⟩ := rollback_run h
      exact rowsOnly_erase hdb

/-- Between transactions. -/
structure Idle (db : Database) : Prop where
  activeTransactions : db.activeTransactions = ∅
  nextTxId_pos : 0 < db.nextTxId
  commitCounter_nonneg : 0 ≤ db.commitCounter

/-- Before any transaction: no row has a marker, as after loading a checkpoint. -/
structure Quiet (db : Database) : Prop where
  activeTransactions : db.activeTransactions = ∅
  versionInfo : ∀ {r g rg}, db.catalog.rowGroup? r g = some rg → rg.versionInfo = {}
  pendingAppendStart_le : ∀ {r g rg}, db.catalog.rowGroup? r g = some rg →
    rg.pendingAppendStart ≤ rg.rowCount
  nextTxId_pos : 0 < db.nextTxId
  commitCounter_nonneg : 0 ≤ db.commitCounter

/-- The runs whose steps all meet a condition on what the row groups see. Every rollback in
a run returns. -/
inductive Run (C : GroupView → GroupAct → Prop) (db₀ : Database) :
    Database → TxLog → Prop
  | refl : Run C db₀ db₀ []
  | step {db db' : Database} {log : TxLog} {a : Act} (hrun : Run C db₀ db log)
      (hstep : Step db a db')
      (hcond : ∀ r g, ∃ ga, a.at (db.view log r g) r g = some ga ∧ C (db.view log r g) ga) :
      Run C db₀ db' (a.record db ++ log)

variable {C : GroupView → GroupAct → Prop} {db₀ : Database}

theorem Quiet.idle (h : db₀.Quiet) : db₀.Idle where
  activeTransactions := h.activeTransactions
  nextTxId_pos := h.nextTxId_pos
  commitCounter_nonneg := h.commitCounter_nonneg

theorem Idle.view (h : db₀.Idle) (r : TableRef) (g : ℕ) :
    (db₀.view [] r g).WellFormed ∧ ∀ id, (db₀.view [] r g).active id = none := by
  have hnone : ∀ id, (db₀.view [] r g).active id = none := by
    simp [Database.view, h.activeTransactions]
  refine ⟨⟨.of_idle hnone h.nextTxId_pos h.commitCounter_nonneg, fun {id} _ => ?_⟩, hnone⟩
  simp [Database.view, h.activeTransactions]

theorem Quiet.view (h : db₀.Quiet) (r : TableRef) (g : ℕ) :
    (db₀.view [] r g).WellFormed ∧ (db₀.view [] r g).versions.info = {} ∧
      (∀ id, (db₀.view [] r g).active id = none) ∧
      (db₀.view [] r g).versions.pendingAppendStart ≤ (db₀.view [] r g).versions.rowCount := by
  obtain ⟨hwf, hnone⟩ := h.idle.view r g
  refine ⟨hwf, ?_, hnone, ?_⟩
  · cases hrg : db₀.catalog.rowGroup? r g with
    | none => simp [Database.view, groupVersions?, hrg]
    | some rg =>
      simpa [Database.view, groupVersions?, hrg, RowGroup.versions] using h.versionInfo hrg
  · cases hrg : db₀.catalog.rowGroup? r g with
    | none => simp [Database.view, groupVersions?, hrg]
    | some rg =>
      simpa [Database.view, groupVersions?, hrg, RowGroup.versions] using
        h.pendingAppendStart_le hrg

theorem Run.rowsOnly (h₀ : db₀.Idle) (h : Run C db₀ db log) : db.RowsOnly := by
  induction h with
  | refl =>
    intro id tx htx
    simp [h₀.activeTransactions] at htx
  | step hrun hstep hcond ih =>
    obtain ⟨ga, ha, _⟩ := hcond ⟨[], [], 0⟩ 0
    exact hstep.rowsOnly ih ha

/-- **Runs keep the invariants of the machine**, in every row group. -/
theorem Run.invariant {I : GroupView → Prop} (h₀ : db₀.Idle) (hI : I (db₀.view [] r g))
    (hstep : ∀ {v a}, v.WellFormed → I v → v.Allows a → C v a → I (v.apply a))
    (h : Run C db₀ db log) : (db.view log r g).WellFormed ∧ I (db.view log r g) := by
  induction h with
  | refl => exact ⟨(h₀.view r g).1, hI⟩
  | step hrun hs hcond ih =>
    obtain ⟨ga, ha, hC⟩ := hcond r g
    obtain ⟨hallows, hview⟩ := hs.view (hrun.rowsOnly h₀) ha
    rw [hview]
    exact ⟨ih.1.apply hallows, hstep ih.1 ih.2 hallows hC⟩

/-- A change leaves the snapshots of the transactions alone. -/
theorem Dml.snapshot (h : Dml tx logged ch db db') (id : TransactionId) :
    (db'.activeTransactions.lookup id).map toSnapshot =
      (db.activeTransactions.lookup id).map toSnapshot := by
  cases h with
  | grow => rfl
  | deleteFailed => rfl
  | updateFailed => rfl
  | append => exact snapshot_pushUndo _ _ id
  | delete => exact snapshot_pushUndo _ _ id
  | update => exact snapshot_pushUndo _ _ id

/-- The changes of a statement are steps of a run; all are recorded if it returns. -/
theorem steps_of_effect {k : ChangeKind} {ok : Bool}
    (htx : (db.activeTransactions.lookup tx.txId).map toSnapshot = some tx)
    (h : Effect tx k db ok db') :
    ReflTransGen (fun db db' => ∃ logged ch, (ok = true → logged = true) ∧ ch.kind = k ∧
      Step db (.dml tx.txId logged ch) db') db db' := by
  have hdml : ∀ {db₁ db₂ : Database} {logged : Bool} {ch : Change},
      (db₁.activeTransactions.lookup tx.txId).map toSnapshot = some tx →
      Dml tx logged ch db₁ db₂ → Step db₁ (.dml tx.txId logged ch) db₂ := by
    intro db₁ db₂ logged ch htx hch
    obtain ⟨t, ht, rfl⟩ := map_eq_some_iff.mp htx
    exact .dml ht hch
  have hlogged : ∀ {db₁ : Database}, ReflTransGen (Logged tx k) db db₁ →
      ReflTransGen (fun db db' => ∃ logged ch, (ok = true → logged = true) ∧ ch.kind = k ∧
        Step db (.dml tx.txId logged ch) db') db db₁ ∧
        (db₁.activeTransactions.lookup tx.txId).map toSnapshot = some tx := by
    intro db₁ h₁
    induction h₁ with
    | refl => exact ⟨.refl, htx⟩
    | tail _ hlast ih =>
      obtain ⟨ch, hk, hch⟩ := hlast
      exact ⟨ih.1.tail ⟨true, ch, fun _ => rfl, hk, hdml ih.2 hch⟩, (hch.snapshot _).trans ih.2⟩
  obtain ⟨mid, hmid, rfl | ⟨hfalse, ch, hk, hlast⟩⟩ := h
  · exact (hlogged hmid).1
  · exact (hlogged hmid).1.tail
      ⟨false, ch, fun hok => absurd (hok.symm.trans hfalse) (by decide), hk,
        hdml (hlogged hmid).2 hlast⟩

end Runs

end Database

end CppColDB
