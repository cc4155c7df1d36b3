import CppColDB.Transaction.Session

/-!
# Commit, step by step

`Commit` writes the log, takes its timestamp and then stamps the markers of its undo buffer one
after the other. A transaction may begin and read between any two of these steps. One that
begins when the timestamp is taken has a snapshot that contains the commit, and it sees the
rows whose markers are stamped already.
-/

namespace CppColDB

open GroupChange List Option RowGroup

/-- A marker that a commit stamps: its row, and whether it is stamped as that of an insert. -/
structure MarkerRef where
  table : TableRef
  group : ℕ
  offset : ℕ
  inserted : Bool
  deriving DecidableEq, Repr

namespace VersionInfo

/-- Stamp one marker. -/
def stampRef (ct : Timestamp) (vi : VersionInfo) (m : MarkerRef) : VersionInfo :=
  if m.inserted then vi.commitInsert m.offset ct else vi.stamp m.offset ct

end VersionInfo

namespace Catalog

def stampMarker (ct : Timestamp) (c : Catalog) (m : MarkerRef) : Catalog :=
  c.modifyVersionInfo m.table m.group fun vi => vi.stampRef ct m

/-- The markers that `ApplyUndoBuffer` stamps for an entry, in its order. -/
def entryMarkers (c : Catalog) (tx : Snapshot) : UndoEntry → List MarkerRef
  | .insert e =>
    match c.getTable e.schema e.table tx with
    | none => []
    | some r =>
      match c.rowGroup? r e.rowGroupId with
      | none => []
      | some rg => rg.pendingRows.map fun off =>
        { table := r, group := e.rowGroupId, offset := off, inserted := true }
  | .delete { schema, table, rowIds } | .update { schema, table, rowIds, .. } =>
    match c.getTable schema table tx with
    | none => []
    | some r => rowIds.map fun row =>
      { table := r, group := row.group, offset := row.offset, inserted := false }
  | .catalog _ | .alterPartition _ => []

def markers (c : Catalog) (tx : Transaction) : List MarkerRef :=
  tx.undoBuffer.flatMap (c.entryMarkers tx.toSnapshot)

/-! ## The steps make up the commit -/

variable {c : Catalog} {tx : Transaction} {ct : Timestamp} {r : TableRef} {g : ℕ}

theorem sameStamps_foldl_stampMarker (ms : List MarkerRef) :
    (ms.foldl (stampMarker ct) c).SameStamps c := by
  induction ms generalizing c with
  | nil => exact fun _ _ => rfl
  | cons m ms ih => exact ih.trans (sameStamps_modifyRowGroup m.table m.group _)

/-- What the steps do to a row group. -/
theorem rowGroup?_foldl_stampMarker (ms : List MarkerRef) :
    (ms.foldl (stampMarker ct) c).rowGroup? r g = (c.rowGroup? r g).map
      (mapVersionInfo fun vi =>
        (ms.filter fun m => m.table = r ∧ m.group = g).foldl (VersionInfo.stampRef ct) vi) := by
  induction ms generalizing c with
  | nil =>
    have hid : mapVersionInfo (fun vi => vi) = id := rfl
    simp [hid]
  | cons m ms ih =>
    rw [foldl_cons, ih, stampMarker, modifyVersionInfo, rowGroup?_modifyRowGroup]
    by_cases hm : m.table = r ∧ m.group = g
    · obtain ⟨rfl, rfl⟩ := hm
      simp only [and_self, if_true, Option.map_map, decide_true, filter_cons_of_pos]
      rfl
    · have hne : ¬ (r = m.table ∧ g = m.group) := fun h => hm ⟨h.1.symm, h.2.symm⟩
      rw [if_neg hne, filter_cons_of_neg (by simpa using hm)]

theorem entryMarkers_foldl_stampMarker (ms : List MarkerRef) (tx : Snapshot) :
    (ms.foldl (stampMarker ct) c).entryMarkers tx = c.entryMarkers tx := by
  funext e
  have hget := (@sameStamps_foldl_stampMarker c ct ms).getTable
  cases e with
  | insert e =>
    simp only [entryMarkers, hget, rowGroup?_foldl_stampMarker]
    cases c.getTable e.schema e.table tx with
    | none => rfl
    | some r =>
      cases hrg : c.rowGroup? r e.rowGroupId with
      | none => simp [hrg]
      | some rg => simp [hrg, mapVersionInfo, pendingRows]
  | delete e => simp only [entryMarkers, hget]
  | update e => simp only [entryMarkers, hget]
  | catalog e => rfl
  | alterPartition e => rfl

theorem foldl_stampMarker_rows (c : Catalog) (r : TableRef) (rowIds : List RowId) :
    (rowIds.map fun row => ({ table := r, group := row.group, offset := row.offset
                              inserted := false } : MarkerRef)).foldl (stampMarker ct) c =
      c.forRows r rowIds fun off vi => vi.stamp off ct := by
  rw [foldl_map]
  rfl

theorem foldl_stampMarker_append (c : Catalog) {rg : RowGroup} (h : c.rowGroup? r g = some rg) :
    (rg.pendingRows.map fun off => ({ table := r, group := g, offset := off
                                      inserted := true } : MarkerRef)).foldl (stampMarker ct) c =
      c.modifyRowGroup r g fun rg => rg.commitAppend ct := by
  have hfold : ∀ offs : List ℕ, (offs.map fun off => (⟨r, g, off, true⟩ : MarkerRef)).foldl
          (stampMarker ct) c =
        c.modifyRowGroup r g (mapVersionInfo fun vi =>
          offs.foldl (fun vi i => vi.commitInsert i ct) vi) := by
    intro offs
    induction offs using reverseRecOn with
    | nil => exact (modifyRowGroup_eq_self fun _ _ => rfl).symm
    | append_singleton offs off ih =>
      rw [map_append, foldl_append, ih]
      simp only [map_cons, map_nil, foldl_cons, foldl_nil, stampMarker,
        modifyVersionInfo, modifyRowGroup_modifyRowGroup]
      congr 1
      funext rg
      simp [mapVersionInfo, VersionInfo.stampRef]
  rw [hfold]
  exact modifyRowGroup_congr fun rg' hrg' => by
    cases h.symm.trans hrg'
    rfl

theorem applyUndoEntry_eq {e : UndoEntry} (he : e.Undoable) : c.applyUndoEntry tx e =
      (c.entryMarkers tx.toSnapshot e).foldl (stampMarker tx.commitTime) c := by
  cases e with
  | catalog e => exact he.elim
  | alterPartition e => exact he.elim
  | insert e =>
    simp only [applyUndoEntry, entryMarkers]
    cases c.getTable e.schema e.table tx.toSnapshot with
    | none => rfl
    | some r =>
      cases hrg : c.rowGroup? r e.rowGroupId with
      | none =>
        simp only [hrg]
        exact modifyRowGroup_eq_self fun rg h => absurd (hrg.symm.trans h) (by simp)
      | some rg => simp only [hrg, foldl_stampMarker_append c hrg]
  | delete e | update e =>
    simp only [applyUndoEntry, entryMarkers]
    cases c.getTable e.schema e.table tx.toSnapshot with
    | none => rfl
    | some r => exact (foldl_stampMarker_rows c r e.rowIds).symm

/-- **The steps make up `ApplyUndoBuffer`**: which markers are stamped, and in which order, is
settled when it starts. -/
theorem applyUndoBuffer_eq (he : ∀ e ∈ tx.undoBuffer, e.Undoable) :
    c.applyUndoBuffer tx = (c.markers tx).foldl (stampMarker tx.commitTime) c := by
  rw [applyUndoBuffer, markers]
  revert he
  generalize tx.undoBuffer = entries
  intro he
  induction entries generalizing c with
  | nil => rfl
  | cons e es ih =>
    rw [foldl_cons, ih fun e' he' => he e' (mem_cons_of_mem _ he'),
      applyUndoEntry_eq (he e mem_cons_self), entryMarkers_foldl_stampMarker,
      flatMap_cons, foldl_append]

end Catalog

theorem VersionInfo.marker?_foldl_stampRef (ct : Timestamp) (vi : VersionInfo)
    (ms : List MarkerRef) (o : ℕ) :
    (ms.foldl (VersionInfo.stampRef ct) vi).marker? o =
      if ∃ m ∈ ms, m.offset = o then (vi.marker? o).map ({ · with commitTime := ct })
      else vi.marker? o := by
  have hone : ∀ (vi : VersionInfo) (m : MarkerRef), (vi.stampRef ct m).marker? o =
      if m.offset = o then (vi.marker? o).map ({ · with commitTime := ct })
      else vi.marker? o := by
    intro vi m
    rw [VersionInfo.stampRef]
    by_cases hm : m.offset = o
    · subst hm
      split
      · rw [VersionInfo.marker?_commitInsert]
      · rw [VersionInfo.marker?_stamp]
    · split
      · rw [VersionInfo.marker?_commitInsert, if_neg (Ne.symm hm)]
      · rw [VersionInfo.marker?_stamp, if_neg (Ne.symm hm)]
  induction ms generalizing vi with
  | nil => simp
  | cons m ms ih =>
    rw [foldl_cons, ih, hone]
    by_cases hm : m.offset = o
    · by_cases hms : ∃ m' ∈ ms, m'.offset = o
      · simp [hm, Function.comp_def]
      · simp [hms]
    · simp [hm]

/-! ## The rows of a transaction that is alone -/

/-- The steps of a transaction that nobody disturbs: others may begin. -/
def GroupAct.Of (id : TransactionId) (_ : GroupView) : GroupAct → Prop
  | .idle | .start => True
  | .change id' _ => id' = id
  | .abandoned _ _ | .commit _ | .rollback _ => False

namespace GroupView

variable {v : GroupView} {id : TransactionId}

def insertedBy (v : GroupView) (id : TransactionId) : List ℕ :=
  (v.changes id).flatMap insertedRows

def deletedBy (v : GroupView) (id : TransactionId) : List ℕ :=
  (v.changes id).flatMap deletedRows

/-- The rows that a transaction has inserted or deleted carry its markers. -/
structure Owned (v : GroupView) (id : TransactionId) : Prop where
  deleted : ∀ o ∈ v.deletedBy id, o < v.versions.rowCount ∧
    v.versions.info.marker? o = some { type := .delete, txId := id }
  inserted : ∀ o ∈ v.insertedBy id, o < v.versions.rowCount ∧
    (o ∉ v.deletedBy id → ∃ type ≠ .delete, v.versions.info.marker? o = some { type, txId := id })

theorem Owned.change (hwf : v.WellFormed) (h : v.Owned id) {tx : Snapshot} {ch : GroupChange}
    (htx : v.active id = some tx) (hch : ch.Possible v.versions tx) :
    (v.apply (.change id ch)).Owned id := by
  have hchanges : (v.apply (.change id ch)).changes id = v.changes id ++ [ch] := by
    simp [GroupView.apply]
  have hins : (v.apply (.change id ch)).insertedBy id = v.insertedBy id ++ ch.insertedRows := by
    rw [insertedBy, hchanges]
    simp [insertedBy]
  have hdel : (v.apply (.change id ch)).deletedBy id = v.deletedBy id ++ ch.deletedRows := by
    rw [deletedBy, hchanges]
    simp [deletedBy]
  cases ch with
  | append start count =>
    obtain rfl : start = v.versions.rowCount := hch
    have hmarker := hwf.marker?_append htx v.versions.rowCount count
    have hcount : (v.apply (.change id (.append v.versions.rowCount count))).versions.rowCount =
        v.versions.rowCount + count := rfl
    constructor
    · intro o ho
      rw [hdel, deletedRows, append_nil] at ho
      obtain ⟨hlt, hm⟩ := h.deleted o ho
      rw [hmarker, if_neg (by simp; omega)]
      exact ⟨by omega, hm⟩
    · intro o ho
      rw [hins, mem_append] at ho
      rw [hdel, deletedRows, append_nil, hmarker]
      rcases ho with ho | ho
      · obtain ⟨hlt, hm⟩ := h.inserted o ho
        rw [if_neg (by simp; omega)]
        exact ⟨by omega, hm⟩
      · have hlt := (mem_range'_1.mp ho).2
        exact ⟨hlt, fun _ => ⟨.insert, by decide, if_pos ho⟩⟩
  | delete offsets =>
    have hcount : (v.apply (.change id (.delete offsets))).versions.rowCount =
        v.versions.rowCount := rfl
    constructor
    · intro o ho
      rw [marker?_delete]
      rw [hdel, mem_append] at ho
      by_cases hoff : o ∈ offsets
      · exact ⟨(hch.2 o hoff).1, if_pos hoff⟩
      · rw [if_neg hoff]
        exact h.deleted o (ho.resolve_right hoff)
    · intro o ho
      rw [hins, insertedRows, append_nil] at ho
      obtain ⟨hlt, hm⟩ := h.inserted o ho
      refine ⟨hlt, fun hnot => ?_⟩
      rw [hdel, mem_append, not_or] at hnot
      have hoff : o ∉ offsets := hnot.2
      rw [marker?_delete, if_neg hoff]
      exact hm hnot.1
  | update offsets =>
    have hmarker : ∀ o, (v.apply (.change id (.update offsets))).versions.info.marker? o =
        if o ∈ offsets then some { type := .update, txId := id }
        else v.versions.info.marker? o :=
      fun o => VersionInfo.marker?_foldl_mark .update id _ _ o
    constructor
    · intro o ho
      rw [hdel, deletedRows, append_nil] at ho
      obtain ⟨hlt, hm⟩ := h.deleted o ho
      -- the transaction does not see what it has deleted
      have hoff : o ∉ offsets := by
        intro hoff
        have hvis := (hch.2 o hoff).2
        rw [VersionInfo.isVisible, hm] at hvis
        simp [hwf.txId_eq htx] at hvis
      rw [hmarker, if_neg hoff]
      exact ⟨hlt, hm⟩
    · intro o ho
      rw [hins, insertedRows, append_nil] at ho
      obtain ⟨hlt, hm⟩ := h.inserted o ho
      rw [hdel, deletedRows, append_nil, hmarker]
      refine ⟨hlt, fun hnot => ?_⟩
      split
      · exact ⟨.update, by decide, rfl⟩
      · exact hm hnot

theorem Owned.apply (hwf : v.WellFormed) (h : v.Owned id) {a : GroupAct} (ha : v.Allows a)
    (hof : a.Of id v) : (v.apply a).Owned id := by
  cases a with
  | idle => exact h
  | abandoned _ _ => exact hof.elim
  | commit _ => exact hof.elim
  | rollback _ => exact hof.elim
  | change id' ch =>
    obtain rfl : id' = id := hof
    obtain ⟨tx, htx, hch⟩ := ha
    exact h.change hwf htx hch
  | start =>
    by_cases hid : id = v.nextTxId
    · subst hid
      have hnil : (v.apply .start).changes v.nextTxId = [] := by simp [GroupView.apply]
      constructor <;> simp [insertedBy, deletedBy, hnil]
    · have hsame : (v.apply .start).changes id = v.changes id := by
        simp [GroupView.apply, Function.update_of_ne hid]
      have hins : (v.apply .start).insertedBy id = v.insertedBy id := by
        rw [insertedBy, hsame, insertedBy]
      have hdel : (v.apply .start).deletedBy id = v.deletedBy id := by
        rw [deletedBy, hsame, deletedBy]
      constructor
      · rw [hdel]
        exact h.deleted
      · rw [hins, hdel]
        exact h.inserted

end GroupView

/-! ## Readers -/

namespace Database

variable {db db₀ : Database} {tx : Transaction} {log : TxLog} {id : TransactionId} {r : TableRef}
  {g off : ℕ}

/-- The catalog when a commit has taken its timestamp and stamped its first `k` markers. -/
def duringCommit (db : Database) (tx : Transaction) (k : ℕ) : Catalog :=
  ((db.catalog.markers tx).take k).foldl (Catalog.stampMarker (db.commitCounter + 1)) db.catalog

/-- When all are stamped, this is the catalog after the commit. -/
theorem duringCommit_length (he : ∀ e ∈ tx.undoBuffer, e.Undoable) :
    db.duringCommit tx (db.catalog.markers tx).length = (db.publish tx).catalog := by
  have hcatalog : (db.publish tx).catalog =
      db.catalog.applyUndoBuffer { tx with commitTime := db.commitCounter + 1 } := rfl
  have hsteps := @Catalog.applyUndoBuffer_eq db.catalog
    { tx with commitTime := db.commitCounter + 1 } he
  rw [hcatalog, hsteps, duringCommit, take_length]
  rfl

/-- Transaction 2 inserts a row, and deletes it and that of transaction 1. -/
theorem duringCommit_delete : ∃ (db : Database) (tx : Transaction),
    db.activeTransactions.lookup 2 = some tx ∧
    (db.catalog.markers tx).map (fun m => (m.offset, m.inserted)) =
      [(1, true), (0, false), (1, false)] ∧
    db.duringCommit tx (db.catalog.markers tx).length = (db.publish tx).catalog := by
  obtain ⟨db, -, hf⟩ := exists_of_after (show after [.begin, .statement 1 (insertInt 7), .commit 1,
      .begin, .statement 2 (insertInt 8), .statement 2 deleteAll] (fun db => do
        let tx ← db.activeTransactions.lookup 2
        pure ((db.catalog.markers tx).map fun m => (m.offset, m.inserted),
          decide (∀ e ∈ tx.undoBuffer, e.Undoable))) =
      some ([(1, true), (0, false), (1, false)], true) by decide +kernel)
  simp only [Option.bind_eq_bind, Option.bind_eq_some_iff, Option.pure_def, Option.some.injEq,
    Prod.mk.injEq, decide_eq_true_eq] at hf
  obtain ⟨tx, htx, hmarkers, hundo⟩ := hf
  exact ⟨db, tx, htx, hmarkers, duringCommit_length hundo⟩

/-- A transaction that begins during the commit: before the timestamp is taken, or after it when
some markers are stamped. -/
def reader (db : Database) (begun : Option ℕ) : Snapshot where
  txId := db.nextTxId
  startTime := match begun with
    | none => db.commitCounter + 1
    | some _ => db.commitCounter + 1 + 1

/-- With `k` markers stamped the reader sees all that `tx` has inserted and not deleted, and
nothing that it has deleted. -/
def SeesAll (db : Database) (tx : Transaction) (begun : Option ℕ) (k : ℕ) : Prop :=
  ∀ {r g rg}, (db.duringCommit tx k).rowGroup? r g = some rg → ∀ off,
    (off ∈ (db.catalog.changesAt tx r g).flatMap insertedRows →
      off ∉ (db.catalog.changesAt tx r g).flatMap deletedRows →
        rg.versionInfo.isVisible off (db.reader begun) = true) ∧
    (off ∈ (db.catalog.changesAt tx r g).flatMap deletedRows →
      rg.versionInfo.isVisible off (db.reader begun) = false)

/-- The reader sees nothing that `tx` has inserted, and all that was there and it has deleted. -/
def SeesNone (db : Database) (tx : Transaction) (begun : Option ℕ) (k : ℕ) : Prop :=
  ∀ {r g rg}, (db.duringCommit tx k).rowGroup? r g = some rg → ∀ off,
    (off ∈ (db.catalog.changesAt tx r g).flatMap insertedRows →
      rg.versionInfo.isVisible off (db.reader begun) = false) ∧
    (off ∈ (db.catalog.changesAt tx r g).flatMap deletedRows →
      off ∉ (db.catalog.changesAt tx r g).flatMap insertedRows →
        rg.versionInfo.isVisible off (db.reader begun) = true)

/-- All reads give the same answer: the whole transaction, or nothing of it. -/
def ReadsAtomically (db : Database) (tx : Transaction) (begun : Option ℕ) (reads : List ℕ) : Prop :=
  (∀ k ∈ reads, db.SeesAll tx begun k) ∨ ∀ k ∈ reads, db.SeesNone tx begun k

/-- The reader has begun after the timestamp was taken, and the marker of the row is among the
`k` that are stamped. -/
def Published (db : Database) (tx : Transaction) (begun : Option ℕ) (k : ℕ) (r : TableRef) (g : ℕ)
    (off : ℕ) : Prop :=
  begun.isSome ∧ ∃ m ∈ (db.catalog.markers tx).take k, m.table = r ∧ m.group = g ∧ m.offset = off

/-- A row with a marker of the committing transaction. -/
theorem isVisible_duringCommit {rg : RowGroup} {k : ℕ} {type : VersionMarkerType}
    {begun : Option ℕ} (hid : id ≠ db.nextTxId) (hnow : 0 ≤ db.commitCounter)
    (hm : (db.view log r g).versions.info.marker? off = some { type, txId := id })
    (hrg : (db.duringCommit tx k).rowGroup? r g = some rg) :
    rg.versionInfo.isVisible off (db.reader begun) = true ↔
      (type = .delete ↔ ¬ db.Published tx begun k r g off) := by
  have hne : id ≠ (db.reader begun).txId := hid
  have hct := next_ne_invalid hnow
  rw [duringCommit, Catalog.rowGroup?_foldl_stampMarker] at hrg
  obtain ⟨rg₀, hrg₀, rfl⟩ := map_eq_some_iff.mp hrg
  have hm₀ : rg₀.versionInfo.marker? off = some { type, txId := id } := by
    simpa [view, Catalog.groupVersions?, hrg₀, versions] using hm
  have hstamped : (∃ m ∈ ((db.catalog.markers tx).take k).filter
      (fun m => m.table = r ∧ m.group = g), m.offset = off) ↔
      ∃ m ∈ (db.catalog.markers tx).take k, m.table = r ∧ m.group = g ∧ m.offset = off := by
    simp [and_assoc]
  have hmarker := VersionInfo.marker?_foldl_stampRef (db.commitCounter + 1) rg₀.versionInfo
    (((db.catalog.markers tx).take k).filter fun m => m.table = r ∧ m.group = g) off
  simp only [hstamped, hm₀] at hmarker
  by_cases hs : ∃ m ∈ (db.catalog.markers tx).take k, m.table = r ∧ m.group = g ∧ m.offset = off
  · rw [if_pos hs] at hmarker
    have hpub : db.Published tx begun k r g off ↔ begun.isSome := and_iff_left hs
    rw [hpub]
    simp only [mapVersionInfo, VersionInfo.isVisible, hmarker]
    cases begun <;> cases type <;> simp [reader, hid, hct]
  · rw [if_neg hs] at hmarker
    have hpub : ¬ db.Published tx begun k r g off := fun h => hs h.2
    simp only [mapVersionInfo, VersionInfo.isVisible, hmarker]
    cases type <;> simp [hpub, hne]

/-- What a reader sees of the rows of a transaction that is alone. -/
structure Shows (db : Database) (tx : Transaction) (begun : Option ℕ) (k : ℕ) (r : TableRef) (g : ℕ)
    (off : ℕ) : Prop where
  exists_rowGroup : ∃ rg, (db.duringCommit tx k).rowGroup? r g = some rg
  inserted : off ∉ (db.catalog.changesAt tx r g).flatMap deletedRows →
    ∀ {rg}, (db.duringCommit tx k).rowGroup? r g = some rg →
      (rg.versionInfo.isVisible off (db.reader begun) = true ↔ db.Published tx begun k r g off)
  deleted : off ∈ (db.catalog.changesAt tx r g).flatMap deletedRows →
    ∀ {rg}, (db.duringCommit tx k).rowGroup? r g = some rg →
      (rg.versionInfo.isVisible off (db.reader begun) = true ↔ ¬ db.Published tx begun k r g off)

theorem Run.shows (h₀ : db₀.Idle) (h : Run (GroupAct.Of id) db₀ db log)
    (htx : db.activeTransactions.lookup id = some tx) (begun : Option ℕ) (k : ℕ)
    (hoff : off ∈ (db.catalog.changesAt tx r g).flatMap insertedRows ∨
      off ∈ (db.catalog.changesAt tx r g).flatMap deletedRows) :
    db.Shows tx begun k r g off := by
  have hinv : (db.view log r g).WellFormed ∧ (db.view log r g).Owned id := by
    refine h.invariant h₀ ?_ fun hwf hI ha hof => GroupView.Owned.apply hwf hI ha hof
    have hnil : (db₀.view [] r g).changes id = [] :=
      (h₀.view r g).1.changes_eq_nil ((h₀.view r g).2 id)
    constructor <;> simp [GroupView.insertedBy, GroupView.deletedBy, hnil]
  obtain ⟨hwf, howned⟩ := hinv
  have hid : id ≠ db.nextTxId := (hwf.txId_lt (active_view htx)).ne
  have hchanges : (db.view log r g).changes id = _ := changes_view htx
  rw [← hchanges] at hoff
  constructor
  · have hlt :=
      hoff.elim (fun hins => (howned.inserted off hins).1) fun hdel => (howned.deleted off hdel).1
    cases hrg : db.catalog.rowGroup? r g with
    | none => simp [view, Catalog.groupVersions?, hrg] at hlt
    | some rg =>
      rw [duringCommit, Catalog.rowGroup?_foldl_stampMarker, hrg]
      exact ⟨_, rfl⟩
  · intro hdel rg hrg
    rw [← hchanges] at hdel
    obtain ⟨type, htype, hm⟩ := (howned.inserted off (hoff.resolve_right hdel)).2 hdel
    rw [isVisible_duringCommit hid hwf.commitCounter_nonneg hm hrg]
    simp [htype]
  · intro hdel rg hrg
    rw [← hchanges] at hdel
    rw [isVisible_duringCommit hid hwf.commitCounter_nonneg (howned.deleted off hdel).2 hrg]
    simp

/-- **A commit is atomic for a reader** exactly where at each read the markers of all rows of the
transaction are stamped, in the reader's snapshot, or at each read none is. A row that the
transaction has both inserted and deleted is shown until its marker is stamped. -/
theorem readsAtomically_iff (h₀ : db₀.Idle) (h : Run (GroupAct.Of id) db₀ db log)
    (htx : db.activeTransactions.lookup id = some tx) (begun : Option ℕ) (reads : List ℕ) :
    db.ReadsAtomically tx begun reads ↔ (∀ k ∈ reads, ∀ {r g off},
        off ∈ (db.catalog.changesAt tx r g).flatMap insertedRows ∨
          off ∈ (db.catalog.changesAt tx r g).flatMap deletedRows →
        db.Published tx begun k r g off) ∨
      (∀ k ∈ reads, ∀ {r g off}, off ∈ (db.catalog.changesAt tx r g).flatMap insertedRows ∨
          off ∈ (db.catalog.changesAt tx r g).flatMap deletedRows →
        (db.Published tx begun k r g off ↔
          off ∈ (db.catalog.changesAt tx r g).flatMap insertedRows ∧
            off ∈ (db.catalog.changesAt tx r g).flatMap deletedRows)) := by
  refine or_congr (forall₂_congr fun k _ => ?_) (forall₂_congr fun k _ => ?_)
  · constructor
    · intro hall r g off hoff
      obtain ⟨⟨rg, hrg⟩, hins, hdel⟩ := h.shows h₀ htx begun k hoff
      by_cases hd : off ∈ (db.catalog.changesAt tx r g).flatMap deletedRows
      · have hvis := (hall hrg off).2 hd
        by_contra hpub
        exact absurd ((hdel hd hrg).mpr hpub) (by simp [hvis])
      · exact (hins hd hrg).mp ((hall hrg off).1 (hoff.resolve_right hd) hd)
    · intro hpub r g rg hrg off
      refine ⟨fun hi hd => ?_, fun hd => ?_⟩
      · exact ((h.shows h₀ htx begun k (.inl hi)).inserted hd hrg).mpr (hpub (.inl hi))
      · rw [← Bool.not_eq_true]
        exact fun hvis =>
          ((h.shows h₀ htx begun k (.inr hd)).deleted hd hrg).mp hvis (hpub (.inr hd))
  · constructor
    · intro hnone r g off hoff
      obtain ⟨⟨rg, hrg⟩, hins, hdel⟩ := h.shows h₀ htx begun k hoff
      by_cases hd : off ∈ (db.catalog.changesAt tx r g).flatMap deletedRows
      · by_cases hi : off ∈ (db.catalog.changesAt tx r g).flatMap insertedRows
        · have hvis := (hnone hrg off).1 hi
          refine iff_of_true ?_ ⟨hi, hd⟩
          by_contra hpub
          exact absurd ((hdel hd hrg).mpr hpub) (by simp [hvis])
        · exact iff_of_false ((hdel hd hrg).mp ((hnone hrg off).2 hd hi)) fun h => hi h.1
      · have hi := hoff.resolve_right hd
        have hvis := (hnone hrg off).1 hi
        refine iff_of_false (fun hpub => ?_) fun h => hd h.2
        exact absurd ((hins hd hrg).mpr hpub) (by simp [hvis])
    · intro hpub r g rg hrg off
      refine ⟨fun hi => ?_, fun hd hi => ?_⟩
      · have hshows := h.shows h₀ htx begun k (.inl hi)
        rw [← Bool.not_eq_true]
        by_cases hd : off ∈ (db.catalog.changesAt tx r g).flatMap deletedRows
        · exact fun hvis => (hshows.deleted hd hrg).mp hvis ((hpub (.inl hi)).mpr ⟨hi, hd⟩)
        · exact fun hvis => hd ((hpub (.inl hi)).mp ((hshows.inserted hd hrg).mp hvis)).2
      · exact ((h.shows h₀ htx begun k (.inr hd)).deleted hd hrg).mpr fun hp =>
          hi ((hpub (.inr hd)).mp hp).1

/-! ## Two rows -/

theorem Run.own_statement {P : Platform} {db' : Database} {stmt : Statement} (h₀ : db₀.Idle)
    (hrun : Run (GroupAct.Of id) db₀ db log)
    (h : (Command.statement id stmt).run P db = some (.ok (), db')) :
    Run (GroupAct.Of id) db₀ db' log := by
  obtain ⟨tx, htx, hcall⟩ := transaction_run h
  obtain rfl := hrun.txId_eq h₀ htx
  have hsteps := steps_of_effect (by rw [htx]; rfl) (Statement.effect_run hcall)
  clear h hcall
  induction hsteps with
  | refl => exact hrun
  | tail _ hlast ih =>
    obtain ⟨logged, ch, hlogged, _, hstep⟩ := hlast
    obtain rfl := hlogged rfl
    refine ih.step hstep fun r g => ?_
    simp only [Act.at]
    split
    · exact ⟨_, rfl, trivial⟩
    · exact ⟨_, rfl, rfl⟩

/-- `INSERT INTO t VALUES (7), (8)`. -/
def insertTwo : Statement :=
  .insert Catalog.defaultSchema (text "t") [0]
    { columns := [{ type := .int64, count := 2, intData := [7, 8], validity := 3 }], count := 2 }

/-- A transaction that has inserted two rows. -/
theorem exists_insertTwo : ∃ db log tx e rg, Run (GroupAct.Of 1) emptyTable db log ∧
    db.activeTransactions.lookup 1 = some tx ∧ tx.onlyInsert? = some e ∧
      db.catalog.resolve tx.toSnapshot e.schema e.table = some tableT ∧
      (e.rowGroupId, e.appendStart, e.appendCount) = (0, 0, 2) ∧
      (db.duringCommit tx 1).rowGroup? tableT 0 = some rg ∧
      rg.versionInfo.isVisible 0 (db.reader (some 1)) = true ∧
      rg.versionInfo.isVisible 1 (db.reader (some 1)) = false := by
  obtain ⟨db, hrun, hf⟩ := exists_of_after (show after [.begin, .statement 1 insertTwo]
    (fun db => do
      let tx ← db.activeTransactions.lookup 1
      let e ← tx.onlyInsert?
      let r ← db.catalog.resolve tx.toSnapshot e.schema e.table
      let rg ← (db.duringCommit tx 1).rowGroup? tableT 0
      pure (r, (e.rowGroupId, e.appendStart, e.appendCount),
        rg.versionInfo.isVisible 0 (db.reader (some 1)),
        rg.versionInfo.isVisible 1 (db.reader (some 1)))) =
      some (tableT, (0, 0, 2), true, false) by decide +kernel)
  obtain ⟨db₁, hbegin, hrest⟩ := runAll_append.mp
    (show Command.runAll .plain ([.begin] ++ [.statement 1 insertTwo]) emptyTable = _ from hrun)
  obtain ⟨_, db₂, hstmt, hnil⟩ := Imp.bind_run_eq_ok_iff.mp hrest
  cases hbegin
  cases hnil
  have hstart : Run (GroupAct.Of 1) emptyTable (emptyTable.beginTransaction false) _ :=
    .step .refl (.begin false) fun r g => ⟨_, rfl, trivial⟩
  simp only [Option.bind_eq_bind, Option.bind_eq_some_iff, Option.pure_def, Option.some.injEq,
    Prod.mk.injEq] at hf
  obtain ⟨tx, htx, e, he, r, hr, rg, hrg, rfl, hentry, h₀, h₁⟩ := hf
  exact ⟨db, _, tx, e, rg, hstart.own_statement quiet_emptyTable.idle hstmt, htx, he, hr,
    by simp [hentry], hrg, h₀, h₁⟩

/-- One that begins before the timestamp sees nothing of it, however often it reads. -/
theorem early_reader_reads_atomically : ∃ db log tx, Run (GroupAct.Of 1) emptyTable db log ∧
    db.activeTransactions.lookup 1 = some tx ∧ db.ReadsAtomically tx none [0, 1, 2] := by
  obtain ⟨db, log, tx, e, rg, hrun, htx, he, hr, -, -, -, -⟩ := exists_insertTwo
  refine ⟨db, log, tx, hrun, htx,
    (readsAtomically_iff quiet_emptyTable.idle hrun htx none [0, 1, 2]).mpr (.inr ?_)⟩
  intro k _ r g off _
  refine iff_of_false (fun hpub => absurd hpub.1 (by simp)) fun hboth => ?_
  have hdel := hboth.2
  rw [Catalog.changesAt_of_onlyInsert? he hr] at hdel
  split at hdel <;> simp [deletedRows] at hdel

/-- One that begins when the timestamp is taken and the first marker is stamped sees the first
row only. -/
theorem late_reader_sees_one_of_two : ∃ db log tx, Run (GroupAct.Of 1) emptyTable db log ∧
    db.activeTransactions.lookup 1 = some tx ∧ ¬ db.ReadsAtomically tx (some 1) [1] := by
  obtain ⟨db, log, tx, e, rg, hrun, htx, he, hr, hentry, hrg, hvis₀, hvis₁⟩ := exists_insertTwo
  simp only [Prod.mk.injEq] at hentry
  have hchanges : db.catalog.changesAt tx tableT 0 = [.append 0 2] := by
    rw [Catalog.changesAt_of_onlyInsert? he hr, if_pos ⟨rfl, hentry.1⟩, hentry.2.1, hentry.2.2]
  refine ⟨db, log, tx, hrun, htx, ?_⟩
  rintro (hall | hnone)
  · have hvis := (hall 1 (by simp) hrg 1).1 (by simp [hchanges, insertedRows])
      (by simp [hchanges, deletedRows])
    exact absurd (hvis.symm.trans hvis₁) (by decide)
  · have hvis := (hnone 1 (by simp) hrg 0).1 (by simp [hchanges, insertedRows])
    exact absurd (hvis.symm.trans hvis₀) (by decide)

end Database

end CppColDB
