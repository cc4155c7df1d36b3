import CppColDB.Transaction.Manager

/-!
# What a transaction's end does to one row group

`GroupVersions` is the part of a row group that decides visibility. The undo entries of a
transaction that touch a row group are its `GroupChange`s there, and `Commit` and
`Rollback` act on the row group as the commits and reverts of those changes, in their
order and in the reverse order. A commit does not change which tables its transaction
sees, so the changes can be read off before it starts.
-/

namespace CppColDB

open ByteCodec Function Imp List Option TableCatalogEntry UndoEntry VersionInfo

structure GroupVersions where
  rowCount : ℕ := 0
  pendingAppendStart : ℕ := 0
  info : VersionInfo := {}

/-- A change of one transaction to one row group. -/
inductive GroupChange where
  | append (start count : ℕ)
  | delete (offsets : List ℕ)
  | update (offsets : List ℕ)
  deriving DecidableEq, Repr

namespace GroupChange

/-- The rows an append adds. -/
def insertedRows : GroupChange → List ℕ
  | .append start count => range' start count
  | .delete _ | .update _ => []

def deletedRows : GroupChange → List ℕ
  | .delete offsets => offsets
  | .append _ _ | .update _ => []

def updatedRows : GroupChange → List ℕ
  | .update offsets => offsets
  | .append _ _ | .delete _ => []

/-- The range of an append. -/
def append? : GroupChange → Option (ℕ × ℕ)
  | .append start count => some (start, count)
  | .delete _ | .update _ => none

end GroupChange

namespace GroupVersions

/-- The rows of the latest append. -/
def pendingRows (gv : GroupVersions) : List ℕ :=
  range' gv.pendingAppendStart (gv.rowCount - gv.pendingAppendStart)

def append (gv : GroupVersions) (txId : TransactionId) (count : ℕ) : GroupVersions where
  rowCount := gv.rowCount + count
  pendingAppendStart := gv.rowCount
  info := if txId = invalidTransaction then gv.info
    else RowGroup.markRows txId gv.rowCount count gv.info

/-- What a transaction does to the row group when it makes a change. -/
def make (txId : TransactionId) (gv : GroupVersions) : GroupChange → GroupVersions
  | .append _ count => gv.append txId count
  | .delete offsets =>
    { gv with info := offsets.foldl (fun vi i => vi.markDeleted i txId) gv.info }
  | .update offsets =>
    { gv with info := offsets.foldl (fun vi i => vi.markUpdated i txId) gv.info }

def commit (commitTime : Timestamp) (gv : GroupVersions) : GroupChange → GroupVersions
  | .append _ _ =>
    { gv with info := gv.pendingRows.foldl (fun vi i => vi.commitInsert i commitTime) gv.info }
  | .delete offsets =>
    { gv with info := offsets.foldl (fun vi i => vi.commitDelete i commitTime) gv.info }
  | .update offsets =>
    { gv with info := offsets.foldl (fun vi i => vi.commitUpdate i commitTime) gv.info }

def revert (gv : GroupVersions) : GroupChange → GroupVersions
  | .append _ _ =>
    { gv with
      rowCount := gv.pendingAppendStart
      info := gv.pendingRows.foldl (fun vi i => vi.revertInsert i) gv.info }
  | .delete offsets =>
    { gv with info := offsets.foldl (fun vi i => vi.clearDeleteMarker i) gv.info }
  | .update offsets =>
    { gv with info := offsets.foldl (fun vi i => vi.revertUpdate i) gv.info }

/-- Among the changes is at most one append, and it is the latest one of the row group. -/
def LatestAppend (gv : GroupVersions) (chs : List GroupChange) : Prop :=
  chs.filterMap GroupChange.append? = [] ∨ chs.filterMap GroupChange.append? =
      [(gv.pendingAppendStart, gv.rowCount - gv.pendingAppendStart)]

variable {chs : List GroupChange} {gv : GroupVersions}

/-- Either the first change is no append or it is the only one. -/
theorem LatestAppend.cons {ch : GroupChange} (h : gv.LatestAppend (ch :: chs)) :
    (ch.append? = none ∧ gv.LatestAppend chs) ∨
      (ch = .append gv.pendingAppendStart (gv.rowCount - gv.pendingAppendStart) ∧
        chs.filterMap GroupChange.append? = []) := by
  cases ch with
  | delete offsets => exact .inl ⟨rfl, h⟩
  | update offsets => exact .inl ⟨rfl, h⟩
  | append start count =>
    rcases h with h | h
    · simp [GroupChange.append?] at h
    · obtain ⟨⟨rfl, rfl⟩, hrest⟩ : (start = _ ∧ count = _) ∧ _ := by
        simpa [GroupChange.append?] using h
      exact .inr ⟨rfl, filterMap_eq_nil_iff.mpr hrest⟩

theorem LatestAppend.reverse (h : gv.LatestAppend chs) : gv.LatestAppend chs.reverse := by
  rwa [LatestAppend, filterMap_reverse, reverse_eq_nil_iff, reverse_eq_iff, reverse_singleton]

/-- Without markers there is nothing to commit or to revert. -/
theorem foldl_commit_empty (ct : Timestamp) (chs : List GroupChange) :
    chs.foldl (commit ct) {} = {} := by
  have hins : ∀ offs : List ℕ,
      offs.foldl (fun vi i => vi.commitInsert i ct) ({} : VersionInfo) = {} := fun offs =>
    foldl_fixed' (fun i => commitInsert_of_none rfl) offs
  have hstamp : ∀ offs : List ℕ,
      offs.foldl (fun vi i => vi.stamp i ct) ({} : VersionInfo) = {} := fun offs =>
    foldl_fixed' (fun i => stamp_of_none rfl) offs
  refine foldl_fixed' (fun ch => ?_) chs
  cases ch with
  | append start count => simp only [commit, hins]
  | delete offs => simp only [commit, commitDelete, hstamp]
  | update offs => simp only [commit, commitUpdate, hstamp]

theorem foldl_revert_empty (chs : List GroupChange) : chs.foldl revert {} = {} := by
  have herase : ∀ (a b : ℤ) (offs : List ℕ),
      offs.foldl (fun vi i => vi.eraseMarker i a b) ({} : VersionInfo) = {} := fun a b offs =>
    foldl_fixed' (fun i => eraseMarker_of_none rfl) offs
  refine foldl_fixed' (fun ch => ?_) chs
  cases ch with
  | append start count => simp only [revert, revertInsert, herase]
  | delete offs => simp only [revert, clearDeleteMarker, herase]
  | update offs => simp only [revert, revertUpdate, herase]

end GroupVersions

namespace RowGroup

def versions (rg : RowGroup) : GroupVersions where
  rowCount := rg.rowCount
  pendingAppendStart := rg.pendingAppendStart
  info := rg.versionInfo

@[simp] theorem rowCount_versions (rg : RowGroup) : rg.versions.rowCount = rg.rowCount := rfl

theorem versions_append {rg rg' : RowGroup} {chunk : DataChunk} {colIds : List ℕ}
    {txId : TransactionId} (h : rg.append chunk colIds txId = some rg') :
    rg'.versions = rg.versions.append txId chunk.count := by
  simp only [append, bind_eq_bind, bind_eq_some_iff] at h
  obtain ⟨_, _, h⟩ := h
  cases h
  rfl

theorem versions_commitAppend (rg : RowGroup) (ct : Timestamp) (start count : ℕ) :
    (rg.commitAppend ct).versions = rg.versions.commit ct (.append start count) := rfl

theorem versions_revertAppend (rg : RowGroup) (start count : ℕ) :
    rg.revertAppend.versions = rg.versions.revert (.append start count) := rfl

end RowGroup

/-- The change an undo entry makes to row group `g` of table `r`, where `resolve` finds
the table of a name. -/
def UndoEntry.changeAt (resolve : Bytes → Bytes → Option TableRef) (r : TableRef) (g : ℕ) :
    UndoEntry → Option GroupChange
  | .insert e =>
    if resolve e.schema e.table = some r ∧ e.rowGroupId = g then
      some (.append e.appendStart e.appendCount) else none
  | .delete e =>
    if resolve e.schema e.table = some r then
      some (.delete (offsetsIn e.rowIds g)) else none
  | .update e =>
    if resolve e.schema e.table = some r then
      some (.update (offsetsIn e.rowIds g)) else none
  | .catalog _ | .alterPartition _ => none

namespace Catalog

variable {c c' : Catalog} {tx : Transaction} {r : TableRef} {g : ℕ}

/-- The visibility state of a row group. -/
def groupVersions? (c : Catalog) (r : TableRef) (g : ℕ) : Option GroupVersions :=
  (c.rowGroup? r g).map RowGroup.versions

/-- The tables as a transaction sees them. -/
def resolve (c : Catalog) (tx : Snapshot) (schema table : Bytes) : Option TableRef :=
  c.getTable schema table tx

/-- What a name resolves to carries that name. -/
theorem resolve_name {tx : Snapshot} {schema table : Bytes}
    (h : c.resolve tx schema table = some r) : r.schema = schema ∧ r.name = table := by
  obtain ⟨_, _, rfl⟩ := map_eq_some_iff.mp h
  exact ⟨rfl, rfl⟩

theorem resolve_self {tx : Snapshot} {schema table : Bytes}
    (h : c.resolve tx schema table = some r) : c.resolve tx r.schema r.name = some r := by
  obtain ⟨rfl, rfl⟩ := resolve_name h
  exact h

/-- The changes of a transaction to a row group, oldest first. -/
def changesAt (c : Catalog) (tx : Transaction) (r : TableRef) (g : ℕ) : List GroupChange :=
  tx.undoBuffer.filterMap (changeAt (c.resolve tx.toSnapshot) r g)

theorem SameStamps.resolve (h : c.SameStamps c') : c.resolve = c'.resolve := by
  funext tx schema table
  rw [Catalog.resolve, h.getTable, Catalog.resolve]

theorem groupVersions?_modifyRowGroup (r' : TableRef) (g' : ℕ) {f : RowGroup → RowGroup}
    {F : GroupVersions → GroupVersions} (hf : ∀ rg, (f rg).versions = F rg.versions) :
    (c.modifyRowGroup r' g' f).groupVersions? r g =
      if r = r' ∧ g = g' then (c.groupVersions? r g).map F else c.groupVersions? r g := by
  rw [groupVersions?, rowGroup?_modifyRowGroup]
  split
  next h =>
    rw [groupVersions?, h.1, h.2, Option.map_map, Option.map_map]
    exact congrArg (Option.map · _) (funext hf)
  next h => rfl

theorem rowGroup?_forRows (r' : TableRef) (rowIds : List RowId)
    (f : ℕ → VersionInfo → VersionInfo) :
    (c.forRows r' rowIds f).rowGroup? r g =
      if r = r' then (c.rowGroup? r g).map
        (RowGroup.mapVersionInfo fun vi => (offsetsIn rowIds g).foldl (fun vi i => f i vi) vi)
      else c.rowGroup? r g := by
  induction rowIds generalizing c with
  | nil =>
    have hid : RowGroup.mapVersionInfo (fun vi => vi) = id := rfl
    simp [forRows, offsetsIn, hid]
  | cons row rows ih =>
    refine (ih (c := c.modifyVersionInfo r' row.group (f row.offset))).trans ?_
    rw [modifyVersionInfo, rowGroup?_modifyRowGroup]
    by_cases hr : r = r'
    · subst hr
      by_cases hg : row.group = g
      · have hcons : offsetsIn (row :: rows) g = row.offset :: offsetsIn rows g := by
          simp [offsetsIn, hg]
        simp only [hg, hcons, and_self, if_true, Option.map_map]
        rfl
      · simp [hg, offsetsIn, Ne.symm hg]
    · simp [hr]

theorem groupVersions?_forRows (r' : TableRef) (rowIds : List RowId)
    (f : ℕ → VersionInfo → VersionInfo) :
    (c.forRows r' rowIds f).groupVersions? r g =
      if r = r' then (c.groupVersions? r g).map fun gv =>
        { gv with info := (offsetsIn rowIds g).foldl (fun vi i => f i vi) gv.info }
      else c.groupVersions? r g := by
  rw [groupVersions?, rowGroup?_forRows]
  split
  next h => simp [groupVersions?, comp_def, RowGroup.versions,
      RowGroup.mapVersionInfo]
  next h => rfl

theorem sameStamps_forRows (r' : TableRef) (rowIds : List RowId)
    (f : ℕ → VersionInfo → VersionInfo) : (c.forRows r' rowIds f).SameStamps c := by
  induction rowIds generalizing c with
  | nil => exact fun _ _ => rfl
  | cons row rows ih => exact ih.trans (sameStamps_modifyRowGroup r' row.group _)

/-! ## Commit -/

/-- Committing what a transaction did to a table version does not change whether that
transaction sees it. -/
theorem isVisible_commitStamps (t : TableCatalogEntry) (tx : Snapshot) (ct : Timestamp) :
    (commitStamps tx.txId ct t).stamps.isVisible tx = t.stamps.isVisible tx := by
  by_cases hd : t.deleteTxId = tx.txId
  · simp [commitStamps, hd, stamps, EntryStamps.isVisible]
  · by_cases hc : t.createTxId = tx.txId
    · simp [commitStamps, hd, hc, stamps, EntryStamps.isVisible]
    · have h : (commitStamps tx.txId ct t).stamps = t.stamps := by
        simp [commitStamps, hd, hc]
      rw [h]

theorem lastVisible_congr {tx : Snapshot} {es es' : List EntryStamps}
    (h : es.map (·.isVisible tx) = es'.map (·.isVisible tx)) :
    lastVisible tx es = lastVisible tx es' := by
  induction es generalizing es' with
  | nil =>
    cases es' with
    | nil => rfl
    | cons _ _ => simp at h
  | cons e es ih =>
    cases es' with
    | nil => simp at h
    | cons e' es' =>
      simp only [map_cons, cons.injEq] at h
      simp only [lastVisible, ih h.2, h.1]

theorem resolve_commitEntry (schema name : Bytes) (tx : Snapshot) (ct : Timestamp) :
    (c.commitEntry schema name tx.txId ct).resolve tx = c.resolve tx := by
  funext schema' name'
  rw [resolve, getTable, commitEntry, versions_modifyVersions rfl]
  split
  next h =>
    rw [h.1, h.2]
    congr 1
    apply lastVisible_congr
    simp only [List.map_map]
    exact map_congr_left fun t _ => isVisible_commitStamps t tx ct
  next h => rfl

theorem rowGroup?_commitEntry (schema name : Bytes) (txId : TransactionId) (ct : Timestamp) :
    (c.commitEntry schema name txId ct).rowGroup? r g = c.rowGroup? r g := by
  rw [rowGroup?, rowGroup?, table?, table?, commitEntry, versions_modifyVersions rfl]
  split
  next h =>
    rw [getElem?_map, h.1, h.2]
    cases (c.versions schema name)[r.version]? with
    | none => rfl
    | some t => rfl
  next h => rfl

/-- A transaction's own commit leaves its view of the tables as it was. -/
theorem resolve_applyUndoEntry (e : UndoEntry) :
    (c.applyUndoEntry tx e).resolve tx.toSnapshot = c.resolve tx.toSnapshot := by
  cases e with
  | catalog e => exact resolve_commitEntry e.schema e.table tx.toSnapshot tx.commitTime
  | insert e =>
    simp only [applyUndoEntry]
    split
    next => rfl
    next r _ => rw [(sameStamps_modifyRowGroup r _ _).resolve]
  | delete e | update e =>
    simp only [applyUndoEntry]
    split
    next => rfl
    next r _ => rw [(sameStamps_forRows r _ _).resolve]
  | alterPartition e => rfl

/-- The effect of one entry of the undo buffer at commit. -/
theorem groupVersions?_applyUndoEntry (e : UndoEntry) : (c.applyUndoEntry tx e).groupVersions? r g =
      match e.changeAt (c.resolve tx.toSnapshot) r g with
      | none => c.groupVersions? r g
      | some ch => (c.groupVersions? r g).map fun gv => gv.commit tx.commitTime ch := by
  cases e with
  | catalog e =>
    simp only [applyUndoEntry, changeAt]
    rw [groupVersions?, rowGroup?_commitEntry, groupVersions?]
  | insert e =>
    cases ht : c.getTable e.schema e.table tx.toSnapshot with
    | none => simp [applyUndoEntry, changeAt, resolve, ht]
    | some r' =>
      simp only [applyUndoEntry, changeAt, resolve, ht]
      rw [groupVersions?_modifyRowGroup r' e.rowGroupId
        (F := fun gv => gv.commit tx.commitTime (.append e.appendStart e.appendCount))
        (fun rg => rg.versions_commitAppend tx.commitTime e.appendStart e.appendCount)]
      by_cases hr : r = r' ∧ g = e.rowGroupId
      · simp [hr]
      · have hr' : ¬ (r' = r ∧ e.rowGroupId = g) := fun h => hr ⟨h.1.symm, h.2.symm⟩
        simp [hr, hr']
  | delete e | update e =>
    cases ht : c.getTable e.schema e.table tx.toSnapshot with
    | none => simp [applyUndoEntry, changeAt, resolve, ht]
    | some r' =>
      simp only [applyUndoEntry, changeAt, resolve, ht]
      rw [groupVersions?_forRows]
      by_cases hr : r = r'
      · simp [hr, GroupVersions.commit]
      · simp [hr, Ne.symm hr]
  | alterPartition e => simp [applyUndoEntry, changeAt]

/-- **Commit, seen from one row group**: its changes are committed in their order. -/
theorem groupVersions?_applyUndoBuffer : (c.applyUndoBuffer tx).groupVersions? r g =
      (c.groupVersions? r g).map fun gv =>
        (c.changesAt tx r g).foldl (GroupVersions.commit tx.commitTime) gv := by
  rw [applyUndoBuffer, changesAt]
  generalize tx.undoBuffer = entries
  induction entries generalizing c with
  | nil => simp
  | cons e es ih =>
    rw [foldl_cons, ih, resolve_applyUndoEntry, groupVersions?_applyUndoEntry, filterMap_cons]
    cases e.changeAt (c.resolve tx.toSnapshot) r g with
    | none => rfl
    | some ch => simp [comp_def]

end Catalog

/-! ## Rollback -/

variable {e : UpdateUndoEntry}

/-- Writing back values does not touch the version markers. -/
theorem RowGroup.versions_undoUpdate {offsets : List ℕ} {rg rg' : RowGroup}
    (h : undoUpdate e offsets rg = some (.ok (), rg')) :
    rg'.versions = rg.versions.revert (.update offsets) := by
  obtain ⟨_, rg₁, hloop, hmod⟩ := bind_run_eq_ok_iff.mp h
  have h₁ : rg₁.versions = rg.versions := by
    refine Keeps.run (I := fun x : RowGroup => x.versions = rg.versions)
      (Keeps.forEach fun p _ => Keeps.bind Keeps.get fun x => ?_) rfl hloop
    split
    · exact Keeps.focus fun s t hs => hs
    · exact Keeps.pure ()
  cases hmod
  rw [← h₁]
  rfl

/-- An entry that a statement on rows leaves behind: its rows are all in one row group if
it has to write values back. -/
def UndoEntry.Undoable : UndoEntry → Prop
  | .insert _ | .delete _ => True
  | .update e =>
    e.oldValues.count = e.rowIds.length ∧ ∀ a ∈ e.rowIds, ∀ b ∈ e.rowIds, a.group = b.group
  | .catalog _ | .alterPartition _ => False

instance : DecidablePred UndoEntry.Undoable := fun e => by
  cases e <;> unfold UndoEntry.Undoable <;> infer_instance

namespace Catalog

variable {c c' : Catalog} {tx : Transaction} {r : TableRef} {g : ℕ}

/-- Committing changes of rows leaves the versions of the tables as they were. -/
theorem sameStamps_applyUndoBuffer (he : ∀ e ∈ tx.undoBuffer, e.Undoable) :
    (c.applyUndoBuffer tx).SameStamps c := by
  have hentry : ∀ (c : Catalog) (e : UndoEntry), e.Undoable →
      (c.applyUndoEntry tx e).SameStamps c := by
    intro c e he
    cases e with
    | catalog e => exact he.elim
    | alterPartition e => exact he.elim
    | insert e =>
      simp only [applyUndoEntry]
      split
      · exact fun _ _ => rfl
      · exact sameStamps_modifyRowGroup _ _ _
    | delete e | update e =>
      simp only [applyUndoEntry]
      split
      · exact fun _ _ => rfl
      · exact sameStamps_forRows _ _ _
  rw [applyUndoBuffer]
  revert he
  generalize tx.undoBuffer = entries
  intro he
  induction entries generalizing c with
  | nil => exact fun _ _ => rfl
  | cons e es ih =>
    exact (ih fun e' he' => he e' (mem_cons_of_mem _ he')).trans
      (hentry c e (he e mem_cons_self))

/-- `c'` is `c` with the given changes of each row group reverted, first to last. -/
structure Reverts (c c' : Catalog) (ch : TableRef → ℕ → List GroupChange) : Prop where
  sameStamps : c'.SameStamps c
  groupVersions? : ∀ r g, c'.groupVersions? r g =
    (c.groupVersions? r g).map fun gv => (ch r g).foldl GroupVersions.revert gv

variable {ch : TableRef → ℕ → List GroupChange}

theorem Reverts.of_unchanged
    (h : ∀ r g gv, c.groupVersions? r g = some gv → (ch r g).foldl GroupVersions.revert gv = gv) :
    c.Reverts c ch := by
  refine ⟨fun _ _ => rfl, fun r g => ?_⟩
  cases hgv : c.groupVersions? r g with
  | none => rfl
  | some gv => rw [map_some, h r g gv hgv]

theorem Reverts.of_modifyRowGroup {rg rg' : RowGroup} (hrg : c.rowGroup? r g = some rg)
    (hself : rg'.versions = (ch r g).foldl GroupVersions.revert rg.versions)
    (hother : ∀ r' g' gv, ¬ (r' = r ∧ g' = g) → c.groupVersions? r' g' = some gv →
      (ch r' g').foldl GroupVersions.revert gv = gv) :
    c.Reverts (c.modifyRowGroup r g fun _ => rg') ch := by
  refine ⟨sameStamps_modifyRowGroup _ _ _, fun r' g' => ?_⟩
  rw [groupVersions?_modifyRowGroup r g (F := fun _ => rg'.versions) fun _ => rfl]
  split
  next h =>
    obtain ⟨rfl, rfl⟩ := h
    simp [Catalog.groupVersions?, hrg, hself]
  next h =>
    cases hgv : c.groupVersions? r' g' with
    | none => rfl
    | some gv => rw [map_some, hother r' g' gv h hgv]

theorem Reverts.trans {c'' : Catalog} {ch' : TableRef → ℕ → List GroupChange}
    (h : c.Reverts c' ch) (h' : c'.Reverts c'' ch') :
    c.Reverts c'' fun r g => ch r g ++ ch' r g := by
  refine ⟨h'.sameStamps.trans h.sameStamps, fun r g => ?_⟩
  rw [h'.groupVersions?, h.groupVersions?]
  simp [comp_def]

/-- The rows of an entry that lie in one row group all belong to that group or to none. -/
theorem offsetsIn_eq {rows : List RowId} {first : RowId}
    (h : ∀ row ∈ rows, row.group = first.group) (g : ℕ) :
    offsetsIn rows g = if first.group = g then rows.map RowId.offset else [] := by
  rw [offsetsIn]
  split
  next hg =>
    rw [filter_eq_self.mpr fun row hrow => by simp [h row hrow, hg]]
  next hg =>
    rw [filter_eq_nil_iff.mpr fun row hrow => by simp [h row hrow, hg], map_nil]

theorem reverts_undoUpdate (he : (update e).Undoable)
    (h : undoEntry tx (.update e) c = some (.ok (), c')) :
    c.Reverts c' fun r g =>
      ((update e).changeAt (c.resolve tx.toSnapshot) r g).toList := by
  simp only [undoEntry, bind_run, get_run] at h
  cases ht : c.getTable e.schema e.table tx.toSnapshot with
  | none =>
    rw [ht] at h
    cases h
    exact .of_unchanged fun r g gv _ => by simp [changeAt, resolve, ht]
  | some r' =>
    simp only [ht] at h
    simp only [changeAt, resolve, ht, some.injEq]
    rw [he.1, take_length] at h
    cases hrows : e.rowIds with
    | nil =>
      rw [hrows] at h
      cases h
      refine .of_unchanged fun r g gv _ => ?_
      by_cases hr : r' = r <;> simp [hr, offsetsIn, GroupVersions.revert]
    | cons first rest =>
      have hsame : ∀ row ∈ first :: rest, row.group = first.group := fun row hrow =>
        he.2 row (hrows ▸ hrow) first (by simp [hrows])
      have hoffsets := offsetsIn_eq hsame
      have hother : ∀ r g gv, ¬ (r = r' ∧ g = first.group) →
          (if r' = r then some (GroupChange.update
            (offsetsIn (first :: rest) g)) else none).toList.foldl
              GroupVersions.revert gv = gv := by
        intro r g gv hne
        by_cases hr : r' = r
        · have hg : first.group ≠ g := fun hg => hne ⟨hr.symm, hg.symm⟩
          simp [hr, hoffsets, hg, GroupVersions.revert]
        · simp [hr]
      simp only [hrows] at h
      cases hrg : c.rowGroup? r' first.group with
      | none =>
        simp only [hrg] at h
        cases h
        refine .of_unchanged fun r g gv hgv => hother r g gv fun heq => ?_
        obtain ⟨rfl, rfl⟩ := heq
        simp [Catalog.groupVersions?, hrg] at hgv
      | some rg =>
        simp only [hrg, isSome_some, if_true] at h
        obtain ⟨_, rg', hview, hrun, rfl⟩ := focus_run_eq_some_iff.mp h
        cases hrg.symm.trans hview
        refine .of_modifyRowGroup hrg ?_ fun r g gv hne _ => hother r g gv hne
        rw [RowGroup.versions_undoUpdate hrun, hoffsets]
        simp

/-- The effect of one entry of the undo buffer at rollback. -/
theorem reverts_undoEntry {e : UndoEntry} (he : e.Undoable)
    (h : undoEntry tx e c = some (.ok (), c')) :
    c.Reverts c' fun r g => (e.changeAt (c.resolve tx.toSnapshot) r g).toList := by
  cases e with
  | catalog e => exact he.elim
  | alterPartition e => exact he.elim
  | update e => exact reverts_undoUpdate he h
  | insert e =>
    cases h
    cases ht : c.getTable e.schema e.table tx.toSnapshot with
    | none =>
      simp only [changeAt, resolve, ht]
      exact .of_unchanged fun r g gv _ => by simp
    | some r' =>
      simp only [changeAt, resolve, ht]
      refine ⟨sameStamps_modifyRowGroup _ _ _, fun r g => ?_⟩
      rw [groupVersions?_modifyRowGroup r' e.rowGroupId
        (F := fun gv => gv.revert (.append e.appendStart e.appendCount))
        (fun rg => rg.versions_revertAppend e.appendStart e.appendCount)]
      by_cases hr : r = r' ∧ g = e.rowGroupId
      · simp [hr]
      · have hr' : ¬ (r' = r ∧ e.rowGroupId = g) := fun h => hr ⟨h.1.symm, h.2.symm⟩
        simp [hr, hr']
  | delete e =>
    cases h
    cases ht : c.getTable e.schema e.table tx.toSnapshot with
    | none =>
      simp only [changeAt, resolve, ht]
      exact .of_unchanged fun r g gv _ => by simp
    | some r' =>
      simp only [changeAt, resolve, ht]
      refine ⟨sameStamps_forRows _ _ _, fun r g => ?_⟩
      rw [groupVersions?_forRows]
      by_cases hr : r = r'
      · simp [hr, GroupVersions.revert]
      · simp [hr, Ne.symm hr]

/-- **Rollback, seen from one row group**: its changes are reverted, last to first. -/
theorem reverts_undoBufferReverse (he : ∀ e ∈ tx.undoBuffer, e.Undoable)
    (h : undoBufferReverse tx c = some (.ok (), c')) :
    c.Reverts c' fun r g => (c.changesAt tx r g).reverse := by
  have hgen : ∀ {entries : List UndoEntry} {c c' : Catalog}, (∀ e ∈ entries, e.Undoable) →
      forEach entries (undoEntry tx) c = some (.ok (), c') →
      c.Reverts c' fun r g =>
        entries.filterMap (changeAt (c.resolve tx.toSnapshot) r g) := by
    intro entries
    induction entries with
    | nil =>
      intro c c' _ h
      cases h
      exact .of_unchanged fun r g gv _ => rfl
    | cons e es ih =>
      intro c c' hes h
      obtain ⟨_, c₁, hfirst, hrest⟩ := bind_run_eq_ok_iff.mp h
      have h₁ := reverts_undoEntry (hes e mem_cons_self) hfirst
      have h₂ := ih (fun e' he' => hes e' (mem_cons_of_mem _ he')) hrest
      rw [h₁.sameStamps.resolve] at h₂
      have h₁₂ := h₁.trans h₂
      refine ⟨h₁₂.sameStamps, fun r g => ?_⟩
      rw [h₁₂.groupVersions?, filterMap_cons]
      cases e.changeAt (c.resolve tx.toSnapshot) r g <;> rfl
  have hrev := hgen (fun e hmem => he e (mem_reverse.mp hmem)) h
  simpa only [changesAt, filterMap_reverse] using hrev

end Catalog

end CppColDB
