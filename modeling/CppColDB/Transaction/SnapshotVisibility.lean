import CppColDB.Transaction.Publish

/-!
# Snapshot visibility

A row group keeps one marker per row, so it can remember who inserted a row or who deleted
it, not both. `Tracks` says what the marker has to mean for that to be enough: at each row
the marker agrees with the open changes and with what every reader, an active transaction
or one that would begin now, has seen committed. The condition `NothingLost` keeps a delete
from overwriting a marker that somebody still needs, and an end of a transaction from
stamping the append of somebody else.
-/

namespace CppColDB

theorem TxEvent.commitsBefore_subset {α : Type} (id : TransactionId) (log : List (TxEvent α)) :
    commitsBefore id log ⊆ commits log := by
  induction log with
  | nil => exact fun _ h => h
  | cons e log ih =>
    cases e with
    | committed what => exact fun _ h => List.mem_cons_of_mem _ (ih h)
    | began id' =>
      simp only [commitsBefore]
      split
      · exact fun _ h => h
      · exact ih

namespace VersionMarker

/-- Whose uncommitted insert the marker records. -/
def inserter : Option VersionMarker → Option TransactionId
  | none => none
  | some m => if m.type = .insert ∧ m.commitTime = invalidTimestamp then some m.txId else none

/-- Whose uncommitted delete the marker records. -/
def deleter : Option VersionMarker → Option TransactionId
  | none => none
  | some m => if m.type = .delete ∧ m.commitTime = invalidTimestamp then some m.txId else none

/-- Whether the insert of the row is committed before `start`. A delete stands for a row
that everybody has seen inserted. -/
def InsertSeen (start : Timestamp) : Option VersionMarker → Prop
  | none => True
  | some m => m.type = .insert → m.commitTime ≠ invalidTimestamp ∧ m.commitTime < start

/-- Whether a delete of the row is committed before `start`. -/
def DeleteSeen (start : Timestamp) : Option VersionMarker → Prop
  | none => False
  | some m => m.type = .delete ∧ m.commitTime ≠ invalidTimestamp ∧ m.commitTime < start

variable {m : Option VersionMarker} {id : TransactionId}

theorem uncommitted_eq_some {m : VersionMarker} {t : VersionMarkerType} :
    (if m.type = t ∧ m.commitTime = invalidTimestamp then some m.txId else none) = some id ↔
      some m = some { type := t, txId := id } := by
  obtain ⟨type, txId, ct⟩ := m
  by_cases h : type = t ∧ ct = invalidTimestamp
  · simp [h]
  · simp only [h, if_false, reduceCtorEq, Option.some.injEq, mk.injEq, false_iff]
    exact fun heq => h ⟨heq.1, heq.2.2⟩

theorem inserter_eq_some :
    inserter m = some id ↔ m = some { type := .insert, txId := id } := by
  cases m with
  | none => simp [inserter]
  | some m => exact uncommitted_eq_some

theorem deleter_eq_some :
    deleter m = some id ↔ m = some { type := .delete, txId := id } := by
  cases m with
  | none => simp [deleter]
  | some m => exact uncommitted_eq_some

end VersionMarker

open Catalog Function GroupChange List Nat Option TxEvent VersionInfo VersionMarker

/-- The rows that a list of changes has touched. -/
def touchedRows (chs : List GroupChange) : List ℕ :=
  chs.flatMap insertedRows ++ chs.flatMap deletedRows ++ chs.flatMap updatedRows

variable {ch : GroupChange}

theorem mem_touchedRows_cons {chs : List GroupChange} {o : ℕ} :
    o ∈ touchedRows (ch :: chs) ↔
      (o ∈ ch.insertedRows ∨ o ∈ ch.deletedRows ∨ o ∈ ch.updatedRows) ∨ o ∈ touchedRows chs := by
  simp only [touchedRows, flatMap_cons, mem_append]
  tauto

namespace GroupVersions

variable {gv : GroupVersions} {chs : List GroupChange} {o : ℕ}

/-- A transaction whose append is the latest one commits its own rows and no others. -/
theorem LatestAppend.mem_stampedRows_iff (h : gv.LatestAppend chs) :
    o ∈ chs.flatMap (stampedRows gv) ↔ o ∈ touchedRows chs := by
  induction chs with
  | nil => simp [touchedRows]
  | cons ch chs ih =>
    rw [flatMap_cons, mem_append, mem_touchedRows_cons]
    rcases h.cons with ⟨hnone, hrest⟩ | ⟨rfl, hrest⟩
    · rw [ih hrest]
      cases ch with
      | append _ _ => simp [append?] at hnone
      | delete offsets => simp [stampedRows, insertedRows, deletedRows, updatedRows]
      | update offsets => simp [stampedRows, insertedRows, deletedRows, updatedRows]
    · rw [ih (.inl hrest)]
      simp [stampedRows, insertedRows, deletedRows, updatedRows, pendingRows]

theorem foldl_commit_fields (ct : Timestamp) (chs : List GroupChange) :
    (chs.foldl (commit ct) gv).rowCount = gv.rowCount ∧
      (chs.foldl (commit ct) gv).pendingAppendStart = gv.pendingAppendStart := by
  induction chs generalizing gv with
  | nil => exact ⟨rfl, rfl⟩
  | cons ch chs ih =>
    obtain ⟨hrow, hpend⟩ := @ih (gv.commit ct ch)
    rw [foldl_cons, hrow, hpend]
    cases ch <;> exact ⟨rfl, rfl⟩

theorem LatestAppend.length_le (h : gv.LatestAppend chs) : (chs.filterMap append?).length ≤ 1 := by
  rcases h with h | h <;> simp [h]

theorem flatMap_insertedRows (chs : List GroupChange) :
    chs.flatMap insertedRows = (chs.filterMap append?).flatMap fun a => range' a.1 a.2 := by
  induction chs with
  | nil => rfl
  | cons ch chs ih =>
    rw [flatMap_cons, ih]
    cases ch <;> rfl

theorem LatestAppend.mem_insertedRows_iff (h : gv.LatestAppend chs) :
    o ∈ chs.flatMap insertedRows ↔ chs.filterMap append? ≠ [] ∧ o ∈ gv.pendingRows := by
  rw [flatMap_insertedRows]
  rcases h with h | h <;> simp [h, pendingRows]

/-- Reverting changes erases the markers of the rows they deleted and updated and, if there
is an append among them, cuts off the latest append of the row group. -/
theorem foldl_revert (chs : List GroupChange) : (∀ o, (chs.foldl revert gv).info.marker? o =
      if (o ∈ chs.flatMap deletedRows ∨ o ∈ chs.flatMap updatedRows) ∨
        (chs.filterMap append? ≠ [] ∧ o ∈ gv.pendingRows) then none
      else gv.info.marker? o) ∧
    (chs.foldl revert gv).pendingAppendStart = gv.pendingAppendStart ∧
    (chs.foldl revert gv).rowCount =
      if chs.filterMap append? = [] then gv.rowCount else gv.pendingAppendStart := by
  induction chs generalizing gv with
  | nil => simp
  | cons ch chs ih =>
    obtain ⟨hm, hp, hr⟩ := @ih (gv.revert ch)
    rw [foldl_cons]
    refine ⟨fun o => ?_, ?_, ?_⟩
    · rw [hm, marker?_revert]
      cases ch with
      | delete offsets | update offsets =>
        by_cases ho : o ∈ offsets <;>
          simp [stampedRows, deletedRows, updatedRows, append?, pendingRows, revert, ho]
      | append start count =>
        -- after the first append nothing is pending any more
        have hnone : (gv.revert (.append start count)).pendingRows = [] := by
          simp [pendingRows, revert]
        rw [hnone]
        by_cases ho : o ∈ gv.pendingRows <;>
          simp [stampedRows, deletedRows, updatedRows, append?, ho]
    · rw [hp]
      cases ch <;> rfl
    · rw [hr]
      cases ch <;> simp [append?, revert]

/-- A transaction whose append is the latest one reverts its own rows and no others. -/
theorem LatestAppend.foldl_revert (h : gv.LatestAppend chs) :
    (∀ o, (chs.foldl revert gv).info.marker? o =
      if o ∈ touchedRows chs then none else gv.info.marker? o) ∧
    (chs.foldl revert gv).pendingAppendStart = gv.pendingAppendStart ∧
    (chs.foldl revert gv).rowCount =
      if chs.filterMap append? = [] then gv.rowCount else gv.pendingAppendStart := by
  obtain ⟨hm, hp, hr⟩ := @GroupVersions.foldl_revert gv chs
  refine ⟨fun o => ?_, hp, hr⟩
  rw [hm]
  refine if_congr ?_ rfl rfl
  rw [touchedRows, mem_append, mem_append, h.mem_insertedRows_iff]
  tauto

end GroupVersions

/-- Rows that are older than the run count as inserted before it. -/
def InsertedIn (rows : ℕ) (seen : List (List GroupChange)) (o : ℕ) : Prop :=
  o < rows ∨ ∃ chs ∈ seen, o ∈ chs.flatMap insertedRows

def DeletedIn (seen : List (List GroupChange)) (o : ℕ) : Prop :=
  ∃ chs ∈ seen, o ∈ chs.flatMap deletedRows

namespace GroupView

/-- A reader of the row group: when it began and what had been committed then. -/
def Reads (v : GroupView) (start : Timestamp) (seen : List (List GroupChange)) : Prop :=
  (start = v.commitCounter + 1 ∧ seen = commits v.history) ∨
    ∃ id tx, v.active id = some tx ∧ start = tx.startTime ∧ seen = commitsBefore id v.history

/-- The marker of a row says who inserted and who deleted it. -/
structure Agrees (rows : ℕ) (v : GroupView) (o : ℕ) : Prop where
  inserter_iff : ∀ id, o ∈ (v.changes id).flatMap insertedRows ↔
    inserter (v.versions.info.marker? o) = some id
  deleter_iff : ∀ id, o ∈ (v.changes id).flatMap deletedRows ↔
    deleter (v.versions.info.marker? o) = some id
  insertSeen_iff : ∀ {start seen}, v.Reads start seen →
    (InsertedIn rows seen o ↔ InsertSeen start (v.versions.info.marker? o))
  deleteSeen_iff : ∀ {start seen}, v.Reads start seen →
    (DeletedIn seen o ↔ DeleteSeen start (v.versions.info.marker? o))

structure Tracks (rows : ℕ) (v : GroupView) : Prop where
  rows_le : rows ≤ v.versions.rowCount
  pending_le : v.versions.pendingAppendStart ≤ v.versions.rowCount
  bounded : v.Bounded
  owner : ∀ {o m}, v.versions.info.marker? o = some m → m.commitTime ≠ invalidTimestamp →
    v.active m.txId = none
  no_update : ∀ {o m}, v.versions.info.marker? o = some m → m.type ≠ .update
  no_updates : ∀ id, (v.changes id).flatMap updatedRows = []
  agrees : ∀ o < v.versions.rowCount, v.Agrees rows o
  marker_beyond : ∀ o, v.versions.rowCount ≤ o → v.versions.info.marker? o = none
  open_beyond : ∀ o, v.versions.rowCount ≤ o → ∀ id,
    o ∉ (v.changes id).flatMap insertedRows ∧ o ∉ (v.changes id).flatMap deletedRows
  seen_beyond : ∀ o, v.versions.rowCount ≤ o →
    ∀ chs ∈ commits v.history, o ∉ chs.flatMap insertedRows ∧ o ∉ chs.flatMap deletedRows

/-- Runs of inserts and deletes: no updates, every statement returns, and a transaction that
ends has appended to a row group at most once. -/
def InsertsAndDeletes (v : GroupView) : GroupAct → Prop
  | .change _ (.update _) | .abandoned _ _ => False
  | .commit id | .rollback id => ((v.changes id).filterMap append?).length ≤ 1
  | .idle | .start | .change _ _ => True

/-- Only rows that every active transaction has seen inserted are deleted, and a transaction
ends only while its append is the latest one. -/
def NothingLost (v : GroupView) : GroupAct → Prop
  | .change _ (.delete offsets) =>
    ∀ o ∈ offsets, ∀ m, v.versions.info.marker? o = some m →
      m.type = .insert ∧ m.commitTime ≠ invalidTimestamp ∧
        ∀ {id tx}, v.active id = some tx → m.commitTime < tx.startTime
  | .commit id | .rollback id => v.versions.LatestAppend (v.changes id)
  | .idle | .start | .change _ _ | .abandoned _ _ => True

variable {v : GroupView} {rows : ℕ} {id : TransactionId} {tx : Snapshot} {o : ℕ}
  {seen : List (List GroupChange)}

/-- **The marker decides visibility**: a transaction sees the rows inserted by itself or
before it began, without those deleted by itself or before it began. -/
theorem Tracks.isVisible_iff (hwf : v.WellFormed) (h : v.Tracks rows) (htx : v.active id = some tx)
    (ho : o < v.versions.rowCount) :
    v.versions.info.isVisible o tx = true ↔ (o ∈ (v.changes id).flatMap insertedRows ∨
        InsertedIn rows (commitsBefore id v.history) o) ∧
      ¬ (o ∈ (v.changes id).flatMap deletedRows ∨
        DeletedIn (commitsBefore id v.history) o) := by
  have hag := h.agrees o ho
  have hreads : v.Reads tx.startTime (commitsBefore id v.history) := .inr ⟨id, tx, htx, rfl, rfl⟩
  rw [hag.inserter_iff, hag.deleter_iff, hag.insertSeen_iff hreads, hag.deleteSeen_iff hreads]
  have hid := hwf.txId_eq htx
  cases hm : v.versions.info.marker? o with
  | none => simp [isVisible, hm, deleter, InsertSeen, DeleteSeen]
  | some m =>
    have hupdate := h.no_update hm
    by_cases hct : m.commitTime = invalidTimestamp
    · cases ht : m.type with
      | update => exact absurd ht hupdate
      | insert | delete =>
        simp [isVisible, hm, ht, hct, inserter, deleter, InsertSeen, DeleteSeen, hid]
    · have hne : m.txId ≠ id := by
        intro heq
        have hnone := h.owner hm hct
        rw [heq, htx] at hnone
        cases hnone
      cases ht : m.type with
      | update => exact absurd ht hupdate
      | insert | delete =>
        simp [isVisible, hm, ht, hct, inserter, deleter, InsertSeen, DeleteSeen, hid, hne]

/-! ## Steps that keep the row group on track -/

/-- A step that leaves a row, its open changes and its readers alone. -/
theorem Agrees.of_same {v' : GroupView} (h : v.Agrees rows o)
    (hm : v'.versions.info.marker? o = v.versions.info.marker? o)
    (hins : ∀ id, o ∈ (v'.changes id).flatMap insertedRows ↔ o ∈ (v.changes id).flatMap insertedRows)
    (hdel : ∀ id, o ∈ (v'.changes id).flatMap deletedRows ↔ o ∈ (v.changes id).flatMap deletedRows)
    (hreads : ∀ {start seen}, v'.Reads start seen → v.Reads start seen) : v'.Agrees rows o where
  inserter_iff id := by rw [hins, hm, h.inserter_iff]
  deleter_iff id := by rw [hdel, hm, h.deleter_iff]
  insertSeen_iff hr := by rw [hm, h.insertSeen_iff (hreads hr)]
  deleteSeen_iff hr := by rw [hm, h.deleteSeen_iff (hreads hr)]

theorem changes_start (hwf : v.WellFormed) : (v.apply .start).changes = v.changes := by
  have hnil : v.changes v.nextTxId = [] := by
    apply hwf.changes_eq_nil
    cases htx : v.active v.nextTxId with
    | none => rfl
    | some tx => exact absurd (hwf.txId_lt htx) (lt_irrefl _)
  simp only [GroupView.apply]
  rw [← hnil, update_eq_self]

/-- A transaction that has just begun reads what one that would begin reads. -/
theorem reads_start {start : Timestamp}
    (h : (v.apply .start).Reads start seen) : v.Reads start seen := by
  rcases h with h | ⟨id, tx, htx, hstart, hseen⟩
  · exact .inl h
  · by_cases hid : id = v.nextTxId
    · subst hid
      simp only [GroupView.apply, update_self, some.injEq] at htx
      subst htx
      refine .inl ⟨hstart, ?_⟩
      rw [hseen]
      simp [GroupView.apply, commitsBefore]
    · simp only [GroupView.apply, update_of_ne hid] at htx
      refine .inr ⟨id, tx, htx, hstart, ?_⟩
      rw [hseen]
      simp [GroupView.apply, commitsBefore, Ne.symm hid]

theorem Tracks.start (hwf : v.WellFormed) (h : v.Tracks rows) : (v.apply .start).Tracks rows where
  rows_le := h.rows_le
  pending_le := h.pending_le
  bounded := Bounded.apply (a := .start) hwf h.bounded trivial
  no_update := h.no_update
  marker_beyond := h.marker_beyond
  seen_beyond := h.seen_beyond
  no_updates id := by
    rw [changes_start hwf]
    exact h.no_updates id
  open_beyond o ho id := by
    rw [changes_start hwf]
    exact h.open_beyond o ho id
  owner {o m} hm hct := by
    have hne : m.txId ≠ v.nextTxId := (h.bounded hm).1.ne
    simp only [GroupView.apply, update_of_ne hne]
    exact h.owner hm hct
  agrees o ho := (h.agrees o ho).of_same rfl (fun id => by rw [changes_start hwf])
    (fun id => by rw [changes_start hwf]) reads_start

/-- What a reader has seen lies within what is committed. -/
theorem Reads.subset {start : Timestamp} (h : v.Reads start seen) : seen ⊆ commits v.history := by
  rcases h with ⟨_, rfl⟩ | ⟨id, _, _, _, rfl⟩
  · exact fun _ hc => hc
  · exact commitsBefore_subset id v.history

/-- Nobody has touched a row that does not exist. -/
theorem Tracks.untouched (h : v.Tracks rows) (ho : v.versions.rowCount ≤ o)
    {start : Timestamp} (hr : v.Reads start seen) :
    ¬ InsertedIn rows seen o ∧ ¬ DeletedIn seen o := by
  constructor
  · rintro (hlt | ⟨chs, hchs, hins⟩)
    · exact absurd hlt (not_lt.mpr (le_trans h.rows_le ho))
    · exact (h.seen_beyond o ho chs (hr.subset hchs)).1 hins
  · rintro ⟨chs, hchs, hdel⟩
    exact (h.seen_beyond o ho chs (hr.subset hchs)).2 hdel

variable {id' : TransactionId} {f : GroupChange → List ℕ}

theorem mem_changes_change : o ∈ ((v.apply (.change id ch)).changes id').flatMap f ↔
      o ∈ (v.changes id').flatMap f ∨ id' = id ∧ o ∈ f ch := by
  by_cases hid : id' = id
  · subst hid
    simp [GroupView.apply]
  · simp [GroupView.apply, hid]

theorem Tracks.append (hwf : v.WellFormed) (h : v.Tracks rows) {count : ℕ}
    (htx : v.active id = some tx) :
    (v.apply (.change id (.append v.versions.rowCount count))).Tracks rows := by
  have hmarker := hwf.marker?_append htx v.versions.rowCount count
  have hmem : ∀ {o}, o ∈ range' v.versions.rowCount count ↔
      v.versions.rowCount ≤ o ∧ o < v.versions.rowCount + count := mem_range'_1
  refine
    { rows_le := le_trans h.rows_le (le_add_right _ _)
      pending_le := le_add_right _ _
      bounded := Bounded.apply (a := .change id (.append v.versions.rowCount count)) hwf h.bounded
        ⟨tx, htx, rfl⟩
      owner := fun {o m} hm hct => ?_
      no_update := fun {o m} hm => ?_
      no_updates := fun id' => ?_
      agrees := fun o ho => ?_
      marker_beyond := fun o ho => ?_
      open_beyond := fun o ho id' => ?_
      seen_beyond := fun o ho => h.seen_beyond o (le_trans (le_add_right _ _) ho) }
  · rw [hmarker] at hm
    split at hm
    · cases hm
      exact absurd rfl hct
    · exact h.owner hm hct
  · rw [hmarker] at hm
    split at hm
    · cases hm
      intro h
      cases h
    · exact h.no_update hm
  · rw [eq_nil_iff_forall_not_mem]
    intro o
    rw [mem_changes_change, h.no_updates]
    simp [updatedRows]
  · by_cases hnew : o ∈ range' v.versions.rowCount count
    · -- a row that this append has added
      have hbeyond := (hmem.mp hnew).1
      have hm := (hmarker o).trans (if_pos hnew)
      refine ⟨fun id' => ?_, fun id' => ?_, fun hr => ?_, fun hr => ?_⟩
      · rw [mem_changes_change, hm, inserter_eq_some]
        simp [(h.open_beyond o hbeyond id').1, insertedRows, hnew, eq_comm]
      · rw [mem_changes_change, hm, deleter_eq_some]
        simp [(h.open_beyond o hbeyond id').2, deletedRows]
      · rw [hm]
        simp [(h.untouched hbeyond hr).1, InsertSeen]
      · rw [hm]
        simp [(h.untouched hbeyond hr).2, DeleteSeen]
    · have hm := (hmarker o).trans (if_neg hnew)
      have hold : o < v.versions.rowCount := by
        by_contra hge
        exact hnew (hmem.mpr ⟨not_lt.mp hge, ho⟩)
      refine (h.agrees o hold).of_same hm (fun id' => ?_) (fun id' => ?_) fun hr => hr
      · rw [mem_changes_change]
        simp [insertedRows, hnew]
      · rw [mem_changes_change]
        simp [deletedRows]
  · have hnew : o ∉ range' v.versions.rowCount count := fun hin =>
      absurd (hmem.mp hin).2 (not_lt.mpr ho)
    refine ((hmarker o).trans (if_neg hnew)).trans ?_
    exact h.marker_beyond o (le_trans (le_add_right _ _) ho)
  · have hnew : o ∉ range' v.versions.rowCount count := fun hin =>
      absurd (hmem.mp hin).2 (not_lt.mpr ho)
    have hopen := h.open_beyond o (le_trans (le_add_right _ _) ho) id'
    rw [mem_changes_change, mem_changes_change]
    simp [hopen.1, hopen.2, insertedRows, deletedRows, hnew]

theorem Tracks.delete (hwf : v.WellFormed) (h : v.Tracks rows) {offsets : List ℕ}
    (ha : v.Allows (.change id (.delete offsets)))
    (hlost : v.NothingLost (.change id (.delete offsets))) :
    (v.apply (.change id (.delete offsets))).Tracks rows := by
  obtain ⟨tx, htx, hpos⟩ := ha
  have hmarker := @marker?_delete v id offsets
  have hin : ∀ {o}, v.versions.rowCount ≤ o → o ∉ offsets := fun ho hmem =>
    absurd (hpos.2 _ hmem).1 (not_lt.mpr ho)
  refine
    { rows_le := h.rows_le
      pending_le := h.pending_le
      bounded := Bounded.apply (a := .change id (.delete offsets)) hwf h.bounded ⟨tx, htx, hpos⟩
      owner := fun {o m} hm hct => ?_
      no_update := fun {o m} hm => ?_
      no_updates := fun id' => ?_
      agrees := fun o ho => ?_
      marker_beyond := fun o ho => (hmarker o).trans ((if_neg (hin ho)).trans (h.marker_beyond o ho))
      open_beyond := fun o ho id' => ?_
      seen_beyond := h.seen_beyond }
  · rw [hmarker] at hm
    split at hm
    · cases hm
      exact absurd rfl hct
    · exact h.owner hm hct
  · rw [hmarker] at hm
    split at hm
    · cases hm
      intro h
      cases h
    · exact h.no_update hm
  · rw [eq_nil_iff_forall_not_mem]
    intro o
    rw [mem_changes_change, h.no_updates]
    simp [updatedRows]
  · have hag := h.agrees o ho
    by_cases hdel : o ∈ offsets
    · -- everybody has seen the row inserted and nobody has deleted it
      have hm := (hmarker o).trans (if_pos hdel)
      have hold : inserter (v.versions.info.marker? o) = none ∧
          deleter (v.versions.info.marker? o) = none ∧
          ∀ {start seen}, v.Reads start seen → InsertSeen start (v.versions.info.marker? o) ∧
            ¬ DeleteSeen start (v.versions.info.marker? o) := by
        cases hm₀ : v.versions.info.marker? o with
        | none => exact ⟨rfl, rfl, fun _ => ⟨trivial, not_false⟩⟩
        | some m =>
          obtain ⟨ht, hct, hall⟩ := hlost o hdel m hm₀
          refine ⟨by simp [inserter, hct], by simp [deleter, ht], fun hr => ⟨fun _ => ⟨hct, ?_⟩,
            by simp [DeleteSeen, ht]⟩⟩
          rcases hr with ⟨rfl, _⟩ | ⟨id', tx', htx', rfl, _⟩
          · exact lt_of_le_of_lt (h.bounded hm₀).2 (lt_add_one _)
          · exact hall htx'
      obtain ⟨hins, hdels, hseen⟩ := hold
      refine ⟨fun id' => ?_, fun id' => ?_, fun hr => ?_, fun hr => ?_⟩
      · rw [mem_changes_change, hag.inserter_iff, hm, hins, inserter_eq_some]
        simp [insertedRows]
      · rw [mem_changes_change, hag.deleter_iff, hm, hdels, deleter_eq_some]
        simp [deletedRows, hdel, eq_comm]
      · rw [hm, hag.insertSeen_iff hr]
        exact ⟨fun _ h => (by cases h), fun _ => (hseen hr).1⟩
      · rw [hm, hag.deleteSeen_iff hr]
        exact ⟨fun hd => absurd hd (hseen hr).2, fun hd => absurd rfl hd.2.1⟩
    · refine hag.of_same ((hmarker o).trans (if_neg hdel)) (fun id' => ?_) (fun id' => ?_) fun hr => hr
      · rw [mem_changes_change]
        simp [insertedRows]
      · rw [mem_changes_change]
        simp [deletedRows, hdel]
  · rw [mem_changes_change, mem_changes_change]
    simp [(h.open_beyond o ho id').1, (h.open_beyond o ho id').2, insertedRows, deletedRows, hin ho]

theorem mem_changes_finish :
    o ∈ ((v.finish id).changes id').flatMap f ↔ id' ≠ id ∧ o ∈ (v.changes id').flatMap f := by
  by_cases hid : id' = id
  · subst hid
    simp [GroupView.finish]
  · simp [GroupView.finish, hid]

theorem mem_changes_finish_of_not (h : o ∉ (v.changes id).flatMap f) :
    o ∈ ((v.finish id).changes id').flatMap f ↔ o ∈ (v.changes id').flatMap f := by
  rw [mem_changes_finish]
  exact ⟨And.right, fun hin => ⟨fun heq => h (heq ▸ hin), hin⟩⟩

theorem Tracks.no_updates_finish (h : v.Tracks rows) :
    ((v.finish id).changes id').flatMap updatedRows = [] := by
  rw [eq_nil_iff_forall_not_mem]
  intro o ho
  rw [mem_changes_finish, h.no_updates] at ho
  exact not_mem_nil ho.2

theorem active_finish (h : (v.finish id).active id' = some tx) : v.active id' = some tx := by
  by_cases hid : id' = id
  · subst hid
    simp [GroupView.finish] at h
  · simpa [GroupView.finish, hid] using h

theorem active_finish_eq_none (h : v.active id' = none) :
    (v.finish id).active id' = none := by
  by_cases hid : id' = id
  · subst hid
    simp [GroupView.finish]
  · simpa [GroupView.finish, hid] using h

/-- What a transaction has done to an existing row, by its marker. -/
theorem Tracks.touched_cases (h : v.Tracks rows) (ho : o < v.versions.rowCount)
    (id : TransactionId) :
    (o ∈ (v.changes id).flatMap insertedRows ∧
      v.versions.info.marker? o = some { type := .insert, txId := id }) ∨
    (o ∈ (v.changes id).flatMap deletedRows ∧
      v.versions.info.marker? o = some { type := .delete, txId := id }) ∨
    o ∉ touchedRows (v.changes id) := by
  by_cases hins : o ∈ (v.changes id).flatMap insertedRows
  · exact .inl ⟨hins, inserter_eq_some.mp (((h.agrees o ho).inserter_iff id).mp hins)⟩
  · by_cases hdel : o ∈ (v.changes id).flatMap deletedRows
    · exact .inr (.inl ⟨hdel, deleter_eq_some.mp (((h.agrees o ho).deleter_iff id).mp hdel)⟩)
    · rw [touchedRows, h.no_updates]
      simp [hins, hdel]

/-- Whoever reads after a commit either has seen it or began before it. -/
theorem reads_commit (hwf : v.WellFormed) {start : Timestamp}
    (h : (v.apply (.commit id)).Reads start seen) :
    (start = v.commitCounter + 1 + 1 ∧ seen = v.changes id :: commits v.history) ∨
      v.Reads start seen ∧ start ≤ v.commitCounter + 1 := by
  rcases h with h | ⟨id', tx, htx, rfl, rfl⟩
  · exact .inl h
  · have htx' := active_finish htx
    exact .inr ⟨.inr ⟨id', tx, htx', rfl, rfl⟩, hwf.startTime_le htx'⟩

variable {chs : List GroupChange}

theorem insertedIn_cons :
    InsertedIn rows (chs :: seen) o ↔ o ∈ chs.flatMap insertedRows ∨ InsertedIn rows seen o := by
  simp only [InsertedIn, mem_cons, exists_eq_or_imp]
  tauto

theorem deletedIn_cons :
    DeletedIn (chs :: seen) o ↔ o ∈ chs.flatMap deletedRows ∨ DeletedIn seen o := by
  simp only [DeletedIn, mem_cons, exists_eq_or_imp]

/-- Markers of the past look the same to all later readers. -/
theorem Bounded.seen_later (h : v.Bounded) (o : ℕ) {start start' : Timestamp}
    (hs : v.commitCounter < start) (hs' : v.commitCounter < start') :
    (InsertSeen start (v.versions.info.marker? o) ↔ InsertSeen start' (v.versions.info.marker? o)) ∧
    (DeleteSeen start (v.versions.info.marker? o) ↔
      DeleteSeen start' (v.versions.info.marker? o)) := by
  cases hm : v.versions.info.marker? o with
  | none => exact ⟨.rfl, .rfl⟩
  | some m =>
    have hle := (h hm).2
    simp [InsertSeen, DeleteSeen, lt_of_le_of_lt hle hs, lt_of_le_of_lt hle hs']

theorem marker?_commit (hlost : v.NothingLost (.commit id)) (o : ℕ) :
    (v.apply (.commit id)).versions.info.marker? o =
      if o ∈ touchedRows (v.changes id) then
        (v.versions.info.marker? o).map ({ · with commitTime := v.commitCounter + 1 })
      else v.versions.info.marker? o := by
  rw [← if_congr (GroupVersions.LatestAppend.mem_stampedRows_iff hlost) rfl rfl]
  exact GroupVersions.marker?_foldl_commit (v.changes id) o

theorem Tracks.agrees_commit (hwf : v.WellFormed) (h : v.Tracks rows)
    (hlost : v.NothingLost (.commit id)) (ho : o < v.versions.rowCount) :
    (v.apply (.commit id)).Agrees rows o := by
  have hag := h.agrees o ho
  have hm' := marker?_commit hlost o
  have hstamp := next_ne_invalid hwf.commitCounter_nonneg
  have hnow : v.Reads (v.commitCounter + 1) (commits v.history) := .inl ⟨rfl, rfl⟩
  have hopen : ∀ id', (v.apply (.commit id)).changes id' = (v.finish id).changes id' :=
    fun _ => rfl
  rcases h.touched_cases ho id with ⟨hins, hm⟩ | ⟨hdel, hm⟩ | hnot
  · -- an insert of the transaction: only those who begin from now on have seen it
    have htouched : o ∈ touchedRows (v.changes id) := by simp [touchedRows, hins]
    have hnodel : o ∉ (v.changes id).flatMap deletedRows := by
      rw [hag.deleter_iff, hm, deleter_eq_some]
      simp
    rw [if_pos htouched, hm] at hm'
    refine ⟨fun id' => ?_, fun id' => ?_, fun hr => ?_, fun hr => ?_⟩
    · rw [hopen, mem_changes_finish, hag.inserter_iff, hm, hm', inserter_eq_some, inserter_eq_some]
      simp [hstamp, eq_comm]
    · rw [hopen, mem_changes_finish, hag.deleter_iff, hm, hm', deleter_eq_some, deleter_eq_some]
      simp
    · rw [hm']
      rcases reads_commit hwf hr with ⟨rfl, rfl⟩ | ⟨hr, hle⟩
      · exact ⟨fun _ _ => ⟨hstamp, lt_add_one _⟩, fun _ => insertedIn_cons.mpr (.inl hins)⟩
      · rw [hag.insertSeen_iff hr, hm]
        exact ⟨fun hs => absurd rfl (hs rfl).1, fun hs => absurd (hs rfl).2 (not_lt.mpr hle)⟩
    · rw [hm']
      rcases reads_commit hwf hr with ⟨rfl, rfl⟩ | ⟨hr, hle⟩
      · rw [deletedIn_cons, hag.deleteSeen_iff hnow, hm]
        simp [hnodel, DeleteSeen]
      · rw [hag.deleteSeen_iff hr, hm]
        simp [DeleteSeen]
  · -- a delete of the transaction
    have htouched : o ∈ touchedRows (v.changes id) := by simp [touchedRows, hdel]
    rw [if_pos htouched, hm] at hm'
    refine ⟨fun id' => ?_, fun id' => ?_, fun hr => ?_, fun hr => ?_⟩
    · rw [hopen, mem_changes_finish, hag.inserter_iff, hm, hm', inserter_eq_some, inserter_eq_some]
      simp
    · rw [hopen, mem_changes_finish, hag.deleter_iff, hm, hm', deleter_eq_some, deleter_eq_some]
      simp [hstamp, eq_comm]
    · rw [hm']
      rcases reads_commit hwf hr with ⟨rfl, rfl⟩ | ⟨hr, hle⟩
      · rw [insertedIn_cons, hag.insertSeen_iff hnow, hm]
        simp [InsertSeen]
      · rw [hag.insertSeen_iff hr, hm]
        simp [InsertSeen]
    · rw [hm']
      rcases reads_commit hwf hr with ⟨rfl, rfl⟩ | ⟨hr, hle⟩
      · exact ⟨fun _ => ⟨rfl, hstamp, lt_add_one _⟩, fun _ => deletedIn_cons.mpr (.inl hdel)⟩
      · rw [hag.deleteSeen_iff hr, hm]
        exact ⟨fun hs => absurd rfl hs.2.1, fun hs => absurd hs.2.2 (not_lt.mpr hle)⟩
  · -- a row the transaction has nothing to do with
    have hnotins : o ∉ (v.changes id).flatMap insertedRows := fun hin =>
      hnot (by simp [touchedRows, hin])
    have hnotdel : o ∉ (v.changes id).flatMap deletedRows := fun hin =>
      hnot (by simp [touchedRows, hin])
    have hlater := Bounded.seen_later h.bounded o (lt_add_one _)
      (lt_trans (lt_add_one _) (lt_add_one (v.commitCounter + 1)))
    rw [if_neg hnot] at hm'
    refine ⟨fun id' => ?_, fun id' => ?_, fun hr => ?_, fun hr => ?_⟩
    · rw [hopen, mem_changes_finish_of_not hnotins, hm', ← hag.inserter_iff]
    · rw [hopen, mem_changes_finish_of_not hnotdel, hm', ← hag.deleter_iff]
    · rw [hm']
      rcases reads_commit hwf hr with ⟨rfl, rfl⟩ | ⟨hr, hle⟩
      · rw [insertedIn_cons, hag.insertSeen_iff hnow, ← hlater.1]
        simp [hnotins]
      · exact hag.insertSeen_iff hr
    · rw [hm']
      rcases reads_commit hwf hr with ⟨rfl, rfl⟩ | ⟨hr, hle⟩
      · rw [deletedIn_cons, hag.deleteSeen_iff hnow, ← hlater.2]
        simp [hnotdel]
      · exact hag.deleteSeen_iff hr

theorem Tracks.commit (hwf : v.WellFormed) (h : v.Tracks rows) (ha : v.Allows (.commit id))
    (hlost : v.NothingLost (.commit id)) :
    (v.apply (.commit id)).Tracks rows := by
  obtain ⟨tx, htx⟩ := ha
  obtain ⟨hrow, hpend⟩ : (v.apply (.commit id)).versions.rowCount = v.versions.rowCount ∧
      (v.apply (.commit id)).versions.pendingAppendStart = v.versions.pendingAppendStart :=
    GroupVersions.foldl_commit_fields (v.commitCounter + 1) (v.changes id)
  have hmarker := marker?_commit hlost
  have hbeyond : ∀ {o}, v.versions.rowCount ≤ o → o ∉ touchedRows (v.changes id) := by
    intro o ho
    rw [touchedRows, h.no_updates]
    simp [(h.open_beyond o ho id).1, (h.open_beyond o ho id).2]
  refine
    { rows_le := hrow ▸ h.rows_le
      pending_le := hrow ▸ hpend ▸ h.pending_le
      bounded := Bounded.apply (a := .commit id) hwf h.bounded ⟨tx, htx⟩
      owner := fun {o m} hm hct => ?_
      no_update := fun {o m} hm => ?_
      no_updates := fun id' => h.no_updates_finish
      agrees := fun o ho => h.agrees_commit hwf hlost (hrow ▸ ho)
      marker_beyond := fun o ho => ?_
      open_beyond := fun o ho id' => ?_
      seen_beyond := fun o ho chs hchs => ?_ }
  · rw [hmarker] at hm
    split at hm
    next htouched =>
      have ho : o < v.versions.rowCount := by
        by_contra hge
        exact hbeyond (not_lt.mp hge) htouched
      obtain ⟨m₀, hm₀, rfl⟩ := map_eq_some_iff.mp hm
      have hid : m₀.txId = id := by
        rcases h.touched_cases ho id with ⟨_, heq⟩ | ⟨_, heq⟩ | hnot
        · rw [some.inj (hm₀.symm.trans heq)]
        · rw [some.inj (hm₀.symm.trans heq)]
        · exact absurd htouched hnot
      simp [GroupView.apply, GroupView.finish, hid]
    next => exact active_finish_eq_none (h.owner hm hct)
  · rw [hmarker] at hm
    split at hm
    · obtain ⟨m₀, hm₀, rfl⟩ := map_eq_some_iff.mp hm
      have hne : m₀.type ≠ .update := h.no_update hm₀
      exact hne
    · exact h.no_update hm
  · rw [hrow] at ho
    rw [hmarker, if_neg (hbeyond ho)]
    exact h.marker_beyond o ho
  · rw [hrow] at ho
    rw [show (v.apply (.commit id)).changes id' = (v.finish id).changes id' from rfl,
      mem_changes_finish, mem_changes_finish]
    exact ⟨fun hin => (h.open_beyond o ho id').1 hin.2, fun hin => (h.open_beyond o ho id').2 hin.2⟩
  · rw [hrow] at ho
    rcases mem_cons.mp hchs with rfl | hchs
    · exact h.open_beyond o ho id
    · exact h.seen_beyond o ho chs hchs

/-- Reverting the changes of a transaction, last to first, erases the markers of its rows
and takes its append off the end. -/
theorem rollback_versions (hlost : v.NothingLost (.rollback id)) :
    (∀ o, (v.apply (.rollback id)).versions.info.marker? o =
      if o ∈ touchedRows (v.changes id) then none else v.versions.info.marker? o) ∧
    (v.apply (.rollback id)).versions.pendingAppendStart = v.versions.pendingAppendStart ∧
    ((v.apply (.rollback id)).versions.rowCount = v.versions.rowCount ∧
        (v.changes id).flatMap insertedRows = [] ∨
      (v.apply (.rollback id)).versions.rowCount = v.versions.pendingAppendStart ∧
        ∀ o, o ∈ (v.changes id).flatMap insertedRows ↔
          v.versions.pendingAppendStart ≤ o ∧ o < v.versions.pendingAppendStart +
            (v.versions.rowCount - v.versions.pendingAppendStart)) := by
  have hins := GroupVersions.flatMap_insertedRows (v.changes id)
  have hrev := GroupVersions.LatestAppend.reverse hlost
  obtain ⟨hmarker, hpend, hrow⟩ := hrev.foldl_revert
  refine ⟨fun o => ?_, hpend, ?_⟩
  · refine (hmarker o).trans (if_congr ?_ rfl rfl)
    simp [touchedRows]
  · rcases hlost with hnil | hone
    · rw [if_pos (by rw [filterMap_reverse, hnil]; rfl)] at hrow
      exact .inl ⟨hrow, by rw [hins, hnil]; rfl⟩
    · rw [if_neg (by rw [filterMap_reverse, hone]; simp)] at hrow
      refine .inr ⟨hrow, fun o => ?_⟩
      rw [hins, hone]
      simp [mem_range'_1]

theorem reads_rollback {start : Timestamp}
    (h : (v.apply (.rollback id)).Reads start seen) : v.Reads start seen := by
  rcases h with h | ⟨id', tx, htx, hstart, hseen⟩
  · exact .inl h
  · exact .inr ⟨id', tx, active_finish htx, hstart, hseen⟩

theorem Tracks.agrees_rollback (h : v.Tracks rows)
    (hlost : v.NothingLost (.rollback id)) (ho : o < v.versions.rowCount)
    (hins : o ∉ (v.changes id).flatMap insertedRows) : (v.apply (.rollback id)).Agrees rows o := by
  have hag := h.agrees o ho
  have hm' := (rollback_versions hlost).1 o
  have hopen : ∀ id', (v.apply (.rollback id)).changes id' = (v.finish id).changes id' :=
    fun _ => rfl
  rcases h.touched_cases ho id with ⟨hin, _⟩ | ⟨hdel, hm⟩ | hnot
  · exact absurd hin hins
  · -- the delete is undone: the row is there for everybody
    have htouched : o ∈ touchedRows (v.changes id) := by simp [touchedRows, hdel]
    rw [if_pos htouched] at hm'
    refine ⟨fun id' => ?_, fun id' => ?_, fun hr => ?_, fun hr => ?_⟩
    · rw [hopen, mem_changes_finish, hag.inserter_iff, hm, hm', inserter_eq_some, inserter_eq_some]
      simp
    · rw [hopen, mem_changes_finish, hag.deleter_iff, hm, hm', deleter_eq_some, deleter_eq_some]
      simp [eq_comm]
    · rw [hm', hag.insertSeen_iff (reads_rollback hr), hm]
      simp [InsertSeen]
    · rw [hm', hag.deleteSeen_iff (reads_rollback hr), hm]
      simp [DeleteSeen]
  · have hnotdel : o ∉ (v.changes id).flatMap deletedRows := fun hin =>
      hnot (by simp [touchedRows, hin])
    rw [if_neg hnot] at hm'
    exact hag.of_same hm' (fun id' => mem_changes_finish_of_not hins)
      (fun id' => mem_changes_finish_of_not hnotdel) reads_rollback

/-- A row that only its inserter knows is unknown once the insert is gone. -/
theorem Tracks.forgotten (h : v.Tracks rows) (ho : o < v.versions.rowCount)
    (hins : o ∈ (v.changes id).flatMap insertedRows) :
    rows ≤ o ∧
    (∀ id' ≠ id, o ∉ (v.changes id').flatMap insertedRows ∧
      o ∉ (v.changes id').flatMap deletedRows) ∧
    ∀ chs ∈ commits v.history,
      o ∉ chs.flatMap insertedRows ∧ o ∉ chs.flatMap deletedRows := by
  have hag := h.agrees o ho
  have hnow : v.Reads (v.commitCounter + 1) (commits v.history) := .inl ⟨rfl, rfl⟩
  have hm := inserter_eq_some.mp ((hag.inserter_iff id).mp hins)
  have hunseen : ¬ InsertedIn rows (commits v.history) o := by
    rw [hag.insertSeen_iff hnow, hm]
    simp [InsertSeen]
  have hundeleted : ¬ DeletedIn (commits v.history) o := by
    rw [hag.deleteSeen_iff hnow, hm]
    simp [DeleteSeen]
  refine ⟨not_lt.mp fun hlt => hunseen (.inl hlt), fun id' hid => ?_, fun chs hchs => ?_⟩
  · rw [hag.inserter_iff, hag.deleter_iff, hm, inserter_eq_some, deleter_eq_some]
    simp [Ne.symm hid]
  · exact ⟨fun hin => hunseen (.inr ⟨chs, hchs, hin⟩), fun hin => hundeleted ⟨chs, hchs, hin⟩⟩

theorem Tracks.rollback (hwf : v.WellFormed) (h : v.Tracks rows) (ha : v.Allows (.rollback id))
    (hlost : v.NothingLost (.rollback id)) :
    (v.apply (.rollback id)).Tracks rows := by
  obtain ⟨tx, htx⟩ := ha
  obtain ⟨hmarker, hpend, hrow⟩ := rollback_versions hlost
  have hpos := h.pending_le
  -- what is below the new end and above it
  have hbelow : ∀ {o}, o < (v.apply (.rollback id)).versions.rowCount →
      o < v.versions.rowCount ∧ o ∉ (v.changes id).flatMap insertedRows := by
    intro o ho
    rcases hrow with ⟨hrow, hnil⟩ | ⟨hrow, hmem⟩
    · exact ⟨hrow ▸ ho, by simp [hnil]⟩
    · rw [hrow] at ho
      exact ⟨lt_of_lt_of_le ho hpos, fun hin => absurd ((hmem o).mp hin).1 (not_le.mpr ho)⟩
  have habove : ∀ {o}, (v.apply (.rollback id)).versions.rowCount ≤ o →
      v.versions.rowCount ≤ o ∨ o < v.versions.rowCount ∧
        o ∈ (v.changes id).flatMap insertedRows := by
    intro o ho
    by_cases hlt : o < v.versions.rowCount
    · rcases hrow with ⟨hrow, _⟩ | ⟨hrow, hmem⟩
      · exact absurd hlt (not_lt.mpr (hrow ▸ ho))
      · rw [hrow] at ho
        exact .inr ⟨hlt, (hmem o).mpr ⟨ho, by omega⟩⟩
    · exact .inl (not_lt.mp hlt)
  refine
    { rows_le := ?_
      pending_le := ?_
      bounded := Bounded.apply (a := .rollback id) hwf h.bounded ⟨tx, htx⟩
      owner := fun {o m} hm hct => ?_
      no_update := fun {o m} hm => ?_
      no_updates := fun id' => h.no_updates_finish
      agrees := fun o ho => h.agrees_rollback hlost (hbelow ho).1 (hbelow ho).2
      marker_beyond := fun o ho => ?_
      open_beyond := fun o ho id' => ?_
      seen_beyond := fun o ho => ?_ }
  · rcases habove (le_refl _) with hle | ⟨hlt, hins⟩
    · exact le_trans h.rows_le hle
    · exact (h.forgotten hlt hins).1
  · rcases hrow with ⟨hrow, _⟩ | ⟨hrow, _⟩
    · rw [hpend, hrow]
      exact hpos
    · rw [hpend, hrow]
  · rw [hmarker] at hm
    split at hm
    · cases hm
    · exact active_finish_eq_none (h.owner hm hct)
  · rw [hmarker] at hm
    split at hm
    · cases hm
    · exact h.no_update hm
  · rw [hmarker]
    rcases habove ho with hle | ⟨hlt, hins⟩
    · rw [h.marker_beyond o hle, ite_self]
    · rw [if_pos (by simp [touchedRows, hins])]
  · rw [show (v.apply (.rollback id)).changes id' = (v.finish id).changes id' from rfl,
      mem_changes_finish, mem_changes_finish]
    rcases habove ho with hle | ⟨hlt, hins⟩
    · exact ⟨fun hin => (h.open_beyond o hle id').1 hin.2,
        fun hin => (h.open_beyond o hle id').2 hin.2⟩
    · have hother := (h.forgotten hlt hins).2.1 id'
      exact ⟨fun hin => (hother hin.1).1 hin.2, fun hin => (hother hin.1).2 hin.2⟩
  · rcases habove ho with hle | ⟨hlt, hins⟩
    · exact h.seen_beyond o hle
    · exact (h.forgotten hlt hins).2.2

theorem Tracks.apply {a : GroupAct} (hwf : v.WellFormed) (h : v.Tracks rows) (ha : v.Allows a)
    (hC : v.InsertsAndDeletes a ∧ v.NothingLost a) : (v.apply a).Tracks rows := by
  cases a with
  | idle => exact h
  | start => exact h.start hwf
  | abandoned id ch => exact hC.1.elim
  | commit id => exact h.commit hwf ha hC.2
  | rollback id => exact h.rollback hwf ha hC.2
  | change id ch =>
    cases ch with
    | update offsets => exact hC.1.elim
    | delete offsets => exact h.delete hwf ha hC.2
    | append start count =>
      obtain ⟨tx, htx, rfl⟩ := ha
      exact h.append hwf htx

end GroupView

namespace Database

variable {db₀ db : Database} {log : TxLog}

/-- The row was inserted by the transaction. -/
def InsertedBy (db : Database) (tx : Transaction) (r : TableRef) (g off : ℕ) : Prop :=
  off ∈ (db.catalog.changesAt tx r g).flatMap insertedRows

/-- The row was deleted by the transaction. -/
def DeletedBy (db : Database) (tx : Transaction) (r : TableRef) (g off : ℕ) : Prop :=
  off ∈ (db.catalog.changesAt tx r g).flatMap deletedRows

theorem Quiet.tracks (h : db₀.Quiet) (r : TableRef) (g : ℕ) :
    (db₀.view [] r g).Tracks (db₀.view [] r g).versions.rowCount := by
  obtain ⟨hwf, hinfo, hactive, hpend⟩ := h.view r g
  have hmarker : ∀ o, (db₀.view [] r g).versions.info.marker? o = none := by
    intro o
    rw [hinfo]
    rfl
  have hchanges : ∀ id, (db₀.view [] r g).changes id = [] := fun id =>
    hwf.changes_eq_nil (hactive id)
  have hreads : ∀ {start seen}, (db₀.view [] r g).Reads start seen → seen = [] := by
    rintro start seen (⟨_, rfl⟩ | ⟨id, tx, htx, _⟩)
    · rfl
    · exact absurd (htx.symm.trans (hactive id)) (by simp)
  refine
    { rows_le := le_refl _
      pending_le := hpend
      bounded := fun {o m} hm => absurd (hm.symm.trans (hmarker o)) (by simp)
      owner := fun {o m} hm => absurd (hm.symm.trans (hmarker o)) (by simp)
      no_update := fun {o m} hm => absurd (hm.symm.trans (hmarker o)) (by simp)
      no_updates := fun id => by rw [hchanges]; rfl
      agrees := fun o ho => ⟨fun id => ?_, fun id => ?_, fun hr => ?_, fun hr => ?_⟩
      marker_beyond := fun o _ => hmarker o
      open_beyond := fun o _ id => by simp [hchanges]
      seen_beyond := fun o _ => nofun }
  · simp [hchanges, hmarker, inserter]
  · simp [hchanges, hmarker, deleter]
  · simp [hmarker, InsertedIn, InsertSeen, ho]
  · simp [hreads hr, hmarker, DeletedIn, DeleteSeen]

/-- **Snapshot visibility**: in every run of inserts and deletes in which nothing is lost, a
transaction sees exactly the rows that were inserted by itself, by a transaction committed
before it began or before the run, and that were deleted by none of these. -/
theorem isVisible_iff_snapshot (h₀ : db₀.Quiet)
    (h : Run (fun v a => v.InsertsAndDeletes a ∧ v.NothingLost a) db₀ db log) {id : TransactionId}
    {tx : Transaction} (htx : db.activeTransactions.lookup id = some tx) {r : TableRef} {g off : ℕ}
    {rg : RowGroup} (hrg : db.catalog.rowGroup? r g = some rg) (hoff : off < rg.rowCount) :
    rg.versionInfo.isVisible off tx.toSnapshot = true ↔
      (db.InsertedBy tx r g off ∨ off < (db₀.view [] r g).versions.rowCount ∨
        ∃ tx' ∈ commitsBefore id log, db.InsertedBy tx' r g off) ∧
      ¬ (db.DeletedBy tx r g off ∨
        ∃ tx' ∈ commitsBefore id log, db.DeletedBy tx' r g off) := by
  obtain ⟨hwf, htracks⟩ := h.invariant h₀.idle (h₀.tracks r g) GroupView.Tracks.apply
  have hhistory : commitsBefore id (db.view log r g).history =
      (commitsBefore id log).map (db.catalog.changesAt · r g) :=
    commitsBefore_map _ id log
  have hvis := htracks.isVisible_iff hwf (active_view htx)
    (by rw [versions_view hrg]; exact hoff)
  rw [versions_view hrg, changes_view htx, hhistory] at hvis
  refine hvis.trans ?_
  simp only [InsertedIn, DeletedIn, InsertedBy, DeletedBy, List.mem_map, exists_exists_and_eq_and]

theorem free_tracked : Free (fun v a => v.InsertsAndDeletes a ∧ v.NothingLost a) .insert :=
  ⟨fun _ => ⟨trivial, trivial⟩, fun _ _ ch hk => by
    cases ch <;> first | exact ⟨trivial, trivial⟩ | cases hk⟩

/-- Transaction 2 deletes the row of `emptyTable` that a session has inserted. -/
def deleteFirst (db : Database) : Database :=
  (db.withCatalog (db.catalog.forRows tableT [⟨0, 0⟩] fun off vi => vi.markDeleted off 2)).pushUndo
    2 (.delete { schema := tableT.schema, table := tableT.name, rowIds := [⟨0, 0⟩] })

variable {tx : Transaction} {rg : RowGroup}

theorem dml_deleteFirst (hid : tx.txId = 2)
    (hresolve : db.catalog.resolve tx.toSnapshot tableT.schema tableT.name = some tableT)
    (hrg : db.catalog.rowGroup? tableT 0 = some rg) (hcount : rg.rowCount = 1)
    (hvis : rg.versionInfo.isVisible 0 tx.toSnapshot = true) :
    Dml tx.toSnapshot true (.delete tableT [⟨0, 0⟩]) db (deleteFirst db) := by
  have hrows : db.catalog.Selected tx.toSnapshot tableT [⟨0, 0⟩] :=
    ⟨by simp, by simpa using ⟨rg, hrg, by rw [hcount]; decide, hvis⟩⟩
  have hdml := Dml.delete hresolve hrows
  rwa [hid] at hdml

theorem eq_of_mem_offsetsIn_first {g o : ℕ} (h : o ∈ offsetsIn [⟨0, 0⟩] g) : g = 0 ∧ o = 0 := by
  by_cases hg : g = 0
  · subst hg
    exact ⟨rfl, by simpa [offsetsIn] using h⟩
  · simp [offsetsIn, Ne.symm hg] at h

/-- The one row of `emptyTable` carries a committed insert that every active transaction began
after: deleting it loses nothing. -/
theorem nothingLost_deleteFirst (hrg : db.catalog.rowGroup? tableT 0 = some rg)
    (hmarker : rg.versionInfo.marker? 0 = some ⟨.insert, 1, 1⟩)
    (hkeys : db.activeTransactions.keys = {2}) (htx : db.activeTransactions.lookup 2 = some tx)
    (hstart : tx.startTime = 2) (id : TransactionId) (g : ℕ) :
    (db.view log tableT g).NothingLost (.change id (.delete (offsetsIn [⟨0, 0⟩] g))) := by
  intro o ho m hm
  obtain ⟨rfl, rfl⟩ := eq_of_mem_offsetsIn_first ho
  rw [versions_view hrg, show rg.versions.info = rg.versionInfo from rfl, hmarker] at hm
  cases hm
  refine ⟨rfl, by decide, fun {id' s} hs => ?_⟩
  obtain ⟨t, ht, rfl⟩ := map_eq_some_iff.mp hs
  have hid : id' ∈ db.activeTransactions.keys := Finmap.mem_keys.mpr (Finmap.mem_of_lookup_eq_some ht)
  rw [hkeys, Finset.mem_singleton] at hid
  subst hid
  cases htx.symm.trans ht
  rw [hstart]
  decide

theorem meets_begin (db : Database) (log : TxLog) :
    Command.Meets (fun v a => v.InsertsAndDeletes a ∧ v.NothingLost a) db log .begin :=
  fun _ => ⟨trivial, trivial⟩

theorem meets_insert {id : TransactionId} {x : Int64} (db : Database) (log : TxLog) :
    Command.Meets (fun v a => v.InsertsAndDeletes a ∧ v.NothingLost a) db log
      (.statement id (insertInt x)) :=
  free_tracked

theorem own_delete_hides_row : ∃ db log tx rg,
    Run (fun v a => v.InsertsAndDeletes a ∧ v.NothingLost a) emptyTable db log ∧
    db.activeTransactions.lookup 2 = some tx ∧ db.catalog.rowGroup? tableT 0 = some rg ∧
    0 < rg.rowCount ∧ db.DeletedBy tx tableT 0 0 ∧
    rg.versionInfo.isVisible 0 tx.toSnapshot = false := by
  obtain ⟨db, hrun, hf⟩ := exists_of_after (show after
    ([.begin, .statement 1 (insertInt 7)] ++ [.commit 1, .begin]) (fun db => do
      let tx ← db.activeTransactions.lookup 2
      let rg ← db.catalog.rowGroup? tableT 0
      pure ((tx.toSnapshot, db.activeTransactions.keys,
        db.catalog.resolve tx.toSnapshot tableT.schema tableT.name),
        rg.rowCount, rg.versionInfo.marker? 0, rg.versionInfo.isVisible 0 tx.toSnapshot)) =
      some ((⟨2, 2⟩, {2}, some tableT), 1, some ⟨.insert, 1, 1⟩, true) by decide +kernel)
  have hdel : after ([.begin, .statement 1 (insertInt 7)] ++ [.commit 1, .begin]) (fun db => do
      let tx ← (deleteFirst db).activeTransactions.lookup 2
      let rg ← (deleteFirst db).catalog.rowGroup? tableT 0
      pure (rg.rowCount, (deleteFirst db).catalog.changesAt tx tableT 0)) =
      some (1, [.delete [0]]) := by decide +kernel
  rw [after_eq hrun] at hdel
  have hlatest : after [.begin, .statement 1 (insertInt 7)] (fun db => some (onlyLatest 1 db)) =
      some true := by decide +kernel
  obtain ⟨db₁, hrun₁, hrun₂⟩ := runAll_append.mp hrun
  rw [after_eq hrun₁] at hlatest
  have h₁ := Run.session quiet_emptyTable.idle
    (forall_mem_cons.mpr ⟨meets_begin, forall_mem_singleton.mpr meets_insert⟩) .refl hrun₁
  obtain ⟨_, db₂, hcommit, hrun₃⟩ := Imp.bind_run_eq_ok_iff.mp hrun₂
  have h₂ := h₁.command quiet_emptyTable.idle hcommit fun r g =>
    have hla := latestAppend_of_onlyLatest (some.inj hlatest) r g
    ⟨GroupVersions.LatestAppend.length_le hla, hla⟩
  have h₃ := Run.session quiet_emptyTable.idle (forall_mem_singleton.mpr meets_begin) h₂ hrun₃
  simp only [bind_eq_bind, bind_eq_some_iff, Option.pure_def, some.injEq, Prod.mk.injEq] at hf hdel
  obtain ⟨tx, htx, rg, hrg, ⟨hsnap, hkeys, hresolve⟩, hcount, hmarker, hvis⟩ := hf
  have hid : tx.txId = 2 := congrArg Snapshot.txId hsnap
  -- the delete of transaction 2 is one more step of the run
  have hdml := dml_deleteFirst hid hresolve hrg hcount hvis
  have h₄ := h₃.step (.dml (by rw [hid]; exact htx) hdml) fun r g => by
    by_cases hr : r = tableT
    · subst hr
      exact ⟨.change tx.txId (.delete (offsetsIn [⟨0, 0⟩] g)), by simp [Act.at, Change.at], trivial,
        nothingLost_deleteFirst hrg hmarker hkeys htx (congrArg Snapshot.startTime hsnap) _ g⟩
    · exact ⟨.idle, by simp [Act.at, Change.at, hr], trivial, trivial⟩
  obtain ⟨tx', htx', rg', hrg', hf⟩ := hdel
  have hdeleted : (deleteFirst db).DeletedBy tx' tableT 0 0 := by
    rw [DeletedBy, hf.2]
    decide
  have hpos : 0 < rg'.rowCount := by rw [hf.1]; decide
  refine ⟨_, _, tx', rg', h₄, htx', hrg', hpos, hdeleted, Bool.eq_false_iff.mpr fun hseen => ?_⟩
  exact ((isVisible_iff_snapshot quiet_emptyTable h₄ htx' hrg' hpos).mp hseen).2 (.inl hdeleted)

theorem appends_length_le {id : TransactionId} (htx : db.activeTransactions.lookup id = some tx)
    (r : TableRef) (g : ℕ) :
    (((db.view log r g).changes id).filterMap append?).length ≤ tx.undoBuffer.length := by
  rw [changes_view htx]
  exact le_trans (length_filterMap_le _ _) (length_filterMap_le _ _)

theorem free_insert : Free GroupView.InsertsAndDeletes .insert :=
  ⟨fun _ => trivial, fun _ _ ch hk => by cases ch <;> first | exact trivial | cases hk⟩

theorem free_delete : Free GroupView.InsertsAndDeletes .delete :=
  ⟨fun _ => trivial, fun _ _ ch hk => by cases ch <;> first | exact trivial | cases hk⟩

/-- Transaction 2 inserts a row and commits after transaction 1 has begun; transaction 3
deletes the row. The marker of the insert is gone, and transaction 1 sees the row. -/
theorem delete_shows_row_to_older : ∃ db log tx rg,
    Run GroupView.InsertsAndDeletes emptyTable db log ∧
    db.activeTransactions.lookup 1 = some tx ∧ db.catalog.rowGroup? tableT 0 = some rg ∧
    0 < rg.rowCount ∧ rg.versionInfo.isVisible 0 tx.toSnapshot = true ∧
    ¬ (db.InsertedBy tx tableT 0 0 ∨ 0 < (emptyTable.view [] tableT 0).versions.rowCount ∨
      ∃ tx' ∈ commitsBefore 1 log, db.InsertedBy tx' tableT 0 0) := by
  obtain ⟨db, hrun, hf⟩ := exists_of_after (show after
    ([.begin, .begin, .statement 2 (insertInt 7)] ++ [.commit 2, .begin, .statement 3 deleteAll])
    (fun db => do
      let tx ← db.activeTransactions.lookup 1
      let rg ← db.catalog.rowGroup? tableT 0
      pure (db.catalog.changesAt tx tableT 0, rg.rowCount,
        rg.versionInfo.isVisible 0 tx.toSnapshot)) = some ([], 1, true) by decide +kernel)
  obtain ⟨db₁, hrun₁, hrun₂⟩ := runAll_append.mp hrun
  have hlog : commitsBefore 1 (Command.logAll .plain
      ([.begin, .begin, .statement 2 (insertInt 7)] ++ [.commit 2, .begin, .statement 3 deleteAll])
      emptyTable []) = [] := by decide +kernel
  rw [logAll_append hrun₁] at hlog
  have hbuf : after [.begin, .begin, .statement 2 (insertInt 7)] (fun db =>
      (db.activeTransactions.lookup 2).map fun tx => tx.undoBuffer.length) = some 1 := by
    decide +kernel
  rw [after_eq hrun₁] at hbuf
  obtain ⟨tx₂, htx₂, hlen⟩ := map_eq_some_iff.mp hbuf
  have h₁ := Run.session quiet_emptyTable.idle (C := GroupView.InsertsAndDeletes)
    (by simp [Command.Meets, free_insert, GroupView.InsertsAndDeletes]) .refl hrun₁
  obtain ⟨_, db₂, hcommit, hrun₃⟩ := Imp.bind_run_eq_ok_iff.mp hrun₂
  have h₂ := h₁.command quiet_emptyTable.idle hcommit fun r g =>
    le_trans (appends_length_le htx₂ r g) hlen.le
  have h₃ := Run.session quiet_emptyTable.idle
    (by simp [Command.Meets, free_delete, GroupView.InsertsAndDeletes]) h₂ hrun₃
  rw [Command.logAll, hcommit] at hlog
  simp only [bind_eq_bind, bind_eq_some_iff, Option.pure_def, some.injEq, Prod.mk.injEq] at hf
  obtain ⟨tx, htx, rg, hrg, hchanges, hcount, hvis⟩ := hf
  refine ⟨db, _, tx, rg, h₃, htx, hrg, by rw [hcount]; decide, hvis, ?_⟩
  rw [hlog, InsertedBy, hchanges]
  simp [view, groupVersions?, rowGroup?_emptyTable]

end Database

end CppColDB
