import CppColDB.Transaction.SnapshotVisibility

/-!
# Committed deletes and uncommitted updates

A delete leaves its row visible to other transactions until it commits, and whoever marks
the row then takes the marker over: the commit and the rollback of either transaction act on
the marker that is there. `Held` is what keeps deletes from being lost: a row that an active
transaction has marked carries its marker, and a row whose delete is committed carries a
committed delete. It holds along every run in which no row with a delete marker is marked
again.
-/

namespace CppColDB

open Command Function GroupChange List Option TxEvent VersionInfo VersionMarker

namespace GroupView

variable {v : GroupView}

/-- Runs of deletes and updates. -/
def DeletesAndUpdates : GroupAct → Prop
  | .change _ ch | .abandoned _ ch => ch.isAppend = false
  | .idle | .start | .commit _ | .rollback _ => True

/-- No change is made to a row that carries a delete marker. -/
def Unclaimed (v : GroupView) : GroupAct → Prop
  | .change _ ch | .abandoned _ ch =>
    ∀ o ∈ touchedRows [ch], ∀ m, v.versions.info.marker? o = some m → m.type ≠ .delete
  | .idle | .start | .commit _ | .rollback _ => True

structure Held (v : GroupView) : Prop where
  noAppend : ∀ id, (v.changes id).filterMap append? = []
  owned : ∀ {id o}, o ∈ touchedRows (v.changes id) → ∃ m, v.versions.info.marker? o = some m ∧
    m.txId = id ∧ m.commitTime = invalidTimestamp ∧
    (o ∈ (v.changes id).flatMap deletedRows → m.type = .delete)
  gone : ∀ {start seen o}, v.Reads start seen → DeletedIn seen o →
    DeleteSeen start (v.versions.info.marker? o)

variable {o : ℕ}

theorem mem_touchedRows_of_deleted {chs : List GroupChange}
    (ho : o ∈ chs.flatMap deletedRows) : o ∈ touchedRows chs :=
  mem_append_left _ (mem_append_right _ ho)

variable {id id' : TransactionId}

/-- Two transactions never hold the same row. -/
theorem Held.disjoint (h : v.Held) (hid : id' ≠ id)
    (ho : o ∈ touchedRows (v.changes id')) : o ∉ touchedRows (v.changes id) := by
  intro ho'
  obtain ⟨m, hm, hown, _⟩ := h.owned ho
  obtain ⟨m', hm', hown', _⟩ := h.owned ho'
  cases hm.symm.trans hm'
  exact hid (hown.symm.trans hown')

/-- A committed delete is nobody's open change. -/
theorem Held.not_touched_of_gone (h : v.Held) {start : Timestamp}
    (hgone : DeleteSeen start (v.versions.info.marker? o)) (id : TransactionId) :
    o ∉ touchedRows (v.changes id) := by
  intro ho
  obtain ⟨m, hm, _, hct, _⟩ := h.owned ho
  rw [hm] at hgone
  exact hgone.2.1 hct

/-! ## Changes -/

theorem mem_touchedRows_append {chs chs' : List GroupChange} :
    o ∈ touchedRows (chs ++ chs') ↔ o ∈ touchedRows chs ∨ o ∈ touchedRows chs' := by
  simp only [touchedRows, flatMap_append, mem_append]
  tauto

variable {ch : GroupChange} {tx : Snapshot} {a : GroupAct}

/-- A change that is no append puts its marker on the rows it touches. -/
theorem marker?_make_of_not_append {gv : GroupVersions} (hch : ch.isAppend = false) (o : ℕ) :
    (gv.make id ch).info.marker? o = if o ∈ touchedRows [ch] then
      some { type := if o ∈ ch.deletedRows then .delete else .update, txId := id }
      else gv.info.marker? o := by
  cases ch with
  | append start count => cases hch
  | delete offsets =>
    refine (marker?_foldl_mark .delete id offsets gv.info o).trans ?_
    by_cases ho : o ∈ offsets <;>
      simp [touchedRows, insertedRows, deletedRows, updatedRows, ho]
  | update offsets =>
    refine (marker?_foldl_mark .update id offsets gv.info o).trans ?_
    by_cases ho : o ∈ offsets <;>
      simp [touchedRows, insertedRows, deletedRows, updatedRows]

/-- A row that a transaction sees and that carries no delete marker is held by nobody else,
and nobody has deleted it. -/
theorem Held.free (h : v.Held) (hvis : v.versions.info.isVisible o tx = true)
    (hfree : ∀ m, v.versions.info.marker? o = some m → m.type ≠ .delete) :
    (∀ id, id ≠ tx.txId → o ∉ touchedRows (v.changes id)) ∧
    (∀ id, o ∉ (v.changes id).flatMap deletedRows) ∧
    ∀ {start seen}, v.Reads start seen → ¬ DeletedIn seen o := by
  refine ⟨fun id hid ho => ?_, fun id ho => ?_, fun hr ho => ?_⟩
  · obtain ⟨m, hm, hown, hct, _⟩ := h.owned ho
    cases ht : m.type <;> simp_all [isVisible]
  · obtain ⟨m, hm, _, _, htype⟩ := h.owned (mem_touchedRows_of_deleted ho)
    exact hfree m hm (htype ho)
  · have hgone := h.gone hr ho
    cases hm : v.versions.info.marker? o with
    | none => simp [hm, DeleteSeen] at hgone
    | some m =>
      rw [hm] at hgone
      exact hfree m hm hgone.1

/-- What a change that touches only free rows leaves of the markers. -/
theorem Held.make (h : v.Held) (hid : tx.txId = id) (hch : ch.isAppend = false)
    (hpos : ch.Possible v.versions tx)
    (hfree : ∀ o ∈ touchedRows [ch], ∀ m, v.versions.info.marker? o = some m → m.type ≠ .delete) :
    (∀ {id' o}, o ∈ touchedRows (v.changes id') → ∃ m,
      (v.versions.make id ch).info.marker? o = some m ∧ m.txId = id' ∧
        m.commitTime = invalidTimestamp ∧
        (o ∈ (v.changes id').flatMap deletedRows → m.type = .delete)) ∧
    ∀ {start seen o}, v.Reads start seen → DeletedIn seen o →
      DeleteSeen start ((v.versions.make id ch).info.marker? o) := by
  have hrows : ∀ o ∈ touchedRows [ch], (∀ id', id' ≠ id → o ∉ touchedRows (v.changes id')) ∧
      (∀ id, o ∉ (v.changes id).flatMap deletedRows) ∧
      ∀ {start seen}, v.Reads start seen → ¬ DeletedIn seen o := by
    intro o ho
    rw [← hid]
    refine h.free ?_ (hfree o ho)
    cases ch with
    | append start count => cases hch
    | delete offsets | update offsets =>
      exact (hpos.2 o (by simpa [touchedRows, insertedRows, deletedRows, updatedRows] using ho)).2
  refine ⟨fun {id' o} ho => ?_, fun {start seen o} hr hdel => ?_⟩
  · rw [marker?_make_of_not_append hch]
    split
    next hin =>
      obtain ⟨hother, hdel, _⟩ := hrows o hin
      have hid' : id' = id := by
        by_contra hne
        exact hother id' hne ho
      exact ⟨_, rfl, hid'.symm, rfl, fun hdel' => absurd hdel' (hdel id')⟩
    next => exact h.owned ho
  · rw [marker?_make_of_not_append hch]
    split
    next hin => exact absurd hdel ((hrows o hin).2.2 hr)
    next => exact h.gone hr hdel

theorem Held.abandoned (hwf : v.WellFormed) (h : v.Held) (ha : v.Allows (.abandoned id ch))
    (hC : v.Unclaimed (.abandoned id ch)) :
    (v.apply (.abandoned id ch)).Held := by
  obtain ⟨hch, tx, htx, hpos⟩ := ha
  obtain ⟨howned, hgone⟩ := h.make (hwf.txId_eq htx) hch hpos hC
  exact ⟨h.noAppend, howned, hgone⟩

theorem Held.change (hwf : v.WellFormed) (h : v.Held)
    (ha : v.Allows (.change id ch)) (hch : ch.isAppend = false)
    (hC : v.Unclaimed (.change id ch)) : (v.apply (.change id ch)).Held := by
  obtain ⟨tx, htx, hpos⟩ := ha
  obtain ⟨howned, hgone⟩ := h.make (hwf.txId_eq htx) hch hpos hC
  refine ⟨fun id' => ?_, fun {id' o} ho => ?_, hgone⟩
  · by_cases hid : id' = id
    · subst hid
      have hnone : ch.append? = none := by
        cases ch <;> first | rfl | cases hch
      simp [GroupView.apply, h.noAppend, hnone]
    · simpa [GroupView.apply, update_of_ne hid] using h.noAppend id'
  · by_cases hid : id' = id
    · subst hid
      simp only [GroupView.apply, update_self] at ho ⊢
      by_cases hin : o ∈ touchedRows [ch]
      · rw [marker?_make_of_not_append hch, if_pos hin]
        refine ⟨_, rfl, rfl, rfl, fun hdel => if_pos ?_⟩
        rw [flatMap_append, mem_append] at hdel
        refine hdel.elim (fun hold => ?_) fun hnew => by simpa using hnew
        -- the transaction no longer sees a row it has deleted
        obtain ⟨m, hm, _, _, htype⟩ := h.owned (mem_touchedRows_of_deleted hold)
        exact absurd (htype hold) (hC o hin m hm)
      · have hold := (mem_touchedRows_append.mp ho).resolve_right hin
        obtain ⟨m, hm, hown, hct, htype⟩ := howned hold
        refine ⟨m, hm, hown, hct, fun hdel => htype ?_⟩
        rw [flatMap_append, mem_append] at hdel
        exact hdel.resolve_right fun hnew => hin (mem_touchedRows_of_deleted hnew)
    · simp only [GroupView.apply, update_of_ne hid] at ho ⊢
      exact howned ho

/-! ## Ends of transactions -/

theorem changes_finish (v : GroupView) (id id' : TransactionId) :
    (v.finish id).changes id' = if id' = id then [] else v.changes id' := by
  by_cases hid : id' = id <;> simp [finish, hid]

/-- A commit stamps what its transaction holds and leaves every other marker alone. -/
theorem Held.marker?_commit (h : v.Held) (id : TransactionId) (o : ℕ) :
    (v.apply (.commit id)).versions.info.marker? o =
      if o ∈ touchedRows (v.changes id) then
        (v.versions.info.marker? o).map ({ · with commitTime := v.commitCounter + 1 })
      else v.versions.info.marker? o := by
  refine (GroupVersions.marker?_foldl_commit _ o).trans ?_
  exact if_congr (GroupVersions.LatestAppend.mem_stampedRows_iff (.inl (h.noAppend id))) rfl rfl

theorem Held.marker?_rollback (h : v.Held) (id : TransactionId) (o : ℕ) :
    (v.apply (.rollback id)).versions.info.marker? o =
      if o ∈ touchedRows (v.changes id) then none else v.versions.info.marker? o := by
  have hlatest : v.versions.LatestAppend (v.changes id) := .inl (h.noAppend id)
  refine (hlatest.reverse.foldl_revert.1 o).trans (if_congr ?_ rfl rfl)
  simp [touchedRows]

/-- The end of one transaction does not touch the markers of what another one holds. -/
theorem Held.marker?_end (h : v.Held) (hnot : o ∉ touchedRows (v.changes id))
    (ha : a = .commit id ∨ a = .rollback id) :
    (v.apply a).versions.info.marker? o = v.versions.info.marker? o := by
  rcases ha with rfl | rfl
  · rw [h.marker?_commit, if_neg hnot]
  · rw [h.marker?_rollback, if_neg hnot]

theorem Held.finish (h : v.Held) (ha : a = .commit id ∨ a = .rollback id)
    (hgone : ∀ {start seen o}, (v.apply a).Reads start seen → DeletedIn seen o →
      DeleteSeen start ((v.apply a).versions.info.marker? o)) : (v.apply a).Held := by
  have hchanges : ∀ id', (v.apply a).changes id' = if id' = id then [] else v.changes id' := by
    rcases ha with rfl | rfl <;> exact changes_finish v id
  refine ⟨fun id' => ?_, fun {id' o} ho => ?_, hgone⟩
  · rw [hchanges]
    split
    · rfl
    · exact h.noAppend id'
  · rw [hchanges] at ho ⊢
    split at ho
    next => simp [touchedRows] at ho
    next hid =>
      rw [if_neg hid, h.marker?_end (h.disjoint hid ho) ha]
      exact h.owned ho

theorem Held.commit (hwf : v.WellFormed) (h : v.Held) :
    (v.apply (.commit id)).Held := by
  refine h.finish (.inl rfl) fun {start seen o} hr hdel => ?_
  -- what was gone before is nobody's open change, so its marker stays
  have hold : ∀ {start' seen'}, v.Reads start' seen' → DeletedIn seen' o →
      DeleteSeen start' ((v.apply (.commit id)).versions.info.marker? o) := by
    intro start' seen' hr' hdel'
    have hgone := h.gone hr' hdel'
    rwa [h.marker?_end (h.not_touched_of_gone hgone id) (.inl rfl)]
  rcases hr with ⟨rfl, rfl⟩ | ⟨id', tx, htx, rfl, rfl⟩
  · obtain ⟨chs, hchs, hin⟩ := hdel
    rcases mem_cons.mp hchs with rfl | hchs
    · have htouched := mem_touchedRows_of_deleted hin
      obtain ⟨m, hm, _, _, htype⟩ := h.owned htouched
      rw [h.marker?_commit, if_pos htouched, hm]
      exact ⟨htype hin, next_ne_invalid hwf.commitCounter_nonneg, lt_add_one _⟩
    · have hseen := hold (.inl ⟨rfl, rfl⟩) ⟨chs, hchs, hin⟩
      revert hseen
      cases (v.apply (.commit id)).versions.info.marker? o with
      | none => exact False.elim
      | some m => exact fun hseen => ⟨hseen.1, hseen.2.1, hseen.2.2.trans (lt_add_one _)⟩
  · exact hold (.inr ⟨id', tx, active_finish htx, rfl, rfl⟩) hdel

theorem Held.rollback (h : v.Held) : (v.apply (.rollback id)).Held := by
  refine h.finish (.inr rfl) fun hr hdel => ?_
  have hgone := h.gone (reads_rollback hr) hdel
  rwa [h.marker?_end (h.not_touched_of_gone hgone id) (.inr rfl)]

theorem Held.apply (hwf : v.WellFormed) (h : v.Held) (ha : v.Allows a)
    (hC : DeletesAndUpdates a ∧ v.Unclaimed a) : (v.apply a).Held := by
  cases a with
  | idle => exact h
  | change id ch => exact h.change hwf ha hC.1 hC.2
  | abandoned id ch => exact h.abandoned hwf ha hC.2
  | commit id => exact h.commit hwf
  | rollback id => exact h.rollback
  | start =>
    refine ⟨fun id => ?_, fun {id o} ho => ?_, fun hr hdel => h.gone (reads_start hr) hdel⟩
    · rw [changes_start hwf]
      exact h.noAppend id
    · rw [changes_start hwf] at ho ⊢
      exact h.owned ho

end GroupView

namespace Database

variable {db₀ db db' : Database} {log : TxLog}

/-- The row was updated by the transaction. -/
def UpdatedBy (db : Database) (tx : Transaction) (r : TableRef) (g off : ℕ) : Prop :=
  off ∈ (db.catalog.changesAt tx r g).flatMap updatedRows

theorem Idle.held (h : db₀.Idle) (r : TableRef) (g : ℕ) : (db₀.view [] r g).Held := by
  obtain ⟨hwf, hactive⟩ := h.view r g
  have hchanges : ∀ id, (db₀.view [] r g).changes id = [] := fun id =>
    hwf.changes_eq_nil (hactive id)
  refine ⟨fun id => by rw [hchanges]; rfl, fun {id o} ho => ?_, fun {start seen o} hr hdel => ?_⟩
  · simp [hchanges, touchedRows] at ho
  · obtain ⟨chs, hchs, _⟩ := hdel
    rcases hr with ⟨_, rfl⟩ | ⟨id, tx, htx, _⟩
    · cases hchs
    · exact absurd (htx.symm.trans (hactive id)) (by simp)

/-- **No committed delete is lost**, and no open update is shown: in every run of deletes and
updates in which no row with a delete marker is marked again, a row whose delete is committed
is invisible to every transaction that began afterwards, and the end of a transaction changes
the visibility of no row that another transaction has updated. -/
theorem committed_delete_stays (h₀ : db₀.Idle)
    (h : Run (fun v a => GroupView.DeletesAndUpdates a ∧ v.Unclaimed a) db₀ db log) :
    (∀ {id tx}, db.activeTransactions.lookup id = some tx →
      ∀ {r g rg off}, db.catalog.rowGroup? r g = some rg →
      (∃ tx' ∈ commitsBefore id log, db.DeletedBy tx' r g off) →
      rg.versionInfo.isVisible off tx.toSnapshot = false) ∧
    (∀ {id id' tx db' a}, a = .commit id true ∨ a = .rollback id true → Step db a db' →
      id' ≠ id → db.activeTransactions.lookup id' = some tx →
      ∀ {r g rg rg' off}, db.catalog.rowGroup? r g = some rg →
      db'.catalog.rowGroup? r g = some rg' → db.UpdatedBy tx r g off →
      ∀ s : Snapshot, rg'.versionInfo.isVisible off s = rg.versionInfo.isVisible off s) := by
  have hheld := fun r g => (h.invariant h₀ (h₀.held r g) GroupView.Held.apply).2
  constructor
  · intro id tx htx r g rg off hrg ⟨tx', htx', hdel⟩
    have hreads : (db.view log r g).Reads tx.startTime
        (commitsBefore id (db.view log r g).history) :=
      .inr ⟨id, tx.toSnapshot, active_view htx, rfl, rfl⟩
    have hgone := (hheld r g).gone hreads ⟨db.catalog.changesAt tx' r g, by
      rw [show (db.view log r g).history = log.map _ from rfl, commitsBefore_map]
      exact mem_map_of_mem htx', hdel⟩
    rw [versions_view hrg, show rg.versions.info = rg.versionInfo from rfl] at hgone
    cases hm : rg.versionInfo.marker? off with
    | none => simp [hm, DeleteSeen] at hgone
    | some m =>
      obtain ⟨htype, hct, hlt⟩ : m.type = .delete ∧ m.commitTime ≠ invalidTimestamp ∧
        m.commitTime < tx.startTime := by simpa [hm, DeleteSeen] using hgone
      simp [isVisible, hm, htype, hct, hlt]
  · intro id id' tx db' a ha hstep hid htx r g rg rg' off hrg hrg' hupd s
    have htouched : off ∈ touchedRows ((db.view log r g).changes id') := by
      rw [changes_view htx]
      exact mem_append_right _ hupd
    obtain ⟨ga, hat, hga⟩ : ∃ ga, a.at (db.view log r g) r g = some ga ∧
        (ga = .commit id ∨ ga = .rollback id) := by
      rcases ha with rfl | rfl
      · exact ⟨_, rfl, .inl rfl⟩
      · exact ⟨_, rfl, .inr rfl⟩
    have hview := (hstep.view (h.rowsOnly h₀) hat).2
    refine isVisible_congr ?_ s
    have hmarker := (hheld r g).marker?_end ((hheld r g).disjoint hid htouched) hga
    rwa [← hview, versions_view hrg, versions_view hrg'] at hmarker

theorem idle_of_keys (hkeys : db.activeTransactions.keys = ∅) (hid : 0 < db.nextTxId)
    (hct : 0 ≤ db.commitCounter) : db.Idle := by
  refine ⟨Finmap.ext_lookup fun id => ?_, hid, hct⟩
  rw [Finmap.lookup_empty, Finmap.lookup_eq_none, ← Finmap.mem_keys, hkeys]
  exact Finset.notMem_empty id

/-- A session inserts a row into `emptyTable` and commits. -/
def insertSeven : List Command := [.begin, .statement 1 (insertInt 7), .commit 1]

theorem exists_insertSeven : ∃ db₀, runAll .plain insertSeven emptyTable = some (.ok (), db₀) ∧
    db₀.Idle ∧ db₀.nextTxId = 2 := by
  obtain ⟨db₀, hrun, hidle⟩ := exists_of_after (show after insertSeven (fun db =>
      some (db.activeTransactions.keys, db.nextTxId, db.commitCounter)) = some (∅, 2, 1) by
      decide +kernel)
  simp only [some.injEq, Prod.mk.injEq] at hidle
  obtain ⟨hkeys, hnext, hcounter⟩ := hidle
  exact ⟨db₀, hrun, idle_of_keys hkeys (by rw [hnext]; decide) (by rw [hcounter]; decide), hnext⟩

/-- Transaction 2 deletes the row of `emptyTable` and commits; transaction 3 does not see it. -/
theorem deleted_row_stays_hidden : ∃ db₀ db log tx rg, Idle db₀ ∧
    Run (fun v a => GroupView.DeletesAndUpdates a ∧ v.Unclaimed a) db₀ db log ∧
    db.activeTransactions.lookup 3 = some tx ∧ db.catalog.rowGroup? tableT 0 = some rg ∧
    (∃ tx' ∈ commitsBefore 3 log, db.DeletedBy tx' tableT 0 0) ∧
    rg.versionInfo.isVisible 0 tx.toSnapshot = false := by
  obtain ⟨db₀, hrun, h₀, hnext⟩ := exists_insertSeven
  have hstart : after insertSeven (fun db => do
      let tx ← (db.beginTransaction false).activeTransactions.lookup 2
      let rg ← (db.beginTransaction false).catalog.rowGroup? tableT 0
      pure ((tx.txId, (db.beginTransaction false).catalog.resolve tx.toSnapshot tableT.schema
        tableT.name), rg.rowCount, rg.versionInfo.marker? 0,
        rg.versionInfo.isVisible 0 tx.toSnapshot)) =
      some ((2, some tableT), 1, some ⟨.insert, 1, 1⟩, true) := by decide +kernel
  have hend : after insertSeven (fun db => do
      let db₃ ← Imp.okState? (runAll .plain [.commit 2, .begin]
        (deleteFirst (db.beginTransaction false)))
      let _ ← db₃.activeTransactions.lookup 3
      let _ ← db₃.catalog.rowGroup? tableT 0
      pure ((commitsBefore 3 (logAll .plain [.commit 2, .begin]
        (deleteFirst (db.beginTransaction false)) [.began 2])).map fun tx =>
          db₃.catalog.changesAt tx tableT 0)) =
      some [[.delete [0]]] := by decide +kernel
  rw [after_eq hrun] at hstart hend
  obtain ⟨tx, htx, hf⟩ := bind_eq_some_iff.mp hstart
  obtain ⟨rg, hrg, hf⟩ := bind_eq_some_iff.mp hf
  simp only [Option.pure_def, Option.some.injEq, Prod.mk.injEq] at hf
  obtain ⟨⟨hid, hresolve⟩, hcount, hmarker, hvis⟩ := hf
  have h₁ := (show Run (fun v a => GroupView.DeletesAndUpdates a ∧ v.Unclaimed a) db₀ db₀ [] from
    .refl).step (.begin false) fun r g => ⟨_, rfl, trivial, trivial⟩
  have hdml := dml_deleteFirst hid hresolve hrg hcount hvis
  have h₂ := h₁.step (.dml (by rw [hid]; exact htx) hdml) fun r g => by
    by_cases hr : r = tableT
    · subst hr
      refine ⟨.change tx.txId (.delete (offsetsIn [⟨0, 0⟩] g)), by simp [Act.at, Change.at], rfl,
        fun o ho m hm => ?_⟩
      obtain ⟨rfl, rfl⟩ := eq_of_mem_offsetsIn_first (by
        simpa [touchedRows, insertedRows, deletedRows, updatedRows] using ho)
      rw [versions_view hrg, show rg.versions.info = rg.versionInfo from rfl, hmarker] at hm
      cases hm
      decide
    · exact ⟨.idle, by simp [Act.at, Change.at, hr], trivial, trivial⟩
  obtain ⟨⟨⟩, db₃, hcmds, hf⟩ := Imp.bind_okState? hend
  have h₃ := Run.session h₀ (by
    simp [Command.Meets, GroupView.DeletesAndUpdates, GroupView.Unclaimed]) h₂ hcmds
  obtain ⟨tx₃, htx₃, hf⟩ := bind_eq_some_iff.mp hf
  obtain ⟨rg₃, hrg₃, hf⟩ := bind_eq_some_iff.mp hf
  simp only [Option.pure_def, Option.some.injEq] at hf
  have hlog : (Act.dml tx.txId true (.delete tableT [⟨0, 0⟩])).record
      (db₀.beginTransaction false) ++ (Act.begin.record db₀ ++ []) = [.began 2] := by
    simp [Act.record, hnext]
  rw [hlog] at h₃
  obtain ⟨tx', htx', hdel⟩ := map_eq_cons_iff.mp hf
  have hdeleted : ∃ tx' ∈ commitsBefore 3 (logAll .plain [.commit 2, .begin]
      (deleteFirst (db₀.beginTransaction false)) [.began 2]),
      db₃.DeletedBy tx' tableT 0 0 := by
    refine ⟨tx', by rw [hdel.1]; exact mem_cons_self, ?_⟩
    rw [DeletedBy, hdel.2.1]
    decide
  exact ⟨db₀, db₃, _, tx₃, rg₃, h₀, h₃, htx₃, hrg₃, hdeleted,
    (committed_delete_stays h₀ h₃).1 htx₃ hrg₃ hdeleted⟩

theorem meets_deletesAndUpdates {cmd : Command}
    (hcmd : ∀ id stmt, cmd = .statement id stmt → stmt.kind = .delete) (db : Database)
    (log : TxLog) : Command.Meets (fun _ a => GroupView.DeletesAndUpdates a) db log cmd := by
  cases cmd with
  | begin => exact fun _ => trivial
  | commit id => exact fun _ _ => trivial
  | rollback id => exact fun _ _ => trivial
  | statement id stmt =>
    refine ⟨fun _ => trivial, fun _ _ ch hk => ?_⟩
    rw [hcmd id stmt rfl] at hk
    cases ch <;> first | rfl | cases hk

/-- Transactions 2 and 3 both delete the row; 2 commits and stamps the marker of 3, 3 rolls
back and erases it. Transaction 4 sees the row. -/
theorem committed_delete_lost : ∃ db₀ db log tx rg, Idle db₀ ∧
    Run (fun _ a => GroupView.DeletesAndUpdates a) db₀ db log ∧
    db.activeTransactions.lookup 4 = some tx ∧ db.catalog.rowGroup? tableT 0 = some rg ∧
    (∃ tx' ∈ commitsBefore 4 log, db.DeletedBy tx' tableT 0 0) ∧
    rg.versionInfo.isVisible 0 tx.toSnapshot = true := by
  obtain ⟨db₀, hrun, h₀, -⟩ := exists_insertSeven
  have hend : after insertSeven (fun db => do
      let db₁ ← Imp.okState? (runAll .plain [.begin, .begin, .statement 2 deleteAll,
        .statement 3 deleteAll, .commit 2, .rollback 3, .begin] db)
      let tx ← db₁.activeTransactions.lookup 4
      let rg ← db₁.catalog.rowGroup? tableT 0
      pure (rg.versionInfo.isVisible 0 tx.toSnapshot, (commitsBefore 4 (logAll
        .plain [.begin, .begin, .statement 2 deleteAll, .statement 3 deleteAll, .commit 2,
          .rollback 3, .begin] db [])).map fun tx => db₁.catalog.changesAt tx tableT 0)) =
      some (true, [[.delete [0]]]) := by decide +kernel
  rw [after_eq hrun] at hend
  obtain ⟨⟨⟩, db₁, hcmds, hf⟩ := Imp.bind_okState? hend
  have h₁ := Run.session h₀ (fun cmd hcmd => meets_deletesAndUpdates fun id stmt heq => by
    subst heq
    rcases (by simpa using hcmd : _ ∨ _) with h | h <;> rw [h.2] <;> rfl) .refl hcmds
  obtain ⟨tx, htx, hf⟩ := bind_eq_some_iff.mp hf
  obtain ⟨rg, hrg, hf⟩ := bind_eq_some_iff.mp hf
  simp only [Option.pure_def, Option.some.injEq, Prod.mk.injEq] at hf
  obtain ⟨tx', htx', hdel⟩ := map_eq_cons_iff.mp hf.2
  refine ⟨db₀, db₁, _, tx, rg, h₀, h₁, htx, hrg, ⟨tx', ?_, ?_⟩, hf.1⟩
  · rw [hdel.1]
    exact mem_cons_self
  · rw [DeletedBy, hdel.2.1]
    decide

end Database

end CppColDB
