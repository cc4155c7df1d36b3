import CppColDB.Transaction.Session

/-!
# What a commit publishes

`Commit` stamps the markers of the rows its undo buffer names, except that an insert entry
stamps the latest append of its row group in place of its own rows. `publishes_iff` says
for which rows of a transaction that is enough.
-/

namespace CppColDB

open Catalog Option VersionInfo

namespace GroupChange

/-- The rows whose markers a commit of the change stamps. -/
def stampedRows (gv : GroupVersions) : GroupChange → List ℕ
  | .append _ _ => gv.pendingRows
  | .delete offsets | .update offsets => offsets

end GroupChange

namespace GroupVersions

variable {gv : GroupVersions} {ct : Timestamp}

theorem pendingRows_commit (ch : GroupChange) : (gv.commit ct ch).pendingRows = gv.pendingRows := by
  cases ch <;> rfl

theorem marker?_commit (ch : GroupChange) (o : ℕ) : (gv.commit ct ch).info.marker? o =
      if o ∈ ch.stampedRows gv then (gv.info.marker? o).map ({ · with commitTime := ct })
      else gv.info.marker? o := by
  cases ch with
  | append start count => exact marker?_foldl_commitInsert ct _ gv.info o
  | delete offsets => exact marker?_foldl_stamp ct _ gv.info o
  | update offsets => exact marker?_foldl_stamp ct _ gv.info o

theorem marker?_revert (ch : GroupChange) (o : ℕ) : (gv.revert ch).info.marker? o =
      if o ∈ ch.stampedRows gv then none else gv.info.marker? o := by
  cases ch with
  | append start count => exact marker?_foldl_eraseMarker 1 0 _ gv.info o
  | delete offsets => exact marker?_foldl_eraseMarker 0 1 _ gv.info o
  | update offsets => exact marker?_foldl_eraseMarker 1 1 _ gv.info o

/-- A commit stamps the markers of the rows of its changes and no others. -/
theorem marker?_foldl_commit (chs : List GroupChange) (o : ℕ) :
    (chs.foldl (GroupVersions.commit ct) gv).info.marker? o =
      if o ∈ chs.flatMap (GroupChange.stampedRows gv) then
        (gv.info.marker? o).map ({ · with commitTime := ct })
      else gv.info.marker? o := by
  induction chs generalizing gv with
  | nil => simp
  | cons ch chs ih =>
    have hstamped : GroupChange.stampedRows (gv.commit ct ch) = GroupChange.stampedRows gv := by
      funext ch'
      cases ch' with
      | append _ _ => exact pendingRows_commit ch
      | delete _ => rfl
      | update _ => rfl
    rw [List.foldl_cons, ih, hstamped, marker?_commit]
    by_cases hch : o ∈ ch.stampedRows gv
    · by_cases hrest : o ∈ chs.flatMap (GroupChange.stampedRows gv)
      · simp [hch, Function.comp_def]
      · simp [hrest]
    · simp [hch]

end GroupVersions

/-! ## Markers of ended and running transactions -/

namespace GroupView

/-- Markers belong to transactions that have begun, and stamps are of the past. -/
def Bounded (v : GroupView) : Prop :=
  ∀ {o m}, v.versions.info.marker? o = some m → m.txId < v.nextTxId ∧ m.commitTime ≤ v.commitCounter

variable {v : GroupView}

theorem marker?_make (gv : GroupVersions) (id : TransactionId) (ch : GroupChange) (o : ℕ) :
    (gv.make id ch).info.marker? o = gv.info.marker? o ∨
      ∃ type, (gv.make id ch).info.marker? o = some { type, txId := id } := by
  have hmark : ∀ (type : VersionMarkerType) (offs : List ℕ),
      (offs.foldl (fun vi i => vi.mark i type id) gv.info).marker? o = gv.info.marker? o ∨
        (offs.foldl (fun vi i => vi.mark i type id) gv.info).marker? o =
          some { type, txId := id } := by
    intro type offs
    rw [marker?_foldl_mark]
    by_cases ho : o ∈ offs <;> simp [ho]
  cases ch with
  | append start count =>
    simp only [GroupVersions.make, GroupVersions.append]
    split
    · exact .inl rfl
    · exact (hmark .insert _).imp_right fun h => ⟨_, h⟩
  | delete offsets => exact (hmark .delete offsets).imp_right fun h => ⟨_, h⟩
  | update offsets => exact (hmark .update offsets).imp_right fun h => ⟨_, h⟩

theorem marker?_foldl_revert {gv : GroupVersions} {chs : List GroupChange} {o : ℕ}
    {m : VersionMarker} (h : (chs.foldl GroupVersions.revert gv).info.marker? o = some m) :
    gv.info.marker? o = some m := by
  induction chs generalizing gv with
  | nil => exact h
  | cons ch chs ih =>
    have hrev := ih h
    rw [GroupVersions.marker?_revert] at hrev
    split at hrev
    · cases hrev
    · exact hrev

theorem Bounded.apply {a : GroupAct} (hwf : v.WellFormed) (h : v.Bounded) (ha : v.Allows a) :
    (v.apply a).Bounded := by
  have hmade : ∀ {id : TransactionId} {tx : Snapshot} (ch : GroupChange),
      v.active id = some tx → ∀ {o m}, (v.versions.make id ch).info.marker? o = some m →
      m.txId < v.nextTxId ∧ m.commitTime ≤ v.commitCounter := by
    intro id tx ch htx o m hm
    rcases marker?_make v.versions id ch o with heq | ⟨type, heq⟩
    · exact h (heq ▸ hm)
    · cases heq.symm.trans hm
      exact ⟨hwf.txId_lt htx,
        le_trans (show invalidTimestamp ≤ 0 by decide) hwf.commitCounter_nonneg⟩
  intro o m hm
  cases a with
  | idle => exact h hm
  | start => exact ⟨Nat.lt_succ_of_lt (h hm).1, (h hm).2⟩
  | change id ch =>
    obtain ⟨tx, htx, _⟩ := ha
    exact hmade ch htx hm
  | abandoned id ch =>
    obtain ⟨_, tx, htx, _⟩ := ha
    exact hmade ch htx hm
  | rollback id => exact h (marker?_foldl_revert hm)
  | commit id =>
    simp only [GroupView.apply, GroupVersions.marker?_foldl_commit] at hm
    split at hm
    · obtain ⟨m₀, hm₀, rfl⟩ := map_eq_some_iff.mp hm
      exact ⟨(h hm₀).1, le_refl _⟩
    · exact ⟨(h hm).1, le_trans (h hm).2 (le_of_lt (lt_add_one _))⟩

end GroupView

variable {next : TransactionId} {now : Timestamp}

/-- Transactions that begin later see a row unless its marker is an uncommitted insert or
update, or a committed delete. -/
theorem isVisible_later_iff {vi : VersionInfo} {o : ℕ}
    (hb : ∀ {m}, vi.marker? o = some m → m.txId < next ∧ m.commitTime ≤ now) :
    (∀ tx : Snapshot, next ≤ tx.txId → now < tx.startTime → vi.isVisible o tx = true) ↔
      ∀ m, vi.marker? o = some m → (m.type = .delete ↔ m.commitTime = invalidTimestamp) := by
  have hvis : ∀ {m : VersionMarker} {tx : Snapshot}, vi.marker? o = some m → next ≤ tx.txId →
      now < tx.startTime →
      (vi.isVisible o tx = true ↔ (m.type = .delete ↔ m.commitTime = invalidTimestamp)) := by
    intro m tx hm hid hstart
    have hne : m.txId ≠ tx.txId := (lt_of_lt_of_le (hb hm).1 hid).ne
    have hlt : m.commitTime < tx.startTime := lt_of_le_of_lt (hb hm).2 hstart
    cases ht : m.type <;> by_cases hct : m.commitTime = invalidTimestamp <;>
      simp [isVisible, hm, ht, hne, hlt]
  constructor
  · intro h m hm
    exact (hvis hm (le_refl _) (lt_add_one now)).mp (h ⟨next, now + 1⟩ (le_refl _) (lt_add_one now))
  · intro h tx hid hstart
    cases hm : vi.marker? o with
    | none => rw [isVisible, hm]
    | some m => exact (hvis hm hid hstart).mpr (h m hm)

/-- The marker of the row is one that a commit of the changes leaves visible: an insert or
update that the commit stamps or that is committed, or a foreign delete that is not. -/
def GroupVersions.Publishable (gv : GroupVersions) (chs : List GroupChange) (o : ℕ) : Prop :=
  ∀ m, gv.info.marker? o = some m →
    if o ∈ gv.pendingRows ∨ o ∈ chs.flatMap GroupChange.updatedRows then m.type ≠ .delete
    else m.type = .delete ↔ m.commitTime = invalidTimestamp

namespace GroupVersions

variable {gv : GroupVersions} {chs : List GroupChange} {o : ℕ}

theorem mem_stampedRows_iff (hins : o ∈ chs.flatMap GroupChange.insertedRows)
    (hdel : o ∉ chs.flatMap GroupChange.deletedRows) :
    o ∈ chs.flatMap (GroupChange.stampedRows gv) ↔
      o ∈ gv.pendingRows ∨ o ∈ chs.flatMap GroupChange.updatedRows := by
  simp only [List.mem_flatMap] at hins hdel ⊢
  constructor
  · rintro ⟨ch, hch, ho⟩
    cases ch with
    | append _ _ => exact .inl ho
    | delete offsets => exact absurd ⟨_, hch, ho⟩ hdel
    | update offsets => exact .inr ⟨_, hch, ho⟩
  · rintro (ho | ⟨ch, hch, ho⟩)
    · obtain ⟨ch, hch, hoch⟩ := hins
      cases ch with
      | append start count => exact ⟨_, hch, ho⟩
      | delete offsets => simp [GroupChange.insertedRows] at hoch
      | update offsets => simp [GroupChange.insertedRows] at hoch
    · cases ch with
      | append _ _ => simp [GroupChange.updatedRows] at ho
      | delete offsets => simp [GroupChange.updatedRows] at ho
      | update offsets => exact ⟨_, hch, ho⟩

/-- A commit leaves a row visible to later transactions if and only if its marker was
publishable. -/
theorem isVisible_later_commit_iff (hnow : 0 ≤ now)
    (hb : ∀ {m}, gv.info.marker? o = some m → m.txId < next ∧ m.commitTime ≤ now)
    (hins : o ∈ chs.flatMap GroupChange.insertedRows)
    (hdel : o ∉ chs.flatMap GroupChange.deletedRows) :
    (∀ tx : Snapshot, next ≤ tx.txId → now + 1 < tx.startTime →
      (chs.foldl (commit (now + 1)) gv).info.isVisible o tx = true) ↔ gv.Publishable chs o := by
  have hmarker : (chs.foldl (commit (now + 1)) gv).info.marker? o = _ := marker?_foldl_commit chs o
  simp only [mem_stampedRows_iff hins hdel] at hmarker
  have hb' : ∀ {m}, (chs.foldl (commit (now + 1)) gv).info.marker? o = some m →
      m.txId < next ∧ m.commitTime ≤ now + 1 := by
    intro m hm
    rw [hmarker] at hm
    split at hm
    · obtain ⟨m₀, hm₀, rfl⟩ := map_eq_some_iff.mp hm
      exact ⟨(hb hm₀).1, le_refl _⟩
    · exact ⟨(hb hm).1, le_trans (hb hm).2 (le_of_lt (lt_add_one _))⟩
  rw [isVisible_later_iff hb', hmarker, Publishable]
  split
  · -- the stamp is a time, so the marker must not be a delete
    have hstamp := next_ne_invalid hnow
    constructor
    · intro h m hm hdelete
      exact hstamp ((h _ (map_eq_some_iff.mpr ⟨m, hm, rfl⟩)).mp hdelete)
    · intro h m hm
      obtain ⟨m₀, hm₀, rfl⟩ := map_eq_some_iff.mp hm
      exact ⟨fun hdelete => absurd hdelete (h m₀ hm₀), fun hct => absurd hct hstamp⟩
  · rfl

end GroupVersions

namespace Database

variable {db₀ db db' : Database} {log : TxLog} {tx : Transaction}

/-- After the commit from `db` to `db'`, every row that `tx` inserted and did not delete is
visible to every transaction that begins afterwards. -/
def Publishes (tx : Transaction) (db db' : Database) : Prop :=
  ∀ {r g rg}, db'.catalog.rowGroup? r g = some rg →
    ∀ off ∈ (db.catalog.changesAt tx r g).flatMap GroupChange.insertedRows,
      off ∉ (db.catalog.changesAt tx r g).flatMap GroupChange.deletedRows →
      ∀ later : Snapshot, db'.nextTxId ≤ later.txId → db'.commitCounter < later.startTime →
        rg.versionInfo.isVisible off later = true

theorem Run.bounded {C : GroupView → GroupAct → Prop} (h₀ : db₀.Quiet) (h : Run C db₀ db log)
    (r : TableRef) (g : ℕ) : (db.view log r g).WellFormed ∧ (db.view log r g).Bounded := by
  refine h.invariant h₀.idle ?_ fun hwf hI ha _ => hI.apply hwf ha
  intro o m hm
  rw [(h₀.view r g).2.1] at hm
  cases hm

theorem commit_effect (h : Database.commit tx db = some (.ok (), db')) :
    db'.nextTxId = db.nextTxId ∧ db'.commitCounter = db.commitCounter + 1 ∧
      ∀ r g, db'.catalog.groupVersions? r g = (db.catalog.groupVersions? r g).map fun gv =>
        (db.catalog.changesAt tx r g).foldl (GroupVersions.commit (db.commitCounter + 1)) gv := by
  obtain ⟨wal, rfl⟩ := commit_run h
  exact ⟨rfl, rfl, fun r g => groupVersions?_applyUndoBuffer⟩

/-- **What a commit publishes**: after any history, committing a transaction shows all the
rows it inserted and did not delete to later transactions if and only if each of them has
a publishable marker. -/
theorem publishes_iff (h₀ : db₀.Quiet) (h : Run (fun _ _ => True) db₀ db log)
    (hcommit : Database.commit tx db = some (.ok (), db')) :
    Publishes tx db db' ↔ ∀ {r g rg}, db.catalog.rowGroup? r g = some rg →
        ∀ off ∈ (db.catalog.changesAt tx r g).flatMap GroupChange.insertedRows,
          off ∉ (db.catalog.changesAt tx r g).flatMap GroupChange.deletedRows →
          rg.versions.Publishable (db.catalog.changesAt tx r g) off := by
  obtain ⟨hnext, hnow, hgv⟩ := commit_effect hcommit
  have hrow : ∀ {r g rg off}, db.catalog.rowGroup? r g = some rg →
      off ∈ (db.catalog.changesAt tx r g).flatMap GroupChange.insertedRows →
      off ∉ (db.catalog.changesAt tx r g).flatMap GroupChange.deletedRows →
      ((∀ later : Snapshot, db.nextTxId ≤ later.txId → db.commitCounter + 1 < later.startTime →
        ((db.catalog.changesAt tx r g).foldl (GroupVersions.commit (db.commitCounter + 1))
          rg.versions).info.isVisible off later = true) ↔
        rg.versions.Publishable (db.catalog.changesAt tx r g) off) := by
    intro r g rg off hrg hins hdel
    obtain ⟨hwf, hb⟩ := h.bounded h₀ r g
    exact GroupVersions.isVisible_later_commit_iff hwf.commitCounter_nonneg
      (fun hm => hb (versions_view hrg ▸ hm)) hins hdel
  constructor
  · intro hpub r g rg hrg off hins hdel
    have hgv' := hgv r g
    rw [groupVersions?, groupVersions?, hrg] at hgv'
    obtain ⟨rg', hrg', hversions⟩ := map_eq_some_iff.mp hgv'
    refine (hrow hrg hins hdel).mp fun later hid hstart => ?_
    dsimp only at hversions
    rw [← hversions]
    exact hpub hrg' off hins hdel later (hnext ▸ hid) (hnow ▸ hstart)
  · intro hpub r g rg' hrg' off hins hdel later hid hstart
    have hgv' := hgv r g
    rw [groupVersions?, hrg'] at hgv'
    obtain ⟨gv, hgv', hversions⟩ := map_eq_some_iff.mp hgv'.symm
    obtain ⟨rg, hrg, rfl⟩ := map_eq_some_iff.mp hgv'
    have hvis := (hrow hrg hins hdel).mpr (hpub hrg off hins hdel) later (hnext ▸ hid)
      (hnow ▸ hstart)
    rw [hversions] at hvis
    exact hvis

theorem single_insert_published : ∃ db log tx db', Run (fun _ _ => True) emptyTable db log ∧
    db.activeTransactions.lookup 1 = some tx ∧ Database.commit tx db = some (.ok (), db') ∧
    Publishes tx db db' := by
  obtain ⟨db, hrun, hf⟩ := exists_run_of_after (fun cmd _ _ _ => meets_true _ _ cmd) (show after
    [.begin, .statement 1 (insertInt 7)] (fun db => do
      let tx ← db.activeTransactions.lookup 1
      let _ ← Imp.okState? (Database.commit tx db)
      let e ← tx.onlyInsert?
      let r ← db.catalog.resolve tx.toSnapshot e.schema e.table
      let rg ← db.catalog.rowGroup? r e.rowGroupId
      pure ((e.appendStart, e.appendCount), rg.versions.pendingRows,
        rg.versionInfo.marker? 0)) = some ((0, 1), [0], some { type := .insert, txId := 1 }) by
      decide +kernel)
  obtain ⟨tx, htx, hf⟩ := bind_eq_some_iff.mp hf
  obtain ⟨⟨⟩, db', hcommit, hf⟩ := Imp.bind_okState? hf
  simp only [bind_eq_bind, bind_eq_some_iff, pure_def, some.injEq, Prod.mk.injEq] at hf
  obtain ⟨e, he, r, hr, rg, hrg, ⟨hstart, hcount⟩, hpending, hmarker⟩ := hf
  refine ⟨db, _, tx, db', hrun, htx, hcommit,
    (publishes_iff quiet_emptyTable hrun hcommit).mpr fun {r' g' rg'} hrg' off hoff _ => ?_⟩
  rw [changesAt_of_onlyInsert? he hr, hstart, hcount] at hoff ⊢
  split at hoff
  next hsame =>
    obtain ⟨rfl, rfl⟩ := hsame
    cases hrg.symm.trans hrg'
    obtain rfl : off = 0 := by simpa [GroupChange.insertedRows] using hoff
    intro m hm
    cases hmarker.symm.trans hm
    simp [hpending]
  next => simp at hoff

/-- Transaction 1 inserts a row, inserts another one and commits. The first row keeps its
uncommitted marker: no later transaction sees it. -/
theorem second_insert_hides_first : ∃ db log tx db', Run (fun _ _ => True) emptyTable db log ∧
    db.activeTransactions.lookup 1 = some tx ∧ Database.commit tx db = some (.ok (), db') ∧
    ¬ Publishes tx db db' := by
  obtain ⟨db, hrun, hf⟩ := exists_run_of_after (fun cmd _ _ _ => meets_true _ _ cmd) (show after
    [.begin, .statement 1 (insertInt 7), .statement 1 (insertInt 8)] (fun db => do
      let tx ← db.activeTransactions.lookup 1
      let db' ← Imp.okState? (Database.commit tx db)
      let rg ← db'.catalog.rowGroup? tableT 0
      pure (((db.catalog.changesAt tx tableT 0).flatMap GroupChange.insertedRows,
        (db.catalog.changesAt tx tableT 0).flatMap GroupChange.deletedRows),
        (db'.nextTxId, db'.commitCounter), rg.versionInfo.isVisible 0 ⟨2, 2⟩)) =
      some (([0, 1], []), (2, 1), false) by decide +kernel)
  obtain ⟨tx, htx, hf⟩ := bind_eq_some_iff.mp hf
  obtain ⟨⟨⟩, db', hcommit, hf⟩ := Imp.bind_okState? hf
  obtain ⟨rg, hrg, hf⟩ := bind_eq_some_iff.mp hf
  simp only [pure_def, some.injEq, Prod.mk.injEq] at hf
  obtain ⟨⟨hins, hdel⟩, ⟨hnext, hnow⟩, hvis⟩ := hf
  refine ⟨db, _, tx, db', hrun, htx, hcommit, fun hpub => ?_⟩
  have htrue := hpub hrg 0 (by simp [hins]) (by simp [hdel]) ⟨2, 2⟩ hnext.le (by simp [hnow])
  exact absurd (htrue.symm.trans hvis) (by decide)

end Database

end CppColDB
