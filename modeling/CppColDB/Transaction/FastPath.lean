import CppColDB.Transaction.Session

/-!
# The fast path of scans

`AllInsertedVisibleTo` decides from three counters that a whole row group is visible. The
counters are sound as long as every mark that a transaction still has to commit or revert
is counted: `Ledger` relates the counters of a row group to its open marks. Each call on
version markers spends or earns one mark.

An append is committed and reverted through `pendingRows`, the latest append of the row
group, whoever made it. A call that finds this append committed already spends a mark that
is not there, and the counters reach zero too early.
-/

namespace CppColDB

variable {tx : Snapshot}

namespace VersionInfo

/-- The counters count every mark in `inserts` and `mods`, the rows marked by active
transactions. Marks of ended statements on deletes and updates stay counted in
`deleteUpdateCount`. A marker that no such mark explains is a committed insert. -/
structure Ledger (vi : VersionInfo) (inserts mods : Multiset ℕ) : Prop where
  uncommitted : (inserts.card + mods.card : ℤ) ≤ vi.uncommittedCount
  covered : ∃ ended : Multiset ℕ, (mods.card + ended.card : ℤ) ≤ vi.deleteUpdateCount ∧
    ∀ {o m}, vi.marker? o = some m → o ∈ mods ∨ o ∈ ended ∨ m.type = .insert ∧ (o ∈ inserts ∨
        m.commitTime ≠ invalidTimestamp ∧ m.commitTime ≤ vi.maxInsertCommitTime)

namespace Ledger

variable {vi : VersionInfo} {inserts mods : Multiset ℕ} {o : ℕ} {txId : TransactionId}
  {ct : Timestamp}

theorem markInserted (h : vi.Ledger inserts mods) :
    (vi.markInserted o txId).Ledger (o ::ₘ inserts) mods := by
  obtain ⟨ended, hcount, hcov⟩ := h.covered
  refine ⟨?_, ended, ?_, fun {o' m} hm => ?_⟩
  · have hunc := h.uncommitted
    simp only [VersionInfo.markInserted, mark, Multiset.card_cons]
    omega
  · simpa [VersionInfo.markInserted, mark] using hcount
  · rw [VersionInfo.markInserted, marker?_mark] at hm
    split at hm
    next ho =>
      cases hm
      exact .inr (.inr ⟨rfl, .inl (by simp [ho])⟩)
    next =>
      rcases hcov hm with h | h | ⟨ht, h | h⟩
      · exact .inl h
      · exact .inr (.inl h)
      · exact .inr (.inr ⟨ht, .inl (Multiset.mem_cons_of_mem h)⟩)
      · exact .inr (.inr ⟨ht, .inr h⟩)

theorem mark {type : VersionMarkerType} (htype : type ≠ .insert) (h : vi.Ledger inserts mods) :
    (vi.mark o type txId).Ledger inserts (o ::ₘ mods) := by
  obtain ⟨ended, hcount, hcov⟩ := h.covered
  refine ⟨?_, ended, ?_, fun {o' m} hm => ?_⟩
  · have hunc := h.uncommitted
    simp only [VersionInfo.mark, Multiset.card_cons]
    omega
  · simp only [VersionInfo.mark, Multiset.card_cons, if_neg htype]
    omega
  · rw [marker?_mark] at hm
    split at hm
    next ho => exact .inl (by simp [ho])
    next =>
      rcases hcov hm with h | h
      · exact .inl (Multiset.mem_cons_of_mem h)
      · exact .inr h

theorem markDeleted (h : vi.Ledger inserts mods) :
    (vi.markDeleted o txId).Ledger inserts (o ::ₘ mods) := h.mark (by decide)

theorem markUpdated (h : vi.Ledger inserts mods) :
    (vi.markUpdated o txId).Ledger inserts (o ::ₘ mods) := h.mark (by decide)

variable {s : Multiset ℕ}

theorem commitInsert (hct : 0 ≤ ct) (h : vi.Ledger (o ::ₘ inserts) mods) :
    (vi.commitInsert o ct).Ledger inserts mods := by
  obtain ⟨ended, hcount, hcov⟩ := h.covered
  have hunc := h.uncommitted
  rw [Multiset.card_cons] at hunc
  cases hm : vi.marker? o with
  | none =>
    rw [commitInsert_of_none hm]
    refine ⟨by omega, ended, hcount, fun {o' m} hm' => ?_⟩
    rcases hcov hm' with h | h | ⟨ht, h | h⟩
    · exact .inl h
    · exact .inr (.inl h)
    · rcases Multiset.mem_cons.mp h with rfl | h
      · simp [hm] at hm'
      · exact .inr (.inr ⟨ht, .inl h⟩)
    · exact .inr (.inr ⟨ht, .inr h⟩)
  | some m =>
    have hmax : (vi.commitInsert o ct).maxInsertCommitTime = max vi.maxInsertCommitTime ct := by
      rw [commitInsert_of_some hm]
    refine ⟨?_, ended, ?_, fun {o' m'} hm' => ?_⟩
    · rw [commitInsert_of_some hm, stamp_of_some hm]
      dsimp only
      omega
    · rwa [commitInsert_of_some hm, stamp_of_some hm]
    · rw [hmax]
      rw [marker?_commitInsert] at hm'
      split at hm'
      next ho =>
        -- the stamped marker keeps its kind and an insert is settled by its stamp
        subst ho
        rw [hm] at hm'
        cases hm'
        rcases hcov hm with h | h | ⟨ht, _⟩
        · exact .inl h
        · exact .inr (.inl h)
        · refine .inr (.inr ⟨ht, .inr ⟨?_, le_max_right _ _⟩⟩)
          exact (lt_of_lt_of_le (by decide : (-1 : ℤ) < 0) hct).ne'
      next ho =>
        rcases hcov hm' with h | h | ⟨ht, h | ⟨hne, hle⟩⟩
        · exact .inl h
        · exact .inr (.inl h)
        · rcases Multiset.mem_cons.mp h with h | h
          · exact absurd h ho
          · exact .inr (.inr ⟨ht, .inl h⟩)
        · exact .inr (.inr ⟨ht, .inr ⟨hne, le_trans hle (le_max_left _ _)⟩⟩)

theorem stamp (h : vi.Ledger inserts (o ::ₘ mods)) : (vi.stamp o ct).Ledger inserts mods := by
  obtain ⟨ended, hcount, hcov⟩ := h.covered
  have hunc := h.uncommitted
  rw [Multiset.card_cons] at hunc hcount
  have hfields : (vi.stamp o ct).deleteUpdateCount = vi.deleteUpdateCount ∧
      (vi.stamp o ct).maxInsertCommitTime = vi.maxInsertCommitTime ∧
      vi.uncommittedCount - 1 ≤ (vi.stamp o ct).uncommittedCount := by
    cases hm : vi.marker? o with
    | none => rw [stamp_of_none hm]; simp
    | some m => rw [stamp_of_some hm]; simp
  obtain ⟨hdu, hmax, hle⟩ := hfields
  refine ⟨by omega, o ::ₘ ended, ?_, fun {o' m'} hm' => ?_⟩
  · rw [Multiset.card_cons]
    omega
  · rw [hmax]
    rw [marker?_stamp] at hm'
    split at hm'
    next ho => exact .inr (.inl (by simp [ho]))
    next ho =>
      rcases hcov hm' with h | h | h
      · rcases Multiset.mem_cons.mp h with h | h
        · exact absurd h ho
        · exact .inl h
      · exact .inr (.inl (Multiset.mem_cons_of_mem h))
      · exact .inr (.inr h)

theorem revertInsert (h : vi.Ledger (o ::ₘ inserts) mods) :
    (vi.revertInsert o).Ledger inserts mods := by
  obtain ⟨ended, hcount, hcov⟩ := h.covered
  have hunc := h.uncommitted
  rw [Multiset.card_cons] at hunc
  have hfields : (vi.revertInsert o).deleteUpdateCount = vi.deleteUpdateCount ∧
      (vi.revertInsert o).maxInsertCommitTime = vi.maxInsertCommitTime ∧
      vi.uncommittedCount - 1 ≤ (vi.revertInsert o).uncommittedCount := by
    rw [VersionInfo.revertInsert]
    cases hm : vi.marker? o with
    | none => rw [eraseMarker_of_none hm]; simp
    | some m => rw [eraseMarker_of_some hm]; simp
  obtain ⟨hdu, hmax, hle⟩ := hfields
  refine ⟨by omega, ended, hdu ▸ hcount, fun {o' m'} hm' => ?_⟩
  rw [hmax]
  rw [VersionInfo.revertInsert, marker?_eraseMarker] at hm'
  split at hm'
  next => cases hm'
  next ho =>
    rcases hcov hm' with h | h | ⟨ht, h | h⟩
    · exact .inl h
    · exact .inr (.inl h)
    · rcases Multiset.mem_cons.mp h with h | h
      · exact absurd h ho
      · exact .inr (.inr ⟨ht, .inl h⟩)
    · exact .inr (.inr ⟨ht, .inr h⟩)

/-- Clearing a delete leaves `uncommittedCount` as it is, reverting an update lowers it. -/
theorem eraseMarker {a : ℤ} (ha : a ≤ 1) (h : vi.Ledger inserts (o ::ₘ mods)) :
    (vi.eraseMarker o a 1).Ledger inserts mods := by
  obtain ⟨ended, hcount, hcov⟩ := h.covered
  have hunc := h.uncommitted
  rw [Multiset.card_cons] at hunc hcount
  have hfields : vi.deleteUpdateCount - 1 ≤ (vi.eraseMarker o a 1).deleteUpdateCount ∧
      (vi.eraseMarker o a 1).maxInsertCommitTime = vi.maxInsertCommitTime ∧
      vi.uncommittedCount - 1 ≤ (vi.eraseMarker o a 1).uncommittedCount := by
    cases hm : vi.marker? o with
    | none => rw [eraseMarker_of_none hm]; simp
    | some m => rw [eraseMarker_of_some hm]; simp; omega
  obtain ⟨hdu, hmax, hle⟩ := hfields
  refine ⟨by omega, ended, by omega, fun {o' m'} hm' => ?_⟩
  rw [hmax]
  rw [marker?_eraseMarker] at hm'
  split at hm'
  next => cases hm'
  next ho =>
    rcases hcov hm' with h | h | h
    · rcases Multiset.mem_cons.mp h with h | h
      · exact absurd h ho
      · exact .inl h
    · exact .inr (.inl h)
    · exact .inr (.inr h)

/-- **Soundness of the fast path**: with nothing left to count, every row is visible. -/
theorem isVisible (h : vi.Ledger inserts mods)
    (hfast : vi.allInsertedVisibleTo tx.startTime = true) (o : ℕ) :
    vi.isVisible o tx = true := by
  obtain ⟨⟨hunc, hdu⟩, hmax⟩ : (vi.uncommittedCount = 0 ∧ vi.deleteUpdateCount = 0) ∧
      vi.maxInsertCommitTime < tx.startTime := by
    simpa [allInsertedVisibleTo] using hfast
  obtain ⟨ended, hcount, hcov⟩ := h.covered
  have hle := h.uncommitted
  have hinserts : inserts = 0 := Multiset.card_eq_zero.mp (by omega)
  have hmods : mods = 0 := Multiset.card_eq_zero.mp (by omega)
  have hended : ended = 0 := Multiset.card_eq_zero.mp (by omega)
  subst hinserts hmods hended
  cases hm : vi.marker? o with
  | none => rw [VersionInfo.isVisible, hm]
  | some m =>
    obtain ⟨ht, hne, hct⟩ : m.type = .insert ∧ m.commitTime ≠ invalidTimestamp ∧
        m.commitTime ≤ vi.maxInsertCommitTime := by simpa using hcov hm
    simp [VersionInfo.isVisible, hm, ht, hne, lt_of_le_of_lt hct hmax]

/-! ## Calls for several rows -/

variable {L : VersionInfo → Multiset ℕ → Prop} {f : VersionInfo → ℕ → VersionInfo}
  {vi : VersionInfo}

theorem foldl_spend (hf : ∀ {vi o s}, L vi (o ::ₘ s) → L (f vi o) s) (offsets : List ℕ)
    (h : L vi (↑offsets + s)) : L (offsets.foldl f vi) s := by
  induction offsets generalizing vi with
  | nil => simpa using h
  | cons o offsets ih =>
    apply ih
    apply hf
    rwa [← Multiset.cons_coe, Multiset.cons_add] at h

theorem foldl_earn
    (hf : ∀ {vi o s}, L vi s → L (f vi o) (o ::ₘ s)) (offsets : List ℕ)
    (h : L vi s) : L (offsets.foldl f vi) (↑offsets + s) := by
  induction offsets generalizing vi s with
  | nil => simpa using h
  | cons o offsets ih =>
    have hrest := ih (hf h : L (f vi o) (o ::ₘ s))
    rwa [Multiset.add_cons, ← Multiset.cons_add, Multiset.cons_coe] at hrest

end Ledger

end VersionInfo

/-! ## The counters as machine integers -/

namespace VersionInfo

/-- Both counters are at most `n`. -/
def Bounded (vi : VersionInfo) (n : ℤ) : Prop := vi.uncommittedCount ≤ n ∧ vi.deleteUpdateCount ≤ n

variable {vi : VersionInfo} {n : ℤ} {o : ℕ}

theorem Bounded.mark (h : vi.Bounded n) (type : VersionMarkerType) (txId : TransactionId) :
    (vi.mark o type txId).Bounded (n + 1) := by
  obtain ⟨hunc, hdu⟩ := h
  simp only [Bounded, VersionInfo.mark]
  split <;> omega

theorem Bounded.stamp (h : vi.Bounded n) (ct : Timestamp) : (vi.stamp o ct).Bounded n := by
  obtain ⟨hunc, hdu⟩ := h
  cases hm : vi.marker? o with
  | none => rw [stamp_of_none hm]; exact ⟨hunc, hdu⟩
  | some m => rw [stamp_of_some hm]; exact ⟨by dsimp only; omega, hdu⟩

theorem Bounded.commitInsert (h : vi.Bounded n) (ct : Timestamp) :
    (vi.commitInsert o ct).Bounded n := by
  cases hm : vi.marker? o with
  | none => rwa [commitInsert_of_none hm]
  | some m => rw [commitInsert_of_some hm]; exact h.stamp ct

theorem Bounded.eraseMarker (h : vi.Bounded n) {a b : ℤ} (ha : 0 ≤ a) (hb : 0 ≤ b) :
    (vi.eraseMarker o a b).Bounded n := by
  obtain ⟨hunc, hdu⟩ := h
  cases hm : vi.marker? o with
  | none => rw [eraseMarker_of_none hm]; exact ⟨hunc, hdu⟩
  | some m => rw [eraseMarker_of_some hm]; exact ⟨by dsimp only; omega, by dsimp only; omega⟩

theorem Bounded.markRows (h : vi.Bounded n) (txId : TransactionId) (start count : ℕ) :
    (RowGroup.markRows txId start count vi).Bounded (n + count) := by
  induction count generalizing vi n start with
  | zero => simpa [RowGroup.markRows] using h
  | succ count ih =>
    have hrest := ih (h.mark .insert txId : (vi.markInserted start txId).Bounded (n + 1)) (start + 1)
    rwa [Nat.cast_succ, add_comm (count : ℤ), ← add_assoc]

end VersionInfo

/-! ## Runs of calls -/

namespace RowGroup

open VersionInfo

/-- The states of a row group under the calls of statements and of the transaction manager,
beginning without markers. `inserts` and `mods` are the rows whose marks are open, neither committed
nor reverted yet, and `n` is the number of marks that have been set. A commit or revert is a call for
open marks: that of an append needs the latest append to be open. -/
inductive Calls : RowGroup → Multiset ℕ → Multiset ℕ → ℕ → Prop
  | start {rg : RowGroup} (h : rg.versionInfo = {}) : Calls rg 0 0 0
  | append {rg rg' : RowGroup} {inserts mods : Multiset ℕ} {n : ℕ} {chunk : DataChunk}
      {colIds : List ℕ} {txId : TransactionId} (h : Calls rg inserts mods n)
      (htx : txId ≠ invalidTransaction) (happend : rg.append chunk colIds txId = some rg') :
      Calls rg' (List.range' rg.rowCount chunk.count + inserts) mods (n + chunk.count)
  -- an append that throws has set `pending_append_start_`, and any of the columns
  | appendThrows {rg : RowGroup} {inserts mods : Multiset ℕ} {n : ℕ} (h : Calls rg inserts mods n)
      (txId : TransactionId) (columnChunks : List ColumnChunk) :
      Calls { rg with pendingAppendStart := rg.rowCount, pendingAppendTxId := txId, columnChunks }
        inserts mods n
  | commitAppend {rg : RowGroup} {inserts mods : Multiset ℕ} {n : ℕ} (ct : Timestamp) (hct : 0 ≤ ct)
      (h : Calls rg (rg.pendingRows + inserts) mods n) : Calls (rg.commitAppend ct) inserts mods n
  | revertAppend {rg : RowGroup} {inserts mods : Multiset ℕ} {n : ℕ}
      (h : Calls rg (rg.pendingRows + inserts) mods n) : Calls rg.revertAppend inserts mods n
  | markDeleted {rg : RowGroup} {inserts mods : Multiset ℕ} {n : ℕ} (h : Calls rg inserts mods n)
      (o : ℕ) (txId : TransactionId) :
      Calls (rg.mapVersionInfo (·.markDeleted o txId)) inserts (o ::ₘ mods) (n + 1)
  | markUpdated {rg : RowGroup} {inserts mods : Multiset ℕ} {n : ℕ} (h : Calls rg inserts mods n)
      (o : ℕ) (txId : TransactionId) :
      Calls (rg.mapVersionInfo (·.markUpdated o txId)) inserts (o ::ₘ mods) (n + 1)
  | commitDelete {rg : RowGroup} {inserts mods : Multiset ℕ} {n o : ℕ} (ct : Timestamp)
      (h : Calls rg inserts (o ::ₘ mods) n) :
      Calls (rg.mapVersionInfo (·.commitDelete o ct)) inserts mods n
  | commitUpdate {rg : RowGroup} {inserts mods : Multiset ℕ} {n o : ℕ} (ct : Timestamp)
      (h : Calls rg inserts (o ::ₘ mods) n) :
      Calls (rg.mapVersionInfo (·.commitUpdate o ct)) inserts mods n
  | clearDeleteMarker {rg : RowGroup} {inserts mods : Multiset ℕ} {n o : ℕ}
      (h : Calls rg inserts (o ::ₘ mods) n) :
      Calls (rg.mapVersionInfo (·.clearDeleteMarker o)) inserts mods n
  | revertUpdate {rg : RowGroup} {inserts mods : Multiset ℕ} {n o : ℕ}
      (h : Calls rg inserts (o ::ₘ mods) n) :
      Calls (rg.mapVersionInfo (·.revertUpdate o)) inserts mods n
  -- flushes and in-place writes
  | write {rg : RowGroup} {inserts mods : Multiset ℕ} {n : ℕ} (h : Calls rg inserts mods n)
      (columnChunks : List ColumnChunk) : Calls { rg with columnChunks } inserts mods n

variable {rg : RowGroup} {inserts mods : Multiset ℕ} {n : ℕ}

theorem versionInfo_append {rg' : RowGroup} {chunk : DataChunk} {colIds : List ℕ}
    {txId : TransactionId} (htx : txId ≠ invalidTransaction)
    (h : rg.append chunk colIds txId = some rg') :
    rg'.versionInfo = markRows txId rg.rowCount chunk.count rg.versionInfo := by
  have hinfo := congrArg GroupVersions.info (versions_append h)
  rwa [GroupVersions.append, if_neg htx] at hinfo

theorem Calls.ledger (h : Calls rg inserts mods n) : rg.versionInfo.Ledger inserts mods := by
  induction h with
  | start h =>
    rw [h]
    exact ⟨le_refl _, 0, le_refl _, nofun⟩
  | append _ htx happend ih =>
    rw [versionInfo_append htx happend]
    exact Ledger.foldl_earn (L := (·.Ledger · _)) Ledger.markInserted _ ih
  | appendThrows _ _ _ ih | write _ _ ih => exact ih
  | commitAppend ct hct _ ih =>
    exact Ledger.foldl_spend (L := (·.Ledger · _)) (Ledger.commitInsert hct) _ ih
  | revertAppend _ ih => exact Ledger.foldl_spend (L := (·.Ledger · _)) Ledger.revertInsert _ ih
  | markDeleted _ _ _ ih => exact ih.markDeleted
  | markUpdated _ _ _ ih => exact ih.markUpdated
  | commitDelete _ _ ih | commitUpdate _ _ ih => exact ih.stamp
  | clearDeleteMarker _ ih | revertUpdate _ ih => exact ih.eraseMarker (by decide)

theorem Calls.bounded (h : Calls rg inserts mods n) : rg.versionInfo.Bounded n := by
  induction h with
  | start h =>
    rw [h]
    exact ⟨le_refl _, le_refl _⟩
  | append _ htx happend ih =>
    rw [versionInfo_append htx happend, Nat.cast_add]
    exact ih.markRows ..
  | appendThrows _ _ _ ih | write _ _ ih => exact ih
  | commitAppend ct _ _ ih =>
    exact List.foldlRecOn (motive := (Bounded · _)) _ _ ih fun _ h _ _ => h.commitInsert ct
  | revertAppend _ ih =>
    exact List.foldlRecOn (motive := (Bounded · _)) _ _ ih
      fun _ h _ _ => h.eraseMarker (by decide) (by decide)
  | markDeleted _ _ _ ih | markUpdated _ _ _ ih => exact ih.mark _ _
  | commitDelete _ _ ih | commitUpdate _ _ ih => exact ih.stamp _
  | clearDeleteMarker _ ih | revertUpdate _ ih => exact ih.eraseMarker (by decide) (by decide)

/-- **The fast path agrees with the slow path** in every state that calls for open marks reach.
The counters stay between zero and the number of marks. -/
theorem isVisible_of_allInsertedVisibleTo (h : Calls rg inserts mods n) :
    (0 ≤ rg.versionInfo.uncommittedCount ∧ rg.versionInfo.uncommittedCount ≤ n) ∧
      (0 ≤ rg.versionInfo.deleteUpdateCount ∧ rg.versionInfo.deleteUpdateCount ≤ n) ∧
      ∀ tx : Snapshot, rg.versionInfo.allInsertedVisibleTo tx.startTime = true →
        ∀ row, rg.versionInfo.isVisible row tx = true := by
  obtain ⟨hunc, hdu⟩ := h.bounded
  have hledger := h.ledger
  obtain ⟨ended, hended, -⟩ := hledger.covered
  have hopen := hledger.uncommitted
  exact ⟨⟨by omega, hunc⟩, ⟨by omega, hdu⟩, fun tx hfast => hledger.isVisible hfast⟩

/-- A chunk with one integer. -/
def oneCell (x : Int64) : DataChunk :=
  { columns := [{ type := .int64, count := 1, intData := [x], validity := 1 }], count := 1 }

/-- A row is appended and committed, and a second one appended and reverted. -/
theorem isVisible_after_revert : ∃ rg : RowGroup, Calls rg 0 0 2 ∧ rg.rowCount = 1 ∧
    rg.versionInfo.allInsertedVisibleTo 2 = true ∧ rg.versionInfo.isVisible 0 ⟨3, 2⟩ = true := by
  have hrun : (do
      let rg₁ ← (create 0 [.int64] 64).append (oneCell 7) [0] 1
      let rg₂ ← (rg₁.commitAppend 1).append (oneCell 8) [0] 2
      pure ((rg₁.rowCount, rg₁.pendingRows), rg₂.pendingRows, rg₂.revertAppend.rowCount,
        rg₂.revertAppend.versionInfo.allInsertedVisibleTo 2)) =
      some ((1, [0]), [1], 1, true) := by
    decide +kernel
  obtain ⟨rg₁, happend₁, hrun⟩ := Option.bind_eq_some_iff.mp hrun
  obtain ⟨rg₂, happend₂, hrun⟩ := Option.bind_eq_some_iff.mp hrun
  simp only [Option.pure_def, Option.some.injEq, Prod.mk.injEq] at hrun
  obtain ⟨⟨hcount, hpending₁⟩, hpending₂, hrows, hfast⟩ := hrun
  have h₁ : Calls rg₁ (rg₁.pendingRows + 0) 0 1 := by
    rw [hpending₁]
    exact Calls.append (.start rfl) (by decide) happend₁
  have h₂ : Calls rg₂ (rg₂.pendingRows + 0) 0 2 := by
    have hcalls := Calls.append (.commitAppend 1 (by decide) h₁) (by decide) happend₂
    rw [show (rg₁.commitAppend 1).rowCount = 1 from hcount] at hcalls
    rwa [hpending₂]
  have h := h₂.revertAppend
  exact ⟨_, h, hrows, hfast, (isVisible_of_allInsertedVisibleTo h).2.2 ⟨3, 2⟩ hfast 0⟩

end RowGroup

namespace Database

variable {db : Database}

/-- The snapshot of an active transaction, whether the fast path takes row group `0` of
`tableT` for it, and whether it sees a row there. -/
def fastAndVisible (id : TransactionId) (off : ℕ) (db : Database) :
    Option (Snapshot × Bool × Bool) := do
  let tx ← db.activeTransactions.lookup id
  let rg ← db.catalog.rowGroup? tableT 0
  pure (tx.toSnapshot, rg.versionInfo.allInsertedVisibleTo tx.startTime,
    rg.versionInfo.isVisible off tx.toSnapshot)

theorem exists_of_fastAndVisible {id : TransactionId} {off : ℕ} {fast vis : Bool}
    (h : fastAndVisible id off db = some (tx, fast, vis)) :
    ∃ rg, db.catalog.rowGroup? tableT 0 = some rg ∧
      (db.activeTransactions.lookup id).map Transaction.toSnapshot = some tx ∧
      rg.versionInfo.allInsertedVisibleTo tx.startTime = fast ∧
      rg.versionInfo.isVisible off tx = vis := by
  simp only [fastAndVisible, Option.bind_eq_bind, Option.bind_eq_some_iff] at h
  obtain ⟨t, ht, rg, hrg, heq⟩ := h
  cases heq
  exact ⟨rg, hrg, by rw [ht]; rfl, rfl, rfl⟩

/-- Transaction 1 inserts twice into a row group and commits: the second row is committed
twice, the first one never, and the counters are zero. Transaction 2 takes the fast path. -/
theorem fast_path_disagrees : ∃ db log rg tx, Run (fun _ _ => True) emptyTable db log ∧
    db.catalog.rowGroup? tableT 0 = some rg ∧
    (db.activeTransactions.lookup 2).map Transaction.toSnapshot = some tx ∧
    rg.versionInfo.allInsertedVisibleTo tx.startTime = true ∧
    rg.versionInfo.isVisible 0 tx = false := by
  obtain ⟨db, hrun, hf⟩ := exists_run_of_after (fun cmd _ _ _ => meets_true _ _ cmd) (show after
    [.begin, .statement 1 (insertInt 7), .statement 1 (insertInt 8), .commit 1, .begin]
    (fastAndVisible 2 0) = some (⟨2, 2⟩, true, false) by decide +kernel)
  obtain ⟨rg, hrg, htx, hfast, hvis⟩ := exists_of_fastAndVisible hf
  exact ⟨db, _, rg, _, hrun, hrg, htx, hfast, hvis⟩

end Database

end CppColDB
