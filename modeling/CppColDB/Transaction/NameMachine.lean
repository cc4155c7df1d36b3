import CppColDB.Catalog.Stamps
import CppColDB.Transaction.GroupMachine

/-!
# One table name as a state machine

`NameView` is the versions of a name together with the transactions that are active and the
definitions they have made of it. It moves by transactions that begin, create, drop, commit and
roll back.

Versions carry a tag that they keep for good, so that a run can say which version it was whose
drop committed; the program has no such thing.
-/

namespace CppColDB

open Catalog Function List Nat TxClock

namespace EntryStamps

variable {e : EntryStamps} {tx : Snapshot} {id : TransactionId} {ct : Timestamp}

/-- The version was created in the snapshot or by its transaction. -/
def IsCreated (e : EntryStamps) (tx : Snapshot) : Prop :=
  e.createTxId = tx.txId ∨
    (e.createCommitTime ≠ invalidTimestamp ∧ e.createCommitTime < tx.startTime)

/-- The version was dropped in the snapshot or by its transaction. -/
def IsDropped (e : EntryStamps) (tx : Snapshot) : Prop :=
  e.deleteTxId = tx.txId ∨
    (e.deleteCommitTime ≠ invalidTimestamp ∧ e.deleteCommitTime < tx.startTime)

instance (e : EntryStamps) (tx : Snapshot) : Decidable (e.IsDropped tx) :=
  inferInstanceAs (Decidable (_ ∨ _))

theorem isVisible_iff : e.isVisible tx = true ↔ e.IsCreated tx ∧ ¬ e.IsDropped tx := by
  rw [isVisible, IsCreated, IsDropped]
  split_ifs with hcreate hown hopen hbefore <;> grind

/-- The version is one that the transaction has created and not committed. -/
def OpenBy (e : EntryStamps) (id : TransactionId) : Prop :=
  e.createTxId = id ∧ e.createCommitTime = invalidTimestamp

instance (e : EntryStamps) (id : TransactionId) : Decidable (e.OpenBy id) :=
  inferInstanceAs (Decidable (_ ∧ _))

/-- What `RollbackDrop` does to the stamps of a version. -/
def undrop (id : TransactionId) (e : EntryStamps) : EntryStamps :=
  if e.deleteTxId = id ∧ e.deleteCommitTime = invalidTimestamp then
    { e with deleteTxId := invalidTransaction, deleteCommitTime := invalidTimestamp }
  else e

theorem createCommitTime_commit_of_openBy (h : e.OpenBy id) :
    (e.commit id ct).createCommitTime = ct := if_pos h

theorem createCommitTime_commit_of_not (h : ¬ e.OpenBy id) :
    (e.commit id ct).createCommitTime = e.createCommitTime := if_neg h

theorem deleteCommitTime_commit_of_own (hpos : id ≠ invalidTransaction) (hid : e.deleteTxId = id)
    (hopen : e.deleteCommitTime = invalidTimestamp) :
    (e.commit id ct).deleteCommitTime = ct := if_pos ⟨hpos, hid, hopen⟩

theorem deleteCommitTime_commit_of_ne (h : e.deleteTxId ≠ id) :
    (e.commit id ct).deleteCommitTime = e.deleteCommitTime := if_neg fun hc => h hc.2.1

theorem deleteCommitTime_commit_of_committed (h : e.deleteCommitTime ≠ invalidTimestamp) :
    (e.commit id ct).deleteCommitTime = e.deleteCommitTime := if_neg fun hc => h hc.2.2

/-- A drop stays a drop. -/
theorem IsDropped.commit (h : e.IsDropped tx) : (e.commit id ct).IsDropped tx := by
  rcases h with hown | ⟨hne, hlt⟩
  · exact .inl hown
  · refine .inr ?_
    rw [deleteCommitTime_commit_of_committed hne]
    exact ⟨hne, hlt⟩

theorem openBy_undrop {id' : TransactionId} : (e.undrop id).OpenBy id' ↔ e.OpenBy id' := by
  rw [undrop]
  split <;> rfl

theorem isCreated_undrop : (e.undrop id).IsCreated tx ↔ e.IsCreated tx := by
  rw [undrop]
  split <;> rfl

theorem IsDropped.undrop (h : e.IsDropped tx) (hne : tx.txId ≠ id) :
    (e.undrop id).IsDropped tx := by
  have hother : ¬ (e.deleteTxId = id ∧ e.deleteCommitTime = invalidTimestamp) := by
    rintro ⟨hid, ho⟩
    rcases h with hown | ⟨hc, -⟩
    · exact hne (hown.symm.trans hid)
    · exact hc ho
  rwa [EntryStamps.undrop, if_neg hother]

theorem undrop_undrop : (e.undrop id).undrop id = e.undrop id := by
  by_cases h : e.deleteTxId = id ∧ e.deleteCommitTime = invalidTimestamp
  · simp [undrop, h]
  · simp [undrop, h]

end EntryStamps

structure NameView where
  /-- The versions, oldest first, with their tags. -/
  versions : List (ℕ × EntryStamps)
  nextTag : ℕ
  active : TransactionId → Option Snapshot
  /-- The creates (`true`) and drops (`false`) of the active transactions. -/
  changes : TransactionId → List Bool
  /-- The tags of the versions that active transactions have dropped. -/
  drops : TransactionId → List ℕ
  /-- The tags of the versions whose drop has committed, and when. -/
  gone : List (ℕ × Timestamp)
  nextTxId : TransactionId
  commitCounter : Timestamp

inductive NameAct where
  | idle
  | start
  | create (id : TransactionId)
  | drop (id : TransactionId) (version : ℕ)
  | commit (id : TransactionId)
  | rollback (id : TransactionId)
  deriving DecidableEq, Repr

namespace NameView

variable {v : NameView} {id : TransactionId} {tx : Snapshot}

/-- An act is that of an active transaction, and a drop is of a version that it sees. -/
def Allows (v : NameView) : NameAct → Prop
  | .idle | .start => True
  | .create id => ∃ tx, v.active id = some tx
  | .drop id i => ∃ tx, v.active id = some tx ∧
      ∃ p, v.versions[i]? = some p ∧ p.2.isVisible tx = true
  | .commit id | .rollback id => ∃ tx, v.active id = some tx

/-- One entry of the undo buffer at rollback. -/
def undo (id : TransactionId) (vs : List (ℕ × EntryStamps)) : Bool → List (ℕ × EntryStamps)
  | true => vs.filter fun p => ¬ p.2.OpenBy id
  | false => vs.map fun p => (p.1, p.2.undrop id)

def finish (v : NameView) (id : TransactionId) : NameView :=
  { v with
    active := update v.active id none
    changes := update v.changes id []
    drops := update v.drops id [] }

def apply (v : NameView) : NameAct → NameView
  | .idle => v
  | .start =>
    { v with
      active := update v.active v.nextTxId
        (some { txId := v.nextTxId, startTime := v.commitCounter + 1 })
      changes := update v.changes v.nextTxId []
      drops := update v.drops v.nextTxId []
      nextTxId := v.nextTxId + 1 }
  | .create id =>
    { v with
      versions := v.versions ++ [(v.nextTag, created { txId := id, startTime := 0 })]
      nextTag := v.nextTag + 1
      changes := update v.changes id (v.changes id ++ [true]) }
  | .drop id i =>
    { v with
      versions := v.versions.modify i fun p => (p.1, p.2.drop id)
      changes := update v.changes id (v.changes id ++ [false])
      drops := update v.drops id
        (v.drops id ++ (v.versions[i]?.map Prod.fst).toList) }
  | .commit id =>
    { v.finish id with
      versions := if v.changes id = [] then v.versions
        else v.versions.map fun p => (p.1, p.2.commit id (v.commitCounter + 1))
      gone := v.gone ++ (v.drops id).map fun t => (t, v.commitCounter + 1)
      commitCounter := v.commitCounter + 1 }
  | .rollback id => { v.finish id with versions := (v.changes id).reverse.foldl (undo id) v.versions }

/-- The transactions that are active, and those that may begin. -/
def Current (v : NameView) (tx : Snapshot) : Prop :=
  v.active tx.txId = some tx ∨ (v.nextTxId ≤ tx.txId ∧ v.commitCounter < tx.startTime)

/-- Nobody else has a part in what is created or dropped: every version counts as dropped for
the transaction that creates another one, and nobody has dropped the version that is
dropped. -/
def Exclusive (v : NameView) : NameAct → Prop
  | .create id => ∀ tx, v.active id = some tx → ∀ p ∈ v.versions, p.2.IsDropped tx
  | .drop _ i => ∀ p, v.versions[i]? = some p → p.2.deleteTxId = invalidTransaction
  | .idle | .start | .commit _ | .rollback _ => True

/-! ## The invariant -/

abbrev Clocked (v : NameView) : Prop := TxClock v.active v.nextTxId v.commitCounter

/-- The stamps of one version: they are of the past, and what is not committed belongs to an
active transaction that has it in its undo buffer. -/
structure Stamped (v : NameView) (e : EntryStamps) : Prop where
  createTxId_lt : e.createTxId < v.nextTxId
  createCommitTime_le : e.createCommitTime ≤ v.commitCounter
  deleteTxId_lt : e.deleteTxId < v.nextTxId
  deleteCommitTime_le : e.deleteCommitTime ≤ v.commitCounter
  openCreate : e.createCommitTime = invalidTimestamp → true ∈ v.changes e.createTxId
  openDrop : e.deleteTxId ≠ invalidTransaction → e.deleteCommitTime = invalidTimestamp →
    false ∈ v.changes e.deleteTxId
  committedDrop : e.deleteCommitTime ≠ invalidTimestamp → e.deleteTxId ≠ invalidTransaction
  ownDrop : e.deleteTxId ≠ invalidTransaction → e.createCommitTime = invalidTimestamp →
    e.createTxId = e.deleteTxId

/-- Whoever has the later version in its snapshot has the earlier one dropped. -/
def Succeeds (v : NameView) (e e' : EntryStamps) : Prop :=
  ∀ tx, v.Current tx → e'.IsCreated tx → e.IsDropped tx

structure Inv (v : NameView) : Prop extends TxClock v.active v.nextTxId v.commitCounter where
  changes_eq_nil : ∀ {id}, v.active id = none → v.changes id = []
  stamped : ∀ p ∈ v.versions, v.Stamped p.2
  succeeds : v.versions.Pairwise fun p q => v.Succeeds p.2 q.2
  nodup : (v.versions.map Prod.fst).Nodup
  tag_lt : ∀ p ∈ v.versions, p.1 < v.nextTag
  dropped_lt : ∀ id, ∀ t ∈ v.drops id, t < v.nextTag
  gone_lt : ∀ g ∈ v.gone, g.1 < v.nextTag
  /-- A transaction keeps its mark on what it has dropped. -/
  dropped : ∀ id, ∀ t ∈ v.drops id, false ∈ v.changes id ∧ ∀ p ∈ v.versions, p.1 = t →
    p.2.deleteTxId = id ∧ p.2.deleteCommitTime = invalidTimestamp
  gone : ∀ g ∈ v.gone, ∀ p ∈ v.versions, p.1 = g.1 →
    p.2.deleteCommitTime ≠ invalidTimestamp ∧ p.2.deleteCommitTime ≤ g.2

theorem Clocked.pos_of_current (h : v.Clocked) (htx : v.Current tx) : 0 < tx.txId := by
  rcases htx with htx | ⟨hid, -⟩
  · exact h.txId_pos htx
  · exact h.nextTxId_pos.trans_le hid

/-! ## Steps -/

theorem Current.of_start (h : (v.apply .start).Current tx) : v.Current tx := by
  rcases h with h | ⟨hid, htime⟩
  · by_cases hnew : tx.txId = v.nextTxId
    · rw [hnew] at h
      simp only [apply, update_self, Option.some.injEq] at h
      subst h
      exact .inr ⟨le_refl _, lt_add_one _⟩
    · simp only [apply, update_of_ne hnew] at h
      exact .inl h
  · exact .inr ⟨(le_succ _).trans hid, htime⟩

theorem Inv.start (h : v.Inv) : (v.apply .start).Inv := by
  have hchanges : ∀ {id} {b : Bool}, b ∈ v.changes id → b ∈ (v.apply .start).changes id := by
    intro id b hb
    have hne : id ≠ v.nextTxId := by
      rintro rfl
      have hnone : v.active v.nextTxId = none := by
        cases hactive : v.active v.nextTxId with
        | none => rfl
        | some tx => exact absurd (h.txId_lt hactive) (lt_irrefl _)
      rw [h.changes_eq_nil hnone] at hb
      cases hb
    simpa [apply, update_of_ne hne] using hb
  have hdrops : ∀ {id t}, t ∈ (v.apply .start).drops id → t ∈ v.drops id := by
    intro id t ht
    by_cases hid : id = v.nextTxId
    · subst hid
      simp [apply] at ht
    · simpa [apply, update_of_ne hid] using ht
  refine { h.toTxClock.start with
           changes_eq_nil := nil_of_reset @h.changes_eq_nil
           stamped := fun p hp => ?_, nodup := h.nodup, tag_lt := h.tag_lt
           succeeds := h.succeeds.imp fun hs tx htx => hs tx htx.of_start
           dropped_lt := fun id t ht => h.dropped_lt id t (hdrops ht), gone_lt := h.gone_lt
           dropped := fun id t ht => ?_, gone := h.gone }
  · have hs := h.stamped p hp
    exact { hs with
            createTxId_lt := lt_succ_of_lt hs.createTxId_lt
            deleteTxId_lt := lt_succ_of_lt hs.deleteTxId_lt
            openCreate := fun ho => hchanges (hs.openCreate ho)
            openDrop := fun hd ho => hchanges (hs.openDrop hd ho) }
  · obtain ⟨hmem, hmark⟩ := h.dropped id t (hdrops ht)
    exact ⟨hchanges hmem, hmark⟩

variable {id' : TransactionId} {q : ℕ × EntryStamps} {e : EntryStamps} {i : ℕ}

/-- A change of an active transaction adds to its undo buffer. -/
theorem mem_changes_update {b c : Bool} (h : b ∈ v.changes id') :
    b ∈ update v.changes id (v.changes id ++ [c]) id' := by
  by_cases hid : id' = id
  · subst hid
    simp [h]
  · simpa [update_of_ne hid] using h

theorem Inv.create (h : v.Inv) (htx : v.active id = some tx) (hex : v.Exclusive (.create id)) :
    (v.apply (.create id)).Inv := by
  -- only its creator has the new version in its snapshot
  have hnew : ∀ tx', v.Current tx' →
      (created { txId := id, startTime := 0 }).IsCreated tx' → tx' = tx := by
    intro tx' hcur hcreated
    have hid : id = tx'.txId := hcreated.resolve_right fun hne => hne.1 rfl
    rcases hcur with hcur | ⟨hle, -⟩
    · rw [← hid, htx] at hcur
      exact (Option.some.inj hcur).symm
    · exact absurd (h.txId_lt htx) (by rw [hid]; exact hle.not_gt)
  refine { h.toTxClock with
           changes_eq_nil := nil_of_change @h.changes_eq_nil htx
           stamped := fun p hp => ?_, succeeds := ?_, nodup := ?_
           tag_lt := fun p hp => ?_, dropped_lt := fun id' t ht => ?_, gone_lt := fun g hg => ?_
           dropped := fun id' t ht => ?_, gone := fun g hg p hp hpg => ?_ }
  · rcases mem_append.mp hp with hp | hp
    · have hs := h.stamped p hp
      exact { hs with
              openCreate := fun ho => mem_changes_update (hs.openCreate ho)
              openDrop := fun hd ho => mem_changes_update (hs.openDrop hd ho) }
    · obtain rfl := mem_singleton.mp hp
      have hinv : invalidTimestamp ≤ v.commitCounter :=
        (show invalidTimestamp ≤ 0 by decide).trans h.commitCounter_nonneg
      exact { createTxId_lt := h.txId_lt htx, createCommitTime_le := hinv
              deleteTxId_lt := h.nextTxId_pos, deleteCommitTime_le := hinv
              openCreate := fun _ => by simp [apply, created]
              openDrop := fun hd => absurd rfl hd, committedDrop := fun hd => absurd rfl hd
              ownDrop := fun hd => absurd rfl hd }
  · refine pairwise_append.mpr ⟨h.succeeds, pairwise_singleton _ _, ?_⟩
    intro p hp q hq tx' hcur hcreated
    obtain rfl := mem_singleton.mp hq
    rw [hnew tx' hcur hcreated]
    exact hex tx htx p hp
  · have hfresh : v.nextTag ∉ v.versions.map Prod.fst := by
      intro hmem
      obtain ⟨p, hp, heq⟩ := mem_map.mp hmem
      exact absurd (h.tag_lt p hp) (by rw [heq]; exact lt_irrefl _)
    simp only [apply, map_append]
    exact h.nodup.append (nodup_singleton _) (by simpa using hfresh)
  · rcases mem_append.mp hp with hp | hp
    · exact lt_succ_of_lt (h.tag_lt p hp)
    · obtain rfl := mem_singleton.mp hp
      exact lt_succ_self _
  · exact lt_succ_of_lt (h.dropped_lt id' t ht)
  · exact lt_succ_of_lt (h.gone_lt g hg)
  · obtain ⟨hmem, hmark⟩ := h.dropped id' t ht
    refine ⟨mem_changes_update hmem, fun p hp hpt => ?_⟩
    rcases mem_append.mp hp with hp | hp
    · exact hmark p hp hpt
    · obtain rfl := mem_singleton.mp hp
      exact absurd (h.dropped_lt id' t ht) (by rw [← hpt]; exact lt_irrefl _)
  · rcases mem_append.mp hp with hp | hp
    · exact h.gone g hg p hp hpg
    · obtain rfl := mem_singleton.mp hp
      exact absurd (h.gone_lt g hg) (by rw [← hpg]; exact lt_irrefl _)

/-- Tags tell versions apart. -/
theorem modify_eq_map {vs : List (ℕ × EntryStamps)} (hnodup : (vs.map Prod.fst).Nodup)
    (hi : vs[i]? = some q) (f : ℕ × EntryStamps → ℕ × EntryStamps) :
    vs.modify i f = vs.map fun p => if p.1 = q.1 then f p else p := by
  apply ext_getElem?
  intro j
  rw [getElem?_map]
  by_cases hij : i = j
  · subst hij
    rw [getElem?_modify_eq, hi]
    simp
  · rw [getElem?_modify_ne _ _ hij]
    cases hj : vs[j]? with
    | none => rfl
    | some p =>
      have hne : p.1 ≠ q.1 := by
        intro heq
        have hi' : (vs.map Prod.fst)[i]? = some q.1 := by rw [getElem?_map, hi, Option.map_some]
        have hj' : (vs.map Prod.fst)[j]? = some q.1 := by
          rw [getElem?_map, hj, Option.map_some, heq]
        obtain ⟨hlt, -⟩ := List.getElem?_eq_some_iff.mp hi'
        exact hij ((getElem?_inj hlt hnodup).mp (hi'.trans hj'.symm))
      simp [hne]

theorem Inv.drop (h : v.Inv) (htx : v.active id = some tx)
    (hq : v.versions[i]? = some q) (hvisible : q.2.isVisible tx = true)
    (hex : v.Exclusive (.drop id i)) : (v.apply (.drop id i)).Inv := by
  have hfree : q.2.deleteTxId = invalidTransaction := hex q hq
  have hmem : q ∈ v.versions := mem_of_getElem? hq
  have hqs := h.stamped q hmem
  have hopen : q.2.deleteCommitTime = invalidTimestamp := by
    by_contra hne
    exact hqs.committedDrop hne hfree
  have hown : q.2.createCommitTime = invalidTimestamp → q.2.createTxId = id := by
    intro ho
    have hcreated := (EntryStamps.isVisible_iff.mp hvisible).1
    exact (hcreated.resolve_right fun hne => hne.1 ho).trans (h.txId_eq htx)
  have hversions : (v.apply (.drop id i)).versions = v.versions.map fun p =>
      if p.1 = q.1 then (p.1, p.2.drop id) else p := modify_eq_map h.nodup hq _
  have hself : ∀ p ∈ v.versions, p.1 = q.1 → p = q := by
    intro p hp heq
    exact inj_on_of_nodup_map h.nodup hp hmem heq
  have hdrops : ∀ {id' t}, t ∈ (v.apply (.drop id i)).drops id' →
      t ∈ v.drops id' ∨ (id' = id ∧ t = q.1) := by
    intro id' t ht
    by_cases hid : id' = id
    · subst hid
      simp only [apply, update_self, hq, Option.map_some, Option.toList_some,
        mem_append, mem_singleton] at ht
      exact ht.imp_right fun ht => ⟨rfl, ht⟩
    · simp only [apply, update_of_ne hid] at ht
      exact .inl ht
  refine { h.toTxClock with
           changes_eq_nil := nil_of_change @h.changes_eq_nil htx
           stamped := fun p hp => ?_, succeeds := ?_, nodup := ?_
           tag_lt := fun p hp => ?_, dropped_lt := fun id' t ht => ?_, gone_lt := h.gone_lt
           dropped := fun id' t ht => ?_, gone := fun g hg p hp hpg => ?_ }
  · rw [hversions, mem_map] at hp
    obtain ⟨p, hp, rfl⟩ := hp
    have hs := h.stamped p hp
    split
    next heq =>
      obtain rfl := hself p hp heq
      exact { hs with
              deleteTxId_lt := h.txId_lt htx
              deleteCommitTime_le := hopen.symm.le.trans hs.deleteCommitTime_le
              openCreate := fun ho => mem_changes_update (hs.openCreate ho)
              openDrop := fun _ _ => by simp [apply, EntryStamps.drop]
              committedDrop := fun hd => absurd rfl hd
              ownDrop := fun _ ho => hown ho }
    next =>
      exact { hs with
              openCreate := fun ho => mem_changes_update (hs.openCreate ho)
              openDrop := fun hd ho => mem_changes_update (hs.openDrop hd ho) }
  · -- nobody has a version after the one that is dropped, as that one was not dropped before
    rw [hversions, pairwise_map]
    refine (Pairwise.and_mem.mp h.succeeds).imp fun {p p'} hs tx' hcur hcreated => ?_
    obtain ⟨hp, -, hs⟩ := hs
    have hcreated' : p'.2.IsCreated tx' := by
      by_cases heq : p'.1 = q.1
      · rw [if_pos heq] at hcreated
        exact hcreated
      · rwa [if_neg heq] at hcreated
    have hdropped := hs tx' hcur hcreated'
    by_cases heq : p.1 = q.1
    · obtain rfl := hself p hp heq
      rcases hdropped with hown | ⟨hne, -⟩
      · exact absurd (hown.symm.trans hfree) (Clocked.pos_of_current h.toTxClock hcur).ne'
      · exact absurd hopen hne
    · rwa [if_neg heq]
  · have htags : (v.apply (.drop id i)).versions.map Prod.fst = v.versions.map Prod.fst := by
      rw [hversions, map_map]
      refine map_congr_left fun p _ => ?_
      simp only [comp_apply]
      split <;> rfl
    rw [htags]
    exact h.nodup
  · rw [hversions, mem_map] at hp
    obtain ⟨p, hp, rfl⟩ := hp
    split <;> exact h.tag_lt p hp
  · rcases hdrops ht with ht | ⟨-, rfl⟩
    · exact h.dropped_lt id' t ht
    · exact h.tag_lt q hmem
  · rw [hversions]
    rcases hdrops ht with ht | ⟨rfl, rfl⟩
    · obtain ⟨hlisted, hmark⟩ := h.dropped id' t ht
      refine ⟨mem_changes_update hlisted, fun p hp hpt => ?_⟩
      obtain ⟨p, hmem', rfl⟩ := mem_map.mp hp
      split
      next heq =>
        -- a version with a mark is not dropped again
        obtain rfl := hself p hmem' heq
        rw [if_pos heq] at hpt
        have hid := (hmark p hmem' hpt).1
        have hnone : v.active id' = none := by
          cases hactive : v.active id' with
          | none => rfl
          | some tx' => exact absurd (hid.symm.trans hfree) (h.txId_pos hactive).ne'
        rw [h.changes_eq_nil hnone] at hlisted
        cases hlisted
      next heq =>
        rw [if_neg heq] at hpt
        exact hmark p hmem' hpt
    · refine ⟨by simp [apply], fun p hp hpt => ?_⟩
      obtain ⟨p, hmem', rfl⟩ := mem_map.mp hp
      split
      next => exact ⟨rfl, rfl⟩
      next heq =>
        rw [if_neg heq] at hpt
        exact absurd hpt heq
  · rw [hversions, mem_map] at hp
    obtain ⟨p, hp, rfl⟩ := hp
    split
    next heq =>
      obtain rfl := hself p hp heq
      rw [if_pos heq] at hpg
      exact absurd hopen (h.gone g hg p hp hpg).1
    next heq =>
      rw [if_neg heq] at hpg
      exact h.gone g hg p hp hpg

/-! ## The end of a transaction -/

theorem Clocked.current_of_finish (v' : NameView) (h : v.Clocked) (htx : v.active id = some tx)
    (hactive : v'.active = update v.active id none) (hnext : v'.nextTxId = v.nextTxId)
    (hnow : v.commitCounter ≤ v'.commitCounter) {tx' : Snapshot} (hcur : v'.Current tx') :
    v.Current tx' ∧ tx'.txId ≠ id := by
  rcases hcur with hcur | ⟨hle, hlt⟩
  · rw [hactive] at hcur
    have hne : tx'.txId ≠ id := by
      intro heq
      simp [heq] at hcur
    rw [update_of_ne hne] at hcur
    exact ⟨.inl hcur, hne⟩
  · rw [hnext] at hle
    exact ⟨.inr ⟨hle, hnow.trans_lt hlt⟩, ((h.txId_lt htx).trans_le hle).ne'⟩

theorem Clocked.apply (h : v.Clocked) (a : NameAct) : (v.apply a).Clocked := by
  cases a with
  | idle => exact h
  | start => exact start h
  | create id | drop id i => exact { h with }
  | commit id => exact TxClock.finish h (lt_add_one _).le id
  | rollback id => exact TxClock.finish h le_rfl id

theorem mem_drops_finish {t : ℕ} (ht : t ∈ (v.finish id).drops id') :
    id' ≠ id ∧ t ∈ v.drops id' := by
  by_cases hid : id' = id
  · subst hid
    simp [finish] at ht
  · exact ⟨hid, by simpa [finish, update_of_ne hid] using ht⟩

/-- A commit stamps the definitions of its transaction. -/
theorem Inv.versions_commit (h : v.Inv) : (v.apply (.commit id)).versions =
      v.versions.map fun p => (p.1, p.2.commit id (v.commitCounter + 1)) := by
  by_cases hchanges : v.changes id = []
  · have hsame : ∀ p ∈ v.versions, (p.1, p.2.commit id (v.commitCounter + 1)) = p := by
      intro p hp
      have hs := h.stamped p hp
      have hcreate : ¬ (p.2.createTxId = id ∧ p.2.createCommitTime = invalidTimestamp) := by
        rintro ⟨hid, ho⟩
        have hmem := hs.openCreate ho
        rw [hid, hchanges] at hmem
        cases hmem
      have hdrop : ¬ (id ≠ invalidTransaction ∧ p.2.deleteTxId = id ∧
          p.2.deleteCommitTime = invalidTimestamp) := by
        rintro ⟨hne, hid, ho⟩
        have hmem := hs.openDrop (hid ▸ hne) ho
        rw [hid, hchanges] at hmem
        cases hmem
      rw [EntryStamps.commit, if_neg hcreate, if_neg hdrop]
    simp only [apply, if_pos hchanges]
    exact ((map_congr_left hsame).trans (map_id' _)).symm
  · simp only [apply, if_neg hchanges]

theorem Stamped.commit (h : v.Inv) (hs : v.Stamped e) (htx : v.active id = some tx) :
    (v.apply (.commit id)).Stamped (e.commit id (v.commitCounter + 1)) := by
  have hpos : id ≠ invalidTransaction := (h.txId_pos htx).ne'
  have hnow : v.commitCounter ≤ v.commitCounter + 1 := (lt_add_one _).le
  have hct := next_ne_invalid h.commitCounter_nonneg
  refine { createTxId_lt := hs.createTxId_lt, deleteTxId_lt := hs.deleteTxId_lt
           createCommitTime_le := ?_, deleteCommitTime_le := ?_, openCreate := fun ho => ?_
           openDrop := fun hd ho => ?_, committedDrop := fun hd => ?_, ownDrop := fun hd ho => ?_ }
  · simp only [EntryStamps.commit]
    split
    · exact le_refl _
    · exact hs.createCommitTime_le.trans hnow
  · simp only [EntryStamps.commit]
    split
    · exact le_refl _
    · exact hs.deleteCommitTime_le.trans hnow
  · simp only [EntryStamps.commit] at ho
    split at ho
    next => exact absurd ho hct
    next hnot =>
      have hne : e.createTxId ≠ id := fun hid => hnot ⟨hid, ho⟩
      simpa [apply, finish, EntryStamps.commit, update_of_ne hne] using hs.openCreate ho
  · simp only [EntryStamps.commit] at ho
    split at ho
    next => exact absurd ho hct
    next hnot =>
      have hne : e.deleteTxId ≠ id := fun hid => hnot ⟨hpos, hid, ho⟩
      simpa [apply, finish, EntryStamps.commit, update_of_ne hne] using hs.openDrop hd ho
  · simp only [EntryStamps.commit] at hd
    split at hd
    next hown =>
      exact hown.2.1 ▸ hpos
    next => exact hs.committedDrop hd
  · simp only [EntryStamps.commit] at ho
    split at ho
    · exact absurd ho hct
    · exact hs.ownDrop hd ho

theorem Inv.commit (h : v.Inv) (htx : v.active id = some tx) : (v.apply (.commit id)).Inv := by
  have hpos : id ≠ invalidTransaction := (h.txId_pos htx).ne'
  have hnow : v.commitCounter ≤ v.commitCounter + 1 := (lt_add_one _).le
  have hct := next_ne_invalid h.commitCounter_nonneg
  have hversions := @Inv.versions_commit v id h
  have hcurrent : ∀ {tx'}, (v.apply (.commit id)).Current tx' → v.Current tx' ∧ tx'.txId ≠ id :=
    fun hcur => Clocked.current_of_finish (v.apply (.commit id)) h.toTxClock htx rfl rfl hnow hcur
  refine { h.toTxClock.finish hnow id with
           changes_eq_nil := nil_of_reset @h.changes_eq_nil, stamped := fun p hp => ?_, succeeds := ?_
           nodup := ?_, tag_lt := fun p hp => ?_, dropped_lt := fun id' t ht => ?_
           gone_lt := fun g hg => ?_, dropped := fun id' t ht => ?_, gone := fun g hg p hp hpg => ?_ }
  · rw [hversions, mem_map] at hp
    obtain ⟨p, hp, rfl⟩ := hp
    exact (h.stamped p hp).commit h htx
  · rw [hversions, pairwise_map]
    refine (Pairwise.and_mem.mp h.succeeds).imp fun {p q} hs tx' hcur hcreated => ?_
    obtain ⟨hp, hq, hs⟩ := hs
    obtain ⟨hcur', hne⟩ := hcurrent hcur
    by_cases hopen : q.2.OpenBy id
    · -- the version is new in the snapshots that begin after the commit
      have hlt : v.commitCounter + 1 < tx'.startTime := by
        rcases hcreated with hown | ⟨-, hlt⟩
        · exact absurd (hown.symm.trans hopen.1) hne
        · rwa [EntryStamps.createCommitTime_commit_of_openBy hopen] at hlt
      have hpast : ∀ {ct : Timestamp}, ct ≤ v.commitCounter → ct < tx'.startTime := fun hle =>
        (hle.trans hnow).trans_lt hlt
      have hps := h.stamped p hp
      rcases hs tx (.inl (h.txId_eq htx ▸ htx)) (.inl (hopen.1.trans (h.txId_eq htx).symm)) with
        hown | ⟨hne', -⟩
      · have hid : p.2.deleteTxId = id := hown.trans (h.txId_eq htx)
        refine .inr ?_
        by_cases hdct : p.2.deleteCommitTime = invalidTimestamp
        · rw [EntryStamps.deleteCommitTime_commit_of_own hpos hid hdct]
          exact ⟨hct, hlt⟩
        · rw [EntryStamps.deleteCommitTime_commit_of_committed hdct]
          exact ⟨hdct, hpast hps.deleteCommitTime_le⟩
      · exact EntryStamps.IsDropped.commit (.inr ⟨hne', hpast hps.deleteCommitTime_le⟩)
    · refine (hs tx' hcur' ?_).commit
      rcases hcreated with hown | hbefore
      · exact .inl hown
      · rw [EntryStamps.createCommitTime_commit_of_not hopen] at hbefore
        exact .inr hbefore
  · rw [hversions, map_map]
    exact h.nodup
  · rw [hversions, mem_map] at hp
    obtain ⟨p, hp, rfl⟩ := hp
    exact h.tag_lt p hp
  · exact h.dropped_lt id' t (mem_drops_finish ht).2
  · rcases mem_append.mp hg with hg | hg
    · exact h.gone_lt g hg
    · obtain ⟨t, ht, rfl⟩ := mem_map.mp hg
      exact h.dropped_lt id t ht
  · obtain ⟨hne, ht⟩ := mem_drops_finish ht
    obtain ⟨hlisted, hmark⟩ := h.dropped id' t ht
    refine ⟨by simpa [apply, finish, update_of_ne hne] using hlisted, fun p hp hpt => ?_⟩
    rw [hversions, mem_map] at hp
    obtain ⟨p, hp, rfl⟩ := hp
    obtain ⟨hid, hopen⟩ := hmark p hp hpt
    refine ⟨hid, ?_⟩
    rw [EntryStamps.deleteCommitTime_commit_of_ne fun heq => hne (hid.symm.trans heq)]
    exact hopen
  · rw [hversions, mem_map] at hp
    obtain ⟨p, hp, rfl⟩ := hp
    rcases mem_append.mp hg with hg | hg
    · obtain ⟨hne, hle⟩ := h.gone g hg p hp hpg
      rw [EntryStamps.deleteCommitTime_commit_of_committed hne]
      exact ⟨hne, hle⟩
    · obtain ⟨t, ht, rfl⟩ := mem_map.mp hg
      obtain ⟨hid, hopen⟩ := (h.dropped id t ht).2 p hp hpg
      rw [EntryStamps.deleteCommitTime_commit_of_own hpos hid hopen]
      exact ⟨hct, le_refl _⟩

/-- What a list of undo entries does, in any order. -/
theorem foldl_undo (cs : List Bool) (vs : List (ℕ × EntryStamps)) :
    cs.foldl (undo id) vs = (vs.filter fun p => true ∈ cs → ¬ p.2.OpenBy id).map fun p =>
      (p.1, if false ∈ cs then p.2.undrop id else p.2) := by
  induction cs generalizing vs with
  | nil => simp
  | cons c cs ih =>
    rw [foldl_cons, ih]
    cases c with
    | true =>
      simp only [undo, filter_filter]
      congr 1
      · simp
      · refine filter_congr fun p _ => ?_
        by_cases ho : p.2.OpenBy id <;> simp [ho]
    | false =>
      simp only [undo, filter_map, map_map]
      congr 1
      · funext p
        by_cases hcs : false ∈ cs <;> simp [EntryStamps.undrop_undrop]
      · exact filter_congr fun p _ => by simp [EntryStamps.openBy_undrop]

/-- A rollback takes back the creates and drops of its transaction. -/
theorem Inv.versions_rollback (h : v.Inv) (htx : v.active id = some tx) :
    (v.apply (.rollback id)).versions =
      (v.versions.filter fun p => ¬ p.2.OpenBy id).map fun p => (p.1, p.2.undrop id) := by
  have hpos : id ≠ invalidTransaction := (h.txId_pos htx).ne'
  have hfilter : (v.versions.filter fun p => true ∈ (v.changes id).reverse → ¬ p.2.OpenBy id) =
      v.versions.filter fun p => ¬ p.2.OpenBy id := by
    refine filter_congr fun p hp => ?_
    have hlisted : p.2.OpenBy id → true ∈ (v.changes id).reverse := by
      rintro ⟨rfl, ho⟩
      exact mem_reverse.mpr ((h.stamped p hp).openCreate ho)
    by_cases ho : p.2.OpenBy id
    · simp [mem_reverse.mp (hlisted ho)]
    · simp [ho]
  simp only [apply, foldl_undo, hfilter]
  refine map_congr_left fun p hp => ?_
  have hs := h.stamped p (mem_of_mem_filter hp)
  split
  next => rfl
  next hnot =>
    have hother : ¬ (p.2.deleteTxId = id ∧ p.2.deleteCommitTime = invalidTimestamp) := by
      rintro ⟨rfl, ho⟩
      exact hnot (mem_reverse.mpr (hs.openDrop hpos ho))
    rw [EntryStamps.undrop, if_neg hother]

theorem Stamped.rollback (h : v.Inv) (hs : v.Stamped e) (hopen : ¬ e.OpenBy id) :
    (v.apply (.rollback id)).Stamped (e.undrop id) := by
  have hcreate : e.createCommitTime = invalidTimestamp →
      true ∈ (v.apply (.rollback id)).changes e.createTxId := by
    intro ho
    have hne : e.createTxId ≠ id := fun hid => hopen ⟨hid, ho⟩
    simpa [NameView.apply, finish, update_of_ne hne] using hs.openCreate ho
  by_cases hmark : e.deleteTxId = id ∧ e.deleteCommitTime = invalidTimestamp
  · rw [EntryStamps.undrop, if_pos hmark]
    exact { hs with
            deleteTxId_lt := h.nextTxId_pos
            deleteCommitTime_le := hmark.2.symm.le.trans hs.deleteCommitTime_le
            openCreate := hcreate, openDrop := fun hd => absurd rfl hd
            committedDrop := fun hd => absurd rfl hd, ownDrop := fun hd => absurd rfl hd }
  · rw [EntryStamps.undrop, if_neg hmark]
    refine { hs with openCreate := hcreate, openDrop := fun hd ho => ?_ }
    have hne : e.deleteTxId ≠ id := fun hid => hmark ⟨hid, ho⟩
    simpa [NameView.apply, finish, update_of_ne hne] using hs.openDrop hd ho

theorem Inv.rollback (h : v.Inv) (htx : v.active id = some tx) : (v.apply (.rollback id)).Inv := by
  have hversions := h.versions_rollback htx
  have hcurrent : ∀ {tx'}, (v.apply (.rollback id)).Current tx' → v.Current tx' ∧ tx'.txId ≠ id :=
    fun hcur => Clocked.current_of_finish (v.apply (.rollback id)) h.toTxClock htx rfl rfl le_rfl hcur
  refine { h.toTxClock.finish le_rfl id with
           changes_eq_nil := nil_of_reset @h.changes_eq_nil, stamped := fun p hp => ?_, succeeds := ?_
           nodup := ?_, tag_lt := fun p hp => ?_, dropped_lt := fun id' t ht => ?_
           gone_lt := h.gone_lt, dropped := fun id' t ht => ?_, gone := fun g hg p hp hpg => ?_ }
  · rw [hversions, mem_map] at hp
    obtain ⟨p, hp, rfl⟩ := hp
    obtain ⟨hp, hopen⟩ := mem_filter.mp hp
    exact (h.stamped p hp).rollback h (by simpa using hopen)
  · rw [hversions, pairwise_map]
    refine (h.succeeds.filter _).imp fun {p q} hs tx' hcur hcreated => ?_
    obtain ⟨hcur', hne⟩ := hcurrent hcur
    exact (hs tx' hcur' (EntryStamps.isCreated_undrop.mp hcreated)).undrop hne
  · rw [hversions, map_map]
    exact (h.nodup.sublist (filter_sublist.map _))
  · rw [hversions, mem_map] at hp
    obtain ⟨p, hp, rfl⟩ := hp
    exact h.tag_lt p (mem_of_mem_filter hp)
  · exact h.dropped_lt id' t (mem_drops_finish ht).2
  · obtain ⟨hne, ht⟩ := mem_drops_finish ht
    obtain ⟨hlisted, hmark⟩ := h.dropped id' t ht
    refine ⟨by simpa [apply, finish, update_of_ne hne] using hlisted, fun p hp hpt => ?_⟩
    rw [hversions, mem_map] at hp
    obtain ⟨p, hp, rfl⟩ := hp
    obtain ⟨hid, hopen⟩ := hmark p (mem_of_mem_filter hp) hpt
    rw [EntryStamps.undrop, if_neg fun hc => hne (hid.symm.trans hc.1)]
    exact ⟨hid, hopen⟩
  · rw [hversions, mem_map] at hp
    obtain ⟨p, hp, rfl⟩ := hp
    obtain ⟨hne, hle⟩ := h.gone g hg p (mem_of_mem_filter hp) hpg
    rw [EntryStamps.undrop, if_neg fun hc => hne hc.2]
    exact ⟨hne, hle⟩

theorem Inv.apply {a : NameAct} (h : v.Inv) (ha : v.Allows a) (hex : v.Exclusive a) :
    (v.apply a).Inv := by
  cases a with
  | idle => exact h
  | start => exact h.start
  | create id =>
    obtain ⟨tx, htx⟩ := ha
    exact h.create htx hex
  | drop id i =>
    obtain ⟨tx, htx, q, hq, hvisible⟩ := ha
    exact h.drop htx hq hvisible hex
  | commit id =>
    obtain ⟨tx, htx⟩ := ha
    exact h.commit htx
  | rollback id =>
    obtain ⟨tx, htx⟩ := ha
    exact h.rollback htx

/-! ## What the invariant says -/

/-- Nobody sees two versions, and a version whose drop has committed is not seen by a transaction
that begins later. -/
structure Consistent (v : NameView) : Prop where
  single : ∀ tx, v.Current tx → ∀ {i j : ℕ} {p q : ℕ × EntryStamps},
    v.versions[i]? = some p → v.versions[j]? = some q →
      p.2.isVisible tx = true → q.2.isVisible tx = true → i = j
  permanent : ∀ g ∈ v.gone, ∀ tx, v.Current tx → g.2 < tx.startTime →
    ∀ p ∈ v.versions, p.1 = g.1 → p.2.isVisible tx = false

theorem Inv.consistent (h : v.Inv) : v.Consistent where
  single := by
    -- of two versions that are seen the earlier one would have to be dropped
    have hlt : ∀ tx, v.Current tx → ∀ {i j : ℕ} {p q : ℕ × EntryStamps},
        v.versions[i]? = some p → v.versions[j]? = some q → p.2.isVisible tx = true →
          q.2.isVisible tx = true → ¬ i < j := by
      intro tx hcur i j p q hi hj hp hq hij
      obtain ⟨hi', rfl⟩ := List.getElem?_eq_some_iff.mp hi
      obtain ⟨hj', rfl⟩ := List.getElem?_eq_some_iff.mp hj
      have hs := pairwise_iff_getElem.mp h.succeeds i j hi' hj' hij
      exact (EntryStamps.isVisible_iff.mp hp).2 (hs tx hcur (EntryStamps.isVisible_iff.mp hq).1)
    intro tx hcur i j p q hi hj hp hq
    rcases lt_trichotomy i j with hij | rfl | hij
    · exact absurd hij (hlt tx hcur hi hj hp hq)
    · rfl
    · exact absurd hij (hlt tx hcur hj hi hq hp)
  permanent := by
    intro g hg tx hcur hlt p hp hpg
    obtain ⟨hne, hle⟩ := h.gone g hg p hp hpg
    rw [← Bool.not_eq_true]
    exact fun hvisible =>
      (EntryStamps.isVisible_iff.mp hvisible).2 (.inr ⟨hne, hle.trans_lt hlt⟩)

end NameView

end CppColDB
