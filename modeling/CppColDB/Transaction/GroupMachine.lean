import CppColDB.Transaction.GroupVersions

/-!
# One row group as a state machine

`GroupView` is a row group together with the transactions that are active: their
snapshots and the changes they have made there. It moves by transactions that begin, make
changes, commit and roll back. Every row group of a database moves this way (see
`Transaction.Runs`), so what holds along every run of the machine holds of every row group.

A view also keeps the order in which transactions began and committed.
-/

namespace CppColDB

open Function

/-- What the log of a run keeps, newest first: begins, and commits with what they published. -/
inductive TxEvent (α : Type) where
  | began (id : TransactionId)
  | committed (what : α)
  deriving DecidableEq, Repr

namespace TxEvent

variable {α β : Type}

def map (f : α → β) : TxEvent α → TxEvent β
  | .began id => .began id
  | .committed what => .committed (f what)

/-- What has been committed. -/
def commits : List (TxEvent α) → List α
  | [] => []
  | .began _ :: log => commits log
  | .committed what :: log => what :: commits log

/-- What had been committed when transaction `id` began. -/
def commitsBefore (id : TransactionId) : List (TxEvent α) → List α
  | [] => []
  | .began id' :: log => if id' = id then commits log else commitsBefore id log
  | .committed _ :: log => commitsBefore id log

theorem commits_map (f : α → β) (log : List (TxEvent α)) :
    commits (log.map (map f)) = (commits log).map f := by
  induction log with
  | nil => rfl
  | cons e log ih => cases e <;> simp [commits, map, ih]

theorem commitsBefore_map (f : α → β) (id : TransactionId) (log : List (TxEvent α)) :
    commitsBefore id (log.map (map f)) = (commitsBefore id log).map f := by
  induction log with
  | nil => rfl
  | cons e log ih =>
    cases e with
    | committed what => exact ih
    | began id' =>
      simp only [List.map_cons, map, commitsBefore, commits_map, ih]
      split <;> rfl

end TxEvent

/-- Identifiers and times are handed out in order. -/
structure TxClock (active : TransactionId → Option Snapshot) (nextTxId : TransactionId)
    (commitCounter : Timestamp) : Prop where
  nextTxId_pos : 0 < nextTxId
  commitCounter_nonneg : 0 ≤ commitCounter
  txId_eq : ∀ {id tx}, active id = some tx → tx.txId = id
  txId_pos : ∀ {id tx}, active id = some tx → 0 < id
  txId_lt : ∀ {id tx}, active id = some tx → id < nextTxId
  startTime_le : ∀ {id tx}, active id = some tx → tx.startTime ≤ commitCounter + 1

namespace TxClock

variable {active : TransactionId → Option Snapshot} {next id id' : TransactionId}
  {now : Timestamp} {tx : Snapshot} {α : Type} {changes : TransactionId → List α}

theorem of_idle (hnone : ∀ id, active id = none) (hnext : 0 < next) (hnow : 0 ≤ now) :
    TxClock active next now := by
  have hnever : ∀ {id tx}, active id ≠ some tx := by simp [hnone]
  exact ⟨hnext, hnow, fun htx => absurd htx hnever, fun htx => absurd htx hnever,
    fun htx => absurd htx hnever, fun htx => absurd htx hnever⟩

theorem start (h : TxClock active next now) :
    TxClock (update active next (some { txId := next, startTime := now + 1 }))
      (next + 1) now := by
  -- either the new transaction or one that was active before
  have hactive : ∀ {id tx}, update active next
      (some { txId := next, startTime := now + 1 }) id = some tx →
      (id = next ∧ tx = { txId := next, startTime := now + 1 }) ∨ active id = some tx := by
    intro id tx htx
    by_cases hid : id = next
    · subst hid
      rw [update_self] at htx
      exact .inl ⟨rfl, (Option.some.inj htx).symm⟩
    · rw [update_of_ne hid] at htx
      exact .inr htx
  refine ⟨Nat.succ_pos _, h.commitCounter_nonneg, fun htx => ?_, fun htx => ?_, fun htx => ?_,
    fun htx => ?_⟩
  · rcases hactive htx with ⟨rfl, rfl⟩ | htx
    · rfl
    · exact h.txId_eq htx
  · rcases hactive htx with ⟨rfl, rfl⟩ | htx
    · exact h.nextTxId_pos
    · exact h.txId_pos htx
  · rcases hactive htx with ⟨rfl, rfl⟩ | htx
    · exact Nat.lt_succ_self _
    · exact Nat.lt_succ_of_lt (h.txId_lt htx)
  · rcases hactive htx with ⟨rfl, rfl⟩ | htx
    · exact le_refl _
    · exact h.startTime_le htx

theorem finish (h : TxClock active next now) {now' : Timestamp} (hle : now ≤ now')
    (id : TransactionId) : TxClock (update active id none) next now' := by
  have hactive : ∀ {id' tx}, update active id none id' = some tx →
      active id' = some tx := by
    intro id' tx htx
    by_cases hid : id' = id
    · subst hid
      simp at htx
    · rwa [update_of_ne hid] at htx
  exact ⟨h.nextTxId_pos, h.commitCounter_nonneg.trans hle, fun htx => h.txId_eq (hactive htx),
    fun htx => h.txId_pos (hactive htx), fun htx => h.txId_lt (hactive htx),
    fun htx => (h.startTime_le (hactive htx)).trans (add_le_add_left hle 1)⟩

theorem nil_of_reset (h : ∀ id, active id = none → changes id = []) {tx? : Option Snapshot}
    (hnone : update active id tx? id' = none) :
    update changes id [] id' = [] := by
  by_cases hid : id' = id
  · subst hid
    simp
  · rw [update_of_ne hid] at hnone ⊢
    exact h id' hnone

theorem nil_of_change (h : ∀ id, active id = none → changes id = [])
    (htx : active id = some tx) {cs : List α} (hnone : active id' = none) :
    update changes id cs id' = [] := by
  have hne : id' ≠ id := fun hid => absurd ((hid ▸ hnone).symm.trans htx) (by simp)
  rw [update_of_ne hne]
  exact h id' hnone

end TxClock

structure GroupView where
  versions : GroupVersions
  active : TransactionId → Option Snapshot
  changes : TransactionId → List GroupChange
  nextTxId : TransactionId
  commitCounter : Timestamp
  history : List (TxEvent (List GroupChange))

/-- An `abandoned` change is one of a statement that threw before it recorded the change. -/
inductive GroupAct where
  | idle
  | start
  | change (id : TransactionId) (ch : GroupChange)
  | abandoned (id : TransactionId) (ch : GroupChange)
  | commit (id : TransactionId)
  | rollback (id : TransactionId)

/-- Appends go to the end; deletes and updates are of distinct rows the transaction sees. -/
def GroupChange.Possible (gv : GroupVersions) (tx : Snapshot) : GroupChange → Prop
  | .append start _ => start = gv.rowCount
  | .delete offsets | .update offsets =>
    offsets.Nodup ∧ ∀ o ∈ offsets, o < gv.rowCount ∧ gv.info.isVisible o tx = true

def GroupChange.isAppend : GroupChange → Bool
  | .append _ _ => true
  | .delete _ | .update _ => false

namespace GroupView

variable {v : GroupView} {id : TransactionId}

def Allows (v : GroupView) : GroupAct → Prop
  | .idle | .start => True
  | .change id ch => ∃ tx, v.active id = some tx ∧ ch.Possible v.versions tx
  | .abandoned id ch =>
    ch.isAppend = false ∧ ∃ tx, v.active id = some tx ∧ ch.Possible v.versions tx
  | .commit id | .rollback id => ∃ tx, v.active id = some tx

/-- End a transaction. -/
def finish (v : GroupView) (id : TransactionId) : GroupView :=
  { v with
    active := update v.active id none
    changes := update v.changes id [] }

def apply (v : GroupView) : GroupAct → GroupView
  | .idle => v
  | .start =>
    { v with
      active := update v.active v.nextTxId
        (some { txId := v.nextTxId, startTime := v.commitCounter + 1 })
      changes := update v.changes v.nextTxId []
      nextTxId := v.nextTxId + 1
      history := .began v.nextTxId :: v.history }
  | .change id ch =>
    { v with
      versions := v.versions.make id ch
      changes := update v.changes id (v.changes id ++ [ch]) }
  | .abandoned id ch => { v with versions := v.versions.make id ch }
  | .commit id =>
    { v.finish id with
      versions := (v.changes id).foldl (GroupVersions.commit (v.commitCounter + 1)) v.versions
      commitCounter := v.commitCounter + 1
      history := .committed (v.changes id) :: v.history }
  | .rollback id =>
    { v.finish id with versions := (v.changes id).reverse.foldl GroupVersions.revert v.versions }

/-- Identifiers and times are handed out in order, and only active transactions have
changes. -/
structure WellFormed (v : GroupView) : Prop
    extends TxClock v.active v.nextTxId v.commitCounter where
  changes_eq_nil : ∀ {id}, v.active id = none → v.changes id = []

theorem WellFormed.apply (h : v.WellFormed) {a : GroupAct} (ha : v.Allows a) :
    (v.apply a).WellFormed := by
  cases a with
  | idle => exact h
  | abandoned id ch => exact { h with }
  | rollback id => exact ⟨h.finish le_rfl id, TxClock.nil_of_reset @h.changes_eq_nil⟩
  | commit id =>
    exact ⟨h.finish (lt_add_one _).le id, TxClock.nil_of_reset @h.changes_eq_nil⟩
  | start => exact ⟨h.start, TxClock.nil_of_reset @h.changes_eq_nil⟩
  | change id ch =>
    obtain ⟨tx, htx, _⟩ := ha
    exact ⟨h.toTxClock, TxClock.nil_of_change @h.changes_eq_nil htx⟩

/-- An append marks the rows it adds. -/
theorem WellFormed.marker?_append (h : v.WellFormed) {tx : Snapshot} (htx : v.active id = some tx)
    (start count o : ℕ) : (v.apply (.change id (.append start count))).versions.info.marker? o =
      if o ∈ List.range' v.versions.rowCount count then some { type := .insert, txId := id }
      else v.versions.info.marker? o := by
  have hid : id ≠ invalidTransaction := (h.txId_pos htx).ne'
  simp only [GroupView.apply, GroupVersions.make, GroupVersions.append, if_neg hid]
  exact VersionInfo.marker?_foldl_mark .insert id _ _ o

/-- A delete marks the rows it deletes. -/
theorem marker?_delete (offsets : List ℕ) (o : ℕ) :
    (v.apply (.change id (.delete offsets))).versions.info.marker? o =
      if o ∈ offsets then some { type := .delete, txId := id } else v.versions.info.marker? o :=
  VersionInfo.marker?_foldl_mark .delete id offsets _ o

end GroupView

end CppColDB
