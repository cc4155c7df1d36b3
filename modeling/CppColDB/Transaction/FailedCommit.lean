import CppColDB.Storage.Wal.Prefix
import CppColDB.Transaction.Runs

/-!
# A commit whose flush fails

`Flush` clears the buffer only after the file has taken all of it. When a write fails before
that, the entries of the failed commit are still in the buffer, some of their bytes may already
be in the file, and the next commit flushes them again together with its own.
-/

namespace CppColDB

open ByteCodec Imp List Option Transaction

/-! ## Failing flushes -/

/-- `Flush` when the file takes only the first `n` bytes of the buffer, or takes them all and the
sync fails. There is nothing to fail for an empty buffer. -/
def Wal.failedFlush (n : ℕ) : Imp Error Wal Unit := do
  let w ← get
  if w.writeBuffer.isEmpty then pure ()
  else do
    set { w with file := w.file ++ w.writeBuffer.take n }
    throw (Error.io (if n < w.writeBuffer.length then text "WAL::Flush: write failed"
      else text "WAL::Flush: fsync failed"))

/-- `WriteToWAL` when its flush fails. -/
def Transaction.failToWriteToWal (tx : Transaction) (n : ℕ) : Imp Error Wal Unit := do
  forEach tx.undoBuffer writeUndoEntry
  Wal.failedFlush n

namespace Database

/-- `Commit` when its flush fails. -/
def failedCommit (tx : Transaction) (n : ℕ) : Imp Error Database Unit := do
  let db ← get
  if !tx.undoBuffer.isEmpty && db.wal.isSome then onWal (tx.failToWriteToWal n) else pure ()
  modify fun db => db.publish tx

/-- Later commits, each with a flush that succeeds. Whatever happens between them leaves the log
alone. -/
inductive Continues : Database → List Transaction → Database → Prop
  | refl (db : Database) : Continues db [] db
  | other {db db' db'' : Database} {later : List Transaction} (h : db'.wal = db.wal)
      (hrest : Continues db' later db'') : Continues db later db''
  | commit {db db' db'' : Database} {tx : Transaction} {later : List Transaction}
      (h : Database.commit tx db = some (.ok (), db')) (hrest : Continues db' later db'') :
      Continues db (tx :: later) db''

end Database

/-- The log holds the entries `es`, then those of the transactions `later`, and no other byte;
it is read as these, and `later` is replayed once, after what was replayed of `es`. -/
structure Wal.HoldsOnly (w : Wal) (es : List WalEntry) (later : List Transaction) : Prop where
  file : w.file = entriesBytes (es ++ later.flatMap walEntries)
  read : readEntries w.file = .ok (es ++ later.flatMap walEntries)
  replayed : replayedEntries w.file = .ok (afterCheckpoint es ++ later.flatMap walEntries)

/-! ## The log after a failure -/

variable {db db' db₁ db₂ : Database} {tx : Transaction} {later : List Transaction} {n : ℕ}
  {w w' : Wal} {es : List WalEntry} {e : Error}

theorem entriesBytes_append (xs ys : List WalEntry) :
    entriesBytes (xs ++ ys) = entriesBytes xs ++ entriesBytes ys :=
  flatMap_append

theorem failedFlush_run (h : Wal.failedFlush n w = some (.error e, w')) :
    w.writeBuffer ≠ [] ∧ w' = { w with file := w.file ++ w.writeBuffer.take n } := by
  rw [Wal.failedFlush, bind_run_ok get_run] at h
  split at h
  next => cases h
  next hbuffer =>
    cases h
    exact ⟨by simpa using hbuffer, rfl⟩

theorem forEach_writeUndoEntry_ne_error {us : List UndoEntry}
    (h : ∀ u ∈ us, ∃ o, undoWalEntry u = .ok o) (w : Wal) (e : Error) (w' : Wal) :
    forEach us writeUndoEntry w ≠ some (.error e, w') := by
  induction us generalizing w with
  | nil => nofun
  | cons u us ih =>
    obtain ⟨o, ho⟩ := h u mem_cons_self
    have hus := fun v hv => h v (mem_cons_of_mem _ hv)
    have hrun : ∃ w₁, writeUndoEntry u w = some (.ok (), w₁) := by
      have hentry : ofExcept (some (undoWalEntry u)) w = some (.ok o, w) := by
        rw [ofExcept_run, ho, map_some]
      rw [writeUndoEntry, bind_run_ok hentry]
      cases o with
      | none => exact ⟨w, rfl⟩
      | some entry => exact ⟨_, rfl⟩
    obtain ⟨w₁, hrun⟩ := hrun
    rw [forEach_cons, bind_run_ok hrun]
    exact ih hus w₁

theorem flatMap_walEntries_eq_nil (h : ∀ tx ∈ later, tx.undoBuffer = []) :
    later.flatMap walEntries = [] := by
  rw [flatMap_eq_nil_iff]
  intro tx htx
  rw [walEntries, h tx htx, filterMap_nil]

/-- **After a failed commit** the buffer holds its entries, and the file some of their bytes. -/
theorem Database.failedCommit_run {file : Bytes} (hwal : db.wal = some { file })
    (hentries : ∀ u ∈ tx.undoBuffer, ∃ o, undoWalEntry u = .ok o)
    (h : Database.failedCommit tx n db = some (.error e, db')) :
    entriesBytes tx.walEntries ≠ [] ∧ db'.wal =
      some { file := file ++ (entriesBytes tx.walEntries).take n
             writeBuffer := entriesBytes tx.walEntries } := by
  rw [Database.failedCommit, bind_run_ok get_run] at h
  split at h
  · rcases bind_run_eq_some_iff.mp h with ⟨e', hfail, he⟩ | ⟨_, _, _, h⟩
    · obtain ⟨w₀, w₁, hw₀, hrun, rfl⟩ := focus_run_eq_some_iff.mp hfail
      cases hwal.symm.trans hw₀
      rcases bind_run_eq_some_iff.mp hrun with ⟨e'', hthrow, -⟩ | ⟨_, w₂, hwrite, hflush⟩
      · exact absurd hthrow (forEach_writeUndoEntry_ne_error hentries _ _ _)
      · rw [forEach_writeUndoEntry_run hwrite] at hflush
        obtain ⟨hbuffer, rfl⟩ := failedFlush_run hflush
        exact ⟨hbuffer, rfl⟩
    · cases h
  · cases h

/-- A commit appends the buffer and its own entries to the file, if it has changes at all. -/
theorem Database.wal_commit (hwal : db.wal = some w)
    (h : Database.commit tx db = some (.ok (), db')) :
    db'.wal = some (if tx.undoBuffer = [] then w
      else { file := w.file ++ (w.writeBuffer ++ entriesBytes tx.walEntries) }) := by
  rw [Database.commit, bind_run_ok get_run] at h
  by_cases hundo : tx.undoBuffer = []
  · rw [if_neg (by simp [hundo])] at h
    cases h
    rw [if_pos hundo]
    exact hwal
  · rw [if_pos (by simp [hundo, hwal])] at h
    obtain ⟨_, db₁, hwrite, h⟩ := bind_run_eq_ok_iff.mp h
    obtain ⟨w₀, w₁, hw₀, hrun, rfl⟩ := focus_run_eq_some_iff.mp hwrite
    cases hwal.symm.trans hw₀
    cases h
    rw [if_neg hundo, writeToWal_run hrun]
    rfl

/-- **The log after later commits**: as it was if none of them has changes, and otherwise the
buffer is in the file, followed by their entries. -/
theorem Database.Continues.wal (h : Continues db later db') (hwal : db.wal = some w) :
    db'.wal = some (if ∀ tx ∈ later, tx.undoBuffer = [] then w
      else { file := w.file ++
        (w.writeBuffer ++ entriesBytes (later.flatMap walEntries)) }) := by
  induction h generalizing w with
  | refl db => rw [if_pos (forall_mem_nil _), hwal]
  | other h hrest ih => exact ih (h.trans hwal)
  | @commit db db₁ db₂ tx later h hrest ih =>
    rw [ih (wal_commit hwal h)]
    by_cases hundo : tx.undoBuffer = []
    · have hnone : tx.walEntries = [] := by rw [walEntries, hundo]; rfl
      simp [hundo, hnone]
    · have hsome : ¬ ∀ tx' ∈ tx :: later, tx'.undoBuffer = [] :=
        fun hall => hundo (hall tx mem_cons_self)
      split
      next hlater =>
        simp [flatMap_walEntries_eq_nil hlater]
      next => simp [entriesBytes_append]

/-- **A failed commit leaves no trace** only while nothing of it has reached the file and no
transaction with changes commits afterwards: the next one flushes the entries of the failed one
with its own. -/
theorem Database.failed_commit_leaves_no_trace_iff (hwal : db.wal = some { file := entriesBytes es })
    (hread : readEntries (entriesBytes es) = .ok es)
    (hentries : ∀ u ∈ tx.undoBuffer, ∃ o, undoWalEntry u = .ok o)
    (hfail : Database.failedCommit tx n db = some (.error e, db₁))
    (hlater : Continues db₁ later db₂) :
    (∃ w, db₂.wal = some w ∧ w.HoldsOnly es later) ↔
      n = 0 ∧ ∀ tx ∈ later, tx.undoBuffer = [] := by
  obtain ⟨hbytes, hwal₁⟩ := failedCommit_run hwal hentries hfail
  have hpos := length_pos_iff.mpr hbytes
  have hwal₂ := hlater.wal hwal₁
  constructor
  · rintro ⟨w, hw, hholds⟩
    have hfile := congrArg length hholds.file
    rw [hwal₂] at hw
    cases hw
    rw [entriesBytes_append, length_append] at hfile
    split at hfile
    next hnone =>
      rw [length_append, length_take] at hfile
      rw [flatMap_walEntries_eq_nil hnone] at hfile
      refine ⟨?_, hnone⟩
      have hnil : (entriesBytes ([] : List WalEntry)).length = 0 := rfl
      omega
    next =>
      simp only [length_append] at hfile
      omega
  · rintro ⟨rfl, hnone⟩
    rw [if_pos hnone] at hwal₂
    have hempty := flatMap_walEntries_eq_nil hnone
    refine ⟨_, hwal₂, ⟨by simp [hempty], by simpa [hempty] using hread, ?_⟩⟩
    simp [hempty, replayedEntries, hread]

/-! ## Three transactions -/

/-- A transaction that drops a table. -/
def dropping (id : TransactionId) (table : String) : Transaction :=
  { txId := id, startTime := id
    undoBuffer := [.catalog { schema := text "main", table := text table, wasCreate := false }] }

/-- A database whose log holds the entry of a dropped table. -/
def loggedDatabase : Database :=
  { catalog := Catalog.create 16
    wal := some { file := entriesBytes (dropping 1 "c").walEntries } }

theorem undoWalEntry_createTwo : ∀ u ∈ createTwo.undoBuffer, ∃ o, undoWalEntry u = .ok o := by
  rintro u hu
  rcases mem_pair.mp hu with rfl | rfl
  · exact ⟨_, rfl⟩
  · exact ⟨_, rfl⟩

/-- The database after a commit of `createTwo` of which nothing reached the log. -/
def afterFailure : Database :=
  { loggedDatabase with wal := loggedDatabase.wal.map fun w =>
      { w with writeBuffer := entriesBytes createTwo.walEntries } }

theorem failedCommit_createTwo : ∃ e,
    Database.failedCommit createTwo 0 loggedDatabase = some (.error e, afterFailure) :=
  ⟨_, rfl⟩

/-- The failed commit is not seen in the log, also when a transaction that has only read commits
after it. -/
theorem Database.failed_createTwo_leaves_no_trace : ∃ db₂ w,
    Continues afterFailure [{ txId := 3, startTime := 3 }] db₂ ∧ db₂.wal = some w ∧
      w.HoldsOnly (dropping 1 "c").walEntries [{ txId := 3, startTime := 3 }] := by
  obtain ⟨e, hfail⟩ := failedCommit_createTwo
  have hlater : Continues afterFailure [{ txId := 3, startTime := 3 }] _ := .commit rfl (.refl _)
  obtain ⟨w, hw, hholds⟩ := (failed_commit_leaves_no_trace_iff rfl (by decide +kernel)
    undoWalEntry_createTwo hfail hlater).mpr ⟨rfl, forall_mem_singleton.mpr rfl⟩
  exact ⟨_, w, hlater, hw, hholds⟩

/-- The commit of a later transaction then writes the entries of `createTwo` as well, and they are
replayed. -/
theorem Database.dropping_commits_createTwo : ∃ e db₂ w,
    Database.failedCommit createTwo 0 loggedDatabase = some (.error e, afterFailure) ∧
      Continues afterFailure [dropping 3 "d"] db₂ ∧ db₂.wal = some w ∧
        replayedEntries w.file = .ok ((dropping 1 "c").walEntries ++
          (createTwo.walEntries ++ (dropping 3 "d").walEntries)) ∧
        ¬ w.HoldsOnly (dropping 1 "c").walEntries [dropping 3 "d"] := by
  obtain ⟨e, hfail⟩ := failedCommit_createTwo
  have hreplayed : replayedEntries (entriesBytes (dropping 1 "c").walEntries ++
      (entriesBytes createTwo.walEntries ++ entriesBytes (dropping 3 "d").walEntries)) =
      .ok ((dropping 1 "c").walEntries ++
        (createTwo.walEntries ++ (dropping 3 "d").walEntries)) := by decide +kernel
  refine ⟨e, _, _, hfail, .commit rfl (.refl _), rfl, hreplayed, fun h => ?_⟩
  have hentries := Except.ok.inj (hreplayed.symm.trans h.replayed)
  exact absurd hentries (by decide +kernel)

end CppColDB
