import CppColDB.Storage.Wal.Reader

/-!
# Prefixes of a log and transactions

The log of some committed transactions, cut at any byte: which entries are replayed, and when
these are those of whole transactions.
-/

namespace CppColDB

open ByteCodec Except Imp List Transaction

/-- The entries that `WriteToWAL` writes for a transaction. -/
def Transaction.walEntries (tx : Transaction) : List WalEntry :=
  tx.undoBuffer.filterMap fun e => (undoWalEntry e).toOption.join

/-- What `ReplayWAL` replays of a log file. -/
def replayedEntries (file : Bytes) : Except Error (List WalEntry) := do
  let entries ← readEntries file
  pure (afterCheckpoint entries)

/-- Transactions that write the log one after the other. -/
def writeAll (txs : List Transaction) : Imp Error Wal Unit :=
  forEach txs writeToWal

/-! ## The bytes of the log -/

variable {w w' : Wal} {txs : List Transaction} {tx : Transaction} {entry : WalEntry} {e : UndoEntry}

theorem writeUndoEntry_run (h : writeUndoEntry e w = some (.ok (), w')) :
    w' = { w with writeBuffer :=
      w.writeBuffer ++ entriesBytes ((undoWalEntry e).toOption.join).toList } := by
  rw [writeUndoEntry, bind_run_eq_ok_iff] at h
  obtain ⟨o, w₁, ho, h⟩ := h
  obtain ⟨hentry, rfl⟩ := Prod.mk.inj (Option.some.inj ho)
  rw [hentry]
  cases o with
  | none =>
    cases h
    simp [Except.toOption, entriesBytes]
  | some entry =>
    cases h
    simp [Except.toOption, entriesBytes, Wal.appendEntry]

theorem forEach_writeUndoEntry_run {es : List UndoEntry}
    (h : forEach es writeUndoEntry w = some (.ok (), w')) :
    w' = { w with writeBuffer := w.writeBuffer ++
      entriesBytes (es.filterMap fun e => (undoWalEntry e).toOption.join) } := by
  induction es generalizing w with
  | nil =>
    cases h
    simp [entriesBytes]
  | cons e es ih =>
    rw [forEach_cons, bind_run_eq_ok_iff] at h
    obtain ⟨⟨⟩, w₁, he, h⟩ := h
    rw [ih h, writeUndoEntry_run he]
    cases ho : (undoWalEntry e).toOption.join <;> simp [ho, entriesBytes]

theorem writeToWal_run (h : tx.writeToWal w = some (.ok (), w')) :
    w' = { file := w.file ++ (w.writeBuffer ++ entriesBytes tx.walEntries) } := by
  rw [writeToWal, bind_run_eq_ok_iff] at h
  obtain ⟨⟨⟩, w₁, hentries, h⟩ := h
  cases h
  rw [forEach_writeUndoEntry_run hentries]
  rfl

/-- **The log of some transactions** is the entries of one after those of the other. -/
theorem writeAll_run {file : Bytes} (h : writeAll txs { file } = some (.ok (), w)) :
    w = { file := file ++ entriesBytes (txs.flatMap walEntries) } := by
  induction txs generalizing file with
  | nil =>
    cases h
    simp [entriesBytes]
  | cons tx txs ih =>
    rw [writeAll, forEach_cons, bind_run_eq_ok_iff] at h
    obtain ⟨⟨⟩, w₁, htx, h⟩ := h
    rw [writeToWal_run htx] at h
    rw [ih h]
    simp [entriesBytes]

/-! ## No marker among the entries of transactions -/

theorem undoWalEntry_ne_checkpoint
    (h : undoWalEntry e = .ok (some entry)) : entry.type ≠ .checkpoint := by
  cases e with
  | catalog e =>
    rw [undoWalEntry] at h
    split at h
    · obtain ⟨data, -, h⟩ := bind_eq_ok_iff.mp h
      cases h
      nofun
    · cases h
      nofun
  | insert e | delete e | update e =>
    rw [undoWalEntry] at h
    split at h <;> cases h
    nofun
  | alterPartition e =>
    obtain ⟨data, -, h⟩ := bind_eq_ok_iff.mp h
    cases h
    nofun

theorem walEntries_ne_checkpoint (h : entry ∈ tx.walEntries) : entry.type ≠ .checkpoint := by
  obtain ⟨e, -, he⟩ := mem_filterMap.mp h
  cases hentry : undoWalEntry e with
  | error err => simp [hentry, Except.toOption] at he
  | ok o =>
    obtain rfl : o = some entry := by simpa [hentry, Except.toOption] using he
    exact undoWalEntry_ne_checkpoint hentry

theorem afterCheckpoint_eq_self {es : List WalEntry} (h : ∀ e ∈ es, e.type ≠ .checkpoint) :
    afterCheckpoint es = es := by
  rw [afterCheckpoint, takeWhile_eq_self_iff.mpr, reverse_reverse]
  exact fun e he => decide_eq_true (h e (mem_reverse.mp he))

/-! ## Whole transactions -/

/-- The log is read as the entries of the first `k` transactions, and these are replayed. -/
def ReplaysFirst (txs : List Transaction) (file : Bytes) (k : ℕ) : Prop :=
  readEntries file = .ok ((txs.take k).flatMap walEntries) ∧
    replayedEntries file = .ok ((txs.take k).flatMap walEntries)

/-- The cut at byte `n` lies behind the last entry of the first `k` transactions, none of which
is too large, and before the end of the entry after it. -/
def CutsAfter (txs : List Transaction) (n k : ℕ) : Prop :=
  (∀ e ∈ (txs.take k).flatMap walEntries, e.data.length ≤ maxEntry) ∧
    (entriesBytes ((txs.take k).flatMap walEntries)).length ≤ n ∧
      Stops (n - (entriesBytes ((txs.take k).flatMap walEntries)).length)
        ((txs.drop k).flatMap walEntries)

instance (txs : List Transaction) (n k : ℕ) : Decidable (CutsAfter txs n k) :=
  inferInstanceAs (Decidable (_ ∧ _ ∧ _))

theorem replaysFirst_iff_cutsAfter {n k : ℕ} :
    ReplaysFirst txs ((entriesBytes (txs.flatMap walEntries)).take n) k ↔
      CutsAfter txs n k := by
  have hsplit : txs.flatMap walEntries = (txs.take k).flatMap walEntries ++
        (txs.drop k).flatMap walEntries := by
    rw [← flatMap_append, take_append_drop]
  have hread := readFrom_take_iff (le_refl
    ((entriesBytes ((txs.take k).flatMap walEntries ++
      (txs.drop k).flatMap walEntries)).take n).length)
  rw [hsplit, CutsAfter, ← hread, ← readEntries]
  refine ⟨And.left, fun h => ⟨h, ?_⟩⟩
  have hmarker : ∀ e ∈ (txs.take k).flatMap walEntries, e.type ≠ .checkpoint := by
    intro e he
    obtain ⟨tx, -, he⟩ := mem_flatMap.mp he
    exact walEntries_ne_checkpoint he
  rw [replayedEntries, h]
  exact congrArg ok (afterCheckpoint_eq_self hmarker)

/-- A transaction that creates the tables `a` and `b`. -/
def createTwo : Transaction :=
  { txId := 1, startTime := 1
    undoBuffer := [.catalog { schema := text "main", table := text "a", wasCreate := true },
      .catalog { schema := text "main", table := text "b", wasCreate := true }] }

/-- The log of `createTwo`: two entries of 19 bytes each. -/
def createTwoLog : Wal := { file := entriesBytes createTwo.walEntries }

end CppColDB
