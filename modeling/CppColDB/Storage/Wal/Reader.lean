import CppColDB.Storage.Wal.Log

/-!
# Reading the log

`ReadNextEntry` reads a header and its payload; a log that ends inside an entry ends before
it. What is read of a log that was cut at some byte are the entries that lie before the cut,
whatever transactions they belong to. `Truncate` cuts off the entries before the last
checkpoint marker.
-/

namespace CppColDB

open ByteCodec Except List Nat

/-! ## The reader -/

/-- `MAX_ENTRY`. -/
def maxEntry : ℕ := 128 * 1024 * 1024

/-- `ReadNextEntry`: an entry and what is left of the file; nothing at its end. -/
def readNextEntry : Bytes → Except Error (Option (WalEntry × Bytes))
  | [] => .ok none
  | type :: rest =>
    if rest.length < 4 then .ok none
    else
      let size := ofLeBytes (rest.take 4)
      let payload := rest.drop 4
      if maxEntry < size then .error (Error.io (text "WAL: entry too large (corrupted?)"))
      else if payload.length < size then .ok none
      else .ok (some ({ type := WalEntryType.ofByte type, data := payload.take size },
        payload.drop size))

/-- The first loop of `ReplayWAL`, at most `fuel` times. -/
def readFrom : ℕ → Bytes → Except Error (List WalEntry)
  | 0, _ => .ok []
  | fuel + 1, file => do
    match ← readNextEntry file with
    | none => pure []
    | some (entry, rest) => do
      let entries ← readFrom fuel rest
      pure (entry :: entries)

/-- All entries of a log. Each takes at least its header from the file. -/
def readEntries (file : Bytes) : Except Error (List WalEntry) := readFrom file.length file

/-- The entries that are replayed: those after the last checkpoint marker. -/
def afterCheckpoint (entries : List WalEntry) : List WalEntry :=
  (entries.reverse.takeWhile fun e => decide (e.type ≠ .checkpoint)).reverse

/-! ## Logs that were cut -/

namespace WalEntry

/-- The size that the header of an entry declares. -/
def declared (e : WalEntry) : ℕ := e.data.length % 2 ^ 32

end WalEntry

/-- The bytes of some entries. -/
def entriesBytes (es : List WalEntry) : Bytes := es.flatMap entryBytes

theorem length_entryBytes (e : WalEntry) : (entryBytes e).length = 5 + e.data.length := by
  simp [entryBytes]
  omega

theorem readNextEntry_take (e : WalEntry) (more : Bytes) (n : ℕ) :
    readNextEntry ((entryBytes e ++ more).take n) =
      if n < 5 then .ok none
      else if maxEntry < e.declared then
        .error (Error.io (text "WAL: entry too large (corrupted?)"))
      else if n < 5 + e.declared then .ok none
      else .ok (some ({ type := e.type, data := (e.data ++ more).take e.declared },
        ((e.data ++ more).take (n - 5)).drop e.declared)) := by
  have hdeclared : e.declared ≤ e.data.length := mod_le _ _
  cases n with
  | zero => rfl
  | succ m =>
    have htake : (entryBytes e ++ more).take (m + 1) =
        e.type.toByte :: (leBytes 4 e.data.length ++ (e.data ++ more)).take m := by
      simp [entryBytes]
    rw [htake, readNextEntry]
    by_cases hm : m < 4
    · rw [if_pos (by rw [length_take]; omega), if_pos (by omega)]
    · have hheader : ((leBytes 4 e.data.length ++ (e.data ++ more)).take m).take 4 =
          leBytes 4 e.data.length := by
        rw [take_take, min_eq_left (by omega), take_left' (length_leBytes 4 _)]
      have hpayload : ((leBytes 4 e.data.length ++ (e.data ++ more)).take m).drop 4 =
          (e.data ++ more).take (m + 1 - 5) := by
        rw [drop_take]
        rfl
      have hsize : ofLeBytes (leBytes 4 e.data.length) = e.declared := ofLeBytes_leBytes 4 _
      have hlength : ((e.data ++ more).take (m + 1 - 5)).length < e.declared ↔
          m + 1 < 5 + e.declared := by
        rw [length_take, length_append]
        omega
      rw [if_neg (by simp; omega), hheader, hpayload, hsize, if_neg (show ¬ m + 1 < 5 by omega)]
      simp only [hlength, WalEntryType.ofByte_toByte]
      split_ifs with hmax hshort
      · rfl
      · rfl
      · rw [take_take, min_eq_left (by omega)]

/-- The reader stops at the front of the given entries, if only `n` bytes of them are there:
there is no entry, or its header or its payload is not complete. -/
def Stops (n : ℕ) : List WalEntry → Prop
  | [] => True
  | e :: _ => n < 5 ∨ (e.declared ≤ maxEntry ∧ n < 5 + e.declared)

instance (n : ℕ) : ∀ es, Decidable (Stops n es)
  | [] => inferInstanceAs (Decidable True)
  | e :: _ => inferInstanceAs (Decidable (n < 5 ∨ (e.declared ≤ maxEntry ∧ n < 5 + e.declared)))

variable {e : WalEntry} {n : ℕ}

theorem readNextEntry_eq_none_iff {more : Bytes} (post : List WalEntry) :
    readNextEntry ((entryBytes e ++ more).take n) = .ok none ↔ Stops n (e :: post) := by
  rw [readNextEntry_take, Stops]
  split_ifs with hheader hmax hpayload
  · exact iff_of_true rfl (.inl hheader)
  · exact iff_of_false nofun (by omega)
  · exact iff_of_true rfl (.inr ⟨by omega, hpayload⟩)
  · exact iff_of_false nofun (by omega)

/-- An entry is read back if it is complete and not too large. -/
theorem readNextEntry_eq_some_iff {more rest : Bytes} :
    readNextEntry ((entryBytes e ++ more).take n) = .ok (some (e, rest)) ↔
      e.data.length ≤ maxEntry ∧ (entryBytes e).length ≤ n ∧
        rest = more.take (n - (entryBytes e).length) := by
  have hsmall : e.data.length ≤ maxEntry → e.declared = e.data.length := fun h =>
    mod_eq_of_lt (h.trans_lt (by decide))
  rw [readNextEntry_take, length_entryBytes]
  constructor
  · intro h
    split_ifs at h with hheader hmax hpayload
    · cases h
    · cases h
    · obtain ⟨hentry, rfl⟩ := Prod.mk.inj (Option.some.inj (ok.inj h))
      have hdata := congrArg (fun x : WalEntry => x.data.length) hentry
      simp only [length_take] at hdata
      have heq : e.declared = e.data.length := by omega
      refine ⟨by omega, by omega, ?_⟩
      rw [heq, drop_take, drop_left, Nat.sub_sub]
  · rintro ⟨hmax, hlength, rfl⟩
    have heq := hsmall hmax
    rw [if_neg (by omega), if_neg (by omega), if_neg (by omega), heq, take_left,
      drop_take, drop_left, Nat.sub_sub]

variable {fuel : ℕ} {file : Bytes}

theorem readFrom_eq_nil_iff :
    readFrom (fuel + 1) file = .ok [] ↔ readNextEntry file = .ok none := by
  rw [readFrom, bind_eq_ok_iff]
  constructor
  · rintro ⟨next, hnext, h⟩
    match next, h with
    | none, _ => exact hnext
    | some (entry, rest), h =>
      obtain ⟨entries, -, h⟩ := bind_eq_ok_iff.mp h
      cases h
  · intro h
    exact ⟨none, h, rfl⟩

theorem readFrom_eq_cons_iff {es : List WalEntry} : readFrom (fuel + 1) file = .ok (e :: es) ↔
      ∃ rest, readNextEntry file = .ok (some (e, rest)) ∧ readFrom fuel rest = .ok es := by
  rw [readFrom, bind_eq_ok_iff]
  constructor
  · rintro ⟨next, hnext, h⟩
    match next, h with
    | none, h => cases h
    | some (entry, rest), h =>
      obtain ⟨entries, hentries, h⟩ := bind_eq_ok_iff.mp h
      cases h
      exact ⟨rest, hnext, hentries⟩
  · rintro ⟨rest, hnext, hes⟩
    exact ⟨_, hnext, bind_eq_ok_iff.mpr ⟨es, hes, rfl⟩⟩

/-- **A log that was cut at byte `n`** is read as the entries `pre`, if it begins with them,
exactly where none of them is too large, the cut lies behind them and the next one is not
complete. -/
theorem readFrom_take_iff {pre post : List WalEntry}
    (hfuel : ((entriesBytes (pre ++ post)).take n).length ≤ fuel) :
    readFrom fuel ((entriesBytes (pre ++ post)).take n) = .ok pre ↔
      (∀ e ∈ pre, e.data.length ≤ maxEntry) ∧ (entriesBytes pre).length ≤ n ∧
        Stops (n - (entriesBytes pre).length) post := by
  induction pre generalizing n fuel with
  | nil =>
    have hnil : (entriesBytes ([] : List WalEntry)).length = 0 := rfl
    rw [hnil, and_iff_right (forall_mem_nil _), and_iff_right n.zero_le]
    cases post with
    | nil =>
      refine iff_of_true ?_ trivial
      cases fuel with
      | zero => rfl
      | succ fuel => exact readFrom_eq_nil_iff.mpr (by simp [entriesBytes, readNextEntry])
    | cons e post =>
      cases fuel with
      | zero =>
        refine iff_of_true rfl (.inl ?_)
        simp [entriesBytes, length_entryBytes] at hfuel
        omega
      | succ fuel => exact readFrom_eq_nil_iff.trans (readNextEntry_eq_none_iff post)
  | cons e pre ih =>
    have hcons : ∀ es, entriesBytes (e :: es) = entryBytes e ++ entriesBytes es := fun _ => rfl
    have hlength : (entriesBytes (e :: pre)).length =
        (entryBytes e).length + (entriesBytes pre).length := by
      rw [hcons, length_append]
    have hpos : 0 < (entryBytes e).length := by rw [length_entryBytes]; omega
    rw [cons_append, hcons] at hfuel ⊢
    rw [length_take, length_append] at hfuel
    cases fuel with
    | zero =>
      refine iff_of_false nofun ?_
      omega
    | succ fuel =>
      rw [readFrom_eq_cons_iff]
      simp only [readNextEntry_eq_some_iff]
      rw [forall_mem_cons, hlength, ← Nat.sub_sub]
      constructor
      · rintro ⟨_, ⟨hmax, hn, rfl⟩, hrest⟩
        obtain ⟨hpre, hlen, hstops⟩ := (ih (by rw [length_take]; omega)).mp hrest
        exact ⟨⟨hmax, hpre⟩, by omega, hstops⟩
      · rintro ⟨⟨hmax, hpre⟩, hn, hstops⟩
        exact ⟨_, ⟨hmax, by omega, rfl⟩,
          (ih (by rw [length_take]; omega)).mpr ⟨hpre, by omega, hstops⟩⟩

/-! ## Framing -/

/-- The log after the entries are appended and flushed. -/
def Wal.logged (es : List WalEntry) : Wal :=
  (es.foldl (fun w e => Wal.appendEntry w e.type e.data) {}).flush

theorem file_logged (es : List WalEntry) : (Wal.logged es).file = entriesBytes es := by
  have happend : ∀ w : Wal, es.foldl (fun w e => w.appendEntry e.type e.data) w =
      { w with writeBuffer := w.writeBuffer ++ entriesBytes es } := by
    induction es with
    | nil => simp [entriesBytes]
    | cons e es ih =>
      intro w
      rw [foldl_cons, ih]
      simp [Wal.appendEntry, entriesBytes]
  rw [Wal.logged, happend]
  rfl

/-- **WAL framing**: a log is read back as its entries, and a log that was cut at any byte as
those that lie before the cut. -/
theorem readEntries_logged (es : List WalEntry) (hmax : ∀ e ∈ es, e.data.length ≤ maxEntry) :
    readEntries (Wal.logged es).file = .ok es ∧
      ∀ n, ∃ k, readEntries ((Wal.logged es).file.take n) = .ok (es.take k) ∧
        ∀ i < es.length, i < k ↔ (entriesBytes (es.take (i + 1))).length ≤ n := by
  have hcut : ∀ n, ∃ k, readEntries ((entriesBytes es).take n) = .ok (es.take k) ∧
      ∀ i < es.length, i < k ↔ (entriesBytes (es.take (i + 1))).length ≤ n := by
    intro n
    have hmono : Monotone fun k => (entriesBytes (es.take k)).length := fun i j hij =>
      ((take_prefix_take_left hij).flatMap entryBytes).length_le
    let k := findGreatest (fun k => (entriesBytes (es.take k)).length ≤ n) es.length
    have hk : (entriesBytes (es.take k)).length ≤ n := findGreatest_spec
      (P := fun k => (entriesBytes (es.take k)).length ≤ n) (zero_le _) (zero_le n)
    have hnext : ∀ i < es.length, i < k ↔ (entriesBytes (es.take (i + 1))).length ≤ n :=
      fun i hi => ⟨fun hik => (hmono hik).trans hk, fun hle => le_findGreatest hi hle⟩
    refine ⟨k, ?_, hnext⟩
    have hread := readFrom_take_iff (le_refl
      ((entriesBytes (es.take k ++ es.drop k)).take n).length)
    rw [take_append_drop] at hread
    refine hread.mpr ⟨fun e he => hmax e (mem_of_mem_take he), hk, ?_⟩
    rcases lt_or_ge k es.length with hlt | hge
    · have hlong := mt (hnext k hlt).mpr (lt_irrefl k)
      have hdeclared : (es[k]).declared = (es[k]).data.length :=
        mod_eq_of_lt ((hmax _ (getElem_mem hlt)).trans_lt (by decide))
      rw [take_succ_eq_append_getElem hlt] at hlong
      simp only [entriesBytes, flatMap_append, flatMap_singleton, length_append,
        length_entryBytes] at hlong ⊢
      rw [drop_eq_getElem_cons hlt, Stops, hdeclared]
      exact .inr ⟨hmax _ (getElem_mem hlt), by omega⟩
    · rw [drop_eq_nil_of_le hge]
      trivial
  rw [file_logged]
  refine ⟨?_, hcut⟩
  obtain ⟨k, hread, hiff⟩ := hcut (entriesBytes es).length
  rw [take_length] at hread
  rw [hread, take_of_length_le]
  by_contra hk
  have hwhole := take_prefix (k + 1) es
  exact lt_irrefl k ((hiff k (Nat.lt_of_not_le hk)).mpr (hwhole.flatMap entryBytes).length_le)

/-- Two entries, and the log without its last byte. -/
theorem readEntries_cut_drop : readEntries (Wal.logged [⟨.dropTable, [1]⟩, ⟨.delete, []⟩]).file =
      .ok [⟨.dropTable, [1]⟩, ⟨.delete, []⟩] ∧
    ∃ k, readEntries ((Wal.logged [⟨.dropTable, [1]⟩, ⟨.delete, []⟩]).file.take 10) =
      .ok ([⟨.dropTable, [1]⟩, ⟨.delete, []⟩].take k) :=
  have h := readEntries_logged [⟨.dropTable, [1]⟩, ⟨.delete, []⟩] (by decide)
  ⟨h.1, (h.2 10).imp fun _ hk => hk.1⟩

/-! ## Truncation -/

/-- The log with the offset of its descriptor, the size it tracks and the position of the last
checkpoint marker; 0 stands for none. -/
structure WalFile extends Wal where
  offset : ℕ := file.length
  fileSize : ℕ := file.length
  checkpointPos : ℕ := 0
  deriving DecidableEq

def checkpointMarker : WalEntry := ⟨.checkpoint, []⟩

namespace WalFile

def append (w : WalFile) (e : WalEntry) : WalFile :=
  { w with writeBuffer := (w.appendEntry e.type e.data).writeBuffer }

def writeCheckpointMarker (w : WalFile) : WalFile :=
  { w.append checkpointMarker with checkpointPos := w.fileSize + w.writeBuffer.length }

/-- `Flush`: the buffer is written at the offset. -/
def flush (w : WalFile) : WalFile :=
  let next := w.offset + w.writeBuffer.length
  { w with file := w.file.take w.offset ++ w.writeBuffer ++ w.file.drop next, writeBuffer := []
           offset := next, fileSize := w.fileSize + w.writeBuffer.length }

/-- `Truncate`. It throws if the marker is not in the file yet, or the file is too short. -/
def truncate (w : WalFile) : Option WalFile :=
  if w.checkpointPos = 0 then some { w with file := [], offset := 0, fileSize := 0 }
  else if w.fileSize < w.checkpointPos ∨ w.file.length < w.fileSize then none
  else
    let keepSize := w.fileSize - w.checkpointPos
    some { w with file := (w.file.drop w.checkpointPos).take keepSize, offset := keepSize
                  fileSize := keepSize, checkpointPos := 0 }

/-- The logs that writes lead to from a log of the entries `old`, with what was written. -/
inductive Writes (old : List WalEntry) : WalFile → List WalEntry → Prop
  | opened : Writes old { file := entriesBytes old } []
  | entry {w es e} (h : Writes old w es) (he : e.type ≠ .checkpoint) :
      Writes old (w.append e) (es ++ [e])
  | marker {w es} (h : Writes old w es) :
      Writes old w.writeCheckpointMarker (es ++ [checkpointMarker])
  | flush {w es} (h : Writes old w es) : Writes old w.flush es

variable {w : WalFile} {old es pre post : List WalEntry} {e : WalEntry}

structure Holds (w : WalFile) (es : List WalEntry) : Prop where
  bytes : w.file ++ w.writeBuffer = entriesBytes es
  offset : w.offset = w.file.length
  size : w.fileSize = w.file.length

theorem Holds.append (h : w.Holds es) (e : WalEntry) : (w.append e).Holds (es ++ [e]) := by
  refine ⟨?_, h.offset, h.size⟩
  rw [entriesBytes, flatMap_append, ← entriesBytes, ← h.bytes, append_assoc, flatMap_singleton]
  rfl

/-- At its end the file takes the buffer as a whole. -/
theorem Holds.toWal_flush (h : w.Holds es) : w.flush.toWal = w.toWal.flush := by
  simp [WalFile.flush, Wal.flush, h.offset]

theorem Holds.flush (h : w.Holds es) : w.flush.Holds es := by
  refine ⟨?_, ?_, ?_⟩
  · rw [h.toWal_flush, Wal.flush, append_nil, h.bytes]
  · rw [h.toWal_flush, Wal.flush, length_append, ← h.offset]
    rfl
  · rw [h.toWal_flush, Wal.flush, length_append, ← h.size]
    rfl

theorem Writes.holds (h : Writes old w es) : w.Holds (old ++ es) := by
  induction h with
  | opened => exact ⟨by simp, rfl, rfl⟩
  | entry _ _ ih => simpa using ih.append _
  | marker _ ih =>
    obtain ⟨hbytes, hoffset, hsize⟩ := ih.append checkpointMarker
    exact ⟨append_assoc old _ _ ▸ hbytes, hoffset, hsize⟩
  | flush _ ih => exact ih.flush

/-- The position that is tracked is that of the last marker. -/
theorem Writes.checkpointPos_eq (h : Writes old w es) (hes : es = pre ++ checkpointMarker :: post)
    (hpost : ∀ e ∈ post, e.type ≠ .checkpoint) :
    w.checkpointPos = (entriesBytes (old ++ pre)).length := by
  have hlast : ∀ {es post e}, es ++ [e] = pre ++ checkpointMarker :: post →
      e = checkpointMarker ∧ es = pre ∨
        e ∈ post ∧ ∃ post' ⊆ post, es = pre ++ checkpointMarker :: post' := by
    intro es post e hes
    rcases eq_nil_or_concat' post with rfl | ⟨post', e', rfl⟩
    · obtain ⟨rfl, h⟩ := append_inj' hes rfl
      exact .inl ⟨(cons.inj h).1, rfl⟩
    · rw [← cons_append, ← append_assoc] at hes
      obtain ⟨hes, h⟩ := append_inj' hes rfl
      rw [(cons.inj h).1]
      exact .inr ⟨by simp, post', subset_append_left _ _, hes⟩
  induction h generalizing post with
  | opened => simp at hes
  | entry _ he ih =>
    rcases hlast hes with ⟨rfl, -⟩ | ⟨-, post', hsub, hes⟩
    · exact absurd rfl he
    · exact ih hes fun e he => hpost e (hsub he)
  | marker h =>
    rcases hlast hes with ⟨-, rfl⟩ | ⟨hmem, -⟩
    · rw [← h.holds.bytes, length_append, ← h.holds.size]
      rfl
    · exact absurd rfl (hpost _ hmem)
  | flush _ ih => exact ih hes hpost

/-- `Truncate` leaves the bytes of the entries. They are read back, and what is written later
follows them. -/
def TruncatesTo (w : WalFile) (es : List WalEntry) : Prop :=
  ∃ w', w.truncate = some w' ∧ w'.file = entriesBytes es ∧
    ((∀ e ∈ es, e.data.length ≤ maxEntry) → readEntries w'.file = .ok es) ∧
    ∀ later, ((later.foldl append w').flush).file = entriesBytes (es ++ later)

/-- **Truncation keeps the tail** from the last marker on exactly when something is before it:
the position 0 of a marker is taken for none. -/
theorem truncatesTo_iff (h : Writes old w (pre ++ checkpointMarker :: post))
    (hpost : ∀ e ∈ post, e.type ≠ .checkpoint) (hbuf : w.writeBuffer = []) :
    w.TruncatesTo (checkpointMarker :: post) ↔ old ++ pre ≠ [] := by
  have hpos := h.checkpointPos_eq rfl hpost
  obtain ⟨hfile, hoffset, hsize⟩ := h.holds
  rw [hbuf, append_nil, ← append_assoc, entriesBytes, flatMap_append, ← entriesBytes,
    ← entriesBytes] at hfile
  constructor
  · rintro ⟨w', hw', hkept, -⟩ hnil
    rw [truncate, if_pos (by rw [hpos, hnil]; rfl)] at hw'
    cases hw'
    cases hkept
  · intro hne
    have hzero : w.checkpointPos ≠ 0 := by
      rw [hpos]
      obtain ⟨e, es, heq⟩ := exists_cons_of_ne_nil hne
      simp [heq, entriesBytes, length_entryBytes]
    refine ⟨{ file := entriesBytes (checkpointMarker :: post) }, ?_, rfl, fun hmax => ?_,
      fun later => ?_⟩
    · rw [truncate, if_neg hzero]
      simp [hfile, hpos, hsize, hbuf]
    · have hread := (readFrom_take_iff le_rfl).mpr
        ⟨hmax, le_rfl, show Stops _ ([] : List WalEntry) from trivial⟩
      rwa [append_nil, take_length] at hread
    · have hrest : ∀ {w es}, Holds w es → Holds (later.foldl append w) (es ++ later) := by
        induction later with
        | nil => simp
        | cons e later ih => intro w es hw; simpa using ih (hw.append e)
      have hbytes := (hrest (@Writes.opened (checkpointMarker :: post)).holds).flush.bytes
      rwa [append_nil, show (flush _).writeBuffer = [] from rfl, append_nil] at hbytes

theorem truncatesTo_second : ∃ w, Writes [] w [⟨.dropTable, [1]⟩, checkpointMarker, ⟨.delete, []⟩] ∧
    w.writeBuffer = [] ∧ w.TruncatesTo [checkpointMarker, ⟨.delete, []⟩] :=
  have h := (((@Writes.opened []).entry (by decide)).marker.entry (by decide)).flush
  ⟨_, h, rfl, (@truncatesTo_iff _ [] [⟨.dropTable, [1]⟩] _ h (by decide) rfl).mpr (by decide)⟩

/-- A marker at the start of the log is lost, with the entry behind it. -/
theorem truncate_loses_first_marker : ∃ w, Writes [] w [checkpointMarker, ⟨.delete, []⟩] ∧
    w.writeBuffer = [] ∧ w.truncate.map (·.file) = some [] :=
  ⟨_, (Writes.opened.marker.entry (by decide)).flush, rfl, rfl⟩

end WalFile

end CppColDB
