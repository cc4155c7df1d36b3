import CppColDB.Planner.Binder
import CppColDB.Storage.Column.Contents

/-!
# Alignment of the columns of a row group

A row of a table is spread over the columns of its row group, and its place in each of them
is the only thing that holds it together. The columns stay aligned exactly while every append
names each column once, throws only before it has copied a row, and is not reverted after some
of its rows were flushed.
-/

namespace CppColDB

/-! ## Numbers of rows -/

namespace DataVector

variable {type : TypeId} {target src v : DataVector} {idx srcIdx : ℕ}

theorem count_writeValue (h : target.writeValue type idx src srcIdx = some v) :
    v.count = target.count := by
  have hstore : ∀ {w : DataVector} {x : Datum}, w.store idx x = some v → v.count = w.count := by
    intro w x hs
    cases x <;> simp only [store] at hs <;> split at hs <;> cases hs <;> rfl
  rw [writeValue] at h
  split at h
  · cases h
  · split at h
    · cases h; rfl
    · split at h
      · cases h; rfl
      · obtain ⟨x, _, hs⟩ := Option.bind_eq_some_iff.mp h
        have hcount := hstore hs
        exact hcount

end DataVector

namespace ColumnChunk

variable {cc cc' : ColumnChunk} {vec src : DataVector} {count rowOffset srcIdx : ℕ}

theorem rowCount_flush (h : cc.flush = some cc') : cc'.rowCount = cc.rowCount := by
  rcases flush_inv h with ⟨_, rfl⟩ | ⟨_, _, _, _, _, rfl⟩
  · rfl
  · simp [rowCount, segmentRowCount]

theorem rowCount_flushIfFull (h : cc.flushIfFull = some cc') : cc'.rowCount = cc.rowCount := by
  rw [flushIfFull] at h
  split at h
  · exact rowCount_flush h
  · cases h; rfl

theorem rowCount_copy {s n : ℕ} {p : DataVector} (h : cc.pendingData.bulkCopyRows vec s n = some p) :
    { cc with pendingData := p }.rowCount = cc.rowCount + n := by
  obtain ⟨_, hcount, _, _⟩ := DataVector.bulkCopyRows_fields h
  simp only [rowCount, segmentRowCount, hcount, add_assoc]

theorem rowCount_appendFromVector (h : cc.appendFromVector vec count = some cc') :
    cc'.rowCount = cc.rowCount + count := by
  obtain ⟨c, hloop, h⟩ := Option.bind_eq_some_iff.mp h
  obtain ⟨stats, _, h⟩ := Option.bind_eq_some_iff.mp h
  cases h
  suffices hc : c.rowCount = cc.rowCount + count from hc
  rcases eq_zero_or_pos count with rfl | hpos
  · cases hloop
    rfl
  · obtain ⟨cc₁, p₁, hflush, hcopy, hend⟩ := appendLoop_inv hpos hloop
    have hfirst := rowCount_copy hcopy
    rw [rowCount_flushIfFull hflush] at hfirst
    rcases hend with ⟨hle, rfl⟩ | ⟨cc₂, p₂, hlt, hflush₂, hcopy₂, rfl⟩
    · rw [hfirst, min_eq_left hle]
    · rw [rowCount_copy hcopy₂, rowCount_flush hflush₂]
      omega

/-- Every round of the loop copies at least one row. -/
theorem rowCount_appendLoop {fuel srcPos : ℕ} (h : appendLoop vec count fuel srcPos cc = some cc') :
    cc.rowCount ≤ cc'.rowCount ∧ (0 < fuel → srcPos < count → cc.rowCount < cc'.rowCount) := by
  induction fuel generalizing srcPos cc with
  | zero =>
    cases h
    exact ⟨le_rfl, nofun⟩
  | succ fuel ih =>
    rcases le_or_gt count srcPos with hle | hlt
    · rw [appendLoop, if_pos hle] at h
      cases h
      exact ⟨le_rfl, fun _ hlt => absurd hlt (not_lt.mpr hle)⟩
    · obtain ⟨cc₁, p₁, hflush, hcopy, h⟩ := appendLoop_round hlt h
      have hcopied := rowCount_copy hcopy
      rw [rowCount_flushIfFull hflush] at hcopied
      have hrest := (ih h).1
      have hroom := cc.room_pos
      exact ⟨by omega, fun _ _ => by omega⟩

theorem rowCount_rewriteSegment {seg seg' : ColumnSegment} {change : DataVector → Option DataVector}
    (h : cc.rewriteSegment seg change = some seg') : seg'.rowCount = seg.rowCount := by
  obtain ⟨w, _, h⟩ := Option.bind_eq_some_iff.mp h
  obtain ⟨v, _, h⟩ := Option.bind_eq_some_iff.mp h
  split at h
  all_goals
    obtain ⟨choice, _, h⟩ := Option.bind_eq_some_iff.mp h
    obtain ⟨_, _, h⟩ := Option.bind_eq_some_iff.mp h
    try obtain ⟨_, _, h⟩ := Option.bind_eq_some_iff.mp h
    cases h
    rfl

variable {res : Except Error Unit}

theorem rowCount_writeRow
    (h : writeRow rowOffset src srcIdx cc = some (res, cc')) : cc'.rowCount = cc.rowCount := by
  rcases writeRow_cases h with ⟨_, pre, seg, post, seg', _, _, hsegs, rfl, _, hre⟩ |
    ⟨_, ⟨_, rfl⟩ | ⟨_, p, hv, rfl⟩⟩
  · simp [rowCount, segmentRowCount, hsegs, rowCount_rewriteSegment hre]
  · rfl
  · simp only [rowCount, segmentRowCount, DataVector.count_writeValue hv]

theorem rowCount_snd {m : Imp Error ColumnChunk Unit}
    (hm : ∀ {cc cc' res}, m cc = some (res, cc') → cc'.rowCount = cc.rowCount)
    (h : (m cc).map Prod.snd = some cc') : cc'.rowCount = cc.rowCount := by
  obtain ⟨⟨res, c⟩, hrun, rfl⟩ := Option.map_eq_some_iff.mp h
  exact hm hrun

theorem rowCount_writePending {cur : ℕ} {w : ℕ × ℕ}
    (h : writePending cur src w cc = some (res, cc')) : cc'.rowCount = cc.rowCount := by
  rcases writePending_cases h with rfl | ⟨_, _, p, hv, rfl⟩
  · rfl
  · simp only [rowCount, segmentRowCount, DataVector.count_writeValue hv]

theorem segmentRowCount_writeRowsIn {segs segs' : List ColumnSegment} {cur last : ℕ}
    {writes rest : List (ℕ × ℕ)} (h : cc.writeRowsIn src segs cur writes = some (segs', last, rest)) :
    segs'.map ColumnSegment.rowCount = segs.map ColumnSegment.rowCount := by
  have hcounts : List.Forall₂ (fun seg seg' : ColumnSegment => seg'.rowCount = seg.rowCount)
      segs segs' := by
    refine (writeRowsIn_inv h).1.imp fun seg seg' hseg => ?_
    rcases hseg with rfl | ⟨_, _, _, _, hre⟩
    · rfl
    · exact rowCount_rewriteSegment hre
  clear h
  induction hcounts with
  | nil => rfl
  | cons hcount _ ih => simp [ih, hcount]

theorem rowCount_writeRows {rowOffsets : List ℕ}
    (h : writeRows rowOffsets src cc = some (res, cc')) : cc'.rowCount = cc.rowCount := by
  rcases writeRows_cases h with rfl | ⟨-, segments, cur, rest, hin, hrest⟩
  · rfl
  · have hkeep : Imp.Keeps (fun c : ColumnChunk => c.rowCount = cc.rowCount)
        (Imp.forEach rest (writePending cur src)) :=
      Imp.Keeps.forEach fun w _ =>
        Imp.Keeps.of_run fun hc hrun => (rowCount_writePending hrun).trans hc
    refine hkeep.run ?_ hrest
    simp only [rowCount, segmentRowCount, segmentRowCount_writeRowsIn hin]

end ColumnChunk

/-! ## Logical rows -/

/-- A row as it was given to `Append`: the number of the call, and its place in the chunk. -/
structure RowTag where
  call : ℕ
  row : ℕ
  deriving DecidableEq, Repr

/-- The calls on a row group. -/
inductive GroupOp where
  | append (chunk : DataChunk) (colIds : List ℕ) (txId : TransactionId)
  | appendThrows (chunk : DataChunk) (colIds : List ℕ) (txId : TransactionId) (ci rounds : ℕ)
  | revertAppend
  | commitAppend (commitTime : Timestamp)
  | flush
  | flushThrows (n : ℕ)
  | writeRow (column rowOffset : ℕ) (src : DataVector) (srcIdx : ℕ)
  | writeRows (column : ℕ) (rowOffsets : List ℕ) (src : DataVector)

namespace RowGroup

/-- The row group after a call. A write that throws leaves what it has written; where a block
cannot be read or allocated, this is what a write of the rows in front leaves. -/
def run (rg : RowGroup) : GroupOp → Option RowGroup
  | .append chunk colIds txId => rg.append chunk colIds txId
  | .appendThrows chunk colIds txId ci rounds => rg.appendThrows chunk colIds txId ci rounds
  | .revertAppend => some rg.revertAppend
  | .commitAppend commitTime => some (rg.commitAppend commitTime)
  | .flush => rg.flush
  | .flushThrows n => rg.flushThrows n
  | .writeRow column rowOffset src srcIdx =>
    rg.modifyColumn column fun cc => (ColumnChunk.writeRow rowOffset src srcIdx cc).map Prod.snd
  | .writeRows column rowOffsets src =>
    rg.modifyColumn column fun cc => (ColumnChunk.writeRows rowOffsets src cc).map Prod.snd

end RowGroup

/-- A row group together with the rows it has at its positions, and the row each position of
each column was stored for. -/
structure TaggedGroup where
  group : RowGroup
  calls : ℕ := 0
  rows : List RowTag := []
  tags : List (List RowTag)

namespace TaggedGroup

/-- A row group without rows. -/
def create (rowGroupId : ℕ) (colTypes : List TypeId) (blockSize : ℕ) : TaggedGroup :=
  { group := RowGroup.create rowGroupId colTypes blockSize
    tags := colTypes.map fun _ => [] }

/-- The rows of a chunk. -/
def chunkRows (s : TaggedGroup) (chunk : DataChunk) : List RowTag :=
  (List.range chunk.count).map fun row => { call := s.calls, row }

/-- A call on the row group, and where it leaves the rows: an append stores its rows at the
end of the columns it names, also one that throws, as far as it comes; a revert cuts the columns
off, and the other calls leave every row in its place. -/
def step (s : TaggedGroup) (op : GroupOp) : Option TaggedGroup := do
  let group ← s.group.run op
  match op with
  | .append chunk colIds _ =>
    pure { group
           calls := s.calls + 1
           rows := s.rows ++ s.chunkRows chunk
           tags := colIds.foldl (fun tags c => tags.modify c (· ++ s.chunkRows chunk)) s.tags }
  | .appendThrows chunk colIds _ ci _ =>
    pure { s with
      group
      calls := s.calls + 1
      tags := List.zipWith List.take (group.columnChunks.map ColumnChunk.rowCount)
        ((colIds.take (ci + 1)).foldl (fun tags c => tags.modify c (· ++ s.chunkRows chunk)) s.tags) }
  | .revertAppend =>
    pure { s with
      group
      rows := s.rows.take group.rowCount
      tags := List.zipWith List.take (group.columnChunks.map ColumnChunk.rowCount) s.tags }
  | .commitAppend _ | .flush | .flushThrows _ | .writeRow _ _ _ _ | .writeRows _ _ _ =>
    pure { s with group }

/-- Every column has as many rows as the row group, and position `i` of each of them belongs
to row `i`. -/
def Aligned (s : TaggedGroup) : Prop :=
  s.rows.length = s.group.rowCount ∧
    ∀ (c : ℕ) (cc : ColumnChunk), s.group.columnChunks[c]? = some cc →
      cc.rowCount = s.group.rowCount ∧ s.tags[c]? = some s.rows

end TaggedGroup

/-! ## Appends -/

namespace RowGroup

open ColumnChunk List Option

/-- A column grows by the rows of the chunk each time the append names it. -/
theorem rowCount_appendColumns {chunk : DataChunk} {colIds : List ℕ}
    {chunks chunks' : List ColumnChunk} (h : appendColumns chunk colIds chunks = some chunks') :
    chunks'.length = chunks.length ∧ (∀ c ∈ colIds, c < chunks.length) ∧
      ∀ {c cc'}, chunks'[c]? = some cc' → ∃ cc, chunks[c]? = some cc ∧
        cc'.rowCount = cc.rowCount + colIds.count c * chunk.count := by
  rw [appendColumns] at h
  generalize 0 = k at h
  induction colIds generalizing chunks k with
  | nil =>
    cases h
    exact ⟨rfl, by simp, fun {_ cc'} hcc => ⟨cc', hcc, by simp⟩⟩
  | cons colId colIds ih =>
    obtain ⟨chunks₁, hfirst, hrest⟩ := bind_eq_some_iff.mp h
    obtain ⟨vec, _, hfirst⟩ := bind_eq_some_iff.mp hfirst
    obtain ⟨cc₀, hcc₀, hfirst⟩ := bind_eq_some_iff.mp hfirst
    obtain ⟨cc₁, happend, hfirst⟩ := bind_eq_some_iff.mp hfirst
    cases hfirst
    obtain ⟨hlength, hmem, hcounts⟩ := ih _ hrest
    rw [length_set] at hlength hmem
    refine ⟨hlength, fun c hc => ?_, fun {c cc'} hcc' => ?_⟩
    · rcases mem_cons.mp hc with rfl | hc
      · exact (List.getElem?_eq_some_iff.mp hcc₀).1
      · exact hmem c hc
    · obtain ⟨cc, hcc, hcount⟩ := hcounts hcc'
      rw [getElem?_set] at hcc
      split at hcc
      next heq =>
        subst heq
        split at hcc
        · cases hcc
          refine ⟨cc₀, hcc₀, ?_⟩
          rw [hcount, rowCount_appendFromVector happend, count_cons_self]
          ring
        · cases hcc
      next hne =>
        refine ⟨cc, hcc, ?_⟩
        rw [hcount, count_cons_of_ne hne]

end RowGroup

namespace RowGroup

theorem appendThrows_inv {rg rg' : RowGroup} {chunk : DataChunk} {colIds : List ℕ}
    {txId : TransactionId} {ci rounds : ℕ}
    (h : rg.appendThrows chunk colIds txId ci rounds = some rg') :
    ∃ columns c vec cc cc', appendColumns chunk (colIds.take ci) rg.columnChunks = some columns ∧
      colIds[ci]? = some c ∧ columns[c]? = some cc ∧
      ColumnChunk.appendLoop vec chunk.count rounds 0 cc = some cc' ∧
      cc'.rowCount < cc.rowCount + chunk.count ∧
      rg' = { rg with
        pendingAppendStart := rg.rowCount, pendingAppendTxId := txId
        columnChunks := columns.set c cc' } := by
  obtain ⟨columns, hcolumns, h⟩ := Option.bind_eq_some_iff.mp h
  obtain ⟨c, hc, h⟩ := Option.bind_eq_some_iff.mp h
  obtain ⟨vec, -, h⟩ := Option.bind_eq_some_iff.mp h
  obtain ⟨cc, hcc, h⟩ := Option.bind_eq_some_iff.mp h
  obtain ⟨cc', hloop, h⟩ := Option.bind_eq_some_iff.mp h
  obtain ⟨⟨hleft, -⟩, hgroup⟩ := Option.ite_none_right_eq_some.mp h
  exact ⟨columns, c, vec, cc, cc', hcolumns, hc, hcc, hloop, hleft, (Option.some.inj hgroup).symm⟩

end RowGroup

/-- The calls that keep the columns aligned: appends that name every column once or throw before
any row is copied, and reverts of appends of which no row was flushed. -/
def GroupOp.KeepsAlignment (rg : RowGroup) : GroupOp → Prop
  | .append chunk colIds _ =>
    chunk.count = 0 ∨ colIds.Perm (List.range rg.columnChunks.length)
  | .appendThrows _ _ _ ci rounds => ci = 0 ∧ rounds = 0
  | .revertAppend => ∀ cc ∈ rg.columnChunks, cc.segmentRowCount ≤ rg.pendingAppendStart
  | .commitAppend _ | .flush | .flushThrows _ | .writeRow _ _ _ _ | .writeRows _ _ _ => True

namespace TaggedGroup

open ColumnChunk RowGroup

variable {s s' : TaggedGroup} {chunk : DataChunk} {colIds : List ℕ} {rg rg' : RowGroup}

theorem length_chunkRows : (s.chunkRows chunk).length = chunk.count := by
  simp [chunkRows]

/-- Each time an append names a column, its rows are stored there. -/
theorem getElem?_foldl_modify {α : Type} {tags : List (List α)} {new : List α}
    {c : ℕ} : (colIds.foldl (fun tags c => tags.modify c (· ++ new)) tags)[c]? =
      tags[c]?.map (· ++ (List.replicate (colIds.count c) new).flatten) := by
  induction colIds generalizing tags with
  | nil => simp
  | cons d colIds ih =>
    rw [List.foldl_cons, ih]
    by_cases hd : d = c
    · subst hd
      simp [List.replicate_succ, Function.comp_def]
    · simp [hd]

theorem perm_range_iff {l : List ℕ} {n : ℕ} (h : ∀ c ∈ l, c < n) :
    l.Perm (List.range n) ↔ ∀ c < n, l.count c = 1 := by
  constructor
  · intro hperm c hc
    rw [hperm.count_eq]
    exact List.count_eq_one_of_mem List.nodup_range (List.mem_range.mpr hc)
  · intro hcount
    rw [List.perm_iff_count]
    intro c
    rcases lt_or_ge c n with hc | hc
    · rw [hcount c hc]
      exact (List.count_eq_one_of_mem List.nodup_range (List.mem_range.mpr hc)).symm
    · rw [List.count_eq_zero_of_not_mem fun hmem => absurd (h c hmem) (not_lt.mpr hc),
        List.count_eq_zero_of_not_mem fun hmem => absurd (List.mem_range.mp hmem)
          (not_lt.mpr hc)]

theorem aligned_append_iff (h : s.Aligned) {txId : TransactionId}
    (hs : s.step (.append chunk colIds txId) = some s') :
    s'.Aligned ↔ GroupOp.KeepsAlignment s.group (.append chunk colIds txId) := by
  obtain ⟨group, hrun, hs⟩ := Option.bind_eq_some_iff.mp hs
  cases hs
  obtain ⟨chunks, hchunks, hrun⟩ := Option.bind_eq_some_iff.mp hrun
  cases hrun
  obtain ⟨hlength, hmem, hcounts⟩ := rowCount_appendColumns hchunks
  rw [GroupOp.KeepsAlignment, perm_range_iff hmem]
  constructor
  · rintro ⟨_, halign⟩
    refine or_iff_not_imp_left.mpr fun hne c hc => ?_
    obtain ⟨cc', hcc'⟩ : ∃ cc', chunks[c]? = some cc' := by
      rw [← hlength] at hc
      exact ⟨_, List.getElem?_eq_getElem hc⟩
    obtain ⟨cc, hcc, hcount⟩ := hcounts hcc'
    have hold := (h.2 c cc hcc).1
    have hnew := (halign c cc' hcc').1
    have hmul : colIds.count c * chunk.count = 1 * chunk.count := by
      dsimp only at hnew
      omega
    exact Nat.eq_of_mul_eq_mul_right (Nat.pos_of_ne_zero hne) hmul
  · intro hcond
    refine ⟨by simp [h.1, length_chunkRows], fun c cc' hcc' => ?_⟩
    obtain ⟨cc, hcc, hcount⟩ := hcounts hcc'
    obtain ⟨hold, htags⟩ := h.2 c cc hcc
    have hc : c < s.group.columnChunks.length := (getElem?_eq_some_iff.mp hcc).1
    rw [getElem?_foldl_modify, htags, hcount, hold]
    rcases hcond with hzero | hone
    · simp [hzero, List.length_eq_zero_iff.mp (length_chunkRows.trans hzero)]
    · simp [hone c hc]

theorem aligned_appendThrows_iff (h : s.Aligned) {txId : TransactionId} {ci rounds : ℕ}
    (hs : s.step (.appendThrows chunk colIds txId ci rounds) = some s') :
    s'.Aligned ↔ ci = 0 ∧ rounds = 0 := by
  obtain ⟨group, hrun, hs⟩ := Option.bind_eq_some_iff.mp hs
  cases hs
  obtain ⟨columns, c, vec, cc, cc', hcolumns, hc, hcc, hloop, hleft, rfl⟩ := appendThrows_inv hrun
  obtain ⟨hlength, hmem, hcounts⟩ := rowCount_appendColumns hcolumns
  obtain ⟨hle, hlt⟩ := rowCount_appendLoop hloop
  have hclt : c < columns.length := (List.getElem?_eq_some_iff.mp hcc).1
  constructor
  · rintro ⟨-, halign⟩
    obtain ⟨cc₀, hcc₀, hcount⟩ := hcounts hcc
    have hold := (h.2 c cc₀ hcc₀).1
    have hnew : cc'.rowCount = s.group.rowCount :=
      (halign c cc' (by simp [hclt])).1
    have hpos : 0 < chunk.count := by omega
    have hround : rounds = 0 := by
      by_contra hne
      have := hlt (Nat.pos_of_ne_zero hne) hpos
      omega
    -- a column in front would have all rows of the chunk
    have hnone : ∀ d, (colIds.take ci).count d = 0 := by
      intro d
      by_contra hne
      have hd : d < columns.length :=
        hlength ▸ hmem d (List.count_pos_iff.mp (Nat.pos_of_ne_zero hne))
      obtain ⟨dd, hdd, hmore⟩ := hcounts (List.getElem?_eq_getElem hd)
      have hextra : chunk.count ≤ (colIds.take ci).count d * chunk.count :=
        Nat.le_mul_of_pos_left _ (Nat.pos_of_ne_zero hne)
      have hlong := (h.2 d dd hdd).1
      by_cases hdc : c = d
      · subst hdc
        rw [List.getElem?_eq_getElem hd] at hcc
        cases hcc
        omega
      · have hsame := (halign d _ (by rw [List.getElem?_set_ne hdc, List.getElem?_eq_getElem hd])).1
        dsimp only at hsame
        omega
    have hci : ci < colIds.length := (List.getElem?_eq_some_iff.mp hc).1
    have htake : colIds.take ci = [] :=
      List.eq_nil_iff_forall_not_mem.mpr fun d => List.count_eq_zero.mp (hnone d)
    refine ⟨?_, hround⟩
    rcases List.take_eq_nil_iff.mp htake with hzero | hnil
    · exact hzero
    · rw [hnil] at hci
      exact absurd hci (Nat.not_lt_zero _)
  · rintro ⟨rfl, rfl⟩
    cases hcolumns
    cases hloop
    have hsame : s.group.columnChunks.set c cc = s.group.columnChunks := by
      obtain ⟨hc', rfl⟩ := List.getElem?_eq_some_iff.mp hcc
      exact List.set_getElem_self hc'
    refine ⟨h.1, fun d dd hdd => ?_⟩
    rw [hsame] at hdd ⊢
    obtain ⟨hcount, htags⟩ := h.2 d dd hdd
    refine ⟨hcount, ?_⟩
    simp [List.getElem?_zipWith, hdd, getElem?_foldl_modify, htags, hcount, ← h.1]

/-- A reverted column ends where the append began, unless rows past that were flushed. -/
theorem rowCount_revertColumn {start : ℕ} {cc : ColumnChunk} (hstart : start ≤ cc.rowCount) :
    (revertColumn start cc).rowCount = start ↔ cc.segmentRowCount ≤ start := by
  constructor
  · intro heq
    exact (rowCount_revertColumn_le le_rfl).mp heq.le
  · intro hle
    rw [ColumnChunk.rowCount] at hstart
    rw [ColumnChunk.rowCount, segmentRowCount_revertColumn, revertColumn, if_pos hle,
      pendingCount_truncatePending]
    omega

theorem aligned_revertAppend_iff (h : s.Aligned)
    (hstart : s.group.pendingAppendStart ≤ s.group.rowCount) (hs : s.step .revertAppend = some s') :
    s'.Aligned ↔ GroupOp.KeepsAlignment s.group .revertAppend := by
  cases hs
  have hcols : ∀ {c cc}, s.group.columnChunks[c]? = some cc →
      ((revertColumn s.group.pendingAppendStart cc).rowCount = s.group.pendingAppendStart ↔
        cc.segmentRowCount ≤ s.group.pendingAppendStart) := fun {c cc} hcc =>
    rowCount_revertColumn (by rw [(h.2 c cc hcc).1]; exact hstart)
  constructor
  · rintro ⟨_, halign⟩ cc hmem
    obtain ⟨c, hcc⟩ := List.mem_iff_getElem?.mp hmem
    refine (hcols hcc).mp (halign c _ ?_).1
    simp [revertAppend, hcc]
  · intro hcond
    refine ⟨by simp [revertAppend, h.1, hstart], fun c cc' hcc' => ?_⟩
    simp only [revertAppend, List.getElem?_map, Option.map_eq_some_iff] at hcc'
    obtain ⟨cc, hcc, rfl⟩ := hcc'
    have hcount := (hcols hcc).mpr (hcond cc (List.mem_of_getElem? hcc))
    simp [revertAppend, List.getElem?_zipWith, hcc, (h.2 c cc hcc).2, hcount]

/-- A call that leaves every column as long as it was. -/
structure SameLength (rg rg' : RowGroup) : Prop where
  rowCount : rg'.rowCount = rg.rowCount
  start : rg'.pendingAppendStart = rg.pendingAppendStart
  columns : ∀ {c : ℕ} {cc' : ColumnChunk}, rg'.columnChunks[c]? = some cc' →
    ∃ cc : ColumnChunk, rg.columnChunks[c]? = some cc ∧ cc'.rowCount = cc.rowCount

theorem Aligned.sameLength (h : s.Aligned) {group : RowGroup} (hsame : SameLength s.group group) :
    Aligned { s with group } := by
  refine ⟨h.1.trans hsame.rowCount.symm, fun c cc' hcc' => ?_⟩
  obtain ⟨cc, hcc, heq⟩ := hsame.columns hcc'
  obtain ⟨hold, htags⟩ := h.2 c cc hcc
  exact ⟨by rw [heq, hold, hsame.rowCount], htags⟩

theorem sameLength_modifyColumn {column : ℕ} {f : ColumnChunk → Option ColumnChunk}
    (hf : ∀ {cc cc' : ColumnChunk}, f cc = some cc' → cc'.rowCount = cc.rowCount)
    (h : rg.modifyColumn column f = some rg') : SameLength rg rg' := by
  obtain ⟨cc₀, hcc₀, h⟩ := Option.bind_eq_some_iff.mp h
  obtain ⟨cc₁, hcc₁, h⟩ := Option.bind_eq_some_iff.mp h
  cases h
  refine ⟨rfl, rfl, fun {c cc'} hcc' => ?_⟩
  rw [List.getElem?_set] at hcc'
  split at hcc'
  next heq =>
    subst heq
    split at hcc'
    · cases hcc'
      exact ⟨cc₀, hcc₀, hf hcc₁⟩
    · cases hcc'
  next => exact ⟨cc', hcc', rfl⟩

theorem sameLength_of_forall₂ {chunks : List ColumnChunk}
    (h : List.Forall₂ (fun cc cc' : ColumnChunk => cc'.rowCount = cc.rowCount) rg.columnChunks
      chunks) : SameLength rg { rg with columnChunks := chunks } := by
  refine ⟨rfl, rfl, fun {c cc'} hcc' => ?_⟩
  obtain ⟨hlength, hget⟩ := List.forall₂_iff_get.mp h
  obtain ⟨hc, rfl⟩ := getElem?_eq_some_iff.mp hcc'
  have hc₀ : c < rg.columnChunks.length := by rw [hlength]; exact hc
  exact ⟨_, List.getElem?_eq_getElem hc₀, hget c hc₀ hc⟩

theorem forall₂_mapM_flush {chunks chunks' : List ColumnChunk}
    (h : chunks.mapM ColumnChunk.flush = some chunks') :
    List.Forall₂ (fun cc cc' : ColumnChunk => cc'.rowCount = cc.rowCount) chunks chunks' :=
  (ByteCodec.mapM_eq_some_iff.mp h).imp fun _ _ => rowCount_flush

theorem sameLength_flush (h : rg.flush = some rg') : SameLength rg rg' := by
  obtain ⟨chunks, hchunks, h⟩ := Option.bind_eq_some_iff.mp h
  cases h
  exact sameLength_of_forall₂ (forall₂_mapM_flush hchunks)

theorem sameLength_flushThrows {n : ℕ} (h : rg.flushThrows n = some rg') : SameLength rg rg' := by
  obtain ⟨chunks, hchunks, h⟩ := Option.bind_eq_some_iff.mp h
  cases h
  refine sameLength_of_forall₂ ?_
  have hrest := List.rel_append (forall₂_mapM_flush hchunks)
    (List.forall₂_same.mpr fun (cc : ColumnChunk) (_ : cc ∈ rg.columnChunks.drop n) => rfl)
  dsimp only at hrest
  rwa [List.take_append_drop] at hrest

variable {op : GroupOp}

/-- Appends and reverts apart, no call changes the length of a column or moves a row. -/
theorem step_cases (hs : s.step op = some s') :
    (∃ chunk colIds txId, op = .append chunk colIds txId) ∨
      (∃ chunk colIds txId ci rounds, op = .appendThrows chunk colIds txId ci rounds) ∨
      op = .revertAppend ∨
      op.KeepsAlignment s.group ∧ ∃ group, SameLength s.group group ∧ s' = { s with group } := by
  obtain ⟨group, hrun, hs⟩ := Option.bind_eq_some_iff.mp hs
  cases op with
  | append chunk colIds txId => exact .inl ⟨_, _, _, rfl⟩
  | appendThrows chunk colIds txId ci rounds => exact .inr (.inl ⟨_, _, _, _, _, rfl⟩)
  | revertAppend => exact .inr (.inr (.inl rfl))
  | commitAppend commitTime =>
    cases hrun
    cases hs
    exact .inr (.inr (.inr ⟨trivial, s.group.commitAppend commitTime,
      ⟨rfl, rfl, fun {_ cc'} hcc' => ⟨cc', hcc', rfl⟩⟩, rfl⟩))
  | flush =>
    cases hs
    exact .inr (.inr (.inr ⟨trivial, group, sameLength_flush hrun, rfl⟩))
  | flushThrows n =>
    cases hs
    exact .inr (.inr (.inr ⟨trivial, group, sameLength_flushThrows hrun, rfl⟩))
  | writeRow column rowOffset src srcIdx =>
    cases hs
    have hsame := sameLength_modifyColumn (rowCount_snd rowCount_writeRow) hrun
    exact .inr (.inr (.inr ⟨trivial, group, hsame, rfl⟩))
  | writeRows column rowOffsets src =>
    cases hs
    have hsame := sameLength_modifyColumn (rowCount_snd rowCount_writeRows) hrun
    exact .inr (.inr (.inr ⟨trivial, group, hsame, rfl⟩))

/-- The latest append starts within the row group. -/
theorem pendingAppendStart_step (h : s.group.pendingAppendStart ≤ s.group.rowCount)
    (hs : s.step op = some s') :
    s'.group.pendingAppendStart ≤ s'.group.rowCount := by
  rcases step_cases hs with ⟨chunk, colIds, txId, rfl⟩ | ⟨chunk, colIds, txId, ci, rounds, rfl⟩ |
    rfl | ⟨_, group, hsame, rfl⟩
  · obtain ⟨group, hrun, hs⟩ := Option.bind_eq_some_iff.mp hs
    obtain ⟨chunks, _, hrun⟩ := Option.bind_eq_some_iff.mp hrun
    cases hrun
    cases hs
    exact Nat.le_add_right _ _
  · obtain ⟨group, hrun, hs⟩ := Option.bind_eq_some_iff.mp hs
    cases hs
    obtain ⟨columns, c, vec, cc, cc', -, -, -, -, -, rfl⟩ := appendThrows_inv hrun
    exact le_rfl
  · cases hs
    exact le_rfl
  · rwa [hsame.rowCount, hsame.start]

/-- **One call keeps aligned columns aligned exactly when it meets the condition.** -/
theorem aligned_step_iff (h : s.Aligned) (hstart : s.group.pendingAppendStart ≤ s.group.rowCount)
    (hs : s.step op = some s') :
    s'.Aligned ↔ op.KeepsAlignment s.group := by
  rcases step_cases hs with ⟨chunk, colIds, txId, rfl⟩ | ⟨chunk, colIds, txId, ci, rounds, rfl⟩ |
    rfl | ⟨hkeeps, group, hsame, rfl⟩
  · exact aligned_append_iff h hs
  · exact aligned_appendThrows_iff h hs
  · exact aligned_revertAppend_iff h hstart hs
  · exact iff_of_true (h.sameLength hsame) hkeeps

/-! ## Runs -/

/-- The row group after some calls, each meeting the condition where it is made. -/
inductive Reached (C : RowGroup → GroupOp → Prop) (rowGroupId : ℕ) (colTypes : List TypeId)
    (blockSize : ℕ) : TaggedGroup → Prop
  | create : Reached C rowGroupId colTypes blockSize (create rowGroupId colTypes blockSize)
  | call {s s' : TaggedGroup} {op : GroupOp} (h : Reached C rowGroupId colTypes blockSize s)
      (hcond : C s.group op) (hstep : s.step op = some s') :
      Reached C rowGroupId colTypes blockSize s'

variable {rowGroupId blockSize : ℕ} {colTypes : List TypeId}

theorem aligned_create : (create rowGroupId colTypes blockSize).Aligned := by
  refine ⟨rfl, fun c cc hcc => ?_⟩
  simp only [create, RowGroup.create, List.getElem?_map, Option.map_eq_some_iff] at hcc ⊢
  obtain ⟨type, htype, rfl⟩ := hcc
  exact ⟨by simp [ColumnChunk.rowCount, segmentRowCount], ⟨type, htype, trivial⟩⟩

/-- **Alignment of row groups.** Every column has the rows of its row group in their places
as long as the appends name each column once and no append is reverted of which rows were
flushed; the first call that breaks this condition breaks the alignment. -/
theorem aligned_iff_keepsAlignment
    (h : Reached (fun rg op => op.KeepsAlignment rg) rowGroupId colTypes blockSize s) :
    s.Aligned ∧ ∀ op s', s.step op = some s' → (s'.Aligned ↔ op.KeepsAlignment s.group) := by
  have hinv : s.Aligned ∧ s.group.pendingAppendStart ≤ s.group.rowCount := by
    induction h with
    | create => exact ⟨aligned_create, le_rfl⟩
    | call _ hcond hstep ih =>
      exact ⟨(aligned_step_iff ih.1 ih.2 hstep).mpr hcond, pendingAppendStart_step ih.2 hstep⟩
  exact ⟨hinv.1, fun op s' hstep => aligned_step_iff hinv.1 hinv.2 hstep⟩

/-- A chunk of one row of integers. -/
def intRow (xs : List Int64) : DataChunk :=
  { columns := xs.map fun x => { type := .int64, count := 1, intData := [x], validity := 1 }
    count := 1 }

/-- A table of two integer columns. -/
def columnsAB : List ColumnDefinition :=
  [{ name := text "a", type := .int64 }, { name := text "b", type := .int64 }]

/-- A row in both columns, in either order, is aligned. -/
theorem aligned_swapped_columns :
    ∃ s, (create 0 [.int64, .int64] 64).step (.append (intRow [1, 2]) [1, 0] 1) = some s ∧
      s.Aligned := by
  obtain ⟨s, hs⟩ : ∃ s, (create 0 [.int64, .int64] 64).step (.append (intRow [1, 2]) [1, 0] 1) =
      some s := Option.isSome_iff_exists.mp (by decide +kernel)
  exact ⟨s, hs, ((aligned_iff_keepsAlignment .create).2 _ s hs).mpr (.inr (by decide +kernel))⟩

/-- `INSERT INTO t (a) VALUES (1)` leaves the second column of `t` without a row. -/
theorem partial_insert_misaligned : Binder.insertColumnIds columnsAB [text "a"] = .ok [0] ∧
    ∃ s, Reached (fun _ _ => True) 0 [.int64, .int64] 64 s ∧ s.group.rowCount = 1 ∧
      s.group.columnChunks.map ColumnChunk.rowCount = [1, 0] ∧ ¬ s.Aligned := by
  refine ⟨by decide +kernel, ?_⟩
  obtain ⟨s, hs⟩ : ∃ s, (create 0 [.int64, .int64] 64).step (.append (intRow [1]) [0] 1) = some s :=
    Option.isSome_iff_exists.mp (by decide +kernel)
  have hcounts : ((create 0 [.int64, .int64] 64).step (.append (intRow [1]) [0] 1)).map (fun s =>
      (s.group.rowCount, s.group.columnChunks.map ColumnChunk.rowCount)) = some (1, [1, 0]) := by
    decide +kernel
  rw [hs, Option.map_some, Option.some.injEq, Prod.mk.injEq] at hcounts
  refine ⟨s, Reached.create.call trivial hs, hcounts.1, hcounts.2, fun haligned => ?_⟩
  rcases (aligned_step_iff aligned_create le_rfl hs).mp haligned with hzero | hperm
  · exact absurd hzero (by decide +kernel)
  · exact absurd hperm (by decide +kernel)

end TaggedGroup

end CppColDB
