import CppColDB.Storage.Column.Listing

/-!
# Batches of writes

`WriteRows` walks the segments and the offsets together and compresses each segment once; on
the list it does its writes one after the other, as `WriteRow` does. With that every operation
of a column is one on a list.
-/

namespace CppColDB

open Imp List

namespace Listing

variable {s : Listing} {pending cells : List Cell} {stats : SegmentStats}
  {l : List (List Cell × SegmentStats)} {g : ℕ → Cell} {base : ℕ} {writes : List (ℕ × ℕ)}

/-- Some writes in order, their offsets counted from `base` on. -/
def writeAll (g : ℕ → Cell) (base : ℕ) (writes : List (ℕ × ℕ)) (s : Listing) : Listing :=
  writes.foldl (fun s w => s.write (w.1 - base) (g w.2)) s

/-- Some writes over a list. -/
def setAll (g : ℕ → Cell) (base : ℕ) (writes : List (ℕ × ℕ)) (cells : List Cell) : List Cell :=
  writes.foldl (fun cells w => cells.set (w.1 - base) (g w.2)) cells

theorem length_setAll : (setAll g base writes cells).length = cells.length := by
  rw [setAll]
  induction writes generalizing cells with
  | nil => rfl
  | cons w writes ih => rw [foldl_cons, ih, length_set]

theorem writeAll_nil :
    writeAll g base writes { pending } = { pending := setAll g base writes pending } := by
  rw [writeAll]
  induction writes generalizing pending with
  | nil => rfl
  | cons w writes ih =>
    exact ih

/-- Writes to the first segment. -/
theorem writeAll_head (hw : ∀ w ∈ writes, w.1 - base < cells.length) (hne : writes ≠ []) :
    writeAll g base writes { segments := (cells, stats) :: l, pending } =
      { segments := (setAll g base writes cells, .ofCells (setAll g base writes cells)) :: l
        pending } := by
  rw [writeAll]
  induction writes generalizing cells stats with
  | nil => exact absurd rfl hne
  | cons w writes ih =>
    obtain ⟨hhead, hrest⟩ := forall_mem_cons.mp hw
    rw [foldl_cons, write, writeIn, if_pos hhead]
    cases writes with
    | nil => rfl
    | cons w' writes => exact ih (by simpa using hrest) (cons_ne_nil _ _)

/-- Writes past the first segment. -/
theorem writeAll_tail (hw : ∀ w ∈ writes, base + cells.length ≤ w.1) :
    writeAll g base writes { s with segments := (cells, stats) :: s.segments } =
      { writeAll g (base + cells.length) writes s with
        segments := (cells, stats) :: (writeAll g (base + cells.length) writes s).segments } := by
  rw [writeAll, writeAll]
  induction writes generalizing s with
  | nil => rfl
  | cons w writes ih =>
    obtain ⟨hhead, hrest⟩ := forall_mem_cons.mp hw
    rw [foldl_cons, foldl_cons, ← ih hrest]
    rw [write, writeIn, if_neg (by omega), write, Nat.sub_sub]

end Listing

namespace ColumnChunk

open Listing (writeAll setAll length_setAll writeAll_nil writeAll_head writeAll_tail)

variable {cc : ColumnChunk} {s : Listing} {src : DataVector} {g : ℕ → Cell} {writes : List (ℕ × ℕ)}

/-- Row `i` of the source stands for `g i`. -/
def Supplies (type : TypeId) (src : DataVector) (g : ℕ → Cell) (writes : List (ℕ × ℕ)) : Prop :=
  ∀ w ∈ writes, w.2 < standardVectorSize ∧ src.cellAs type.storageClass w.2 = some (g w.2)

theorem shows_writeValues {v : DataVector} {cells : List Cell} {base : ℕ}
    (hv : v.Shows cells) (hle : cells.length ≤ standardVectorSize)
    (hw : ∀ w ∈ writes, w.1 - base < cells.length) (hsrc : Supplies v.type src g writes) :
    ∃ v', writeValues v.type base src writes v = some v' ∧ v'.type = v.type ∧
      v'.Shows (setAll g base writes cells) := by
  rw [writeValues]
  generalize htype : v.type = type at hsrc ⊢
  induction writes generalizing v cells with
  | nil => exact ⟨v, rfl, htype, hv⟩
  | cons w writes ih =>
    obtain ⟨hhead, hrest⟩ := forall_mem_cons.mp hw
    obtain ⟨⟨hidx, hc⟩, hsrc⟩ := forall_mem_cons.mp hsrc
    rw [← htype] at hc
    obtain ⟨v₁, hrun, htype₁, hv₁⟩ := hv.write hhead hle hidx hc
    rw [foldlM_cons, ← htype, hrun, htype]
    exact ih hv₁ (by simpa using hle) (by simpa using hrest) (htype₁.trans htype) hsrc

/-- **The segment loop of `WriteRows`** does the writes of each segment, one after the other. -/
theorem exists_writeRowsIn {segs : List ColumnSegment} {l : List (List Cell × SegmentStats)}
    (h : SegmentsList cc.type segs l)
    {cur : ℕ} (hsorted : writes.Pairwise fun a b => a.1 ≤ b.1)
    (hcur : ∀ w ∈ writes, cur ≤ w.1) (hsrc : Supplies cc.type src g writes)
    (hkept : ∀ v ∈ cc.writeRowsCompresses src segs cur writes, Kept cc.blockSize v) :
    ∃ segs' l' last rest, cc.writeRowsIn src segs cur writes = some (segs', last, rest) ∧
      SegmentsList cc.type segs' l' ∧
      (∀ w ∈ rest, last ≤ w.1) ∧ rest ⊆ writes ∧
      (rest ≠ [] → last = cur + (l.flatMap Prod.fst).length) ∧
      ∀ pending, writeAll g cur writes { segments := l, pending } =
        { segments := l', pending := setAll g last rest pending } := by
  induction h generalizing cur writes with
  | nil => exact ⟨[], [], cur, writes, rfl, .nil, hcur, fun _ h => h, by simp,
      fun _ => writeAll_nil⟩
  | @cons seg p segs l hseg hrest ih =>
    obtain ⟨cells, stats⟩ := p
    by_cases hempty : writes = []
    · subst hempty
      exact ⟨seg :: segs, (cells, stats) :: l, cur, [], rfl, .cons hseg hrest, nofun, nofun,
        fun h => absurd rfl h, fun _ => rfl⟩
    obtain ⟨hseg, hstats⟩ := hseg
    dsimp only at hseg
    have hempty : ¬ writes.isEmpty := by simpa using hempty
    have hsplit := takeWhile_append_dropWhile (p := fun w : ℕ × ℕ => w.1 < cur + seg.rowCount)
      (l := writes)
    rw [writeRowsCompresses, if_neg hempty] at hkept
    rw [writeRowsIn, if_neg hempty]
    dsimp only at hkept ⊢
    generalize hmine : writes.takeWhile (fun w => w.1 < cur + seg.rowCount) = mine at *
    generalize hleft : writes.dropWhile (fun w => w.1 < cur + seg.rowCount) = left at *
    have hsub : left ⊆ writes := hleft ▸ (dropWhile_sublist _).subset
    have hsub' : mine ⊆ writes := hmine ▸ (takeWhile_sublist _).subset
    have hlt : ∀ w ∈ mine, w.1 - cur < cells.length := by
      intro w hw
      have hcur := hcur w (hsub' hw)
      have hfin : w.1 < cur + seg.rowCount := by
        rw [← hmine] at hw
        simpa using mem_takeWhile_imp hw
      rw [hseg.rowCount] at hfin
      omega
    have hge : ∀ w ∈ left, cur + seg.rowCount ≤ w.1 := fun w hw =>
      le_of_mem_dropWhile hsorted (hleft ▸ hw)
    obtain ⟨hkept₁, hkept₂⟩ := forall_mem_append.mp hkept
    obtain ⟨segs', l', last, rest, hrun, h', hlast, hrest', htotal, hwrite⟩ :=
      ih (hsorted.sublist (hleft ▸ dropWhile_sublist _)) hge (fun w hw => hsrc w (hsub hw)) hkept₂
    have htotal' : rest ≠ [] →
        last = cur + (((cells, stats) :: l).flatMap Prod.fst).length := by
      intro hne
      rw [htotal hne, hseg.rowCount, flatMap_cons, length_append, Nat.add_assoc]
    have htail : ∀ cells' stats' pending, cells'.length = cells.length →
        writeAll g cur left { segments := (cells', stats') :: l, pending } =
          { segments := (cells', stats') :: l', pending := setAll g last rest pending } := by
      intro cells' stats' pending hlen
      rw [hseg.rowCount, ← hlen] at hge hwrite
      rw [writeAll_tail (s := { segments := l, pending }) hge, hwrite]
    rw [← hsplit]
    by_cases hnil : mine = []
    · subst hnil
      refine ⟨seg :: segs', (cells, stats) :: l', last, rest, by simp [hrun],
        .cons ⟨hseg, hstats⟩ h', hlast, hrest', htotal', fun pending => ?_⟩
      exact htail cells stats pending rfl
    · have hnil' : ¬ mine.isEmpty := by simpa using hnil
      rw [if_neg hnil'] at hkept₁
      obtain ⟨seg', hre, hseg', hstats'⟩ := hseg.rewrite (fun v htype hv => by
        have hmine' := fun w hw => hsrc w (hsub' hw)
        rw [← htype] at hmine' ⊢
        exact shows_writeValues hv hseg.small hlt hmine') length_setAll hkept₁
      refine ⟨seg' :: segs', (setAll g cur mine cells, _) :: l', last, rest, by simp [hnil', hre, hrun],
        .cons ⟨hseg', hstats'⟩ h', hlast, subset_append_of_subset_right _ hrest', htotal',
        fun pending => ?_⟩
      rw [writeAll, foldl_append, ← writeAll, ← writeAll, writeAll_head hlt hnil]
      exact htail _ _ pending length_setAll

theorem Lists.forEach_writePending (h : cc.Lists s) {last : ℕ} {rest : List (ℕ × ℕ)}
    (hrest : ∀ w ∈ rest, last ≤ w.1 ∧ w.1 - last < s.pending.length)
    (hsrc : Supplies cc.type src g rest) :
    ∃ cc', forEach rest (writePending last src) cc = some (.ok (), cc') ∧
      cc'.Lists { s with pending := setAll g last rest s.pending } := by
  induction rest generalizing cc s with
  | nil => exact ⟨cc, rfl, h⟩
  | cons w rest ih =>
    obtain ⟨⟨hle, hlt⟩, hrest⟩ := forall_mem_cons.mp hrest
    obtain ⟨⟨hidx, hc⟩, hsrc⟩ := forall_mem_cons.mp hsrc
    rw [← h.pending_type] at hc
    obtain ⟨p, hp, htype, hshows⟩ := h.pending.write hlt h.pending_le hidx hc
    rw [h.pending_type] at hp
    have hcount := h.pending.count
    have hstep : writePending last src w cc = some (.ok (), { cc with pendingData := p }) := by
      rw [writePending, bind_run_ok get_run, if_neg (by omega), hp]
      rfl
    have h' : Lists { cc with pendingData := p }
        { s with pending := s.pending.set (w.1 - last) (g w.2) } :=
      ⟨h.typed, h.segments, htype.trans h.pending_type, hshows, by simpa using h.pending_le⟩
    obtain ⟨cc', hrun, hcc'⟩ := ih h' (by simpa using hrest) hsrc
    exact ⟨cc', by rw [forEach_cons, bind_run_ok hstep, hrun], hcc'⟩

variable {cc' : ColumnChunk} {rowOffsets : List ℕ}

/-- What `WriteRows` is given: offsets in order and in range, and as many rows. -/
structure Batch (cc : ColumnChunk) (rowOffsets : List ℕ) (src : DataVector) : Prop where
  count : src.count = rowOffsets.length
  width : src.count ≤ standardVectorSize
  sorted : rowOffsets.IsChain (· ≤ ·)
  inRange : ∀ o ∈ rowOffsets, o < cc.rowCount
  readable : ∀ i < src.count, (src.cellAs cc.type.storageClass i).isSome

/-- Row `i` of a vector as the column reads it. -/
def read (cc : ColumnChunk) (src : DataVector) (i : ℕ) : Cell :=
  (src.cellAs cc.type.storageClass i).getD none

theorem cellAs_of_isSome {i : ℕ} (h : (src.cellAs cc.type.storageClass i).isSome) :
    src.cellAs cc.type.storageClass i = some (cc.read src i) := by
  obtain ⟨c, hc⟩ := Option.isSome_iff_exists.mp h
  rw [read, hc, Option.getD_some]

theorem mem_of_mem_zipIdx {w : ℕ × ℕ} (h : w ∈ rowOffsets.zipIdx) : w.1 ∈ rowOffsets :=
  (mem_zipIdx' h).2 ▸ getElem_mem _

theorem Batch.supplies (h : Batch cc rowOffsets src) :
    Supplies cc.type src (cc.read src) rowOffsets.zipIdx := by
  intro w hw
  have hlt : w.2 < src.count := h.count.symm ▸ (mem_zipIdx' hw).1
  exact ⟨hlt.trans_le h.width, cellAs_of_isSome (h.readable w.2 hlt)⟩

/-- **A batch of writes** does them one after the other. -/
theorem Lists.writeRows (h : cc.Lists s) (hb : Batch cc rowOffsets src)
    (hkept : ∀ v ∈ cc.writeRowsCompresses src cc.segments 0 rowOffsets.zipIdx,
      Kept cc.blockSize v) :
    ∃ cc', ColumnChunk.writeRows rowOffsets src cc = some (.ok (), cc') ∧
      cc'.Lists (writeAll (cc.read src) 0 rowOffsets.zipIdx s) := by
  have hpairs : rowOffsets.zipIdx.Pairwise fun a b => a.1 ≤ b.1 := by
    have hpairwise := isChain_iff_pairwise.mp hb.sorted
    rw [← zipIdx_map_fst 0 rowOffsets, pairwise_map] at hpairwise
    exact hpairwise
  by_cases hnil : rowOffsets = []
  · subst hnil
    exact ⟨cc, rfl, h⟩
  obtain ⟨segs', l', last, rest, hrun, h', hlast, hsub, htotal, hwrite⟩ :=
    exists_writeRowsIn h.segments hpairs (fun _ _ => Nat.zero_le _) hb.supplies hkept
  have h₁ : Lists { cc with segments := segs' } { s with segments := l' } :=
    ⟨h.typed, h', h.pending_type, h.pending, h.pending_le⟩
  have hrest : ∀ w ∈ rest, last ≤ w.1 ∧ w.1 - last < s.pending.length := by
    intro w hw
    have hlt := hb.inRange w.1 (mem_of_mem_zipIdx (hsub hw))
    have htotal := htotal (ne_nil_of_mem hw)
    have hle := hlast w hw
    rw [h.rowCount, Listing.rows, length_append] at hlt
    omega
  obtain ⟨cc', hpend, hcc'⟩ := h₁.forEach_writePending hrest fun w hw => hb.supplies w (hsub hw)
  refine ⟨cc', ?_, by rw [hwrite s.pending]; exact hcc'⟩
  rw [ColumnChunk.writeRows, if_neg (by simpa using hnil), if_neg (not_not_intro hb.count),
    if_neg (not_not_intro hb.sorted), bind_run_ok get_run, hrun, bind_run_ok (ofOption_run _)]
  dsimp only
  rw [bind_run_ok (set_run _), hpend]

/-- The codec keeps what single writes compress, one after the other. -/
def KeptEach (src : DataVector) : List (ℕ × ℕ) → ColumnChunk → Prop
  | [], _ => True
  | w :: writes, cc =>
    (∀ v ∈ cc.writeRowCompresses src w.2 cc.segments w.1, Kept cc.blockSize v) ∧
      ∀ cc', writeRow w.1 src w.2 cc = some (.ok (), cc') → KeptEach src writes cc'

theorem Lists.forEach_writeRow (h : cc.Lists s)
    (hrange : ∀ w ∈ writes, w.1 < cc.rowCount) (hsrc : Supplies cc.type src g writes)
    (hkept : KeptEach src writes cc) :
    ∃ cc', forEach writes (fun w => ColumnChunk.writeRow w.1 src w.2) cc = some (.ok (), cc') ∧
      cc'.Lists (s.writeAll g 0 writes) := by
  induction writes generalizing cc s with
  | nil => exact ⟨cc, rfl, h⟩
  | cons w writes ih =>
    obtain ⟨hlt, hrange⟩ := forall_mem_cons.mp hrange
    obtain ⟨⟨hidx, hc⟩, hsrc⟩ := forall_mem_cons.mp hsrc
    obtain ⟨cc₁, hrun, h₁, htype⟩ := h.writeRow hlt hidx hc hkept.1
    have hrows : cc₁.rowCount = cc.rowCount := rowCount_writeRow hrun
    obtain ⟨cc', hrest, h'⟩ := ih h₁ (by rwa [hrows]) (by rwa [htype]) (hkept.2 cc₁ hrun)
    exact ⟨cc', by rw [forEach_cons, bind_run_ok hrun, hrest], h'⟩

theorem Lists.stats (h : cc.Lists s) :
    cc.segments.map ColumnSegment.stats = s.segments.map Prod.snd :=
  forall₂_eq_eq_eq ▸ forall₂_map_left_iff.mpr
    (forall₂_map_right_iff.mpr (h.segments.imp fun _ _ hseg => hseg.2))

theorem Lists.truncatePending (h : cc.Lists s) (n : ℕ) :
    (cc.truncatePending n).Lists { s with pending := s.pending.take n } := by
  obtain ⟨htype, htidy⟩ := tidy_truncatedPending h.pending.tidy
  refine ⟨by simpa using h.typed, by simpa using h.segments, by simpa [htype] using h.pending_type,
    ⟨htidy, by simp [h.pending.count], fun i c hc => ?_⟩, (by simp : _ ≤ _).trans h.pending_le⟩
  rw [getElem?_take] at hc
  split at hc
  next hlt => rw [cell?_truncatedPending hlt, h.pending.cell i c hc]
  next => cases hc

end ColumnChunk

/-! ## Runs -/

namespace ColumnOp

/-- The vectors have the rows that a call reads, and a batch of writes is one that `WriteRows`
takes. -/
def Fits (cc : ColumnChunk) : ColumnOp → Prop
  | .appendFromVector vec count =>
    vec.type.storageClass = cc.type.storageClass ∧ count ≤ standardVectorSize ∧
      count ≤ vec.size vec.type.storageClass
  | .writeRow rowOffset src srcIdx =>
    rowOffset < cc.rowCount →
      srcIdx < standardVectorSize ∧ (src.cellAs cc.type.storageClass srcIdx).isSome
  | .writeRows rowOffsets src => cc.Batch rowOffsets src
  | .flush | .truncatePending _ => True

end ColumnOp

namespace ColumnChunk

variable {cc cc' : ColumnChunk} {s : Listing} {src : DataVector} {rowOffsets : List ℕ}

/-- A call on vectors that fit, where the codec keeps what it compresses. -/
def Proper (cc : ColumnChunk) (op : ColumnOp) : Prop :=
  op.Fits cc ∧ ∀ v ∈ op.compressed cc, Kept cc.blockSize v

theorem Lists.run (h : cc.Lists s) {op : ColumnOp} (hop : cc.Proper op)
    (hrun : op.run cc = some cc') : ∃ s', cc'.Lists s' := by
  obtain ⟨hfits, hkept⟩ := hop
  cases op with
  | appendFromVector vec count =>
    obtain ⟨hcls, hcount, hsize⟩ := hfits
    obtain ⟨cc₁, s', hrun₁, h', -⟩ := h.append hcls hcount hsize hkept
    cases hrun₁.symm.trans hrun
    exact ⟨s', h'⟩
  | flush =>
    obtain ⟨cc₁, s', hrun₁, h', -⟩ := h.flush fun hne => hkept _ (by simp [ColumnOp.compressed, hne])
    cases hrun₁.symm.trans hrun
    exact ⟨s', h'⟩
  | writeRow o src i =>
    obtain ⟨⟨res, cc₁⟩, hw, rfl⟩ := Option.map_eq_some_iff.mp hrun
    rcases Nat.lt_or_ge o cc.rowCount with hlt | hge
    · obtain ⟨hi, hc⟩ := hfits hlt
      obtain ⟨cc₂, hw₂, h', -⟩ := h.writeRow hlt hi (cellAs_of_isSome hc) hkept
      cases hw₂.symm.trans hw
      exact ⟨_, h'⟩
    · rw [ColumnChunk.rowCount] at hge
      rcases writeRow_cases hw with ⟨hlt, -⟩ | ⟨_, ⟨_, rfl⟩ | ⟨hlt, -⟩⟩
      · omega
      · exact ⟨s, h⟩
      · omega
  | writeRows rowOffsets src =>
    obtain ⟨cc₁, hrun₁, h'⟩ := h.writeRows hfits hkept
    rw [ColumnOp.run, hrun₁] at hrun
    cases hrun
    exact ⟨_, h'⟩
  | truncatePending n =>
    cases hrun
    exact ⟨_, h.truncatePending n⟩

variable {type : TypeId} {blockSize : ℕ}

/-- **Every column that is reached stands for a list.** -/
theorem Reached.exists_lists (htyped : type.storageClass ≠ .none)
    (h : Reached Proper type blockSize cc) : ∃ s, cc.Lists s := by
  induction h with
  | create => exact ⟨_, lists_create htyped⟩
  | call _ hop hrun ih =>
    obtain ⟨s, hs⟩ := ih
    exact hs.run hop hrun

/-- The operations of a column are those of a list. -/
structure ListLaws (cc : ColumnChunk) : Prop where
  cells : ∀ o, cc.cell? o = cc.rows[o]?
  append : ∀ {vec count}, cc.Proper (.appendFromVector vec count) →
    ∃ cc', cc.appendFromVector vec count = some cc' ∧ cc'.rows = cc.rows ++ vec.cells count
  flush : cc.Proper .flush → ∃ cc', cc.flush = some cc' ∧ cc'.rows = cc.rows
  writeRow : ∀ {o src i}, cc.Proper (.writeRow o src i) → o < cc.rows.length →
    ∃ cc', ColumnChunk.writeRow o src i cc = some (.ok (), cc') ∧
      cc'.rows = cc.rows.set o (cc.read src i)
  truncatePending : ∀ n, (cc.truncatePending n).rows = cc.rows.take (cc.segmentRowCount + n)
  scan : ∀ {k count}, k ≤ cc.rows.length → count ≤ standardVectorSize →
    ∃ v, cc.scan k count = some v ∧ v.type = cc.type ∧ v.Shows ((cc.rows.drop k).take count)
  scanRows : ∀ {offsets : List ℕ}, offsets.Pairwise (· ≤ ·) →
    (∀ o ∈ offsets, o < cc.rows.length ∧ o < 2 ^ 32) → offsets.length ≤ standardVectorSize →
    ∃ v, cc.scanRows offsets = some v ∧ v.type = cc.type ∧
      v.Shows (offsets.map fun o => cc.rows.getD o none)

theorem length_rows : cc.rows.length = cc.rowCount := by
  rw [rows, length_map, length_range]

theorem getD_rows {o : ℕ} (ho : o < cc.rowCount) : cc.rows.getD o none = cc.cell o := by
  simp [rows, ho]

theorem Lists.scan (h : cc.Lists s) {k count : ℕ} (hk : k ≤ cc.rows.length)
    (hcount : count ≤ standardVectorSize) :
    ∃ v, cc.scan k count = some v ∧ v.type = cc.type ∧ v.Shows ((cc.rows.drop k).take count) := by
  obtain ⟨v, hrun, htype, hv⟩ := h.readable.scan (hk.trans_eq length_rows) hcount
  refine ⟨v, hrun, htype, ?_⟩
  rw [range'_eq_map_range] at hv
  rw [rows, ← map_drop, ← map_take, range_eq_range', drop_range', range'_eq_map_range, ← map_take]
  simpa using hv

/-- **A column is a list**, whatever calls it has taken. -/
theorem listLaws_of_reached (htyped : type.storageClass ≠ .none)
    (h : Reached Proper type blockSize cc) : cc.ListLaws := by
  obtain ⟨s, hs⟩ := h.exists_lists htyped
  refine ⟨fun o => by rw [hs.rows_eq, hs.cell?], fun ⟨⟨hcls, hcount, hsize⟩, hkept⟩ => ?_,
    fun ⟨_, hkept⟩ => ?_, fun ⟨hfits, hkept⟩ ho => ?_, fun n => ?_, hs.scan,
    fun {offsets} hsorted hrange hfit => ?_⟩
  · obtain ⟨cc', s', hrun, h', hrows⟩ := hs.append hcls hcount hsize hkept
    exact ⟨cc', hrun, by rw [h'.rows_eq, hrows, hs.rows_eq]⟩
  · obtain ⟨cc', s', hrun, h', hrows, -⟩ :=
      hs.flush fun hne => hkept _ (by simp [ColumnOp.compressed, hne])
    exact ⟨cc', hrun, by rw [h'.rows_eq, hrows, hs.rows_eq]⟩
  · rw [length_rows] at ho
    obtain ⟨hi, hc⟩ := hfits ho
    obtain ⟨cc', hrun, h', -⟩ := hs.writeRow ho hi (cellAs_of_isSome hc) hkept
    exact ⟨cc', hrun, by rw [h'.rows_eq, hs.rows_eq, Listing.write, Listing.rows_writeIn]⟩
  · rw [(hs.truncatePending n).rows_eq, hs.rows_eq, hs.segmentRowCount, Listing.rows, Listing.rows,
      take_length_add_append]
  · have hlt : ∀ o ∈ offsets, o < cc.rowCount := fun o ho => (hrange o ho).1.trans_eq length_rows
    obtain ⟨v, hrun, htype, hv⟩ := hs.readable.scanRows hsorted hlt
      (fun o ho => (hrange o ho).2.trans (by decide)) hfit
    exact ⟨v, hrun, htype, by rwa [map_congr_left fun o ho => getD_rows (hlt o ho)]⟩

theorem reached_pendingOne : Reached Proper .int64 64 (pendingOne 5) := by
  have hproper : Proper { type := .int64, blockSize := 64 } (.appendFromVector (oneInt 5) 1) := by
    refine ⟨⟨rfl, by decide, by decide⟩, fun v hv => ?_⟩
    cases hv
  exact Reached.create.call hproper run_append_five

/-- The laws hold of a column with one pending row. -/
theorem listLaws_pendingOne : Reached Proper .int64 64 (pendingOne 5) ∧ (pendingOne 5).ListLaws :=
  ⟨reached_pendingOne, listLaws_of_reached (by decide) reached_pendingOne⟩

/-- A NULL row in a vector without an array, as appending it to an empty vector leaves it. -/
def oneNull : DataVector := { type := .int64, count := 1 }

/-- `AppendFromVector` of such a vector reads past the end of its array. -/
theorem append_null_undefined :
    Reached Proper .int64 64 { type := .int64, blockSize := 64 } ∧
      (DataVector.reset .int64 0).append (DataVector.reset .int64 1) 0 = some oneNull ∧
      oneNull.count ≤ standardVectorSize ∧ oneNull.cell? 0 = some none ∧
      ¬ ∃ cc', appendFromVector { type := .int64, blockSize := 64 } oneNull 1 = some cc' ∧
        cc'.rows = [none] := by
  have hundef : appendFromVector { type := .int64, blockSize := 64 } oneNull 1 = none := by
    decide +kernel
  refine ⟨Reached.create, by decide +kernel, by decide, by decide +kernel, ?_⟩
  rintro ⟨cc', hrun, -⟩
  exact absurd (hundef.symm.trans hrun) nofun

/-- `ScanRows` of more offsets than a vector has rows writes past the end of its output. -/
theorem scanRows_past_vector : Reached Proper .int64 64 (pendingOne 5) ∧
    (∀ o ∈ replicate (standardVectorSize + 1) 0, o < (pendingOne 5).rows.length) ∧
      (replicate (standardVectorSize + 1) 0).Pairwise (· ≤ ·) ∧
      (pendingOne 5).scanRows (replicate (standardVectorSize + 1) 0) = none := by
  refine ⟨reached_pendingOne, fun o ho => ?_, pairwise_replicate.mpr (.inr le_rfl), by decide +kernel⟩
  rw [eq_of_mem_replicate ho]
  decide

/-- **A batch of writes equals single writes**: the rows and the statistics of the segments are
the same. -/
theorem writeRows_eq_writeRow (hs : cc.Lists s) (hb : Batch cc rowOffsets src)
    (hkept : ∀ v ∈ cc.writeRowsCompresses src cc.segments 0 rowOffsets.zipIdx, Kept cc.blockSize v)
    (hkept' : KeptEach src rowOffsets.zipIdx cc) :
    ∃ cc₁ cc₂, writeRows rowOffsets src cc = some (.ok (), cc₁) ∧
      forEach rowOffsets.zipIdx (fun w => writeRow w.1 src w.2) cc = some (.ok (), cc₂) ∧
      cc₁.rows = cc₂.rows ∧
      cc₁.segments.map ColumnSegment.stats = cc₂.segments.map ColumnSegment.stats := by
  obtain ⟨cc₁, hrun₁, h₁⟩ := hs.writeRows hb hkept
  obtain ⟨cc₂, hrun₂, h₂⟩ := hs.forEach_writeRow
    (fun w hw => hb.inRange _ (mem_of_mem_zipIdx hw)) hb.supplies hkept'
  exact ⟨cc₁, cc₂, hrun₁, hrun₂, by rw [h₁.rows_eq, h₂.rows_eq], by rw [h₁.stats, h₂.stats]⟩

/-- Two rows of an integer column. -/
def twoInts (x y : Int64) : DataVector :=
  { type := .int64, count := 2, intData := [x, y], validity := 3 }

theorem shows_oneInt {x : Int64} : (oneInt x).Shows [some (.int x)] := by
  have hvalid : ∀ i, (oneInt x).isNull i = !decide (i = 0) := by
    intro i
    simp [oneInt, DataVector.isNull, BitVec.getLsbD_one, standardVectorSize]
  refine ⟨⟨by simp [oneInt, TypeId.storageClass], fun i hi => ?_, le_rfl⟩, rfl, fun i c hi => ?_⟩
  · have hne : i ≠ 0 := Nat.ne_of_gt hi
    simp [hvalid, hne]
  · obtain ⟨rfl, rfl⟩ : i = 0 ∧ c = some (.int x) := by
      cases i <;> simp_all
    rw [DataVector.cell?, hvalid]
    rfl

/-- The codec keeps a row that it writes as a run. -/
theorem kept_oneInt {x : Int64} {size : ℕ}
    (hrows : (oneInt x).rows (oneInt x).intData = some [some x])
    (himage : intImage (oneInt x) [some x] ([some x].map fun row => row.getD 0) = oneInt x)
    (hsel : selectCompression (oneInt x) = some { type := .rle })
    (hsize : ∀ type ∈ [CompressionType.uncompressed, .rle],
      (compress { type } (oneInt x)).all fun bs => bs.length ≤ size) : Kept size (oneInt x) := by
  have htidy : (intImage (oneInt x) [some x] ([some x].map fun row => row.getD 0)).Tidy := by
    rw [himage]
    exact shows_oneInt.tidy
  have hsame := sameRows_intImage_getD rfl hrows
  have hfits : ∀ {type : CompressionType} {bs : ByteCodec.Bytes},
      type ∈ [CompressionType.uncompressed, .rle] → compress { type } (oneInt x) = some bs →
      bs.length ≤ size := by
    intro type bs htype hbs
    simpa [hbs] using hsize type htype
  refine ⟨⟨_, hsel⟩, ?_⟩
  rintro choice (rfl | hchoice)
  · obtain ⟨bs, hbs, hout⟩ := exists_compress_plain_int rfl hrows
    exact ⟨bs, hbs, hfits (by simp) hbs, fun tail => ⟨_, hout tail, htidy, hsame⟩⟩
  · cases hsel.symm.trans hchoice
    obtain ⟨bs, hbs, hout⟩ := exists_compress_rle rfl hrows
    exact ⟨bs, hbs, hfits (by simp) hbs, fun tail => ⟨_, hout tail, htidy, hsame⟩⟩

theorem kept_seven : Kept 64 (oneInt 7) :=
  kept_oneInt (by decide +kernel) (by decide +kernel) (by decide +kernel) (by decide +kernel)

theorem kept_eight : Kept 64 (oneInt 8) :=
  kept_oneInt (by decide +kernel) (by decide +kernel) (by decide +kernel) (by decide +kernel)

theorem lists_flushedOne : (flushedOne 5).Lists
    { segments := [([some (.int 5)], { minVal := .integer 5, maxVal := .integer 5 })] } :=
  ⟨by decide, .cons ⟨⟨⟨oneInt 5, by decide +kernel, rfl, shows_oneInt⟩, rfl, by decide⟩, rfl⟩ .nil,
    rfl, ⟨DataVector.tidy_reset (t := .int64) (by decide), rfl, nofun⟩, by decide⟩

/-- The one row of a segment is overwritten twice. -/
theorem writeRows_twice : ∃ cc₁ cc₂,
    writeRows [0, 0] (twoInts 7 8) (flushedOne 5) = some (.ok (), cc₁) ∧
      forEach [(0, 0), (0, 1)] (fun w => writeRow w.1 (twoInts 7 8) w.2) (flushedOne 5) =
        some (.ok (), cc₂) ∧ cc₁.rows = cc₂.rows ∧
      cc₁.segments.map ColumnSegment.stats = cc₂.segments.map ColumnSegment.stats := by
  have hb : Batch (flushedOne 5) [0, 0] (twoInts 7 8) :=
    ⟨rfl, by decide, by decide, by decide, by decide +kernel⟩
  have hbatch : (flushedOne 5).writeRowsCompresses (twoInts 7 8) (flushedOne 5).segments 0
      [0, 0].zipIdx = [oneInt 8] := by
    decide +kernel
  have hfirst : (flushedOne 5).writeRowCompresses (twoInts 7 8) 0 (flushedOne 5).segments 0 =
      [oneInt 7] := by
    decide +kernel
  have hsecond : ((writeRow 0 (twoInts 7 8) 0 (flushedOne 5)).map fun p =>
      (p.2.writeRowCompresses (twoInts 7 8) 1 p.2.segments 0, p.2.blockSize)) =
      some ([oneInt 8], 64) := by
    decide +kernel
  refine writeRows_eq_writeRow lists_flushedOne hb ?_ ⟨?_, fun cc' h => ⟨?_, fun _ _ => trivial⟩⟩
  · rw [hbatch]
    exact forall_mem_singleton.mpr kept_eight
  · rw [hfirst]
    exact forall_mem_singleton.mpr kept_seven
  · rw [h] at hsecond
    obtain ⟨hvs, hsize⟩ := Prod.mk.inj (Option.some.inj hsecond)
    rw [hvs, hsize]
    exact forall_mem_singleton.mpr kept_eight

end ColumnChunk

end CppColDB
