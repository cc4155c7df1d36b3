import CppColDB.Storage.Column.RowGroup
import CppColDB.Storage.Compression.RoundTrip

/-!
# What a column holds

`cell?` reads one row of a column as a scan does: from the decompressed segment that holds
it, or from the pending rows. A cell is NULL or one stored element.
-/

namespace CppColDB

open ByteCodec Imp List Option SegmentStats Validity

/-- One row of a column; `none` is NULL. -/
abbrev Cell := Option Datum

namespace DataVector

/-- Row `i` of a vector. It is undefined where a non-NULL row has no element. -/
def cell? (v : DataVector) (i : ℕ) : Option Cell :=
  if v.isNull i then some none else (v.datum? i).map some

/-- The length of the array of a storage class. -/
def size (v : DataVector) (cls : TypeId.StorageClass) : ℕ :=
  match cls with
  | .int => v.intData.length
  | .float => v.floatData.length
  | .str => v.strData.length
  | .none => 0

/-- A vector as the operations on rows leave it: no bit is set past its rows, and its array
reaches as far as they do. -/
structure Tidy (v : DataVector) : Prop where
  typed : v.type.storageClass ≠ .none
  clean : ∀ i, v.count ≤ i → v.isNull i = true
  stored : v.count ≤ v.size v.type.storageClass

variable {v dst dst' src : DataVector} {srcStart n : ℕ} {i : ℕ} {x : Datum}

theorem cell?_eq_some_some :
    v.cell? i = some (some x) ↔ v.isNull i = false ∧ v.datum? i = some x := by
  rw [cell?]
  cases v.isNull i <;> simp

theorem cell?_eq_some_none : v.cell? i = some none ↔ v.isNull i = true := by
  rw [cell?]
  cases v.isNull i <;> simp

theorem datum?_eq_load (i : ℕ) : v.datum? i = v.load v.type.storageClass i := rfl

variable {cls : TypeId.StorageClass}

theorem load_eq_none_iff :
    v.load cls i = none ↔ v.size cls ≤ i := by
  cases cls <;> simp [load, size]

theorem tidy_reset {t : TypeId} (ht : t.storageClass ≠ .none) : (reset t 0).Tidy where
  typed := by rwa [reset_type]
  clean i _ := by simp [isNull]
  stored := by simp

/-! ### `BulkCopyRows` -/

theorem bulkCopyRows_fields (h : dst.bulkCopyRows src srcStart n = some dst') :
    dst'.type = dst.type ∧ dst'.count = dst.count + n ∧
      srcStart + n ≤ standardVectorSize ∧ dst.count + n ≤ standardVectorSize := by
  rw [bulkCopyRows] at h
  split at h
  next => cases h
  next hle =>
    push Not at hle
    split at h
    · split at h <;> cases h; exact ⟨rfl, rfl, hle⟩
    · split at h <;> cases h; exact ⟨rfl, rfl, hle⟩
    · split at h <;> cases h; exact ⟨rfl, rfl, hle⟩
    · cases h; exact ⟨rfl, rfl, hle⟩

/-- The validity bits that the copy sets. -/
theorem getLsbD_foldl_put (m : Validity) (keep : ℕ → Bool) (start n i : ℕ) (hi : i < 1024) :
    ((range n).foldl (fun m j => if keep j then put m (start + j) true else m)
      m).getLsbD i =
      if start ≤ i ∧ i < start + n then m.getLsbD i || keep (i - start) else m.getLsbD i := by
  induction n with
  | zero =>
    simp
  | succ n ih =>
    rw [range_succ, foldl_append, foldl_cons, foldl_nil]
    by_cases hk : keep n = true
    · rw [if_pos hk, getLsbD_put, ih]
      by_cases heq : start + n = i
      · subst heq
        simp [standardVectorSize, hi, hk]
      · have hiff : (start ≤ i ∧ i < start + (n + 1)) ↔ (start ≤ i ∧ i < start + n) := by omega
        simp [heq, hiff]
    · rw [if_neg hk, ih]
      by_cases heq : start + n = i
      · subst heq
        simp [hk]
      · have hiff : (start ≤ i ∧ i < start + (n + 1)) ↔ (start ≤ i ∧ i < start + n) := by omega
        simp [hiff]

theorem isNull_bulkCopyRows (hd : ∀ i, dst.count ≤ i → dst.isNull i = true)
    (h : dst.bulkCopyRows src srcStart n = some dst') (i : ℕ) :
    dst'.isNull i = if i < dst.count then dst.isNull i
      else if i < dst.count + n then src.isNull (srcStart + (i - dst.count)) else true := by
  have hvalidity : dst'.validity = (range n).foldl (fun m j =>
      if src.validity.getLsbD (srcStart + j) then put m (dst.count + j) true else m)
      dst.validity := by
    rw [bulkCopyRows] at h
    split at h
    · cases h
    · split at h
      · split at h <;> cases h; rfl
      · split at h <;> cases h; rfl
      · split at h <;> cases h; rfl
      · cases h; rfl
  obtain ⟨_, _, hsrc, hdst⟩ := bulkCopyRows_fields h
  rcases lt_or_ge i 1024 with hi | hi
  · rw [isNull, hvalidity, getLsbD_foldl_put _ (fun j => src.validity.getLsbD (srcStart + j)) _ _ _ hi]
    rcases lt_or_ge i dst.count with hlt | hge
    · have hno : ¬ (dst.count ≤ i ∧ i < dst.count + n) := by omega
      rw [if_neg hno, if_pos hlt, isNull]
    · have hclear : dst.validity.getLsbD i = false := by simpa [isNull] using hd i hge
      rw [hclear]
      by_cases hin : i < dst.count + n <;> simp [hge, isNull]
  · have hout : ∀ m : Validity, m.getLsbD i = false := fun m => BitVec.getLsbD_of_ge _ _ hi
    have h1 : ¬ i < dst.count := by simp only [standardVectorSize] at hdst; omega
    have h2 : ¬ i < dst.count + n := by simp only [standardVectorSize] at hdst; omega
    simp [isNull, hout, h2]

/-- The array after a copy: the old elements, then the copied ones, and nothing after them. -/
theorem getElem?_resize_append {α : Type} (xs ys : List α) (d : α) (start count n i : ℕ)
    (hx : count ≤ xs.length) :
    (resize xs count d ++ (ys.drop start).take n)[i]? =
      if i < count then xs[i]? else if i < count + n then ys[start + (i - count)]? else none := by
  have hlen : (resize xs count d).length = count := by simp [resize]; omega
  have hnil : count - xs.length = 0 := by omega
  rcases lt_or_ge i count with hi | hi
  · rw [getElem?_append_left (by omega)]
    simp [resize, hnil, hi]
  · rw [getElem?_append_right (by omega), if_neg (Nat.not_lt_of_le hi), hlen]
    by_cases hin : i < count + n
    · have hsub : i - count < n := by omega
      simp [hin, hsub]
    · have hsub : ¬ i - count < n := by omega
      simp [hin, hsub]

section

variable (hcls : src.type.storageClass = dst.type.storageClass) (hd : dst.Tidy)
  (h : dst.bulkCopyRows src srcStart n = some dst')
include hcls hd h

theorem load_bulkCopyRows :
    srcStart + n ≤ src.size dst.type.storageClass ∧ ∀ i, dst'.load dst.type.storageClass i =
      if i < dst.count then dst.load dst.type.storageClass i
      else if i < dst.count + n then src.load dst.type.storageClass (srcStart + (i - dst.count))
      else none := by
  have hstored := hd.stored
  have htyped := hd.typed
  rw [bulkCopyRows] at h
  split at h
  · cases h
  · rw [hcls] at h
    cases hc : dst.type.storageClass with
    | none => exact absurd hc htyped
    | int | float | str =>
      rw [hc] at h hstored
      dsimp only at h
      split at h <;> cases h
      next hle =>
        refine ⟨hle, fun i => ?_⟩
        simp only [load]
        rw [getElem?_resize_append _ _ _ _ _ _ _ hstored]
        split
        · rfl
        · split <;> rfl

/-- **`BulkCopyRows` appends rows** of a vector of the same type. -/
theorem cell?_bulkCopyRows (hi : i < dst'.count) : dst'.cell? i = if i < dst.count then dst.cell? i
      else src.cell? (srcStart + (i - dst.count)) := by
  obtain ⟨htype, hcount, _, _⟩ := bulkCopyRows_fields h
  rw [hcount] at hi
  rw [cell?, datum?_eq_load, htype, isNull_bulkCopyRows hd.clean h, (load_bulkCopyRows hcls hd h).2]
  split
  · rfl
  · rw [cell?, datum?_eq_load, hcls]

theorem Tidy.bulkCopyRows : dst'.Tidy := by
  obtain ⟨htype, hcount, _, _⟩ := bulkCopyRows_fields h
  refine ⟨by rw [htype]; exact hd.typed, fun i hi => ?_, ?_⟩
  · rw [isNull_bulkCopyRows hd.clean h, if_neg (by omega), if_neg (by omega)]
  · obtain ⟨hsize, hload⟩ := load_bulkCopyRows hcls hd h
    have hstored := hd.stored
    by_contra hlt
    have hnone := hload (dst'.size dst.type.storageClass)
    rw [load_eq_none_iff.mpr (le_refl _)] at hnone
    rw [htype] at hlt
    split at hnone
    next hin =>
      have hge := load_eq_none_iff.mp hnone.symm
      omega
    next hin =>
      rw [if_pos (by omega)] at hnone
      have hge := load_eq_none_iff.mp hnone.symm
      omega

end

/-! ### `write_value` -/

/-- Row `i` of a vector, read through the array of a storage class. -/
def cellAs (v : DataVector) (cls : TypeId.StorageClass) (i : ℕ) : Option Cell :=
  if v.isNull i then some none else (v.load cls i).map some

theorem cell?_eq_cellAs (i : ℕ) : v.cell? i = v.cellAs v.type.storageClass i := rfl

variable {idx : ℕ}

theorem store_fields (h : v.store idx x = some dst') :
    dst'.type = v.type ∧ dst'.count = v.count ∧ dst'.validity = v.validity ∧
      dst'.size = v.size := by
  have hsize : ∀ {w : DataVector}, w.intData.length = v.intData.length →
      w.floatData.length = v.floatData.length → w.strData.length = v.strData.length →
      w.size = v.size := by
    intro w h₁ h₂ h₃
    funext cls
    cases cls <;> simp [size, h₁, h₂, h₃]
  cases x with
  | int x =>
    simp only [store] at h
    split at h <;> cases h
    exact ⟨rfl, rfl, rfl, hsize (by simp) rfl rfl⟩
  | float x =>
    simp only [store] at h
    split at h <;> cases h
    exact ⟨rfl, rfl, rfl, hsize rfl (by simp) rfl⟩
  | str x =>
    simp only [store] at h
    split at h <;> cases h
    exact ⟨rfl, rfl, rfl, hsize rfl rfl (by simp)⟩

variable {srcIdx : ℕ}

theorem load_store (hx : src.load cls srcIdx = some x) (h : v.store idx x = some dst') (i : ℕ) :
    dst'.load cls i = if i = idx then some x else v.load cls i := by
  cases cls with
  | none => cases hx
  | int | float | str =>
    obtain ⟨x, _, rfl⟩ := map_eq_some_iff.mp hx
    simp only [store] at h
    split at h <;> cases h
    next hlt =>
      by_cases hi : i = idx
      · subst hi
        simp [load, hlt]
      · simp [load, hi, Ne.symm hi]

/-- **`write_value` overwrites one row** of a vector of the column's type. -/
theorem writeValue_spec (hcls : v.type.storageClass ≠ .none)
    (h : writeValue v.type v idx src srcIdx = some dst') :
    dst'.type = v.type ∧ dst'.count = v.count ∧ dst'.size = v.size ∧
      ∀ i, dst'.cell? i = if i = idx then src.cellAs v.type.storageClass srcIdx else v.cell? i := by
  rw [writeValue] at h
  split at h
  next => cases h
  next hidx =>
    push Not at hidx
    have hbit : ∀ (b : Bool) i, (v.validity.put idx b).getLsbD i =
        if i = idx then b else v.validity.getLsbD i := by
      intro b i
      rw [getLsbD_put]
      by_cases hi : i = idx
      · subst hi
        simp [hidx.1]
      · simp [hi, Ne.symm hi]
    split at h
    next hnull =>
      cases h
      refine ⟨rfl, rfl, rfl, fun i => ?_⟩
      rw [cell?, isNull, hbit]
      by_cases hi : i = idx
      · simp [hi, cellAs, hnull]
      · simp only [hi]
        rfl
    next hnull =>
      split at h
      next hnone => exact absurd hnone hcls
      next =>
        obtain ⟨x, hx, hstored⟩ := bind_eq_some_iff.mp h
        obtain ⟨htype, hcount, hvalidity, hsize⟩ := store_fields hstored
        refine ⟨htype, hcount, hsize, fun i => ?_⟩
        rw [cell?_eq_cellAs, htype, cellAs, isNull, hvalidity, hbit, load_store hx hstored]
        by_cases hi : i = idx
        · simp [hi, cellAs, hnull, hx]
        · simp only [hi]
          rfl

theorem Tidy.writeValue (hv : v.Tidy) (hidx : idx < v.count)
    (h : DataVector.writeValue v.type v idx src srcIdx = some dst') : dst'.Tidy := by
  obtain ⟨htype, hcount, hsize, hcell⟩ := writeValue_spec hv.typed h
  refine ⟨by rw [htype]; exact hv.typed, fun i hi => ?_, ?_⟩
  · have hne : i ≠ idx := by omega
    rw [← cell?_eq_some_none, hcell, if_neg hne, cell?_eq_some_none]
    exact hv.clean i (by omega)
  · rw [htype, hcount, hsize]
    exact hv.stored

end DataVector

namespace ColumnChunk

/-- Row `o` of a column whose remaining segments are the given ones. -/
def cellIn (type : TypeId) (pending : DataVector) : List ColumnSegment → ℕ → Option Cell
  | [], o => if o < pending.count then pending.cell? o else none
  | seg :: segs, o =>
    if o < seg.rowCount then (decompress seg.block type).bind (·.cell? o)
    else cellIn type pending segs (o - seg.rowCount)

/-- Row `o` of a column: `none` if the column has no such row or it cannot be read. -/
def cell? (cc : ColumnChunk) (o : ℕ) : Option Cell :=
  cellIn cc.type cc.pendingData cc.segments o

/-! ## Dropping pending rows -/

variable {cc : ColumnChunk} {n o : ℕ}

@[simp] theorem segments_truncatePending : (cc.truncatePending n).segments = cc.segments := by
  rw [truncatePending]
  split <;> rfl

@[simp] theorem type_truncatePending : (cc.truncatePending n).type = cc.type := by
  rw [truncatePending]
  split <;> rfl

@[simp] theorem segmentRowCount_truncatePending :
    (cc.truncatePending n).segmentRowCount = cc.segmentRowCount := by
  simp [segmentRowCount]

@[simp] theorem pendingCount_truncatePending :
    (cc.truncatePending n).pendingData.count = min n cc.pendingData.count := by
  rw [truncatePending]
  split
  next h => exact (min_eq_right h).symm
  next h => exact (min_eq_left (Nat.le_of_not_le h)).symm

theorem truncatePending_truncatePending :
    (cc.truncatePending n).truncatePending n = cc.truncatePending n := by
  conv_lhs => rw [truncatePending]
  rw [if_pos]
  rw [pendingCount_truncatePending]
  exact min_le_left _ _

/-- The rows that stay keep their contents. -/
theorem cell?_truncatedPending (ho : o < n) :
    (cc.truncatePending n).pendingData.cell? o = cc.pendingData.cell? o := by
  rw [truncatePending]
  split
  · rfl
  · have hbit : ∀ bs, (cc.pendingData.validity.putFrom n bs).getLsbD o =
        cc.pendingData.validity.getLsbD o := by
      intro bs
      rw [getLsbD_putFrom, if_neg (fun h => absurd h.1 (Nat.not_le_of_lt ho))]
    simp only [DataVector.cell?, DataVector.isNull, hbit]
    rfl

theorem tidy_truncatedPending (h : cc.pendingData.Tidy) :
    (cc.truncatePending n).pendingData.type = cc.pendingData.type ∧
      (cc.truncatePending n).pendingData.Tidy := by
  rw [truncatePending]
  split
  next => exact ⟨rfl, h⟩
  next hlt =>
    refine ⟨rfl, h.typed, fun i hi => ?_, (Nat.le_of_not_le hlt).trans h.stored⟩
    -- a bit past the new end is cleared here or was never set
    have hclean : cc.pendingData.count ≤ i → cc.pendingData.validity.getLsbD i = false :=
      fun hle => by simpa [DataVector.isNull] using h.clean i hle
    have hbit : ((cc.pendingData.validity.putFrom n
        (replicate (cc.pendingData.count - n) false)).getLsbD i) = false := by
      rw [getLsbD_putFrom]
      have hn : n ≤ i := hi
      by_cases hle : cc.pendingData.count ≤ i
      · rw [hclean hle]
        simp
      · have hdropped : i - n < cc.pendingData.count - n := by omega
        rw [getElem?_replicate]
        split
        next => rfl
        next hwide => exact BitVec.getLsbD_of_ge _ _ (by omega)
    simpa [DataVector.isNull] using hbit

theorem cell?_truncatePending (ho : o < cc.segmentRowCount + n) :
    (cc.truncatePending n).cell? o = cc.cell? o := by
  rw [cell?, cell?, segments_truncatePending, type_truncatePending]
  rw [segmentRowCount] at ho
  generalize cc.segments = segs at ho ⊢
  induction segs generalizing o with
  | nil =>
    simp only [map_nil, sum_nil, zero_add] at ho
    simp only [cellIn, pendingCount_truncatePending, lt_min_iff, ho, true_and,
      cell?_truncatedPending ho]
  | cons seg segs ih =>
    simp only [cellIn]
    split
    next => rfl
    next hseg =>
      apply ih
      simp only [map_cons, sum_cons] at ho
      omega

end ColumnChunk

/-! ## Appending -/

namespace ColumnChunk

variable {cc cc' : ColumnChunk} {vec : DataVector} {count : ℕ}

/-- Flush the pending rows if they are full. -/
def flushIfFull (cc : ColumnChunk) : Option ColumnChunk :=
  if standardVectorSize ≤ cc.pendingData.count then cc.flush else some cc

/-- How many rows the pending vector takes before the next flush of an append. -/
def room (cc : ColumnChunk) : ℕ :=
  if standardVectorSize ≤ cc.pendingData.count then standardVectorSize
  else standardVectorSize - cc.pendingData.count

theorem room_pos : 0 < cc.room := by
  rw [room]
  split
  next => decide
  next h => omega

/-- What `Flush` leaves: an empty pending vector, and one more segment if there were rows. -/
theorem flush_inv (h : cc.flush = some cc') : (cc.pendingData.count = 0 ∧ cc' = cc) ∨
      ∃ choice block, cc.pendingData.count ≠ 0 ∧ selectCompression cc.pendingData = some choice ∧
        writeBlock cc.blockSize choice cc.pendingData [] = some block ∧
        cc' = { cc with
                segments := cc.segments ++
                  [{ block, compression := choice.type, columnType := cc.type
                     rowCount := cc.pendingData.count, rowOffset := cc.pendingRowOffset
                     stats := cc.combinedStats }]
                pendingRowOffset := cc.pendingRowOffset + cc.pendingData.count
                pendingData := DataVector.reset cc.type 0 } := by
  rw [flush] at h
  split at h
  next hzero =>
    cases h
    exact .inl ⟨hzero, rfl⟩
  next hne =>
    obtain ⟨choice, hchoice, h⟩ := bind_eq_some_iff.mp h
    obtain ⟨block, hblock, h⟩ := bind_eq_some_iff.mp h
    cases h
    exact .inr ⟨choice, block, hne, hchoice, hblock, rfl⟩

theorem pendingCount_flush (h : cc.flush = some cc') : cc'.pendingData.count = 0 := by
  rcases flush_inv h with ⟨hzero, rfl⟩ | ⟨_, _, _, _, _, rfl⟩
  · exact hzero
  · simp

theorem pendingCount_flushIfFull (h : cc.flushIfFull = some cc') :
    cc'.pendingData.count + cc.room = standardVectorSize := by
  rw [flushIfFull] at h
  rw [room]
  split at h
  next hfull => rw [if_pos hfull, pendingCount_flush h, zero_add]
  next hfull =>
    cases h
    rw [if_neg hfull]
    omega

variable {fuel srcPos : ℕ}

theorem appendLoop_succ (hlt : srcPos < count) :
    appendLoop vec count (fuel + 1) srcPos cc = cc.flushIfFull.bind fun cc =>
      (cc.pendingData.bulkCopyRows vec srcPos
        (min (count - srcPos) (standardVectorSize - cc.pendingData.count))).bind fun pendingData =>
      appendLoop vec count fuel
        (srcPos + min (count - srcPos) (standardVectorSize - cc.pendingData.count))
        { cc with pendingData } := by
  rw [appendLoop, if_neg (Nat.not_le_of_lt hlt), flushIfFull]
  split <;> rfl

theorem appendLoop_self : appendLoop vec count fuel count cc = some cc := by
  cases fuel <;> simp [appendLoop]

/-- One round of the loop of `AppendFromVector`. -/
theorem appendLoop_round (hlt : srcPos < count)
    (h : appendLoop vec count (fuel + 1) srcPos cc = some cc') :
    ∃ cc₁ p₁, cc.flushIfFull = some cc₁ ∧
      cc₁.pendingData.bulkCopyRows vec srcPos (min (count - srcPos) cc.room) = some p₁ ∧
      appendLoop vec count fuel (srcPos + min (count - srcPos) cc.room)
        { cc₁ with pendingData := p₁ } = some cc' := by
  rw [appendLoop_succ hlt] at h
  obtain ⟨cc₁, hflush, h⟩ := bind_eq_some_iff.mp h
  obtain ⟨p₁, hcopy, h⟩ := bind_eq_some_iff.mp h
  have hfree : standardVectorSize - cc₁.pendingData.count = cc.room := by
    have hroom := pendingCount_flushIfFull hflush
    omega
  rw [hfree] at hcopy h
  exact ⟨cc₁, p₁, hflush, hcopy, h⟩

/-- **What an append does**: it fills the pending vector, after a flush if that is full, and
if rows remain it flushes again and starts the next vector with them. -/
theorem appendLoop_inv (hpos : 0 < count) (h : appendLoop vec count count 0 cc = some cc') :
    ∃ cc₁ p₁, cc.flushIfFull = some cc₁ ∧
      cc₁.pendingData.bulkCopyRows vec 0 (min count cc.room) = some p₁ ∧
      ((count ≤ cc.room ∧ cc' = { cc₁ with pendingData := p₁ }) ∨
        ∃ cc₂ p₂, cc.room < count ∧ { cc₁ with pendingData := p₁ }.flush = some cc₂ ∧
          cc₂.pendingData.bulkCopyRows vec cc.room (count - cc.room) = some p₂ ∧
          cc' = { cc₂ with pendingData := p₂ }) := by
  obtain ⟨fuel, hfuel⟩ : ∃ fuel, count = fuel + 1 := ⟨count - 1, by omega⟩
  obtain ⟨cc₁, p₁, hflush, hcopy, h⟩ := appendLoop_round hpos (by rwa [← hfuel])
  rw [Nat.sub_zero] at hcopy h
  rw [zero_add] at h
  refine ⟨cc₁, p₁, hflush, hcopy, ?_⟩
  rcases lt_or_ge cc.room count with hlt | hge
  · right
    have hroom := cc.room_pos
    rw [min_eq_right hlt.le] at hcopy h
    -- the first vector is full now, so the next round flushes it
    obtain ⟨_, hp₁, _, _⟩ := DataVector.bulkCopyRows_fields hcopy
    have hfull : standardVectorSize ≤ p₁.count := by
      rw [hp₁, pendingCount_flushIfFull hflush]
    obtain ⟨fuel', rfl⟩ : ∃ fuel', fuel = fuel' + 1 := ⟨fuel - 1, by omega⟩
    obtain ⟨cc₂, p₂, hflush₂, hcopy₂, h⟩ := appendLoop_round hlt h
    have hroom₂ : { cc₁ with pendingData := p₁ }.room = standardVectorSize := if_pos hfull
    rw [hroom₂] at hcopy₂ h
    obtain ⟨_, _, hsrc, _⟩ := DataVector.bulkCopyRows_fields hcopy₂
    have hmin : min (count - cc.room) standardVectorSize = count - cc.room := by omega
    rw [hmin] at hcopy₂ h
    rw [Nat.add_sub_cancel' hlt.le, appendLoop_self] at h
    cases h
    refine ⟨cc₂, p₂, hlt, ?_, hcopy₂, rfl⟩
    rwa [flushIfFull, if_pos (by exact hfull)] at hflush₂
  · left
    rw [min_eq_left hge, appendLoop_self] at h
    cases h
    exact ⟨hge, rfl⟩

/-! ## Segments -/

/-- The codec restores the vector, under the scheme the code selects and uncompressed. -/
def Restorable (v : DataVector) : Prop :=
  ∀ choice, choice = { type := .uncompressed, bitWidth := 0 } ∨ selectCompression v = some choice →
    Restores choice v

theorem decompress_writeBlock {choice : CompressionChoice} {v : DataVector} {size : ℕ}
    {old block : Bytes} (hr : Restores choice v) (hb : writeBlock size choice v old = some block) :
    ∃ out, decompress block v.type = some out ∧ out.SameRows v := by
  obtain ⟨bs, hbs, hout⟩ := hr
  obtain ⟨bs', hbs', hb⟩ := bind_eq_some_iff.mp hb
  cases hbs.symm.trans hbs'
  split at hb <;> cases hb
  exact hout _

/-- The vectors that are compressed when a segment is changed. -/
def rewritten (cc : ColumnChunk) (seg : ColumnSegment) (change : DataVector → Option DataVector) :
    List DataVector :=
  ((decompress seg.block cc.type).bind change).toList

variable {seg : ColumnSegment}

/-- Changing a segment changes the rows it decompresses to, and its statistics are those of
the changed rows. -/
theorem rewriteSegment_inv {seg' : ColumnSegment} {change : DataVector → Option DataVector}
    (hcodec : ∀ v ∈ cc.rewritten seg change, Restorable v)
    (h : cc.rewriteSegment seg change = some seg') :
    ∃ w v out, decompress seg.block cc.type = some w ∧ change w = some v ∧
      (v.type = cc.type → decompress seg'.block cc.type = some out ∧ out.SameRows v) ∧
      build cc.type v = some seg'.stats ∧ seg'.rowCount = seg.rowCount := by
  obtain ⟨w, hw, h⟩ := bind_eq_some_iff.mp h
  obtain ⟨v, hv, h⟩ := bind_eq_some_iff.mp h
  have hrest : Restorable v := hcodec v (by simp [rewritten, hw, hv])
  have hgoal : ∀ {choice : CompressionChoice}, choice = { type := .uncompressed, bitWidth := 0 } ∨
      selectCompression v = some choice →
      (do let block ← writeBlock cc.blockSize choice v seg.block
          let stats ← build cc.type v
          pure { seg with block, compression := choice.type, stats }) = some seg' →
      ∃ w v out, decompress seg.block cc.type = some w ∧ change w = some v ∧
        (v.type = cc.type → decompress seg'.block cc.type = some out ∧ out.SameRows v) ∧
        build cc.type v = some seg'.stats ∧ seg'.rowCount = seg.rowCount := by
    intro choice hchoice h
    obtain ⟨block, hblock, h⟩ := bind_eq_some_iff.mp h
    obtain ⟨stats, hstats, h⟩ := bind_eq_some_iff.mp h
    cases h
    obtain ⟨out, hout, hsame⟩ := decompress_writeBlock (hrest choice hchoice) hblock
    exact ⟨w, v, out, hw, hv, fun ht => ⟨ht ▸ hout, hsame⟩, hstats, rfl⟩
  split at h
  · exact hgoal (.inl rfl) h
  · obtain ⟨choice, hchoice, h⟩ := bind_eq_some_iff.mp h
    exact hgoal (.inr hchoice) h

/-! ## Writing -/

/-- The vectors that the segment loop of `WriteRow` compresses. -/
def writeRowCompresses (cc : ColumnChunk) (src : DataVector) (srcIdx : ℕ) :
    List ColumnSegment → ℕ → List DataVector
  | [], _ => []
  | seg :: segs, rowOffset =>
    if rowOffset < seg.rowCount then
      cc.rewritten seg fun vec => vec.writeValue cc.type rowOffset src srcIdx
    else writeRowCompresses cc src srcIdx segs (rowOffset - seg.rowCount)

variable {src : DataVector} {segs : List ColumnSegment}

/-- `WriteRow` rewrites the segment that holds the row, or leaves the row to the pending
vector. -/
theorem writeRowIn_inv {srcIdx o : ℕ} {res : List ColumnSegment ⊕ ℕ}
    (h : cc.writeRowIn src srcIdx segs o = some res) :
    (∃ pre seg post seg', segs = pre ++ seg :: post ∧ res = .inl (pre ++ seg' :: post) ∧
      (pre.map ColumnSegment.rowCount).sum ≤ o ∧
      o < (pre.map ColumnSegment.rowCount).sum + seg.rowCount ∧
      cc.writeRowCompresses src srcIdx segs o = cc.rewritten seg (fun vec =>
        vec.writeValue cc.type (o - (pre.map ColumnSegment.rowCount).sum) src srcIdx) ∧
      cc.rewriteSegment seg (fun vec =>
        vec.writeValue cc.type (o - (pre.map ColumnSegment.rowCount).sum) src srcIdx) =
        some seg') ∨
    ((segs.map ColumnSegment.rowCount).sum ≤ o ∧
      res = .inr (o - (segs.map ColumnSegment.rowCount).sum)) := by
  induction segs generalizing o res with
  | nil =>
    cases h
    exact .inr ⟨by simp, by simp⟩
  | cons seg segs ih =>
    rw [writeRowIn] at h
    split at h
    next hlt =>
      obtain ⟨seg', hseg, h⟩ := bind_eq_some_iff.mp h
      cases h
      refine .inl ⟨[], seg, segs, seg', rfl, rfl, by simp, by simpa using hlt, ?_, by simpa using hseg⟩
      simp [writeRowCompresses, hlt]
    next hge =>
      obtain ⟨res', hrest, h⟩ := bind_eq_some_iff.mp h
      rcases ih hrest with ⟨pre, seg₁, post, seg', rfl, rfl, hle, hlt, hcomp, hseg⟩ | ⟨hle, rfl⟩
      · cases h
        have hsum : (map ColumnSegment.rowCount (seg :: pre)).sum =
            seg.rowCount + (pre.map ColumnSegment.rowCount).sum := by simp
        refine .inl ⟨seg :: pre, seg₁, post, seg', rfl, rfl, ?_⟩
        rw [hsum, ← Nat.sub_sub]
        refine ⟨by omega, by omega, ?_, hseg⟩
        rw [writeRowCompresses, if_neg hge, hcomp]
      · cases h
        refine .inr ⟨?_, ?_⟩
        · simp only [map_cons, sum_cons]
          omega
        · simp only [map_cons, sum_cons, Nat.sub_sub]

/-- The vectors that the segment loop of `WriteRows` compresses. -/
def writeRowsCompresses (cc : ColumnChunk) (src : DataVector) :
    List ColumnSegment → ℕ → List (ℕ × ℕ) → List DataVector
  | [], _, _ => []
  | seg :: segs, cur, writes =>
    if writes.isEmpty then []
    else
      let fin := cur + seg.rowCount
      let mine := writes.takeWhile fun w => w.1 < fin
      (if mine.isEmpty then [] else cc.rewritten seg (writeValues cc.type cur src mine)) ++
        writeRowsCompresses cc src segs fin (writes.dropWhile fun w => w.1 < fin)

variable {segs' : List ColumnSegment} {cur last : ℕ} {writes rest : List (ℕ × ℕ)}

/-- One segment of the loop, with writes left: it takes those below its end. -/
theorem exists_of_writeRowsIn (hempty : ¬ writes.isEmpty)
    (h : cc.writeRowsIn src (seg :: segs) cur writes = some (segs', last, rest)) :
    ∃ seg' segs₁, segs' = seg' :: segs₁ ∧
      (seg' = seg ∨ ¬ (writes.takeWhile fun w => w.1 < cur + seg.rowCount).isEmpty ∧
        cc.rewriteSegment seg (writeValues cc.type cur src
          (writes.takeWhile fun w => w.1 < cur + seg.rowCount)) = some seg') ∧
      cc.writeRowsIn src segs (cur + seg.rowCount)
        (writes.dropWhile fun w => w.1 < cur + seg.rowCount) = some (segs₁, last, rest) := by
  rw [writeRowsIn, if_neg hempty] at h
  dsimp only at h
  split at h
  next =>
    obtain ⟨_, ⟨⟩, h⟩ := bind_eq_some_iff.mp h
    obtain ⟨⟨segs₁, last₁, rest₁⟩, hrun, h⟩ := bind_eq_some_iff.mp h
    cases h
    exact ⟨seg, segs₁, rfl, .inl rfl, hrun⟩
  next hmine =>
    obtain ⟨seg', hseg, h⟩ := bind_eq_some_iff.mp h
    obtain ⟨⟨segs₁, last₁, rest₁⟩, hrun, h⟩ := bind_eq_some_iff.mp h
    cases h
    exact ⟨seg', segs₁, rfl, .inr ⟨hmine, hseg⟩, hrun⟩

/-- `WriteRows` leaves a segment as it is or writes some of the rows over it; what is left
is for the pending rows, which begin after the last segment. -/
theorem writeRowsIn_inv (h : cc.writeRowsIn src segs cur writes = some (segs', last, rest)) :
    Forall₂ (fun seg seg' => seg' = seg ∨ ∃ base mine, mine ⊆ writes ∧
      (∀ v ∈ cc.rewritten seg (writeValues cc.type base src mine),
        v ∈ cc.writeRowsCompresses src segs cur writes) ∧
      cc.rewriteSegment seg (writeValues cc.type base src mine) = some seg') segs segs' ∧
    rest ⊆ writes ∧ (rest ≠ [] → last = cur + (segs.map ColumnSegment.rowCount).sum) := by
  induction segs generalizing segs' cur last writes rest with
  | nil =>
    cases h
    exact ⟨.nil, fun _ h => h, fun _ => by simp⟩
  | cons seg segs ih =>
    by_cases hempty : writes.isEmpty
    · rw [writeRowsIn, if_pos hempty] at h
      cases h
      exact ⟨forall₂_same.mpr fun _ _ => .inl rfl, fun _ h => absurd h not_mem_nil,
        fun hne => absurd rfl hne⟩
    · obtain ⟨seg', segs₁, rfl, hseg, hrun⟩ := exists_of_writeRowsIn hempty h
      obtain ⟨hall, hsub, hlast⟩ := ih hrun
      have hdrop : (writes.dropWhile fun w => w.1 < cur + seg.rowCount) ⊆ writes :=
        (dropWhile_sublist _).subset
      refine ⟨.cons ?_ (hall.imp fun seg₁ seg₂ hor => ?_), Subset.trans hsub hdrop,
        fun hne => ?_⟩
      · refine hseg.imp_right fun ⟨hmine, hre⟩ =>
          ⟨cur, _, (takeWhile_sublist _).subset, fun v hv => ?_, hre⟩
        rw [writeRowsCompresses, if_neg hempty]
        dsimp only
        rw [if_neg hmine]
        exact mem_append_left _ hv
      · refine hor.imp_right fun ⟨base, mine, hmine, hcomp, hre⟩ => ?_
        refine ⟨base, mine, Subset.trans hmine hdrop, fun v hv => ?_, hre⟩
        rw [writeRowsCompresses, if_neg hempty]
        exact mem_append_right _ (hcomp v hv)
      · rw [hlast hne, map_cons, sum_cons, add_assoc]

/-- `WriteRows` does nothing, or writes over the segments and then over the pending rows. -/
theorem writeRows_cases {rowOffsets : List ℕ} {res : Except Error Unit}
    (h : writeRows rowOffsets src cc = some (res, cc')) :
    cc' = cc ∨ rowOffsets.IsChain (· ≤ ·) ∧ ∃ segments cur rest,
      cc.writeRowsIn src cc.segments 0 rowOffsets.zipIdx = some (segments, cur, rest) ∧
      forEach rest (writePending cur src) { cc with segments } = some (res, cc') := by
  rw [writeRows] at h
  split at h
  · cases h
    exact .inl rfl
  · split at h
    · cases h
      exact .inl rfl
    · split at h
      next =>
        cases h
        exact .inl rfl
      next hchain =>
        rw [bind_run_ok get_run] at h
        cases hin : cc.writeRowsIn src cc.segments 0 rowOffsets.zipIdx with
        | none => simp [bind_run, hin] at h
        | some r =>
          obtain ⟨segments, cur, rest⟩ := r
          rw [hin] at h
          dsimp only at h
          exact .inr ⟨not_not.mp hchain, segments, cur, rest, rfl, h⟩

variable {cc' : ColumnChunk} {res : Except Error Unit}

theorem writePending_cases {w : ℕ × ℕ} (h : writePending cur src w cc = some (res, cc')) :
    cc' = cc ∨ cur ≤ w.1 ∧ w.1 - cur < cc.pendingData.count ∧
      ∃ p, cc.pendingData.writeValue cc.type (w.1 - cur) src w.2 = some p ∧
        cc' = { cc with pendingData := p } := by
  rw [writePending, bind_run_ok get_run] at h
  split at h
  next =>
    cases h
    exact .inl rfl
  next hin =>
    push Not at hin
    cases hv : cc.pendingData.writeValue cc.type (w.1 - cur) src w.2 with
    | none => simp [bind_run, hv] at h
    | some p =>
      rw [hv] at h
      cases h
      exact .inr ⟨hin.1, hin.2, p, rfl, rfl⟩

/-- `WriteRow` rewrites the segment that holds the row, or writes over a pending row; past the
end it throws. -/
theorem writeRow_cases {o srcIdx : ℕ} (h : writeRow o src srcIdx cc = some (res, cc')) :
    o < cc.segmentRowCount ∧ (∃ pre seg post seg', ∃ change : DataVector → Option DataVector,
      (∀ v w, change v = some w → ∃ idx, v.writeValue cc.type idx src srcIdx = some w) ∧
      cc.segments = pre ++ seg :: post ∧ cc' = { cc with segments := pre ++ seg' :: post } ∧
      cc.writeRowCompresses src srcIdx cc.segments o = cc.rewritten seg change ∧
      cc.rewriteSegment seg change = some seg') ∨
    cc.segmentRowCount ≤ o ∧ (cc.rowCount ≤ o ∧ cc' = cc ∨
      o - cc.segmentRowCount < cc.pendingData.count ∧
      ∃ p, cc.pendingData.writeValue cc.type (o - cc.segmentRowCount) src srcIdx = some p ∧
        cc' = { cc with pendingData := p }) := by
  rw [writeRow, bind_run_ok get_run] at h
  cases hin : cc.writeRowIn src srcIdx cc.segments o with
  | none => simp [bind_run, hin] at h
  | some r =>
    rw [hin, bind_run_ok (ofOption_run _)] at h
    rcases writeRowIn_inv hin with ⟨pre, seg, post, seg', hsegs, rfl, _, hlt, hcomp, hre⟩ | ⟨hle, rfl⟩
    · cases h
      refine .inl ⟨?_, pre, seg, post, seg', _, fun v w hv => ⟨_, hv⟩, hsegs, rfl, hcomp, hre⟩
      rw [segmentRowCount, hsegs, map_append, sum_append, map_cons, sum_cons]
      omega
    · refine .inr ⟨hle, ?_⟩
      rw [← segmentRowCount] at h
      dsimp only at h
      split at h
      next hge =>
        cases h
        exact .inl ⟨Nat.add_le_of_le_sub' hle hge, rfl⟩
      next hlt =>
        cases hv : cc.pendingData.writeValue cc.type (o - cc.segmentRowCount) src srcIdx with
        | none => simp [bind_run, hv] at h
        | some p =>
          rw [hv] at h
          cases h
          exact .inr ⟨Nat.lt_of_not_le hlt, p, rfl, rfl⟩

end ColumnChunk

namespace RowGroup

open ColumnChunk

variable {start : ℕ} {cc : ColumnChunk}

@[simp] theorem segmentRowCount_revertColumn :
    (revertColumn start cc).segmentRowCount = cc.segmentRowCount := by
  rw [revertColumn]
  split <;> simp

theorem revertColumn_revertColumn : revertColumn start (revertColumn start cc) =
    revertColumn start cc := by
  rw [revertColumn, segmentRowCount_revertColumn, revertColumn]
  split <;> exact truncatePending_truncatePending

/-- A reverted column ends where the append began, unless rows past that were flushed. -/
theorem rowCount_revertColumn_le {n : ℕ} (hn : start ≤ n) :
    (revertColumn start cc).rowCount ≤ n ↔ cc.segmentRowCount ≤ n := by
  rw [ColumnChunk.rowCount, segmentRowCount_revertColumn, revertColumn]
  split
  next h =>
    rw [pendingCount_truncatePending]
    omega
  next h =>
    rw [pendingCount_truncatePending]
    omega

/-- Rows before the append keep their contents. -/
theorem cell?_revertColumn {o : ℕ} (ho : o < start) :
    (revertColumn start cc).cell? o = cc.cell? o := by
  rw [revertColumn]
  split
  next h => exact cell?_truncatePending (by omega)
  next h => exact cell?_truncatePending (by omega)

end RowGroup

end CppColDB
