import CppColDB.Execution.JoinRows

/-!
# Vectors and their arrays

`BulkCopyRows` and `PhysicalSort::Consume` copy as many elements as a vector has rows. The
functions that append a row grow the array for a value only, so a NULL behind the last
element leaves a vector with fewer elements than rows. `BuildRun.carries_iff_nullsFit` says
which runs of the builders avoid this.
-/

namespace CppColDB

open ByteCodec List Option

namespace DataVector

/-- The array of the vector's type has at least `n` elements; INVALID has no array. -/
def Carries (v : DataVector) (n : ℕ) : Prop :=
  v.type.storageClass ≠ .none → n ≤ v.size v.type.storageClass

/-- `DataVectorFill`. A BOOLEAN is taken from the integers of the variant too. -/
def fill (val : Value) (count : ℕ) : Option (Except Error DataVector) :=
  let vec := reset val.type count
  if val.isNull then some (.ok vec)
  else if standardVectorSize < count then none
  else
    let vec := { vec with validity := vec.validity.putFrom 0 (replicate count true) }
    match val.type.storageClass, val.data with
    | .int, .int x => some (.ok { vec with intData := replicate count x })
    | .float, .float x => some (.ok { vec with floatData := replicate count x })
    | .str, .str x => some (.ok { vec with strData := replicate count x })
    | .none, _ => some (.ok vec)
    | _, _ => some (.error Error.badVariant)

/-- One call that builds a vector, and whether it appends a NULL. -/
inductive Builds (v : DataVector) : Bool → DataVector → Prop
  | reset (t : TypeId) (n : ℕ) : Builds v false (reset t n)
  | append {src w : DataVector} {i : ℕ} (h : v.append src i = some w) :
      Builds v (src.isNull i) w
  | appendValue {x : Value} {w : DataVector} (h : v.appendValue x = some (.ok w)) :
      Builds v x.isNull w
  | fill {val : Value} {n : ℕ} {w : DataVector} (h : fill val n = some (.ok w)) :
      Builds v false w
  | slice {src dst : DataChunk} {rows : List ℕ} {w : DataVector} (h : src.slice rows = some dst)
      (hw : w ∈ dst.columns) : Builds v false w
  | scan {cc : ColumnChunk} {o n : ℕ} {w : DataVector} (hcc : cc.pendingData.type = cc.type)
      (h : cc.scan o n = some w) : Builds v false w
  | scanRows {cc : ColumnChunk} {os : List ℕ} {w : DataVector}
      (hcc : cc.pendingData.type = cc.type) (h : cc.scanRows os = some w) : Builds v false w

/-- A run of such calls, with the vector after each of them. -/
inductive BuildRun : DataVector → List (Bool × DataVector) → Prop
  | nil {v : DataVector} : BuildRun v []
  | cons {v w : DataVector} {null : Bool} {steps : List (Bool × DataVector)}
      (h : Builds v null w) (hs : BuildRun w steps) : BuildRun v ((null, w) :: steps)

/-- A NULL is only appended where the array already has an element for it. -/
def NullsFit : DataVector → List (Bool × DataVector) → Prop
  | _, [] => True
  | v, (null, w) :: steps => (null = true → v.Carries (v.count + 1)) ∧ NullsFit w steps

/-! ## One call -/

variable {v w src : DataVector} {null : Bool} {i n : ℕ} {rows : List ℕ} {val : Value}

theorem carries_reset (t : TypeId) (n : ℕ) : (reset t n).Carries n := by
  intro hcls
  rw [reset_type] at hcls ⊢
  rw [reset]
  cases hc : t.storageClass <;> simp [size, hc] at hcls ⊢

/-- What appending a row does to the array. -/
structure Grown (v : DataVector) (null : Bool) (w : DataVector) : Prop where
  type : w.type = v.type
  count : w.count = v.count + 1
  size_le : v.size v.type.storageClass ≤ w.size v.type.storageClass
  carries_iff : w.Carries w.count ↔ (null = true → v.Carries (v.count + 1))

theorem size_le_size_grow (cls : TypeId.StorageClass) (i : ℕ) :
    v.size cls ≤ (v.grow cls i).size cls := by
  cases cls with
  | none => exact le_rfl
  | _ =>
    simp only [grow, size]
    split
    · rw [length_resize]; omega
    · exact le_rfl

/-- A value makes the array long enough. -/
theorem grown_store {m : Validity} {x : Datum} (hnull : ¬ null = true)
    (h : (grow { v with count := v.count + 1, validity := m } v.type.storageClass v.count).store
      v.count x = some w) : Grown v null w := by
  obtain ⟨htype, hcount, -, hsize⟩ := store_fields h
  generalize hu : ({ v with count := v.count + 1, validity := m } : DataVector) = u at *
  obtain ⟨htype', hcount', -⟩ := grow_fields (v := u) v.type.storageClass v.count
  have ht : w.type = v.type := by rw [htype, htype', ← hu]
  have hc : w.count = v.count + 1 := by rw [hcount, hcount', ← hu]
  refine ⟨ht, hc, ?_, iff_of_true (fun hcls => ?_) (absurd · hnull)⟩
  · rw [hsize]
    exact (by rw [← hu]; exact le_rfl : _ ≤ u.size _).trans (size_le_size_grow _ v.count)
  · rw [ht] at hcls ⊢
    rw [hsize, hc]
    exact lt_size_grow hcls v.count

theorem grown_same (h : null = true ∨ v.type.storageClass = .none) (m : Validity) :
    Grown v null { v with count := v.count + 1, validity := m } :=
  ⟨rfl, rfl, le_rfl, fun hw _ => hw, fun hv hcls => hv (h.resolve_right hcls) hcls⟩

theorem grown_append (h : v.append src i = some w) : Grown v (src.isNull i) w := by
  rw [append] at h
  split at h
  · cases h
  split at h
  next hnull =>
    cases h
    exact grown_same (.inl hnull) _
  next hnull =>
    dsimp only at h
    split at h
    next hcls =>
      cases h
      exact grown_same (.inr hcls) _
    next =>
      obtain ⟨x, -, hstore⟩ := bind_eq_some_iff.mp h
      exact grown_store hnull hstore

theorem grown_appendValue (h : v.appendValue val = some (.ok w)) :
    Grown v val.isNull w := by
  rw [appendValue] at h
  split at h
  · cases h
  split at h
  next hnull =>
    cases h
    exact grown_same (.inl hnull) _
  next hnull =>
    dsimp only at h
    split at h
    next hcls =>
      cases h
      exact grown_same (.inr hcls) _
    next =>
      split at h
      · cases h
      · obtain ⟨w', hstore, hw⟩ := map_eq_some_iff.mp h
        cases hw
        exact grown_store hnull hstore

/-- `DataChunkSlice` sets the array up for all the rows. -/
theorem carries_foldlM_append
    (h : rows.foldlM (fun dst idx => dst.append src idx) v = some w) (hv : v.Carries n) :
    w.Carries n ∧ w.count = v.count + rows.length := by
  induction rows generalizing v with
  | nil =>
    cases h
    exact ⟨hv, rfl⟩
  | cons idx rows ih =>
    rw [foldlM_cons] at h
    obtain ⟨mid, hmid, hrest⟩ := bind_eq_some_iff.mp h
    have hgrown := grown_append hmid
    obtain ⟨hw, hcount⟩ := ih hrest fun hcls =>
      (hv (hgrown.type ▸ hcls)).trans (hgrown.type ▸ hgrown.size_le)
    refine ⟨hw, ?_⟩
    rw [hcount, hgrown.count, length_cons]
    omega

theorem carries_slice {chunk dst : DataChunk} (h : chunk.slice rows = some dst)
    (hw : w ∈ dst.columns) : w.Carries w.count := by
  obtain ⟨columns, hcolumns, hdst⟩ := bind_eq_some_iff.mp h
  cases hdst
  obtain ⟨col, -, hcol⟩ := (mapM_eq_some_iff.mp hcolumns).exists_of_mem_right hw
  obtain ⟨htype, hzero⟩ := reserve_reset_fields col.type rows.length
  have hreserve : ((reset col.type 0).reserve rows.length).Carries rows.length := by
    intro hcls
    rw [htype] at hcls ⊢
    rw [reset_zero, reserve]
    cases hc : col.type.storageClass <;> simp [size, hc, length_resize] at hcls ⊢
  obtain ⟨hcarries, hcount⟩ := carries_foldlM_append hcol hreserve
  rwa [hcount, hzero, zero_add]

/-! ## Scans -/

theorem type_decompress {bs : Bytes} {t : TypeId} (h : decompress bs t = some v) : v.type = t := by
  obtain ⟨⟨⟨scheme, count, size⟩, map⟩, -, hrows⟩ := bind_eq_some_iff.mp h
  unfold decompressRows at hrows
  dsimp only at hrows
  -- every scheme fills in a fresh vector of the column's type
  split at hrows <;> try split at hrows
  all_goals
    simp only [bind_eq_bind, bind_eq_some_iff, applyBitmap] at hrows
    grind [withIntRows, withStrRows, withInts, reset_type]

/-- A vector of the column's type whose array reaches as far as its rows. -/
structure Scanned (t : TypeId) (v : DataVector) : Prop where
  type : v.type = t
  tidy : t.storageClass ≠ .none → v.Tidy

variable {t : TypeId}

theorem Scanned.carries (h : Scanned t v) : v.Carries v.count :=
  fun hcls => (h.tidy (h.type ▸ hcls)).stored

theorem Scanned.bulkCopyRows (hv : Scanned t v) (hsrc : src.type = t)
    (h : v.bulkCopyRows src i n = some w) : Scanned t w where
  type := (bulkCopyRows_fields h).1.trans hv.type
  tidy hcls := Tidy.bulkCopyRows (by rw [hsrc, hv.type]) (hv.tidy hcls) h

variable {cc : ColumnChunk} {segs : List ColumnSegment} (hcc : cc.pendingData.type = cc.type)
include hcc

theorem Scanned.scanFrom (hv : Scanned cc.type v) (h : cc.scanFrom segs i n v = some w) :
    Scanned cc.type w := by
  induction segs generalizing i n v with
  | nil =>
    rw [ColumnChunk.scanFrom] at h
    split at h
    · cases h; exact hv
    · dsimp only at h
      split at h
      · cases h; exact hv
      · exact hv.bulkCopyRows hcc h
  | cons seg segs ih =>
    rw [ColumnChunk.scanFrom] at h
    split at h
    · cases h; exact hv
    · obtain ⟨scratch, hscratch, h⟩ := bind_eq_some_iff.mp h
      obtain ⟨out, hout, h⟩ := bind_eq_some_iff.mp h
      have hout' := hv.bulkCopyRows (type_decompress hscratch) hout
      split at h
      · exact ih hout' h
      · cases h; exact hout'

theorem Scanned.scanRowsIn {os : List ℕ} (hv : Scanned cc.type v)
    (h : cc.scanRowsIn segs i os v = some w) : Scanned cc.type w := by
  induction segs generalizing i os v with
  | nil => exact invariant_foldlM (fun _ _ _ hv => hv.bulkCopyRows hcc) hv h
  | cons seg segs ih =>
    rw [ColumnChunk.scanRowsIn] at h
    split at h
    · cases h; exact hv
    · dsimp only at h
      split at h
      · exact ih hv h
      · obtain ⟨scratch, hscratch, h⟩ := bind_eq_some_iff.mp h
        obtain ⟨out, hout, h⟩ := bind_eq_some_iff.mp h
        have hsrc := type_decompress hscratch
        exact ih (invariant_foldlM (fun _ _ _ hv => hv.bulkCopyRows hsrc) hv hout) h

omit hcc

theorem carries_fill (h : fill val n = some (.ok w)) : w.Carries w.count := by
  rw [fill] at h
  split at h
  · cases h
    rw [reset_count]
    exact carries_reset val.type n
  split at h
  · cases h
  dsimp only at h
  split at h <;> cases h <;> intro hcls <;> simp_all [size]

/-! ## Runs -/

/-- One call, exactly: only a NULL behind the last element breaks the rule. -/
theorem Builds.carries_iff (h : Builds v null w) :
    w.Carries w.count ↔ (null = true → v.Carries (v.count + 1)) := by
  have hscanned (t : TypeId) : Scanned t (DataVector.reset t 0) := ⟨reset_type t 0, tidy_reset⟩
  cases h with
  | reset t n => exact iff_of_true (by rw [reset_count]; exact carries_reset t n) nofun
  | append h => exact (grown_append h).carries_iff
  | appendValue h => exact (grown_appendValue h).carries_iff
  | fill h => exact iff_of_true (carries_fill h) nofun
  | slice h hw => exact iff_of_true (carries_slice h hw) nofun
  | scan hcc h => exact iff_of_true (Scanned.scanFrom hcc (hscanned _) h).carries nofun
  | scanRows hcc h => exact iff_of_true (Scanned.scanRowsIn hcc (hscanned _) h).carries nofun

/-- **A run of builders keeps the array of the type as long as the vector** in every state
it reaches, exactly when every NULL finds an element waiting for it. -/
theorem BuildRun.carries_iff_nullsFit {steps : List (Bool × DataVector)} (h : BuildRun v steps) :
    (∀ s ∈ steps, s.2.Carries s.2.count) ↔ NullsFit v steps := by
  induction h with
  | nil => simp [NullsFit]
  | cons h _ ih => rw [forall_mem_cons, NullsFit, h.carries_iff, ih]

theorem carries_reset_append : ∃ w, BuildRun {} [(false, DataVector.reset .int64 0), (false, w)] ∧
    w.Carries w.count := by
  have hrun : BuildRun {} [(false, DataVector.reset .int64 0), (false, _)] :=
    .cons (.reset .int64 0) (.cons (.appendValue (x := { type := .int64, data := .int 5 }) rfl) .nil)
  exact ⟨_, hrun, hrun.carries_iff_nullsFit.mpr ⟨nofun, nofun, trivial⟩ _ (.tail _ (.head _))⟩

/-- A NULL appended to an empty vector: `Consume` copies an element that is not there. -/
theorem not_carries_null : ∃ w, BuildRun {} [(false, DataVector.reset .int64 0), (true, w)] ∧
    ¬ w.Carries w.count :=
  ⟨_, .cons (.reset .int64 0) (.cons (.appendValue (x := {}) rfl) .nil), by
    simp [Carries, DataVector.reset, size, TypeId.storageClass]⟩

end DataVector

end CppColDB
