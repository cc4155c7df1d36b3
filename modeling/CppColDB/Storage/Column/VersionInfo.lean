import Mathlib.Data.Finmap
import CppColDB.Common.Types

/-!
# Version markers of a row group

`VersionInfo` keeps at most one marker per row, the latest, and three counters that
`AllInsertedVisibleTo` reads in place of the markers. The counters are signed and are
changed by every call that finds a marker, whatever marker it finds. They are an `int` each in
the source and unbounded here.
-/

namespace CppColDB

/-- Transaction identifiers; `0` is `INVALID_TRANSACTION`. -/
abbrev TransactionId := ℕ

def invalidTransaction : TransactionId := 0

/-- Snapshot and commit times. -/
abbrev Timestamp := ℤ

/-- The commit time of what is not committed. -/
def invalidTimestamp : Timestamp := -1

theorem next_ne_invalid {now : Timestamp} (h : 0 ≤ now) : now + 1 ≠ invalidTimestamp :=
  ((show invalidTimestamp < 0 by decide).trans_le (Int.le_add_one h)).ne'

inductive VersionMarkerType where
  | delete | insert | update
  deriving DecidableEq, Repr

structure VersionMarker where
  type : VersionMarkerType
  txId : TransactionId
  commitTime : Timestamp := invalidTimestamp
  deriving DecidableEq, Repr

/-- The two fields of a transaction that visibility reads. -/
structure Snapshot where
  txId : TransactionId
  startTime : Timestamp
  deriving DecidableEq, Repr

/-- Per-row-group markers, by row offset, with the counters of the scan's fast path. -/
structure VersionInfo where
  markers : Finmap (fun _ : ℕ => VersionMarker) := ∅
  uncommittedCount : ℤ := 0
  deleteUpdateCount : ℤ := 0
  maxInsertCommitTime : Timestamp := 0

namespace VersionInfo

variable (vi : VersionInfo) (rowOffset : ℕ)

def marker? : Option VersionMarker := vi.markers.lookup rowOffset

/-- Put an uncommitted marker in the place of whatever the row had. -/
def mark (type : VersionMarkerType) (txId : TransactionId) : VersionInfo :=
  { vi with
    markers := vi.markers.insert rowOffset { type, txId }
    uncommittedCount := vi.uncommittedCount + 1
    deleteUpdateCount := vi.deleteUpdateCount + if type = .insert then 0 else 1 }

/-- Stamp the row's marker, of whatever kind and owner, with a commit time. -/
def stamp (commitTime : Timestamp) : VersionInfo :=
  match vi.marker? rowOffset with
  | some m =>
    { vi with
      markers := vi.markers.insert rowOffset { m with commitTime }
      uncommittedCount := vi.uncommittedCount - 1 }
  | none => vi

/-- Erase the row's marker and, if there was one, lower the two counters. -/
def eraseMarker (uncommitted deleteUpdate : ℤ) : VersionInfo :=
  match vi.marker? rowOffset with
  | some _ =>
    { vi with
      markers := vi.markers.erase rowOffset
      uncommittedCount := vi.uncommittedCount - uncommitted
      deleteUpdateCount := vi.deleteUpdateCount - deleteUpdate }
  | none => vi

def markDeleted (txId : TransactionId) : VersionInfo := vi.mark rowOffset .delete txId

def commitDelete (commitTime : Timestamp) : VersionInfo := vi.stamp rowOffset commitTime

/-- Lowers the count of deletes and updates only. -/
def clearDeleteMarker : VersionInfo := vi.eraseMarker rowOffset 0 1

def markInserted (txId : TransactionId) : VersionInfo := vi.mark rowOffset .insert txId

/-- As `commitDelete`, and raises the greatest insert commit time. -/
def commitInsert (commitTime : Timestamp) : VersionInfo :=
  match vi.marker? rowOffset with
  | some _ =>
    { vi.stamp rowOffset commitTime with
      maxInsertCommitTime :=
        if vi.maxInsertCommitTime < commitTime then commitTime else vi.maxInsertCommitTime }
  | none => vi

def revertInsert : VersionInfo := vi.eraseMarker rowOffset 1 0

def markUpdated (txId : TransactionId) : VersionInfo := vi.mark rowOffset .update txId

def commitUpdate (commitTime : Timestamp) : VersionInfo := vi.stamp rowOffset commitTime

def revertUpdate : VersionInfo := vi.eraseMarker rowOffset 1 1

/-- Whether a transaction sees the row. -/
def isVisible (tx : Snapshot) : Bool :=
  match vi.marker? rowOffset with
  | none => true
  | some m =>
    match m.type with
    | .delete =>
      if m.txId = tx.txId then false
      else if m.commitTime = invalidTimestamp then true
      else if m.commitTime < tx.startTime then false
      else true
    | .insert | .update =>
      if m.txId = tx.txId then true
      else if m.commitTime = invalidTimestamp then false
      else if m.commitTime < tx.startTime then true
      else false

def hasAnyMarkers : Bool := vi.markers ≠ ∅

def hasUncommittedMarkers : Bool :=
  vi.markers.any fun _ m => m.commitTime = invalidTimestamp

def allInsertedVisibleTo (txStart : Timestamp) : Bool :=
  vi.uncommittedCount = 0 && vi.deleteUpdateCount = 0 && vi.maxInsertCommitTime < txStart

/-! ## What each call does to the markers -/

section Marker

variable {vi} {off off' : ℕ}

theorem marker?_mark (type : VersionMarkerType) (txId : TransactionId) :
    (vi.mark off type txId).marker? off' =
      if off' = off then some { type, txId } else vi.marker? off' := by
  by_cases h : off' = off
  · subst h
    simp [mark, marker?]
  · simp [mark, marker?, h]

variable {ct : Timestamp}

theorem stamp_of_none (h : vi.marker? off = none) : vi.stamp off ct = vi := by
  rw [stamp, h]

variable {m : VersionMarker} {a b : ℤ}

theorem stamp_of_some (h : vi.marker? off = some m) : vi.stamp off ct =
      { vi with
        markers := vi.markers.insert off { m with commitTime := ct }
        uncommittedCount := vi.uncommittedCount - 1 } := by
  rw [stamp, h]

theorem marker?_stamp (ct : Timestamp) : (vi.stamp off ct).marker? off' =
      if off' = off then (vi.marker? off).map ({ · with commitTime := ct })
      else vi.marker? off' := by
  cases hm : vi.marker? off with
  | none =>
    rw [stamp_of_none hm]
    split
    next h => simp [h, hm]
    next h => rfl
  | some m =>
    rw [stamp_of_some hm]
    split
    next h =>
      subst h
      simp [marker?]
    next h => simp [marker?, Finmap.lookup_insert_of_ne _ h]

theorem commitInsert_of_none (h : vi.marker? off = none) :
    vi.commitInsert off ct = vi := by
  rw [commitInsert, h]

theorem commitInsert_of_some (h : vi.marker? off = some m) : vi.commitInsert off ct =
      { vi.stamp off ct with maxInsertCommitTime := max vi.maxInsertCommitTime ct } := by
  rw [commitInsert, h, max_def_lt]

theorem marker?_commitInsert (ct : Timestamp) : (vi.commitInsert off ct).marker? off' =
      if off' = off then (vi.marker? off).map ({ · with commitTime := ct })
      else vi.marker? off' := by
  rw [← marker?_stamp]
  cases hm : vi.marker? off with
  | none => rw [commitInsert_of_none hm, stamp_of_none hm]
  | some m => rw [commitInsert_of_some hm]; rfl

theorem eraseMarker_of_none (h : vi.marker? off = none) :
    vi.eraseMarker off a b = vi := by
  rw [eraseMarker, h]

theorem eraseMarker_of_some (h : vi.marker? off = some m) : vi.eraseMarker off a b =
      { vi with
        markers := vi.markers.erase off
        uncommittedCount := vi.uncommittedCount - a
        deleteUpdateCount := vi.deleteUpdateCount - b } := by
  rw [eraseMarker, h]

theorem marker?_eraseMarker (a b : ℤ) :
    (vi.eraseMarker off a b).marker? off' = if off' = off then none else vi.marker? off' := by
  cases hm : vi.marker? off with
  | none =>
    rw [eraseMarker_of_none hm]
    split
    next h => rw [h, hm]
    next h => rfl
  | some m =>
    rw [eraseMarker_of_some hm]
    split
    next h =>
      subst h
      simp [marker?]
    next h => simp [marker?, Finmap.lookup_erase_ne h]

/-- A call for each of several rows, where the call changes the marker of its row by `F`
and a second call on the same row changes nothing more. -/
theorem marker?_foldl {f : ℕ → VersionInfo → VersionInfo}
    {F : Option VersionMarker → Option VersionMarker} (hF : ∀ m, F (F m) = F m)
    (hf : ∀ off vi off', (f off vi).marker? off' =
      if off' = off then F (vi.marker? off) else vi.marker? off') (offs : List ℕ)
    (vi : VersionInfo) (o : ℕ) :
    (offs.foldl (fun vi off => f off vi) vi).marker? o =
      if o ∈ offs then F (vi.marker? o) else vi.marker? o := by
  induction offs generalizing vi with
  | nil => simp
  | cons off offs ih =>
    rw [List.foldl_cons, ih, hf]
    by_cases ho : o = off
    · subst ho
      by_cases hmem : o ∈ offs <;> simp [hF]
    · simp [ho]

theorem marker?_foldl_mark (type : VersionMarkerType) (txId : TransactionId) (offs : List ℕ)
    (vi : VersionInfo) (o : ℕ) :
    (offs.foldl (fun vi off => vi.mark off type txId) vi).marker? o =
      if o ∈ offs then some { type, txId } else vi.marker? o :=
  marker?_foldl (f := fun off vi => vi.mark off type txId) (F := fun _ => some { type, txId })
    (fun _ => rfl) (fun _ _ _ => marker?_mark type txId) offs vi o

theorem marker?_foldl_stamp (ct : Timestamp) (offs : List ℕ) (vi : VersionInfo) (o : ℕ) :
    (offs.foldl (fun vi off => vi.stamp off ct) vi).marker? o =
      if o ∈ offs then (vi.marker? o).map ({ · with commitTime := ct }) else vi.marker? o :=
  marker?_foldl (f := fun off vi => vi.stamp off ct)
    (F := Option.map ({ · with commitTime := ct })) (fun m => by cases m <;> rfl)
    (fun _ _ _ => marker?_stamp ct) offs vi o

theorem marker?_foldl_commitInsert (ct : Timestamp) (offs : List ℕ) (vi : VersionInfo) (o : ℕ) :
    (offs.foldl (fun vi off => vi.commitInsert off ct) vi).marker? o =
      if o ∈ offs then (vi.marker? o).map ({ · with commitTime := ct }) else vi.marker? o :=
  marker?_foldl (f := fun off vi => vi.commitInsert off ct)
    (F := Option.map ({ · with commitTime := ct })) (fun m => by cases m <;> rfl)
    (fun _ _ _ => marker?_commitInsert ct) offs vi o

theorem marker?_foldl_eraseMarker (a b : ℤ) (offs : List ℕ) (vi : VersionInfo) (o : ℕ) :
    (offs.foldl (fun vi off => vi.eraseMarker off a b) vi).marker? o =
      if o ∈ offs then none else vi.marker? o :=
  marker?_foldl (f := fun off vi => vi.eraseMarker off a b) (F := fun _ => none)
    (fun _ => rfl) (fun _ _ _ => marker?_eraseMarker a b) offs vi o

theorem isVisible_congr {vi' : VersionInfo} (h : vi'.marker? off = vi.marker? off)
    (tx : Snapshot) : vi'.isVisible off tx = vi.isVisible off tx := by
  rw [isVisible, h, isVisible]

end Marker

end VersionInfo

end CppColDB
