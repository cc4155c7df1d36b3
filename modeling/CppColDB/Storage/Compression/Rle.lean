import Mathlib.Data.List.TakeWhile
import CppColDB.Lib.Bytes

/-!
# Run-length encoding

`RleEncode` and `RleDecode`. A row is an optional value: `none` is a row whose validity
bit is clear. A run of NULLs is a tag and a count, a run of one value is a tag, the value
and a count. The decoder stops once it has produced the requested number of rows.
-/

namespace CppColDB

open ByteCodec List Reader

def tagNull : UInt8 := 0x00
def tagValue : UInt8 := 0x01

/-- The length of the run of rows equal to `row` at the front. -/
def runLength (row : Option Int64) (rows : List (Option Int64)) : ℕ :=
  (rows.takeWhile (· == row)).length

/-- One run: a tag, the value unless the run is of NULLs, and the count. -/
def rleRun : Option Int64 → ℕ → Bytes
  | none, run => tagNull :: leBytes 4 run
  | some val, run => tagValue :: (i64Bytes val ++ leBytes 4 run)

/-- The outer loop of `RleEncode`, one run per iteration. -/
def rleEncodeLoop : ℕ → List (Option Int64) → Bytes
  | 0, _ => []
  | _ + 1, [] => []
  | fuel + 1, row :: rows =>
    let run := runLength row rows
    rleRun row (run + 1) ++ rleEncodeLoop fuel (rows.drop run)

def rleEncode (rows : List (Option Int64)) : Bytes :=
  rleEncodeLoop rows.length rows

/-- Read one run. Every tag but `tagNull` is taken for a run of a value. -/
def rleReadRun : Reader (Option Int64 × ℕ) := do
  let tag ← byte
  if tag = tagNull then
    let count ← le 4
    pure (none, count)
  else
    let val ← i64
    let count ← le 4
    pure (some val, count)

/-- The outer loop of `RleDecode`, with the number of rows still to produce. Every
iteration consumes bytes, so the length of the input is enough fuel. -/
def rleDecodeLoop : ℕ → ℕ → Reader (List (Option Int64))
  | _, 0 => pure []
  | 0, _ + 1 => failure
  | fuel + 1, remaining => do
    let (row, count) ← rleReadRun
    let rows ← rleDecodeLoop fuel (remaining - count)
    pure (replicate (min count remaining) row ++ rows)

def rleDecode (rowCount : ℕ) : Reader (List (Option Int64)) := fun input =>
  rleDecodeLoop input.length rowCount input

/-! ## Round trip -/

theorem runLength_le (row : Option Int64) (rows : List (Option Int64)) :
    runLength row rows ≤ rows.length :=
  (takeWhile_sublist _).length_le

theorem replicate_runLength_append (row : Option Int64) (rows : List (Option Int64)) :
    replicate (runLength row rows) row ++ rows.drop (runLength row rows) = rows := by
  induction rows with
  | nil => rfl
  | cons r rows ih =>
    by_cases h : r = row
    · have hrun : runLength row (r :: rows) = runLength row rows + 1 := by
        simp [runLength, h]
      rw [hrun, replicate_succ, cons_append, drop_succ_cons, ih, h]
    · have hrun : runLength row (r :: rows) = 0 := by simp [runLength, h]
      rw [hrun, replicate_zero, drop_zero, nil_append]

theorem reads_rleReadRun (row : Option Int64) {run : ℕ} (h : run < 2 ^ 32) :
    Reads rleReadRun (rleRun row run) (row, run) := by
  cases row with
  | none =>
    exact (reads_byte tagNull).bind ((reads_le h).map fun count => (none, count))
  | some val =>
    exact (reads_byte tagValue).bind ((reads_i64 val).bind
      ((reads_le h).map fun count => (some val, count)))

variable {rows : List (Option Int64)}

private theorem reads_rleDecodeLoop {fuel dfuel : ℕ} (hfuel : rows.length ≤ fuel)
    (hdfuel : (rleEncodeLoop fuel rows).length ≤ dfuel) (hlen : rows.length < 2 ^ 32) :
    Reads (rleDecodeLoop dfuel rows.length) (rleEncodeLoop fuel rows) rows := by
  induction fuel generalizing rows dfuel with
  | zero =>
    have hnil : rows = [] := length_eq_zero_iff.mp (Nat.le_zero.mp hfuel)
    subst hnil
    cases dfuel <;> exact reads_pure []
  | succ fuel ih =>
    cases rows with
    | nil => cases dfuel <;> exact reads_pure []
    | cons row rows =>
      have hrun := runLength_le row rows
      simp only [length_cons] at hfuel hlen ⊢
      simp only [rleEncodeLoop] at hdfuel ⊢
      have hpos : 0 < (rleRun row (runLength row rows + 1)).length := by
        cases row <;> simp [rleRun]
      rw [length_append] at hdfuel
      obtain ⟨dfuel, rfl⟩ : ∃ d, dfuel = d + 1 := ⟨dfuel - 1, by omega⟩
      have hrest : Reads (rleDecodeLoop dfuel (rows.drop (runLength row rows)).length)
          (rleEncodeLoop fuel (rows.drop (runLength row rows)))
          (rows.drop (runLength row rows)) := by
        apply ih
        · rw [length_drop]; omega
        · omega
        · rw [length_drop]; omega
      have hcount : rows.length + 1 - (runLength row rows + 1) =
          (rows.drop (runLength row rows)).length := by
        rw [length_drop]; omega
      have hout : replicate (min (runLength row rows + 1) (rows.length + 1)) row ++
          rows.drop (runLength row rows) = row :: rows := by
        rw [Nat.min_eq_left (by omega), replicate_succ, cons_append, replicate_runLength_append]
      refine (reads_rleReadRun row (by omega)).bind ?_
      simp only [hcount]
      have hmap := hrest.map fun out =>
        replicate (min (runLength row rows + 1) (rows.length + 1)) row ++ out
      rwa [hout] at hmap

/-- Run-length decoding gives back every row, NULLs included. -/
theorem rleDecode_rleEncode (hlen : rows.length < 2 ^ 32)
    (rest : Bytes) : rleDecode rows.length (rleEncode rows ++ rest) = some (rows, rest) := by
  refine reads_rleDecodeLoop (le_refl _) ?_ hlen rest
  rw [length_append]
  exact Nat.le_add_right _ _

/-- A run takes at most a tag, a word and a count, and covers at least one row. -/
theorem length_rleEncodeLoop_le (fuel : ℕ) (rows : List (Option Int64)) :
    (rleEncodeLoop fuel rows).length ≤ 13 * rows.length := by
  induction fuel generalizing rows with
  | zero => exact Nat.zero_le _
  | succ fuel ih =>
    cases rows with
    | nil => exact Nat.zero_le _
    | cons row rows =>
      have hrun : (rleRun row (runLength row rows + 1)).length ≤ 13 := by
        cases row <;> simp [rleRun]
      have hrest := ih (rows.drop (runLength row rows))
      rw [length_drop] at hrest
      rw [rleEncodeLoop, length_append, length_cons]
      omega

/-- **Run-length round trip**: decoding gives back every row and stops right behind the
encoding, which takes at most 13 bytes per row. -/
theorem rle_round_trip (hlen : rows.length < 2 ^ 32) :
    (∀ rest, rleDecode rows.length (rleEncode rows ++ rest) = some (rows, rest)) ∧
      (rleEncode rows).length ≤ 13 * rows.length :=
  ⟨rleDecode_rleEncode hlen, length_rleEncodeLoop_le _ rows⟩

theorem rle_round_trip_nulls :
    rleDecode 4 (rleEncode [none, some 7, some 7, none] ++ [1]) =
      some ([none, some 7, some 7, none], [1]) :=
  (@rle_round_trip [none, some 7, some 7, none] (by decide)).1 [1]

end CppColDB
