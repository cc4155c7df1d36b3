import Mathlib.Tactic.Zify
import CppColDB.Storage.Compression.Select

/-!
# Round trip of column segments

What `Decompress` returns for the bytes of `Compress`, and for which vectors it is the
vector itself. Run-length, dictionary and plain encoding keep every row. Bit packing
computes its width from the non-NULL values but stores NULLs as 0, and delta encoding cuts
differences to 32 bits; `roundTrips_iff_compressible` states exactly which columns survive.
-/

namespace CppColDB

open BitBuffer ByteCodec DataVector Datum Function List Nat Option Reader Validity

/-! ## Rows of a vector -/

section Rows
variable {α : Type} {v : DataVector} {data : List α} {rows : List (Option α)}

theorem rows_eq_some_iff : v.rows data = some rows ↔
    v.count ≤ standardVectorSize ∧ rows.length = v.count ∧
      ∀ i < v.count, v.row data i = rows[i]? := by
  simp only [DataVector.rows]
  split
  next hcount =>
    rw [mapM_eq_some_iff, forall₂_iff_get]
    simp only [length_range, get_eq_getElem, getElem_range, hcount, true_and]
    constructor
    · rintro ⟨hlen, hrow⟩
      refine ⟨hlen.symm, ?_⟩
      intro i hi
      rw [hrow i hi (hlen ▸ hi), getElem?_eq_getElem]
    · rintro ⟨hlen, hrow⟩
      refine ⟨hlen.symm, ?_⟩
      intro i hi hi'
      rw [hrow i hi, getElem?_eq_getElem hi']
  next hcount => simp [hcount]

variable {i : ℕ} {out : DataVector}

section

variable (h : v.rows data = some rows)
include h

/-- The validity bits of a vector are those of its rows. -/
theorem isNull_of_rows (hi : i < v.count) :
    ∃ row, rows[i]? = some row ∧ v.isNull i = row.isNone := by
  obtain ⟨-, hlen, hrow⟩ := rows_eq_some_iff.mp h
  have hget := getElem?_eq_getElem (hlen.symm ▸ hi : i < rows.length)
  refine ⟨_, hget, ?_⟩
  have := hrow i hi
  rw [hget, row] at this
  cases hn : v.isNull i with
  | true =>
    rw [hn] at this
    simp only [if_true, some.injEq] at this
    rw [← this]; rfl
  | false =>
    rw [hn] at this
    simp only [Bool.false_eq_true, if_false, map_eq_some_iff] at this
    obtain ⟨x, -, hx⟩ := this
    rw [← hx]; rfl

theorem map_isNull_of_rows :
    ((range v.count).map fun i => !v.isNull i) = rows.map isSome := by
  obtain ⟨-, hlen, -⟩ := rows_eq_some_iff.mp h
  apply ext_getElem
  · simp [hlen]
  · intro i hi _
    simp only [length_map, length_range] at hi
    obtain ⟨row, hrow, hnull⟩ := isNull_of_rows h hi
    obtain ⟨_, hrow⟩ := List.getElem?_eq_some_iff.mp hrow
    simp [hrow, hnull]

theorem row_some_of_rows (hi : i < v.count) (x : α) :
    rows[i]? = some (some x) ↔ v.isNull i = false ∧ data[i]? = some x := by
  obtain ⟨-, -, hrow⟩ := rows_eq_some_iff.mp h
  rw [← hrow i hi, row]
  cases v.isNull i <;> simp

/-- The validity bits a decoder sets from the rows of a vector are the vector's own. -/
theorem isNull_putFrom_of_rows (hvalid : out.validity = putFrom 0 0 (rows.map isSome))
    (hi : i < v.count) : out.isNull i = v.isNull i := by
  obtain ⟨hcount, -, -⟩ := rows_eq_some_iff.mp h
  obtain ⟨row, hrow, hnull⟩ := isNull_of_rows h hi
  have hi' : i < standardVectorSize := lt_of_lt_of_le hi hcount
  rw [hnull, isNull, hvalid, getLsbD_putFrom]
  simp [hi', hrow]

end

/-- A decoded vector holds the rows of the original exactly when its values stand for
them, row by row. -/
theorem sameRows_iff_kept {values : List α} {f : α → Datum}
    (hf : Injective f) (h : v.rows data = some rows)
    (hv : ∀ i, v.datum? i = data[i]?.map f) (hout : ∀ i, out.datum? i = values[i]?.map f)
    (htype : out.type = v.type) (hcount : out.count = v.count)
    (hvalid : out.validity = putFrom 0 0 (rows.map isSome))
    (hlen : values.length = rows.length) :
    out.SameRows v ↔ Forall₂ RowKept rows values := by
  obtain ⟨-, hrlen, -⟩ := rows_eq_some_iff.mp h
  rw [forall₂_iff_get]
  constructor
  · intro hsame
    refine ⟨hlen.symm, ?_⟩
    intro i hi hi' x hx
    have hic : i < v.count := hrlen ▸ hi
    obtain ⟨hnull, hdata⟩ := (row_some_of_rows h hic x).mp ((getElem_eq_iff hi).mp hx)
    have hdatum := hsame.datum i hic hnull
    rw [hout, hv, hdata, getElem?_eq_getElem hi', map_some, map_some, some.injEq] at hdatum
    exact hf hdatum
  · rintro ⟨-, hkept⟩
    refine ⟨htype, hcount, fun i hi => isNull_putFrom_of_rows h hvalid hi, ?_⟩
    intro i hi hnull
    obtain ⟨row, hrow, hnull'⟩ := isNull_of_rows h hi
    obtain ⟨x, rfl⟩ : ∃ x, row = some x := by
      cases row with
      | none => simp [hnull] at hnull'
      | some x => exact ⟨x, rfl⟩
    obtain ⟨-, hdata⟩ := (row_some_of_rows h hi x).mp hrow
    have hir : i < rows.length := hrlen.symm ▸ hi
    have hiv : i < values.length := hlen.symm ▸ hir
    have hx : values.get ⟨i, hiv⟩ = x := by
      refine hkept i hir hiv x ?_
      rw [getElem?_eq_getElem hir, some.injEq] at hrow
      exact hrow
    rw [hout, hv, hdata, getElem?_eq_getElem hiv]
    exact congrArg (fun y => some (f y)) hx

end Rows

variable {α : Type}

/-- Rows with NULLs replaced by a default stand for themselves. -/
theorem forall₂_rowKept_getD (rows : List (Option α)) (d : α) :
    Forall₂ RowKept rows (rows.map fun row => row.getD d) := by
  rw [forall₂_map_right_iff, forall₂_same]
  intro row _ x hx
  rw [mem_def.mp hx]
  rfl

/-! ## Reading back a written segment -/

theorem reads_readHeader (type : CompressionType) {rowCount bitmapSize : ℕ}
    (hrow : rowCount < 2 ^ 32) (hmap : bitmapSize < 2 ^ 32) :
    Reads readHeader (segmentHeader type rowCount bitmapSize)
      (type.toByte, rowCount, bitmapSize) :=
  (reads_byte _).bind ((reads_le (n := 4) hrow).bind ((reads_le (n := 4) hmap).map _))

variable {v : DataVector} {data : List α}

theorem datum?_int (h : v.type.storageClass = .int) (i : ℕ) :
    v.datum? i = v.intData[i]?.map .int := by
  simp only [datum?, h]

theorem datum?_str (h : v.type.storageClass = .str) (i : ℕ) :
    v.datum? i = v.strData[i]?.map .str := by
  simp only [datum?, h]

theorem int_injective : Injective int := fun _ _ h => int.inj h

theorem str_injective : Injective str := fun _ _ h => str.inj h

/-- The bitmap of a segment restores the validity bits of its rows. -/
theorem applyBitmap_buildBitmap {dst : DataVector} {rows : List (Option α)}
    (h : v.rows data = some rows) (hcount : dst.count = v.count) (tail : Bytes) :
    applyBitmap (buildBitmap v ++ tail) dst =
      some { dst with validity := dst.validity.putFrom 0 (rows.map isSome) } := by
  obtain ⟨hle, hlen, -⟩ := rows_eq_some_iff.mp h
  have hbits := bits_bitmap (rows.map isSome) tail
  rw [length_map, hlen] at hbits
  rw [applyBitmap, buildBitmap, map_isNull_of_rows h, hcount, hbits]
  simp [hle, hlen]

theorem decompress_segment (hcount : v.count ≤ standardVectorSize) (type : CompressionType)
    (data tail : Bytes) (colType : TypeId) :
    decompress (segmentHeader type v.count (bitmapBytes v.count) ++ (buildBitmap v ++ data) ++ tail)
        colType =
      decompressRows (some type) colType v.count (bitmapBytes v.count)
        (buildBitmap v ++ (data ++ tail)) := by
  simp only [standardVectorSize] at hcount
  have hheader := reads_readHeader type (by omega : v.count < 2 ^ 32)
    (by simp only [bitmapBytes]; omega : bitmapBytes v.count < 2 ^ 32)
  rw [decompress, append_assoc, hheader.eq]
  simp

theorem drop_buildBitmap (v : DataVector) (data : Bytes) :
    (buildBitmap v ++ data).drop (bitmapBytes v.count) = data := by
  simp [buildBitmap]

/-- Compressing with the choice and decompressing gives back the rows. -/
def Restores (choice : CompressionChoice) (v : DataVector) : Prop :=
  ∃ bs, compress choice v = some bs ∧
    ∀ tail, ∃ out, decompress (bs ++ tail) v.type = some out ∧ out.SameRows v

/-- **The round trip of a column segment**: the scheme the code selects restores the
vector, whatever follows the segment in the buffer. -/
def RoundTrips (v : DataVector) : Prop :=
  ∃ choice, selectCompression v = some choice ∧ Restores choice v

theorem restores_iff {choice : CompressionChoice} (hcount : v.count ≤ standardVectorSize) :
    Restores choice v ↔ ∃ data, compressData choice v = some data ∧
      ∀ tail, ∃ out, decompressRows (some choice.type) v.type v.count (bitmapBytes v.count)
        (buildBitmap v ++ (data ++ tail)) = some out ∧ out.SameRows v := by
  simp only [Restores, compress, bind_eq_bind, Option.bind_eq_some_iff]
  constructor
  · rintro ⟨_, ⟨data, hdata, hbs⟩, h⟩
    cases hbs
    simp only [decompress_segment hcount] at h
    exact ⟨data, hdata, h⟩
  · rintro ⟨data, hdata, h⟩
    refine ⟨_, ⟨data, hdata, rfl⟩, ?_⟩
    simp only [decompress_segment hcount]
    exact h

/-- What the decoder of the data makes of a segment. -/
theorem exists_compress {choice : CompressionChoice} {out : DataVector}
    (hcount : v.count ≤ standardVectorSize) (data : Bytes) (hdata : compressData choice v = some data)
    (hout : ∀ tail, decompressRows (some choice.type) v.type v.count (bitmapBytes v.count)
      (buildBitmap v ++ (data ++ tail)) = some out) :
    ∃ bs, compress choice v = some bs ∧ ∀ tail, decompress (bs ++ tail) v.type = some out := by
  refine ⟨_, by rw [compress, hdata]; rfl, fun tail => ?_⟩
  rw [decompress_segment hcount, hout]

section Int
variable {v : DataVector} {rows : List (Option Int64)}

/-- The vector the integer schemes return: the decoded values under the original bits. -/
def intImage (v : DataVector) (rows : List (Option Int64)) (values : List Int64) : DataVector :=
  { reset v.type v.count with
    intData := values
    validity := Validity.putFrom 0 0 (rows.map isSome) }

theorem sameRows_intImage_iff (hclass : v.type.storageClass = .int)
    (h : v.rows v.intData = some rows) {values : List Int64} (hlen : values.length = rows.length) :
    (intImage v rows values).SameRows v ↔ Forall₂ RowKept rows values := by
  have htype : (intImage v rows values).type = v.type := by simp [intImage]
  refine sameRows_iff_kept int_injective h (datum?_int hclass) ?_ htype (by simp [intImage])
    rfl hlen
  intro i
  rw [datum?_int (by rw [htype, hclass])]
  rfl

theorem applyBitmap_ints (h : v.rows v.intData = some rows) (values : List Int64) (tail : Bytes) :
    applyBitmap (buildBitmap v ++ tail)
        { reset v.type v.count with intData := values } =
      some (intImage v rows values) := by
  rw [applyBitmap_buildBitmap h (by simp)]
  simp [intImage]

section

variable (hclass : v.type.storageClass = .int) (h : v.rows v.intData = some rows)
include hclass h

theorem sameRows_intImage_getD :
    (intImage v rows (rows.map fun row => row.getD 0)).SameRows v :=
  (sameRows_intImage_iff hclass h (by simp)).mpr (forall₂_rowKept_getD rows 0)

theorem exists_compress_rle : ∃ bs, compress { type := .rle } v = some bs ∧ ∀ tail,
    decompress (bs ++ tail) v.type = some (intImage v rows (rows.map fun row => row.getD 0)) := by
  obtain ⟨hcount, hlen, -⟩ := rows_eq_some_iff.mp h
  refine exists_compress hcount (rleEncode rows) (by simp [compressData, h]) fun tail => ?_
  have hdec : rleDecode v.count (rleEncode rows ++ tail) = some (rows, tail) := by
    rw [← hlen]
    exact rleDecode_rleEncode (by simp only [standardVectorSize] at hcount; omega) tail
  simp [decompressRows, drop_buildBitmap, hdec, withIntRows, hcount, hclass, intImage]

theorem exists_compress_plain_int : ∃ bs, compress { type := .uncompressed } v = some bs ∧ ∀ tail,
    decompress (bs ++ tail) v.type = some (intImage v rows (rows.map fun row => row.getD 0)) := by
  obtain ⟨hcount, hlen, -⟩ := rows_eq_some_iff.mp h
  refine exists_compress hcount ((rows.map fun row => row.getD 0).flatMap i64Bytes)
    (by simp [compressData, hclass, h, flatMap_map]) fun tail => ?_
  have hread : Reads (many i64 (rows.map fun row => row.getD 0).length)
      ((rows.map fun row => row.getD 0).flatMap i64Bytes) (rows.map fun row => row.getD 0) :=
    reads_many fun x _ => reads_i64 x
  have hdec := hread.eq tail
  rw [length_map, hlen] at hdec
  simp only [decompressRows, hclass, drop_buildBitmap, hdec]
  exact applyBitmap_ints h _ _

theorem restores_rle : Restores { type := .rle } v := by
  obtain ⟨bs, hbs, hout⟩ := exists_compress_rle hclass h
  exact ⟨bs, hbs, fun tail => ⟨_, hout tail, sameRows_intImage_getD hclass h⟩⟩

theorem restores_plain_int : Restores { type := .uncompressed } v := by
  obtain ⟨bs, hbs, hout⟩ := exists_compress_plain_int hclass h
  exact ⟨bs, hbs, fun tail => ⟨_, hout tail, sameRows_intImage_getD hclass h⟩⟩

theorem withInts_applyBitmap (values : List Int64) (tail : Bytes) :
    (withInts (reset v.type v.count) values).bind
        (applyBitmap (buildBitmap v ++ tail)) = some (intImage v rows values) := by
  rw [withInts, if_pos (by simp [hclass])]
  exact applyBitmap_ints h values tail

theorem restores_delta_iff : Restores { type := .delta } v ↔ deltaFits rows := by
  obtain ⟨hcount, hlen, -⟩ := rows_eq_some_iff.mp h
  rw [restores_iff hcount, ← deltaRoundTrip_kept_iff]
  simp only [compressData, h, bind_eq_bind, bind_some]
  cases henc : deltaEncode (rows.map fun row => row.getD 0) with
  | none => simp [deltaRoundTrip_of_encode_none henc]
  | some data =>
    have hdec : ∀ tail, decompressRows (some .delta) v.type v.count (bitmapBytes v.count)
        (buildBitmap v ++ (data ++ tail)) =
        (deltaRoundTrip (rows.map fun row => row.getD 0)).map (intImage v rows) := by
      intro tail
      have hrun := deltaDecode_of_encode henc tail
      rw [length_map, hlen] at hrun
      simp only [decompressRows, drop_buildBitmap, hrun,
        withInts_applyBitmap hclass h]
      cases deltaRoundTrip (rows.map fun row => row.getD 0) <;> rfl
    simp only [some.injEq, exists_eq_left', hdec, forall_const, map_eq_some_iff]
    constructor
    · rintro ⟨_, ⟨values, hvalues, rfl⟩, hsame⟩
      have hvlen := length_deltaRoundTrip hvalues
      rw [length_map] at hvlen
      exact ⟨values, hvalues, (sameRows_intImage_iff hclass h hvlen).mp hsame⟩
    · rintro ⟨values, hvalues, hkept⟩
      exact ⟨_, ⟨values, hvalues, rfl⟩,
        (sameRows_intImage_iff hclass h hkept.length_eq.symm).mpr hkept⟩

end

/-- The minimum of a column as the encoder sees it, NULLs as 0. -/
def storedMin : List (Option Int64) → Int64
  | [] => 0
  | row :: rows => minVal (row.getD 0) (rows.map fun row => row.getD 0)

theorem forall₂_rowKept_map {image : Int64 → Int64} :
    Forall₂ RowKept rows ((rows.map fun row => row.getD 0).map image) ↔
      ∀ x, some x ∈ rows → image x = x := by
  rw [List.map_map, forall₂_map_right_iff, forall₂_same]
  constructor
  · intro h x hx
    exact h (some x) hx x rfl
  · intro h row hrow x hx
    subst hx
    exact h x hrow

theorem restores_bitPacked_iff (hclass : v.type.storageClass = .int)
    (h : v.rows v.intData = some rows) (hpos : 0 < v.count) {bitWidth : ℕ}
    (hwidth : bitWidth ≤ 64) :
    Restores { type := .bitPacked, bitWidth := bitWidth } v ↔
      (∀ row ∈ rows, InInt64 ((row.getD 0).toInt - (storedMin rows).toInt)) ∧
        ∀ x, some x ∈ rows → bitPackImage bitWidth (storedMin rows) x = x := by
  obtain ⟨hcount, hlen, -⟩ := rows_eq_some_iff.mp h
  obtain ⟨first, rest, rfl⟩ := exists_cons_of_length_pos (hlen.symm ▸ hpos : 0 < rows.length)
  have hencodable := exists_bitPackEncode_iff bitWidth (first.getD 0)
    (rest.map fun row => row.getD 0)
  rw [← map_cons (f := fun row : Option Int64 => row.getD 0), List.forall_mem_map]
    at hencodable
  rw [restores_iff hcount, storedMin, ← hencodable]
  simp only [compressData, h, bind_eq_bind, bind_some]
  cases henc : bitPackEncode bitWidth ((first :: rest).map fun row => row.getD 0) with
  | none => simp
  | some packed =>
    have hbyte : (UInt8.ofNat bitWidth).toNat = bitWidth :=
      mod_eq_of_lt (by omega : bitWidth < 2 ^ 8)
    have hdec : ∀ tail, decompressRows (some .bitPacked) v.type v.count (bitmapBytes v.count)
        (buildBitmap v ++ (UInt8.ofNat bitWidth :: packed ++ tail)) =
        some (intImage v (first :: rest) (((first :: rest).map fun row => row.getD 0).map
          (bitPackImage bitWidth (minVal (first.getD 0) (rest.map fun row => row.getD 0))))) := by
      intro tail
      have hrun := bitPackDecode_bitPackEncode hwidth henc tail
      rw [← map_cons (f := fun row : Option Int64 => row.getD 0), length_map, hlen]
        at hrun
      have hread : byte (UInt8.ofNat bitWidth :: packed ++ tail) =
          some (UInt8.ofNat bitWidth, packed ++ tail) := rfl
      simp only [decompressRows, drop_buildBitmap, hread, hbyte, hrun, bind_eq_bind,
        bind_some, withInts_applyBitmap hclass h]
    simp only [Option.bind_some, Option.pure_def, Option.some.injEq, exists_eq_left', hdec,
      forall_const, exists_eq', true_and]
    rw [sameRows_intImage_iff hclass h (by simp), forall₂_rowKept_map]

end Int

section Str
variable {v : DataVector} {rows : List (Option Bytes)}

/-- The vector the string schemes return. -/
def strImage (v : DataVector) (rows : List (Option Bytes)) : DataVector :=
  { reset v.type v.count with
    strData := rows.map fun row => row.getD []
    validity := Validity.putFrom 0 0 (rows.map isSome) }

theorem sameRows_strImage (hclass : v.type.storageClass = .str)
    (h : v.rows v.strData = some rows) : (strImage v rows).SameRows v := by
  have htype : (strImage v rows).type = v.type := by simp [strImage]
  rw [sameRows_iff_kept str_injective h (datum?_str hclass)
    (datum?_str (by rw [htype, hclass])) htype (by simp [strImage]) rfl (by simp [strImage])]
  exact forall₂_rowKept_getD rows []

theorem restores_dictionary (hclass : v.type.storageClass = .str) (h : v.rows v.strData = some rows)
    (hstr : ∀ s, some s ∈ rows → s.length < 2 ^ 16) :
    Restores { type := .dictionary } v := by
  obtain ⟨hcount, hlen, -⟩ := rows_eq_some_iff.mp h
  rw [restores_iff hcount]
  refine ⟨dictEncode rows, by simp [compressData, h], ?_⟩
  intro tail
  have hdistinct := (dedup_sublist _).length_le.trans (reduceOption_length_le rows)
  have hrows : rows.length ≤ 1024 := hlen ▸ hcount
  have hdec := (dictDecode_dictEncode (by omega) (by rw [nullCode]; omega) hstr).eq tail
  rw [hlen] at hdec
  refine ⟨strImage v rows, ?_, sameRows_strImage hclass h⟩
  simp [decompressRows, drop_buildBitmap, hdec, withStrRows, hcount, hclass, strImage]

theorem plainStrBytes_eq {s : Bytes} (h : s.length < 2 ^ 16) : plainStrBytes s = str16Bytes s := by
  rw [plainStrBytes, mod_eq_of_lt h, take_length, str16Bytes]

theorem restores_plain_str (hclass : v.type.storageClass = .str) (h : v.rows v.strData = some rows)
    (hstr : ∀ s, some s ∈ rows → s.length < 2 ^ 16) :
    Restores { type := .uncompressed } v := by
  obtain ⟨hcount, hlen, -⟩ := rows_eq_some_iff.mp h
  rw [restores_iff hcount]
  refine ⟨(rows.map fun row => row.getD []).flatMap plainStrBytes, ?_, ?_⟩
  · simp [compressData, hclass, h, flatMap_map]
  · intro tail
    have hread : Reads (many str16 (rows.map fun row => row.getD []).length)
        ((rows.map fun row => row.getD []).flatMap plainStrBytes)
        (rows.map fun row => row.getD []) := by
      apply reads_many
      intro s hs
      obtain ⟨row, hrow, rfl⟩ := mem_map.mp hs
      have hlt : (row.getD []).length < 2 ^ 16 := by
        cases row with
        | none => decide
        | some s => exact hstr s hrow
      rw [plainStrBytes_eq hlt]
      exact reads_str16 hlt
    have hdec := hread.eq tail
    rw [length_map, hlen] at hdec
    refine ⟨strImage v rows, ?_, sameRows_strImage hclass h⟩
    simp only [decompressRows, hclass, drop_buildBitmap, hdec, bind_eq_bind,
      bind_some]
    rw [applyBitmap_buildBitmap h (by simp)]
    simp [strImage]

end Str

/-! ## Which columns survive -/

/-- A column that bit packing keeps. Its width comes from the distances between non-NULL
values, but a NULL is stored as 0 and moves the minimum there. -/
def BitPackFits (rows : List (Option Int64)) (lo hi : ℤ) : Prop :=
  none ∈ rows → -2 ^ 63 < lo ∧ (lo ≤ 0 ∨ hi < 2 ^ (hi - lo).toNat.size)

variable {rows : List (Option Int64)} {lo hi : ℤ}

theorem storedMin_spec (h : rows ≠ []) : (∃ row ∈ rows, storedMin rows = row.getD 0) ∧
      ∀ row ∈ rows, (storedMin rows).toInt ≤ (row.getD 0).toInt := by
  cases rows with
  | nil => exact absurd rfl h
  | cons row rows =>
    obtain ⟨hmem, hle⟩ := minVal_spec (row.getD 0) (rows.map fun row => row.getD 0)
    rw [← map_cons (f := fun row : Option Int64 => row.getD 0)] at hmem hle
    obtain ⟨r, hr, heq⟩ := mem_map.mp hmem
    refine ⟨⟨r, hr, heq.symm⟩, ?_⟩
    intro row' hrow'
    exact hle _ (mem_map_of_mem hrow')

theorem storedMin_of_spans (hspan : Spans rows lo hi) :
    (storedMin rows).toInt = if none ∈ rows then min lo 0 else lo := by
  obtain ⟨x, hx, hxlo⟩ := hspan.least.1
  obtain ⟨⟨row, hrow, heq⟩, hle⟩ := storedMin_spec (ne_nil_of_mem hx)
  have hxle := hle _ hx
  rw [getD_some] at hxle
  have hlow : (row.getD 0).toInt = 0 ∧ none ∈ rows ∨ lo ≤ (row.getD 0).toInt := by
    cases row with
    | none => exact .inl ⟨rfl, hrow⟩
    | some y => exact .inr (hspan.mem hrow).1
  rw [heq] at hxle ⊢
  split
  next hnull =>
    have hzero := hle none hnull
    rw [getD_none, toInt_zero_int64, heq] at hzero
    omega
  next hnull =>
    have := hlow.resolve_left fun h => hnull h.2
    omega

theorem bitPackFits_iff (hspan : Spans rows lo hi) (hrange : hi - lo < 2 ^ 32) :
    ((∀ row ∈ rows, InInt64 ((row.getD 0).toInt - (storedMin rows).toInt)) ∧
      ∀ x, some x ∈ rows → bitPackImage (hi - lo).toNat.size (storedMin rows) x = x) ↔
    BitPackFits rows lo hi := by
  have hlow := storedMin_of_spans hspan
  have hle := hspan.le
  have hmin := (storedMin_spec (ne_nil_of_mem hspan.least.1.choose_spec.1)).2
  have hsize : hi - lo < 2 ^ (hi - lo).toNat.size := by
    have := lt_size_self (hi - lo).toNat
    zify at this
    omega
  have himage : (∀ x, some x ∈ rows → bitPackImage (hi - lo).toNat.size (storedMin rows) x = x) ↔
      ∀ x, some x ∈ rows → x.toInt - (storedMin rows).toInt < 2 ^ (hi - lo).toNat.size := by
    refine forall₂_congr fun x hx => bitPackImage_eq_self_iff ?_
    simpa using hmin (some x) hx
  rw [himage]
  by_cases hnull : none ∈ rows
  · simp only [hnull, if_true] at hlow
    have hzero : (0 : Int64).toInt = 0 := rfl
    constructor
    · rintro ⟨hin, hfit⟩ -
      have hin0 := hin none hnull
      rw [getD_none] at hin0
      obtain ⟨y, hy, hyhi⟩ := hspan.greatest.1
      have hyfit := hfit y hy
      rw [hlow] at hyfit
      have hlo := hspan.least.1.choose_spec.2 ▸ inInt64_toInt hspan.least.1.choose
      simp only [InInt64] at hin0 hlo
      refine ⟨by omega, ?_⟩
      by_cases hpos : lo ≤ 0
      · exact .inl hpos
      · exact .inr (by omega)
    · intro hfits
      obtain ⟨hbound, hcase⟩ := hfits hnull
      constructor
      · intro row hrow
        cases row with
        | none =>
          rw [getD_none]
          simp only [InInt64]
          omega
        | some x =>
          have hx := hspan.mem hrow
          have hxr := inInt64_toInt x
          rw [getD_some]
          simp only [InInt64] at hxr ⊢
          omega
      · intro x hx
        have hx' := hspan.mem hx
        rw [hlow]
        rcases hcase with hcase | hcase
        · omega
        · rcases le_total lo 0 with hpos | hpos
          · omega
          · omega
  · simp only [hnull, if_false] at hlow
    refine ⟨fun _ h => absurd h hnull, fun _ => ⟨?_, ?_⟩⟩
    · intro row hrow
      cases row with
      | none => exact absurd hrow hnull
      | some x =>
        have hx := hspan.mem hrow
        rw [getD_some]
        simp only [InInt64]
        omega
    · intro x hx
      have hx' := hspan.mem hx
      omega

/-- A vector whose segment restores it. A string column always does; an integer column
whose values differ must stay clear of the lossy cases of the scheme its span selects. -/
def Compressible (v : DataVector) : Prop :=
  v.type.storageClass = .int → ∀ rows, v.rows v.intData = some rows →
    ∀ lo hi, Spans rows lo hi → lo ≠ hi → hi - lo < 2 ^ 63 ∧
      (hi - lo < 2 ^ 32 → BitPackFits rows lo hi) ∧
      (2 ^ 32 ≤ hi - lo → Ascending rows → deltaFits rows)

theorem exists_rows (hwf : v.WellFormed)
    (hdata : ∀ i, (v.datum? i).isSome → i < data.length) : ∃ rows, v.rows data = some rows := by
  rw [rows, if_pos hwf.count_le, exists_mapM_eq_some_iff]
  intro i hi
  rw [row]
  cases hnull : v.isNull i with
  | true => exact ⟨none, rfl⟩
  | false =>
    have hlt := hdata i (hwf.stored i (mem_range.mp hi) hnull)
    exact ⟨some _, by rw [getElem?_eq_getElem hlt]; rfl⟩

theorem exists_spans_of_not_allIdentical
    (h : allIdentical rows = false) : ∃ lo hi, Spans rows lo hi ∧ lo ≠ hi := by
  obtain ⟨hspan, -⟩ := spans_boundsFrom h
  refine ⟨_, _, hspan, ?_⟩
  intro heq
  rw [(spans_of_allIdentical hspan).mpr heq] at h
  exact Bool.noConfusion h

theorem roundTrips_int_iff (hclass : v.type.storageClass = .int) (h : v.rows v.intData = some rows)
    (hpos : 0 < v.count) :
    RoundTrips v ↔ ∀ lo hi, Spans rows lo hi → lo ≠ hi → hi - lo < 2 ^ 63 ∧
      (hi - lo < 2 ^ 32 → BitPackFits rows lo hi) ∧
      (2 ^ 32 ≤ hi - lo → Ascending rows → deltaFits rows) := by
  classical
  have hsel : selectCompression v = selectInt rows := by
    simp [selectCompression, hpos.ne', hclass, h]
  rw [RoundTrips, hsel]
  cases hall : allIdentical rows with
  | true =>
    refine ⟨fun _ lo hi hspan hne => absurd ((spans_of_allIdentical hspan).mp hall) hne, ?_⟩
    intro _
    exact ⟨{ type := .rle }, by rw [selectInt, hall]; rfl, restores_rle hclass h⟩
  | false =>
    obtain ⟨lo, hi, hspan, hne⟩ := exists_spans_of_not_allIdentical hall
    have hunique : (∀ lo' hi', Spans rows lo' hi' → lo' ≠ hi' →
        hi' - lo' < 2 ^ 63 ∧ (hi' - lo' < 2 ^ 32 → BitPackFits rows lo' hi') ∧
        (2 ^ 32 ≤ hi' - lo' → Ascending rows → deltaFits rows)) ↔
        hi - lo < 2 ^ 63 ∧ (hi - lo < 2 ^ 32 → BitPackFits rows lo hi) ∧
        (2 ^ 32 ≤ hi - lo → Ascending rows → deltaFits rows) := by
      refine ⟨fun hcond => hcond lo hi hspan hne, ?_⟩
      intro hcond lo' hi' hspan' _
      obtain ⟨rfl, rfl⟩ := hspan.unique hspan'
      exact hcond
    rw [hunique, selectInt_of_spans hspan hne]
    by_cases hword : hi - lo < 2 ^ 63
    · by_cases hsmall : hi - lo < 2 ^ 32
      · have hwidth : (hi - lo).toNat.size ≤ 64 := by
          rw [size_le]
          omega
        have hlarge : ¬ 2 ^ 32 ≤ hi - lo := by omega
        simp only [if_true, some.injEq, exists_eq_left',
          restores_bitPacked_iff hclass h hpos hwidth, bitPackFits_iff hspan hsmall, hword,
          hsmall, hlarge, true_and, forall_const, false_implies, and_true]
      · have hlarge : 2 ^ 32 ≤ hi - lo := by omega
        by_cases hasc : Ascending rows
        · simp only [if_true, if_false, some.injEq,
            exists_eq_left', restores_delta_iff hclass h, hword, hsmall, hlarge, hasc,
            false_implies, true_and, forall_const]
        · simp only [if_true, if_false, some.injEq,
            exists_eq_left', restores_plain_int hclass h, hword, hsmall, hlarge, hasc,
            false_implies, true_and, forall_const]
    · simp only [hword, if_false, reduceCtorEq, false_and, exists_false]

/-- **Round trip of column segments.** A well-formed integer, boolean or string vector of
1 to 1024 rows comes back from the scheme the code selects exactly when it is
compressible. -/
theorem roundTrips_iff_compressible {v : DataVector} (hwf : v.WellFormed) (hpos : 0 < v.count)
    (htype : v.type.storageClass = .int ∨ v.type = .varchar)
    (hstr : ∀ i < v.count, v.isNull i = false →
      ∀ s, v.datum? i = some (.str s) → s.length < 65536) :
    RoundTrips v ↔ Compressible v := by
  rcases htype with hclass | hvarchar
  · obtain ⟨rows, h⟩ : ∃ rows, v.rows v.intData = some rows := by
      apply exists_rows hwf
      simp [datum?_int hclass]
    rw [roundTrips_int_iff hclass h hpos]
    constructor
    · intro hcond _ rows' h'
      rwa [some.inj (h'.symm.trans h)]
    · intro hcond
      exact hcond hclass rows h
  · have hclass : v.type.storageClass = .str := by rw [hvarchar]; rfl
    obtain ⟨rows, h⟩ : ∃ rows, v.rows v.strData = some rows := by
      apply exists_rows hwf
      simp [datum?_str hclass]
    refine ⟨fun _ hint => absurd (hclass.symm.trans hint) (by decide), fun _ => ?_⟩
    have hshort : ∀ s, some s ∈ rows → s.length < 2 ^ 16 := by
      intro s hs
      obtain ⟨i, hi, hget⟩ := mem_iff_getElem.mp hs
      obtain ⟨-, hlen, -⟩ := rows_eq_some_iff.mp h
      have hic : i < v.count := hlen ▸ hi
      obtain ⟨hnull, hdata⟩ := (row_some_of_rows h hic s).mp
        (by rw [getElem?_eq_getElem hi, hget])
      exact hstr i hic hnull s (by rw [datum?_str hclass, hdata]; rfl)
    by_cases hdistinct : countDistinct rows ≤ 1000
    · refine ⟨{ type := .dictionary }, ?_, restores_dictionary hclass h hshort⟩
      simp [selectCompression, hpos.ne', hclass, h, hdistinct]
    · refine ⟨{ type := .uncompressed }, ?_, restores_plain_str hclass h hshort⟩
      simp [selectCompression, hclass, h, hdistinct]

/-- The column 1000, NULL, 1001. Its values differ by 1, so they get one bit each, but the
NULL makes 0 the minimum. -/
def nullGapVector : DataVector :=
  { type := .int64, count := 3, intData := [1000, 0, 1001], validity := 0b101 }

/-- Both values of the column come back wrong: 0 for 1000 and 1 for 1001. -/
theorem not_roundTrips_nullGapVector : ¬ RoundTrips nullGapVector := by
  rintro ⟨choice, hsel, bs, hbs, hout⟩
  have hchoice : selectCompression nullGapVector =
      some { type := .bitPacked, bitWidth := 1 } := by decide +kernel
  cases hsel.symm.trans hchoice
  have hbytes : compress { type := .bitPacked, bitWidth := 1 } nullGapVector =
      some [2, 3, 0, 0, 0, 1, 0, 0, 0, 5, 1, 0, 0, 0, 0, 0, 0, 0, 0, 4] := by decide +kernel
  cases hbs.symm.trans hbytes
  obtain ⟨out, hdec, hsame⟩ := hout []
  have hvector : decompress
      ([2, 3, 0, 0, 0, 1, 0, 0, 0, 5, 1, 0, 0, 0, 0, 0, 0, 0, 0, 4] ++ []) nullGapVector.type =
      some { type := .int64, count := 3, intData := [0, 0, 1], validity := 0b101 } := by decide +kernel
  cases hdec.symm.trans hvector
  exact absurd (hsame.datum 0 (by decide +kernel) (by decide +kernel)) (by decide +kernel)

/-- The condition decides real columns: 3, 5, 9 without NULLs is restored. -/
theorem roundTrips_iff_compressible_plain : (WellFormed
      { type := .int32, count := 3, intData := [3, 5, 9], validity := 0b111 }) ∧
    (RoundTrips { type := .int32, count := 3, intData := [3, 5, 9], validity := 0b111 } ↔
      Compressible { type := .int32, count := 3, intData := [3, 5, 9], validity := 0b111 }) := by
  have hwf : WellFormed
      { type := .int32, count := 3, intData := [3, 5, 9], validity := 0b111 } :=
    ⟨by decide +kernel, by decide +kernel⟩
  exact ⟨hwf, roundTrips_iff_compressible hwf (by decide +kernel) (.inl rfl) (by
    intro i _ _ s hs
    rw [datum?_int rfl] at hs
    simp at hs)⟩

end CppColDB
