import Mathlib.Tactic.Linarith
import CppColDB.Lib.BitBuffer
import CppColDB.Lib.Imp
import CppColDB.Common.Types

/-!
# Chunks in the write-ahead log

`WAL::SerializeChunk` and `DeserializeChunkPayload`. The writer emits for each column its
type, its validity bitmap and its non-NULL values. The reader takes all type bytes first,
and stores values into vectors that `DataChunk::Initialize` left empty, so it agrees with
the writer only on chunks without values (`chunkRoundTrips_iff_survives`).
-/

namespace CppColDB

open BitBuffer ByteCodec DataChunk DataVector List Reader TypeId

/-! ## Writing -/

/-- The value of a row. A non-NULL row of a typed column that has no value would be read
outside its array; well-formed chunks have no such row. -/
def serializeValue : Option Datum → Bytes
  | some (.int v) => i64Bytes v
  | some (.float bits) => leBytes 8 bits.toNat
  | some (.str s) => str16Bytes s
  | none => []

/-- A NULL row has no value in the log. -/
def serializeRow (col : DataVector) (r : ℕ) : Bytes :=
  if col.isNull r then [] else serializeValue (col.datum? r)

def serializeColumn (count : ℕ) (col : DataVector) : Bytes :=
  col.type.toByte :: (bitmap ((range count).map fun r => !col.isNull r) ++
    (range count).flatMap (serializeRow col))

/-- `WAL::SerializeChunk`: the bytes appended to the buffer. -/
def serializeChunk (c : DataChunk) : Bytes :=
  leBytes 4 c.count ++ (leBytes 4 c.columns.length ++ c.columns.flatMap (serializeColumn c.count))

/-! ## Reading -/

/-- `data[r] = x`, undefined outside the array. -/
def storeAt {α : Type} (data : List α) (r : ℕ) (x : α) : Option (List α) :=
  if r < data.length then some (data.set r x) else none

/-- Read a value with `value` and store it at row `r` of `data`; `put` rebuilds the vector. -/
def readStore {α : Type} (value : Reader α) (data : List α) (r : ℕ) (put : List α → DataVector) :
    Reader DataVector := do
  let x ← value
  let stored ← lift (storeAt data r x)
  pure (put stored)

/-- Read and store the value of row `r`, switching on the column type. -/
def readValue (vec : DataVector) (r : ℕ) : Reader DataVector :=
  match vec.type.storageClass with
  | .int => readStore i64 vec.intData r fun data => { vec with intData := data }
  | .float => readStore ((le 8) >>= fun x => pure (UInt64.ofNat x)) vec.floatData r
      fun data => { vec with floatData := data }
  | .str => readStore str16 vec.strData r fun data => { vec with strData := data }
  | .none => pure vec

/-- The row loop from row `r` on. The bitset refuses positions past its size. -/
def readRows (map : Bytes) : ℕ → ℕ → DataVector → Reader DataVector
  | 0, _, vec => pure vec
  | n + 1, r, vec =>
    if standardVectorSize ≤ r then failure
    else if bitAt map r then do
      let vec ← readValue { vec with validity := vec.validity.put r true } r
      readRows map n (r + 1) vec
    else readRows map n (r + 1) { vec with validity := vec.validity.put r false }

/-- One column: its bitmap, then the values of its non-NULL rows. -/
def readColumn (rowCount : ℕ) (vec : DataVector) : Reader DataVector := do
  let map ← bytes (bitmapBytes rowCount)
  readRows map rowCount 0 { vec with count := rowCount }

def readColumns (rowCount : ℕ) : List DataVector → Reader (List DataVector)
  | [] => pure []
  | vec :: vecs => do
    let col ← readColumn rowCount vec
    let cols ← readColumns rowCount vecs
    pure (col :: cols)

def deserializeChunkPayload : Reader DataChunk := do
  let rowCount ← le 4
  let colCount ← le 4
  let types ← many byte colCount
  let chunk := initializeTypes (types.map TypeId.ofByte)
  let columns ← readColumns rowCount chunk.columns
  pure { columns := columns, count := rowCount }

/-- **The round trip of a chunk payload**: the reader consumes exactly the written bytes,
whatever follows them, and returns a chunk with the same rows. -/
def ChunkRoundTrips (c : DataChunk) : Prop :=
  ∀ rest, ∃ c', deserializeChunkPayload (serializeChunk c ++ rest) = some (c', rest) ∧ c'.SameRows c

/-! ## Chunks without values -/

/-- No row of the chunk has a value. -/
def AllNull (c : DataChunk) : Prop := ∀ col ∈ c.columns, ∀ r < c.count, col.isNull r = true

theorem bitmap_replicate_false (n : ℕ) :
    bitmap (replicate n false) = replicate (bitmapBytes n) 0 := by
  have hset : ∀ (buf : Bytes) (i m : ℕ), setFrom buf i (replicate m false) = buf := by
    intro buf i m
    induction m generalizing i with
    | zero => rfl
    | succ m ih => exact ih (i + 1)
  rw [bitmap, hset, length_replicate]

theorem serializeColumn_of_allNull {count : ℕ} {col : DataVector}
    (h : ∀ r < count, col.isNull r = true) :
    serializeColumn count col = col.type.toByte :: replicate (bitmapBytes count) 0 := by
  have hbits : ((range count).map fun r => !col.isNull r) = replicate count false := by
    rw [eq_replicate_iff]
    refine ⟨by simp, ?_⟩
    intro b hb
    obtain ⟨r, hr, rfl⟩ := mem_map.mp hb
    rw [h r (mem_range.mp hr)]
    rfl
  have hvalues : (range count).flatMap (serializeRow col) = [] := by
    rw [flatMap_eq_nil_iff]
    intro r hr
    rw [serializeRow, h r (mem_range.mp hr), if_pos rfl]
  rw [serializeColumn, hbits, hvalues, bitmap_replicate_false, append_nil]

variable {n r : ℕ} {vec : DataVector}

theorem readRows_zeros {m : ℕ} (hvalid : vec.validity = 0) (hr : r + n ≤ standardVectorSize)
    (input : Bytes) :
    readRows (replicate m 0) n r vec input = some (vec, input) := by
  induction n generalizing r with
  | zero => rfl
  | succ n ih =>
    have hvec : { vec with validity := vec.validity.put r false } = vec := by
      rw [hvalid, Validity.put_false_zero, ← hvalid]
    rw [readRows, if_neg (by omega), bitAt_replicate_zero, hvec]
    exact ih (by omega)

theorem reads_readColumn_zeros (hvalid : vec.validity = 0) (hn : n ≤ standardVectorSize) :
    Reads (readColumn n vec) (replicate (bitmapBytes n) 0) { vec with count := n } := by
  have hmap := reads_bytes (replicate (bitmapBytes n) 0)
  rw [length_replicate] at hmap
  intro rest
  rw [readColumn, hmap.bind_apply]
  apply readRows_zeros
  · exact hvalid
  · omega

theorem reads_readColumns_zeros (hn : n ≤ standardVectorSize) (types : List TypeId) :
    Reads (readColumns n (types.map fun t => reset t 0))
      (types.flatMap fun _ => replicate (bitmapBytes n) 0)
      (types.map fun t => { type := t, count := n }) := by
  induction types with
  | nil => exact reads_pure []
  | cons t types ih =>
    have hcol : Reads (readColumn n (reset t 0)) _ _ :=
      reads_readColumn_zeros (reset_validity t 0) hn
    rw [reset_zero] at hcol
    rw [map_cons, reset_zero]
    exact hcol.bind (ih.map fun cols => _ :: cols)

/-! ## Values are never restored -/

variable {input rest : Bytes} {vec' : DataVector} {types : List TypeId} {map bytes : Bytes}
  {t : TypeId}

theorem exists_of_readStore {α : Type} {value : Reader α} {data : List α}
    {put : List α → DataVector} (h : readStore value data r put input = some (vec', rest)) :
    r < data.length ∧ ∃ stored, vec' = put stored := by
  obtain ⟨x, mid, -, h⟩ := bind_eq_some_iff.mp h
  obtain ⟨stored, _, hstored, h⟩ := bind_eq_some_iff.mp h
  cases h
  simp only [lift, Option.map_eq_some_iff, storeAt] at hstored
  obtain ⟨_, hlt, -⟩ := hstored
  split at hlt
  next hr => exact ⟨hr, stored, rfl⟩
  next => cases hlt

theorem readValue_type (h : readValue vec r input = some (vec', rest)) : vec'.type = vec.type := by
  cases hclass : vec.type.storageClass with
  | none =>
    simp only [readValue, hclass] at h
    cases h
    rfl
  | _ =>
    simp only [readValue, hclass] at h
    obtain ⟨-, stored, rfl⟩ := exists_of_readStore h
    rfl

/-- Storing into the empty arrays of a fresh vector is undefined. -/
theorem readValue_of_empty {m : Validity} (hclass : t.storageClass ≠ .none)
    (input : Bytes) : readValue { type := t, count := n, validity := m } r input = none := by
  rw [Option.eq_none_iff_forall_ne_some]
  rintro ⟨vec', rest⟩ h
  cases hc : t.storageClass with
  | none => exact hclass hc
  | _ =>
    simp only [readValue, hc] at h
    exact absurd (exists_of_readStore h).1 (Nat.not_lt_zero r)

theorem readRows_type
    (h : readRows map n r vec input = some (vec', rest)) : vec'.type = vec.type := by
  induction n generalizing r vec input with
  | zero =>
    cases h
    rfl
  | succ n ih =>
    rw [readRows] at h
    split at h
    · cases h
    · split at h
      · obtain ⟨mid, _, hmid, h⟩ := bind_eq_some_iff.mp h
        rw [ih h, readValue_type hmid]
      · rw [ih h]

/-- A typed column is only ever restored without values. -/
theorem readRows_of_empty {count : ℕ} (hclass : t.storageClass ≠ .none)
    (h : readRows map n r { type := t, count := count } input = some (vec', rest)) :
    vec' = { type := t, count := count } := by
  induction n generalizing r with
  | zero =>
    cases h
    rfl
  | succ n ih =>
    rw [readRows] at h
    split at h
    · cases h
    · split at h
      · obtain ⟨mid, _, hmid, -⟩ := bind_eq_some_iff.mp h
        rw [readValue_of_empty hclass] at hmid
        cases hmid
      · rw [show ({ type := t, count := count } : DataVector).validity.put r false = 0 from
          Validity.put_false_zero r] at h
        exact ih h

/-- What the reader makes of a column of type `t`. -/
structure Restored (t : TypeId) (vec : DataVector) : Prop where
  type : vec.type = t
  allNull : t.storageClass ≠ .none → ∀ r, vec.isNull r = true

theorem restored_of_readColumns {cols : List DataVector}
    (h : readColumns n (types.map fun t => reset t 0) input = some (cols, rest)) :
    Forall₂ Restored types cols := by
  induction types generalizing cols input with
  | nil =>
    cases h
    exact .nil
  | cons t types ih =>
    rw [map_cons, reset_zero] at h
    obtain ⟨col, mid, hcol, h⟩ := bind_eq_some_iff.mp h
    obtain ⟨cols, _, hcols, h⟩ := bind_eq_some_iff.mp h
    cases h
    obtain ⟨map, _, -, hrows⟩ := bind_eq_some_iff.mp hcol
    refine .cons ⟨readRows_type hrows, ?_⟩ (ih hcols)
    intro hclass r
    rw [readRows_of_empty hclass hrows]
    simp [isNull]

/-! ## The exact condition -/

section Padding
variable {b : ℕ}

theorem getElem?_padded (bytes : Bytes) (k : ℕ) (hk : k < bytes.length * (b + 1)) :
    (bytes.flatMap fun t => t :: replicate b 0)[k]? =
      if k % (b + 1) = 0 then bytes[k / (b + 1)]? else some 0 := by
  induction bytes generalizing k with
  | nil => simp at hk
  | cons t bytes ih =>
    rw [flatMap_cons]
    rcases Nat.lt_or_ge k (b + 1) with hlt | hge
    · rw [getElem?_append_left (by simpa using hlt), Nat.mod_eq_of_lt hlt, Nat.div_eq_of_lt hlt]
      cases k with
      | zero => rfl
      | succ k =>
        rw [getElem?_cons_succ, getElem?_replicate, if_pos (by omega), if_neg (Nat.succ_ne_zero k)]
    · obtain ⟨m, rfl⟩ := Nat.exists_eq_add_of_le hge
      rw [length_cons, Nat.succ_mul] at hk
      rw [getElem?_append_right (by simp)]
      simp only [length_cons, length_replicate, Nat.add_sub_cancel_left, Nat.add_mod_left]
      rw [ih m (by omega), Nat.add_div_left m (Nat.succ_pos b), getElem?_cons_succ]

/-- A padded byte string that starts with its own bytes is zero after the first. -/
theorem eq_zero_of_padded (hb : 0 < b)
    (h : (bytes.flatMap fun t => t :: replicate b 0).take bytes.length = bytes) {k : ℕ} (hk : 0 < k)
    {t : UInt8} (ht : bytes[k]? = some t) : t = 0 := by
  induction k using Nat.strong_induction_on generalizing t with
  | _ k ih =>
    have hlt := (List.getElem?_eq_some_iff.mp ht).1
    have hpad : (bytes.flatMap fun t => t :: replicate b 0)[k]? = some t := by
      rw [← getElem?_take_of_lt hlt, h, ht]
    rw [getElem?_padded bytes k (by nlinarith)] at hpad
    split at hpad
    next hmod =>
      have hpos : 0 < k / (b + 1) :=
        Nat.div_pos (Nat.le_of_dvd hk (Nat.dvd_of_mod_eq_zero hmod)) (Nat.succ_pos b)
      exact ih _ (Nat.div_lt_self hk (by omega)) hpos hpad
    next => exact (Option.some.inj hpad).symm

end Padding

variable {c : DataChunk}

theorem flatMap_serializeColumn (h : AllNull c) : c.columns.flatMap (serializeColumn c.count) =
      (c.columns.map fun col => col.type.toByte).flatMap
        fun t => t :: replicate (bitmapBytes c.count) 0 := by
  rw [flatMap_map]
  exact flatMap_congr fun col hcol => serializeColumn_of_allNull (h col hcol)

variable {c' : DataChunk}

/-- What a successful run of the reader says about the chunk that was written: it took the
first bytes of the column area for types. -/
theorem types_of_deserialize (hcount : c.count ≤ standardVectorSize)
    (h : deserializeChunkPayload (serializeChunk c ++ rest) = some (c', rest)) :
    ∃ types : Bytes, types.length = c.columns.length % 256 ^ 4 ∧
      types = (c.columns.flatMap (serializeColumn c.count) ++ rest).take types.length ∧
      Forall₂ Restored (types.map ofByte) c'.columns := by
  simp only [standardVectorSize] at hcount
  rw [deserializeChunkPayload, serializeChunk, append_assoc,
    (reads_le (by omega : c.count < 256 ^ 4)).bind_apply, append_assoc,
    (reads_le_mod 4 c.columns.length).bind_apply] at h
  obtain ⟨types, mid, htypes, h⟩ := bind_eq_some_iff.mp h
  obtain ⟨cols, _, hcols, h⟩ := bind_eq_some_iff.mp h
  cases h
  rw [many_byte, bytes] at htypes
  split at htypes
  next hle =>
    cases htypes
    have hlen := length_take_of_le hle
    exact ⟨_, hlen, by rw [hlen], restored_of_readColumns hcols⟩
  next => cases htypes

/-- A non-NULL row has a value, and a column with values is not restored. -/
theorem allNull_of_restored (hwf : c.WellFormed) (hrest : Forall₂ Restored types c'.columns)
    (hsame : c'.SameRows c) : AllNull c := by
  intro col hcol r hr
  obtain ⟨hcolwf, hcount⟩ := hwf.column col hcol
  obtain ⟨vec, hvec, hrows⟩ := hsame.columns.exists_of_mem_right hcol
  obtain ⟨t, -, hvec⟩ := hrest.exists_of_mem_right hvec
  cases hnull : col.isNull r with
  | true => rfl
  | false =>
    have hclass : t.storageClass ≠ .none := by
      intro hnone
      have hdatum := hcolwf.stored r (hcount ▸ hr) hnull
      rw [← hvec.type, hrows.type] at hnone
      simp [datum?, hnone] at hdatum
    have := hrows.isNull r (hcount ▸ hr)
    rw [hvec.allNull hclass r, hnull] at this
    exact this.symm

theorem types_eq_of_restored {types : Bytes} (hsame : c'.SameRows c)
    (hrest : Forall₂ Restored (types.map ofByte) c'.columns) :
    types = c.columns.map fun col => col.type.toByte := by
  have h1 : types.map ofByte = c'.columns.map type := by
    rw [← forall₂_eq_eq_eq, forall₂_map_right_iff]
    exact hrest.imp fun t vec h => h.type.symm
  have h2 : c'.columns.map type = c.columns.map type := by
    rw [← forall₂_eq_eq_eq, forall₂_map_right_iff, forall₂_map_left_iff]
    exact hsame.columns.imp fun a b h => h.type
  have h3 := congrArg (map toByte) (h1.trans h2)
  rw [map_map, map_map] at h3
  have hid : toByte ∘ ofByte = id := funext toByte_ofByte
  rwa [hid, map_id] at h3

/-- When only the first column can have a type byte other than 0, the padded type bytes are
the type bytes followed by the bitmaps. -/
theorem padded_eq_append {b : ℕ} (h : ∀ t ∈ bytes.tail, t = 0) :
    (bytes.flatMap fun t => t :: replicate b 0) =
      bytes ++ bytes.flatMap fun _ => replicate b 0 := by
  cases bytes with
  | nil => rfl
  | cons t bytes =>
    have hzeros : ∀ t ∈ bytes, t = 0 := h
    have hleft : (replicate b 0 ++ bytes.flatMap fun t => t :: replicate b 0) =
        replicate (b + bytes.length * (b + 1)) 0 := by
      rw [eq_replicate_iff]
      refine ⟨by simp [length_flatMap], ?_⟩
      intro x hx
      simp only [mem_append, mem_replicate, mem_flatMap, mem_cons] at hx
      rcases hx with ⟨-, hx⟩ | ⟨t, ht, hx | ⟨-, hx⟩⟩
      · exact hx
      · rw [hx, hzeros t ht]
      · exact hx
    have hright : (bytes ++ (replicate b 0 ++
        bytes.flatMap fun _ => replicate b (0 : UInt8))) =
        replicate (b + bytes.length * (b + 1)) 0 := by
      rw [eq_replicate_iff]
      refine ⟨by simp [Nat.mul_succ]; omega, ?_⟩
      simpa [or_imp, forall_and] using hzeros
    rw [flatMap_cons, flatMap_cons, cons_append, hleft, cons_append, hright]

/-- A chunk whose payload survives: it has no values, and past the first column only
columns of type `INVALID`, unless it has no rows at all. -/
structure Survives (c : DataChunk) : Prop where
  columns_lt : c.columns.length < 2 ^ 32
  allNull : AllNull c
  invalid : 0 < c.count → ∀ col ∈ c.columns.tail, col.type = .invalid

theorem survives_of_chunkRoundTrips (hwf : c.WellFormed) (h : ChunkRoundTrips c) : Survives c := by
  obtain ⟨c', hdec, hsame⟩ := h []
  obtain ⟨types, hlen, htake, hrest⟩ := types_of_deserialize hwf.count_le hdec
  have hnull := allNull_of_restored hwf hrest hsame
  have htypes := types_eq_of_restored hsame hrest
  have hcols : types.length = c.columns.length := by rw [htypes, length_map]
  refine ⟨by omega, hnull, ?_⟩
  intro hpos col hcol
  rw [flatMap_serializeColumn hnull, ← htypes, append_nil] at htake
  obtain ⟨k, hk, hget⟩ := mem_iff_getElem.mp hcol
  have hbyte : types[k + 1]? = some col.type.toByte := by
    rw [htypes, getElem?_map]
    rw [length_tail] at hk
    rw [getElem_tail] at hget
    rw [getElem?_eq_getElem (by omega), hget]
    rfl
  have hpad : 0 < bitmapBytes c.count := by simp only [bitmapBytes]; omega
  have hzero := eq_zero_of_padded hpad htake.symm (Nat.succ_pos k) hbyte
  rw [← ofByte_toByte col.type, hzero]
  rfl

theorem chunkRoundTrips_of_survives (hwf : c.WellFormed) (h : Survives c) :
    ChunkRoundTrips c := by
  have hcount := hwf.count_le
  -- the column area is the type bytes followed by the empty bitmaps
  have hbody : c.columns.flatMap (serializeColumn c.count) =
      (c.columns.map fun col => col.type.toByte) ++ (c.columns.map type).flatMap
        fun _ => replicate (bitmapBytes c.count) 0 := by
    rw [flatMap_serializeColumn h.allNull, flatMap_map type,
      ← flatMap_map (fun col : DataVector => col.type.toByte)
        (fun _ => replicate (bitmapBytes c.count) (0 : UInt8))]
    rcases Nat.eq_zero_or_pos c.count with hzero | hpos
    · simp [hzero, bitmapBytes]
    · apply padded_eq_append
      intro t ht
      rw [← map_tail] at ht
      obtain ⟨col, hcol, rfl⟩ := mem_map.mp ht
      rw [h.invalid hpos col hcol]
      rfl
  have htypes : Reads (many byte c.columns.length)
      (c.columns.map fun col => col.type.toByte) (c.columns.map fun col => col.type.toByte) := by
    intro rest
    rw [many_byte, ← length_map (fun col : DataVector => col.type.toByte)]
    exact reads_bytes _ rest
  have hmap : (c.columns.map fun col => col.type.toByte).map ofByte =
      c.columns.map type := by
    rw [map_map]
    exact map_congr_left fun col _ => ofByte_toByte col.type
  have hreads : Reads deserializeChunkPayload (serializeChunk c)
      { columns := (c.columns.map type).map fun t => { type := t, count := c.count }
        count := c.count } := by
    rw [serializeChunk, hbody]
    simp only [standardVectorSize] at hcount
    refine (reads_le (by omega)).bind ((reads_le h.columns_lt).bind
      (htypes.bind ?_))
    rw [hmap]
    exact (reads_readColumns_zeros hwf.count_le _).map fun cols => _
  intro rest
  refine ⟨_, hreads.eq rest, rfl, ?_⟩
  rw [map_map, forall₂_map_left_iff, forall₂_same]
  intro col hcol
  obtain ⟨-, hcol_count⟩ := hwf.column col hcol
  refine ⟨rfl, hcol_count.symm, ?_, ?_⟩
  · intro r hr
    rw [h.allNull col hcol r (hcol_count ▸ hr)]
    simp [isNull]
  · intro r hr hnull
    rw [h.allNull col hcol r (hcol_count ▸ hr)] at hnull
    cases hnull

/-- **Round trip of chunk payloads.** A well-formed chunk comes back from the log exactly
when it survives; no chunk with a value does. -/
theorem chunkRoundTrips_iff_survives {c : DataChunk} (hwf : c.WellFormed) :
    ChunkRoundTrips c ↔ Survives c :=
  ⟨survives_of_chunkRoundTrips hwf, chunkRoundTrips_of_survives hwf⟩

/-- One row with the value 7: the reader stores it outside the empty vector. -/
theorem not_chunkRoundTrips_singleton : ¬ ChunkRoundTrips
    { columns := [{ type := .int64, count := 1, intData := [7], validity := 1 }], count := 1 } := by
  intro h
  obtain ⟨c', hdec, -⟩ := h []
  have hnone : deserializeChunkPayload (serializeChunk
      { columns := [{ type := .int64, count := 1, intData := [7], validity := 1 }],
        count := 1 } ++ []) = none := by decide +kernel
  rw [hnone] at hdec
  cases hdec

/-- A column of two NULLs survives. -/
theorem chunkRoundTrips_iff_survives_nulls :
    WellFormed { columns := [{ type := .varchar, count := 2 }], count := 2 } ∧
    (ChunkRoundTrips { columns := [{ type := .varchar, count := 2 }], count := 2 } ↔
      Survives { columns := [{ type := .varchar, count := 2 }], count := 2 }) := by
  have hwf : WellFormed
      { columns := [{ type := .varchar, count := 2 }], count := 2 } := by
    refine ⟨by decide, ?_⟩
    intro col hcol
    obtain rfl := mem_singleton.mp hcol
    exact ⟨⟨by decide, by decide +kernel⟩, rfl⟩
  exact ⟨hwf, chunkRoundTrips_iff_survives hwf⟩

end CppColDB
