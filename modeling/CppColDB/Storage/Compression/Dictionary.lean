import Mathlib.Data.List.Dedup
import Mathlib.Data.List.Infix
import Mathlib.Data.List.Perm.Subperm
import Mathlib.Data.List.ReduceOption
import CppColDB.Lib.Bytes

/-!
# Dictionary encoding

`DictEncode` and `DictDecode`: the distinct strings in order of first occurrence, then a
16-bit code for each row. A NULL row has a reserved code, so the decoder needs no bitmap.
-/

namespace CppColDB

open ByteCodec List Reader

def nullCode : ℕ := 0xFFFF

/-- The encoder's pass over the rows: the dictionary it ends with, which extends the one
it starts with, and the code of every row. A code is a size cast to 16 bits. -/
def dictCodes (dict : List Bytes) : List (Option Bytes) → List Bytes × List ℕ
  | [] => (dict, [])
  | none :: rows =>
    let (final, codes) := dictCodes dict rows
    (final, nullCode :: codes)
  | some s :: rows =>
    if s ∈ dict then
      let (final, codes) := dictCodes dict rows
      (final, dict.idxOf s % 2 ^ 16 :: codes)
    else
      let (final, codes) := dictCodes (dict ++ [s]) rows
      (final, dict.length % 2 ^ 16 :: codes)

def dictEncode (rows : List (Option Bytes)) : Bytes :=
  let (dict, codes) := dictCodes [] rows
  leBytes 4 dict.length ++ (dict.flatMap str16Bytes ++ codes.flatMap (leBytes 2))

/-- Read one code and look it up; a code outside the dictionary is undefined. -/
def dictReadRow (dict : List Bytes) : Reader (Option Bytes) := do
  let code ← le 2
  if code = nullCode then pure none
  else
    let s ← lift dict[code]?
    pure (some s)

def dictDecode (rowCount : ℕ) : Reader (List (Option Bytes)) := do
  let dictSize ← le 4
  let dict ← many str16 dictSize
  many (dictReadRow dict) rowCount

/-! ## Round trip -/

/-- A code that the decoder maps to the row. -/
def CodeOf (dict : List Bytes) : Option Bytes → ℕ → Prop
  | none, code => code = nullCode
  | some s, code => code < nullCode ∧ dict[code]? = some s

/-- What one pass of the encoder establishes. -/
structure DictBuilt (dict : List Bytes) (rows : List (Option Bytes))
    (r : List Bytes × List ℕ) : Prop where
  extends_ : dict <+: r.1
  mem : ∀ s ∈ r.1, s ∈ dict ∨ some s ∈ rows
  length_le : r.1.length ≤ dict.length + rows.length
  codes : Forall₂ (CodeOf r.1) rows r.2

variable {dict : List Bytes} {rows : List (Option Bytes)}

theorem getElem?_of_isPrefix {final : List Bytes} (h : dict <+: final) {i : ℕ} {s : Bytes}
    (hs : dict[i]? = some s) : final[i]? = some s := by
  obtain ⟨rest, rfl⟩ := h
  rw [List.getElem?_append_left (List.getElem?_eq_some_iff.mp hs).1, hs]

theorem length_dedup_le {xs ys : List Bytes} (h : xs ⊆ ys) : xs.dedup.length ≤ ys.dedup.length :=
  (subperm_of_subset (nodup_dedup xs) fun _ hx => mem_dedup.mpr (h (mem_dedup.mp hx))).length_le

/-- The codes stay below the reserved one while the dictionary, which has no string twice,
and the strings to come are at most that many. -/
theorem dictBuilt_dictCodes (hnodup : dict.Nodup)
    (hsize : (dict ++ rows.reduceOption).dedup.length ≤ nullCode) :
    DictBuilt dict rows (dictCodes dict rows) := by
  induction rows generalizing dict with
  | nil => exact ⟨prefix_rfl, fun s hs => .inl hs, le_refl _, .nil⟩
  | cons row rows ih =>
    cases row with
    | none =>
      obtain ⟨hext, hmem, hlen, hcodes⟩ := ih hnodup hsize
      refine ⟨hext, ?_, ?_, .cons rfl hcodes⟩
      · intro s hs
        exact (hmem s hs).imp_right (mem_cons_of_mem _)
      · exact hlen.trans (by rw [length_cons]; omega)
    | some s =>
      rw [reduceOption_cons_of_some] at hsize
      by_cases hs : s ∈ dict
      · have hdict := (length_dedup_le (subset_append_left dict _)).trans hsize
        rw [hnodup.dedup] at hdict
        have hrest := length_dedup_le ((sublist_cons_self s rows.reduceOption).append_left dict).subset
        obtain ⟨hext, hmem, hlen, hcodes⟩ := ih hnodup (hrest.trans hsize)
        simp only [dictCodes, if_pos hs]
        have hidx := idxOf_lt_length_of_mem hs
        refine ⟨hext, ?_, ?_, .cons ?_ hcodes⟩
        · intro t ht
          exact (hmem t ht).imp_right (mem_cons_of_mem _)
        · exact hlen.trans (by rw [length_cons]; omega)
        · rw [Nat.mod_eq_of_lt (by simp only [nullCode] at hdict; omega)]
          refine ⟨by omega, getElem?_of_isPrefix hext ?_⟩
          rw [getElem?_eq_getElem hidx, getElem_idxOf]
      · have hnodup' := concat_eq_append ▸ Nodup.concat hs hnodup
        rw [append_cons] at hsize
        have hdict := (length_dedup_le (subset_append_left (dict ++ [s]) _)).trans hsize
        rw [hnodup'.dedup, length_append, length_singleton] at hdict
        obtain ⟨hext, hmem, hlen, hcodes⟩ := ih hnodup' hsize
        simp only [dictCodes, if_neg hs]
        refine ⟨(prefix_append dict [s]).trans hext, ?_, ?_, .cons ?_ hcodes⟩
        · intro t ht
          rcases hmem t ht with h | h
          · rcases mem_append.mp h with h | h
            · exact .inl h
            · exact .inr (by rw [mem_singleton.mp h]; exact mem_cons_self)
          · exact .inr (mem_cons_of_mem _ h)
        · exact hlen.trans (by simp; omega)
        · rw [Nat.mod_eq_of_lt (by simp only [nullCode] at hdict; omega)]
          refine ⟨by omega, getElem?_of_isPrefix hext ?_⟩
          simp

theorem reads_dictReadRow {row : Option Bytes} {code : ℕ}
    (h : CodeOf dict row code) : Reads (dictReadRow dict) (leBytes 2 code) row := by
  cases row with
  | none =>
    rw [show code = nullCode from h]
    exact (reads_le (n := 2) (by decide)).map fun _ => none
  | some s =>
    obtain ⟨hlt, hs⟩ := h
    have hcode : code < 256 ^ 2 := by simp only [nullCode] at hlt; omega
    intro rest
    rw [dictReadRow, (reads_le hcode).bind_apply, if_neg (Nat.ne_of_lt hlt), hs]
    rfl

/-- Dictionary decoding gives back every row, NULLs included. -/
theorem dictDecode_dictEncode (hcount : rows.length < 2 ^ 32)
    (hsize : rows.reduceOption.dedup.length < nullCode)
    (hstr : ∀ s, some s ∈ rows → s.length < 2 ^ 16) :
    Reads (dictDecode rows.length) (dictEncode rows) rows := by
  have hbuilt := dictBuilt_dictCodes nodup_nil hsize.le
  have hlen := hbuilt.length_le
  have hdict : Reads (many str16 (dictCodes [] rows).1.length)
      ((dictCodes [] rows).1.flatMap str16Bytes) (dictCodes [] rows).1 := by
    apply reads_many
    intro s hs
    rcases hbuilt.mem s hs with h | h
    · simp at h
    · exact reads_str16 (hstr s h)
  have hcodes :=
    reads_many_of_forall₂ (hbuilt.codes.imp fun row code h => reads_dictReadRow h)
  refine (reads_le ?_).bind (hdict.bind hcodes)
  rw [length_nil] at hlen
  omega

/-- **Dictionary round trip**, for any number of rows: only the distinct strings count. -/
theorem dict_round_trip (hcount : rows.length < 2 ^ 32)
    (hsize : rows.reduceOption.dedup.length < 65535)
    (hstr : ∀ s, some s ∈ rows → s.length < 65536) (rest : Bytes) :
    dictDecode rows.length (dictEncode rows ++ rest) = some (rows, rest) :=
  dictDecode_dictEncode hcount hsize hstr rest

theorem dict_round_trip_twice :
    dictDecode 3 (dictEncode [some [97], none, some [97]] ++ [1]) =
      some ([some [97], none, some [97]], [1]) :=
  @dict_round_trip [some [97], none, some [97]] (by decide) (by decide) (by simp) [1]

end CppColDB
