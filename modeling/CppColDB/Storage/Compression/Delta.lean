import CppColDB.Common.Types

/-!
# Delta encoding

`DeltaEncode` and `DeltaDecode`: the first value as a 64-bit word, then each difference
to the previous value cut down to 32 bits. The decoder sign-extends a stored difference,
so a value survives exactly when the differences that lead to it lose nothing
(`deltaDecode_of_encode`). The lossy part of an integer is `highWord`.
-/

namespace CppColDB

open ByteCodec List Option

/-- The differences, each cast to `int32_t` and written as four bytes. -/
def deltaEncodeLoop (prev : Int64) : List Int64 → Option Bytes
  | [] => some []
  | v :: values => do
    let delta ← checkedSub v prev
    let tail ← deltaEncodeLoop v values
    pure (leBytes 4 delta.toInt32.toUInt32.toNat ++ tail)

/-- An empty input is read at index 0, which is undefined. -/
def deltaEncode : List Int64 → Option Bytes
  | [] => none
  | first :: values => do
    let tail ← deltaEncodeLoop first values
    pure (i64Bytes first ++ tail)

def deltaDecodeLoop (prev : Int64) : ℕ → Reader (List Int64)
  | 0 => pure []
  | n + 1 => do
    let u ← Reader.le 4
    let v ← Reader.lift (checkedAdd prev (UInt32.ofNat u).toInt32.toInt64)
    let values ← deltaDecodeLoop v n
    pure (v :: values)

def deltaDecode : ℕ → Reader (List Int64)
  | 0 => failure
  | n + 1 => do
    let first ← Reader.i64
    let values ← deltaDecodeLoop first n
    pure (first :: values)

/-! ## What survives the cast to 32 bits -/

/-- What remains of an integer after a cast to `int32_t`. -/
def lowWord (z : ℤ) : ℤ := z.bmod (2 ^ 32)

/-- What the cast loses, in units of `2 ^ 32`. -/
def highWord (z : ℤ) : ℤ := (z + 2 ^ 31) / 2 ^ 32

theorem lowWord_eq (z : ℤ) : lowWord z = z - 2 ^ 32 * highWord z := by
  simp only [lowWord, highWord, Int.bmod_def]
  omega

theorem toInt_toInt32_toInt64 (d : Int64) : d.toInt32.toInt64.toInt = lowWord d.toInt := by
  rw [Int32.toInt_toInt64, Int64.toInt_toInt32, lowWord]

/-- What the decoder makes of the differences of `values`, where `prev` is the value
before them and `shown` what the decoder produced for it. -/
def deltaImage (prev shown : Int64) : List Int64 → Option (List Int64)
  | [] => some []
  | v :: values => do
    let delta ← checkedSub v prev
    let w ← checkedAdd shown delta.toInt32.toInt64
    let image ← deltaImage v w values
    pure (w :: image)

variable {prev shown v : Int64} {values : List Int64} {out : List Int64} {bs : Bytes}

theorem deltaImage_of_encode_none
    (h : deltaEncodeLoop prev values = none) : deltaImage prev shown values = none := by
  induction values generalizing prev shown with
  | nil => simp [deltaEncodeLoop] at h
  | cons v values ih =>
    cases hd : checkedSub v prev with
    | none => simp [deltaImage, hd]
    | some delta =>
      have htail : deltaEncodeLoop v values = none := by
        cases ht : deltaEncodeLoop v values with
        | none => rfl
        | some bs => simp [deltaEncodeLoop, hd, ht] at h
      simp [deltaImage, ih htail]

theorem deltaDecodeLoop_of_encode (h : deltaEncodeLoop prev values = some bs) (rest : Bytes) :
    deltaDecodeLoop shown values.length (bs ++ rest) =
      (deltaImage prev shown values).map fun out => (out, rest) := by
  induction values generalizing prev shown bs with
  | nil =>
    cases h
    rfl
  | cons v values ih =>
    simp only [deltaEncodeLoop, bind_eq_bind, bind_eq_some_iff] at h
    obtain ⟨delta, hdelta, tail, htail, hbs⟩ := h
    cases hbs
    have hword : delta.toInt32.toUInt32.toNat < 256 ^ 4 := UInt32.toNat_lt _
    rw [append_assoc, length_cons, deltaDecodeLoop, (reads_le hword).bind_apply,
      UInt32.ofNat_toNat, Int32.toInt32_toUInt32]
    simp only [deltaImage, hdelta, bind_eq_bind, bind_some]
    cases checkedAdd shown delta.toInt32.toInt64 with
    | none => rfl
    | some w =>
      rw [Reader.lift_some_bind, Reader.bind_pure_apply, ih htail, bind_some]
      cases deltaImage v w values <;> rfl

/-- What decoding the encoding of a whole column gives. -/
def deltaRoundTrip : List Int64 → Option (List Int64)
  | [] => none
  | first :: values => (deltaImage first first values).map fun out => first :: out

theorem deltaRoundTrip_of_encode_none (h : deltaEncode values = none) :
    deltaRoundTrip values = none := by
  cases values with
  | nil => rfl
  | cons first values =>
    have htail : deltaEncodeLoop first values = none := by
      cases ht : deltaEncodeLoop first values with
      | none => rfl
      | some bs => simp [deltaEncode, ht] at h
    rw [deltaRoundTrip, deltaImage_of_encode_none htail, map_none]

theorem deltaDecode_of_encode (h : deltaEncode values = some bs) (rest : Bytes) :
    deltaDecode values.length (bs ++ rest) =
      (deltaRoundTrip values).map fun out => (out, rest) := by
  cases values with
  | nil => simp [deltaEncode] at h
  | cons first values =>
    simp only [deltaEncode, bind_eq_bind, bind_eq_some_iff] at h
    obtain ⟨tail, htail, hbs⟩ := h
    cases hbs
    rw [append_assoc, length_cons, deltaDecode, (reads_i64 first).bind_apply,
      Reader.bind_pure_apply, deltaDecodeLoop_of_encode htail, deltaRoundTrip,
      Option.map_map, Option.map_map]
    rfl

theorem length_deltaImage
    (h : deltaImage prev shown values = some out) : out.length = values.length := by
  induction values generalizing prev shown out with
  | nil =>
    cases h
    rfl
  | cons v values ih =>
    simp only [deltaImage, bind_eq_bind, bind_eq_some_iff] at h
    obtain ⟨_, -, w, -, image, himage, hout⟩ := h
    cases hout
    rw [length_cons, length_cons, ih himage]

theorem length_deltaRoundTrip (h : deltaRoundTrip values = some out) :
    out.length = values.length := by
  cases values with
  | nil => simp [deltaRoundTrip] at h
  | cons first values =>
    simp only [deltaRoundTrip, map_eq_some_iff] at h
    obtain ⟨image, himage, rfl⟩ := h
    rw [length_cons, length_cons, length_deltaImage himage]

/-! ## Rows with NULLs

A NULL row takes part in the differences as a 0, so a value next to a NULL is reached
through two differences, `0 - x` and `y - 0`, whose losses must cancel. -/

/-- A decoded value stands for a row: it is the row's value unless the row is NULL. -/
def RowKept {α : Type} (row : Option α) (v : α) : Prop := ∀ x ∈ row, v = x

/-- Delta coding keeps every non-NULL row of the rest of a column whose last non-NULL
value is `x`; `gap` says that NULLs stand between. -/
def DeltaFits (x : ℤ) (gap : Bool) : List (Option Int64) → Prop
  | [] => True
  | none :: rows =>
    (gap = false → -2 ^ 63 < x ∧ x ≤ 2 ^ 63 - 2 ^ 31) ∧ DeltaFits x true rows
  | some y :: rows =>
    (if gap then highWord y.toInt + highWord (-x) = 0 else highWord (y.toInt - x) = 0) ∧
      DeltaFits y.toInt false rows

/-- The decoder's position after a row: on the value itself, or in a gap at the rounded
value the loss of `0 - x` leaves. -/
inductive DeltaState (x : ℤ) : Bool → Int64 → Int64 → Prop
  | onValue {prev shown : Int64} (hprev : prev.toInt = x) (hshown : shown.toInt = x) :
      DeltaState x false prev shown
  | inGap {prev shown : Int64} (hprev : prev.toInt = 0)
      (hshown : shown.toInt = -(2 ^ 32 * highWord (-x))) : DeltaState x true prev shown

theorem toInt_zero_int64 : (0 : Int64).toInt = 0 := rfl

theorem deltaImage_cons_iff {P : List Int64 → Prop} :
    (∃ out, deltaImage prev shown (v :: values) = some out ∧ P out) ↔
      ∃ w : Int64, InInt64 (v.toInt - prev.toInt) ∧
        w.toInt = shown.toInt + lowWord (v.toInt - prev.toInt) ∧
        ∃ out, deltaImage v w values = some out ∧ P (w :: out) := by
  simp only [deltaImage, bind_eq_bind, bind_eq_some_iff, checkedSub_eq_some,
    checkedAdd_eq_some, toInt_toInt32_toInt64]
  constructor
  · rintro ⟨out, ⟨d, hd, w, hw, image, himage, hout⟩, hP⟩
    cases hout
    refine ⟨w, hd ▸ inInt64_toInt d, ?_, image, himage, hP⟩
    rw [← hw, hd]
  · rintro ⟨w, hin, hw, image, himage, hP⟩
    have hd := toInt_ofInt_of_inInt64 hin
    exact ⟨w :: image, ⟨_, hd.symm, w, by rw [hd, hw], image, himage, rfl⟩, hP⟩

/-- One step of the decoder that keeps the row it produces. -/
theorem deltaImage_cons_kept_iff {row : Option Int64} {rows : List (Option Int64)} :
    (∃ out, deltaImage prev shown ((row :: rows).map fun row => row.getD 0) = some out ∧
      Forall₂ RowKept (row :: rows) out) ↔
    ∃ w : Int64, InInt64 ((row.getD 0).toInt - prev.toInt) ∧
      w.toInt = shown.toInt + lowWord ((row.getD 0).toInt - prev.toInt) ∧ RowKept row w ∧
      ∃ out, deltaImage (row.getD 0) w (rows.map fun row => row.getD 0) = some out ∧
        Forall₂ RowKept rows out := by
  rw [map_cons, deltaImage_cons_iff]
  simp only [forall₂_cons]
  constructor
  · rintro ⟨w, hin, hw, out, himage, hrow, hrows⟩
    exact ⟨w, hin, hw, hrow, out, himage, hrows⟩
  · rintro ⟨w, hin, hw, hrow, out, himage, hrows⟩
    exact ⟨w, hin, hw, out, himage, hrow, hrows⟩

/-- **Delta coding of a column with NULLs.** The decoder reproduces every non-NULL row
exactly when the rows fit. -/
theorem deltaImage_kept_iff {x : ℤ} {gap : Bool} (hstate : DeltaState x gap prev shown)
    (rows : List (Option Int64)) :
    (∃ out, deltaImage prev shown (rows.map fun row => row.getD 0) = some out ∧
      Forall₂ RowKept rows out) ↔ DeltaFits x gap rows := by
  induction rows generalizing x gap prev shown with
  | nil => simp [deltaImage, DeltaFits]
  | cons row rows ih =>
    rw [deltaImage_cons_kept_iff]
    cases row with
    | none =>
      simp only [getD_none, toInt_zero_int64]
      cases hstate with
      | onValue hprev hshown =>
        -- entering a gap: the decoder moves to the rounded value
        rw [hprev, lowWord_eq, zero_sub]
        constructor
        · rintro ⟨w, hin, hw, -, hout⟩
          have hw' : w.toInt = -(2 ^ 32 * highWord (-x)) := by omega
          refine ⟨fun _ => ?_, (ih (.inGap rfl hw')).mp hout⟩
          have hwin := inInt64_toInt w
          simp only [InInt64, highWord] at hin hwin hw'
          omega
        · rintro ⟨hx, hrest⟩
          have hz : InInt64 (-(2 ^ 32 * highWord (-x))) := by
            have := hx rfl
            simp only [InInt64, highWord]
            omega
          have hw := toInt_ofInt_of_inInt64 hz
          refine ⟨_, ?_, by rw [hw]; omega, nofun, (ih (.inGap rfl hw)).mpr hrest⟩
          have := hx rfl
          simp only [InInt64]
          omega
      | inGap hprev hshown =>
        -- inside a gap the difference is 0
        rw [hprev, hshown, sub_zero, show lowWord 0 = 0 from rfl, add_zero]
        constructor
        · rintro ⟨w, -, hw, -, hout⟩
          exact ⟨nofun, (ih (.inGap rfl hw)).mp hout⟩
        · rintro ⟨-, hrest⟩
          exact ⟨shown, inInt64_toInt 0, hshown, nofun, (ih (.inGap rfl hshown)).mpr hrest⟩
    | some y =>
      simp only [getD_some, DeltaFits]
      have hkept : ∀ w : Int64, RowKept (some y) w ↔ w = y := fun w => by simp [RowKept]
      have hy := inInt64_toInt y
      cases hstate with
      | onValue hprev hshown =>
        rw [hprev, lowWord_eq]
        simp only [hkept, Bool.false_eq_true, if_false]
        constructor
        · rintro ⟨w, -, hw, rfl, hout⟩
          exact ⟨by omega, (ih (.onValue rfl rfl)).mp hout⟩
        · rintro ⟨hhigh, hrest⟩
          refine ⟨y, ?_, by omega, rfl, (ih (.onValue rfl rfl)).mpr hrest⟩
          simp only [InInt64, highWord] at hhigh ⊢
          omega
      | inGap hprev hshown =>
        rw [hprev, sub_zero, lowWord_eq]
        simp only [hkept, if_true]
        constructor
        · rintro ⟨w, -, hw, rfl, hout⟩
          exact ⟨by omega, (ih (.onValue rfl rfl)).mp hout⟩
        · rintro ⟨hhigh, hrest⟩
          exact ⟨y, hy, by omega, rfl, (ih (.onValue rfl rfl)).mpr hrest⟩

/-- The rows of a column from its first row on: a leading NULL is stored as a 0. -/
def deltaFits : List (Option Int64) → Prop
  | [] => False
  | none :: rows => DeltaFits 0 true rows
  | some x :: rows => DeltaFits x.toInt false rows

/-- Encoding a column, NULLs as 0, and decoding it keeps every non-NULL row exactly when
the rows fit. -/
theorem deltaRoundTrip_kept_iff (rows : List (Option Int64)) :
    (∃ out, deltaRoundTrip (rows.map fun row => row.getD 0) = some out ∧
      Forall₂ RowKept rows out) ↔ deltaFits rows := by
  cases rows with
  | nil => simp [deltaRoundTrip, deltaFits]
  | cons row rows =>
    have hfirst : deltaFits (row :: rows) ↔
        ∃ out, deltaImage (row.getD 0) (row.getD 0) (rows.map fun row => row.getD 0) =
          some out ∧ Forall₂ RowKept rows out := by
      cases row with
      | none => exact (deltaImage_kept_iff (.inGap rfl rfl) rows).symm
      | some x => exact (deltaImage_kept_iff (.onValue rfl rfl) rows).symm
    have hrow : RowKept row (row.getD 0) := by
      intro x hx
      rw [mem_def.mp hx]
      rfl
    simp only [hfirst, map_cons, deltaRoundTrip, map_eq_some_iff]
    constructor
    · rintro ⟨_, ⟨out, himage, rfl⟩, hkept⟩
      exact ⟨out, himage, (forall₂_cons.mp hkept).2⟩
    · rintro ⟨out, himage, hkept⟩
      exact ⟨_, ⟨out, himage, rfl⟩, .cons hrow hkept⟩

/-! ## Wrap-around

The same two loops where a signed sum or difference that overflows wraps around, which the
language leaves undefined. -/

def wrappingDeltas (prev : Int64) : List Int64 → Bytes
  | [] => []
  | v :: values => leBytes 4 (v - prev).toInt32.toUInt32.toNat ++ wrappingDeltas v values

def wrappingSums (prev : Int64) : ℕ → Reader (List Int64)
  | 0 => pure []
  | n + 1 => do
    let u ← Reader.le 4
    let v := prev + (UInt32.ofNat u).toInt32.toInt64
    let values ← wrappingSums v n
    pure (v :: values)

/-- `DeltaDecode` of at least one row. -/
def wrappingDecode (n : ℕ) : Reader (List Int64) := do
  let first ← Reader.i64
  let values ← wrappingSums first n
  pure (first :: values)

section NoOverflow

variable {first : Int64} {n : ℕ} {rest : Bytes}

theorem wrappingDeltas_of_encode (h : deltaEncodeLoop prev values = some bs) :
    wrappingDeltas prev values = bs := by
  induction values generalizing prev bs with
  | nil =>
    cases h
    rfl
  | cons v values ih =>
    simp only [deltaEncodeLoop, bind_eq_bind, bind_eq_some_iff] at h
    obtain ⟨delta, hdelta, tail, htail, hbs⟩ := h
    cases hbs
    rw [wrappingDeltas, ih htail, sub_of_checkedSub hdelta]

/-- Where no difference overflows, `DeltaEncode` writes what the wrapping loop writes. -/
theorem deltaEncode_eq_wrapping (h : deltaEncode (first :: values) = some bs) :
    bs = i64Bytes first ++ wrappingDeltas first values := by
  obtain ⟨tail, htail, hbs⟩ := bind_eq_some_iff.mp h
  cases hbs
  rw [wrappingDeltas_of_encode htail]

theorem wrappingSums_of_decode (h : deltaDecodeLoop prev n bs = some (values, rest)) :
    wrappingSums prev n bs = some (values, rest) := by
  induction n generalizing prev bs values with
  | zero => exact h
  | succ n ih =>
    obtain ⟨u, mid, hu, h⟩ := Reader.bind_eq_some_iff.mp h
    obtain ⟨v, mid', hv, h⟩ := Reader.bind_eq_some_iff.mp h
    obtain ⟨_, hsum, hv⟩ := map_eq_some_iff.mp hv
    cases hv
    obtain ⟨tail, mid'', htail, hpure⟩ := Reader.bind_eq_some_iff.mp h
    cases hpure
    refine Reader.bind_eq_some_iff.mpr ⟨u, mid, hu, Reader.bind_eq_some_iff.mpr ?_⟩
    rw [add_of_checkedAdd hsum]
    exact ⟨tail, _, ih htail, rfl⟩

/-- Where no sum overflows, `DeltaDecode` reads what the wrapping loop reads. -/
theorem deltaDecode_eq_wrapping (h : deltaDecode (n + 1) bs = some (values, rest)) :
    wrappingDecode n bs = some (values, rest) := by
  obtain ⟨first, mid, hfirst, h⟩ := Reader.bind_eq_some_iff.mp h
  obtain ⟨tail, mid', htail, hpure⟩ := Reader.bind_eq_some_iff.mp h
  cases hpure
  exact Reader.bind_eq_some_iff.mpr ⟨first, mid, hfirst,
    Reader.bind_eq_some_iff.mpr ⟨tail, _, wrappingSums_of_decode htail, rfl⟩⟩

end NoOverflow

/-- The difference modulo `2 ^ 64` fits in a signed 32-bit integer. -/
def SmallStep (a b : Int64) : Prop := -2 ^ 31 ≤ (b - a).toInt ∧ (b - a).toInt < 2 ^ 31

theorem add_toInt32_eq_iff :
    prev + (v - prev).toInt32.toInt64 = v ↔ SmallStep prev v := by
  have hadd : prev + (v - prev).toInt32.toInt64 = v ↔
      (v - prev).toInt32.toInt64 = v - prev := by grind
  rw [hadd, ← Int64.toInt_inj, toInt_toInt32_toInt64, lowWord_eq, highWord, SmallStep]
  omega

theorem map_cons_eq_some_iff {r : Option (List Int64 × Bytes)} {w : Int64} {rest : Bytes} :
    (r.map fun p => (w :: p.1, p.2)) = some (v :: values, rest) ↔
      w = v ∧ r = some (values, rest) := by
  cases r <;> simp [Prod.ext_iff, and_assoc]

/-- A step that loses its high part shows at once: the decoder leaves the list there. -/
theorem wrappingSums_iff (prev : Int64) (values : List Int64) (rest : Bytes) :
    wrappingSums prev values.length (wrappingDeltas prev values ++ rest) = some (values, rest) ↔
      IsChain SmallStep (prev :: values) := by
  induction values generalizing prev with
  | nil => exact iff_of_true rfl (.singleton _)
  | cons v values ih =>
    have hword : (v - prev).toInt32.toUInt32.toNat < 256 ^ 4 := UInt32.toNat_lt _
    rw [isChain_cons_cons, ← ih, ← add_toInt32_eq_iff, wrappingDeltas, append_assoc, length_cons,
      wrappingSums, (reads_le hword).bind_apply, UInt32.ofNat_toNat,
      Reader.bind_pure_apply, map_cons_eq_some_iff]
    exact and_congr_right fun hv => by rw [hv]

/-- **Delta coding is exact precisely on small steps**, with differences and sums modulo
`2 ^ 64`. -/
theorem wrapping_round_trip_iff (first : Int64) (values : List Int64) (rest : Bytes) :
    wrappingDecode values.length (i64Bytes first ++ wrappingDeltas first values ++ rest) =
      some (first :: values, rest) ↔ IsChain SmallStep (first :: values) := by
  rw [← wrappingSums_iff first values rest, append_assoc, wrappingDecode,
    (reads_i64 first).bind_apply, Reader.bind_pure_apply, map_cons_eq_some_iff]
  exact and_iff_right rfl

end CppColDB
