import Mathlib.Data.List.Forall2
import Mathlib.Tactic.Ring

/-!
# Byte strings and byte cursors

Little-endian numerals, and readers that consume a byte string from the left. A
reader is specified by the byte strings it consumes: `Reads r bs a` says that `r`
takes exactly `bs` off the front of any input and returns `a`.
-/

namespace ByteCodec

/-- A byte string. -/
abbrev Bytes := List UInt8

/-! ## Little-endian numerals -/

/-- The `n` low bytes of `v`, least significant first. -/
def leBytes : ℕ → ℕ → Bytes
  | 0, _ => []
  | n + 1, v => UInt8.ofNat v :: leBytes n (v / 256)

/-- The number whose bytes, least significant first, are `bs`. -/
def ofLeBytes : Bytes → ℕ
  | [] => 0
  | b :: bs => b.toNat + 256 * ofLeBytes bs

@[simp] theorem length_leBytes (n v : ℕ) : (leBytes n v).length = n := by
  induction n generalizing v with
  | zero => rfl
  | succ n ih => simp [leBytes, ih]

theorem ofLeBytes_leBytes (n v : ℕ) : ofLeBytes (leBytes n v) = v % 256 ^ n := by
  induction n generalizing v with
  | zero => simp [leBytes, ofLeBytes, Nat.mod_one]
  | succ n ih =>
    have hb : (UInt8.ofNat v).toNat = v % 256 := rfl
    rw [leBytes, ofLeBytes, ih, hb, pow_succ', Nat.mod_mul]

/-! ## Readers -/

/-- A computation that consumes bytes from the left of its input; `none` when it
needs bytes that are not there. -/
abbrev Reader := StateT Bytes Option

namespace Reader

/-- Take one byte. -/
def byte : Reader UInt8 := fun
  | [] => none
  | b :: rest => some (b, rest)

/-- Take `n` bytes. -/
def bytes (n : ℕ) : Reader Bytes := fun input =>
  if n ≤ input.length then some (input.take n, input.drop n) else none

/-- Take an `n`-byte little-endian numeral. -/
def le (n : ℕ) : Reader ℕ := do
  let bs ← bytes n
  pure (ofLeBytes bs)

/-- Run a reader `n` times and collect the results in order. -/
def many {α : Type} (r : Reader α) : ℕ → Reader (List α)
  | 0 => pure []
  | n + 1 => do
    let a ← r
    let as ← many r n
    pure (a :: as)

/-- A computation that consumes nothing and may fail. -/
def lift {α : Type} (o : Option α) : Reader α := fun input => o.map fun a => (a, input)

section Apply
variable {α β : Type}

@[simp] theorem pure_apply (a : α) (input : Bytes) :
    (pure a : Reader α) input = some (a, input) := rfl

theorem bind_apply (r : Reader α) (f : α → Reader β) (input : Bytes) :
    (r >>= f) input = (r input).bind fun p => f p.1 p.2 := rfl

theorem bind_eq_some_iff {r : Reader α} {f : α → Reader β} {input rest : Bytes} {b : β} :
    (r >>= f) input = some (b, rest) ↔
      ∃ a mid, r input = some (a, mid) ∧ f a mid = some (b, rest) := by
  rw [bind_apply, Option.bind_eq_some_iff]
  exact Prod.exists

theorem bind_pure_apply (r : Reader α) (f : α → β) (input : Bytes) :
    (r >>= fun a => pure (f a)) input = (r input).map fun p => (f p.1, p.2) := by
  rw [bind_apply]
  cases r input <;> rfl

@[simp] theorem lift_some_bind (a : α) (f : α → Reader β) (input : Bytes) :
    (lift (some a) >>= f) input = f a input := rfl

end Apply

end Reader

/-- `r` consumes exactly `bs`, whatever follows, and returns `a`. -/
def Reads {α : Type} (r : Reader α) (bs : Bytes) (a : α) : Prop :=
  ∀ rest, r (bs ++ rest) = some (a, rest)

section Reads
variable {α β : Type} {bs : Bytes} {r : Reader α} {a : α} {xs : List α}

theorem Reads.eq (h : Reads r bs a) (rest : Bytes) : r (bs ++ rest) = some (a, rest) := h rest

theorem reads_pure (a : α) : Reads (pure a) [] a := fun _ => rfl

theorem reads_lift (a : α) : Reads (Reader.lift (some a)) [] a := fun _ => rfl

/-- What a reader does after a step that consumes `bs`. -/
theorem Reads.bind_apply (h : Reads r bs a)
    (f : α → Reader β) (rest : Bytes) : (r >>= f) (bs ++ rest) = f a rest := by
  rw [Reader.bind_apply, h.eq]
  rfl

/-- Readers compose along concatenation. -/
theorem Reads.bind {f : α → Reader β} {cs : Bytes} {b : β} (hr : Reads r bs a)
    (hf : Reads (f a) cs b) : Reads (r >>= f) (bs ++ cs) b := by
  intro rest
  rw [List.append_assoc, hr.bind_apply]
  exact hf rest

/-- A last step that only computes consumes nothing. -/
theorem Reads.map (hr : Reads r bs a) (f : α → β) :
    Reads (r >>= fun x => pure (f x)) bs (f a) := by
  have h := hr.bind (reads_pure (f a)) (f := fun x => pure (f x))
  rwa [List.append_nil] at h

theorem reads_byte (b : UInt8) : Reads Reader.byte [b] b := fun _ => rfl

theorem reads_bytes (bs : Bytes) : Reads (Reader.bytes bs.length) bs bs := by
  intro rest
  simp [Reader.bytes]

theorem reads_le_mod (n v : ℕ) : Reads (Reader.le n) (leBytes n v) (v % 256 ^ n) := by
  have hb := reads_bytes (leBytes n v)
  rw [length_leBytes] at hb
  have hm := hb.map ofLeBytes
  rwa [ofLeBytes_leBytes] at hm

theorem reads_le {n v : ℕ} (h : v < 256 ^ n) : Reads (Reader.le n) (leBytes n v) v := by
  have hm := reads_le_mod n v
  rwa [Nat.mod_eq_of_lt h] at hm

/-- A repeated reader consumes the concatenation of what each run consumes. -/
theorem reads_many_of_forall₂ {γ : Type} {enc : γ → Bytes} {cs : List γ}
    (h : List.Forall₂ (fun x c => Reads r (enc c) x) xs cs) :
    Reads (Reader.many r xs.length) (cs.flatMap enc) xs := by
  induction h with
  | nil => exact reads_pure []
  | @cons x c xs cs hx _ ih => exact hx.bind (ih.map fun as => x :: as)

theorem reads_many {enc : α → Bytes}
    (h : ∀ x ∈ xs, Reads r (enc x) x) : Reads (Reader.many r xs.length) (xs.flatMap enc) xs :=
  reads_many_of_forall₂ (List.forall₂_same.mpr h)

/-- Reading bytes one by one is taking them at once. -/
theorem many_byte (n : ℕ) (input : Bytes) :
    Reader.many Reader.byte n input = Reader.bytes n input := by
  induction n generalizing input with
  | zero => simp [Reader.many, Reader.bytes]
  | succ n ih =>
    cases input with
    | nil => rfl
    | cons b rest =>
      have hb : (Reader.byte >>= fun a => Reader.many Reader.byte n >>= fun as =>
          pure (a :: as)) (b :: rest) =
          (Reader.many Reader.byte n >>= fun as => pure (b :: as)) rest := rfl
      rw [Reader.many, hb, Reader.bind_pure_apply, ih, Reader.bytes, Reader.bytes]
      by_cases h : n ≤ rest.length <;> simp [h]

end Reads

/-! ## Lists of partial results -/

variable {α β : Type} {xs : List α} {f : α → Option β} {r : Reader α}

/-- A traversal succeeds when it succeeds element by element. -/
theorem mapM_eq_some_iff {ys : List β} :
    xs.mapM f = some ys ↔ List.Forall₂ (fun x y => f x = some y) xs ys := by
  induction xs generalizing ys with
  | nil => simp [eq_comm]
  | cons x xs ih =>
    rw [List.mapM_cons]
    simp only [Option.bind_eq_bind, Option.bind_eq_some_iff, ih]
    constructor
    · rintro ⟨y, hy, ys, hys, hcons⟩
      cases hcons
      exact .cons hy hys
    · rintro (_ | ⟨hy, hys⟩)
      exact ⟨_, hy, _, hys, rfl⟩

/-- A loop whose every element gives a result in a relation to it. -/
theorem exists_mapM_forall₂ {R : α → β → Prop} (h : ∀ x ∈ xs, ∃ y, f x = some y ∧ R x y) :
    ∃ ys, xs.mapM f = some ys ∧ List.Forall₂ R xs ys := by
  simp only [mapM_eq_some_iff]
  induction xs with
  | nil => exact ⟨[], .nil, .nil⟩
  | cons x xs ih =>
    obtain ⟨⟨y, hy, hR⟩, hrest⟩ := List.forall_mem_cons.mp h
    obtain ⟨ys, hys, hRs⟩ := ih hrest
    exact ⟨y :: ys, .cons hy hys, .cons hR hRs⟩

/-- A traversal succeeds when every element does. -/
theorem exists_mapM_eq_some_iff :
    (∃ ys, xs.mapM f = some ys) ↔ ∀ x ∈ xs, ∃ y, f x = some y := by
  simp only [mapM_eq_some_iff]
  induction xs with
  | nil => simp
  | cons x xs ih =>
    simp only [List.mem_cons, forall_eq_or_imp, ← ih]
    constructor
    · rintro ⟨_, _ | ⟨hy, hys⟩⟩
      exact ⟨⟨_, hy⟩, _, hys⟩
    · rintro ⟨⟨y, hy⟩, ys, hys⟩
      exact ⟨y :: ys, .cons hy hys⟩

/-! ## Signed 64-bit words -/

/-- The eight bytes of the two's complement representation of `v`. -/
def i64Bytes (v : Int64) : Bytes := leBytes 8 v.toUInt64.toNat

/-- Take a signed 64-bit word. -/
def Reader.i64 : Reader Int64 := do
  let n ← le 8
  pure (UInt64.ofNat n).toInt64

@[simp] theorem length_i64Bytes (v : Int64) : (i64Bytes v).length = 8 := length_leBytes 8 _

theorem reads_i64 (v : Int64) : Reads Reader.i64 (i64Bytes v) v := by
  have h := (reads_le (n := 8) v.toUInt64.toNat_lt).map fun n => (UInt64.ofNat n).toInt64
  rwa [UInt64.ofNat_toNat, Int64.toInt64_toUInt64] at h

/-! ## Byte strings with a 16-bit length -/

/-- The low 16 bits of the length, then the string itself. -/
def str16Bytes (s : Bytes) : Bytes := leBytes 2 s.length ++ s

/-- Take a string behind a 16-bit length. -/
def Reader.str16 : Reader Bytes := do
  let n ← le 2
  bytes n

theorem reads_str16 {s : Bytes} (h : s.length < 2 ^ 16) : Reads Reader.str16 (str16Bytes s) s :=
  (reads_le (n := 2) h).bind (reads_bytes s)

/-! ## Lists with a 32-bit length -/

/-- The low 32 bits of the length, then the elements. -/
def list32Bytes {α : Type} (enc : α → Bytes) (xs : List α) : Bytes :=
  leBytes 4 xs.length ++ xs.flatMap enc

/-- Take as many elements as a 32-bit length says. -/
def Reader.list32 {α : Type} (r : Reader α) : Reader (List α) := do
  let n ← le 4
  many r n

theorem reads_list32_of_forall₂ {cs : List Bytes} (h : List.Forall₂ (fun x c => Reads r c x) xs cs)
    (hlen : xs.length < 2 ^ 32) :
    Reads (Reader.list32 r) (leBytes 4 xs.length ++ cs.flatten) xs := by
  rw [← List.flatMap_id]
  exact (reads_le hlen).bind (reads_many_of_forall₂ h)

theorem reads_list32 {enc : α → Bytes}
    (h : ∀ x ∈ xs, Reads r (enc x) x) (hlen : xs.length < 2 ^ 32) :
    Reads (Reader.list32 r) (list32Bytes enc xs) xs :=
  (reads_le (n := 4) hlen).bind (reads_many h)

end ByteCodec
