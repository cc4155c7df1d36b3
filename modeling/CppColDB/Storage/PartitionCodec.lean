import CppColDB.Storage.Wal.Log

/-!
# Reading partition metadata

The layout of partition metadata is the same in the log and in a checkpoint. What is read
back has the columns, the count and the definitions that the type of partitioning uses; the
column indices are not part of the layout.
-/

namespace CppColDB

open ByteCodec Except List Reader

/-- The cast from the underlying byte. -/
def PartitionType.ofByte (b : UInt8) : PartitionType :=
  if h : 3 < b then unnamed b h
  else match b.toNat with
    | 0 => none
    | 1 => range
    | 2 => hash
    | _ => list

@[simp] theorem PartitionType.ofByte_toByte (t : PartitionType) : ofByte t.toByte = t := by
  cases t with
  | unnamed code h => simp [toByte, ofByte, h]
  | _ => rfl

/-! ## Values -/

/-- `ReadVal`. -/
def readVal : Reader Value := do
  let type := TypeId.ofByte (← byte)
  match type with
  | .varchar => do
    let s ← str16
    pure (Value.varchar s)
  | .float32 | .float64 => do
    let bits ← le 8
    pure { type, data := .float (UInt64.ofNat bits) }
  | _ => do
    let x ← i64
    pure { type, data := .int x }

/-- A string of the value has a length that 16 bits can say. -/
def Value.Short (v : Value) : Prop := ∀ s, v.data = .str s → s.length < 2 ^ 16

theorem reads_double (type : TypeId) (bits : UInt64) :
    Reads (do
      let bits ← le 8
      pure { type, data := .float (UInt64.ofNat bits) } : Reader Value)
      (leBytes 8 bits.toNat) { type, data := .float bits } := by
  have h := (reads_le (n := 8) bits.toNat_lt).map fun n =>
    ({ type, data := .float (UInt64.ofNat n) } : Value)
  rwa [UInt64.ofNat_toNat] at h

variable {bs : Bytes}

theorem reads_val {v : Value} (h : valueBytes v = .ok bs) (hshort : v.Short) :
    Reads readVal bs v := by
  obtain ⟨type, data⟩ := v
  cases type <;> cases data <;> cases h
  case int8.int x | int16.int x | int32.int x | int64.int x =>
    exact (reads_byte _).bind ((reads_i64 x).map _)
  case float32.float bits | float64.float bits => exact (reads_byte _).bind (reads_double _ bits)
  case varchar.str s => exact (reads_byte _).bind ((reads_str16 (hshort s rfl)).map Value.varchar)

/-- Values behind their number. -/
theorem reads_vals {vs : List Value} (h : valuesBytes vs = .ok bs)
    (hshort : ∀ v ∈ vs, v.Short) (hlen : vs.length < 2 ^ 32) :
    Reads (list32 readVal) bs vs := by
  obtain ⟨parts, hparts, h⟩ := bind_eq_ok_iff.mp h
  cases h
  have hall := (forall₂_and_left _ _).mpr ⟨hshort, mapM_eq_ok_iff.mp hparts⟩
  exact reads_list32_of_forall₂ (hall.imp fun v c hc => reads_val hc.2 hc.1) hlen

/-! ## Definitions -/

/-- The definitions behind the number of partitions. -/
def readDefs (type : PartitionType) : Reader (List PartitionDef) :=
  match type with
  | .range => list32 do
      let upperBounds ← list32 readVal
      pure { upperBounds }
  | .list => list32 do
      let listValues ← list32 (list32 readVal)
      pure { listValues }
  | .none | .hash | .unnamed _ _ => pure []

def readPartition : Reader PartitionInfo := do
  let type := PartitionType.ofByte (← byte)
  if type ≠ .none then do
    let partitionCols ← list32 str16
    let numPartitions ← le 4
    let defs ← readDefs type
    pure { type, partitionCols, numPartitions, defs }
  else pure { type }

/-- The part of a definition that the type of partitioning uses. -/
def PartitionDef.layout (type : PartitionType) (d : PartitionDef) : PartitionDef :=
  match type with
  | .range => { upperBounds := d.upperBounds }
  | _ => { listValues := d.listValues }

/-- The part of the metadata that is written. -/
def PartitionInfo.layout (pi : PartitionInfo) : PartitionInfo :=
  if pi.isPartitioned then
    { type := pi.type, partitionCols := pi.partitionCols, numPartitions := pi.numPartitions
      defs := match pi.type with
        | .range | .list => pi.defs.map (PartitionDef.layout pi.type)
        | .none | .hash | .unnamed _ _ => [] }
  else { type := pi.type }

/-- Lengths and numbers that the fields of the layout can say. -/
structure PartitionInfo.Writable (pi : PartitionInfo) : Prop where
  cols : pi.partitionCols.length < 2 ^ 32 ∧ ∀ c ∈ pi.partitionCols, c.length < 2 ^ 16
  numPartitions : pi.numPartitions < 2 ^ 32
  defs : pi.defs.length < 2 ^ 32
  bounds : ∀ d ∈ pi.defs, d.upperBounds.length < 2 ^ 32 ∧ ∀ v ∈ d.upperBounds, v.Short
  values : ∀ d ∈ pi.defs, d.listValues.length < 2 ^ 32 ∧
    ∀ tuple ∈ d.listValues, tuple.length < 2 ^ 32 ∧ ∀ v ∈ tuple, v.Short

variable {pi : PartitionInfo}

/-- The definitions are written one after the other behind their number. -/
theorem reads_defs_of {enc : PartitionDef → Except Error Bytes}
    {r : Reader PartitionDef} {type : PartitionType} (h : (do
      let bs ← pi.defs.mapM enc
      pure (leBytes 4 pi.defs.length ++ bs.flatten)) = .ok bs) (hlen : pi.defs.length < 2 ^ 32)
    (hr : ∀ d ∈ pi.defs, ∀ b, enc d = .ok b → Reads r b (d.layout type)) :
    Reads (list32 r) bs (pi.defs.map (PartitionDef.layout type)) := by
  obtain ⟨parts, hparts, h⟩ := bind_eq_ok_iff.mp h
  cases h
  have hall := (forall₂_and_left _ _).mpr ⟨hr, mapM_eq_ok_iff.mp hparts⟩
  have hread := reads_list32_of_forall₂ (forall₂_map_left_iff.mpr
    (hall.imp fun d c hd => hd.1 c hd.2)) (by rwa [length_map])
  rwa [length_map] at hread

theorem reads_defs (h : defsBytes pi = .ok bs)
    (hw : pi.Writable) : Reads (readDefs pi.type) bs (match pi.type with
      | .range | .list => pi.defs.map (PartitionDef.layout pi.type)
      | .none | .hash | .unnamed _ _ => []) := by
  rw [defsBytes] at h
  cases htype : pi.type with
  | range =>
    simp only [htype] at h
    refine reads_defs_of h hw.defs fun d hd b hb => ?_
    obtain ⟨hlen, hshort⟩ := hw.bounds d hd
    exact (reads_vals hb hshort hlen).map fun upperBounds => ({ upperBounds } : PartitionDef)
  | list =>
    simp only [htype] at h
    refine reads_defs_of h hw.defs fun d hd b hb => ?_
    obtain ⟨hlen, htuples⟩ := hw.values d hd
    obtain ⟨parts, hparts, hb⟩ := bind_eq_ok_iff.mp hb
    cases hb
    have hall := (forall₂_and_left _ _).mpr ⟨htuples, mapM_eq_ok_iff.mp hparts⟩
    exact (reads_list32_of_forall₂ (hall.imp fun tuple c hc =>
      reads_vals hc.2 hc.1.2 hc.1.1) hlen).map fun listValues =>
        ({ listValues } : PartitionDef)
  | none | hash | unnamed code hcode =>
    simp only [htype] at h
    cases h
    exact reads_pure []

/-- **Partition metadata is read back** as far as its layout goes. -/
theorem reads_partition (h : partitionBytes pi = .ok bs)
    (hw : pi.Writable) : Reads readPartition bs pi.layout := by
  rw [partitionBytes] at h
  rw [PartitionInfo.layout]
  have htype := reads_byte pi.type.toByte
  split at h
  next hpart =>
    obtain ⟨defs, hdefs, h⟩ := bind_eq_ok_iff.mp h
    cases h
    rw [if_pos hpart]
    refine htype.bind ?_
    rw [PartitionType.ofByte_toByte, if_pos (of_decide_eq_true hpart)]
    exact (reads_list32 (fun c hc => reads_str16 (hw.cols.2 c hc)) hw.cols.1).bind
      ((reads_le hw.numPartitions).bind ((reads_defs hdefs hw).map _))
  next hpart =>
    cases h
    rw [if_neg hpart]
    have hnone : ¬ pi.type ≠ .none := fun hne => hpart (decide_eq_true hne)
    change Reads _ ([pi.type.toByte] ++ []) _
    refine htype.bind ?_
    rw [PartitionType.ofByte_toByte, if_neg hnone]
    exact reads_pure _

end CppColDB
