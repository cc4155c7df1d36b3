import Mathlib.Data.List.Basic

/-!
# Hash tables with chains

The entries of the table are numbered, and each bucket has a chain of the numbers of the
entries whose key belongs to it. `Chains index buckets keys` says that of a list of keys.
-/

variable {κ : Type} {index : κ → ℕ} {buckets : List (List ℕ)} {keys : List κ} {k : κ}

/-- Every chain has the numbers of the keys that belong to its bucket. -/
structure Chains (index : κ → ℕ) (buckets : List (List ℕ)) (keys : List κ) : Prop where
  lt : ∀ k ∈ keys, index k < buckets.length
  mem_iff : ∀ b chain, buckets[b]? = some chain → ∀ i : ℕ,
    i ∈ chain ↔ ∃ k, keys[i]? = some k ∧ index k = b

namespace Chains

theorem empty (n : ℕ) : Chains index (List.replicate n []) [] where
  lt := by simp
  mem_iff := by
    intro b chain hb i
    rw [List.getElem?_replicate] at hb
    split at hb <;> cases hb
    simp

/-- **A new key** is put in front of its chain. -/
theorem push (h : Chains index buckets keys) (hk : index k < buckets.length) :
    Chains index (buckets.modify (index k) (keys.length :: ·)) (keys ++ [k]) where
  lt := by
    rw [List.length_modify, List.forall_mem_append, List.forall_mem_singleton]
    exact ⟨h.lt, hk⟩
  mem_iff := by
    intro b chain hb i
    rw [List.getElem?_modify, Option.map_eq_map, Option.map_eq_some_iff] at hb
    obtain ⟨old, hold, rfl⟩ := hb
    have hmem := h.mem_iff b old hold i
    have hlast : (keys ++ [k])[keys.length]? = some k := by simp
    rcases Nat.lt_trichotomy i keys.length with hi | rfl | hi
    · rw [List.getElem?_append_left hi, ← hmem]
      split
      · simp [Nat.ne_of_lt hi]
      · rfl
    · have hnew : keys.length ∉ old := by simp [hmem]
      simp only [hlast, Option.some.injEq, exists_eq_left']
      split
      next heq => simp [heq]
      next hne => simp [hnew, hne]
    · have hnone : (keys ++ [k])[i]? = none := by
        rw [List.getElem?_eq_none_iff, List.length_append, List.length_singleton]
        omega
      have hold' : i ∉ old := by
        rw [hmem, List.getElem?_eq_none (Nat.le_of_lt hi)]
        simp
      simp only [hnone, reduceCtorEq, false_and, exists_false, iff_false]
      split
      · simp [hold', Nat.ne_of_gt hi]
      · exact hold'

/-- The chain of a key that is there has its number. -/
theorem mem (h : Chains index buckets keys) {b i : ℕ} {chain : List ℕ}
    (hb : buckets[b]? = some chain) (hi : keys[i]? = some k) (hk : index k = b) : i ∈ chain :=
  (h.mem_iff b chain hb i).mpr ⟨k, hi, hk⟩

end Chains
