namespace Errand

def int32? (n : Int) : Option Int32 :=
  if h : Int32.minValue.toInt ≤ n ∧ n ≤ Int32.maxValue.toInt then
    some (Int32.ofIntLE n h.1 h.2)
  else none

def uint32? (n : Int) : Option UInt32 :=
  if 0 ≤ n ∧ n < UInt32.size then some (UInt32.ofNat n.toNat) else none

def uint64? (n : Int) : Option UInt64 :=
  if 0 ≤ n ∧ n < UInt64.size then some (UInt64.ofNat n.toNat) else none

theorem int32?_toInt (a : Int32) : int32? a.toInt = some a := by
  have h : Int32.minValue.toInt ≤ a.toInt ∧ a.toInt ≤ Int32.maxValue.toInt :=
    ⟨Int32.minValue_le_toInt a, Int32.toInt_le a⟩
  rw [int32?, dif_pos h, Option.some_inj, ← Int32.toInt_inj, Int32.toInt_ofIntLE]

theorem toInt_of_int32? {n : Int} {a : Int32} (h : int32? n = some a) : a.toInt = n := by
  rw [int32?] at h
  split at h
  · simpa using (congrArg Int32.toInt (Option.some.inj h)).symm
  · simp at h

theorem uint32?_toNat (a : UInt32) : uint32? a.toNat = some a := by
  have h := a.toNat_lt
  simp [uint32?]
  omega

theorem uint64?_toNat (a : UInt64) : uint64? a.toNat = some a := by
  have h := a.toNat_lt
  simp [uint64?]
  omega

end Errand
