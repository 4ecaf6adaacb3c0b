import Mathlib.Data.UInt

/-!
# Hexadecimal digits

The ASCII characters `0` to `9`, `a` to `f` and `A` to `F` with their values, and the change of case
that leaves them (`value?_lower`, `value?_upper`).
-/

namespace Hex

/-- The value of a hexadecimal digit of either case. -/
def value? (c : UInt8) : Option ℕ :=
  if 0x30 ≤ c ∧ c ≤ 0x39 then some (c.toNat - 0x30)
  else if 0x61 ≤ c ∧ c ≤ 0x66 then some (c.toNat - 0x61 + 10)
  else if 0x41 ≤ c ∧ c ≤ 0x46 then some (c.toNat - 0x41 + 10)
  else none

/-- The character is a hexadecimal digit. -/
def IsDigit (c : UInt8) : Prop := (value? c).isSome

instance : DecidablePred IsDigit := fun c => inferInstanceAs (Decidable ((value? c).isSome))

/-- Every character is a digit. -/
def AllDigits (s : List UInt8) : Prop := ∀ c ∈ s, IsDigit c

instance : DecidablePred AllDigits := fun s => List.decidableBAll IsDigit s

/-- The lower-case letter of an upper-case one. -/
def lower (c : UInt8) : UInt8 := if 0x41 ≤ c ∧ c ≤ 0x5a then c + 0x20 else c

/-- The upper-case letter of a lower-case one. -/
def upper (c : UInt8) : UInt8 := if 0x61 ≤ c ∧ c ≤ 0x7a then c - 0x20 else c

variable {c : UInt8}

theorem toNat_lower :
    (lower c).toNat = if 0x41 ≤ c.toNat ∧ c.toNat ≤ 0x5a then c.toNat + 0x20 else c.toNat := by
  unfold lower
  simp only [UInt8.le_iff_toNat_le, show (0x41 : UInt8).toNat = 0x41 from rfl,
    show (0x5a : UInt8).toNat = 0x5a from rfl]
  split_ifs with h
  · rw [UInt8.toNat_add, show (0x20 : UInt8).toNat = 0x20 from rfl]
    omega
  · rfl

theorem toNat_upper :
    (upper c).toNat = if 0x61 ≤ c.toNat ∧ c.toNat ≤ 0x7a then c.toNat - 0x20 else c.toNat := by
  unfold upper
  simp only [UInt8.le_iff_toNat_le, show (0x61 : UInt8).toNat = 0x61 from rfl,
    show (0x7a : UInt8).toNat = 0x7a from rfl]
  split_ifs with h
  · rw [UInt8.toNat_sub_of_le _ _ (UInt8.le_iff_toNat_le.mpr _)]
    · rfl
    · rw [show (0x20 : UInt8).toNat = 0x20 from rfl]
      omega
  · rfl

/-- The value of a digit, on the number of its character. -/
theorem value?_eq :
    value? c =
      if 0x30 ≤ c.toNat ∧ c.toNat ≤ 0x39 then some (c.toNat - 0x30)
      else if 0x61 ≤ c.toNat ∧ c.toNat ≤ 0x66 then some (c.toNat - 0x61 + 10)
      else if 0x41 ≤ c.toNat ∧ c.toNat ≤ 0x46 then some (c.toNat - 0x41 + 10)
      else none := by
  unfold value?
  simp only [UInt8.le_iff_toNat_le]
  rfl

@[simp] theorem value?_lower : value? (lower c) = value? c := by
  rw [value?_eq, value?_eq, toNat_lower]
  split_ifs <;> first | omega | (apply congrArg some; omega) | rfl

@[simp] theorem value?_upper : value? (upper c) = value? c := by
  rw [value?_eq, value?_eq, toNat_upper]
  split_ifs <;> first | omega | (apply congrArg some; omega) | rfl

theorem lower_upper (c : UInt8) : lower (upper c) = lower c := by
  apply UInt8.toNat_inj.mp
  rw [toNat_lower, toNat_lower, toNat_upper]
  split_ifs <;> omega

theorem isDigit_upper_iff : IsDigit (upper c) ↔ IsDigit c := by
  unfold IsDigit
  rw [value?_upper]

end Hex
