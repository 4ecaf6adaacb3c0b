import Mathlib.Data.Nat.Bitwise
import Mathlib.Tactic.IntervalCases

/-!
# The leading zero bits of a byte array

`bit bs k` is the bit at position `k` of an array of bytes, the most significant bit of the first
byte first.  `LeadingZeros bs n` says that there are `n` bits and that the first `n` are zero; it
can be decided byte by byte (`leadingZeros_cons_add_eight`), and on the last byte by a shift
(`leadingZeros_cons_iff_shiftRight`).
-/

namespace Bits

/-- The bit at position `k`, the most significant bit of the first byte being at position 0. -/
def bit (bs : List UInt8) (k : ℕ) : Bool := (bs.getD (k / 8) 0).toNat.testBit (7 - k % 8)

/-- There are `n` bits, and the first `n` are zero. -/
def LeadingZeros (bs : List UInt8) (n : ℕ) : Prop :=
  n ≤ 8 * bs.length ∧ ∀ k < n, bit bs k = false

instance (bs : List UInt8) (n : ℕ) : Decidable (LeadingZeros bs n) :=
  inferInstanceAs (Decidable (_ ∧ _))

variable {b : UInt8} {bs : List UInt8} {m n : ℕ}

/-! ### One byte -/

theorem bit_cons_of_lt (h : n < 8) : bit (b :: bs) n = b.toNat.testBit (7 - n) := by
  rw [bit, Nat.div_eq_of_lt h, Nat.mod_eq_of_lt h]
  rfl

@[simp] theorem bit_cons_add_eight : bit (b :: bs) (n + 8) = bit bs n := by
  rw [bit, Nat.add_div_right n (by decide), Nat.add_mod_right]
  rfl

/-- The first `n` bits of a byte are zero if and only if the byte is less than `2 ^ (8 - n)`. -/
theorem forall_bit_cons_iff_lt (h : n ≤ 8) :
    (∀ k < n, bit (b :: bs) k = false) ↔ b.toNat < 2 ^ (8 - n) := by
  constructor
  · intro hzero
    apply Nat.lt_pow_two_of_testBit
    intro i hi
    by_cases h8 : i < 8
    · have hbit := hzero (7 - i) (by omega)
      rw [bit_cons_of_lt (by omega)] at hbit
      rwa [show 7 - (7 - i) = i by omega] at hbit
    · -- a byte has no bit there
      have hbyte : b.toNat < 2 ^ 8 := b.toNat_lt
      exact Nat.testBit_lt_two_pow (hbyte.trans_le (Nat.pow_le_pow_right (by decide) (by omega)))
  · intro hlt k hk
    rw [bit_cons_of_lt (by omega)]
    exact Nat.testBit_lt_two_pow (hlt.trans_le (Nat.pow_le_pow_right (by decide) (by omega)))

theorem forall_bit_cons_eight_iff : (∀ k < 8, bit (b :: bs) k = false) ↔ b = 0 := by
  rw [forall_bit_cons_iff_lt le_rfl, Nat.sub_self, Nat.pow_zero, Nat.lt_one_iff]
  exact UInt8.toNat_inj (b := 0)

/-! ### Byte by byte -/

@[simp] theorem leadingZeros_zero (bs : List UInt8) : LeadingZeros bs 0 :=
  ⟨Nat.zero_le _, fun _ h => absurd h (Nat.not_lt_zero _)⟩

theorem leadingZeros_cons_add_eight :
    LeadingZeros (b :: bs) (n + 8) ↔ b = 0 ∧ LeadingZeros bs n := by
  have hlen : n + 8 ≤ 8 * (b :: bs).length ↔ n ≤ 8 * bs.length := by
    rw [List.length_cons]
    omega
  have hbits : (∀ k < n + 8, bit (b :: bs) k = false) ↔ b = 0 ∧ ∀ k < n, bit bs k = false := by
    constructor
    · intro h
      refine ⟨forall_bit_cons_eight_iff.mp fun k hk => h k (by omega), fun k hk => ?_⟩
      have hbit := h (k + 8) (by omega)
      rwa [bit_cons_add_eight] at hbit
    · rintro ⟨hb, hbs⟩ k hk
      by_cases h8 : k < 8
      · exact forall_bit_cons_eight_iff.mpr hb k h8
      · obtain ⟨j, rfl⟩ : ∃ j, k = j + 8 := ⟨k - 8, by omega⟩
        rw [bit_cons_add_eight]
        exact hbs j (by omega)
  rw [LeadingZeros, LeadingZeros, hlen, hbits]
  exact and_left_comm

/-- The first `n < 8` bits of a byte are zero if and only if it is zero without its last `8 - n`
bits. -/
theorem leadingZeros_cons_iff_shiftRight (hpos : 0 < n) (h : n < 8) :
    LeadingZeros (b :: bs) n ↔ b >>> (8 - UInt8.ofNat n) = 0 := by
  have hlen : n ≤ 8 * (b :: bs).length := by
    rw [List.length_cons]
    omega
  have hshift : (8 - UInt8.ofNat n).toNat % 8 = 8 - n := by
    interval_cases n <;> rfl
  rw [LeadingZeros, and_iff_right hlen, forall_bit_cons_iff_lt h.le, ← UInt8.toNat_inj,
    UInt8.toNat_shiftRight, hshift, Nat.shiftRight_eq_div_pow, UInt8.toNat_zero,
    Nat.div_eq_zero_iff_lt (Nat.two_pow_pos _)]

/-! ### Fewer bits -/

theorem LeadingZeros.mono (h : LeadingZeros bs n) (hmn : m ≤ n) : LeadingZeros bs m :=
  ⟨hmn.trans h.1, fun k hk => h.2 k (by omega)⟩

end Bits
