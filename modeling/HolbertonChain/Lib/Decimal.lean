import Mathlib.Data.Nat.Digits.Lemmas
import Mathlib.Data.UInt

/-!
# Numbers in decimal

`chars n` are the ASCII digits of a number, without zeros in front.  The value of the digits is the
number (`value_chars`), so that two numbers are not written in one way (`chars_injective`).
-/

namespace Decimal

/-- A number in decimal. -/
def chars (n : ℕ) : List UInt8 :=
  if n = 0 then [0x30] else ((Nat.digits 10 n).map fun d => UInt8.ofNat (0x30 + d)).reverse

/-- The number that digits stand for. -/
def value (s : List UInt8) : ℕ := s.foldl (fun n c => 10 * n + (c - 0x30).toNat) 0

theorem toNat_digit : ∀ d < 10, (UInt8.ofNat (0x30 + d)).toNat = 0x30 + d ∧
    (UInt8.ofNat (0x30 + d) - 0x30).toNat = d := by
  decide

/-- Only digits are written. -/
theorem toNat_of_mem_chars {n : ℕ} {c : UInt8} (hc : c ∈ chars n) :
    0x30 ≤ c.toNat ∧ c.toNat ≤ 0x39 := by
  rw [chars] at hc
  split_ifs at hc with hn
  · rw [List.mem_singleton.mp hc]
    decide
  · rw [List.mem_reverse, List.mem_map] at hc
    obtain ⟨d, hd, rfl⟩ := hc
    have hlt : d < 10 := Nat.digits_lt_base (by decide) hd
    rw [(toNat_digit d hlt).1]
    omega

theorem chars_ne_nil (n : ℕ) : chars n ≠ [] := by
  rw [chars]
  split_ifs with hn
  · exact List.cons_ne_nil _ _
  · rw [ne_eq, List.reverse_eq_nil_iff, List.map_eq_nil_iff]
    exact Nat.digits_ne_nil_iff_ne_zero.mpr hn

/-- The value of the digits of a number is the number. -/
theorem value_chars (n : ℕ) : value (chars n) = n := by
  rw [value, chars]
  split_ifs with hn
  · rw [hn]
    rfl
  · rw [List.foldl_reverse, List.foldr_map]
    have hdigits : ∀ ds : List ℕ, (∀ d ∈ ds, d < 10) →
        ds.foldr (fun d n => 10 * n + (UInt8.ofNat (0x30 + d) - 0x30).toNat) 0 =
          Nat.ofDigits 10 ds := by
      intro ds hds
      induction ds with
      | nil => rfl
      | cons d ds ih =>
        rw [List.forall_mem_cons] at hds
        rw [List.foldr_cons, ih hds.2, Nat.ofDigits_cons, (toNat_digit d hds.1).2, Nat.add_comm]
    rw [hdigits _ fun d hd => Nat.digits_lt_base (by decide) hd, Nat.ofDigits_digits]

theorem chars_injective : Function.Injective chars :=
  Function.LeftInverse.injective value_chars

end Decimal
