import HolbertonChain.Lib.Bytes
import Mathlib.Data.Nat.Bitwise
import Mathlib.Tactic.NormNum

/-!
# Integers read in the other byte order

An integer that was laid out in one byte order and is read in the other one has its bytes swapped
(`swap32`, `swap64`): the layout of `x` in the other order is the layout of its swap in this one
(`encode32_opposite`, `encode64_opposite`).  `toNat_swap32` and `toNat_swap64` are the swaps on
numbers, and `maskedBytes_eq` is the swap of four bytes as it is commonly written with masks and
shifts.
-/

namespace Bytes

/-! ### The other byte order -/

/-- The other byte order. -/
def Endian.opposite : Endian → Endian
  | .little => .big
  | .big => .little

@[simp] theorem Endian.opposite_opposite (e : Endian) : e.opposite.opposite = e := by
  cases e <;> rfl

/-- There are two byte orders. -/
theorem Endian.eq_opposite_of_ne {e f : Endian} (h : f ≠ e) : f = e.opposite := by
  cases e <;> cases f <;> first | rfl | exact absurd rfl h

/-- A 32-bit integer with its bytes swapped. -/
def swap32 (x : UInt32) : UInt32 := decode32 .little (encode32 .big x)

/-- A 64-bit integer with its bytes swapped. -/
def swap64 (x : UInt64) : UInt64 := decode64 .little (encode64 .big x)

theorem decode32_opposite (e : Endian) (x : UInt32) :
    decode32 e (encode32 e.opposite x) = swap32 x := by
  cases e with
  | little => rfl
  | big => simp [decode32, encode32, swap32, Endian.opposite, Endian.order]

theorem decode64_opposite (e : Endian) (x : UInt64) :
    decode64 e (encode64 e.opposite x) = swap64 x := by
  cases e with
  | little => rfl
  | big => simp [decode64, encode64, swap64, Endian.opposite, Endian.order]

/-- Laid out in the other order, an integer is its swap. -/
theorem encode32_opposite (e : Endian) (x : UInt32) :
    encode32 e.opposite x = encode32 e (swap32 x) := by
  rw [← decode32_opposite e, encode32_decode32]

theorem encode64_decode64 (e : Endian) (v : Bytes 8) : encode64 e (decode64 e v) = v := by
  have hlen : (e.order v.toList).length = 8 := by simp
  have hlt : ofLeBytes (e.order v.toList) < 2 ^ 64 := by
    simpa [hlen] using ofLeBytes_lt (e.order v.toList)
  have hval := UInt64.toNat_ofNat_of_lt' hlt
  apply toList_injective
  have hround := leBytes_ofLeBytes (e.order v.toList)
  rw [hlen] at hround
  simp [encode64, decode64, hval, hround]

theorem encode64_opposite (e : Endian) (x : UInt64) :
    encode64 e.opposite x = encode64 e (swap64 x) := by
  rw [← decode64_opposite e, encode64_decode64]

/-! ### The swaps on numbers -/

theorem toNat_ofNat_mod (n : ℕ) : (UInt8.ofNat (n % 256)).toNat = n % 256 := by simp

theorem toNat_swap32 (x : UInt32) :
    (swap32 x).toNat =
      x.toNat / 2 ^ 24 % 256 + 2 ^ 8 * (x.toNat / 2 ^ 16 % 256) +
        2 ^ 16 * (x.toNat / 2 ^ 8 % 256) + 2 ^ 24 * (x.toNat % 256) := by
  have hlt : ofLeBytes ((leBytes 4 x.toNat).reverse) < UInt32.size :=
    (ofLeBytes_lt _).trans_eq (by rw [List.length_reverse, length_leBytes]; rfl)
  show (UInt32.ofNat (ofLeBytes ((leBytes 4 x.toNat).reverse))).toNat = _
  rw [UInt32.toNat_ofNat_of_lt' hlt]
  simp only [leBytes, List.reverse_cons, List.reverse_nil, List.nil_append, List.cons_append,
    ofLeBytes, toNat_ofNat_mod, Nat.div_div_eq_div_mul]
  norm_num
  ring

theorem toNat_swap64 (x : UInt64) :
    (swap64 x).toNat =
      x.toNat / 2 ^ 56 % 256 + 2 ^ 8 * (x.toNat / 2 ^ 48 % 256) +
        2 ^ 16 * (x.toNat / 2 ^ 40 % 256) + 2 ^ 24 * (x.toNat / 2 ^ 32 % 256) +
        2 ^ 32 * (x.toNat / 2 ^ 24 % 256) + 2 ^ 40 * (x.toNat / 2 ^ 16 % 256) +
        2 ^ 48 * (x.toNat / 2 ^ 8 % 256) + 2 ^ 56 * (x.toNat % 256) := by
  have hlt : ofLeBytes ((leBytes 8 x.toNat).reverse) < UInt64.size :=
    (ofLeBytes_lt _).trans_eq (by rw [List.length_reverse, length_leBytes]; rfl)
  show (UInt64.ofNat (ofLeBytes ((leBytes 8 x.toNat).reverse))).toNat = _
  rw [UInt64.toNat_ofNat_of_lt' hlt]
  simp only [leBytes, List.reverse_cons, List.reverse_nil, List.nil_append, List.cons_append,
    ofLeBytes, toNat_ofNat_mod, Nat.div_div_eq_div_mul]
  norm_num
  ring

@[simp] theorem swap32_zero : swap32 0 = 0 := rfl

/-- A number of 32 bits is put together of its four bytes. -/
theorem eq_bytes {n : ℕ} (h : n < 2 ^ 32) :
    n = n % 256 + 2 ^ 8 * (n / 2 ^ 8 % 256) + 2 ^ 16 * (n / 2 ^ 16 % 256) +
      2 ^ 24 * (n / 2 ^ 24 % 256) := by
  omega

/-- The four low bytes of a number, whatever stands above them. -/
theorem lowBytes {b0 b1 b2 b3 n : ℕ} (h0 : b0 < 256) (h1 : b1 < 256) (h2 : b2 < 256)
    (h3 : b3 < 256) (above : ℕ)
    (h : n = b0 + 2 ^ 8 * b1 + 2 ^ 16 * b2 + 2 ^ 24 * b3 + 2 ^ 32 * above) :
    n % 256 = b0 ∧ n / 2 ^ 8 % 256 = b1 ∧ n / 2 ^ 16 % 256 = b2 ∧ n / 2 ^ 24 % 256 = b3 := by
  omega

@[simp] theorem swap32_swap32 (x : UInt32) : swap32 (swap32 x) = x := by
  have hbig := encode32_opposite .big (swap32 x)
  have hlittle := encode32_opposite .little x
  have hdecode := congrArg (decode32 .big) (hlittle.trans hbig)
  simpa only [Endian.opposite, decode32_encode32] using hdecode.symm

/-- Read in the other order, four bytes hold the swap. -/
theorem swap32_decode32 (e : Endian) (v : Bytes 4) :
    swap32 (decode32 e v) = decode32 e.opposite v := by
  have hround := decode32_opposite e (decode32 e.opposite v)
  rw [encode32_decode32] at hround
  rw [hround, swap32_swap32]

/-! ### Masks and shifts -/

/-- A mask of one byte cuts that byte out. -/
theorem and_byteMask (n k : ℕ) : n &&& (255 <<< k) = 2 ^ k * (n / 2 ^ k % 256) := by
  have hand : n &&& (255 <<< k) = ((n >>> k) &&& 255) <<< k := by
    apply Nat.eq_of_testBit_eq
    intro i
    simp only [Nat.testBit_and, Nat.testBit_shiftLeft, Nat.testBit_shiftRight]
    by_cases hi : k ≤ i
    · simp [hi]
    · simp [hi]
  rw [hand, Nat.shiftLeft_eq, Nat.shiftRight_eq_div_pow,
    show (255 : ℕ) = 2 ^ 8 - 1 from rfl, Nat.and_two_pow_sub_one_eq_mod, Nat.mul_comm]

/-- A number below a power of two, or a multiple of that power, is their sum. -/
theorem or_two_pow_mul {y k : ℕ} (h : y < 2 ^ k) (a : ℕ) : y ||| 2 ^ k * a = y + 2 ^ k * a := by
  rw [Nat.or_comm, ← Nat.two_pow_add_eq_or_of_lt h, Nat.add_comm]

/-- The four low bytes of a number in the other order, each cut out by a mask and shifted. -/
theorem maskedBytes_eq (n : ℕ) :
    (n &&& 0xff000000) >>> 24 ||| (n &&& 0x00ff0000) >>> 8 ||| (n &&& 0x0000ff00) <<< 8 |||
        (n &&& 0x000000ff) <<< 24 =
      n / 2 ^ 24 % 256 + 2 ^ 8 * (n / 2 ^ 16 % 256) + 2 ^ 16 * (n / 2 ^ 8 % 256) +
        2 ^ 24 * (n % 256) := by
  have h3 : (n &&& 0xff000000) >>> 24 = n / 2 ^ 24 % 256 := by
    rw [show (0xff000000 : ℕ) = 255 <<< 24 from rfl, and_byteMask, Nat.shiftRight_eq_div_pow]
    omega
  have h2 : (n &&& 0x00ff0000) >>> 8 = 2 ^ 8 * (n / 2 ^ 16 % 256) := by
    rw [show (0x00ff0000 : ℕ) = 255 <<< 16 from rfl, and_byteMask, Nat.shiftRight_eq_div_pow]
    omega
  have h1 : (n &&& 0x0000ff00) <<< 8 = 2 ^ 16 * (n / 2 ^ 8 % 256) := by
    rw [show (0x0000ff00 : ℕ) = 255 <<< 8 from rfl, and_byteMask, Nat.shiftLeft_eq]
    omega
  have h0 : (n &&& 0x000000ff) <<< 24 = 2 ^ 24 * (n % 256) := by
    rw [show (0x000000ff : ℕ) = 2 ^ 8 - 1 from rfl, Nat.and_two_pow_sub_one_eq_mod,
      Nat.shiftLeft_eq]
    omega
  -- each byte stands above the ones put together so far
  have h32 := or_two_pow_mul (show n / 2 ^ 24 % 256 < 2 ^ 8 by omega) (n / 2 ^ 16 % 256)
  have h321 := or_two_pow_mul
    (show n / 2 ^ 24 % 256 + 2 ^ 8 * (n / 2 ^ 16 % 256) < 2 ^ 16 by omega) (n / 2 ^ 8 % 256)
  have h3210 := or_two_pow_mul
    (show n / 2 ^ 24 % 256 + 2 ^ 8 * (n / 2 ^ 16 % 256) + 2 ^ 16 * (n / 2 ^ 8 % 256) < 2 ^ 24 by
      omega) (n % 256)
  rw [h3, h2, h1, h0, h32, h321, h3210]

end Bytes
