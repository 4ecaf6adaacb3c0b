import HolbertonChain.Basic
import HolbertonChain.Lib.Except

/-!
# Difficulty (`hash_matches_difficulty.c`, `blockchain_difficulty.c`)
-/

namespace HolbertonChain

/-- The first loop of `hash_matches_difficulty`: the bytes that are left once the first `fullBytes`
have been found to be zero, or `none` at the first that is not.  A byte past the hash is out of
bounds. -/
def checkFullBytes : ℕ → List UInt8 → Exec (Option (List UInt8))
  | 0, bs => pure (some bs)
  | _ + 1, [] => throw .outOfBounds
  | n + 1, b :: bs => if b ≠ 0 then pure none else checkFullBytes n bs

/-- `hash_matches_difficulty` -/
def hashMatchesDifficulty (hash : Digest) (difficulty : UInt32) : Exec Bool := do
  let fullBytes := difficulty / 8
  let remainingBits := difficulty % 8
  match ← checkFullBytes fullBytes.toNat hash.toList with
  | none => pure false
  | some bs =>
    if remainingBits = 0 then pure true
    else
      match bs with
      | [] => throw .outOfBounds
      | b :: _ => pure (b >>> (8 - remainingBits.toUInt8) == 0)

/-- The product of two constants, assigned to a `uint64_t`.  A constant is an `int` if it fits one,
and a `long` otherwise: two `int` are multiplied as such, with a product that wraps around, before it
is converted. -/
def constantProduct (a b : ℕ) : UInt64 :=
  if a ≤ intMax ∧ b ≤ intMax then UInt64.ofInt (Int32.ofNat a * Int32.ofNat b).toInt
  else UInt64.ofNat (a * b)

/-- `blockchain_difficulty`, with `DIFFICULTY_ADJUSTMENT_INTERVAL` and
`BLOCK_GENERATION_INTERVAL` as parameters.  Times are `uint64_t` and their difference wraps; where
the chain is shorter than the interval, the `unsigned int` index of the adjusted block is out of
range. -/
def blockchainDifficultyWith (adjustmentInterval generationInterval : ℕ) (chain : List Block) :
    UInt32 :=
  match chain.getLast? with
  | none => 0
  | some lastBlock =>
    if lastBlock.info.index = 0 ∨ lastBlock.info.index.toNat % adjustmentInterval ≠ 0 then
      lastBlock.info.difficulty
    else if chain.length < adjustmentInterval then 0
    else
      match chain[chain.length - adjustmentInterval]? with
      | none => 0
      | some adjustedBlock =>
        -- the clock may have gone back, and the difference is then a huge number
        let expectedTime := constantProduct adjustmentInterval generationInterval
        let actualTime := lastBlock.info.timestamp - adjustedBlock.info.timestamp
        if actualTime < expectedTime / 2 then lastBlock.info.difficulty + 1
        else if actualTime > expectedTime * 2 then
          if lastBlock.info.difficulty > 0 then lastBlock.info.difficulty - 1 else 0
        else lastBlock.info.difficulty

/-- `blockchain_difficulty` with the intervals of `blockchain.h`. -/
def blockchainDifficulty (chain : List Block) : UInt32 := blockchainDifficultyWith 5 1 chain

/-- The product as an integer, modulo the size of its type and then modulo `2 ^ 64`. -/
theorem toNat_constantProduct (a b : ℕ) :
    ((constantProduct a b).toNat : ℤ) =
      (if a ≤ intMax ∧ b ≤ intMax then (a * b : ℤ).bmod (2 ^ 32) else a * b) % 2 ^ 64 := by
  unfold constantProduct
  split_ifs with h
  · rw [toNat_ofInt, Int32.toInt_mul, Int32.toInt_ofNat', Int32.toInt_ofNat',
      Int.bmod_mul_bmod, Int.mul_bmod_bmod]
    rfl
  · rw [UInt64.toNat_ofNat']
    push_cast
    rfl

/-- The `int` product of 5 and 600000000 is negative. -/
example : (constantProduct 5 600000000).toNat = 2 ^ 64 - 1294967296 := by decide +kernel

/-- The product fits the type it is computed in, and so does its double that of `expected_time`. -/
def ProductFits (a b : ℕ) : Prop :=
  if a ≤ intMax ∧ b ≤ intMax then a * b ≤ intMax else a * b < 2 ^ 63

instance decidableProductFits (a b : ℕ) : Decidable (ProductFits a b) :=
  inferInstanceAs <| Decidable <|
    if a ≤ intMax ∧ b ≤ intMax then a * b ≤ intMax else a * b < 2 ^ 63

theorem toNat_constantProduct_of_fits {a b : ℕ} (h : ProductFits a b) :
    (constantProduct a b).toNat = a * b ∧ a * b < 2 ^ 63 := by
  have hnat := toNat_constantProduct a b
  unfold ProductFits intMax at h
  unfold intMax at hnat
  split_ifs at h hnat with hint
  · rw [Int.bmod_eq_of_le (by push_cast; omega) (by push_cast; omega)] at hnat
    omega
  · omega

/-- A difficulty of zero is met by every hash. -/
@[simp] theorem hashMatchesDifficulty_zero (hash : Digest) :
    hashMatchesDifficulty hash 0 = .ok true := rfl

end HolbertonChain
