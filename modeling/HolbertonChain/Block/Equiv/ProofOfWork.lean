import HolbertonChain.Block.Difficulty
import HolbertonChain.Lib.LeadingZeros
import Mathlib.Data.UInt

/-!
# The test of the difficulty

`hash_matches_difficulty` counts the leading zero bits of a hash: as long as it finds a byte that is
not zero, or the difficulty is at most 256, its answer is whether that many bits are there and zero
(`hashMatchesDifficulty_eq_ok`).  On the hash of zeros only, a difficulty above 256 takes it past
the end of the hash (`hashMatchesDifficulty_zero_of_lt`).
-/

namespace HolbertonChain

open Bytes Bits

/-! ### The loop over the bytes -/

/-- What `hash_matches_difficulty` answers on some bytes, for a number of full bytes and a number of
remaining bits. -/
def matchesBits (fullBytes : ℕ) (remainingBits : UInt32) (bs : List UInt8) : Exec Bool := do
  match ← checkFullBytes fullBytes bs with
  | none => pure false
  | some bs =>
    if remainingBits = 0 then pure true
    else
      match bs with
      | [] => throw .outOfBounds
      | b :: _ => pure (b >>> (8 - remainingBits.toUInt8) == 0)

theorem hashMatchesDifficulty_eq_matchesBits (hash : Digest) (difficulty : UInt32) :
    hashMatchesDifficulty hash difficulty =
      matchesBits (difficulty / 8).toNat (difficulty % 8) hash.toList := rfl

theorem matchesBits_succ_cons (n : ℕ) (r : UInt32) (b : UInt8) (bs : List UInt8) :
    matchesBits (n + 1) r (b :: bs) = if b ≠ 0 then pure false else matchesBits n r bs := by
  unfold matchesBits
  rw [checkFullBytes]
  split_ifs <;> rfl

/-- Without full bytes the remaining bits decide. -/
theorem matchesBits_zero {r : UInt32} (hr : r.toNat < 8) {bs : List UInt8}
    (h : r.toNat = 0 ∨ bs ≠ []) :
    matchesBits 0 r bs = .ok (decide (LeadingZeros bs r.toNat)) := by
  by_cases hzero : r = 0
  · subst hzero
    simp [matchesBits, checkFullBytes]
  · have hpos : r.toNat ≠ 0 := fun h0 => hzero (UInt32.toNat_inj.mp h0)
    cases bs with
    | nil => exact (h.elim hpos fun hne => hne rfl).elim
    | cons b bs =>
      have hbyte : LeadingZeros (b :: bs) r.toNat ↔ b >>> (8 - r.toUInt8) = 0 :=
        leadingZeros_cons_iff_shiftRight (Nat.pos_of_ne_zero hpos) hr
      simp [matchesBits, checkFullBytes, hzero, hbyte, beq_eq_decide]

/-- On no bytes there are enough bits for none only. -/
theorem eq_zero_of_enough_nil {n : ℕ}
    (h : n ≤ 8 * ([] : List UInt8).length ∨ ∃ b ∈ ([] : List UInt8), b ≠ 0) : n = 0 := by
  rcases h with h | ⟨b, hb, -⟩
  · exact Nat.le_zero.mp h
  · cases hb

/-- Where there are enough bits, or a byte is not zero, the answer is whether the bits are there and
zero. -/
theorem matchesBits_eq_ok {r : UInt32} (hr : r.toNat < 8) {n : ℕ} {bs : List UInt8}
    (h : 8 * n + r.toNat ≤ 8 * bs.length ∨ ∃ b ∈ bs, b ≠ 0) :
    matchesBits n r bs = .ok (decide (LeadingZeros bs (8 * n + r.toNat))) := by
  induction n generalizing bs with
  | zero =>
    rw [Nat.mul_zero, Nat.zero_add] at h ⊢
    apply matchesBits_zero hr
    cases bs with
    | nil => exact Or.inl (eq_zero_of_enough_nil h)
    | cons b bs => exact Or.inr (List.cons_ne_nil b bs)
  | succ n ih =>
    cases bs with
    | nil =>
      have h0 := eq_zero_of_enough_nil h
      omega
    | cons b bs =>
      rw [matchesBits_succ_cons, show 8 * (n + 1) + r.toNat = 8 * n + r.toNat + 8 by ring]
      split_ifs with hb
      · -- a byte that is not zero decides
        have hnot : ¬ LeadingZeros (b :: bs) (8 * n + r.toNat + 8) := fun hlead =>
          hb (leadingZeros_cons_add_eight.mp hlead).1
        rw [decide_eq_false hnot]
        rfl
      · rw [not_not] at hb
        rw [ih, decide_eq_decide.mpr (leadingZeros_cons_add_eight.trans (and_iff_right hb)).symm]
        rcases h with h | ⟨b', hmem, hne⟩
        · left
          rw [List.length_cons] at h
          omega
        · right
          rcases List.mem_cons.mp hmem with rfl | hmem
          · exact absurd hb hne
          · exact ⟨b', hmem, hne⟩

/-- Bytes that are all zero and too few take the loop past their end. -/
theorem matchesBits_eq_error {r : UInt32} {n : ℕ} {bs : List UInt8} (hzero : ∀ b ∈ bs, b = 0)
    (h : 8 * bs.length < 8 * n + r.toNat) (hr : r.toNat < 8) :
    matchesBits n r bs = .error .outOfBounds := by
  induction n generalizing bs with
  | zero =>
    rw [Nat.mul_zero, Nat.zero_add] at h
    have hne : r ≠ 0 := by
      rintro rfl
      rw [UInt32.toNat_zero] at h
      omega
    have hnil : bs = [] := List.length_eq_zero_iff.mp (by omega)
    subst hnil
    simp only [matchesBits, checkFullBytes, Except.pure_eq_ok, Except.ok_bind, if_neg hne]
    rfl
  | succ n ih =>
    cases bs with
    | nil => rfl
    | cons b bs =>
      rw [List.forall_mem_cons] at hzero
      rw [List.length_cons] at h
      rw [matchesBits_succ_cons, if_neg (not_not.mpr hzero.1)]
      exact ih hzero.2 (by omega)

/-! ### The difficulty of a hash -/

theorem eight_mul_div_add_mod (difficulty : UInt32) :
    8 * (difficulty / 8).toNat + (difficulty % 8).toNat = difficulty.toNat := by
  rw [UInt32.toNat_div, UInt32.toNat_mod]
  exact Nat.div_add_mod _ _

theorem toNat_mod_eight_lt (difficulty : UInt32) : (difficulty % 8).toNat < 8 := by
  rw [UInt32.toNat_mod]
  exact Nat.mod_lt _ (by decide)

/-- A digest is not the zero digest if and only if one of its bytes is not zero. -/
theorem ne_zero_iff_exists_mem {hash : Digest} : hash ≠ zero 32 ↔ ∃ b ∈ hash.toList, b ≠ 0 := by
  have hzero : hash = zero 32 ↔ ∀ b ∈ hash.toList, b = 0 := by
    rw [← toList_inj, toList_zero, List.eq_replicate_iff]
    exact and_iff_right (length_toList hash)
  rw [ne_eq, hzero]
  simp

/-- The answer is whether the first `difficulty` bits are there and zero. -/
theorem hashMatchesDifficulty_eq_ok {hash : Digest} {difficulty : UInt32}
    (h : difficulty.toNat ≤ 256 ∨ hash ≠ zero 32) :
    hashMatchesDifficulty hash difficulty =
      .ok (decide (LeadingZeros hash.toList difficulty.toNat)) := by
  have hbits : 8 * (difficulty / 8).toNat + (difficulty % 8).toNat ≤ 8 * hash.toList.length ∨
      ∃ b ∈ hash.toList, b ≠ 0 := by
    rw [eight_mul_div_add_mod, length_toList]
    exact h.imp id ne_zero_iff_exists_mem.mp
  rw [hashMatchesDifficulty_eq_matchesBits, matchesBits_eq_ok (toNat_mod_eight_lt _) hbits,
    eight_mul_div_add_mod]

/-- On the hash of zeros, a difficulty above 256 reads behind the hash. -/
theorem hashMatchesDifficulty_zero_of_lt {difficulty : UInt32} (h : 256 < difficulty.toNat) :
    hashMatchesDifficulty (zero 32) difficulty = .error .outOfBounds := by
  rw [hashMatchesDifficulty_eq_matchesBits]
  apply matchesBits_eq_error
  · simp
  · rw [eight_mul_div_add_mod, length_toList]
    omega
  · exact toNat_mod_eight_lt _

/-- The test comes to an end except for a difficulty above 256 on the hash of zeros. -/
theorem exists_hashMatchesDifficulty_iff {hash : Digest} {difficulty : UInt32} :
    (∃ matches', hashMatchesDifficulty hash difficulty = .ok matches') ↔
      difficulty.toNat ≤ 256 ∨ hash ≠ zero 32 := by
  constructor
  · rintro ⟨matches', h⟩
    by_contra hnot
    rw [not_or, not_le, not_not] at hnot
    rw [hnot.2, hashMatchesDifficulty_zero_of_lt hnot.1] at h
    cases h
  · intro h
    exact ⟨_, hashMatchesDifficulty_eq_ok h⟩

/-- A hash that is found to meet a difficulty has that many leading zero bits. -/
theorem hashMatchesDifficulty_eq_true_iff {hash : Digest} {difficulty : UInt32} :
    hashMatchesDifficulty hash difficulty = .ok true ↔
      LeadingZeros hash.toList difficulty.toNat := by
  by_cases h : difficulty.toNat ≤ 256 ∨ hash ≠ zero 32
  · rw [hashMatchesDifficulty_eq_ok h, Except.ok.injEq, decide_eq_true_eq]
  · constructor
    · intro htrue
      exact absurd (exists_hashMatchesDifficulty_iff.mp ⟨true, htrue⟩) h
    · -- there are not that many bits
      rintro ⟨hlen, -⟩
      rw [length_toList] at hlen
      exact absurd (Or.inl hlen) h

/-! ### The test as a test of leading zeros -/

theorem leadingZeros_digest_iff (hash : Digest) (n : ℕ) :
    LeadingZeros hash.toList n ↔ n ≤ 256 ∧ ∀ k < n, bit hash.toList k = false := by
  unfold LeadingZeros
  rw [length_toList]

/-- The answer for a hash and a difficulty is whether the first `difficulty` of the 256 bits are
zero, and a hash that meets the difficulty meets every smaller one. -/
def IsLeadingZeroTest (hash : Digest) (difficulty : UInt32) : Prop :=
  hashMatchesDifficulty hash difficulty =
      .ok (decide (difficulty.toNat ≤ 256 ∧ ∀ k < difficulty.toNat, bit hash.toList k = false)) ∧
    (hashMatchesDifficulty hash difficulty = .ok true →
      ∀ smaller ≤ difficulty, hashMatchesDifficulty hash smaller = .ok true)

/-- The test is the one of leading zeros except for a difficulty above 256 on the hash of zeros. -/
theorem isLeadingZeroTest_iff (hash : Digest) (difficulty : UInt32) :
    IsLeadingZeroTest hash difficulty ↔ difficulty.toNat ≤ 256 ∨ hash ≠ zero 32 := by
  constructor
  · rintro ⟨hanswer, -⟩
    exact exists_hashMatchesDifficulty_iff.mp ⟨_, hanswer⟩
  · intro h
    refine ⟨?_, fun htrue smaller hsmaller => ?_⟩
    · rw [hashMatchesDifficulty_eq_ok h, decide_eq_decide.mpr (leadingZeros_digest_iff hash _)]
    · rw [hashMatchesDifficulty_eq_true_iff] at htrue ⊢
      exact htrue.mono (UInt32.le_iff_toNat_le.mp hsmaller)

/-- At some difficulty the test of the hash of zeros does not look at the hash alone. -/
theorem not_isLeadingZeroTest :
    ¬ ∀ (hash : Digest) (difficulty : UInt32), IsLeadingZeroTest hash difficulty := by
  intro h
  have hanswer := (h (zero 32) 257).1
  rw [hashMatchesDifficulty_zero_of_lt (by decide)] at hanswer
  cases hanswer

end HolbertonChain
