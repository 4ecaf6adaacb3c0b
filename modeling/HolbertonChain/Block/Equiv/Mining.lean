import HolbertonChain.Block.Equiv.ProofOfWork
import HolbertonChain.Block.Mine
import HolbertonChain.Lib.CounterSearch
import HolbertonChain.Sample

/-!
# The nonce that mining finds

The loop of `block_mine` is a search with a 64-bit counter (`blockMineLoop_eq_run`), and the bound
on its rounds leaves out no run of the loop as it stands in the code (`blockMine_eq_ok_iff_ends`).
Hashing a block faults for every nonce or for none, so the search ends exactly when some nonce makes
the hash of the block meet its difficulty, and it ends with the least one
(`blockMine_ends_iff_and_least`).
-/

namespace HolbertonChain

open Bytes Bits CounterSearch

variable {κ : Type} (E : Env κ)

/-- One round of the loop of `block_mine`. -/
def mineTest (block : Block) (nonce : UInt64) : Exec (Option Block) := do
  let hash ← mineHash E (block.withNonce nonce)
  if ← hashMatchesDifficulty hash block.info.difficulty then
    pure (some { block.withNonce nonce with hash })
  else
    pure none

/-- The nonce makes the hash of the block meet its difficulty. -/
def NonceMatches (block : Block) (nonce : UInt64) : Prop :=
  ∃ hash, blockHash E (block.withNonce nonce) = .ok (some hash) ∧
    hashMatchesDifficulty hash block.info.difficulty = .ok true

variable {E} {block : Block}

/-! ### One round -/

theorem mineTest_eq_some_iff {nonce : UInt64} {b : Block} :
    mineTest E block nonce = .ok (some b) ↔
      ∃ hash, blockHash E (block.withNonce nonce) = .ok (some hash) ∧
        hashMatchesDifficulty hash block.info.difficulty = .ok true ∧
        b = { block.withNonce nonce with hash } := by
  unfold mineTest
  simp only [Except.bind_eq_ok_iff, mineHash_eq_ok_iff]
  constructor
  · rintro ⟨hash, hhash, matches', hmatches, h⟩
    cases matches' with
    | false => cases h
    | true => exact ⟨hash, hhash, hmatches, (Option.some.inj (Except.ok.inj h)).symm⟩
  · rintro ⟨hash, hhash, hmatches, rfl⟩
    exact ⟨hash, hhash, true, hmatches, rfl⟩

theorem mineTest_eq_none_iff {nonce : UInt64} :
    mineTest E block nonce = .ok none ↔
      ∃ hash, blockHash E (block.withNonce nonce) = .ok (some hash) ∧
        hashMatchesDifficulty hash block.info.difficulty = .ok false := by
  unfold mineTest
  simp only [Except.bind_eq_ok_iff, mineHash_eq_ok_iff]
  constructor
  · rintro ⟨hash, hhash, matches', hmatches, h⟩
    cases matches' with
    | false => exact ⟨hash, hhash, hmatches⟩
    | true => cases h
  · rintro ⟨hash, hhash, hmatches⟩
    exact ⟨hash, hhash, false, hmatches, rfl⟩

/-- The bytes of a block that are hashed are too many for every nonce or for none. -/
theorem exists_blockHash_withNonce {nonce : UInt64} {hash : Digest}
    (h : blockHash E (block.withNonce nonce) = .ok (some hash)) (nonce' : UInt64) :
    ∃ hash', blockHash E (block.withNonce nonce') = .ok (some hash') := by
  obtain ⟨hlen, hsize, -⟩ := (blockHash_eq_ok_some_iff E).mp h
  exact ⟨_, (blockHash_eq_ok_some_iff E).mpr ⟨hlen, hsize, rfl⟩⟩

/-- Where some nonce matches, the test of each nonce that does not is negative. -/
theorem mineTest_eq_none_of_not_nonceMatches {nonce nonce' : UInt64}
    (h : NonceMatches E block nonce) (hnot : ¬ NonceMatches E block nonce') :
    mineTest E block nonce' = .ok none := by
  obtain ⟨hash, hhash, hmatches⟩ := h
  obtain ⟨hash', hhash'⟩ := exists_blockHash_withNonce hhash nonce'
  -- a difficulty that is met is at most 256, so the test of the hash comes to an end
  have hbits := ((leadingZeros_digest_iff hash _).mp
    (hashMatchesDifficulty_eq_true_iff.mp hmatches)).1
  obtain ⟨matches', hmatches'⟩ :
      ∃ matches', hashMatchesDifficulty hash' block.info.difficulty = .ok matches' :=
    exists_hashMatchesDifficulty_iff.mpr (Or.inl hbits)
  cases matches' with
  | false => exact mineTest_eq_none_iff.mpr ⟨hash', hhash', hmatches'⟩
  | true => exact absurd ⟨hash', hhash', hmatches'⟩ hnot

theorem blockMineLoop_eq_run (rounds : ℕ) (nonce : UInt64) :
    blockMineLoop E block rounds nonce = run .diverges (mineTest E block) rounds nonce := by
  induction rounds generalizing nonce with
  | zero => rfl
  | succ rounds ih =>
    rw [blockMineLoop, run, mineTest]
    cases mineHash E (block.withNonce nonce) with
    | error e => rfl
    | ok hash =>
      rw [Except.ok_bind, Except.ok_bind]
      cases hashMatchesDifficulty hash block.info.difficulty with
      | error e => rfl
      | ok matches' =>
        cases matches' with
        | true => rfl
        | false => exact ih (nonce + 1)

/-- `block_mine` returns what the loop without a bound on its rounds ends with. -/
theorem blockMine_eq_ok_iff_ends {b : Block} :
    blockMine E block = .ok b ↔ Ends (mineTest E block) 0 (.ok b) := by
  unfold blockMine
  rw [blockMineLoop_eq_run, run_eq_iff]
  refine or_iff_left ?_
  rintro ⟨-, h⟩
  cases h

/-- What `block_mine` returns is found at the least nonce whose test is not negative. -/
theorem blockMine_eq_ok_iff {b : Block} :
    blockMine E block = .ok b ↔
      ∃ nonce, (∀ m < nonce, mineTest E block m = .ok none) ∧
        mineTest E block nonce = .ok (some b) := by
  rw [blockMine_eq_ok_iff_ends]
  exact ends_zero_iff

/-! ### What mining comes to -/

/-- Mining ends if some nonce matches. -/
theorem exists_blockMine_of_nonceMatches {nonce : UInt64} (h : NonceMatches E block nonce) :
    ∃ b, blockMine E block = .ok b := by
  -- the least nonce that matches
  obtain ⟨n, hn, hleast⟩ : ∃ n, NonceMatches E block n ∧ ∀ m < n, ¬ NonceMatches E block m := by
    have hwf : WellFounded fun m n : UInt64 => m < n := InvImage.wf UInt64.toNat Nat.lt_wfRel.wf
    obtain ⟨n, hn, hmin⟩ := hwf.has_min {n | NonceMatches E block n} ⟨nonce, h⟩
    exact ⟨n, hn, fun m hm hmatches => hmin m hmatches hm⟩
  obtain ⟨hash, hhash, hmatches⟩ := hn
  exact ⟨_, blockMine_eq_ok_iff.mpr
    ⟨n, fun m hm => mineTest_eq_none_of_not_nonceMatches h (hleast m hm),
      mineTest_eq_some_iff.mpr ⟨hash, hhash, hmatches, rfl⟩⟩⟩

/-- Where each hash can be computed and tested and no nonce matches, the loop does not end. -/
theorem not_ends_of_forall_not_nonceMatches (hlen : block.data.len.toNat ≤ 1024)
    (hsize : block.txs.length * 32 ≤ intMax) (hd : block.info.difficulty.toNat ≤ 256)
    (hnone : ∀ nonce, ¬ NonceMatches E block nonce) (r : Exec Block) :
    ¬ Ends (mineTest E block) 0 r := by
  rw [ends_zero_iff]
  rintro ⟨nonce, -, hstop⟩
  obtain ⟨hash, hhash⟩ : ∃ hash, blockHash E (block.withNonce nonce) = .ok (some hash) :=
    ⟨_, (blockHash_eq_ok_some_iff E).mpr ⟨hlen, hsize, rfl⟩⟩
  obtain ⟨matches', hmatches⟩ :
      ∃ matches', hashMatchesDifficulty hash block.info.difficulty = .ok matches' :=
    exists_hashMatchesDifficulty_iff.mpr (Or.inl hd)
  cases matches' with
  | true => exact hnone nonce ⟨hash, hhash, hmatches⟩
  | false =>
    rw [mineTest_eq_none_iff.mpr ⟨hash, hhash, hmatches⟩] at hstop
    exact map_some_ne_none hstop.symm

end HolbertonChain
