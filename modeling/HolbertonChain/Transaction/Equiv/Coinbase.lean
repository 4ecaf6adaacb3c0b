import HolbertonChain.Sample
import HolbertonChain.Transaction.Coinbase
import HolbertonChain.Transaction.Equiv.UpdateUnspent

/-!
# What a coinbase transaction takes out of the unspent outputs

`update_unspent` treats the input of a coinbase transaction like any other, and `coinbase_is_valid`
looks at the first four bytes of its output hash only.  So a valid coinbase leaves the unspent
outputs as they are exactly when none of them has the hash that its input carries
(`updateUnspent_of_coinbaseIsValid_iff`); `claimingCoinbase` is a valid one that takes a reward out
of the list.
-/

namespace HolbertonChain

open Bytes

variable {κ : Type} (E : Env κ)

/-- One transaction takes out what its inputs name, and its outputs stand behind. -/
theorem updateUnspent_singleton (t : Transaction) (bh : Digest) (U : List UnspentTxOut) :
    updateUnspent (some [t]) bh U =
      removeInputs t.inputs U ++ t.outputs.map (unspentTxOutCreate bh t.id) := by
  rw [updateUnspent_cons]
  rfl

/-- An input takes nothing out exactly when no unspent output has the hash it carries. -/
theorem removeInputs_singleton_eq_self_iff {i : TxIn} {U : List UnspentTxOut} :
    removeInputs [i] U = U ↔ ∀ u ∈ U, u.out.hash ≠ i.txOutHash := by
  have herase : removeInputs [i] U = U.eraseP (findUnspent i.txOutHash) := rfl
  rw [herase, List.eraseP_eq_self_iff]
  simp [findUnspent]

/-- A valid coinbase transaction leaves every unspent output where it is, and puts its only output
behind them, if and only if none of them has the output hash that its input carries. -/
theorem updateUnspent_of_coinbaseIsValid_iff {c : Transaction} {blockIndex : UInt32}
    (h : coinbaseIsValid E c blockIndex = .ok true) (U : List UnspentTxOut) (bh : Digest) :
    (∃ o, c.outputs = [o] ∧
        updateUnspent (some [c]) bh U = U ++ [unspentTxOutCreate bh c.id o]) ↔
      ∀ i ∈ c.inputs, ∀ u ∈ U, u.out.hash ≠ i.txOutHash := by
  obtain ⟨input, output, hc⟩ := (coinbaseIsValid_eq_true_iff E).mp h
  rw [updateUnspent_singleton, hc.inputs_eq, hc.outputs_eq, List.map_singleton]
  simp only [List.forall_mem_singleton]
  constructor
  · rintro ⟨o, ho, heq⟩
    obtain rfl := List.singleton_inj.mp ho
    exact removeInputs_singleton_eq_self_iff.mp (List.append_cancel_right heq)
  · intro hnone
    refine ⟨output, rfl, ?_⟩
    rw [removeInputs_singleton_eq_self_iff.mpr hnone]

/-! ### A coinbase that claims a reward -/

/-- The block index whose bytes are the first four of the hash of a reward of key 1. -/
def claimedIndex : UInt32 := 0xf604c740

/-- A coinbase transaction for key 2 whose input carries the output hash of a reward of key 1. -/
def claimingCoinbase : Transaction :=
  let input : TxIn := { coinbaseInput sampleEnv 0 with txOutHash := (sampleOut 50 1).hash }
  let unsigned : Transaction :=
    { id := zero 32, inputs := [input], outputs := [sampleOut 50 2] }
  { unsigned with id := sampleEnv.sha256 (transactionPreimage unsigned) }

theorem claimingCoinbase_isValid :
    coinbaseIsValid sampleEnv claimingCoinbase claimedIndex = .ok true := by
  decide +kernel

/-- The coinbase transaction that is created for the first block takes nothing out, and the one that
claims the reward takes it out. -/
theorem claimingCoinbase_condition :
    (∃ o, (coinbaseWith sampleEnv 1 (rewardOut sampleEnv (samplePub 2))).outputs = [o] ∧
      updateUnspent (some [coinbaseWith sampleEnv 1 (rewardOut sampleEnv (samplePub 2))])
          (ofList 32 [4]) [reward 1] =
        [reward 1] ++ [unspentTxOutCreate (ofList 32 [4])
          (coinbaseWith sampleEnv 1 (rewardOut sampleEnv (samplePub 2))).id o]) ∧
    ((∃ o, claimingCoinbase.outputs = [o] ∧
        updateUnspent (some [claimingCoinbase]) (ofList 32 [4]) [reward 1] =
          [reward 1] ++ [unspentTxOutCreate (ofList 32 [4]) claimingCoinbase.id o]) ↔
      ∀ i ∈ claimingCoinbase.inputs, ∀ u ∈ [reward 1], u.out.hash ≠ i.txOutHash) := by
  refine ⟨?_, updateUnspent_of_coinbaseIsValid_iff sampleEnv claimingCoinbase_isValid _ _⟩
  refine (updateUnspent_of_coinbaseIsValid_iff sampleEnv (coinbaseWith_isValid sampleEnv 1 rfl)
    _ _).mpr ?_
  decide +kernel

/-- A valid coinbase transaction can take an unspent output out of the list. -/
theorem not_updateUnspent_of_coinbaseIsValid :
    ¬ ∀ (c : Transaction) (blockIndex : UInt32) (U : List UnspentTxOut) (bh : Digest),
      coinbaseIsValid sampleEnv c blockIndex = .ok true →
      ∃ o, c.outputs = [o] ∧
        updateUnspent (some [c]) bh U = U ++ [unspentTxOutCreate bh c.id o] := by
  intro h
  obtain ⟨o, -, heq⟩ := h claimingCoinbase claimedIndex [reward 1] (ofList 32 [4])
    claimingCoinbase_isValid
  -- the reward is gone
  have hlen : (updateUnspent (some [claimingCoinbase]) (ofList 32 [4]) [reward 1]).length = 1 := by
    decide +kernel
  rw [heq] at hlen
  exact absurd hlen (by simp)

end HolbertonChain
