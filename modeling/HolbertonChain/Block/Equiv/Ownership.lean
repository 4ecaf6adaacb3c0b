import HolbertonChain.Block.Equiv.DoubleSpend
import HolbertonChain.Transaction.Equiv.Ownership

/-!
# Spends in an accepted block

The transactions behind the coinbase are checked one by one, so what `transaction_is_valid` says of
the owners of spent outputs holds of all of them (`blockIsValid_spends_signed`): nothing in an
accepted block is spent without the signature of its owner.
-/

namespace HolbertonChain

open Bytes

variable {κ : Type} (E : Env κ)

/-- Behind the coinbase of an accepted block, a transaction with inputs carries the digest of its
references and output hashes as ID, and each of its inputs refers to an unspent output and is signed
under the key of every unspent output it refers to. -/
theorem blockIsValid_spends_signed {stack : ℕ → Digest} {block : Block} {prev : Option Block}
    {U : List UnspentTxOut} (hU : HonestUnspent E U) (hindex : block.info.index ≠ 0)
    (h : blockIsValid E stack block prev U = .ok 0) :
    ∀ t ∈ block.txs.tail, t.inputs ≠ [] →
      t.id = E.sha256 (transactionPreimage t) ∧
        ∀ i ∈ t.inputs, (∃ u ∈ U, u.ref = i.ref) ∧
          ∀ u ∈ U, u.ref = i.ref → ecVerify E (ecFromPub E u.out.pub) t.id i.sig = true := by
  intro t ht hinputs
  rcases (blockIsValid_eq_zero_iff E).mp h with rfl | ⟨p, -, hnext⟩
  · exact absurd rfl hindex
  · obtain ⟨hashBuff, hvalid⟩ := exists_valid_of_mem_tail E hnext ht
    refine ⟨id_eq_of_transactionIsValid E hvalid (bufferSize_ne_zero hinputs), fun i hi => ?_⟩
    exact verifies_of_transactionIsValid E hU hvalid hi

/-- The first of two rewards is sent to key 2. -/
def sendReward : Transaction := spendRewards [reward 1] [sampleOut 50 2]

theorem sendReward_signed :
    sendReward.id = sampleEnv.sha256 (transactionPreimage sendReward) ∧
      ∀ i ∈ sendReward.inputs, (∃ u ∈ [reward 1, reward 2], u.ref = i.ref) ∧
        ∀ u ∈ [reward 1, reward 2], u.ref = i.ref →
          ecVerify sampleEnv (ecFromPub sampleEnv u.out.pub) sendReward.id i.sig = true := by
  -- in a block behind the genesis block
  have hvalid : blockIsValid sampleEnv (fun _ => zero 32)
      (extend sampleEnv genesisBlock { buffer := zero 1024, len := 0 } [sendReward])
      (some genesisBlock) [reward 1, reward 2] = .ok 0 := by
    decide +kernel
  exact blockIsValid_spends_signed sampleEnv (rewards_honestUnspent [1, 2]) (by decide) hvalid
    sendReward List.mem_cons_self (by decide)

end HolbertonChain
