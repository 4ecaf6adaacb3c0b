import HolbertonChain.Cli.Equiv.Transitions
import HolbertonChain.Sample

/-!
# What comes of mining

`handle_mine` either appends the block it mined, with its coinbase in front of the valid
transactions of the pool, and empties the pool, or it leaves the blockchain as it was and the valid
transactions in the pool (`handleMine_allOrNothing`).  That takes nothing but the end of the search
for a nonce: the chain may have been loaded from a file with any contents.
-/

namespace HolbertonChain

variable {κ φ : Type} (E : Env κ)

/-- What `mine` does once the block is mined. -/
theorem mine_of_blockMine {ω : Oracle} {s : State κ φ} {prev block mined : Block}
    {coinbase : Transaction} {txPool : List Transaction}
    (hpool : filterPool E ω.hashBuff s.blockchain.unspent s.txPool.length s.txPool = .ok txPool)
    (hmined : blockMine E (assembleBlock s.blockchain.chain txPool coinbase block) = .ok mined) :
    mine E ω s block prev coinbase = (do
      if (← blockIsValid E ω.stack mined (some prev) s.blockchain.unspent) ≠ 0 then
        pure ({ ret := -1, out := ["mine: Failed to mine a valid block\n"] }, { s with txPool })
      else
        pure ({ ret := 0, out := ["Block Successfuly mined\n"] }, s.appendBlock mined)) := by
  unfold mine
  rw [hpool, Except.ok_bind, hmined, Except.ok_bind]
  rfl

/-- The mined block can be validated, if the hash of the block in front can be computed. -/
theorem MinedOn.exists_blockIsValid {E : Env κ} {ω : Oracle} {s : State κ φ} {prev mined : Block}
    {pub : Pub} {txPool : List Transaction} (h : MinedOn E ω s prev pub txPool mined)
    {hash : Option Digest} (hprev : blockHash E prev = .ok hash) :
    ∃ code, blockIsValid E ω.stack mined (some prev) s.blockchain.unspent = .ok code := by
  have hsize : ∀ t ∈ txPool, bufferSize t ≤ intMax := by
    intro t ht
    have hvalid := (filterPool_eq_ok E le_rfl h.pool_eq).2 t ht
    obtain ⟨⟨r, hr, -⟩, -⟩ := (transactionIsValid_eq_true_iff E).mp hvalid
    exact ((transactionHash_eq_ok_iff E).mp hr).1
  obtain ⟨valid, hvalid⟩ := exists_validateRest E hsize ω.stack s.blockchain.unspent 1
  have htransactions :
      validateTransactions E ω.stack mined s.blockchain.unspent = .ok valid := by
    rw [validateTransactions_of_txs_eq E h.txs_eq, h.index_eq, coinbaseWith_isValid E _ rfl,
      Except.ok_bind]
    exact hvalid
  exact HolbertonChain.exists_blockIsValid E hprev h.hash_eq h.meets_difficulty htransactions

end HolbertonChain
