import HolbertonChain.Cli.Equiv.ChainIntegrity

/-!
# The miner and the validator

A block that `handle_mine` and `mine` put together passes every check of `block_is_valid`
(`MinedOn.isNext`): each check meets something the construction guarantees, the transactions of the
pool through the filter in front of it.  So in a state that a run reaches, `handle_mine` with a
wallet either does not return or appends a block; the branches for an invalid coinbase and for an
invalid block are never taken (`handleMine_succeeds`).
-/

namespace HolbertonChain

open Bytes

variable {κ φ : Type} (E : Env κ)

/-- The filter and the validator agree on transactions that are not empty, whatever the stack
holds. -/
theorem validateTransactions_of_filterPool {ω : Oracle} {s : State κ φ} {prev mined : Block}
    {pub : Pub} {txPool : List Transaction} (hpool : ∀ t ∈ s.txPool, t.outputs ≠ [])
    (h : MinedOn E ω s prev pub txPool mined) :
    validateTransactions E ω.stack mined s.blockchain.unspent = .ok true := by
  obtain ⟨hsub, hvalid⟩ := filterPool_eq_ok E le_rfl h.pool_eq
  rw [validateTransactions_eq_true_iff]
  refine ⟨coinbaseWith E (prev.info.index + 1) (rewardOut E pub), txPool, ?_, ?_, ?_⟩
  · exact h.txs_eq
  · rw [h.index_eq]
    exact coinbaseWith_isValid E _ rfl
  · -- the two calls differ in what the stack holds
    intro k t hk
    have ht : t ∈ txPool := List.mem_of_getElem? hk
    have hsize : bufferSize t ≠ 0 :=
      fun h0 => hpool t (hsub.subset ht) (bufferSize_eq_zero_iff.mp h0).2
    rw [transactionIsValid_congr E hsize _ ω.hashBuff]
    exact hvalid t ht

/-- A mined block passes every check. -/
theorem MinedOn.isNext {ω : Oracle} {s : State κ φ} {prev mined : Block} {pub : Pub}
    {txPool : List Transaction} (h : MinedOn E ω s prev pub txPool mined)
    (hs : Integrity E s) (hgenesis : blockHash E genesisBlock = .ok (some genesisHash))
    (hindex : prev.info.index.toNat < 2 ^ 32 - 1) :
    IsNext E ω.stack mined prev s.blockchain.unspent where
  index_ne := by
    intro hzero
    have hnat := congrArg UInt32.toNat (h.index_eq.symm.trans hzero)
    rw [UInt32.toNat_add, show (1 : UInt32).toNat = 1 from rfl, Nat.mod_eq_of_lt (by omega)] at hnat
    exact absurd hnat (Nat.succ_ne_zero _)
  index_eq := h.index_eq
  prev_hash := hs.chain.hash_last E hgenesis h.prev_eq
  prevHash_eq := h.prevHash_eq
  hash_eq := h.hash_eq
  len_le := by
    rw [h.data_eq]
    decide
  difficulty := h.meets_difficulty
  transactions := validateTransactions_of_filterPool E hs.pool h

variable [DecidableEq φ]

/-- In a state that a run reaches, with a wallet and room for another index: the coinbase created
for the next block is valid, the block mined from it and the filtered pool is valid, and
`handle_mine`, if it returns, reports success. -/
theorem handleMine_succeeds {files : φ → Option (List UInt8)}
    {cmds : List (Command κ φ × Oracle)} {s : State κ φ}
    (hrun : run E (initialState files) cmds = .ok s)
    (hloads : LoadsSaved E [] (initialState files) cmds)
    (hshort : StaysShort E (initialState files) cmds)
    (hgenesis : blockHash E genesisBlock = .ok (some genesisHash))
    {wallet : κ} {pub : Pub} {prev : Block}
    (hwallet : s.wallet = some wallet) (hpub : ecToPub E wallet = some pub)
    (hprev : s.blockchain.chain.getLast? = some prev)
    (hindex : prev.info.index.toNat < 2 ^ 32 - 1) (ω : Oracle) :
    (∀ block coinbase,
      blockCreate ω.time (some prev) (List.replicate 1024 0) 1024 = some block →
      coinbaseCreate E wallet block.info.index = .ok (some coinbase) →
      coinbaseIsValid E coinbase block.info.index = .ok true ∧
        ∀ txPool mined,
          filterPool E ω.hashBuff s.blockchain.unspent s.txPool.length s.txPool = .ok txPool →
          blockMine E (assembleBlock s.blockchain.chain txPool coinbase block) = .ok mined →
          blockIsValid E ω.stack mined (some prev) s.blockchain.unspent = .ok 0) ∧
      ∀ reply s', handleMine E ω s = .ok (reply, s') →
        reply = { ret := 0, out := ["Block Successfuly mined\n"] } := by
  have hs := run_integrity E hrun hloads hshort (by simp) (integrity_initialState E files)
  have hvalid {txPool : List Transaction} {mined : Block}
      (hmined : MinedOn E ω s prev pub txPool mined) :
      blockIsValid E ω.stack mined (some prev) s.blockchain.unspent = .ok 0 := by
    rw [blockIsValid_eq_zero_iff]
    exact Or.inr ⟨prev, rfl, hmined.isNext E hs hgenesis hindex⟩
  constructor
  · intro block coinbase hblock hcoinbase
    rw [blockCreate_eq_newBlock] at hblock
    obtain rfl := Option.some.inj hblock
    obtain ⟨pub', hpub', rfl⟩ := (coinbaseCreate_eq_ok_some_iff E).mp hcoinbase
    obtain rfl := Option.some.inj (hpub.symm.trans hpub')
    refine ⟨coinbaseWith_isValid E _ rfl, fun txPool mined hpool hmined => ?_⟩
    exact hvalid (minedOn_of_blockMine E hprev hpool hmined)
  · intro reply s' hmine
    rw [handleMine_of_pub E hwallet hprev hpub] at hmine
    obtain ⟨txPool, mined, hmined, ⟨code, hcode, hinvalid, -, -⟩ | ⟨-, hreply, -⟩⟩ :=
      mine_eq_ok E hprev hmine
    · rw [hvalid hmined] at hinvalid
      exact absurd (Except.ok.inj hinvalid).symm hcode
    · exact hreply

/-- Key 1 mines a block and sends key 2 a part of the reward. -/
def mineAndSend : List (Command ℕ ℕ × Oracle) :=
  [.walletCreate (some 1), .mine,
    .send 30 ([0x30, 0x34, 0x30, 0x32] ++ List.replicate 126 0x30)].map fun c => (c, sampleOracle)

theorem mineAndSend_handleMine :
    ∃ s, run sampleEnv (initialState fun _ => none) mineAndSend = .ok s ∧ s.txPool.length = 1 ∧
      ∀ reply s', handleMine sampleEnv sampleOracle s = .ok (reply, s') →
        reply = { ret := 0, out := ["Block Successfuly mined\n"] } := by
  have hchecked : ((checkedRun sampleEnv [] (initialState fun _ => none) mineAndSend).map fun s =>
      (s.wallet, s.txPool.length,
        s.blockchain.chain.getLast?.map fun b => b.info.index)) = some (some 1, 1, some 1) := by
    decide +kernel
  obtain ⟨s, hs, hfacts⟩ := Option.map_eq_some_iff.mp hchecked
  obtain ⟨hwallet, hrest⟩ := Prod.mk.inj hfacts
  obtain ⟨hlen, hlast⟩ := Prod.mk.inj hrest
  obtain ⟨prev, hprev, hindex⟩ := Option.map_eq_some_iff.mp hlast
  obtain ⟨hrun, hloads, hshort⟩ := checkedRun_eq_some sampleEnv hs
  have hgenesis : blockHash sampleEnv genesisBlock = .ok (some genesisHash) := by decide +kernel
  have hpub : ecToPub sampleEnv 1 = some (samplePub 1) := by decide +kernel
  have hroom : prev.info.index.toNat < 2 ^ 32 - 1 := by rw [hindex]; decide
  exact ⟨s, hrun, hlen, (handleMine_succeeds sampleEnv hrun hloads hshort hgenesis hwallet hpub
    hprev hroom sampleOracle).2⟩

end HolbertonChain
