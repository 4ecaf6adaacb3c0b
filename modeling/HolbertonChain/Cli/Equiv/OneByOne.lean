import HolbertonChain.Cli.Equiv.Transitions
import HolbertonChain.Lib.Admission
import HolbertonChain.Transaction.Equiv.UpdateUnspent
import Mathlib.Data.List.Flatten

/-!
# Including the pool one by one

The README of the client has `mine` include the transactions of the pool one by one: verify one
against the list of unspent outputs, include it or delete it, update the list, take the next
(`includeOneByOne`).  `mine` verifies all of them against the list it starts with.  The two include
the same transactions exactly when no transaction of the pool is disturbed by the valid ones in
front of it (`includeOneByOne_iff`): none that was valid loses an output to them, and none becomes
valid through theirs.  It is enough that they name no output hash that one in front names, and none
of its outputs (`includeOneByOne_of_apart`).
-/

namespace HolbertonChain

open Admission

variable {κ φ : Type} (E : Env κ)

/-- The rule of the README for `mine`, with a working list of unspent outputs. -/
def includeOneByOne (hashBuff blockHash : Digest) :
    List UnspentTxOut → List Transaction → Exec (List Transaction)
  | _, [] => pure []
  | unspent, t :: txPool => do
    if ← transactionIsValid E hashBuff t unspent then
      let included ← includeOneByOne hashBuff blockHash
        (updateUnspent (some [t]) blockHash unspent) txPool
      pure (t :: included)
    else
      includeOneByOne hashBuff blockHash unspent txPool

/-- Whether a transaction can be validated at all does not depend on the list. -/
theorem transactionIsValid_accepts {hashBuff : Digest} {t : Transaction} {U : List UnspentTxOut}
    {valid : Bool} (h : transactionIsValid E hashBuff t U = .ok valid) (W : List UnspentTxOut) :
    transactionIsValid E hashBuff t W = .ok (accepts E hashBuff W t) := by
  have hsize : bufferSize t ≤ intMax := by
    unfold transactionIsValid transactionIsValidWith at h
    obtain ⟨r, hr, -⟩ := Except.bind_eq_ok_iff.mp h
    exact ((transactionHash_eq_ok_iff E).mp hr).1
  obtain ⟨valid', h'⟩ := exists_transactionIsValid E hsize hashBuff W
  rw [h', accepts, h']
  cases valid' with
  | true => rfl
  | false => rfl

/-- The rule is admission one by one. -/
theorem includeOneByOne_eq_admitted {hashBuff bh : Digest} {U : List UnspentTxOut}
    {pool : List Transaction}
    (h : ∀ t ∈ pool, ∃ valid, transactionIsValid E hashBuff t U = .ok valid)
    (W : List UnspentTxOut) :
    includeOneByOne E hashBuff bh W pool =
      .ok (admitted (accepts E hashBuff) (fun W t => updateUnspent (some [t]) bh W) W pool) := by
  induction pool generalizing W with
  | nil => rfl
  | cons t pool ih =>
    rw [List.forall_mem_cons] at h
    obtain ⟨⟨valid, hvalid⟩, hpool⟩ := h
    rw [includeOneByOne, transactionIsValid_accepts E hvalid W, Except.ok_bind, admitted]
    split_ifs with hW
    · rw [ih hpool, Except.ok_bind]
      rfl
    · exact ih hpool W

/-- The valid transactions of the pool are those the rule includes if and only if every transaction
of the pool is as valid against the list that the valid ones in front of it leave as against the
list that there is. -/
theorem includeOneByOne_eq_iff {hashBuff : Digest} {U : List UnspentTxOut}
    {pool txPool : List Transaction} (bh : Digest)
    (hpool : filterPool E hashBuff U pool.length pool = .ok txPool) :
    includeOneByOne E hashBuff bh U pool = .ok txPool ↔
      ∀ (before : List Transaction) (t : Transaction) (after : List Transaction),
        pool = before ++ t :: after →
          accepts E hashBuff (updateUnspent (some (before.filter (accepts E hashBuff U))) bh U) t =
            accepts E hashBuff U t := by
  obtain ⟨hfilter, hfound⟩ := filterPool_spec E le_rfl hpool
  rw [hfilter, includeOneByOne_eq_admitted E hfound, Except.ok.injEq, admitted_eq_filter_iff]
  exact Iff.rfl

/-- The transactions `mine` puts into the block behind the coinbase are those the rule of the README
includes if and only if every transaction of the pool is as valid against the list that the valid
ones in front of it leave as against the list `mine` starts with. -/
theorem includeOneByOne_iff {ω : Oracle} {s : State κ φ} {block : Block} {coinbase : Transaction}
    {txPool : List Transaction} (bh : Digest)
    (hpool : filterPool E ω.hashBuff s.blockchain.unspent s.txPool.length s.txPool = .ok txPool)
    (hblock : block.transactions = some []) :
    includeOneByOne E ω.hashBuff bh s.blockchain.unspent s.txPool =
        .ok (assembleBlock s.blockchain.chain txPool coinbase block).txs.tail ↔
      ∀ (before : List Transaction) (t : Transaction) (after : List Transaction),
        s.txPool = before ++ t :: after →
          accepts E ω.hashBuff
              (updateUnspent (some (before.filter (accepts E ω.hashBuff s.blockchain.unspent))) bh
                s.blockchain.unspent) t =
            accepts E ω.hashBuff s.blockchain.unspent t := by
  have htail : (assembleBlock s.blockchain.chain txPool coinbase block).txs.tail = txPool := by
    rw [assembleBlock, Block.txs, hblock]
    rfl
  rw [htail]
  exact includeOneByOne_eq_iff E bh hpool

/-- So it is for the block that a successful `mine` appends: its transactions behind the coinbase
are those the rule includes if and only if no transaction of the pool was disturbed. -/
theorem handleMine_includeOneByOne_iff {ω : Oracle} {s s' : State κ φ} {reply : Reply} (bh : Digest)
    (h : handleMine E ω s = .ok (reply, s')) (hret : reply.ret = 0) :
    ∃ mined, s'.blockchain.chain = s.blockchain.chain ++ [mined] ∧
      (includeOneByOne E ω.hashBuff bh s.blockchain.unspent s.txPool = .ok mined.txs.tail ↔
        ∀ (before : List Transaction) (t : Transaction) (after : List Transaction),
          s.txPool = before ++ t :: after →
            accepts E ω.hashBuff
                (updateUnspent (some (before.filter (accepts E ω.hashBuff s.blockchain.unspent))) bh
                  s.blockchain.unspent) t =
              accepts E ω.hashBuff s.blockchain.unspent t) := by
  obtain ⟨prev, pub, txPool, mined, hmined, -, rfl⟩ := exists_appendBlock_of_handleMine E h hret
  refine ⟨mined, rfl, ?_⟩
  rw [hmined.txs_eq, List.tail_cons]
  exact includeOneByOne_eq_iff E bh hmined.pool_eq

/-- Key 1 has sent both of its rewards to key 2, in the given order. -/
def rewardsSent (first second : UInt8) : State ℕ ℕ where
  wallet := some 1
  blockchain := { chain := [genesisBlock], unspent := [reward 1, reward 2] }
  txPool :=
    [spendRewards [reward first] [sampleOut 50 2], spendRewards [reward second] [sampleOut 50 2]]
  files := fun _ => none

/-- The second reward is sent first. -/
def secondRewardFirst : State ℕ ℕ := rewardsSent 2 1

/-- Both transactions are valid against the list `mine` starts with. -/
theorem filterPool_secondRewardFirst :
    filterPool sampleEnv sampleOracle.hashBuff secondRewardFirst.blockchain.unspent
      secondRewardFirst.txPool.length secondRewardFirst.txPool = .ok secondRewardFirst.txPool := by
  decide +kernel

/-- Sent in the order of the list, both rewards are spent by the rule of the README too. -/
theorem secondRewardFirst_condition :
    (includeOneByOne sampleEnv sampleOracle.hashBuff (Bytes.ofList 32 [4])
        (rewardsSent 1 2).blockchain.unspent (rewardsSent 1 2).txPool =
      .ok (assembleBlock (rewardsSent 1 2).blockchain.chain (rewardsSent 1 2).txPool
        (coinbaseWith sampleEnv 1 (rewardOut sampleEnv (samplePub 1)))
        (newBlock sampleOracle.time genesisBlock)).txs.tail ∧
    ∀ (before : List Transaction) (t : Transaction) (after : List Transaction),
      (rewardsSent 1 2).txPool = before ++ t :: after →
        accepts sampleEnv sampleOracle.hashBuff
            (updateUnspent
              (some (before.filter (accepts sampleEnv sampleOracle.hashBuff
                (rewardsSent 1 2).blockchain.unspent)))
              (Bytes.ofList 32 [4]) (rewardsSent 1 2).blockchain.unspent) t =
          accepts sampleEnv sampleOracle.hashBuff (rewardsSent 1 2).blockchain.unspent t) ∧
    (includeOneByOne sampleEnv sampleOracle.hashBuff (Bytes.ofList 32 [4])
          secondRewardFirst.blockchain.unspent secondRewardFirst.txPool =
        .ok (assembleBlock secondRewardFirst.blockchain.chain secondRewardFirst.txPool
          (coinbaseWith sampleEnv 1 (rewardOut sampleEnv (samplePub 1)))
          (newBlock sampleOracle.time genesisBlock)).txs.tail ↔
      ∀ (before : List Transaction) (t : Transaction) (after : List Transaction),
        secondRewardFirst.txPool = before ++ t :: after →
          accepts sampleEnv sampleOracle.hashBuff
              (updateUnspent
                (some (before.filter (accepts sampleEnv sampleOracle.hashBuff
                  secondRewardFirst.blockchain.unspent)))
                (Bytes.ofList 32 [4]) secondRewardFirst.blockchain.unspent) t =
            accepts sampleEnv sampleOracle.hashBuff secondRewardFirst.blockchain.unspent t) := by
  have hsame : includeOneByOne sampleEnv sampleOracle.hashBuff (Bytes.ofList 32 [4])
        (rewardsSent 1 2).blockchain.unspent (rewardsSent 1 2).txPool =
      .ok (assembleBlock (rewardsSent 1 2).blockchain.chain (rewardsSent 1 2).txPool
        (coinbaseWith sampleEnv 1 (rewardOut sampleEnv (samplePub 1)))
        (newBlock sampleOracle.time genesisBlock)).txs.tail := by
    decide +kernel
  refine ⟨⟨hsame, ?_⟩, includeOneByOne_iff sampleEnv _ filterPool_secondRewardFirst rfl⟩
  exact (includeOneByOne_iff sampleEnv _ (by decide +kernel) rfl).mp hsame

/-- `mine` does not always include what the rule of the README includes: that takes the first reward
out of the working list when the second one is spent, and the second transaction is deleted. -/
theorem not_includeOneByOne_eq :
    ¬ ∀ (ω : Oracle) (s : State ℕ ℕ) (block : Block) (coinbase : Transaction)
        (txPool : List Transaction) (bh : Digest),
      filterPool sampleEnv ω.hashBuff s.blockchain.unspent s.txPool.length s.txPool = .ok txPool →
      block.transactions = some [] →
      includeOneByOne sampleEnv ω.hashBuff bh s.blockchain.unspent s.txPool =
        .ok (assembleBlock s.blockchain.chain txPool coinbase block).txs.tail := by
  intro h
  have hsame := h sampleOracle secondRewardFirst (newBlock sampleOracle.time genesisBlock)
    (coinbaseWith sampleEnv 1 (rewardOut sampleEnv (samplePub 1))) _ (Bytes.ofList 32 [4])
    filterPool_secondRewardFirst rfl
  revert hsame
  decide +kernel

/-- Transactions that do not name what another one of the pool names or creates are included as by
the rule of the README. -/
theorem includeOneByOne_of_apart {hashBuff bh : Digest} {U : List UnspentTxOut}
    {pool txPool : List Transaction} (hpool : filterPool E hashBuff U pool.length pool = .ok txPool)
    (hapart : ∀ before t after, pool = before ++ t :: after → ∀ i ∈ t.inputs,
      i.txOutHash ∉ inputHashes before ∧ i.ref ∉ (newEntries bh before).map UnspentTxOut.ref) :
    includeOneByOne E hashBuff bh U pool = .ok txPool := by
  obtain ⟨hfilter, hfound⟩ := filterPool_spec E le_rfl hpool
  rw [hfilter, includeOneByOne_eq_admitted E hfound, Except.ok.injEq, admitted_eq_filter_iff]
  intro before t after hsplit
  show accepts E hashBuff (updateUnspent (some _) bh U) t = accepts E hashBuff U t
  have hsub : (before.filter (accepts E hashBuff U)).Sublist before := List.filter_sublist
  -- what the inputs of `t` find in the one list, they find in the other
  have hfind : ∀ i ∈ t.inputs,
      (updateUnspent (some (before.filter (accepts E hashBuff U))) bh U).find? (inOutMatch i) =
        U.find? (inOutMatch i) := by
    intro i hi
    obtain ⟨hhash, href⟩ := hapart before t after hsplit i hi
    apply find?_updateUnspent
    · intro u hu hmem
      have hu : i.txOutHash = u.hash := congrArg OutRef.txOutHash (inOutMatch_eq_true_iff.mp hu)
      rw [← hu] at hmem
      exact hhash (((hsub.flatMap _).map _).subset hmem)
    · intro u hu
      rw [Bool.eq_false_iff]
      intro hmatch
      apply href
      rw [inOutMatch_eq_true_iff.mp hmatch]
      exact List.mem_map_of_mem ((hsub.flatMap _).subset hu)
  rw [accepts, accepts, transactionIsValid_of_find? E hfind]

end HolbertonChain
