import HolbertonChain.Block.Mine
import HolbertonChain.Block.Validity
import HolbertonChain.Cli.State
import HolbertonChain.Transaction.UpdateUnspent

/-!
# The command `mine` (`handle_mine.c`, `mine.c`)
-/

namespace HolbertonChain

variable {κ φ : Type} (E : Env κ)

/-- `invalid_tx` -/
def invalidTx (hashBuff : Digest) (unspent : List UnspentTxOut) (t : Transaction) : Exec Bool := do
  let valid ← transactionIsValid E hashBuff t unspent
  pure !valid

/-- `llist_remove_node` with an identifier that may fault: the first node it identifies is taken
out. -/
def llistRemoveNode {α : Type} (identifier : α → Exec Bool) : List α → Exec (List α)
  | [] => pure []
  | a :: l => do
    if ← identifier a then
      pure l
    else
      let l' ← llistRemoveNode identifier l
      pure (a :: l')

/-- The loop of `mine` that deletes invalid transactions from the pool, once for each node the
pool had. -/
def filterPool (hashBuff : Digest) (unspent : List UnspentTxOut) :
    ℕ → List Transaction → Exec (List Transaction)
  | 0, txPool => pure txPool
  | i + 1, txPool => do
    let txPool ← llistRemoveNode (invalidTx E hashBuff unspent) txPool
    filterPool hashBuff unspent i txPool

/-- The block `mine` builds: the transactions of the pool behind the coinbase, and the difficulty
of the chain. -/
def assembleBlock (chain : List Block) (txPool : List Transaction) (coinbase : Transaction)
    (block : Block) : Block :=
  { block with
    transactions := block.transactions.map fun ts => coinbase :: (ts ++ txPool)
    info := { block.info with difficulty := blockchainDifficulty chain } }

/-- `mine` -/
def mine (ω : Oracle) (s : State κ φ) (block prevBlock : Block) (coinbase : Transaction) :
    Exec (Reply × State κ φ) := do
  let txPool ← filterPool E ω.hashBuff s.blockchain.unspent s.txPool.length s.txPool
  let block ← blockMine E (assembleBlock s.blockchain.chain txPool coinbase block)
  if (← blockIsValid E ω.stack block (some prevBlock) s.blockchain.unspent) ≠ 0 then
    -- the pool stays filtered
    pure ({ ret := -1, out := ["mine: Failed to mine a valid block\n"] }, { s with txPool })
  else
    let unspent := updateUnspent block.transactions block.hash s.blockchain.unspent
    pure ({ ret := 0, out := ["Block Successfuly mined\n"] },
      { s with blockchain := { chain := s.blockchain.chain ++ [block], unspent }, txPool := [] })

/-- `handle_mine` -/
def handleMine (ω : Oracle) (s : State κ φ) : Exec (Reply × State κ φ) :=
  let prevBlock := s.blockchain.chain.getLast?
  match s.wallet with
  | none => pure ({ ret := -1, out := ["mine: No wallet available\n"] }, s)
  | some wallet =>
    match prevBlock, blockCreate ω.time prevBlock (List.replicate 1024 0) 1024 with
    | some prevBlock, some block => do
      match ← coinbaseCreate E wallet block.info.index with
      | none =>
        pure ({ ret := -1, out := ["mine: failed to create coinbase transaction\n"] }, s)
      | some coinbase =>
        if ← coinbaseIsValid E coinbase block.info.index then
          mine E ω s block prevBlock coinbase
        else
          pure ({ ret := -1, out := ["mine: failed to create valid coinbase transaction\n"] }, s)
    | _, _ => pure ({ ret := -1, out := ["mine: failed to create block\n"] }, s)

end HolbertonChain
