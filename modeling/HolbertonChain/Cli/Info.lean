import HolbertonChain.Cli.CommandLine
import HolbertonChain.Lib.Decimal

/-!
# What the client displays (`handle_info.c`, `handle_info_block.c`, `unspent_list.c`)

The texts that `info`, `info_block` and `list` print, as bytes.  The sizes of the structures that
`info_block` adds up are those of a 64-bit machine.
-/

namespace HolbertonChain

variable {κ φ : Type}

/-! ### Lines -/

/-- A line with a number, as `%u` and `%lu` print it. -/
def printNumber (label : String) (n : ℕ) : List UInt8 :=
  ascii label.toList ++ (Decimal.chars n ++ [0x0a])

/-- A line with bytes in hexadecimal. -/
def printHex (label : String) {n : ℕ} (bytes : Bytes n) : List UInt8 :=
  ascii label.toList ++ (bytesToHex bytes.toList ++ [0x0a])

/-- `llist_size` as an `unsigned int`, which is −1 for `NULL`. -/
def llistCount {α : Type} : Option (List α) → UInt32
  | none => 4294967295
  | some list => UInt32.ofNat list.length

/-! ### Unspent outputs -/

/-- `print_unspent_tx_out_info` -/
def printUnspentTxOutInfo (u : UnspentTxOut) : List UInt8 :=
  [printHex "Block Hash: " u.blockHash,
    printHex "Transaction ID: " u.txId,
    ascii "Output Info:\n".toList,
    printNumber "    - Amount: " u.out.amount.toNat,
    printHex "    - Public Address: " u.out.pub,
    printHex "    - Output Hash: " u.out.hash].flatten

/-- What `list` prints, once the unspent outputs are sorted. -/
def printUnspent (unspent : List UnspentTxOut) : List UInt8 := unspent.flatMap printUnspentTxOutInfo

/-! ### Blocks -/

/-- `print_input_info` -/
def printInputInfo (i : TxIn) : List UInt8 :=
  [printHex "    - Block Hash: " i.blockHash,
    printHex "    - Transaction ID: " i.txId,
    printHex "    - Transaction Output Hash: " i.txOutHash].flatten

/-- `print_output_info` -/
def printOutputInfo (o : TxOut) : List UInt8 :=
  [printNumber "    - Amount: " o.amount.toNat,
    printHex "    - Public Address: " o.pub,
    printHex "    - Output Hash: " o.hash].flatten

/-- `print_transaction_info`, which prints all unspent outputs of the blockchain each time. -/
def printTransactionInfo (unspent : List UnspentTxOut) (t : Transaction) : List UInt8 :=
  [printHex "- Transaction ID: " t.id,
    ascii "  Inputs:\n".toList, t.inputs.flatMap printInputInfo,
    ascii "  Outputs:\n".toList, t.outputs.flatMap printOutputInfo,
    ascii "  Unspent:\n".toList, printUnspent unspent].flatten

/-- `sizeof(block_t) + num_transactions * sizeof(transaction_t)` -/
def totalSize (numTransactions : UInt32) : ℕ := 1128 + numTransactions.toNat * 48

/-- One round of the loop of `handle_info_block`. -/
def printBlock (unspent : List UnspentTxOut) (b : Block) : List UInt8 :=
  [printNumber "Block Index: " b.info.index.toNat,
    printNumber "Timestamp: " b.info.timestamp.toNat,
    printHex "Previous Block Hash: " b.info.prevHash,
    printHex "Block Hash: " b.hash,
    printNumber "Number of Transactions: " (llistCount b.transactions).toNat,
    ascii "List of Transactions:\n".toList, b.txs.flatMap (printTransactionInfo unspent),
    ascii "Block Size: ".toList, Decimal.chars (totalSize (llistCount b.transactions)),
    ascii " bytes\n\n".toList].flatten

/-- `handle_info_block` -/
def handleInfoBlock (s : State κ φ) : List UInt8 :=
  ascii "Blockchain Information:\n".toList ++
    s.blockchain.chain.flatMap (printBlock s.blockchain.unspent)

/-! ### The client -/

/-- `sum_unspent` over the unspent outputs. -/
def sumUnspent (unspent : List UnspentTxOut) : UInt32 :=
  unspent.foldl (fun total u => total + u.out.amount) 0

/-- What `handle_info` prints about the last block. -/
def printHeader (last : Option Block) : List UInt8 :=
  match last with
  | none => ascii "No blocks in the blockchain\n".toList
  | some b =>
    ascii "\nBlock Header:\n".toList ++
      if b.info.index = 0 then ascii "This is the Genesis Block\n".toList
      else
        printNumber "Nonce: " b.info.nonce.toNat ++
          printNumber "Difficulty: " b.info.difficulty.toNat

/-- `handle_info`, where the pool is a list. -/
def handleInfo (s : State κ φ) : List UInt8 :=
  [printNumber "Number of Blocks in Blockchain: " (llistCount (some s.blockchain.chain)).toNat,
    printNumber "Number of unspent transaction outputs: "
      (llistCount (some s.blockchain.unspent)).toNat,
    ascii "Transaction pool is available\n".toList,
    printNumber "Number of pending transactions in transaction pool: "
      (llistCount (some s.txPool)).toNat,
    printNumber "Coins: " (sumUnspent s.blockchain.unspent).toNat,
    printHeader s.blockchain.chain.getLast?].flatten

end HolbertonChain
