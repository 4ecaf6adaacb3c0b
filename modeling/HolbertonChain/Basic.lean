import HolbertonChain.Lib.Bytes

/-!
# The data of the chain (`blockchain.h`, `transaction.h`, `hblk_crypto.h`)

The C structures field by field.  An array is a `Bytes n` of its declared size, a `uint32_t` a
`UInt32`, and a linked list the list of its nodes in order; where the code tells a `NULL` list from
an empty one (`block_t.transactions`) the list is an `Option`.

`Exec` is the type of a computation that may leave defined C behaviour: a function returns a value
or the `Fault` that ends the run.
-/

namespace HolbertonChain

open Bytes

/-! ### Faults -/

/-- What takes a C run out of defined behaviour. -/
inductive Fault where
  /-- A read or a write outside an object. -/
  | outOfBounds
  /-- A signed integer operation whose result is not an `int`. -/
  | intOverflow
  /-- A use of a variable that was never assigned. -/
  | uninitialised
  /-- A loop that never ends. -/
  | diverges
  deriving DecidableEq, Repr

/-- A computation that returns or faults. -/
abbrev Exec := Except Fault

/-- The largest `int`. -/
def intMax : ℕ := 2 ^ 31 - 1

/-- The conversion of an `int` to an unsigned type of 64 bits. -/
theorem toNat_ofInt (x : ℤ) : ((UInt64.ofInt x).toNat : ℤ) = x % 2 ^ 64 := by
  rw [UInt64.ofInt, UInt64.toNat_ofNat']
  omega

/-! ### Arrays -/

/-- A SHA-256 digest (`SHA256_DIGEST_LENGTH` bytes). -/
abbrev Digest := Bytes 32

/-- A public key as an uncompressed octet string (`EC_PUB_LEN` bytes). -/
abbrev Pub := Bytes 65

/-! ### Transactions -/

/-- `sign_t`, with a buffer of `SIG_MAX_LEN` bytes -/
structure Sign where
  sig : Bytes 72
  len : UInt8
  deriving DecidableEq

/-- `tx_out_t` -/
structure TxOut where
  amount : UInt32
  pub : Pub
  hash : Digest
  deriving DecidableEq

/-- `tx_in_t` -/
structure TxIn where
  blockHash : Digest
  txId : Digest
  txOutHash : Digest
  sig : Sign
  deriving DecidableEq

/-- `unspent_tx_out_t` -/
structure UnspentTxOut where
  blockHash : Digest
  txId : Digest
  out : TxOut
  deriving DecidableEq

/-- `transaction_t` -/
structure Transaction where
  id : Digest
  inputs : List TxIn
  outputs : List TxOut
  deriving DecidableEq

/-- The three fields by which an input names an unspent output. -/
structure OutRef where
  blockHash : Digest
  txId : Digest
  txOutHash : Digest
  deriving DecidableEq

/-- The output an input refers to. -/
def TxIn.ref (i : TxIn) : OutRef := ⟨i.blockHash, i.txId, i.txOutHash⟩

/-- The reference of an unspent output. -/
def UnspentTxOut.ref (u : UnspentTxOut) : OutRef := ⟨u.blockHash, u.txId, u.out.hash⟩

/-! ### Blocks -/

/-- `block_data_t`, with a buffer of `BLOCKCHAIN_DATA_MAX` bytes -/
structure BlockData where
  buffer : Bytes 1024
  len : UInt32
  deriving DecidableEq

/-- `block_info_t` -/
structure BlockInfo where
  index : UInt32
  difficulty : UInt32
  timestamp : UInt64
  nonce : UInt64
  prevHash : Digest
  deriving DecidableEq

/-- `block_t`; `none` is the `NULL` transaction list. -/
structure Block where
  info : BlockInfo
  data : BlockData
  transactions : Option (List Transaction)
  hash : Digest
  deriving DecidableEq

/-- `blockchain_t` -/
structure Blockchain where
  chain : List Block
  unspent : List UnspentTxOut
  deriving DecidableEq

/-- The transactions of a block as the loops over the list see them: `llist_size` of `NULL` is
`-1`, so a `NULL` list has no node to visit. -/
def Block.txs (b : Block) : List Transaction := b.transactions.getD []

/-- `llist_size` of a list that is not `NULL` -/
def llistSize {α : Type} (list : List α) : Int32 := Int32.ofNat list.length

/-- `GENESIS_HASH` -/
def genesisHash : Digest :=
  ⟨[0xc5, 0x2c, 0x26, 0xc8, 0xb5, 0x46, 0x16, 0x39, 0x63, 0x5d, 0x8e, 0xdf, 0x2a, 0x97, 0xd4, 0x8d,
    0x0c, 0x8e, 0x00, 0x09, 0xc8, 0x17, 0xf2, 0xb1, 0xd3, 0xd7, 0xff, 0x2f, 0x04, 0x51, 0x58, 0x03],
    rfl⟩

/-- The bytes of `"Holberton School"`. -/
def genesisData : List UInt8 :=
  [0x48, 0x6f, 0x6c, 0x62, 0x65, 0x72, 0x74, 0x6f, 0x6e, 0x20, 0x53, 0x63, 0x68, 0x6f, 0x6f, 0x6c]

/-- `GENESIS_BLOCK` -/
def genesisBlock : Block where
  info := { index := 0, difficulty := 0, timestamp := 1537578000, nonce := 0, prevHash := zero 32 }
  data := { buffer := ofList 1024 genesisData, len := 16 }
  transactions := none
  hash := genesisHash

/-- `blockchain_create`: a chain that holds the genesis block, and no unspent output. -/
def blockchainCreate : Blockchain := ⟨[genesisBlock], []⟩

end HolbertonChain
