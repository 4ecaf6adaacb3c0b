import HolbertonChain.Block.Hash
import HolbertonChain.Transaction.Hash

/-!
# Saving a blockchain (`blockchain_serialize.c`)

The bytes `blockchain_serialize` writes to the file it opened and truncated.  Records are written
straight from memory: `write` copies the first 169, 101 or 165 bytes of a structure (`txInImage`,
`txOutImage`, `unspentImage`), of which the last two are followed by padding.

The number of nodes of a list is an `int` (`llist_size`).
-/

namespace HolbertonChain

open Bytes

variable {κ : Type} (E : Env κ)

/-! ### Structures in memory -/

/-- A `tx_in_t` in memory. -/
def txInImage (i : TxIn) : List UInt8 :=
  i.blockHash.toList ++ i.txId.toList ++ i.txOutHash.toList ++ i.sig.sig.toList ++ [i.sig.len]

/-- A `tx_out_t` in memory, with the padding that aligns `amount`. -/
def txOutImage (o : TxOut) : List UInt8 :=
  (encode32 E.host o.amount).toList ++ o.pub.toList ++ o.hash.toList ++ List.replicate 3 0

/-- An `unspent_tx_out_t` in memory. -/
def unspentImage (u : UnspentTxOut) : List UInt8 :=
  u.blockHash.toList ++ u.txId.toList ++ txOutImage E u.out

/-- `block_header_t` -/
structure BlockHeader where
  magic : Bytes 4
  version : Bytes 3
  endian : UInt8
  blocks : UInt32
  unspent : UInt32
  deriving DecidableEq

/-- A `block_header_t` in memory. -/
def headerImage (header : BlockHeader) : List UInt8 :=
  header.magic.toList ++ header.version.toList ++ [header.endian]
    ++ (encode32 E.host header.blocks).toList ++ (encode32 E.host header.unspent).toList

/-- `HBLK_MAGIC` -/
def hblkMagic : Bytes 4 := ⟨[0x48, 0x42, 0x4c, 0x4b], rfl⟩

/-- `HBLK_VERSION`, `"0.3"` -/
def hblkVersion : Bytes 3 := ⟨[0x30, 0x2e, 0x33], rfl⟩

/-- `_get_endianness`: the first byte of the integer 1 is 1 on a little-endian host. -/
def getEndianness : UInt8 :=
  match (encode32 E.host 1).toList with
  | b :: _ => if b = 1 then 1 else if b = 0 then 2 else 0
  | [] => 0

/-- `init_block_header` -/
def initBlockHeader : BlockHeader where
  magic := hblkMagic
  version := hblkVersion
  endian := getEndianness E
  blocks := 0
  unspent := 0

/-! ### Writing -/

/-- One round of the loop of `write_transactions`. -/
def writeTransaction (t : Transaction) : List UInt8 :=
  t.id.toList
    ++ (encode32 E.host (UInt32.ofNat t.inputs.length)).toList
    ++ (encode32 E.host (UInt32.ofNat t.outputs.length)).toList
    ++ t.inputs.flatMap (fun i => (txInImage i).take 169)
    ++ t.outputs.flatMap (fun o => (txOutImage E o).take 101)

/-- `write_transactions` -/
def writeTransactions (transactions : Option (List Transaction)) : List UInt8 :=
  (transactions.getD []).flatMap (writeTransaction E)

/-- The `int` `tx_size` of a block: `-1` for a block of index 0, and what `llist_size` returns for
the others, which is `-1` for a `NULL` list. -/
def txSize (block : Block) : UInt32 :=
  if block.info.index = 0 then -1
  else
    match block.transactions with
    | none => -1
    | some ts => UInt32.ofNat ts.length

/-- One round of the loop of `blockchain_serialize` over the blocks. -/
def writeBlock (block : Block) : Exec (List UInt8) :=
  if 1024 < block.data.len.toNat then throw .outOfBounds
  else
    pure (infoBytes E block.info
      ++ (encode32 E.host block.data.len).toList
      ++ block.data.buffer.toList.take block.data.len.toNat
      ++ block.hash.toList
      ++ (encode32 E.host (txSize block)).toList
      -- also for a block of index 0, whatever its list
      ++ writeTransactions E block.transactions)

/-- The loop of `blockchain_serialize` over the blocks. -/
def writeBlocks : List Block → Exec (List UInt8)
  | [] => pure []
  | b :: bs => do
    let bytes ← writeBlock E b
    let rest ← writeBlocks bs
    pure (bytes ++ rest)

/-- `blockchain_serialize`, on a path that can be opened. -/
def blockchainSerialize (blockchain : Blockchain) : Exec (List UInt8) := do
  let header :=
    { initBlockHeader E with
      blocks := UInt32.ofNat blockchain.chain.length
      unspent := UInt32.ofNat blockchain.unspent.length }
  let blocks ← writeBlocks E blockchain.chain
  pure (headerImage E header ++ blocks
    ++ blockchain.unspent.flatMap (fun u => (unspentImage E u).take 165))

end HolbertonChain
