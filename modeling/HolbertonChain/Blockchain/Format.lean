import HolbertonChain.Basic

/-!
# The v0.3 file format

The tables of the README, for a byte order `ord`: a file header, the blocks with their transactions,
and the unspent outputs.  A record of fixed size is an array of that size.

`Encodable` is what the counts and lengths of the format can express, and `Complete` says of a file
that everything its counts and lengths announce is there.
-/

namespace HolbertonChain.Format

open Bytes

/-! ### Records of fixed size -/

/-- `hblk_endian` -/
def endian : Endian → UInt8
  | .little => 1
  | .big => 2

/-- The file header. -/
def header (ord : Endian) (hblkBlocks hblkUnspent : UInt32) : Bytes 16 :=
  ⟨[0x48, 0x42, 0x4c, 0x4b] ++ ([0x30, 0x2e, 0x33] ++ ([endian ord] ++
    ((encode32 ord hblkBlocks).toList ++ (encode32 ord hblkUnspent).toList))), by simp⟩

/-- The first 56 bytes of a block. -/
def info (ord : Endian) (i : BlockInfo) : Bytes 56 :=
  ⟨(encode32 ord i.index).toList ++ ((encode32 ord i.difficulty).toList ++
    ((encode64 ord i.timestamp).toList ++ ((encode64 ord i.nonce).toList ++ i.prevHash.toList))),
    by simp⟩

/-- A transaction input. -/
def txIn (i : TxIn) : Bytes 169 :=
  ⟨i.blockHash.toList ++ (i.txId.toList ++ (i.txOutHash.toList ++
    (i.sig.sig.toList ++ [i.sig.len]))), by simp⟩

/-- A transaction output. -/
def txOut (ord : Endian) (o : TxOut) : Bytes 101 :=
  ⟨(encode32 ord o.amount).toList ++ (o.pub.toList ++ o.hash.toList), by simp⟩

/-- An unspent transaction output. -/
def unspentTxOut (ord : Endian) (u : UnspentTxOut) : Bytes 165 :=
  ⟨u.blockHash.toList ++ (u.txId.toList ++ ((encode32 ord u.out.amount).toList ++
    (u.out.pub.toList ++ u.out.hash.toList))), by simp⟩

/-! ### Transactions, blocks and the file -/

/-- A transaction. -/
def transaction (ord : Endian) (t : Transaction) : List UInt8 :=
  t.id.toList ++ ((encode32 ord (UInt32.ofNat t.inputs.length)).toList ++
    ((encode32 ord (UInt32.ofNat t.outputs.length)).toList ++
      ((t.inputs.flatMap fun i => (txIn i).toList) ++
        t.outputs.flatMap fun o => (txOut ord o).toList)))

/-- `nb_transactions`: -1 is for `NULL`, 0 for an empty list. -/
def nbTransactions : Option (List Transaction) → UInt32
  | none => -1
  | some ts => UInt32.ofNat ts.length

/-- A block. -/
def block (ord : Endian) (b : Block) : List UInt8 :=
  (info ord b.info).toList ++ ((encode32 ord b.data.len).toList ++
    (b.data.buffer.toList.take b.data.len.toNat ++ (b.hash.toList ++
      ((encode32 ord (nbTransactions b.transactions)).toList ++ b.txs.flatMap (transaction ord)))))

/-- A file. -/
def file (ord : Endian) (bc : Blockchain) : List UInt8 :=
  (header ord (UInt32.ofNat bc.chain.length) (UInt32.ofNat bc.unspent.length)).toList ++
    (bc.chain.flatMap (block ord) ++ bc.unspent.flatMap fun u => (unspentTxOut ord u).toList)

/-- The counts of a transaction are not negative as 32-bit integers. -/
structure EncodableTransaction (t : Transaction) : Prop where
  inputs_lt : t.inputs.length < 2 ^ 31
  outputs_lt : t.outputs.length < 2 ^ 31

/-- The data of a block fits its buffer, and its counts are not negative as 32-bit integers. -/
structure EncodableBlock (b : Block) : Prop where
  len_le : b.data.len.toNat ≤ 1024
  transactions_lt : b.txs.length < 2 ^ 31
  transactions : ∀ t ∈ b.txs, EncodableTransaction t

/-- What the counts and lengths of the format can express. -/
structure Encodable (bc : Blockchain) : Prop where
  chain_lt : bc.chain.length < 2 ^ 32
  unspent_lt : bc.unspent.length < 2 ^ 32
  blocks : ∀ b ∈ bc.chain, EncodableBlock b

/-- Every block, transaction, input, output and unspent output that the counts and lengths of a file
announce is there. -/
def Complete (f : List UInt8) : Prop :=
  ∃ (ord : Endian) (bc : Blockchain) (rest : List UInt8), Encodable bc ∧ f = file ord bc ++ rest

end HolbertonChain.Format
