import HolbertonChain.Blockchain.Serialize
import HolbertonChain.Lib.Stdio

/-!
# Loading a blockchain (`blockchain_deserialize.c`)

No call of `fread` is checked, and every destination but one is memory fresh from `malloc` or the
stack.  The one exception is `data.buffer`, which is zeroed first.
-/

namespace HolbertonChain

open Bytes Stdio

variable {κ : Type} (E : Env κ)

/-! ### Structures from memory -/

/-- The `tx_in_t` whose memory is `v`. -/
def txInOfImage (v : Bytes 169) : TxIn where
  blockHash := field v 0 32
  txId := field v 32 32
  txOutHash := field v 64 32
  sig := { sig := field v 96 72, len := (field v 168 1).head }

/-- The `tx_out_t` whose memory starts with `v`. -/
def txOutOfImage (v : Bytes 101) : TxOut where
  amount := decode32 E.host (field v 0 4)
  pub := field v 4 65
  hash := field v 69 32

/-- The `unspent_tx_out_t` whose memory starts with `v`. -/
def unspentOfImage (v : Bytes 165) : UnspentTxOut where
  blockHash := field v 0 32
  txId := field v 32 32
  out := txOutOfImage E (field v 64 101)

/-- The `block_info_t` whose memory is `v`. -/
def infoOfImage (v : Bytes 56) : BlockInfo where
  index := decode32 E.host (field v 0 4)
  difficulty := decode32 E.host (field v 4 4)
  timestamp := decode64 E.host (field v 8 8)
  nonce := decode64 E.host (field v 16 8)
  prevHash := field v 24 32

/-- The `block_header_t` whose memory is `v`. -/
def headerOfImage (v : Bytes 16) : BlockHeader where
  magic := field v 0 4
  version := field v 4 3
  endian := (field v 7 1).head
  blocks := decode32 E.host (field v 8 4)
  unspent := decode32 E.host (field v 12 4)

/-! ### Reading -/

/-- How often a loop `for (i = 0; i < n; i++)` over `int32_t` runs. -/
def loopCount (n : UInt32) : ℕ := if n.toNat < 2 ^ 31 then n.toNat else 0

/-- One round of the loop of `fread_transactions`. -/
def freadTransaction (fr : File) : Transaction × File :=
  let (id, fr) := fread 32 fr
  let (txIn, fr) := fread 4 fr
  let (txOut, fr) := fread 4 fr
  let (ins, fr) := freadRecords 169 txInOfImage (loopCount (decode32 E.host txIn)) fr
  let (outs, fr) := freadRecords 101 (txOutOfImage E) (loopCount (decode32 E.host txOut)) fr
  ({ id, inputs := ins, outputs := outs }, fr)

/-- The loop of `fread_transactions`. -/
def freadTransactionList : ℕ → File → List Transaction × File
  | 0, fr => ([], fr)
  | n + 1, fr =>
    let (t, fr) := freadTransaction E fr
    let (ts, fr) := freadTransactionList n fr
    (t :: ts, fr)

/-- `fread_transactions` -/
def freadTransactions (fr : File) : Option (List Transaction) × File :=
  let (size, fr) := fread 4 fr
  let txSize := decode32 E.host size
  if txSize = -1 then (none, fr)
  else
    let (ts, fr) := freadTransactionList E (loopCount txSize) fr
    (some ts, fr)

/-- `fread(&block->data.buffer, 1, block->data.len, fr)` after the `memset`: more than
`BLOCKCHAIN_DATA_MAX` bytes run over the buffer. -/
def freadData (len : UInt32) (fr : File) : Exec (Bytes 1024 × File) :=
  let bytes := fr.rest.take len.toNat
  if 1024 < bytes.length then throw .outOfBounds
  else pure (ofList 1024 bytes, { fr with rest := fr.rest.drop len.toNat })

/-- One round of the loop of `blockchain_deserialize` over the blocks. -/
def freadBlock (fr : File) : Exec (Block × File) := do
  let (info, fr) := fread 56 fr
  let (len, fr) := fread 4 fr
  let len := decode32 E.host len
  let (buffer, fr) ← freadData len fr
  let (hash, fr) := fread 32 fr
  let (transactions, fr) := freadTransactions E fr
  pure ({ info := infoOfImage E info, data := { buffer, len }, transactions, hash }, fr)

/-- The loop of `blockchain_deserialize` over the blocks. -/
def freadBlocks : ℕ → File → Exec (List Block × File)
  | 0, fr => pure ([], fr)
  | n + 1, fr => do
    let (b, fr) ← freadBlock E fr
    let (bs, fr) ← freadBlocks n fr
    pure (b :: bs, fr)

/-- `check_header` -/
def checkHeader (header : BlockHeader) : Bool :=
  header.magic == hblkMagic && header.version == hblkVersion

/-- `blockchain_deserialize` of the contents of the file at a path, or of a path that cannot be
opened; `none` as result is `NULL`. -/
def blockchainDeserialize (junk : ℕ → UInt8) (contents : Option (List UInt8)) :
    Exec (Option Blockchain) :=
  match contents with
  | none => pure none
  | some bytes =>
    let (v, fr) := fread 16 { rest := bytes, junk }
    let header := headerOfImage E v
    -- the byte order in the header is not looked at
    if checkHeader header then do
      let (chain, fr) ← freadBlocks E header.blocks.toNat fr
      let (unspent, _) := freadRecords 165 (unspentOfImage E) header.unspent.toNat fr
      pure (some { chain, unspent })
    else pure none

end HolbertonChain
