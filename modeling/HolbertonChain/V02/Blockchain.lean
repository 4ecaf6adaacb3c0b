import HolbertonChain.Blockchain.Deserialize

/-!
# Blockchains without transactions (`blockchain/v0.2` and `blockchain/v0.1`)

The data of a v0.2 blockchain, `blockchain_serialize.c` and `blockchain_deserialize.c`.  The code of
v0.1 is the same but for `HBLK_VERSION`, which is a parameter here.  The header of a block and its
data are the structures of v0.3.

Other than in v0.3, the result of every `read` is looked at, and a file of the other byte order is
told by its header.
-/

namespace HolbertonChain.V02

open Bytes Stdio

variable {κ : Type} (E : Env κ)

/-! ### The data -/

/-- `block_t` -/
structure Block where
  info : BlockInfo
  data : BlockData
  hash : Digest
  deriving DecidableEq

/-- `blockchain_t`; `none` is a `NULL` list. -/
structure Blockchain where
  chain : Option (List Block)
  deriving DecidableEq

/-! ### Writing -/

/-- `HBLK_VERSION`, `"0.2"` -/
def hblkVersion : Bytes 3 := ⟨[0x30, 0x2e, 0x32], rfl⟩

/-- One round of the loop of `blockchain_serialize`. -/
def writeBlock (block : Block) : Exec (List UInt8) :=
  if 1024 < block.data.len.toNat then throw .outOfBounds
  else
    pure (infoBytes E block.info
      ++ (encode32 E.host block.data.len).toList
      ++ block.data.buffer.toList.take block.data.len.toNat
      ++ block.hash.toList)

/-- The loop of `blockchain_serialize`. -/
def writeBlocks : List Block → Exec (List UInt8)
  | [] => pure []
  | b :: bs => do
    let bytes ← writeBlock E b
    let rest ← writeBlocks bs
    pure (bytes ++ rest)

/-- The number of nodes of a list as `llist_size` returns it. -/
def llistSize (list : Option (List Block)) : UInt32 :=
  match list with
  | none => -1
  | some bs => UInt32.ofNat bs.length

/-- `blockchain_serialize`, on a path that can be opened.  The number of blocks is an `int`, which
is `-1` for a `NULL` list. -/
def blockchainSerialize (version : Bytes 3) (bc : Blockchain) : Exec (List UInt8) := do
  let numberOfBlocks := llistSize bc.chain
  let header := hblkMagic.toList ++ version.toList ++ [getEndianness E]
    ++ (encode32 E.host numberOfBlocks).toList
  let blocks ← writeBlocks E ((bc.chain.getD []).take (loopCount numberOfBlocks))
  pure (header ++ blocks)

/-! ### Reading -/

/-- `SWAPENDIAN32` on a `uint32_t`. -/
def swapEndian32 (x : UInt32) : UInt32 :=
  (x &&& 0xff000000) >>> 24 ||| (x &&& 0x00ff0000) >>> 8 ||| (x &&& 0x0000ff00) <<< 8 |||
    (x &&& 0x000000ff) <<< 24

/-- `SWAPENDIAN32` on a `uint64_t`: the masks cut off the upper half. -/
def swapEndian32Wide (x : UInt64) : UInt64 :=
  (x &&& 0xff000000) >>> 24 ||| (x &&& 0x00ff0000) >>> 8 ||| (x &&& 0x0000ff00) <<< 8 |||
    (x &&& 0x000000ff) <<< 24

/-- The four assignments of `blocks` to the header of a block. -/
def swapInfo (info : BlockInfo) : BlockInfo :=
  { info with
    index := swapEndian32 info.index
    difficulty := swapEndian32 info.difficulty
    -- the macro for 32 bits, also on these two
    timestamp := swapEndian32Wide info.timestamp
    nonce := swapEndian32Wide info.nonce }

/-- `read(fd, block->data.buffer, block->data.len)` into a zeroed buffer: more than
`BLOCKCHAIN_DATA_MAX` bytes run over it, and fewer than `len` are refused. -/
def readData (len : UInt32) (bytes : List UInt8) : Exec (Option (Bytes 1024 × List UInt8)) :=
  let data := bytes.take len.toNat
  if 1024 < data.length then throw .outOfBounds
  else if data.length ≠ len.toNat then pure none
  else pure (some (ofList 1024 data, bytes.drop len.toNat))

/-- One round of the loop of `blocks`. -/
def readBlock (endianness : Bool) (bytes : List UInt8) : Exec (Option (Block × List UInt8)) :=
  match readExact 56 bytes with
  | none => pure none
  | some (image, bytes) =>
    let info := infoOfImage E image
    let info := if endianness then swapInfo info else info
    match readExact 4 bytes with
    | none => pure none
    | some (tmpLen, bytes) =>
      let tmpLen := decode32 E.host tmpLen
      let len := if endianness then swapEndian32 tmpLen else tmpLen
      do
        match ← readData len bytes with
        | none => pure none
        | some (buffer, bytes) =>
          match readExact 32 bytes with
          | none => pure none
          | some (hash, bytes) => pure (some ({ info, data := { buffer, len }, hash }, bytes))

/-- `blocks` -/
def blocks (endianness : Bool) : ℕ → List UInt8 → Exec (Option (List Block))
  | 0, _ => pure (some [])
  | n + 1, bytes => do
    match ← readBlock E endianness bytes with
    | none => pure none
    | some (b, bytes) =>
      match ← blocks endianness n bytes with
      | none => pure none
      | some bs => pure (some (b :: bs))

/-- `blockchain_deserialize` of the contents of the file at a path, or of a path that cannot be
opened; `none` as result is `NULL`. -/
def blockchainDeserialize (version : Bytes 3) (contents : Option (List UInt8)) :
    Exec (Option Blockchain) :=
  match contents with
  | none => pure none
  | some bytes =>
    match readExact 4 bytes with
    | none => pure none
    | some (magic, bytes) =>
      if magic ≠ hblkMagic then pure none
      else
        match readExact 3 bytes with
        | none => pure none
        | some (version', bytes) =>
          if version' ≠ version then pure none
          else
            match readExact 1 bytes with
            | none => pure none
            | some (endianness, bytes) =>
              let endianness := endianness.head != getEndianness E
              match readExact 4 bytes with
              | none => pure none
              | some (size, bytes) => do
                -- the number of blocks is not swapped
                let chain ← blocks E endianness (decode32 E.host size).toNat bytes
                -- `if (!chain)` is about the blockchain, not about its list
                pure (some { chain })

end HolbertonChain.V02
