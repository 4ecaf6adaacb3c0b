import HolbertonChain.Block.Validity
import HolbertonChain.Lib.CounterSearch
import HolbertonChain.V02.Blockchain

/-!
# Blocks without transactions (`blockchain/v0.2` and `blockchain/v0.1`)

`block_create.c`, `block_hash.c`, `block_is_valid.c` and `blockchain_create.c` of v0.2, which v0.1
shares but for the last check of `block_is_valid`, and `block_mine.c` and `blockchain_difficulty.c`,
which v0.1 has not.  `hash_matches_difficulty.c` is the file of v0.3.

Other than in v0.3, `block_hash` hashes the block where it lies, so its length may run over the
buffer and into the fields behind it.
-/

namespace HolbertonChain.V02

open Bytes CounterSearch

variable {κ : Type} (E : Env κ)

/-! ### Creating blocks -/

/-- `GENESIS_BLOCK` -/
def genesis : Block where
  info := HolbertonChain.genesisBlock.info
  data := HolbertonChain.genesisBlock.data
  hash := genesisHash

/-- `blockchain_create` -/
def blockchainCreate : Blockchain where
  chain := some [genesis]

/-- `block_create`, with the current time; `none` as previous block or as data is `NULL`. -/
def blockCreate (time : UInt64) (prev : Option Block) (data : Option (List UInt8))
    (dataLen : UInt32) : Exec (Option Block) :=
  let maxLen := if 1024 < dataLen then 1024 else dataLen
  match prev, data with
  | some prev, some data =>
    if data.length < maxLen.toNat then throw .outOfBounds
    else
      pure (some
        { info :=
            { index := prev.info.index + 1, difficulty := 0, timestamp := time, nonce := 0
              prevHash := prev.hash }
          data := { buffer := ofList 1024 (data.take maxLen.toNat), len := maxLen }
          hash := zero 32 })
  | _, _ => pure none

/-! ### Hashing -/

/-- A `block_t` as an array of bytes.  Behind the hash there are four bytes of padding, which
`calloc` and `memset` leave zero. -/
def blockBytes (b : Block) : List UInt8 :=
  infoBytes E b.info ++ b.data.buffer.toList ++ (encode32 E.host b.data.len).toList
    ++ b.hash.toList ++ (zero 4).toList

/-- `block_hash` -/
def blockHash (b : Block) : Exec Digest :=
  let len := 56 + b.data.len.toNat
  if (blockBytes E b).length < len then throw .outOfBounds
  else pure (E.sha256 ((blockBytes E b).take len))

/-! ### Validation -/

/-- `block_is_valid` up to its last check, which v0.1 has not: 0 for a valid block.  `none` as
previous block is `NULL`. -/
def blockIsValidWith (lastCheck : Block → Exec Bool) (block : Block) (prevBlock : Option Block) :
    Exec ℕ :=
  if prevBlock.isNone ∧ block.info.index ≠ 0 then pure 1
  else if block.info.index = 0 then pure (if block = genesis then 0 else 1)
  else
    match prevBlock with
    | none => pure 1
    | some prev =>
      if block.info.index ≠ prev.info.index + 1 then pure 1
      else do
        let hash ← blockHash E prev
        if hash ≠ prev.hash then pure 1
        else if prev.hash ≠ block.info.prevHash then pure 1
        else
          -- the block is hashed before its `data.len` is compared with the size of the buffer
          let hash ← blockHash E block
          if hash ≠ block.hash then pure 1
          else if 1024 < block.data.len then pure 1
          else if !(← lastCheck block) then pure 1
          else pure 0

/-- The last check of v0.2. -/
def meetsDifficulty (block : Block) : Exec Bool :=
  hashMatchesDifficulty block.hash block.info.difficulty

/-- `block_is_valid` of v0.2 -/
def blockIsValid (block : Block) (prevBlock : Option Block) : Exec ℕ :=
  blockIsValidWith E meetsDifficulty block prevBlock

/-- `block_is_valid` of v0.1 -/
def blockIsValidV01 (block : Block) (prevBlock : Option Block) : Exec ℕ :=
  blockIsValidWith E (fun _ => pure true) block prevBlock

/-! ### Mining -/

/-- A block with another nonce. -/
def Block.withNonce (b : Block) (nonce : UInt64) : Block :=
  { b with info := { b.info with nonce } }

/-- One round of the loop of `block_mine`. -/
def mineTest (block : Block) (nonce : UInt64) : Exec (Option Block) := do
  let hash ← blockHash E (block.withNonce nonce)
  if ← hashMatchesDifficulty hash block.info.difficulty then
    pure (some { block.withNonce nonce with hash })
  else
    pure none

/-- `block_mine` -/
def blockMine (block : Block) : Exec Block :=
  CounterSearch.run .diverges (mineTest E block) (2 ^ 64) 0

/-- The block in v0.3, without transactions. -/
def Block.toV03 (b : Block) : HolbertonChain.Block :=
  { info := b.info, data := b.data, transactions := none, hash := b.hash }

/-- `blockchain_difficulty`, whose text is that of v0.3: it looks at nothing but the headers. -/
def blockchainDifficulty (chain : List Block) : UInt32 :=
  HolbertonChain.blockchainDifficulty (chain.map Block.toV03)

/-! ### First properties -/

/-- The bytes `block_hash` hashes of a block whose data fits its buffer. -/
def blockPreimage (b : Block) : List UInt8 :=
  infoBytes E b.info ++ b.data.buffer.toList.take b.data.len.toNat

@[simp] theorem length_blockBytes (b : Block) : (blockBytes E b).length = 1120 := by
  simp [blockBytes]

/-- With data that fits, the hash is that of the header and the data. -/
theorem blockHash_of_le {b : Block} (h : b.data.len.toNat ≤ 1024) :
    blockHash E b = .ok (E.sha256 (blockPreimage E b)) := by
  have htake : (blockBytes E b).take (56 + b.data.len.toNat) = blockPreimage E b := by
    unfold blockBytes blockPreimage
    simp only [List.append_assoc]
    rw [List.take_append, List.take_of_length_le (by simp), length_infoBytes,
      Nat.add_sub_cancel_left, List.take_append_of_le_length (by simpa using h)]
  unfold blockHash
  rw [length_blockBytes, if_neg (by omega), htake]
  rfl

/-- Every check a block behind another one passes. -/
structure IsNext (lastCheck : Block → Exec Bool) (block prev : Block) : Prop where
  index_ne : block.info.index ≠ 0
  index_eq : block.info.index = prev.info.index + 1
  prev_hash : blockHash E prev = .ok prev.hash
  prevHash_eq : block.info.prevHash = prev.hash
  hash_eq : blockHash E block = .ok block.hash
  len_le : block.data.len.toNat ≤ 1024
  lastCheck : lastCheck block = .ok true

/-- A block is valid if it is the genesis block, wherever it stands, or if it has a previous block
and passes every check against it. -/
theorem blockIsValidWith_eq_zero_iff {lastCheck : Block → Exec Bool} {block : Block}
    {prev : Option Block} :
    blockIsValidWith E lastCheck block prev = .ok 0 ↔
      block = genesis ∨ ∃ p, prev = some p ∧ IsNext E lastCheck block p := by
  unfold blockIsValidWith
  -- index 0 is for the genesis block alone, and every other index for a block behind another one
  by_cases hindex : block.info.index = 0
  · have hnext : ¬ ∃ p, prev = some p ∧ IsNext E lastCheck block p :=
      fun ⟨_, _, h⟩ => h.index_ne hindex
    rw [if_neg (fun h => h.2 hindex), if_pos hindex, or_iff_left hnext]
    by_cases hgenesis : block = genesis <;> simp [hgenesis]
  · have hgenesis : block ≠ genesis := fun h => hindex (h ▸ rfl)
    rw [or_iff_right hgenesis]
    cases prev with
    | none => simp [hindex]
    | some p =>
      rw [if_neg (by simp), if_neg hindex]
      -- the checks in turn, each of which must not return
      simp only [check_eq_zero_iff, Except.bind_eq_ok_iff, not_not]
      constructor
      · rintro ⟨hnext, hash, hprev, hstored, hlink, hash', hblock, hself, hlen, last, hlast, hpass,
          -⟩
        have htrue : last = true := by simpa using hpass
        exact ⟨p, rfl,
          { index_ne := hindex
            index_eq := hnext
            prev_hash := by rw [hprev, hstored]
            prevHash_eq := hlink.symm
            hash_eq := by rw [hblock, hself]
            len_le := by simpa [UInt32.lt_iff_toNat_lt] using hlen
            lastCheck := by rw [hlast, htrue] }⟩
      · rintro ⟨p', hp', h⟩
        obtain rfl := Option.some.inj hp'
        refine ⟨h.index_eq, p.hash, h.prev_hash, rfl, h.prevHash_eq.symm, block.hash, h.hash_eq,
          rfl, ?_, true, h.lastCheck, by simp, rfl⟩
        simpa [UInt32.lt_iff_toNat_lt] using h.len_le

end HolbertonChain.V02
