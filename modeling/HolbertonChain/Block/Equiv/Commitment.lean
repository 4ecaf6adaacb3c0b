import HolbertonChain.Block.Equiv.Extend
import HolbertonChain.Lib.FixedWidth
import HolbertonChain.Sample

/-!
# What a block hash commits to

`block_hash` hashes the block info, `data.len` bytes of data and the transaction IDs, one behind the
other; neither `data.len` nor the number of transactions is among the bytes.  So the hash of an
accepted block commits to the info and to the data and IDs as one string of bytes
(`blockIsValid_commits`), and the boundary between the two is only fixed by `data.len`:
`dataBlock` is accepted under the hash of `idBlock`, and has one transaction less and 32 bytes of
data more.
-/

namespace HolbertonChain

open Bytes FixedWidth

variable {κ : Type} (E : Env κ)

/-- The bytes of the data of a block. -/
def BlockData.bytes (d : BlockData) : List UInt8 := d.buffer.toList.take d.len.toNat

/-- The IDs of the transactions of a block. -/
def Block.ids (b : Block) : List Digest := b.txs.map (·.id)

theorem length_bytes {d : BlockData} (h : d.len.toNat ≤ 1024) : d.bytes.length = d.len.toNat := by
  simp [BlockData.bytes, h]

/-- An accepted block carries its own hash. -/
theorem blockHash_of_blockIsValid {stack : ℕ → Digest} {b : Block} {prev : Option Block}
    {U : List UnspentTxOut} (hgenesis : blockHash E genesisBlock = .ok (some genesisHash))
    (h : blockIsValid E stack b prev U = .ok 0) : blockHash E b = .ok (some b.hash) := by
  rcases (blockIsValid_eq_zero_iff E).mp h with rfl | ⟨p, -, hnext⟩
  · exact hgenesis
  · exact hnext.hash_eq

/-- Blocks with one preimage have the same info, and the same data and IDs as one string. -/
theorem info_and_bytes_of_blockPreimage_eq {b b' : Block}
    (h : blockPreimage E b = blockPreimage E b') :
    b.info = b'.info ∧
      b.data.bytes ++ hashTransactionIds b.txs = b'.data.bytes ++ hashTransactionIds b'.txs := by
  unfold blockPreimage at h
  rw [List.append_assoc, List.append_assoc] at h
  obtain ⟨hinfo, hbytes⟩ := List.append_inj h (by simp)
  exact ⟨infoBytes_injective E hinfo, hbytes⟩

/-- Of two accepted blocks with one hash, the info and the string of data and IDs are the same; the
data and the IDs are each the same if and only if the data have the same length. -/
theorem blockIsValid_commits {stack stack' : ℕ → Digest} {b b' : Block} {prev : Option Block}
    {U : List UnspentTxOut} (hgenesis : blockHash E genesisBlock = .ok (some genesisHash))
    (hsha : Set.InjOn E.sha256 {blockPreimage E b, blockPreimage E b'})
    (h : blockIsValid E stack b prev U = .ok 0) (h' : blockIsValid E stack' b' prev U = .ok 0)
    (hhash : b.hash = b'.hash) :
    b.info = b'.info ∧
      b.data.bytes ++ hashTransactionIds b.txs = b'.data.bytes ++ hashTransactionIds b'.txs ∧
      (b.data.len = b'.data.len ∧ b.data.bytes = b'.data.bytes ∧ b.ids = b'.ids ↔
        b.data.len = b'.data.len) := by
  obtain ⟨hlen, -, hb⟩ := (blockHash_eq_ok_some_iff E).mp (blockHash_of_blockIsValid E hgenesis h)
  obtain ⟨hlen', -, hb'⟩ :=
    (blockHash_eq_ok_some_iff E).mp (blockHash_of_blockIsValid E hgenesis h')
  have hpre : blockPreimage E b = blockPreimage E b' :=
    hsha (by simp) (by simp) (by rw [hb, hb', hhash])
  obtain ⟨hinfo, hbytes⟩ := info_and_bytes_of_blockPreimage_eq E hpre
  refine ⟨hinfo, hbytes, fun hsame => hsame.1, fun hsame => ?_⟩
  -- data of one length are cut off at the same place, and leave the IDs
  have hcut : b.data.bytes.length = b'.data.bytes.length := by
    rw [length_bytes hlen, length_bytes hlen', hsame]
  obtain ⟨hdata, hids⟩ := List.append_inj hbytes hcut
  have hdigests : b.txs.map (fun t => t.id.toList) = b'.txs.map (fun t => t.id.toList) :=
    map_eq_map_of_flatMap_eq (n := 32) (by simp) (by decide) hids
  exact ⟨hsame, hdata, map_eq_map_of_map_eq_map (fun _ _ hid => toList_injective hid) hdigests⟩

/-! ### Two blocks under one hash -/

/-- An output that pays nothing, under a hash of one's choice. -/
def nothingOut (hash : Digest) : TxOut where
  amount := 0
  pub := zero 65
  hash := hash

/-- A transaction without inputs under the ID of the coinbase of block 1: its four output hashes are
the preimage of that coinbase in pieces of 32 bytes. -/
def mimic : Transaction where
  id := (anyCoinbase sampleEnv 1).id
  inputs := []
  outputs :=
    [nothingOut (zero 32), nothingOut (zero 32), nothingOut (coinbaseOutHash sampleEnv 1),
      nothingOut (zero 32)]

/-- A block without data, whose second transaction is the mimic of its coinbase. -/
def idBlock : Block := extend sampleEnv genesisBlock { buffer := zero 1024, len := 0 } [mimic]

/-- A block with the ID of the coinbase as data, and no second transaction. -/
def dataBlock : Block :=
  extend sampleEnv genesisBlock { buffer := ofList 1024 mimic.id.toList, len := 32 } []

theorem blockPreimage_idBlock :
    blockPreimage sampleEnv idBlock = blockPreimage sampleEnv dataBlock := by
  decide +kernel

theorem hash_idBlock : idBlock.hash = dataBlock.hash := by
  rw [idBlock, dataBlock, hash_extend, hash_extend]
  exact congrArg sampleEnv.sha256 blockPreimage_idBlock

theorem injOn_idBlock :
    Set.InjOn sampleEnv.sha256 {blockPreimage sampleEnv idBlock, blockPreimage sampleEnv dataBlock}
    := by
  rw [blockPreimage_idBlock, Set.pair_eq_singleton]
  exact Set.injOn_singleton _ _

theorem idBlock_isValid :
    blockIsValid sampleEnv (fun _ => zero 32) idBlock (some genesisBlock) [] = .ok 0 := by
  decide +kernel

theorem dataBlock_isValid :
    blockIsValid sampleEnv (fun _ => zero 32) dataBlock (some genesisBlock) [] = .ok 0 := by
  decide +kernel

/-- What the common hash of the two blocks commits them to. -/
theorem idBlock_commits :
    idBlock.info = dataBlock.info ∧
      idBlock.data.bytes ++ hashTransactionIds idBlock.txs =
        dataBlock.data.bytes ++ hashTransactionIds dataBlock.txs ∧
      (idBlock.data.len = dataBlock.data.len ∧ idBlock.data.bytes = dataBlock.data.bytes ∧
        idBlock.ids = dataBlock.ids ↔ idBlock.data.len = dataBlock.data.len) :=
  have hgenesis : blockHash sampleEnv genesisBlock = .ok (some genesisHash) := by decide +kernel
  blockIsValid_commits sampleEnv hgenesis injOn_idBlock idBlock_isValid dataBlock_isValid
    hash_idBlock

/-- A block hash does not commit to the data. -/
theorem not_blockIsValid_commits :
    ¬ ∀ (stack stack' : ℕ → Digest) (b b' prev : Block) (U : List UnspentTxOut),
      Set.InjOn sampleEnv.sha256 {blockPreimage sampleEnv b, blockPreimage sampleEnv b'} →
      blockIsValid sampleEnv stack b (some prev) U = .ok 0 →
      blockIsValid sampleEnv stack' b' (some prev) U = .ok 0 → b.hash = b'.hash →
      b.info = b'.info ∧ b.data.len = b'.data.len ∧ b.data.bytes = b'.data.bytes ∧
        b.ids = b'.ids := by
  intro h
  have hsame := h (fun _ => zero 32) (fun _ => zero 32) idBlock dataBlock genesisBlock []
    injOn_idBlock idBlock_isValid dataBlock_isValid hash_idBlock
  have hlen : (0 : UInt32) = 32 := hsame.2.1
  exact absurd hlen (by decide)

end HolbertonChain
