import HolbertonChain.Block.Equiv.Extend
import HolbertonChain.Blockchain.Deserialize
import HolbertonChain.Blockchain.Format
import HolbertonChain.Sample

/-!
# Saving and loading

`blockchain_serialize` writes the v0.3 format in the byte order of the host
(`blockchainSerialize_eq_file`), and `blockchain_deserialize` reads a file in that order back,
record by record, whatever stands behind it and whatever memory holds
(`blockchainDeserialize_file`). For a `Savable` blockchain the two make a round trip
(`blockchainDeserialize_blockchainSerialize`).
-/

namespace HolbertonChain

open Bytes Stdio Format

variable {κ : Type} (E : Env κ)

/-! ### Writing -/

theorem take_txInImage (i : TxIn) : (txInImage i).take 169 = (Format.txIn i).toList := by
  have hlen : (txInImage i).length = 169 := by simp [txInImage]
  rw [List.take_of_length_le hlen.le]
  simp [txInImage, Format.txIn]

theorem take_txOutImage (o : TxOut) :
    (txOutImage E o).take 101 = (Format.txOut E.host o).toList := by
  have himage : txOutImage E o = (Format.txOut E.host o).toList ++ List.replicate 3 0 := by
    simp [txOutImage, Format.txOut]
  rw [himage]
  exact List.take_left' (length_toList _)

theorem take_unspentImage (u : UnspentTxOut) :
    (unspentImage E u).take 165 = (Format.unspentTxOut E.host u).toList := by
  have himage :
      unspentImage E u = (Format.unspentTxOut E.host u).toList ++ List.replicate 3 0 := by
    simp [unspentImage, txOutImage, Format.unspentTxOut]
  rw [himage]
  exact List.take_left' (length_toList _)

theorem writeTransaction_eq (t : Transaction) :
    writeTransaction E t = Format.transaction E.host t := by
  simp only [writeTransaction, Format.transaction, take_txInImage, take_txOutImage,
    List.append_assoc]

theorem infoBytes_eq (i : BlockInfo) : infoBytes E i = (Format.info E.host i).toList := by
  simp [infoBytes, Format.info]

/-- The writer marks a block by its index, the format by its list. -/
theorem txSize_eq {b : Block} (h : b.info.index = 0 → b.transactions = none) :
    txSize b = nbTransactions b.transactions := by
  unfold txSize
  split_ifs with h0
  · rw [h h0]
    rfl
  · cases b.transactions <;> rfl

theorem writeBlock_eq {b : Block} (hlen : b.data.len.toNat ≤ 1024)
    (h : b.info.index = 0 → b.transactions = none) :
    writeBlock E b = .ok (Format.block E.host b) := by
  have htxs : writeTransactions E b.transactions = b.txs.flatMap (Format.transaction E.host) := by
    simp only [writeTransactions, Block.txs, funext (writeTransaction_eq E)]
  rw [writeBlock, if_neg (by omega), Except.pure_eq_ok, htxs, txSize_eq h, infoBytes_eq]
  simp only [Format.block, List.append_assoc]

theorem writeBlocks_eq {bs : List Block} (hlen : ∀ b ∈ bs, b.data.len.toNat ≤ 1024)
    (h : ∀ b ∈ bs, b.info.index = 0 → b.transactions = none) :
    writeBlocks E bs = .ok (bs.flatMap (Format.block E.host)) := by
  induction bs with
  | nil => rfl
  | cons b bs ih =>
    rw [List.forall_mem_cons] at hlen h
    rw [writeBlocks, writeBlock_eq E hlen.1 h.1, Except.ok_bind, ih hlen.2 h.2, Except.ok_bind,
      List.flatMap_cons]
    rfl

theorem getEndianness_eq : getEndianness E = endian E.host := by
  cases hhost : E.host <;> simp only [getEndianness, hhost] <;> rfl

theorem headerImage_eq (blocks unspent : UInt32) :
    headerImage E { initBlockHeader E with blocks, unspent } =
      (Format.header E.host blocks unspent).toList := by
  simp [headerImage, initBlockHeader, Format.header, getEndianness_eq, hblkMagic, hblkVersion]

/-- What is written is the v0.3 format. -/
theorem blockchainSerialize_eq_file {bc : Blockchain}
    (hlen : ∀ b ∈ bc.chain, b.data.len.toNat ≤ 1024)
    (h : ∀ b ∈ bc.chain, b.info.index = 0 → b.transactions = none) :
    blockchainSerialize E bc = .ok (file E.host bc) := by
  rw [blockchainSerialize, writeBlocks_eq E hlen h, Except.ok_bind, Except.pure_eq_ok]
  simp only [headerImage_eq, take_unspentImage, file, List.append_assoc]

/-! ### Records of fixed size -/

theorem txInOfImage_txIn (i : TxIn) : txInOfImage (Format.txIn i) = i := by
  simp [txInOfImage, Format.txIn, field, List.drop_append, List.drop_of_length_le, ofList_append]

theorem txOutOfImage_txOut (o : TxOut) : txOutOfImage E (Format.txOut E.host o) = o := by
  simp [txOutOfImage, Format.txOut, field, List.drop_append, List.drop_of_length_le, ofList_append]

theorem unspentOfImage_unspentTxOut (u : UnspentTxOut) :
    unspentOfImage E (Format.unspentTxOut E.host u) = u := by
  -- the record ends with the record of the output
  have hout : field (Format.unspentTxOut E.host u) 64 101 = Format.txOut E.host u.out := by
    apply toList_injective
    simp [Format.unspentTxOut, Format.txOut, field, List.drop_append, List.drop_of_length_le,
      toList_ofList]
  simp only [unspentOfImage, hout, txOutOfImage_txOut]
  simp [Format.unspentTxOut, field, List.drop_append, ofList_append]

theorem infoOfImage_info (i : BlockInfo) : infoOfImage E (Format.info E.host i) = i := by
  simp [infoOfImage, Format.info, field, List.drop_append, List.drop_of_length_le, ofList_append]

theorem headerOfImage_header (blocks unspent : UInt32) :
    headerOfImage E (Format.header E.host blocks unspent) =
      { magic := hblkMagic, version := hblkVersion, endian := endian E.host, blocks, unspent } := by
  have hblocks : field (Format.header E.host blocks unspent) 8 4 = encode32 E.host blocks := by
    simp [Format.header, field, ofList_append]
  have hunspent : field (Format.header E.host blocks unspent) 12 4 = encode32 E.host unspent := by
    simp [Format.header, field]
  rw [headerOfImage, hblocks, hunspent, decode32_encode32, decode32_encode32]
  congr 1
  · exact ofList_append hblkMagic _
  · exact ofList_append hblkVersion _

/-! ### Reading -/

theorem loopCount_ofNat {n : ℕ} (h : n < 2 ^ 31) : loopCount (UInt32.ofNat n) = n := by
  have hsize : n < UInt32.size := h.trans (by decide)
  rw [loopCount, UInt32.toNat_ofNat_of_lt' hsize, if_pos h]

theorem reads_freadTransaction {t : Transaction} (h : EncodableTransaction t) :
    Reads (freadTransaction E) (Format.transaction E.host t) t := by
  intro rest junk
  have hin := reads_freadRecords txInOfImage_txIn t.inputs
  have hout := reads_freadRecords (txOutOfImage_txOut E) t.outputs
  simp only [freadTransaction, Format.transaction, List.append_assoc, fread_append,
    decode32_encode32, loopCount_ofNat h.inputs_lt, loopCount_ofNat h.outputs_lt, hin _ junk,
    hout rest junk]

theorem reads_freadTransactionList {ts : List Transaction}
    (h : ∀ t ∈ ts, EncodableTransaction t) :
    Reads (freadTransactionList E ts.length) (ts.flatMap (Format.transaction E.host)) ts := by
  induction ts with
  | nil =>
    intro rest junk
    rfl
  | cons t ts ih =>
    intro rest junk
    rw [List.forall_mem_cons] at h
    rw [List.flatMap_cons, List.append_assoc, List.length_cons, freadTransactionList]
    simp only [reads_freadTransaction E h.1 _ junk, ih h.2 rest junk]

/-- The mark of a `NULL` list is no length. -/
theorem ofNat_ne_neg_one {n : ℕ} (h : n < 2 ^ 31) : UInt32.ofNat n ≠ -1 := by
  intro heq
  have hsize : n < UInt32.size := h.trans (by decide)
  have hnat := congrArg UInt32.toNat heq
  rw [UInt32.toNat_ofNat_of_lt' hsize, show (-1 : UInt32).toNat = 2 ^ 32 - 1 from rfl] at hnat
  omega

theorem reads_freadTransactions {b : Block} (h : EncodableBlock b) :
    Reads (freadTransactions E)
      ((encode32 E.host (nbTransactions b.transactions)).toList ++
        b.txs.flatMap (Format.transaction E.host))
      b.transactions := by
  intro rest junk
  rw [freadTransactions, List.append_assoc]
  cases hts : b.transactions with
  | none => simp [fread_append, nbTransactions, Block.txs, hts]
  | some ts =>
    -- the count is read as it was written, and is not the mark of `NULL`
    have htxs : b.txs = ts := by rw [Block.txs, hts, Option.getD_some]
    have hlt : ts.length < 2 ^ 31 := htxs ▸ h.transactions_lt
    have hall : ∀ t ∈ ts, EncodableTransaction t := htxs ▸ h.transactions
    have hread := reads_freadTransactionList E hall
    simp only [fread_append, nbTransactions, decode32_encode32, if_neg (ofNat_ne_neg_one hlt),
      loopCount_ofNat hlt, htxs, hread rest junk]

/-! ### Blocks -/

/-- The buffer of a block as the reader leaves it: zeroed, and the data written over it. -/
def loadedBuffer (d : BlockData) : Bytes 1024 := ofList 1024 (d.buffer.toList.take d.len.toNat)

/-- A block as the reader builds it. -/
def loadedBlock (b : Block) : Block :=
  { b with data := { b.data with buffer := loadedBuffer b.data } }

theorem freadData_append {d : BlockData} (h : d.len.toNat ≤ 1024) (rest : List UInt8)
    (junk : ℕ → UInt8) :
    freadData d.len ⟨d.buffer.toList.take d.len.toNat ++ rest, junk⟩ =
      .ok (loadedBuffer d, ⟨rest, junk⟩) := by
  have hlen : (d.buffer.toList.take d.len.toNat).length = d.len.toNat := by simp [h]
  have htake : (d.buffer.toList.take d.len.toNat ++ rest).take d.len.toNat =
      d.buffer.toList.take d.len.toNat := List.take_left' hlen
  have hdrop : (d.buffer.toList.take d.len.toNat ++ rest).drop d.len.toNat = rest :=
    List.drop_left' hlen
  rw [freadData]
  simp only [htake, hdrop, hlen]
  rw [if_neg (by omega)]
  rfl

theorem freadBlock_append {b : Block} (h : EncodableBlock b) (rest : List UInt8)
    (junk : ℕ → UInt8) :
    freadBlock E ⟨Format.block E.host b ++ rest, junk⟩ = .ok (loadedBlock b, ⟨rest, junk⟩) := by
  have htransactions := reads_freadTransactions E h rest junk
  rw [List.append_assoc] at htransactions
  simp only [freadBlock, Format.block, List.append_assoc, fread_append, decode32_encode32,
    freadData_append h.len_le, Except.ok_bind, htransactions, infoOfImage_info, Except.pure_eq_ok]
  rfl

theorem freadBlocks_append {bs : List Block} (h : ∀ b ∈ bs, EncodableBlock b)
    (rest : List UInt8) (junk : ℕ → UInt8) :
    freadBlocks E bs.length ⟨bs.flatMap (Format.block E.host) ++ rest, junk⟩ =
      .ok (bs.map loadedBlock, ⟨rest, junk⟩) := by
  induction bs with
  | nil => rfl
  | cons b bs ih =>
    rw [List.forall_mem_cons] at h
    rw [List.flatMap_cons, List.append_assoc, List.length_cons, freadBlocks]
    simp only [freadBlock_append E h.1, Except.ok_bind, ih h.2, Except.pure_eq_ok, List.map_cons]

/-! ### Files -/

/-- A blockchain as the reader builds it. -/
def loadedBlockchain (bc : Blockchain) : Blockchain := { bc with chain := bc.chain.map loadedBlock }

/-- A file in the byte order of the host is read back to its end, whatever stands behind. -/
theorem blockchainDeserialize_file {bc : Blockchain} (h : Encodable bc) (junk : ℕ → UInt8)
    (rest : List UInt8) :
    blockchainDeserialize E junk (some (file E.host bc ++ rest)) =
      .ok (some (loadedBlockchain bc)) := by
  have hblocks : (UInt32.ofNat bc.chain.length).toNat = bc.chain.length :=
    UInt32.toNat_ofNat_of_lt' h.chain_lt
  have hcount : (UInt32.ofNat bc.unspent.length).toNat = bc.unspent.length :=
    UInt32.toNat_ofNat_of_lt' h.unspent_lt
  have hunspent := reads_freadRecords (unspentOfImage_unspentTxOut E) bc.unspent rest junk
  simp only [blockchainDeserialize, file, List.append_assoc, fread_append, headerOfImage_header,
    checkHeader, beq_self_eq_true, Bool.and_self, if_true, hblocks, hcount,
    freadBlocks_append E h.blocks, Except.ok_bind, hunspent, Except.pure_eq_ok]
  rfl

/-! ### The round trip -/

/-- What can be saved and loaded: the data of each block fits its buffer and is followed by zeros, a
block of index 0 has no list of transactions, and no list is too long for its count. -/
structure Savable (bc : Blockchain) : Prop where
  len_le : ∀ b ∈ bc.chain, b.data.len.toNat ≤ 1024
  zero_tail : ∀ b ∈ bc.chain, ∀ x ∈ b.data.buffer.toList.drop b.data.len.toNat, x = 0
  genesis_null : ∀ b ∈ bc.chain, b.info.index = 0 → b.transactions = none
  chain_lt : bc.chain.length < 2 ^ 31
  unspent_lt : bc.unspent.length < 2 ^ 31
  transactions_lt : ∀ b ∈ bc.chain, b.txs.length < 2 ^ 31
  inputs_lt : ∀ b ∈ bc.chain, ∀ t ∈ b.txs, t.inputs.length < 2 ^ 31
  outputs_lt : ∀ b ∈ bc.chain, ∀ t ∈ b.txs, t.outputs.length < 2 ^ 31

theorem Savable.encodable {bc : Blockchain} (h : Savable bc) : Encodable bc where
  chain_lt := h.chain_lt.trans (by decide)
  unspent_lt := h.unspent_lt.trans (by decide)
  blocks b hb :=
    { len_le := h.len_le b hb
      transactions_lt := h.transactions_lt b hb
      transactions := fun t ht =>
        { inputs_lt := h.inputs_lt b hb t ht
          outputs_lt := h.outputs_lt b hb t ht } }

theorem loadedBuffer_eq {d : BlockData} (hlen : d.len.toNat ≤ 1024)
    (h : ∀ x ∈ d.buffer.toList.drop d.len.toNat, x = 0) : loadedBuffer d = d.buffer := by
  -- what the reader zeroed was zero
  have hzeros : d.buffer.toList.drop d.len.toNat = List.replicate (1024 - d.len.toNat) 0 := by
    rw [List.eq_replicate_iff]
    exact ⟨by simp, h⟩
  apply toList_injective
  calc (loadedBuffer d).toList
      = d.buffer.toList.take d.len.toNat ++ List.replicate (1024 - d.len.toNat) 0 := by
        simp only [loadedBuffer, ofList, toList_mk, List.take_take, List.length_take, length_toList]
        congr 2
        · omega
        · omega
    _ = d.buffer.toList := by rw [← hzeros, List.take_append_drop]

theorem loadedBlockchain_eq {bc : Blockchain} (h : Savable bc) : loadedBlockchain bc = bc := by
  have hchain : bc.chain.map loadedBlock = bc.chain := by
    rw [List.map_congr_left (g := id), List.map_id]
    intro b hb
    rw [loadedBlock, loadedBuffer_eq (h.len_le b hb) (h.zero_tail b hb)]
    rfl
  rw [loadedBlockchain, hchain]

theorem Savable.blockchainSerialize_eq {bc : Blockchain} (h : Savable bc) :
    blockchainSerialize E bc = .ok (file E.host bc) :=
  blockchainSerialize_eq_file E h.len_le h.genesis_null

theorem Savable.blockchainDeserialize_eq {bc : Blockchain} (h : Savable bc) (junk : ℕ → UInt8) :
    blockchainDeserialize E junk (some (file E.host bc)) = .ok (some bc) := by
  have hread := blockchainDeserialize_file E h.encodable junk []
  rwa [List.append_nil, loadedBlockchain_eq h] at hread

/-- What is written of a savable blockchain is the v0.3 format, and reading it gives the blockchain
back. -/
theorem blockchainDeserialize_blockchainSerialize {bc : Blockchain} (h : Savable bc) :
    blockchainSerialize E bc = .ok (file E.host bc) ∧
      ∀ junk, blockchainDeserialize E junk (some (file E.host bc)) = .ok (some bc) :=
  ⟨h.blockchainSerialize_eq E, h.blockchainDeserialize_eq E⟩

/-- A blockchain of two blocks, the second with a transaction behind its coinbase. -/
def sampleBlockchain : Blockchain where
  chain :=
    [genesisBlock,
      extend sampleEnv genesisBlock { buffer := ofList 1024 [1, 2, 3], len := 3 }
        [spendRewards [reward 1] [sampleOut 50 2]]]
  unspent := [reward 2]

theorem sampleBlockchain_roundTrip :
    blockchainSerialize sampleEnv sampleBlockchain = .ok (file .little sampleBlockchain) ∧
      ∀ junk, blockchainDeserialize sampleEnv junk (some (file .little sampleBlockchain)) =
        .ok (some sampleBlockchain) :=
  have hzero : ∀ b ∈ sampleBlockchain.chain,
      (b.data.buffer.toList.drop b.data.len.toNat).all (· == 0) = true := by
    decide +kernel
  have hsavable : Savable sampleBlockchain :=
    { len_le := by decide +kernel
      zero_tail := fun b hb => eq_zero_of_all (hzero b hb)
      genesis_null := by decide +kernel
      chain_lt := by decide +kernel
      unspent_lt := by decide +kernel
      transactions_lt := by decide +kernel
      inputs_lt := by decide +kernel
      outputs_lt := by decide +kernel }
  blockchainDeserialize_blockchainSerialize sampleEnv hsavable

end HolbertonChain
