import HolbertonChain.Blockchain.Equiv.RoundTrip
import HolbertonChain.Lib.ByteSwap

/-!
# Files of the other byte order

`blockchain_deserialize` does not look at `hblk_endian`.  What it makes of a file in the other byte
order has the bytes of every number swapped, and a count or a length that changes by this moves
where everything behind it is read.  The magic number and the version have no byte order, so such a
file is never refused, and it is read back as what was saved only if no number in it changes by the
swap (`readsOtherOrder_iff`).
-/

namespace HolbertonChain

open Bytes Stdio Format

variable {κ : Type} (E : Env κ)

/-! ### Numbers that have no byte order -/

/-- The amount is the same in both byte orders. -/
def TxOut.OrderFree (o : TxOut) : Prop := swap32 o.amount = o.amount

/-- `nb_inputs`, `nb_outputs` and the amounts are the same in both byte orders. -/
structure Transaction.OrderFree (t : Transaction) : Prop where
  inputs : swap32 (UInt32.ofNat t.inputs.length) = UInt32.ofNat t.inputs.length
  outputs : swap32 (UInt32.ofNat t.outputs.length) = UInt32.ofNat t.outputs.length
  amounts : ∀ o ∈ t.outputs, o.OrderFree

/-- The numbers of a block are the same in both byte orders. -/
structure Block.OrderFree (b : Block) : Prop where
  index : swap32 b.info.index = b.info.index
  difficulty : swap32 b.info.difficulty = b.info.difficulty
  timestamp : swap64 b.info.timestamp = b.info.timestamp
  nonce : swap64 b.info.nonce = b.info.nonce
  len : swap32 b.data.len = b.data.len
  count : swap32 (nbTransactions b.transactions) = nbTransactions b.transactions
  transactions : ∀ t ∈ b.txs, t.OrderFree

/-- Every number that the file of a blockchain holds is the same in both byte orders. -/
structure Blockchain.OrderFree (bc : Blockchain) : Prop where
  blocks : swap32 (UInt32.ofNat bc.chain.length) = UInt32.ofNat bc.chain.length
  unspent : swap32 (UInt32.ofNat bc.unspent.length) = UInt32.ofNat bc.unspent.length
  chain : ∀ b ∈ bc.chain, b.OrderFree
  amounts : ∀ u ∈ bc.unspent, u.out.OrderFree

/-- A file in the other byte order is refused, or read as the blockchain it was written of. -/
def ReadsOtherOrder (junk : ℕ → UInt8) (bc : Blockchain) : Prop :=
  blockchainDeserialize E junk (some (file E.host.opposite bc)) = .ok none ∨
    blockchainDeserialize E junk (some (file E.host.opposite bc)) =
      .ok (some (loadedBlockchain bc))

/-! ### Records in the other order -/

/-- A block header with the bytes of its numbers swapped. -/
def swappedInfo (i : BlockInfo) : BlockInfo :=
  { i with
    index := swap32 i.index, difficulty := swap32 i.difficulty
    timestamp := swap64 i.timestamp, nonce := swap64 i.nonce }

/-- An output with the bytes of its amount swapped. -/
def swappedTxOut (o : TxOut) : TxOut := { o with amount := swap32 o.amount }

theorem info_opposite (e : Endian) (i : BlockInfo) :
    info e.opposite i = info e (swappedInfo i) := by
  apply toList_injective
  simp only [info, encode32_opposite, encode64_opposite]
  rfl

theorem txOut_opposite (e : Endian) (o : TxOut) :
    Format.txOut e.opposite o = Format.txOut e (swappedTxOut o) := by
  apply toList_injective
  simp only [Format.txOut, encode32_opposite]
  rfl

theorem unspentTxOut_opposite (e : Endian) (u : UnspentTxOut) :
    Format.unspentTxOut e.opposite u =
      Format.unspentTxOut e { u with out := swappedTxOut u.out } := by
  apply toList_injective
  simp only [Format.unspentTxOut, encode32_opposite]
  rfl

theorem swappedTxOut_eq_self_iff {o : TxOut} : swappedTxOut o = o ↔ o.OrderFree := by
  unfold swappedTxOut TxOut.OrderFree
  cases o
  simp

theorem swappedInfo_eq_self_iff {i : BlockInfo} :
    swappedInfo i = i ↔
      swap32 i.index = i.index ∧ swap32 i.difficulty = i.difficulty ∧
        swap64 i.timestamp = i.timestamp ∧ swap64 i.nonce = i.nonce := by
  unfold swappedInfo
  cases i
  simp

theorem headerOfImage_opposite (blocks unspent : UInt32) :
    headerOfImage E (header E.host.opposite blocks unspent) =
      { magic := hblkMagic, version := hblkVersion, endian := endian E.host.opposite
        blocks := swap32 blocks, unspent := swap32 unspent } := by
  have hblocks : field (header E.host.opposite blocks unspent) 8 4 =
      encode32 E.host.opposite blocks := by
    simp [header, field, ofList_append]
  have hunspent : field (header E.host.opposite blocks unspent) 12 4 =
      encode32 E.host.opposite unspent := by
    simp [header, field]
  rw [headerOfImage, hblocks, hunspent, decode32_opposite, decode32_opposite]
  congr 1
  · exact ofList_append hblkMagic _
  · exact ofList_append hblkVersion _

/-! ### A file without a byte order -/

theorem transaction_opposite {t : Transaction} (h : t.OrderFree) (e : Endian) :
    Format.transaction e.opposite t = Format.transaction e t := by
  have houts : (t.outputs.flatMap fun o => (Format.txOut e.opposite o).toList) =
      t.outputs.flatMap fun o => (Format.txOut e o).toList := by
    apply List.flatMap_congr
    intro o ho
    rw [txOut_opposite, swappedTxOut_eq_self_iff.mpr (h.amounts o ho)]
  rw [Format.transaction, Format.transaction, encode32_opposite, encode32_opposite, h.inputs,
    h.outputs, houts]

theorem block_opposite {b : Block} (h : b.OrderFree) (e : Endian) :
    Format.block e.opposite b = Format.block e b := by
  have hinfo : swappedInfo b.info = b.info :=
    swappedInfo_eq_self_iff.mpr ⟨h.index, h.difficulty, h.timestamp, h.nonce⟩
  have htxs : b.txs.flatMap (Format.transaction e.opposite) =
      b.txs.flatMap (Format.transaction e) :=
    List.flatMap_congr fun t ht => transaction_opposite (h.transactions t ht) e
  rw [Format.block, Format.block, info_opposite, encode32_opposite, encode32_opposite, hinfo, h.len,
    h.count, htxs]

/-- Where no number has a byte order, a file of the other order is read like one of this order. -/
theorem blockchainDeserialize_of_orderFree {bc : Blockchain} (h : Encodable bc)
    (hfree : bc.OrderFree) (junk : ℕ → UInt8) :
    blockchainDeserialize E junk (some (file E.host.opposite bc)) =
      .ok (some (loadedBlockchain bc)) := by
  have hchain : bc.chain.flatMap (Format.block E.host.opposite) =
      bc.chain.flatMap (Format.block E.host) :=
    List.flatMap_congr fun b hb => block_opposite (hfree.chain b hb) E.host
  have hunspent : (bc.unspent.flatMap fun u => (Format.unspentTxOut E.host.opposite u).toList) =
      bc.unspent.flatMap fun u => (Format.unspentTxOut E.host u).toList := by
    apply List.flatMap_congr
    intro u hu
    rw [unspentTxOut_opposite, swappedTxOut_eq_self_iff.mpr (hfree.amounts u hu)]
  have hblocks : (UInt32.ofNat bc.chain.length).toNat = bc.chain.length :=
    UInt32.toNat_ofNat_of_lt' h.chain_lt
  have hcount : (UInt32.ofNat bc.unspent.length).toNat = bc.unspent.length :=
    UInt32.toNat_ofNat_of_lt' h.unspent_lt
  have hread := reads_freadRecords (unspentOfImage_unspentTxOut E) bc.unspent [] junk
  rw [List.append_nil] at hread
  simp only [blockchainDeserialize, file, hchain, hunspent, fread_append, headerOfImage_opposite,
    hfree.blocks, hfree.unspent, checkHeader, beq_self_eq_true, Bool.and_self, if_true, hblocks,
    hcount, freadBlocks_append E h.blocks, Except.ok_bind, hread, Except.pure_eq_ok]
  rfl

/-! ### What is read right has no byte order -/

/-- A count that is right in the other order is the same in both. -/
theorem swap32_eq_of_loopCount {n : ℕ} (hn : n < 2 ^ 31)
    (h : loopCount (swap32 (UInt32.ofNat n)) = n) :
    swap32 (UInt32.ofNat n) = UInt32.ofNat n := by
  have hsize : (UInt32.ofNat n).toNat = n := UInt32.toNat_ofNat_of_lt' (hn.trans (by decide))
  unfold loopCount at h
  split_ifs at h with hlt
  · apply UInt32.toNat_inj.mp
    rw [h, hsize]
  · -- no loop runs, and zero is the same in both orders
    rw [← h]
    rfl

/-- A transaction that is read right is read to its end. -/
theorem orderFree_of_freadTransaction {t : Transaction} (ht : EncodableTransaction t)
    {rest : List UInt8} {junk : ℕ → UInt8}
    (h : (freadTransaction E ⟨Format.transaction E.host.opposite t ++ rest, junk⟩).1 = t) :
    t.OrderFree ∧
      (freadTransaction E ⟨Format.transaction E.host.opposite t ++ rest, junk⟩).2 =
        ⟨rest, junk⟩ := by
  have hin := reads_freadRecords txInOfImage_txIn t.inputs
  have hout := reads_freadRecords_map (txOutOfImage E) (Format.txOut E.host.opposite) t.outputs
  simp only [freadTransaction, Format.transaction, List.append_assoc, fread_append,
    decode32_opposite] at h ⊢
  -- as many inputs are read as there are, and as many outputs
  have hinputs : swap32 (UInt32.ofNat t.inputs.length) = UInt32.ofNat t.inputs.length := by
    apply swap32_eq_of_loopCount ht.inputs_lt
    exact (length_freadRecords _ _ _ _).symm.trans (congrArg (fun t => t.inputs.length) h)
  rw [hinputs, loopCount_ofNat ht.inputs_lt, hin _ junk] at h ⊢
  have houtputs : swap32 (UInt32.ofNat t.outputs.length) = UInt32.ofNat t.outputs.length := by
    apply swap32_eq_of_loopCount ht.outputs_lt
    exact (length_freadRecords _ _ _ _).symm.trans (congrArg (fun t => t.outputs.length) h)
  rw [houtputs, loopCount_ofNat ht.outputs_lt, hout rest junk] at h ⊢
  refine ⟨⟨hinputs, houtputs, fun o ho => ?_⟩, rfl⟩
  have hmap : (t.outputs.map fun o => txOutOfImage E (Format.txOut E.host.opposite o)) =
      t.outputs := congrArg Transaction.outputs h
  have heach := List.map_inj_left.mp (hmap.trans (List.map_id _).symm) o ho
  rw [txOut_opposite, txOutOfImage_txOut] at heach
  exact swappedTxOut_eq_self_iff.mp heach

theorem length_freadTransactionList (n : ℕ) (fr : File) :
    (freadTransactionList E n fr).1.length = n := by
  induction n generalizing fr with
  | zero => rfl
  | succ n ih => exact congrArg (· + 1) (ih _)

theorem orderFree_of_freadTransactionList {ts : List Transaction}
    (hts : ∀ t ∈ ts, EncodableTransaction t) {rest : List UInt8} {junk : ℕ → UInt8}
    (h : (freadTransactionList E ts.length
      ⟨ts.flatMap (Format.transaction E.host.opposite) ++ rest, junk⟩).1 = ts) :
    (∀ t ∈ ts, t.OrderFree) ∧
      (freadTransactionList E ts.length
        ⟨ts.flatMap (Format.transaction E.host.opposite) ++ rest, junk⟩).2 = ⟨rest, junk⟩ := by
  induction ts with
  | nil => exact ⟨nofun, rfl⟩
  | cons t ts ih =>
    rw [List.forall_mem_cons] at hts
    rw [List.flatMap_cons, List.append_assoc, List.length_cons, freadTransactionList] at h ⊢
    obtain ⟨hfirst, hrest⟩ := List.cons.inj h
    -- the first one is read to its end, so the others are read from where they stand
    obtain ⟨hfree, hend⟩ := orderFree_of_freadTransaction E hts.1 hfirst
    simp only [hend] at hrest ⊢
    obtain ⟨hall, hend'⟩ := ih hts.2 hrest
    exact ⟨List.forall_mem_cons.mpr ⟨hfree, hall⟩, hend'⟩

theorem orderFree_of_freadTransactions {b : Block} (hb : EncodableBlock b) {rest : List UInt8}
    {junk : ℕ → UInt8}
    (h : (freadTransactions E ⟨(encode32 E.host.opposite (nbTransactions b.transactions)).toList ++
      (b.txs.flatMap (Format.transaction E.host.opposite) ++ rest), junk⟩).1 = b.transactions) :
    swap32 (nbTransactions b.transactions) = nbTransactions b.transactions ∧
      (∀ t ∈ b.txs, t.OrderFree) ∧
      (freadTransactions E
        ⟨(encode32 E.host.opposite (nbTransactions b.transactions)).toList ++
          (b.txs.flatMap (Format.transaction E.host.opposite) ++ rest), junk⟩).2 =
            ⟨rest, junk⟩ := by
  rw [freadTransactions] at h ⊢
  simp only [fread_append, decode32_opposite] at h ⊢
  cases hts : b.transactions with
  | none =>
    have htxs : b.txs = [] := by rw [Block.txs, hts]; rfl
    rw [htxs]
    exact ⟨rfl, fun t ht => absurd ht List.not_mem_nil, rfl⟩
  | some ts =>
    have htxs : b.txs = ts := by rw [Block.txs, hts, Option.getD_some]
    have hlt : ts.length < 2 ^ 31 := htxs ▸ hb.transactions_lt
    have hall : ∀ t ∈ ts, EncodableTransaction t := htxs ▸ hb.transactions
    rw [hts, htxs] at h
    rw [htxs]
    rw [show nbTransactions (some ts) = UInt32.ofNat ts.length from rfl] at h ⊢
    by_cases hnull : swap32 (UInt32.ofNat ts.length) = -1
    · -- no list is read
      rw [if_pos hnull] at h
      cases h
    · rw [if_neg hnull] at h ⊢
      have hlist := Option.some.inj h
      have hcount : swap32 (UInt32.ofNat ts.length) = UInt32.ofNat ts.length := by
        apply swap32_eq_of_loopCount hlt
        exact (length_freadTransactionList E _ _).symm.trans (congrArg List.length hlist)
      rw [hcount, loopCount_ofNat hlt] at hlist ⊢
      exact ⟨rfl, orderFree_of_freadTransactionList E hall hlist⟩

/-- A block that is read right is read to its end. -/
theorem orderFree_of_freadBlock {b : Block} (hb : EncodableBlock b) {rest : List UInt8}
    {junk : ℕ → UInt8} {fr : File}
    (h : freadBlock E ⟨Format.block E.host.opposite b ++ rest, junk⟩ = .ok (loadedBlock b, fr)) :
    b.OrderFree ∧ fr = ⟨rest, junk⟩ := by
  simp only [freadBlock, Format.block, List.append_assoc, fread_append, decode32_opposite,
    info_opposite, infoOfImage_info] at h
  obtain ⟨⟨buffer, fr'⟩, hdata, h⟩ := Except.bind_eq_ok_iff.mp h
  obtain ⟨hblock, hfr⟩ := Prod.mk.inj (Except.ok.inj h)
  obtain ⟨hindex, hdifficulty, htimestamp, hnonce⟩ :=
    swappedInfo_eq_self_iff.mp (congrArg Block.info hblock)
  have hlen : swap32 b.data.len = b.data.len := congrArg (fun b => b.data.len) hblock
  -- the length is right, so the data is read to its end
  rw [hlen, freadData_append hb.len_le] at hdata
  obtain ⟨rfl, rfl⟩ := Prod.mk.inj (Except.ok.inj hdata)
  simp only [fread_append] at hblock hfr
  obtain ⟨hcount, hts, hend⟩ :=
    orderFree_of_freadTransactions E hb (congrArg Block.transactions hblock)
  constructor
  · exact
      { index := hindex
        difficulty := hdifficulty
        timestamp := htimestamp
        nonce := hnonce
        len := hlen
        count := hcount
        transactions := hts }
  · rw [← hfr, hend]

theorem length_of_freadBlocks {n : ℕ} {fr fr' : File} {bs : List Block}
    (h : freadBlocks E n fr = .ok (bs, fr')) : bs.length = n := by
  induction n generalizing fr fr' bs with
  | zero =>
    obtain ⟨rfl, -⟩ := Prod.mk.inj (Except.ok.inj h)
    rfl
  | succ n ih =>
    rw [freadBlocks] at h
    obtain ⟨⟨b, fr₁⟩, -, h⟩ := Except.bind_eq_ok_iff.mp h
    obtain ⟨⟨rest, fr₂⟩, hrest, h⟩ := Except.bind_eq_ok_iff.mp h
    obtain ⟨rfl, -⟩ := Prod.mk.inj (Except.ok.inj h)
    rw [List.length_cons, ih hrest]

theorem orderFree_of_freadBlocks {bs : List Block} (hbs : ∀ b ∈ bs, EncodableBlock b)
    {rest : List UInt8} {junk : ℕ → UInt8} {fr : File}
    (h : freadBlocks E bs.length ⟨bs.flatMap (Format.block E.host.opposite) ++ rest, junk⟩ =
      .ok (bs.map loadedBlock, fr)) :
    (∀ b ∈ bs, b.OrderFree) ∧ fr = ⟨rest, junk⟩ := by
  induction bs generalizing fr with
  | nil => exact ⟨nofun, (Prod.mk.inj (Except.ok.inj h)).2.symm⟩
  | cons b bs ih =>
    rw [List.forall_mem_cons] at hbs
    rw [List.flatMap_cons, List.append_assoc, List.length_cons, freadBlocks] at h
    obtain ⟨⟨b', fr₁⟩, hfirst, h⟩ := Except.bind_eq_ok_iff.mp h
    obtain ⟨⟨bs', fr₂⟩, hrest, h⟩ := Except.bind_eq_ok_iff.mp h
    obtain ⟨hcons, rfl⟩ := Prod.mk.inj (Except.ok.inj h)
    obtain ⟨rfl, rfl⟩ := List.cons.inj hcons
    obtain ⟨hfree, rfl⟩ := orderFree_of_freadBlock E hbs.1 hfirst
    obtain ⟨hall, hend⟩ := ih hbs.2 hrest
    exact ⟨List.forall_mem_cons.mpr ⟨hfree, hall⟩, hend⟩

/-! ### Files -/

/-- A file in the other order is not refused: what is read of it has a chain of as many blocks as
the swapped count says. -/
theorem exists_freadBlocks_of_blockchainDeserialize {bc : Blockchain} {junk : ℕ → UInt8}
    {result : Option Blockchain}
    (h : blockchainDeserialize E junk (some (file E.host.opposite bc)) = .ok result) :
    ∃ chain fr, freadBlocks E (swap32 (UInt32.ofNat bc.chain.length)).toNat
        ⟨bc.chain.flatMap (Format.block E.host.opposite) ++
          bc.unspent.flatMap fun u => (Format.unspentTxOut E.host.opposite u).toList, junk⟩ =
            .ok (chain, fr) ∧
      result = some
        { chain
          unspent := (freadRecords 165 (unspentOfImage E)
            (swap32 (UInt32.ofNat bc.unspent.length)).toNat fr).1 } := by
  simp only [blockchainDeserialize, file, fread_append, headerOfImage_opposite, checkHeader,
    beq_self_eq_true, Bool.and_self, if_true] at h
  obtain ⟨⟨chain, fr⟩, hblocks, h⟩ := Except.bind_eq_ok_iff.mp h
  exact ⟨chain, fr, hblocks, (Except.ok.inj h).symm⟩

/-- A count that is right is the same in both orders. -/
theorem swap32_ofNat_eq {n : ℕ} (hn : n < 2 ^ 32) (h : (swap32 (UInt32.ofNat n)).toNat = n) :
    swap32 (UInt32.ofNat n) = UInt32.ofNat n := by
  apply UInt32.toNat_inj.mp
  rw [h, UInt32.toNat_ofNat_of_lt' hn]

/-- What is read right of a file in the other order has no byte order. -/
theorem orderFree_of_blockchainDeserialize {bc : Blockchain} (hbc : Encodable bc)
    {junk : ℕ → UInt8}
    (h : blockchainDeserialize E junk (some (file E.host.opposite bc)) =
      .ok (some (loadedBlockchain bc))) : bc.OrderFree := by
  obtain ⟨chain, fr, hblocks, hresult⟩ := exists_freadBlocks_of_blockchainDeserialize E h
  have hbc' := Option.some.inj hresult
  obtain rfl : bc.chain.map loadedBlock = chain := congrArg Blockchain.chain hbc'
  have hlen := length_of_freadBlocks E hblocks
  rw [List.length_map] at hlen
  have hcount := swap32_ofNat_eq hbc.chain_lt hlen.symm
  rw [← hlen] at hblocks
  obtain ⟨hall, rfl⟩ := orderFree_of_freadBlocks E hbc.blocks hblocks
  -- the unspent outputs are read from where they stand
  have hunspent := congrArg Blockchain.unspent hbc'
  dsimp only [loadedBlockchain] at hunspent
  have hulen := (congrArg List.length hunspent).trans (length_freadRecords _ _ _ _)
  have hread := reads_freadRecords_map (unspentOfImage E) (Format.unspentTxOut E.host.opposite)
    bc.unspent [] junk
  rw [List.append_nil] at hread
  rw [← hulen, hread] at hunspent
  refine ⟨hcount, swap32_ofNat_eq hbc.unspent_lt hulen.symm, hall, fun u hu => ?_⟩
  have heach := List.map_inj_left.mp (hunspent.symm.trans (List.map_id _).symm) u hu
  rw [unspentTxOut_opposite, unspentOfImage_unspentTxOut] at heach
  exact swappedTxOut_eq_self_iff.mp (congrArg UnspentTxOut.out heach)

/-- A file in the other byte order is refused, or read as the blockchain it was written of, if and
only if no number in it has a byte order. -/
theorem readsOtherOrder_iff {bc : Blockchain} (h : Encodable bc) (junk : ℕ → UInt8) :
    ReadsOtherOrder E junk bc ↔ bc.OrderFree := by
  constructor
  · rintro (hnull | hsame)
    · obtain ⟨chain, fr, -, hresult⟩ := exists_freadBlocks_of_blockchainDeserialize E hnull
      cases hresult
    · exact orderFree_of_blockchainDeserialize E h hsame
  · intro hfree
    exact Or.inr (blockchainDeserialize_of_orderFree E h hfree junk)

/-! ### The genesis block alone -/

theorem encodable_blockchainCreate : Encodable blockchainCreate where
  chain_lt := by decide
  unspent_lt := by decide
  blocks := by
    intro b hb
    obtain rfl := List.mem_singleton.mp hb
    exact { len_le := by decide, transactions_lt := by decide, transactions := nofun }

/-- Without a block there is no number to be read wrong; the number of blocks is one. -/
theorem readsOtherOrder_blockchainCreate :
    ReadsOtherOrder sampleEnv (fun _ => 0) { chain := [], unspent := [] } ∧
      (ReadsOtherOrder sampleEnv (fun _ => 0) blockchainCreate ↔ blockchainCreate.OrderFree) := by
  refine ⟨?_, readsOtherOrder_iff sampleEnv encodable_blockchainCreate (fun _ => 0)⟩
  have hempty : Encodable { chain := [], unspent := [] } :=
    { chain_lt := by decide, unspent_lt := by decide, blocks := by simp }
  exact (readsOtherOrder_iff sampleEnv hempty (fun _ => 0)).mpr
    { blocks := by decide, unspent := by decide, chain := by simp, amounts := by simp }

/-- The blockchain of the genesis block alone is not read back. -/
theorem not_readsOtherOrder :
    ¬ ∀ (bc : Blockchain) (junk : ℕ → UInt8), Encodable bc →
      (∀ b ∈ bc.chain, b.info.index = 0 → b.transactions = none) →
      ReadsOtherOrder sampleEnv junk bc := by
  intro h
  have hgenesis : ∀ b ∈ blockchainCreate.chain, b.info.index = 0 → b.transactions = none := by
    decide
  rcases h blockchainCreate (fun _ => 0) encodable_blockchainCreate hgenesis with hnull | hsame
  · obtain ⟨chain, fr, -, hresult⟩ := exists_freadBlocks_of_blockchainDeserialize sampleEnv hnull
    cases hresult
  · -- one block is announced as 2 ^ 24
    have hfree := orderFree_of_blockchainDeserialize sampleEnv encodable_blockchainCreate hsame
    exact absurd hfree.blocks (by decide)

end HolbertonChain
