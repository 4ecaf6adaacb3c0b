import HolbertonChain.Sample
import HolbertonChain.V02.Equiv.Records

/-!
# Saving on one host and loading on another

What a host of byte order `w` writes is the v0.2 format in that order
(`blockchainSerialize_eq_file`).  On a host of the same order it is read back.  On a host of the
other one the number of blocks is not swapped, and of a timestamp and a nonce the upper half is
read, so a blockchain comes back only if its number of blocks is the same in both orders and its
timestamps and nonces are zero (`roundTrips_iff`).  The two orders play the same role: whether a
file is read right depends on whether they differ, not on which one wrote it.
-/

namespace HolbertonChain.V02

open Bytes Stdio

variable {κ : Type} (E : Env κ)

/-- What a host of byte order `w` saves, a host of byte order `r` loads as the same blockchain. -/
def RoundTrips (version : Bytes 3) (w r : Endian) (bc : Blockchain) : Prop :=
  ∃ f, blockchainSerialize { E with host := w } version bc = .ok f ∧
    blockchainDeserialize { E with host := r } version (some f) = .ok (some bc)

/-- The blocks of a blockchain; a `NULL` list has none. -/
def Blockchain.blocks (bc : Blockchain) : List Block := bc.chain.getD []

/-- The 64-bit numbers of a block header are zero, so that `SWAPENDIAN32` loses nothing of them. -/
structure SwapSafe (i : BlockInfo) : Prop where
  timestamp : i.timestamp = 0
  nonce : i.nonce = 0

/-! ### Writing -/

theorem writeBlock_eq {b : Block} (h : b.data.len.toNat ≤ 1024) :
    writeBlock E b = .ok (blockRecord E.host b) := by
  rw [writeBlock, if_neg (by omega), Except.pure_eq_ok, infoBytes_eq]
  simp only [blockRecord, List.append_assoc]

theorem writeBlocks_eq {bs : List Block} (h : ∀ b ∈ bs, b.data.len.toNat ≤ 1024) :
    writeBlocks E bs = .ok (bs.flatMap (blockRecord E.host)) := by
  induction bs with
  | nil => rfl
  | cons b bs ih =>
    rw [List.forall_mem_cons] at h
    rw [writeBlocks, writeBlock_eq E h.1, Except.ok_bind, ih h.2, Except.ok_bind,
      List.flatMap_cons]
    rfl

/-- What is written is the v0.2 format, as far as an `int` counts the blocks. -/
theorem blockchainSerialize_eq (version : Bytes 3) {bc : Blockchain}
    (h : ∀ b ∈ bc.blocks, b.data.len.toNat ≤ 1024) :
    blockchainSerialize E version bc =
      .ok (withHeader version (Format.endian E.host) (encode32 E.host (llistSize bc.chain))
        ((bc.blocks.take (loopCount (llistSize bc.chain))).flatMap (blockRecord E.host))) := by
  have htake : ∀ b ∈ bc.blocks.take (loopCount (llistSize bc.chain)),
      b.data.len.toNat ≤ 1024 := fun b hb => h b (List.mem_of_mem_take hb)
  have hblocks := writeBlocks_eq E htake
  rw [Blockchain.blocks] at hblocks
  rw [blockchainSerialize, hblocks, Except.ok_bind, Except.pure_eq_ok, getEndianness_eq]
  simp only [withHeader, Blockchain.blocks, List.append_assoc, List.cons_append, List.nil_append]

/-- An `int` counts all the blocks. -/
theorem take_loopCount {bs : List Block} (hlt : bs.length < 2 ^ 31) :
    bs.take (loopCount (UInt32.ofNat bs.length)) = bs := by
  rw [loopCount_ofNat hlt, List.take_length]

/-- A list that an `int` counts is written as a file of the format. -/
theorem blockchainSerialize_eq_file (version : Bytes 3) {bs : List Block}
    (hlt : bs.length < 2 ^ 31) (h : ∀ b ∈ bs, b.data.len.toNat ≤ 1024) :
    blockchainSerialize E version { chain := some bs } = .ok (file version E.host bs) := by
  have hblocks : ∀ b ∈ Blockchain.blocks { chain := some bs }, b.data.len.toNat ≤ 1024 := h
  rw [blockchainSerialize_eq E version hblocks]
  show Except.ok (withHeader version (Format.endian E.host)
    (encode32 E.host (UInt32.ofNat bs.length))
    ((bs.take (loopCount (UInt32.ofNat bs.length))).flatMap (blockRecord E.host))) = _
  rw [take_loopCount hlt]
  rfl

/-! ### The order of the writer -/

/-- The number of blocks is read in the order of the host. -/
theorem decode32_encode32_eq (w r : Endian) (x : UInt32) :
    decode32 r (encode32 w x) = if w = r then x else swap32 x := by
  split_ifs with h
  · rw [h, decode32_encode32]
  · rw [Endian.eq_opposite_of_ne h, decode32_opposite]

/-- The blocks of a file are read in the order of its writer, but as many of them as the number of
blocks says in the order of the reader. -/
theorem roundTrips_iff_blocks (version : Bytes 3) (w r : Endian) {bc : Blockchain}
    (h : ∀ b ∈ bc.blocks, b.data.len.toNat ≤ 1024) :
    RoundTrips E version w r bc ↔
      blocks { E with host := r } (w != r)
          (if w = r then llistSize bc.chain else swap32 (llistSize bc.chain)).toNat
          ((bc.blocks.take (loopCount (llistSize bc.chain))).flatMap (blockRecord w)) =
        .ok bc.chain := by
  have hwrite := blockchainSerialize_eq { E with host := w } version h
  have hread := blockchainDeserialize_withHeader { E with host := r } version (Format.endian w)
    (encode32 w (llistSize bc.chain))
    ((bc.blocks.take (loopCount (llistSize bc.chain))).flatMap (blockRecord w))
  rw [getEndianness_eq, endian_bne, decode32_encode32_eq] at hread
  constructor
  · rintro ⟨f, hf, hbc⟩
    obtain rfl := Except.ok.inj (hwrite.symm.trans hf)
    obtain ⟨chain, hblocks, hchain⟩ := Except.bind_eq_ok_iff.mp (hread.symm.trans hbc)
    obtain rfl := congrArg Blockchain.chain (Option.some.inj (Except.ok.inj hchain))
    exact hblocks
  · intro hblocks
    refine ⟨_, hwrite, hread.trans ?_⟩
    rw [hblocks]
    rfl

/-! ### What comes back -/

/-- No block is read of nothing. -/
theorem blocks_nil (endianness : Bool) {n : ℕ} (h : n ≠ 0) :
    blocks E endianness n [] = .ok none := by
  obtain ⟨m, rfl⟩ := Nat.exists_eq_succ_of_ne_zero h
  rfl

theorem shiftRight_eq_self_iff (x : UInt64) : x >>> 32 = x ↔ x = 0 := by
  constructor
  · intro h
    have hupper := toNat_shiftRight_32 x
    rw [h] at hupper
    apply UInt64.toNat_inj.mp
    show x.toNat = 0
    omega
  · rintro rfl
    rfl

theorem loadedInfo_true_eq_self_iff (i : BlockInfo) : loadedInfo true i = i ↔ SwapSafe i := by
  constructor
  · intro h
    exact
      { timestamp := (shiftRight_eq_self_iff _).mp (congrArg BlockInfo.timestamp h)
        nonce := (shiftRight_eq_self_iff _).mp (congrArg BlockInfo.nonce h) }
  · intro h
    show { i with timestamp := i.timestamp >>> 32, nonce := i.nonce >>> 32 } = i
    rw [(shiftRight_eq_self_iff _).mpr h.timestamp, (shiftRight_eq_self_iff _).mpr h.nonce]

/-- A block whose buffer is zero behind its data comes back if the header does. -/
theorem loadedBlock_eq_self_iff {b : Block} (hlen : b.data.len.toNat ≤ 1024)
    (hzero : ∀ x ∈ b.data.buffer.toList.drop b.data.len.toNat, x = 0) (endianness : Bool) :
    loadedBlock endianness b = b ↔ (endianness = true → SwapSafe b.info) := by
  have hblock : loadedBlock endianness b = { b with info := loadedInfo endianness b.info } := by
    rw [loadedBlock, loadedBuffer_eq hlen hzero]
  have hinfo : loadedBlock endianness b = b ↔ loadedInfo endianness b.info = b.info := by
    rw [hblock]
    constructor
    · exact congrArg Block.info
    · intro h
      rw [h]
  rw [hinfo]
  cases endianness with
  | false => exact ⟨fun _ => nofun, fun _ => rfl⟩
  | true => exact (loadedInfo_true_eq_self_iff _).trans ⟨fun h _ => h, fun h => h rfl⟩

/-- A list that an `int` counts is read back if its length is read right and each block comes
back. -/
theorem blocks_eq_self_iff {w r : Endian} {bs : List Block} (hlt : bs.length < 2 ^ 31)
    (hlen : ∀ b ∈ bs, b.data.len.toNat ≤ 1024)
    (hzero : ∀ b ∈ bs, ∀ x ∈ b.data.buffer.toList.drop b.data.len.toNat, x = 0) :
    blocks { E with host := r } (w != r)
          (if w = r then UInt32.ofNat bs.length else swap32 (UInt32.ofNat bs.length)).toNat
          (bs.flatMap (blockRecord w)) =
        .ok (some bs) ↔
      w = r ∨ (swap32 (UInt32.ofNat bs.length) = UInt32.ofNat bs.length ∧
        ∀ b ∈ bs, SwapSafe b.info) := by
  have hsize : (UInt32.ofNat bs.length).toNat = bs.length :=
    UInt32.toNat_ofNat_of_lt' (hlt.trans (by decide))
  have hread := blocks_flatMap { E with host := r } (w != r) hlen
  rw [readOrder_bne { E with host := r } w] at hread
  have hself : bs.map (loadedBlock (w != r)) = bs ↔
      ∀ b ∈ bs, (w != r) = true → SwapSafe b.info := by
    rw [show bs.map (loadedBlock (w != r)) = bs ↔
      bs.map (loadedBlock (w != r)) = bs.map id by rw [List.map_id], List.map_inj_left]
    exact forall₂_congr fun b hb => loadedBlock_eq_self_iff (hlen b hb) (hzero b hb) _
  by_cases hwr : w = r
  · rw [if_pos hwr, hsize, hread, Except.ok.injEq, Option.some.injEq, hself]
    exact ⟨fun _ => Or.inl hwr, fun _ b _ hne => absurd hwr (by simpa using hne)⟩
  · rw [if_neg hwr]
    constructor
    · intro h
      -- as many blocks are read as the swapped count says
      have hcount := swap32_ofNat_eq (hlt.trans (by decide)) (length_of_blocks _ h).symm
      rw [hcount, hsize, hread] at h
      have hall := hself.mp (Option.some.inj (Except.ok.inj h))
      exact Or.inr ⟨hcount, fun b hb => hall b hb (by simpa using hwr)⟩
    · rintro (h | ⟨hcount, hall⟩)
      · exact absurd h hwr
      · rw [hcount, hsize, hread, hself.mpr fun b hb _ => hall b hb]

/-- A list that is too long for an `int` is announced and not written. -/
theorem length_lt_of_blocks {endianness : Bool} {count : UInt32} {bs : List Block}
    {w : Endian}
    (h : blocks E endianness count.toNat
      ((bs.take (loopCount (UInt32.ofNat bs.length))).flatMap (blockRecord w)) =
        .ok (some bs)) : bs.length < 2 ^ 31 := by
  have hcount := length_of_blocks E h
  have hsize : (UInt32.ofNat bs.length).toNat = bs.length :=
    UInt32.toNat_ofNat_of_lt' (hcount.trans_lt count.toNat_lt)
  by_contra hlong
  have hnone : loopCount (UInt32.ofNat bs.length) = 0 := by
    rw [loopCount, hsize, if_neg hlong]
  rw [hnone, List.take_zero, List.flatMap_nil, blocks_nil E endianness (by omega)] at h
  cases h

/-- A blockchain is saved on one host and loaded on another as the same blocks if and only if an
`int` counts its blocks and either the hosts have the same byte order, or the number of blocks is
the same in both and no block has a timestamp or a nonce. -/
theorem roundTrips_iff (version : Bytes 3) (w r : Endian) {bc : Blockchain}
    (hlen : ∀ b ∈ bc.blocks, b.data.len.toNat ≤ 1024)
    (hzero : ∀ b ∈ bc.blocks, ∀ x ∈ b.data.buffer.toList.drop b.data.len.toNat, x = 0) :
    RoundTrips E version w r bc ↔
      bc.blocks.length < 2 ^ 31 ∧
        (w = r ∨ (swap32 (llistSize bc.chain) = llistSize bc.chain ∧
          ∀ b ∈ bc.blocks, SwapSafe b.info)) := by
  rw [roundTrips_iff_blocks E version w r hlen]
  rcases bc with ⟨_ | bs⟩
  · -- no block is written, and 2 ^ 32 - 1 are announced, in both orders
    have hcount : (if w = r then llistSize none else swap32 (llistSize none)) = -1 := by
      split_ifs <;> rfl
    show blocks _ _ (if w = r then llistSize none else swap32 (llistSize none)).toNat [] = _ ↔ _
    rw [hcount]
    have hnone := blocks_nil { E with host := r } (w != r) (n := (-1 : UInt32).toNat) (by decide)
    exact ⟨fun _ => ⟨by decide, Or.inr ⟨rfl, nofun⟩⟩, fun _ => hnone⟩
  · show blocks _ _
      (if w = r then UInt32.ofNat bs.length else swap32 (UInt32.ofNat bs.length)).toNat
      ((bs.take (loopCount (UInt32.ofNat bs.length))).flatMap (blockRecord w)) = _ ↔ _
    constructor
    · intro h
      have hlt := length_lt_of_blocks { E with host := r } h
      rw [take_loopCount hlt] at h
      exact ⟨hlt, (blocks_eq_self_iff E hlt hlen hzero).mp h⟩
    · rintro ⟨hlt, h⟩
      have hbs : bs.length < 2 ^ 31 := hlt
      rw [take_loopCount hbs]
      exact (blocks_eq_self_iff E hlt hlen hzero).mpr h

/-! ### The genesis block alone -/

/-- A blockchain of the genesis block. -/
def genesisOnly : Blockchain where
  chain := some [{ info := genesisBlock.info, data := genesisBlock.data, hash := genesisHash }]

theorem len_le_genesisOnly : ∀ b ∈ genesisOnly.blocks, b.data.len.toNat ≤ 1024 := by
  decide

theorem zero_tail_genesisOnly :
    ∀ b ∈ genesisOnly.blocks, ∀ x ∈ b.data.buffer.toList.drop b.data.len.toNat, x = 0 := by
  have hzero : ∀ b ∈ genesisOnly.blocks,
      (b.data.buffer.toList.drop b.data.len.toNat).all (· == 0) = true := by
    decide +kernel
  exact fun b hb => eq_zero_of_all (hzero b hb)

/-- The genesis block that a big-endian host saved is loaded on a big-endian host. -/
theorem genesisOnly_roundTrips : RoundTrips sampleEnv hblkVersion .big .big genesisOnly :=
  (roundTrips_iff sampleEnv hblkVersion .big .big len_le_genesisOnly zero_tail_genesisOnly).mpr
    ⟨by decide, Or.inl rfl⟩

/-- The genesis block that a big-endian host saved is not loaded on a little-endian host. -/
theorem not_roundTrips :
    ¬ ∀ (w r : Endian) (bc : Blockchain),
      (∀ b ∈ bc.blocks, b.data.len.toNat ≤ 1024) →
      (∀ b ∈ bc.blocks, ∀ x ∈ b.data.buffer.toList.drop b.data.len.toNat, x = 0) →
      RoundTrips sampleEnv hblkVersion w r bc := by
  intro h
  have hbig := h .big .little genesisOnly len_le_genesisOnly zero_tail_genesisOnly
  rw [roundTrips_iff_blocks sampleEnv hblkVersion .big .little len_le_genesisOnly] at hbig
  -- one block is announced as 2 ^ 24
  have hcount := length_of_blocks { sampleEnv with host := .little } hbig
  exact absurd hcount (by decide)

end HolbertonChain.V02
