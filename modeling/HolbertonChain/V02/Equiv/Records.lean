import HolbertonChain.Blockchain.Equiv.OtherOrder
import HolbertonChain.V02.Blockchain

/-!
# What is read of a v0.2 file

The records of the v0.2 format as the README describes them, in one of the two byte orders, and what
`blocks` makes of them.  Of a file in the other byte order the 32-bit numbers of a block are read
right; `SWAPENDIAN32` takes the upper half of a 64-bit number for the number
(`swapEndian32Wide_swap64`), and the number of blocks is not swapped at all.

`exists_blocks_iff` says which bytes make a list: those that hold complete records for the number of
blocks that is read.
-/

namespace HolbertonChain.V02

open Bytes Stdio

variable {κ : Type} (E : Env κ)

/-! ### The format -/

/-- A block. -/
def blockRecord (ord : Endian) (b : Block) : List UInt8 :=
  (Format.info ord b.info).toList ++ ((encode32 ord b.data.len).toList ++
    (b.data.buffer.toList.take b.data.len.toNat ++ b.hash.toList))

/-- A file header with a given byte for `hblk_endian` and given bytes for `hblk_blocks`, and what
stands behind it. -/
def withHeader (version : Bytes 3) (endian : UInt8) (size : Bytes 4) (rest : List UInt8) :
    List UInt8 :=
  hblkMagic.toList ++ (version.toList ++ (endian :: (size.toList ++ rest)))

/-- A file. -/
def file (version : Bytes 3) (ord : Endian) (bs : List Block) : List UInt8 :=
  withHeader version (Format.endian ord) (encode32 ord (UInt32.ofNat bs.length))
    (bs.flatMap (blockRecord ord))

/-- `n` complete records stand in front: the header of a block, the length of its data, as much data
as that, which fits the buffer, and the hash. -/
def Records (ord : Endian) : ℕ → List UInt8 → Prop
  | 0, _ => True
  | n + 1, bytes =>
    ∃ (image : Bytes 56) (len : Bytes 4) (data : List UInt8) (hash : Bytes 32) (rest : List UInt8),
      bytes = image.toList ++ (len.toList ++ (data ++ (hash.toList ++ rest))) ∧
        data.length = (decode32 ord len).toNat ∧ (decode32 ord len).toNat ≤ 1024 ∧
        Records ord n rest

/-! ### The macro -/

theorem swapEndian32_eq (x : UInt32) : swapEndian32 x = swap32 x := by
  apply UInt32.toNat_inj.mp
  have hmask := maskedBytes_eq x.toNat
  have hlt := (swap32 x).toNat_lt
  rw [toNat_swap32] at hlt ⊢
  rw [← hmask] at hlt ⊢
  have hshift8 : (x.toNat &&& 0x0000ff00) <<< 8 < 2 ^ 32 :=
    (Nat.right_le_or.trans Nat.left_le_or).trans_lt hlt
  have hshift24 : (x.toNat &&& 0x000000ff) <<< 24 < 2 ^ 32 := Nat.right_le_or.trans_lt hlt
  unfold swapEndian32
  simp only [UInt32.toNat_or, UInt32.toNat_shiftRight, UInt32.toNat_shiftLeft, UInt32.toNat_and]
  show (x.toNat &&& 0xff000000) >>> 24 ||| (x.toNat &&& 0x00ff0000) >>> 8 |||
    (x.toNat &&& 0x0000ff00) <<< 8 % 2 ^ 32 ||| (x.toNat &&& 0x000000ff) <<< 24 % 2 ^ 32 = _
  rw [Nat.mod_eq_of_lt hshift8, Nat.mod_eq_of_lt hshift24]

/-- The macro on 64 bits swaps the lower four bytes and drops the others. -/
theorem toNat_swapEndian32Wide (x : UInt64) :
    (swapEndian32Wide x).toNat =
      x.toNat / 2 ^ 24 % 256 + 2 ^ 8 * (x.toNat / 2 ^ 16 % 256) +
        2 ^ 16 * (x.toNat / 2 ^ 8 % 256) + 2 ^ 24 * (x.toNat % 256) := by
  have hmask := maskedBytes_eq x.toNat
  rw [← hmask]
  have h8 : x.toNat &&& 0x0000ff00 ≤ 0x0000ff00 := Nat.and_le_right
  have h24 : x.toNat &&& 0x000000ff ≤ 0x000000ff := Nat.and_le_right
  unfold swapEndian32Wide
  simp only [UInt64.toNat_or, UInt64.toNat_shiftRight, UInt64.toNat_shiftLeft, UInt64.toNat_and]
  show (x.toNat &&& 0xff000000) >>> 24 ||| (x.toNat &&& 0x00ff0000) >>> 8 |||
    (x.toNat &&& 0x0000ff00) <<< 8 % 2 ^ 64 ||| (x.toNat &&& 0x000000ff) <<< 24 % 2 ^ 64 = _
  rw [Nat.shiftLeft_eq, Nat.shiftLeft_eq, Nat.mod_eq_of_lt (by omega), Nat.mod_eq_of_lt (by omega)]

theorem toNat_shiftRight_32 (x : UInt64) : (x >>> 32).toNat = x.toNat / 2 ^ 32 := by
  rw [UInt64.toNat_shiftRight, Nat.shiftRight_eq_div_pow]
  rfl

/-- A number of the other byte order is taken for its upper half. -/
theorem swapEndian32Wide_swap64 (x : UInt64) : swapEndian32Wide (swap64 x) = x >>> 32 := by
  apply UInt64.toNat_inj.mp
  have hx := x.toNat_lt
  have hupper : x.toNat / 2 ^ 32 < 2 ^ 32 := by omega
  have hdiv : ∀ k, x.toNat / 2 ^ (32 + k) = x.toNat / 2 ^ 32 / 2 ^ k := by
    intro k
    rw [Nat.div_div_eq_div_mul, ← Nat.pow_add]
  have hmod : ∀ n, n % 256 < 256 := fun n => Nat.mod_lt n (by decide)
  -- the low bytes of the swap are those of the upper half, the highest one first
  have hsum : (swap64 x).toNat =
      x.toNat / 2 ^ 32 / 2 ^ 24 % 256 + 2 ^ 8 * (x.toNat / 2 ^ 32 / 2 ^ 16 % 256) +
        2 ^ 16 * (x.toNat / 2 ^ 32 / 2 ^ 8 % 256) + 2 ^ 24 * (x.toNat / 2 ^ 32 % 256) +
        2 ^ 32 * (x.toNat / 2 ^ 24 % 256 + 2 ^ 8 * (x.toNat / 2 ^ 16 % 256) +
          2 ^ 16 * (x.toNat / 2 ^ 8 % 256) + 2 ^ 24 * (x.toNat % 256)) := by
    rw [toNat_swap64, ← hdiv 24, ← hdiv 16, ← hdiv 8]
    ring
  obtain ⟨h0, h1, h2, h3⟩ := lowBytes (hmod _) (hmod _) (hmod _) (hmod _) _ hsum
  rw [toNat_swapEndian32Wide, toNat_shiftRight_32, h0, h1, h2, h3]
  exact Eq.trans (by ring) (eq_bytes hupper).symm

/-! ### The order that is read -/

/-- The byte order of the numbers that are read, which are swapped where it is not that of the
host. -/
def readOrder (endianness : Bool) : Endian := if endianness then E.host.opposite else E.host

theorem endian_bne (w r : Endian) : (Format.endian w != Format.endian r) = (w != r) := by
  cases w <;> cases r <;> rfl

/-- The order of the writer is the one that is read. -/
theorem readOrder_bne (w : Endian) : readOrder E (w != E.host) = w := by
  unfold readOrder
  cases w <;> cases E.host <;> rfl

/-- What is read of a block header: of a 64-bit number that is swapped, the upper half. -/
def loadedInfo (endianness : Bool) (i : BlockInfo) : BlockInfo :=
  if endianness then { i with timestamp := i.timestamp >>> 32, nonce := i.nonce >>> 32 } else i

/-- What is read of a block. -/
def loadedBlock (endianness : Bool) (b : Block) : Block :=
  { b with
    info := loadedInfo endianness b.info
    data := { b.data with buffer := loadedBuffer b.data } }

theorem swapInfo_swappedInfo (i : BlockInfo) :
    swapInfo (swappedInfo i) =
      { i with timestamp := i.timestamp >>> 32, nonce := i.nonce >>> 32 } := by
  simp only [swapInfo, swappedInfo, swapEndian32_eq, swap32_swap32, swapEndian32Wide_swap64]

theorem readInfo_info (endianness : Bool) (i : BlockInfo) :
    (if endianness then swapInfo (infoOfImage E (Format.info (readOrder E endianness) i))
      else infoOfImage E (Format.info (readOrder E endianness) i)) = loadedInfo endianness i := by
  cases endianness with
  | false => exact infoOfImage_info E i
  | true =>
    show swapInfo (infoOfImage E (Format.info E.host.opposite i)) = _
    rw [info_opposite, infoOfImage_info, swapInfo_swappedInfo]
    rfl

theorem readLen_eq (endianness : Bool) (v : Bytes 4) :
    (if endianness then swapEndian32 (decode32 E.host v) else decode32 E.host v) =
      decode32 (readOrder E endianness) v := by
  cases endianness with
  | false => rfl
  | true =>
    show swapEndian32 (decode32 E.host v) = decode32 E.host.opposite v
    rw [swapEndian32_eq, swap32_decode32]

/-! ### Reading -/

/-- The data of a block is read if it is there and fits the buffer. -/
theorem readData_eq_some_iff {len : UInt32} {bytes rest : List UInt8} {buffer : Bytes 1024} :
    readData len bytes = .ok (some (buffer, rest)) ↔
      ∃ data, bytes = data ++ rest ∧ data.length = len.toNat ∧ len.toNat ≤ 1024 ∧
        buffer = ofList 1024 data := by
  unfold readData
  constructor
  · intro h
    dsimp only at h
    split_ifs at h with hlong hshort
    · cases h
    · obtain ⟨rfl, rfl⟩ := Prod.mk.inj (Option.some.inj (Except.ok.inj h))
      rw [ne_eq, not_not] at hshort
      exact ⟨_, (List.take_append_drop _ _).symm, hshort, by omega, rfl⟩
  · rintro ⟨data, rfl, hlen, hle, rfl⟩
    have htake : (data ++ rest).take len.toNat = data := List.take_left' hlen
    have hdrop : (data ++ rest).drop len.toNat = rest := List.drop_left' hlen
    simp only [htake, hdrop]
    rw [if_neg (by omega), if_neg (not_not_intro hlen)]
    rfl

/-- A round of the loop takes one complete record. -/
theorem readBlock_eq_some_iff {endianness : Bool} {bytes rest : List UInt8} {b : Block} :
    readBlock E endianness bytes = .ok (some (b, rest)) ↔
      ∃ (image : Bytes 56) (len : Bytes 4) (data : List UInt8) (hash : Bytes 32),
        bytes = image.toList ++ (len.toList ++ (data ++ (hash.toList ++ rest))) ∧
          data.length = (decode32 (readOrder E endianness) len).toNat ∧
          (decode32 (readOrder E endianness) len).toNat ≤ 1024 ∧
          b =
            { info :=
                if endianness then swapInfo (infoOfImage E image) else infoOfImage E image
              data :=
                { buffer := ofList 1024 data, len := decode32 (readOrder E endianness) len }
              hash } := by
  unfold readBlock
  constructor
  · intro h
    rcases himage : readExact 56 bytes with _ | ⟨image, bytes₁⟩
    · rw [himage] at h
      cases h
    · rw [himage] at h
      obtain rfl := readExact_eq_some_iff.mp himage
      dsimp only at h
      rcases hlen : readExact 4 bytes₁ with _ | ⟨len, bytes₂⟩
      · rw [hlen] at h
        cases h
      · rw [hlen] at h
        obtain rfl := readExact_eq_some_iff.mp hlen
        dsimp only at h
        rw [readLen_eq] at h
        obtain ⟨_ | ⟨buffer, bytes₃⟩, hdata, hblock⟩ := Except.bind_eq_ok_iff.mp h
        · cases hblock
        · obtain ⟨data, rfl, hdatalen, hle, rfl⟩ := readData_eq_some_iff.mp hdata
          dsimp only at hblock
          rcases hhash : readExact 32 bytes₃ with _ | ⟨hash, bytes₄⟩
          · rw [hhash] at hblock
            cases hblock
          · rw [hhash] at hblock
            obtain rfl := readExact_eq_some_iff.mp hhash
            obtain ⟨rfl, rfl⟩ := Prod.mk.inj (Option.some.inj (Except.ok.inj hblock))
            exact ⟨image, len, data, hash, rfl, hdatalen, hle, rfl⟩
  · rintro ⟨image, len, data, hash, rfl, hdatalen, hle, rfl⟩
    have hdata :
        readData (decode32 (readOrder E endianness) len) (data ++ (hash.toList ++ rest)) =
          .ok (some (ofList 1024 data, hash.toList ++ rest)) :=
      readData_eq_some_iff.mpr ⟨data, rfl, hdatalen, hle, rfl⟩
    simp only [readExact_append, readLen_eq, hdata, Except.ok_bind]
    rfl

/-- A block is read back from its record, the upper halves of the 64-bit numbers if swapped. -/
theorem readBlock_blockRecord (endianness : Bool) {b : Block} (h : b.data.len.toNat ≤ 1024)
    (rest : List UInt8) :
    readBlock E endianness (blockRecord (readOrder E endianness) b ++ rest) =
      .ok (some (loadedBlock endianness b, rest)) := by
  have hlen : (b.data.buffer.toList.take b.data.len.toNat).length = b.data.len.toNat := by simp [h]
  refine (readBlock_eq_some_iff E).mpr
    ⟨Format.info (readOrder E endianness) b.info, encode32 (readOrder E endianness) b.data.len,
      b.data.buffer.toList.take b.data.len.toNat, b.hash, ?_, ?_, ?_, ?_⟩
  · simp only [blockRecord, List.append_assoc]
  · rw [decode32_encode32, hlen]
  · rw [decode32_encode32]
    exact h
  · rw [readInfo_info, decode32_encode32]
    rfl

theorem blocks_flatMap (endianness : Bool) {bs : List Block}
    (h : ∀ b ∈ bs, b.data.len.toNat ≤ 1024) :
    blocks E endianness bs.length (bs.flatMap (blockRecord (readOrder E endianness))) =
      .ok (some (bs.map (loadedBlock endianness))) := by
  induction bs with
  | nil => rfl
  | cons b bs ih =>
    rw [List.forall_mem_cons] at h
    rw [List.flatMap_cons, List.length_cons, blocks, readBlock_blockRecord E endianness h.1]
    simp only [Except.ok_bind, ih h.2]
    rfl

/-- One more round: a block, and then the others. -/
theorem blocks_succ_eq_some_iff {endianness : Bool} {n : ℕ} {bytes : List UInt8}
    {bs : List Block} :
    blocks E endianness (n + 1) bytes = .ok (some bs) ↔
      ∃ b rest bs', readBlock E endianness bytes = .ok (some (b, rest)) ∧
        blocks E endianness n rest = .ok (some bs') ∧ bs = b :: bs' := by
  rw [blocks]
  constructor
  · intro h
    obtain ⟨_ | ⟨b, rest⟩, hfirst, hothers⟩ := Except.bind_eq_ok_iff.mp h
    · cases hothers
    · obtain ⟨_ | bs', hrest, hlist⟩ := Except.bind_eq_ok_iff.mp hothers
      · cases hlist
      · exact ⟨b, rest, bs', hfirst, hrest, (Option.some.inj (Except.ok.inj hlist)).symm⟩
  · rintro ⟨b, rest, bs', hfirst, hrest, rfl⟩
    simp only [hfirst, Except.ok_bind, hrest]
    rfl

/-- As many blocks are read as the header says. -/
theorem length_of_blocks {endianness : Bool} {n : ℕ} {bytes : List UInt8} {bs : List Block}
    (h : blocks E endianness n bytes = .ok (some bs)) : bs.length = n := by
  induction n generalizing bytes bs with
  | zero =>
    obtain rfl := Option.some.inj (Except.ok.inj h)
    rfl
  | succ n ih =>
    obtain ⟨b, rest, bs', -, hrest, rfl⟩ := (blocks_succ_eq_some_iff E).mp h
    rw [List.length_cons, ih hrest]

/-- The bytes that make a list are those that hold complete records. -/
theorem exists_blocks_iff (endianness : Bool) (n : ℕ) (bytes : List UInt8) :
    (∃ bs, blocks E endianness n bytes = .ok (some bs)) ↔
      Records (readOrder E endianness) n bytes := by
  induction n generalizing bytes with
  | zero => exact ⟨fun _ => trivial, fun _ => ⟨[], rfl⟩⟩
  | succ n ih =>
    constructor
    · rintro ⟨bs, h⟩
      obtain ⟨b, rest, bs', hfirst, hrest, -⟩ := (blocks_succ_eq_some_iff E).mp h
      obtain ⟨image, len, data, hash, hbytes, hlen, hle, -⟩ := (readBlock_eq_some_iff E).mp hfirst
      exact ⟨image, len, data, hash, rest, hbytes, hlen, hle, (ih rest).mp ⟨bs', hrest⟩⟩
    · rintro ⟨image, len, data, hash, rest, hbytes, hlen, hle, hrecords⟩
      obtain ⟨bs', hrest⟩ := (ih rest).mpr hrecords
      have hfirst := (readBlock_eq_some_iff E).mpr ⟨image, len, data, hash, hbytes, hlen, hle, rfl⟩
      exact ⟨_, (blocks_succ_eq_some_iff E).mpr ⟨_, rest, bs', hfirst, hrest, rfl⟩⟩

/-! ### Files -/

/-- Behind a right header, the result is a blockchain with whatever `blocks` returns, `NULL` too. -/
theorem blockchainDeserialize_withHeader (version : Bytes 3) (endian : UInt8) (size : Bytes 4)
    (rest : List UInt8) :
    blockchainDeserialize E version (some (withHeader version endian size rest)) = (do
      let chain ← blocks E (endian != getEndianness E) (decode32 E.host size).toNat rest
      pure (some { chain })) := by
  have hendian : readExact 1 (endian :: (size.toList ++ rest)) =
      some (⟨[endian], rfl⟩, size.toList ++ rest) := readExact_append ⟨[endian], rfl⟩ _
  simp only [blockchainDeserialize, withHeader, readExact_append, ne_eq, not_true_eq_false,
    if_false, hendian]
  rfl

/-- Without a complete and right header, the result is `NULL`. -/
theorem blockchainDeserialize_eq_none (version : Bytes 3) {f : List UInt8}
    (h : ∀ (endian : UInt8) (size : Bytes 4) (rest : List UInt8),
      f ≠ withHeader version endian size rest) :
    blockchainDeserialize E version (some f) = .ok none := by
  unfold blockchainDeserialize
  dsimp only
  rcases hmagic : readExact 4 f with _ | ⟨magic, bytes₁⟩
  · rfl
  · obtain rfl := readExact_eq_some_iff.mp hmagic
    dsimp only
    split_ifs with heq
    · rfl
    · obtain rfl := not_not.mp heq
      rcases hversion : readExact 3 bytes₁ with _ | ⟨version', bytes₂⟩
      · rfl
      · obtain rfl := readExact_eq_some_iff.mp hversion
        dsimp only
        split_ifs with heq'
        · rfl
        · obtain rfl := not_not.mp heq'
          rcases hendian : readExact 1 bytes₂ with _ | ⟨endian, bytes₃⟩
          · rfl
          · obtain rfl := readExact_eq_some_iff.mp hendian
            dsimp only
            rcases hsize : readExact 4 bytes₃ with _ | ⟨size, rest⟩
            · rfl
            · obtain rfl := readExact_eq_some_iff.mp hsize
              refine absurd ?_ (h endian.head size rest)
              rw [toList_eq_singleton endian]
              rfl

end HolbertonChain.V02
