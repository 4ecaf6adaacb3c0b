import HolbertonChain.Crypto
import HolbertonChain.Lib.Except

/-!
# Creating and hashing blocks (`block_create.c`, `block_hash.c`)
-/

namespace HolbertonChain

open Bytes

variable {κ : Type} (E : Env κ)

/-- `block_create`, with the current time; `none` as previous block is `NULL`. -/
def blockCreate (time : UInt64) (prev : Option Block) (data : List UInt8) (dataLen : UInt32) :
    Option Block :=
  let maxLen := if 1024 < dataLen then 1024 else dataLen
  prev.map fun prev =>
    { info :=
        { index := prev.info.index + 1, difficulty := 0, timestamp := time, nonce := 0
          prevHash := prev.hash }
      data := { buffer := ofList 1024 (data.take maxLen.toNat), len := maxLen }
      transactions := some []
      hash := zero 32 }

/-- A `block_info_t` as an array of bytes: its fields need no padding. -/
def infoBytes (info : BlockInfo) : List UInt8 :=
  (encode32 E.host info.index).toList ++ (encode32 E.host info.difficulty).toList
    ++ (encode64 E.host info.timestamp).toList ++ (encode64 E.host info.nonce).toList
    ++ info.prevHash.toList

/-- `hash_transaction_ids` -/
def hashTransactionIds (ts : List Transaction) : List UInt8 := ts.flatMap fun t => t.id.toList

/-- The bytes `block_hash` hashes. -/
def blockPreimage (b : Block) : List UInt8 :=
  infoBytes E b.info ++ b.data.buffer.toList.take b.data.len.toNat ++ hashTransactionIds b.txs

/-- The `size_t` `len` of `block_hash`.  The product for the IDs is an `int`, which is converted
when it is added. -/
def wrappedLen (block : Block) : UInt64 :=
  let len0 := 56 + block.data.len.toUInt64
  match block.transactions with
  | none => len0
  | some ts =>
    if 0 < llistSize ts then len0 + UInt64.ofInt (llistSize ts * 32).toInt else len0

/-- `block_hash`; `none` is the `NULL` it returns where there is no buffer, since no object is
larger than `PTRDIFF_MAX`.  The `memcpy` from the start of the block runs `data.len` bytes into
`data.buffer`, so a longer `data.len` reads past the buffer; and where the size of the IDs is no
`int`, the buffer that there is has no room for them. -/
def blockHash (b : Block) : Exec (Option Digest) :=
  let len := (wrappedLen b).toNat
  if 2 ^ 63 ≤ len then pure none
  else if 1024 < b.data.len.toNat then throw .outOfBounds
  else if len < 56 + b.data.len.toNat + b.txs.length * 32 then throw .outOfBounds
  else pure (some (E.sha256 (blockPreimage E b)))

/-! ### First properties -/

@[simp] theorem length_infoBytes (info : BlockInfo) : (infoBytes E info).length = 56 := by
  simp [infoBytes]

theorem infoBytes_injective : Function.Injective (infoBytes E) := by
  intro i j h
  unfold infoBytes at h
  obtain ⟨h, h5⟩ := List.append_inj' h (by simp)
  obtain ⟨h, h4⟩ := List.append_inj' h (by simp)
  obtain ⟨h, h3⟩ := List.append_inj' h (by simp)
  obtain ⟨h1, h2⟩ := List.append_inj' h (by simp)
  cases i
  cases j
  simp only [toList_inj, (encode32_injective _).eq_iff, (encode64_injective _).eq_iff]
    at h1 h2 h3 h4 h5
  simp [h1, h2, h3, h4, h5]

@[simp] theorem length_hashTransactionIds (ts : List Transaction) :
    (hashTransactionIds ts).length = 32 * ts.length := by
  simp [hashTransactionIds, List.length_flatMap, Nat.mul_comm]

/-! ### The length of the buffer -/

/-- The length in front of the transaction IDs. -/
theorem toNat_len0 (b : Block) :
    (56 + b.data.len.toUInt64).toNat = 56 + b.data.len.toNat := by
  have hlt := b.data.len.toNat_lt
  rw [UInt64.toNat_add, UInt32.toNat_toUInt64]
  show (56 + b.data.len.toNat) % 2 ^ 64 = _
  omega

/-- A product with a number of nodes, as an `int`. -/
theorem toInt_mul_llistSize {α : Type} (size : Int32) (list : List α) :
    (size * llistSize list).toInt = (size.toInt * list.length).bmod (2 ^ 32) := by
  rw [llistSize, Int32.toInt_mul, Int32.toInt_ofNat']
  exact Int.mul_bmod_bmod

/-- The length of the buffer is computed modulo `2 ^ 64`, that of the IDs in it modulo `2 ^ 32`, as
a number that may be negative; it is left out where the number of transactions itself is none that
an `int` can show to be positive. -/
theorem toNat_wrappedLen (b : Block) :
    ∃ ids : ℤ, ((wrappedLen b).toNat : ℤ) = (56 + b.data.len.toNat + ids) % 2 ^ 64 ∧
      (ids = (b.txs.length * 32 : ℤ).bmod (2 ^ 32) ∨
        ids = 0 ∧ (b.txs.length : ℤ).bmod (2 ^ 32) ≤ 0) := by
  have hlen0 := toNat_len0 b
  have hlt := b.data.len.toNat_lt
  unfold wrappedLen
  cases hts : b.transactions with
  | none =>
    have htxs : b.txs = [] := by rw [Block.txs, hts, Option.getD_none]
    refine ⟨0, ?_, Or.inr ⟨rfl, ?_⟩⟩
    · simp only [hlen0]
      omega
    · rw [htxs]
      decide
  | some ts =>
    have htxs : b.txs = ts := by rw [Block.txs, hts, Option.getD_some]
    have hsize : (llistSize ts).toInt = (ts.length : ℤ).bmod (2 ^ 32) := Int32.toInt_ofNat'
    have hids : (llistSize ts * 32).toInt = (ts.length * 32 : ℤ).bmod (2 ^ 32) := by
      rw [Int32.mul_comm, toInt_mul_llistSize, mul_comm]
      rfl
    rw [htxs]
    simp only [Int32.lt_iff_toInt_lt, hsize, Int32.toInt_zero]
    split_ifs with hpos
    · refine ⟨_, ?_, Or.inl rfl⟩
      rw [UInt64.toNat_add, hlen0, Int.natCast_emod, Int.natCast_add, toNat_ofInt, hids]
      omega
    · refine ⟨0, ?_, Or.inr ⟨rfl, Int.not_lt.mp hpos⟩⟩
      rw [hlen0]
      omega

/-- A length that is an `int` is computed right. -/
theorem toNat_wrappedLen_of_le {b : Block} (h : b.txs.length * 32 ≤ intMax) :
    (wrappedLen b).toNat = 56 + b.data.len.toNat + b.txs.length * 32 := by
  have hlt := b.data.len.toNat_lt
  unfold intMax at h
  obtain ⟨ids, hlen, hids⟩ := toNat_wrappedLen b
  rw [Int.bmod_eq_of_le (by omega) (by omega), Int.bmod_eq_of_le (by omega) (by omega)] at hids
  omega

/-- A length that is not an `int` is computed too small, or larger than any object. -/
theorem toNat_wrappedLen_of_intMax_lt {b : Block} (h : intMax < b.txs.length * 32) :
    2 ^ 63 ≤ (wrappedLen b).toNat ∨
      (wrappedLen b).toNat < 56 + b.data.len.toNat + b.txs.length * 32 := by
  have hlt := b.data.len.toNat_lt
  obtain ⟨ids, hlen, hids⟩ := toNat_wrappedLen b
  unfold intMax at h
  have hle := Int.bmod_lt (x := (b.txs.length * 32 : ℤ)) (m := 2 ^ 32) (by omega)
  have hge := Int.le_bmod (x := (b.txs.length * 32 : ℤ)) (m := 2 ^ 32) (by omega)
  omega

/-! ### The hash -/

theorem blockHash_eq_ok_some_iff {b : Block} {h : Digest} :
    blockHash E b = .ok (some h) ↔
      b.data.len.toNat ≤ 1024 ∧ b.txs.length * 32 ≤ intMax ∧ E.sha256 (blockPreimage E b) = h := by
  have hbig : intMax < b.txs.length * 32 → _ := toNat_wrappedLen_of_intMax_lt
  have hsmall : b.txs.length * 32 ≤ intMax → _ := toNat_wrappedLen_of_le
  have hlt := b.data.len.toNat_lt
  have hmax : intMax = 2 ^ 31 - 1 := rfl
  unfold blockHash
  dsimp only
  split_ifs with hnone hlen hroom
  · exact iff_of_false nofun fun ⟨_, hsize, _⟩ => by have := hsmall hsize; omega
  · exact iff_of_false nofun fun ⟨hle, _⟩ => by omega
  · exact iff_of_false nofun fun ⟨_, hsize, _⟩ => by have := hsmall hsize; omega
  · constructor
    · intro h
      refine ⟨by omega, ?_, Option.some.inj (Except.ok.inj h)⟩
      by_contra hsize
      have := hbig (Nat.not_le.mp hsize)
      omega
    · rintro ⟨-, -, rfl⟩
      rfl

/-- There is no buffer exactly where the length computed is larger than any object. -/
theorem blockHash_eq_ok_none_iff {b : Block} :
    blockHash E b = .ok none ↔ 2 ^ 63 ≤ (wrappedLen b).toNat := by
  unfold blockHash
  dsimp only
  split_ifs with hnone
  · exact iff_of_true rfl hnone
  · exact iff_of_false nofun hnone
  · exact iff_of_false nofun hnone
  · exact iff_of_false nofun hnone

end HolbertonChain
