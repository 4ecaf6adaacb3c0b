import HolbertonChain.Block.Equiv.HashBuffer
import HolbertonChain.Block.Equiv.ProofOfWork
import HolbertonChain.Block.Validity
import HolbertonChain.Sample

/-!
# Where validation runs past the data of a block

`block_is_valid` hashes the previous block without a look at its `data.len`, and the block itself
before it compares its `data.len` with the size of the buffer.  The check comes too late to reject
such a block: a block with too long data is never found valid
(`ne_zero_of_blockIsValidWith_eq_ok`), but the verdict is only reached if no hash in front of it
runs over a buffer (`hasVerdict_iff`).
-/

namespace HolbertonChain

open Bytes Bits

variable {κ : Type} (E : Env κ)

/-- There is no buffer to hash the block in, so that `block_hash` returns `NULL`. -/
def NoBuffer (b : Block) : Prop := 2 ^ 63 ≤ (wrappedLen b).toNat

/-- Hashing the block stays within its buffer, and the size of the IDs is an `int`. -/
def Hashable (b : Block) : Prop := b.data.len.toNat ≤ 1024 ∧ b.txs.length * 32 ≤ intMax

/-- The hash that `block_hash` computes for a hashable block. -/
def digest (b : Block) : Digest := E.sha256 (blockPreimage E b)

/-- The size of the buffer of a transaction is an `int`, or it comes out as zero or negative, so
that there is no buffer. -/
def SizeHarmless (t : Transaction) : Prop :=
  (HashBuffer.wrappedSize t).toInt ≤ 0 ∨ bufferSize t ≤ intMax

section With

variable (txHash : Transaction → Exec (Option Digest)) (fits : Transaction → Prop)
  (stack : ℕ → Digest)

/-- Validation comes to a verdict, which is not 0 for a block whose data is too long. -/
def HasVerdict (block : Block) (prev : Option Block) (U : List UnspentTxOut) : Prop :=
  ∃ code, blockIsValidWith E txHash stack block prev U = .ok code ∧
    (1024 < block.data.len.toNat → code ≠ 0)

/-- Every transaction that the loop comes to, each behind valid ones, is one that `fits`. -/
def RestFits (U : List UnspentTxOut) (i : ℕ) (ts : List Transaction) : Prop :=
  ∀ (k : ℕ) (t : Transaction), ts[k]? = some t →
    (∀ (j : ℕ) (t' : Transaction), j < k → ts[j]? = some t' →
      transactionIsValidWith E txHash (stack (i + j)) t' U = .ok true) →
    fits t

/-- Every transaction that the validation of the transactions comes to is one that `fits`. -/
def TransactionsFit (block : Block) (U : List UnspentTxOut) : Prop :=
  ∀ (coinbase : Transaction) (ts : List Transaction), block.txs = coinbase :: ts →
    fits coinbase ∧
      (coinbaseIsValidWith E txHash coinbase block.info.index = .ok true →
        RestFits E txHash fits stack U 1 ts)

/-- The checks behind the hash of the block come to an end. -/
def RestDefined (block : Block) (U : List UnspentTxOut) : Prop :=
  (block.info.difficulty.toNat ≤ 256 ∨ block.hash ≠ zero 32) ∧
    (LeadingZeros block.hash.toList block.info.difficulty.toNat →
      TransactionsFit E txHash fits stack block U)

/-- A block that follows `p` by its index is hashed only if `p` can be, and validated only if it can
be hashed itself. -/
def Guarded (block p : Block) (U : List UnspentTxOut) : Prop :=
  NoBuffer p ∨
    Hashable p ∧ (digest E p = p.hash → p.hash = block.info.prevHash →
      NoBuffer block ∨
        Hashable block ∧
          (digest E block = block.hash → RestDefined E txHash fits stack block U))

end With

/-! ### The checks in turn -/

/-- A check of `block_is_valid` leads to a verdict if it fails or the checks behind it do. -/
theorem exists_check_iff {c : Prop} [Decidable c] {x : Exec ℕ} :
    (∃ code, (if c then pure 1 else x) = .ok code) ↔ (¬ c → ∃ code, x = .ok code) := by
  by_cases hc : c
  · simp [hc]
  · simp [hc]

theorem exists_bind_iff {α β : Type} {x : Exec α} {f : α → Exec β} :
    (∃ b, x >>= f = .ok b) ↔ ∃ a, x = .ok a ∧ ∃ b, f a = .ok b := by
  simp only [Except.bind_eq_ok_iff]
  constructor
  · rintro ⟨b, a, ha, hb⟩
    exact ⟨a, ha, b, hb⟩
  · rintro ⟨a, ha, b, hb⟩
    exact ⟨b, a, ha, hb⟩

/-- A block is hashed, or turned away where there is no buffer. -/
theorem exists_blockHash_and_iff {b : Block} {P : Option Digest → Prop} (hnone : P none) :
    (∃ hash, blockHash E b = .ok hash ∧ P hash) ↔
      NoBuffer b ∨ Hashable b ∧ P (some (digest E b)) := by
  constructor
  · rintro ⟨hash, hhash, hP⟩
    cases hash with
    | none => exact Or.inl ((blockHash_eq_ok_none_iff E).mp hhash)
    | some hash =>
      obtain ⟨hlen, hsize, rfl⟩ := (blockHash_eq_ok_some_iff E).mp hhash
      exact Or.inr ⟨⟨hlen, hsize⟩, hP⟩
  · rintro (hbuffer | ⟨⟨hlen, hsize⟩, hP⟩)
    · exact ⟨none, (blockHash_eq_ok_none_iff E).mpr hbuffer, hnone⟩
    · exact ⟨_, (blockHash_eq_ok_some_iff E).mpr ⟨hlen, hsize, rfl⟩, hP⟩

/-- There is no buffer for the IDs of `2 ^ 26` transactions up to about twice as many: their size is
a negative `int`, and as large as an object cannot be when it is converted. -/
theorem noBuffer_of_lt {b : Block} (hsize : intMax < b.txs.length * 32)
    (hlt : 56 + b.data.len.toNat + b.txs.length * 32 < 2 ^ 32) : NoBuffer b := by
  obtain ⟨ids, hlen, hids⟩ := toNat_wrappedLen b
  unfold intMax at hsize
  unfold NoBuffer
  have hcount : (b.txs.length : ℤ).bmod (2 ^ 32) = b.txs.length :=
    Int.bmod_eq_of_le (by omega) (by omega)
  have hwrap : (b.txs.length * 32 : ℤ).bmod (2 ^ 32) = b.txs.length * 32 - 2 ^ 32 := by
    rw [← Int.sub_bmod_right]
    exact Int.bmod_eq_of_le (by omega) (by omega)
  omega

/-! ### The transactions -/

theorem exists_transactionHash_iff (t : Transaction) :
    (∃ r, transactionHash E t = .ok r) ↔ bufferSize t ≤ intMax := by
  constructor
  · rintro ⟨r, hr⟩
    exact ((transactionHash_eq_ok_iff E).mp hr).1
  · intro h
    by_cases hzero : bufferSize t = 0
    · exact ⟨none, (transactionHash_eq_ok_iff E).mpr ⟨h, Or.inl ⟨hzero, rfl⟩⟩⟩
    · exact ⟨_, (transactionHash_eq_ok_iff E).mpr ⟨h, Or.inr ⟨hzero, rfl⟩⟩⟩

section With

variable {txHash : Transaction → Exec (Option Digest)} {fits : Transaction → Prop}
  (hfits : ∀ t, (∃ r, txHash t = .ok r) ↔ fits t)
include hfits

theorem exists_transactionIsValidWith_iff (hashBuff : Digest) (t : Transaction)
    (U : List UnspentTxOut) :
    (∃ valid, transactionIsValidWith E txHash hashBuff t U = .ok valid) ↔ fits t := by
  rw [← hfits]
  unfold transactionIsValidWith
  rw [exists_bind_iff]
  refine exists_congr fun r => and_iff_left ?_
  -- behind the hash nothing can go wrong
  split_ifs
  · exact ⟨false, rfl⟩
  · split
    · exact ⟨false, rfl⟩
    · exact ⟨_, rfl⟩

theorem exists_coinbaseIsValidWith_iff (coinbase : Transaction) (blockIndex : UInt32) :
    (∃ valid, coinbaseIsValidWith E txHash coinbase blockIndex = .ok valid) ↔ fits coinbase := by
  rw [← hfits]
  unfold coinbaseIsValidWith
  rw [exists_bind_iff]
  refine exists_congr fun r => and_iff_left ?_
  cases r with
  | none => exact ⟨false, rfl⟩
  | some hash =>
    dsimp only
    split_ifs
    · exact ⟨false, rfl⟩
    · split
      · split_ifs <;> exact ⟨_, rfl⟩
      · exact ⟨false, rfl⟩

/-- The loop over the transactions ends if it can hash each one that it comes to. -/
theorem exists_validateRestWith_iff (stack : ℕ → Digest) (U : List UnspentTxOut) (i : ℕ)
    (ts : List Transaction) :
    (∃ valid, validateRestWith E txHash stack U i ts = .ok valid) ↔
      RestFits E txHash fits stack U i ts := by
  induction ts generalizing i with
  | nil => exact ⟨fun _ k t ht => absurd ht (by simp), fun _ => ⟨true, rfl⟩⟩
  | cons t ts ih =>
    rw [validateRestWith, exists_bind_iff]
    constructor
    · rintro ⟨valid, hvalid, hrest⟩ k t' ht' hbefore
      cases k with
      | zero =>
        obtain rfl := Option.some.inj ht'
        exact (exists_transactionIsValidWith_iff E hfits _ t U).mp ⟨valid, hvalid⟩
      | succ k =>
        -- the first one is valid, so the loop goes on
        obtain rfl := Except.ok.inj (hvalid.symm.trans (hbefore 0 t k.succ_pos rfl))
        refine (ih (i + 1)).mp hrest k t' ht' fun j t'' hj ht'' => ?_
        rw [Nat.add_right_comm]
        exact hbefore (j + 1) t'' (Nat.succ_lt_succ hj) ht''
    · intro hrest
      obtain ⟨valid, hvalid⟩ := (exists_transactionIsValidWith_iff E hfits (stack i) t U).mpr
        (hrest 0 t rfl fun j _ hj => absurd hj j.not_lt_zero)
      refine ⟨valid, hvalid, ?_⟩
      cases valid with
      | false => exact ⟨false, rfl⟩
      | true =>
        refine (ih (i + 1)).mpr fun k t' ht' hbefore => ?_
        refine hrest (k + 1) t' ht' fun j t'' hj ht'' => ?_
        cases j with
        | zero =>
          obtain rfl := Option.some.inj ht''
          exact hvalid
        | succ j =>
          have hvalid' := hbefore j t'' (Nat.lt_of_succ_lt_succ hj) ht''
          rwa [Nat.add_right_comm] at hvalid'

theorem exists_validateTransactionsWith_iff (stack : ℕ → Digest) (block : Block)
    (U : List UnspentTxOut) :
    (∃ valid, validateTransactionsWith E txHash stack block U = .ok valid) ↔
      TransactionsFit E txHash fits stack block U := by
  unfold validateTransactionsWith TransactionsFit
  cases block.txs with
  | nil => exact ⟨fun _ coinbase ts h => absurd h (by simp), fun _ => ⟨false, rfl⟩⟩
  | cons coinbase ts =>
    dsimp only
    rw [exists_bind_iff]
    constructor
    · rintro ⟨valid, hvalid, hrest⟩ coinbase' ts' htxs
      obtain ⟨rfl, rfl⟩ := List.cons.inj htxs
      refine ⟨(exists_coinbaseIsValidWith_iff E hfits _ _).mp ⟨valid, hvalid⟩, fun htrue => ?_⟩
      obtain rfl := Except.ok.inj (hvalid.symm.trans htrue)
      exact (exists_validateRestWith_iff E hfits stack U 1 ts).mp hrest
    · intro h
      obtain ⟨hcoinbase, hrest⟩ := h coinbase ts rfl
      obtain ⟨valid, hvalid⟩ :=
        (exists_coinbaseIsValidWith_iff E hfits _ block.info.index).mpr hcoinbase
      refine ⟨valid, hvalid, ?_⟩
      cases valid with
      | false => exact ⟨false, rfl⟩
      | true => exact (exists_validateRestWith_iff E hfits stack U 1 ts).mpr (hrest hvalid)

/-! ### The verdict -/

/-- The test of the difficulty and the validation of the transactions. -/
theorem exists_rest_iff {stack : ℕ → Digest} {block : Block} {U : List UnspentTxOut} :
    (∃ matches', hashMatchesDifficulty block.hash block.info.difficulty = .ok matches' ∧
        ∃ code, (if !matches' then pure 1 else do
          if !(← validateTransactionsWith E txHash stack block U) then pure 1 else pure 0) =
            (.ok code : Exec ℕ)) ↔ RestDefined E txHash fits stack block U := by
  unfold RestDefined
  rw [← exists_hashMatchesDifficulty_iff, ← hashMatchesDifficulty_eq_true_iff,
    ← exists_validateTransactionsWith_iff E hfits]
  constructor
  · rintro ⟨matches', hmatches, hcode⟩
    refine ⟨⟨matches', hmatches⟩, fun htrue => ?_⟩
    obtain rfl := Except.ok.inj (hmatches.symm.trans htrue)
    rw [exists_check_iff] at hcode
    obtain ⟨valid, hvalid, -⟩ := exists_bind_iff.mp (hcode (by simp))
    exact ⟨valid, hvalid⟩
  · rintro ⟨⟨matches', hmatches⟩, hvalid⟩
    refine ⟨matches', hmatches, exists_check_iff.mpr fun htrue => exists_bind_iff.mpr ?_⟩
    have hmet : matches' = true := by simpa using htrue
    rw [hmet] at hmatches
    obtain ⟨valid, hvalid⟩ := hvalid hmatches
    exact ⟨valid, hvalid, exists_check_iff.mpr fun _ => ⟨0, rfl⟩⟩

/-- Validation of a block behind another one comes to a verdict. -/
theorem exists_blockIsValidWith_iff {stack : ℕ → Digest} {block p : Block}
    {U : List UnspentTxOut} :
    (∃ code, blockIsValidWith E txHash stack block (some p) U = .ok code) ↔
      (block.info.index ≠ 0 → block.info.index = p.info.index + 1 →
        Guarded E txHash fits stack block p U) := by
  unfold blockIsValidWith
  rw [exists_check_iff]
  by_cases hindex : block.info.index = 0
  · simp [hindex]
  · rw [if_neg hindex]
    simp only [Option.isNone_some, Bool.false_eq_true, false_and, not_false_eq_true,
      forall_const, hindex, ne_eq]
    rw [exists_check_iff, not_not]
    refine imp_congr_right fun _ => ?_
    unfold Guarded
    -- each check that is passed leads to the next one
    rw [exists_bind_iff, exists_blockHash_and_iff E ⟨1, rfl⟩]
    refine or_congr_right (and_congr_right fun _ => ?_)
    rw [exists_check_iff, not_not, Option.some.injEq]
    refine imp_congr_right fun _ => ?_
    rw [exists_check_iff, not_not]
    refine imp_congr_right fun _ => ?_
    rw [exists_bind_iff, exists_blockHash_and_iff E ⟨1, rfl⟩]
    refine or_congr_right (and_congr_right fun hblock => ?_)
    rw [exists_check_iff, not_not, Option.some.injEq]
    refine imp_congr_right fun _ => ?_
    -- what could be hashed is not too long
    have hlen : ¬ 1024 < block.data.len := by
      rw [UInt32.lt_iff_toNat_lt]
      exact Nat.not_lt.mpr hblock.1
    rw [if_neg hlen, exists_bind_iff, exists_rest_iff E hfits]

end With

/-- A block whose data is too long is not found valid. -/
theorem ne_zero_of_blockIsValidWith_eq_ok {txHash : Transaction → Exec (Option Digest)}
    {stack : ℕ → Digest} {block : Block} {prev : Option Block} {U : List UnspentTxOut} {code : ℕ}
    (h : blockIsValidWith E txHash stack block prev U = .ok code)
    (hlen : 1024 < block.data.len.toNat) : code ≠ 0 := by
  rintro rfl
  unfold blockIsValidWith at h
  rw [check_eq_zero_iff] at h
  replace h := h.2
  by_cases hindex : block.info.index = 0
  · rw [if_pos hindex] at h
    split_ifs at h with hgenesis
    · rw [hgenesis] at hlen
      exact absurd hlen (by decide)
    · cases h
  · rw [if_neg hindex] at h
    cases prev with
    | none => cases h
    | some p =>
      -- the checks in turn, up to the one of the length
      simp only [check_eq_zero_iff, Except.bind_eq_ok_iff] at h
      obtain ⟨-, -, -, -, -, -, -, -, hle, -⟩ := h
      rw [UInt32.lt_iff_toNat_lt] at hle
      exact hle hlen

/-- Validation comes to the verdict that it should, if and only if a block with the index behind
that of the block in front of it is guarded by the checks before each hash, whatever
`transaction_hash` does with the transactions that do not fit. -/
theorem hasVerdict_iff_of {txHash : Transaction → Exec (Option Digest)} {fits : Transaction → Prop}
    (hfits : ∀ t, (∃ r, txHash t = .ok r) ↔ fits t) (stack : ℕ → Digest) (block : Block)
    (prev : Option Block) (U : List UnspentTxOut) :
    HasVerdict E txHash stack block prev U ↔
      ∀ p, prev = some p → block.info.index ≠ 0 → block.info.index = p.info.index + 1 →
        Guarded E txHash fits stack block p U := by
  have hcode : HasVerdict E txHash stack block prev U ↔
      ∃ code, blockIsValidWith E txHash stack block prev U = .ok code :=
    exists_congr fun _ =>
      and_iff_left_of_imp fun h hlen => ne_zero_of_blockIsValidWith_eq_ok E h hlen
  rw [hcode]
  cases prev with
  | none =>
    have hnone : ∃ code, blockIsValidWith E txHash stack block none U = .ok code := by
      unfold blockIsValidWith
      rw [exists_check_iff]
      intro hindex
      have hzero : block.info.index = 0 := by simpa using hindex
      rw [if_pos hzero]
      exact ⟨_, rfl⟩
    exact iff_of_true hnone nofun
  | some p =>
    rw [exists_blockIsValidWith_iff E hfits]
    constructor
    · rintro h q hq
      rw [← Option.some.inj hq]
      exact h
    · intro h
      exact h p rfl

/-- The same for `blockIsValid`, where a size that is no `int` is a fault. -/
theorem hasVerdict_transactionHash_iff (stack : ℕ → Digest) (block : Block) (prev : Option Block)
    (U : List UnspentTxOut) :
    HasVerdict E (transactionHash E) stack block prev U ↔
      ∀ p, prev = some p → block.info.index ≠ 0 → block.info.index = p.info.index + 1 →
        Guarded E (transactionHash E) (fun t => bufferSize t ≤ intMax) stack block p U :=
  hasVerdict_iff_of E (exists_transactionHash_iff E) stack block prev U

/-- **Where validation has a verdict.**  With an `int` that wraps around, in both hash functions,
validation comes to the verdict that it should, if and only if a block with the index behind that of
the block in front of it is guarded by the checks before each hash. -/
theorem hasVerdict_iff (stack : ℕ → Digest) (block : Block) (prev : Option Block)
    (U : List UnspentTxOut) :
    HasVerdict E (HashBuffer.txHash E) stack block prev U ↔
      ∀ p, prev = some p → block.info.index ≠ 0 → block.info.index = p.info.index + 1 →
        Guarded E (HashBuffer.txHash E) SizeHarmless stack block p U :=
  hasVerdict_iff_of E (fun _ => HashBuffer.exists_txHash_iff E) stack block prev U

/-- Between data of 1025 bytes in the block in front and a block that follows it, there is no
verdict. -/
theorem not_hasVerdict :
    ¬ ∀ (stack : ℕ → Digest) (block : Block) (prev : Option Block) (U : List UnspentTxOut),
      HasVerdict sampleEnv (HashBuffer.txHash sampleEnv) stack block prev U := by
  intro h
  have hverdict := h (fun _ => zero 32)
    { genesisBlock with info := { genesisBlock.info with index := 1 } }
    (some { genesisBlock with data := { genesisBlock.data with len := 1025 } }) []
  obtain ⟨code, hcode, -⟩ := hverdict
  cases hcode

end HolbertonChain
