import HolbertonChain.Block.HashBuffer
import HolbertonChain.Sample

/-!
# Buffers that are filled exactly

The functions called by `llist_for_each` put the bytes of all nodes in turn (`llistForEach_eq_put`),
so a hash function fills a buffer with the bytes it hashes (`fillAndHash`), and the question is
whether the buffer has their length.  It has if the size is an `int` (`transactionHash_of_le`,
`blockHash_of_le`).  If not, the size wraps around: then there is no buffer, or it is too small and
the cursor leaves it (`transactionHash_of_intMax_lt`, `blockHash_of_intMax_lt`).

* `fillsBuffers_iff`: the buffers are filled from start to end if and only if no size wraps around;
* `blockHash_eq_map`, `transactionHash_eq_ok_iff_txHash`: these are the functions without buffers,
  but for the `NULL` that `transaction_hash` returns where its size wraps around.
-/

namespace HolbertonChain.HashBuffer

open Bytes FillBuffer Cursor

variable {κ : Type} (E : Env κ)

/-! ### What the callbacks write -/

/-- A copy to the cursor, which is moved behind it. -/
def put (dest : Cursor UInt8) (src : List UInt8) : Exec (Cursor UInt8) :=
  match dest.write src with
  | none => throw .outOfBounds
  | some dest => pure dest

/-- The two calls of a callback are one. -/
theorem memcpy_bind_advance {n : ℕ} (dest : Cursor UInt8) {src : List UInt8}
    (h : src.length = n) : (memcpy dest src >>= fun dest => advance dest n) = put dest src := by
  subst h
  unfold memcpy put Cursor.write advance
  cases dest.copy src <;> rfl

theorem put_nil (dest : Cursor UInt8) : put dest [] = pure dest := by
  rw [put, write_nil]

theorem put_append (dest : Cursor UInt8) (xs ys : List UInt8) :
    put dest (xs ++ ys) = put dest xs >>= fun dest => put dest ys := by
  unfold put
  rw [write_append]
  cases dest.write xs <;> rfl

/-- Callbacks that put the bytes of a node put the bytes of all nodes in turn. -/
theorem llistForEach_eq_put {α : Type} {action : α → ℕ → Cursor UInt8 → Exec (ℤ × Cursor UInt8)}
    {bytes : α → List UInt8}
    (h : ∀ node idx dest,
      action node idx dest = put dest (bytes node) >>= fun dest => pure (0, dest))
    (idx : ℕ) (nodes : List α) (dest : Cursor UInt8) :
    llistForEach action idx nodes dest = put dest (nodes.flatMap bytes) := by
  induction nodes generalizing idx dest with
  | nil => exact (put_nil dest).symm
  | cons node nodes ih =>
    rw [llistForEach, h, List.flatMap_cons, put_append]
    cases put dest (bytes node) with
    | error fault => rfl
    | ok dest' => exact ih (idx + 1) dest'

theorem inputs_eq_put (node : TxIn) (idx : ℕ) (dest : Cursor UInt8) :
    inputs node idx dest =
      put dest (HolbertonChain.inputs node) >>= fun dest => pure (0, dest) := by
  have hsrc : (txInImage node).take (32 * 3) = HolbertonChain.inputs node := by
    rw [txInImage, List.append_assoc _ node.sig.sig.toList]
    exact List.take_left' (length_inputs node)
  rw [← memcpy_bind_advance dest (length_inputs node), inputs, hsrc, bind_assoc]

theorem outputs_eq_put (node : TxOut) (idx : ℕ) (dest : Cursor UInt8) :
    outputs node idx dest =
      put dest (HolbertonChain.outputs node) >>= fun dest => pure (0, dest) := by
  rw [← memcpy_bind_advance dest (length_outputs node), bind_assoc]
  rfl

theorem hashTransactionIds_eq_put (node : Transaction) (idx : ℕ) (dest : Cursor UInt8) :
    hashTransactionIds node idx dest =
      put dest node.id.toList >>= fun dest => pure (0, dest) := by
  rw [← memcpy_bind_advance dest (length_toList node.id), bind_assoc]
  rfl

/-! ### A buffer that is filled and hashed -/

/-- Puts some bytes at the start of a new buffer and hashes the buffer. -/
def fillAndHash (size : ℕ) (bytes : List UInt8) : Exec (Option HashRun) :=
  put (start (List.replicate size 0)) bytes >>= fun dest =>
    pure (some { size, pos := dest.pos, digest := E.sha256 dest.buffer })

/-- A hash function fills its buffer with `bytes`: the size is theirs, the cursor stands at the end
of the buffer, and the digest is theirs. -/
structure HashRun.Fills (run : HashRun) (bytes : List UInt8) : Prop where
  size_eq : run.size = bytes.length
  pos_eq : run.pos = run.size
  digest_eq : run.digest = E.sha256 bytes

/-- A buffer of the right size is filled from its start to its end. -/
theorem fillAndHash_of_length_eq {size : ℕ} {bytes : List UInt8} (h : bytes.length = size) :
    fillAndHash E size bytes = .ok (some ⟨size, size, E.sha256 bytes⟩) := by
  subst h
  rw [fillAndHash, put, write_start (List.length_replicate).symm]
  rfl

/-- Bytes for which there is no room leave the buffer. -/
theorem fillAndHash_of_lt {size : ℕ} {bytes : List UInt8} (h : size < bytes.length) :
    fillAndHash E size bytes = .error .outOfBounds := by
  have hnone : (start (List.replicate size 0)).write bytes = none := by
    rw [Option.eq_none_iff_forall_ne_some]
    intro dest hdest
    have hroom := exists_write_iff.mp ⟨dest, hdest⟩
    rw [rest_start, List.length_replicate] at hroom
    omega
  rw [fillAndHash, put, hnone]
  rfl

/-! ### The buffer of a transaction -/

/-- The size is computed modulo `2 ^ 32`, as a number that may be negative. -/
theorem toInt_wrappedSize (t : Transaction) :
    (wrappedSize t).toInt = (bufferSize t : ℤ).bmod (2 ^ 32) := by
  rw [wrappedSize, Int32.toInt_add, toInt_mul_llistSize, toInt_mul_llistSize, Int.bmod_add_bmod,
    Int.add_bmod_bmod, show (32 * 3 : Int32).toInt = 32 * 3 from rfl,
    show (32 : Int32).toInt = 32 from rfl, bufferSize]
  push_cast
  rfl

/-- A size that is an `int` is computed right. -/
theorem toInt_wrappedSize_of_le {t : Transaction} (h : bufferSize t ≤ intMax) :
    (wrappedSize t).toInt = bufferSize t := by
  unfold intMax at h
  rw [toInt_wrappedSize]
  exact Int.bmod_eq_of_le (by omega) (by omega)

/-- `transaction_hash` puts the bytes of the inputs and outputs into a buffer of the size that was
computed. -/
theorem transactionHash_eq (t : Transaction) :
    transactionHash E t =
      if (wrappedSize t).toInt ≤ 0 then pure none
      else fillAndHash E (wrappedSize t).toInt.toNat (transactionPreimage t) := by
  have hlt := (wrappedSize t).toInt_lt
  have hcalloc : calloc (wrappedSize t).toInt.toNat =
      some (start (List.replicate (wrappedSize t).toInt.toNat 0)) := if_pos (by omega)
  unfold transactionHash
  simp only [hcalloc, llistForEach_eq_put inputs_eq_put, llistForEach_eq_put outputs_eq_put]
  rw [fillAndHash, transactionPreimage, put_append, bind_assoc]

/-- `transaction_hash` fills its buffer with the inputs and outputs. -/
def TransactionFills (t : Transaction) : Prop :=
  ∃ run, transactionHash E t = .ok (some run) ∧ run.Fills E (transactionPreimage t)

/-- A transaction whose size is an `int` is hashed as a concatenation. -/
theorem transactionHash_of_le {t : Transaction} (hne : bufferSize t ≠ 0)
    (h : bufferSize t ≤ intMax) :
    transactionHash E t =
      .ok (some ⟨bufferSize t, bufferSize t, E.sha256 (transactionPreimage t)⟩) := by
  rw [transactionHash_eq, toInt_wrappedSize_of_le h, if_neg (by omega), Int.toNat_natCast]
  exact fillAndHash_of_length_eq E (length_transactionPreimage t)

/-- A transaction whose size is not an `int` is not hashed: the size is computed too small or not
positive. -/
theorem transactionHash_of_intMax_lt {t : Transaction} (h : intMax < bufferSize t) :
    transactionHash E t =
      if (wrappedSize t).toInt ≤ 0 then .ok none else .error .outOfBounds := by
  have hlt := (wrappedSize t).toInt_lt
  unfold intMax at h
  rw [transactionHash_eq]
  refine if_congr Iff.rfl rfl ?_
  apply fillAndHash_of_lt
  rw [length_transactionPreimage]
  omega

theorem transactionFills_of_le {t : Transaction} (hne : bufferSize t ≠ 0)
    (h : bufferSize t ≤ intMax) : TransactionFills E t :=
  ⟨_, transactionHash_of_le E hne h, (length_transactionPreimage t).symm, rfl, rfl⟩

theorem not_transactionFills {t : Transaction} (h : intMax < bufferSize t) :
    ¬ TransactionFills E t := by
  rintro ⟨run, hrun, -⟩
  rw [transactionHash_of_intMax_lt E h] at hrun
  split_ifs at hrun
  cases hrun

/-! ### The buffer of a block -/

/-- The header and the data in use, which stand together at the head of a `block_t`. -/
theorem take_infoBytes_append (b : Block) :
    (infoBytes E b.info ++ b.data.buffer.toList).take (56 + b.data.len.toUInt64).toNat =
      infoBytes E b.info ++ b.data.buffer.toList.take b.data.len.toNat := by
  rw [toNat_len0, ← length_infoBytes E b.info]
  exact List.take_length_add_append _

theorem length_blockPreimage {b : Block} (hlen : b.data.len.toNat ≤ 1024) :
    (blockPreimage E b).length = 56 + b.data.len.toNat + b.txs.length * 32 := by
  simp [blockPreimage, hlen, Nat.mul_comm, Nat.add_assoc]

/-- `block_hash` puts the header, the data and the transaction IDs into a buffer of the length that
was computed, if there is one. -/
theorem blockHash_eq {b : Block} (hlen : b.data.len.toNat ≤ 1024) :
    blockHash E b =
      if (wrappedLen b).toNat < 2 ^ 63 then
        fillAndHash E (wrappedLen b).toNat (blockPreimage E b)
      else pure none := by
  unfold blockHash calloc
  by_cases hsize : (wrappedLen b).toNat < 2 ^ 63
  · simp only [if_pos hsize, if_neg (Nat.not_lt.mpr hlen), take_infoBytes_append E b]
    have hhead : (infoBytes E b.info ++ b.data.buffer.toList.take b.data.len.toNat).length =
        (56 + b.data.len.toUInt64).toNat := by
      rw [toNat_len0]
      simp [hlen]
    rw [← bind_assoc, memcpy_bind_advance _ hhead]
    simp only [llistForEach_eq_put hashTransactionIds_eq_put]
    rw [fillAndHash, blockPreimage, put_append _ _ (HolbertonChain.hashTransactionIds b.txs),
      bind_assoc]
    rfl
  · simp only [if_neg hsize]

/-- `block_hash` fills its buffer with the header, the data in use and the transaction IDs. -/
def BlockFills (b : Block) : Prop :=
  ∃ run, blockHash E b = .ok (some run) ∧ run.Fills E (blockPreimage E b)

/-- A block whose transaction IDs have a size that is an `int` is hashed as a concatenation. -/
theorem blockHash_of_le {b : Block} (hlen : b.data.len.toNat ≤ 1024)
    (h : b.txs.length * 32 ≤ intMax) :
    blockHash E b =
      .ok (some ⟨(wrappedLen b).toNat, (wrappedLen b).toNat, E.sha256 (blockPreimage E b)⟩) := by
  have hwrapped := toNat_wrappedLen_of_le h
  unfold intMax at h
  rw [blockHash_eq E hlen, if_pos (by omega)]
  apply fillAndHash_of_length_eq
  rw [length_blockPreimage E hlen, hwrapped]

/-- A block whose transaction IDs have a size that is not an `int` is not hashed. -/
theorem blockHash_of_intMax_lt {b : Block} (hlen : b.data.len.toNat ≤ 1024)
    (h : intMax < b.txs.length * 32) :
    blockHash E b =
      if (wrappedLen b).toNat < 2 ^ 63 then .error .outOfBounds else .ok none := by
  rw [blockHash_eq E hlen]
  split_ifs with hfits
  · apply fillAndHash_of_lt
    rw [length_blockPreimage E hlen]
    rcases toNat_wrappedLen_of_intMax_lt h with hlarge | hsmall
    · omega
    · exact hsmall
  · rfl

theorem blockFills_of_le {b : Block} (hlen : b.data.len.toNat ≤ 1024)
    (h : b.txs.length * 32 ≤ intMax) : BlockFills E b := by
  refine ⟨_, blockHash_of_le E hlen h, ?_, rfl, rfl⟩
  rw [length_blockPreimage E hlen]
  exact toNat_wrappedLen_of_le h

theorem not_blockFills {b : Block} (hlen : b.data.len.toNat ≤ 1024)
    (h : intMax < b.txs.length * 32) : ¬ BlockFills E b := by
  rintro ⟨run, hrun, -⟩
  rw [blockHash_of_intMax_lt E hlen h] at hrun
  split_ifs at hrun
  cases hrun

/-! ### Both functions -/

/-- Where the size is an `int`, this is the transaction hash without its buffer. -/
theorem transactionHash_eq_map {t : Transaction} (h : bufferSize t ≤ intMax) :
    HolbertonChain.transactionHash E t = txHash E t := by
  rw [HolbertonChain.transactionHash, if_neg (by omega), txHash]
  split_ifs with h0
  · rw [transactionHash_eq, toInt_wrappedSize_of_le h, if_pos (by omega)]
    rfl
  · rw [transactionHash_of_le E h0 h]
    rfl

/-- What the transaction hash without its buffer returns is what it returns with it, where the size
is an `int`; elsewhere the former leaves the result open. -/
theorem transactionHash_eq_ok_iff_txHash {t : Transaction} {r : Option Digest} :
    HolbertonChain.transactionHash E t = .ok r ↔ bufferSize t ≤ intMax ∧ txHash E t = .ok r := by
  by_cases h : bufferSize t ≤ intMax
  · rw [transactionHash_eq_map E h, and_iff_right h]
  · rw [HolbertonChain.transactionHash, if_pos (Nat.not_le.mp h)]
    exact iff_of_false nofun fun hr => h hr.1

/-- `transaction_hash` returns if its size is no `int` and comes out as zero or negative, or if it
is an `int`. -/
theorem exists_txHash_iff {t : Transaction} :
    (∃ r, txHash E t = .ok r) ↔ (wrappedSize t).toInt ≤ 0 ∨ bufferSize t ≤ intMax := by
  by_cases h : bufferSize t ≤ intMax
  · refine iff_of_true ?_ (Or.inr h)
    rw [← transactionHash_eq_map E h, HolbertonChain.transactionHash, if_neg (Nat.not_lt.mpr h)]
    split_ifs
    · exact ⟨_, rfl⟩
    · exact ⟨_, rfl⟩
  · rw [or_iff_left h, txHash, transactionHash_of_intMax_lt E (Nat.not_le.mp h)]
    split_ifs with hnone
    · exact iff_of_true ⟨_, rfl⟩ hnone
    · exact iff_of_false nofun hnone

/-- This is the block hash without its buffer. -/
theorem blockHash_eq_map (b : Block) :
    HolbertonChain.blockHash E b = (blockHash E b).map (Option.map HashRun.digest) := by
  by_cases hlen : b.data.len.toNat ≤ 1024
  · by_cases h : b.txs.length * 32 ≤ intMax
    · rw [blockHash_of_le E hlen h]
      exact (blockHash_eq_ok_some_iff E).mpr ⟨hlen, h, rfl⟩
    · -- there is no buffer, or it is too small
      have hwrapped := toNat_wrappedLen_of_intMax_lt (Nat.not_le.mp h)
      rw [blockHash_of_intMax_lt E hlen (Nat.not_le.mp h), HolbertonChain.blockHash]
      split_ifs <;> first | rfl | omega
  · unfold HolbertonChain.blockHash blockHash calloc
    dsimp only
    by_cases hsize : (wrappedLen b).toNat < 2 ^ 63
    · rw [if_neg (Nat.not_le.mpr hsize), if_pos hsize, if_pos (Nat.not_le.mp hlen)]
      dsimp only
      rw [if_pos (Nat.not_le.mp hlen)]
      rfl
    · rw [if_pos (Nat.not_lt.mp hsize), if_neg hsize]
      rfl

/-- **Buffers that are filled exactly.**  On all transactions that have an input or output, and all
blocks whose data fit, the hash functions fill their buffers if and only if the size is an `int`
where they compute it in `int`. -/
theorem fillsBuffers_iff :
    (∀ t : Transaction, t.inputs ≠ [] ∨ t.outputs ≠ [] → t.inputs.length ≤ intMax →
      t.outputs.length ≤ intMax →
        (TransactionFills E t ↔ 96 * t.inputs.length + 32 * t.outputs.length ≤ intMax)) ∧
    ∀ b : Block, b.data.len.toNat ≤ 1024 → b.txs.length ≤ intMax →
      (BlockFills E b ↔ 32 * b.txs.length ≤ intMax) := by
  constructor
  · intro t hne _ _
    show _ ↔ bufferSize t ≤ intMax
    constructor
    · intro hfills
      by_contra hlt
      exact not_transactionFills E (Nat.not_le.mp hlt) hfills
    · apply transactionFills_of_le E
      rw [Ne, bufferSize_eq_zero_iff]
      rintro ⟨hin, hout⟩
      exact hne.elim (fun h => h hin) fun h => h hout
  · intro b hlen _
    rw [Nat.mul_comm]
    constructor
    · intro hfills
      by_contra hlt
      exact not_blockFills E hlen (Nat.not_le.mp hlt) hfills
    · exact blockFills_of_le E hlen

/-- A payment, the genesis block without a transaction list, and with the payment in one. -/
theorem sample_fillsBuffers :
    TransactionFills sampleEnv (spendRewards [reward 1] [sampleOut 50 2]) ∧
      BlockFills sampleEnv genesisBlock ∧
      BlockFills sampleEnv
        { genesisBlock with transactions := some [spendRewards [reward 1] [sampleOut 50 2]] } := by
  have hin : (spendRewards [reward 1] [sampleOut 50 2]).inputs.length = 1 := rfl
  have hout : (spendRewards [reward 1] [sampleOut 50 2]).outputs.length = 1 := rfl
  refine ⟨?_, ?_, ?_⟩
  · refine ((fillsBuffers_iff sampleEnv).1 _ ?_ ?_ ?_).mpr ?_
    · exact Or.inr (List.cons_ne_nil _ _)
    · rw [hin]
      decide
    · rw [hout]
      decide
    · rw [hin, hout]
      decide
  · exact ((fillsBuffers_iff sampleEnv).2 genesisBlock (by decide) (by decide)).mpr (by decide)
  · exact ((fillsBuffers_iff sampleEnv).2 _ (by decide) (by decide)).mpr (by decide)

/-! ### A size that wraps around -/

/-- A transaction without inputs and with `n` outputs. -/
def manyOutputs (n : ℕ) : Transaction :=
  { id := zero 32, inputs := [], outputs := List.replicate n (sampleOut 50 1) }

theorem length_manyOutputs (n : ℕ) : (manyOutputs n).outputs.length = n := List.length_replicate

theorem bufferSize_manyOutputs (n : ℕ) : bufferSize (manyOutputs n) = 32 * n := by
  rw [bufferSize, length_manyOutputs]
  exact Nat.zero_add _

/-- With `2 ^ 27 + 1` outputs the buffer has 32 bytes, and the second output is copied behind it. -/
theorem transactionHash_manyOutputs :
    transactionHash E (manyOutputs (2 ^ 27 + 1)) = .error .outOfBounds := by
  have hwrapped : (wrappedSize (manyOutputs (2 ^ 27 + 1))).toInt = 32 := by
    rw [toInt_wrappedSize, bufferSize_manyOutputs]
    decide
  have hlt : intMax < bufferSize (manyOutputs (2 ^ 27 + 1)) := by
    rw [bufferSize_manyOutputs]
    decide
  rw [transactionHash_of_intMax_lt E hlt, hwrapped]
  rfl

/-- The number of outputs is an `int`, yet the buffer is not filled. -/
theorem not_fillsBuffers :
    ¬ ((∀ t : Transaction, t.inputs ≠ [] ∨ t.outputs ≠ [] → t.inputs.length ≤ intMax →
        t.outputs.length ≤ intMax → TransactionFills sampleEnv t) ∧
      ∀ b : Block, b.data.len.toNat ≤ 1024 → b.txs.length ≤ intMax →
        BlockFills sampleEnv b) := by
  rintro ⟨h, -⟩
  have hne : (manyOutputs (2 ^ 27 + 1)).outputs ≠ [] := by
    rw [← List.length_pos_iff, length_manyOutputs]
    decide
  have hle : (manyOutputs (2 ^ 27 + 1)).outputs.length ≤ intMax := by
    rw [length_manyOutputs]
    decide
  obtain ⟨run, hrun, -⟩ := h (manyOutputs (2 ^ 27 + 1)) (Or.inr hne) (Nat.zero_le _) hle
  rw [transactionHash_manyOutputs] at hrun
  cases hrun

end HolbertonChain.HashBuffer
