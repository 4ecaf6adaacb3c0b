import HolbertonChain.Crypto
import HolbertonChain.Lib.Except

/-!
# Outputs, inputs and the transaction hash

`tx_out_create.c`, `unspent_tx_out_create.c`, `tx_in_create.c` and `transaction_hash.c`.
-/

namespace HolbertonChain

open Bytes

variable {κ : Type} (E : Env κ)

/-- The bytes of `amount` and `pub`, which stand together at the head of a `tx_out_t`. -/
def outRecord (amount : UInt32) (pub : Pub) : List UInt8 :=
  (encode32 E.host amount).toList ++ pub.toList

/-- The digest that identifies an output of `amount` to `pub`. -/
def outHash (amount : UInt32) (pub : Pub) : Digest := E.sha256 (outRecord E amount pub)

/-- `tx_out_create`; an amount of zero is refused. -/
def txOutCreate (amount : UInt32) (pub : Pub) : Option TxOut :=
  if amount = 0 then none else some { amount, pub, hash := outHash E amount pub }

/-- `unspent_tx_out_create` -/
def unspentTxOutCreate (blockHash txId : Digest) (out : TxOut) : UnspentTxOut :=
  { blockHash, txId, out }

/-- `tx_in_create`: the signature is zeroed. -/
def txInCreate (unspent : UnspentTxOut) : TxIn where
  blockHash := unspent.blockHash
  txId := unspent.txId
  txOutHash := unspent.out.hash
  sig := { sig := zero 72, len := 0 }

/-! ### The transaction hash -/

/-- `inputs`: the first `3 * SHA256_DIGEST_LENGTH` bytes of a `tx_in_t`. -/
def inputs (i : TxIn) : List UInt8 := i.blockHash.toList ++ i.txId.toList ++ i.txOutHash.toList

/-- `outputs`: the stored hash of a `tx_out_t`. -/
def outputs (o : TxOut) : List UInt8 := o.hash.toList

/-- The `int` expression for the size of the buffer of `transaction_hash`, before it is bounded. -/
def bufferSize (t : Transaction) : ℕ :=
  32 * 3 * t.inputs.length + 32 * t.outputs.length

/-- What `transaction_hash` copies into its buffer. -/
def transactionPreimage (t : Transaction) : List UInt8 :=
  t.inputs.flatMap inputs ++ t.outputs.flatMap outputs

/-- `transaction_hash`: `none` is the `NULL` it returns for a transaction without inputs and
outputs.  C leaves open what an `int` that overflows comes to, so a size that is none is a fault;
`HashBuffer.txHash` is the function where the size wraps around. -/
def transactionHash (t : Transaction) : Exec (Option Digest) :=
  if intMax < bufferSize t then throw .intOverflow
  else if bufferSize t = 0 then pure none
  else pure (some (E.sha256 (transactionPreimage t)))

/-! ### First properties -/

theorem txOutCreate_eq_some {amount : UInt32} {pub : Pub} {o : TxOut} :
    txOutCreate E amount pub = some o ↔
      amount ≠ 0 ∧ o = { amount, pub, hash := outHash E amount pub } := by
  unfold txOutCreate
  split_ifs with h
  · simp [h]
  · simp [h, eq_comm]

@[simp] theorem length_inputs (i : TxIn) : (inputs i).length = 96 := by simp [inputs]

@[simp] theorem length_outputs (o : TxOut) : (outputs o).length = 32 := by simp [outputs]

/-- The buffer is filled exactly. -/
theorem length_transactionPreimage (t : Transaction) :
    (transactionPreimage t).length = bufferSize t := by
  simp only [transactionPreimage, bufferSize, List.length_append, List.length_flatMap,
    length_inputs, length_outputs, List.map_const', List.sum_replicate_nat]
  ring

theorem inputs_eq_inputs_iff {i j : TxIn} : inputs i = inputs j ↔ i.ref = j.ref := by
  constructor
  · intro h
    obtain ⟨h12, h3⟩ := List.append_inj' h (by simp)
    obtain ⟨h1, h2⟩ := List.append_inj' h12 (by simp)
    rw [TxIn.ref, TxIn.ref, toList_injective h1, toList_injective h2, toList_injective h3]
  · intro h
    obtain ⟨h1, h2, h3⟩ := OutRef.mk.inj h
    rw [inputs, inputs, h1, h2, h3]

theorem bufferSize_eq_zero_iff {t : Transaction} :
    bufferSize t = 0 ↔ t.inputs = [] ∧ t.outputs = [] := by
  rw [← List.length_eq_zero_iff, ← List.length_eq_zero_iff]
  unfold bufferSize
  omega

/-- What `transaction_hash` returns, in its three cases. -/
theorem transactionHash_eq_ok_iff {t : Transaction} {r : Option Digest} :
    transactionHash E t = .ok r ↔
      bufferSize t ≤ intMax ∧
        ((bufferSize t = 0 ∧ r = none) ∨
          (bufferSize t ≠ 0 ∧ r = some (E.sha256 (transactionPreimage t)))) := by
  unfold transactionHash
  split_ifs with h1 h2
  · constructor
    · intro h
      cases h
    · rintro ⟨h, -⟩
      omega
  · constructor
    · intro h
      exact ⟨by omega, Or.inl ⟨h2, (Except.ok.inj h).symm⟩⟩
    · rintro ⟨-, ⟨-, rfl⟩ | ⟨hne, -⟩⟩
      · rfl
      · exact absurd h2 hne
  · constructor
    · intro h
      exact ⟨by omega, Or.inr ⟨h2, (Except.ok.inj h).symm⟩⟩
    · rintro ⟨-, ⟨h0, -⟩ | ⟨-, rfl⟩⟩
      · exact absurd h0 h2
      · rfl

end HolbertonChain
