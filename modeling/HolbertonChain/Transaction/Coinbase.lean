import HolbertonChain.Transaction.Hash

/-!
# Coinbase transactions (`coinbase_create.c`, `coinbase_is_valid.c`)
-/

namespace HolbertonChain

open Bytes

variable {κ : Type} (E : Env κ)

/-- `COINBASE_AMOUNT` -/
def coinbaseAmount : UInt32 := 50

/-- The output hash of a coinbase input: the block index in its first four bytes, zeros after. -/
def coinbaseOutHash (blockIndex : UInt32) : Digest :=
  ofList 32 (encode32 E.host blockIndex).toList

/-- The input of a coinbase transaction. -/
def coinbaseInput (blockIndex : UInt32) : TxIn where
  blockHash := zero 32
  txId := zero 32
  txOutHash := coinbaseOutHash E blockIndex
  sig := { sig := zero 72, len := 0 }

/-- `coinbase_create` -/
def coinbaseCreate (receiver : κ) (blockIndex : UInt32) : Exec (Option Transaction) :=
  match ecToPub E receiver with
  | none => pure none
  | some pub =>
    match txOutCreate E coinbaseAmount pub with
    | none => pure none
    | some output => do
      let transaction :=
        { id := zero 32, inputs := [coinbaseInput E blockIndex], outputs := [output] }
      match ← transactionHash E transaction with
      | none => pure none
      | some id => pure (some { transaction with id })

/-- `is_empty` -/
def isEmpty (buf : List UInt8) : Bool := buf.all (· == 0)

/-- `coinbase_is_valid`, with `transaction_hash` as a parameter -/
def coinbaseIsValidWith (txHash : Transaction → Exec (Option Digest)) (coinbase : Transaction)
    (blockIndex : UInt32) : Exec Bool := do
  match ← txHash coinbase with
  | none => pure false
  | some hash =>
    if coinbase.id ≠ hash then pure false
    else
      match coinbase.inputs, coinbase.outputs with
      | [input], [output] =>
        -- the bytes of the output hash behind the index are not looked at
        if input.txOutHash.toList.take 4 ≠ (encode32 E.host blockIndex).toList then pure false
        else if !isEmpty input.blockHash.toList || !isEmpty input.txId.toList
            || !isEmpty (input.sig.sig.toList ++ [input.sig.len]) then pure false
        else if output.amount ≠ coinbaseAmount then pure false
        else pure true
      | _, _ => pure false

/-- `coinbase_is_valid` -/
def coinbaseIsValid (coinbase : Transaction) (blockIndex : UInt32) : Exec Bool :=
  coinbaseIsValidWith E (transactionHash E) coinbase blockIndex

/-! ### First properties -/

theorem isEmpty_append (l l' : List UInt8) : isEmpty (l ++ l') = (isEmpty l && isEmpty l') := by
  simp [isEmpty]

theorem isEmpty_toList_iff {n : ℕ} {v : Bytes n} : isEmpty v.toList = true ↔ v = zero n := by
  rw [← toList_inj, toList_zero, List.eq_replicate_iff]
  simp [isEmpty]

/-- Every check a coinbase transaction passes. -/
structure IsCoinbase (c : Transaction) (blockIndex : UInt32) (input : TxIn) (output : TxOut) :
    Prop where
  id_eq : transactionHash E c = .ok (some c.id)
  inputs_eq : c.inputs = [input]
  outputs_eq : c.outputs = [output]
  index_eq : input.txOutHash.toList.take 4 = (encode32 E.host blockIndex).toList
  blockHash_eq : input.blockHash = zero 32
  txId_eq : input.txId = zero 32
  sig_eq : input.sig = { sig := zero 72, len := 0 }
  amount_eq : output.amount = coinbaseAmount

theorem sign_eq_zero_iff {s : Sign} :
    isEmpty (s.sig.toList ++ [s.len]) = true ↔ s = { sig := zero 72, len := 0 } := by
  rw [isEmpty_append, Bool.and_eq_true, isEmpty_toList_iff]
  cases s
  simp [isEmpty]

theorem coinbaseIsValid_eq_true_iff {c : Transaction} {blockIndex : UInt32} :
    coinbaseIsValid E c blockIndex = .ok true ↔
      ∃ input output, IsCoinbase E c blockIndex input output := by
  unfold coinbaseIsValid coinbaseIsValidWith
  rw [Except.bind_eq_ok_iff]
  constructor
  · rintro ⟨r, hr, h⟩
    cases r with
    | none => cases h
    | some hash =>
      simp only at h
      split_ifs at h with hid
      · cases h
      · rw [not_not] at hid
        split at h
        next input output hin hout =>
          split_ifs at h with hindex hempty hamount
          · cases h
          · cases h
          · cases h
          · simp only [Bool.or_eq_true, Bool.not_eq_true', not_or, Bool.not_eq_false] at hempty
            obtain ⟨⟨hblock, htx⟩, hsig⟩ := hempty
            exact ⟨input, output, by rw [hr, hid], hin, hout, not_not.mp hindex,
              isEmpty_toList_iff.mp hblock, isEmpty_toList_iff.mp htx, sign_eq_zero_iff.mp hsig,
              not_not.mp hamount⟩
        next => cases h
  · rintro ⟨input, output, hc⟩
    refine ⟨some c.id, hc.id_eq, ?_⟩
    have hblock := isEmpty_toList_iff.mpr hc.blockHash_eq
    have htx := isEmpty_toList_iff.mpr hc.txId_eq
    have hsig := sign_eq_zero_iff.mpr hc.sig_eq
    simp [hc.inputs_eq, hc.outputs_eq, hc.index_eq, hblock, htx, hsig, hc.amount_eq]

/-! ### What is created is valid -/

/-- The transaction with the input of a coinbase transaction and one output, under its ID. -/
def coinbaseWith (blockIndex : UInt32) (output : TxOut) : Transaction :=
  let unsigned : Transaction :=
    { id := zero 32, inputs := [coinbaseInput E blockIndex], outputs := [output] }
  { unsigned with id := E.sha256 (transactionPreimage unsigned) }

theorem transactionHash_coinbaseWith (blockIndex : UInt32) (output : TxOut) (id : Digest) :
    transactionHash E { coinbaseWith E blockIndex output with id } =
      .ok (some (coinbaseWith E blockIndex output).id) := by
  have hsize : bufferSize { coinbaseWith E blockIndex output with id } = 128 := rfl
  rw [transactionHash_eq_ok_iff, hsize]
  exact ⟨by decide, Or.inr ⟨by decide, rfl⟩⟩

theorem coinbaseWith_isValid (blockIndex : UInt32) {output : TxOut}
    (h : output.amount = coinbaseAmount) :
    coinbaseIsValid E (coinbaseWith E blockIndex output) blockIndex = .ok true := by
  rw [coinbaseIsValid_eq_true_iff]
  refine ⟨coinbaseInput E blockIndex, output, transactionHash_coinbaseWith E _ _ _, rfl, rfl, ?_,
    rfl, rfl, rfl, h⟩
  simp [coinbaseInput, coinbaseOutHash, ofList]

/-- The output that pays the reward to a public key. -/
def rewardOut (pub : Pub) : TxOut where
  amount := coinbaseAmount
  pub := pub
  hash := outHash E coinbaseAmount pub

/-- A coinbase transaction is created exactly for a key whose public key can be extracted, and pays
the reward to it. -/
theorem coinbaseCreate_eq_ok_some_iff {receiver : κ} {blockIndex : UInt32} {c : Transaction} :
    coinbaseCreate E receiver blockIndex = .ok (some c) ↔
      ∃ pub, ecToPub E receiver = some pub ∧ c = coinbaseWith E blockIndex (rewardOut E pub) := by
  unfold coinbaseCreate
  cases hpub : ecToPub E receiver with
  | none => simp
  | some pub =>
    have hout : txOutCreate E coinbaseAmount pub = some (rewardOut E pub) :=
      (txOutCreate_eq_some E).mpr ⟨by decide, rfl⟩
    have hhash := transactionHash_coinbaseWith E blockIndex (rewardOut E pub) (zero 32)
    simp only [hout]
    unfold coinbaseWith at hhash ⊢
    simp only [hhash, Except.ok_bind, Except.pure_eq_ok, Except.ok.injEq, Option.some.injEq,
      exists_eq_left']
    exact eq_comm

end HolbertonChain
