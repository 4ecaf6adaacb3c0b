import HolbertonChain.Transaction.Hash

/-!
# Building a transaction (`tx_in_sign.c`, `tool.c`, `transaction_create.c`)

The arrays `pub` of `transaction_create` and of `send_amount` are filled by calls of `ec_to_pub`
whose result is not looked at; `pubBuff` is what such an array holds when the call fails.
-/

namespace HolbertonChain

open Bytes

variable {κ : Type} (E : Env κ)

/-! ### Signing -/

/-- `tx_in_sign`: whether it returned a signature, and the input it leaves.  The referenced output
is the first one with the same output hash.  On an empty list the loop leaves the pointer
`unspent_output` unassigned, and the test after it reads that pointer. -/
def txInSign (i : TxIn) (txId : Digest) (sender : κ) (allUnspent : List UnspentTxOut) (rnd : ℕ) :
    Exec (Bool × TxIn) :=
  if allUnspent = [] then throw .uninitialised
  else
    -- neither `block_hash` nor `tx_id` is compared
    match allUnspent.find? fun u => i.txOutHash == u.out.hash with
    | none => pure (false, i)
    | some u =>
      if ecToPub E sender ≠ some u.out.pub then pure (false, i)
      else
        let (ok, sig) := ecSign E sender txId rnd i.sig
        pure (ok, { i with sig })

/-- `llist_for_each(transaction->inputs, sign_transaction_inputs, args)`: the loop stops at the
first input that could not be signed. -/
def signTransactionInputs (txId : Digest) (sender : κ) (allUnspent : List UnspentTxOut)
    (rnd : ℕ → ℕ) : List TxIn → ℕ → Exec (List TxIn)
  | [], _ => pure []
  | i :: is, idx => do
    let (ok, i') ← txInSign E i txId sender allUnspent (rnd idx)
    if ok then
      let is' ← signTransactionInputs txId sender allUnspent rnd is (idx + 1)
      pure (i' :: is')
    else
      pure (i' :: is)

/-! ### Selecting unspent outputs -/

/-- `memcmp(a, b, sizeof(SHA256_DIGEST_LENGTH))` is zero: the macro is an `int` constant, so the
first four bytes are compared. -/
def samePrefix (a b : Digest) : Bool := a.toList.take 4 == b.toList.take 4

/-- `check_unspent`: an input of the transaction agrees with `unspent` on the prefixes of all
three fields of the reference. -/
def checkUnspent (unspent : UnspentTxOut) (t : Transaction) : Bool :=
  t.inputs.any fun i =>
    samePrefix i.blockHash unspent.blockHash && samePrefix i.txId unspent.txId &&
      samePrefix i.txOutHash unspent.out.hash

/-- `used_in_pool` -/
def usedInPool (txPool : List Transaction) (unspent : UnspentTxOut) : Bool :=
  txPool.any (checkUnspent unspent)

/-- `select_unspent_in`: the inputs and the amount selected so far, after one unspent output. -/
def selectUnspentIn (pub : Pub) (txPool : List Transaction) (unspent : UnspentTxOut)
    (selected : List TxIn × UInt32) : List TxIn × UInt32 :=
  if unspent.out.pub = pub ∧ usedInPool txPool unspent = false then
    (selected.1 ++ [txInCreate unspent], selected.2 + unspent.out.amount)
  else selected

/-- The loop of `transaction_create` over the unspent outputs, left as soon as the amount selected
reaches `amount`. -/
def selectLoop (pub : Pub) (txPool : List Transaction) (amount : UInt32) :
    List UnspentTxOut → List TxIn × UInt32 → List TxIn × UInt32
  | [], selected => selected
  | u :: us, selected =>
    let selected' := selectUnspentIn pub txPool u selected
    if amount ≤ selected'.2 then selected' else selectLoop pub txPool amount us selected'

/-- `send_amount` -/
def sendAmount (pubBuff : Pub) (sender receiver : κ) (amount : Int32) (total : UInt32) :
    Option (List TxOut) :=
  let remainingBalance := total - amount.toUInt32
  let receiverPubKey := (ecToPub E receiver).getD pubBuff
  match txOutCreate E amount.toUInt32 receiverPubKey with
  | none => none
  | some toReceiver =>
    -- the change goes back to the sender
    if remainingBalance ≠ 0 then
      let senderPubKey := (ecToPub E sender).getD pubBuff
      match txOutCreate E remainingBalance senderPubKey with
      | none => none
      | some toSender => some [toReceiver, toSender]
    else some [toReceiver]

/-- `transaction_create`.  `sender` and `receiver` are key pointers; `none` as result is `NULL`. -/
def transactionCreate (pubBuff : Pub) (rnd : ℕ → ℕ) (sender receiver : Option κ) (amount : UInt32)
    (allUnspent : List UnspentTxOut) (txPool : List Transaction) : Exec (Option Transaction) :=
  match sender, receiver with
  | some sender, some receiver =>
    let pub := (ecToPub E sender).getD pubBuff
    let (trIn, unspentAmount) := selectLoop pub txPool amount allUnspent ([], 0)
    if unspentAmount < amount then pure none
    else
      match sendAmount E pubBuff sender receiver amount.toInt32 unspentAmount with
      | none => pure none
      | some trOut => do
        let hash ← transactionHash E { id := zero 32, inputs := trIn, outputs := trOut }
        let id := hash.getD (zero 32)
        -- an input that could not be signed is left unsigned, and the transaction returned
        let signed ← signTransactionInputs E id sender allUnspent rnd trIn 0
        pure (some { id, inputs := signed, outputs := trOut })
  | _, _ => pure none

/-- `print_utxo_message` -/
def printUtxoMessage : List String :=
  ["Not enough amount in remaining utxo, if you have change",
    " in transactions that are not yet mined you will be able to",
    " send this amount after those transactions have been mined\n"]

/-- What `transaction_create` prints: the message where the amounts selected do not come to
`amount`. -/
def transactionCreateOut (pubBuff : Pub) (sender receiver : Option κ) (amount : UInt32)
    (allUnspent : List UnspentTxOut) (txPool : List Transaction) : List String :=
  match sender, receiver with
  | some sender, some _ =>
    let pub := (ecToPub E sender).getD pubBuff
    let (_, unspentAmount) := selectLoop pub txPool amount allUnspent ([], 0)
    if unspentAmount < amount then printUtxoMessage else []
  | _, _ => []

end HolbertonChain
