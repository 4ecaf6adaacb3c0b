import HolbertonChain.Lib.WrapSum
import HolbertonChain.Sample
import HolbertonChain.Transaction.Validity

/-!
# What an accepted transaction conserves

`transaction_is_valid` compares the totals of the inputs and of the outputs in 32-bit arithmetic.
So the exact totals of an accepted transaction agree modulo `2 ^ 32`
(`transactionIsValid_total_mod`) and are equal exactly when both wrap around equally often
(`transactionIsValid_conserves_iff`): `mintingTransaction` has no inputs, is accepted against every
list, and pays out `2 ^ 32`.
-/

namespace HolbertonChain

open Bytes WrapSum

variable {κ : Type} (E : Env κ)

/-- The exact total of the unspent outputs that the inputs of a transaction match. -/
def totalIn (t : Transaction) (allUnspent : List UnspentTxOut) : ℕ :=
  total (fun u : UnspentTxOut => u.out.amount) (matched allUnspent t.inputs)

/-- The exact total of the outputs of a transaction. -/
def totalOut (t : Transaction) : ℕ := total (fun o : TxOut => o.amount) t.outputs

/-- The accumulators of an accepted transaction agree. -/
theorem accumulators_eq_of_transactionIsValid {hashBuff : Digest} {t : Transaction}
    {U : List UnspentTxOut} (h : transactionIsValid E hashBuff t U = .ok true) :
    (matched U t.inputs).foldl (fun acc u => acc + u.out.amount) 0 =
      t.outputs.foldl (fun acc o => acc + o.amount) 0 :=
  ((transactionIsValid_eq_true_iff E).mp h).2.2

/-- Modulo `2 ^ 32`, an accepted transaction pays out what it takes in. -/
theorem transactionIsValid_total_mod {hashBuff : Digest} {t : Transaction} {U : List UnspentTxOut}
    (h : transactionIsValid E hashBuff t U = .ok true) :
    totalIn t U % 2 ^ 32 = totalOut t % 2 ^ 32 := by
  have hacc := congrArg UInt32.toNat (accumulators_eq_of_transactionIsValid E h)
  rw [toNat_foldl_add, toNat_foldl_add] at hacc
  simpa [totalIn, totalOut] using hacc

/-- An accepted transaction conserves value exactly when the totals of its inputs and of its
outputs wrap around equally often. -/
theorem transactionIsValid_conserves_iff {hashBuff : Digest} {t : Transaction}
    {U : List UnspentTxOut} (h : transactionIsValid E hashBuff t U = .ok true) :
    totalIn t U = totalOut t ↔ totalIn t U / 2 ^ 32 = totalOut t / 2 ^ 32 :=
  totals_eq_iff (accumulators_eq_of_transactionIsValid E h)

/-! ### A transaction that mints -/

/-- No inputs, and two outputs of `2 ^ 31` to key 1. -/
def mintingTransaction : Transaction :=
  spendRewards [] [sampleOut 0x80000000 1, sampleOut 0x80000000 1]

/-- Key 1 sends key 2 a part of its reward. -/
def splittingTransaction : Transaction :=
  spendRewards [reward 1] [sampleOut 30 2, sampleOut 20 1]

/-- Both transactions are accepted: the one that splits a reward conserves it, and the totals of the
other are as far apart as they can be. -/
theorem mintingTransaction_totals :
    (transactionIsValid sampleEnv (zero 32) splittingTransaction [reward 1] = .ok true ∧
      totalIn splittingTransaction [reward 1] = totalOut splittingTransaction) ∧
    transactionIsValid sampleEnv (zero 32) mintingTransaction [] = .ok true ∧
      (totalIn mintingTransaction [] = totalOut mintingTransaction ↔
        totalIn mintingTransaction [] / 2 ^ 32 = totalOut mintingTransaction / 2 ^ 32) := by
  have hsplits : transactionIsValid sampleEnv (zero 32) splittingTransaction [reward 1] =
      .ok true := by
    decide +kernel
  have hvalid : transactionIsValid sampleEnv (zero 32) mintingTransaction [] = .ok true := by
    decide +kernel
  refine ⟨⟨hsplits, ?_⟩, hvalid, transactionIsValid_conserves_iff sampleEnv hvalid⟩
  exact (transactionIsValid_conserves_iff sampleEnv hsplits).mpr (by decide +kernel)

/-- Validation does not make a transaction conserve value. -/
theorem not_transactionIsValid_conserves :
    ¬ ∀ (hashBuff : Digest) (t : Transaction) (U : List UnspentTxOut),
      transactionIsValid sampleEnv hashBuff t U = .ok true → totalIn t U = totalOut t := by
  intro h
  have htotals := h (zero 32) mintingTransaction [] (by decide +kernel)
  have hin : totalIn mintingTransaction [] = 0 := rfl
  have hout : totalOut mintingTransaction = 2 ^ 32 := rfl
  omega

end HolbertonChain
