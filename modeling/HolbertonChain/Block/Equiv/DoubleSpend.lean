import HolbertonChain.Block.Equiv.Extend
import HolbertonChain.Sample
import HolbertonChain.Transaction.Equiv.UpdateUnspent

/-!
# Double spends inside a block

`validate_transactions` checks every transaction of a block against the same list of unspent
outputs, and `transaction_is_valid` every input against the whole of it.  Nothing is crossed off, so
as soon as anything can be spent on top of a block, a block that spends it twice is accepted there
(`noDoubleSpend_iff`).
-/

namespace HolbertonChain

open Bytes

variable {κ : Type} (E : Env κ)

/-- The references of the inputs of the transactions behind the coinbase. -/
def spentRefs (b : Block) : List OutRef := inputRefs b.txs.tail

/-- Nothing can be spent on top of `prev`: a transaction with an input is accepted only where no
block behind `prev` is. -/
def NothingToSpend (prev : Option Block) (U : List UnspentTxOut) : Prop :=
  ∀ p, prev = some p → blockHash E p = .ok (some p.hash) → p.info.index + 1 ≠ 0 →
    ∀ (hashBuff : Digest) (t : Transaction), t.inputs ≠ [] →
      transactionIsValid E hashBuff t U ≠ .ok true

/-- The block on `p` that contains a transaction twice. -/
def spendTwice (p : Block) (t : Transaction) : Block :=
  extend E p { buffer := zero 1024, len := 0 } [t, t]

theorem bufferSize_ne_zero {t : Transaction} (h : t.inputs ≠ []) : bufferSize t ≠ 0 :=
  fun h0 => h (bufferSize_eq_zero_iff.mp h0).1

/-- An accepted transaction is accepted a second time. -/
theorem spendTwice_isValid {p : Block} {t : Transaction} {U : List UnspentTxOut}
    {hashBuff : Digest} (hp : blockHash E p = .ok (some p.hash)) (hindex : p.info.index + 1 ≠ 0)
    (ht : t.inputs ≠ []) (hvalid : transactionIsValid E hashBuff t U = .ok true)
    (stack : ℕ → Digest) : blockIsValid E stack (spendTwice E p t) (some p) U = .ok 0 := by
  apply extend_isValid E hp hindex (by decide) (by simp [intMax])
  intro k t' hk
  have hmem : t' ∈ [t, t] := List.mem_of_getElem? hk
  have heq : t' = t := by simpa using hmem
  rw [heq, transactionIsValid_congr E (bufferSize_ne_zero ht) _ hashBuff]
  exact hvalid

theorem spendTwice_not_nodup {p : Block} {t : Transaction} (ht : t.inputs ≠ []) :
    ¬ (spentRefs (spendTwice E p t)).Nodup := by
  obtain ⟨i, is, his⟩ := List.exists_cons_of_ne_nil ht
  have hrefs : spentRefs (spendTwice E p t) = t.inputs.map TxIn.ref ++ t.inputs.map TxIn.ref := by
    simp [spentRefs, spendTwice, inputRefs]
  intro hnodup
  rw [hrefs, List.nodup_append] at hnodup
  -- the first input stands in both copies
  have hi : i.ref ∈ t.inputs.map TxIn.ref := List.mem_map_of_mem (his ▸ List.mem_cons_self)
  exact hnodup.2.2 _ hi _ hi rfl

/-- The transactions behind the coinbase of an accepted block are accepted one by one. -/
theorem exists_valid_of_mem_tail {stack : ℕ → Digest} {block p : Block} {U : List UnspentTxOut}
    (h : IsNext E stack block p U) {t : Transaction} (ht : t ∈ block.txs.tail) :
    ∃ hashBuff, transactionIsValid E hashBuff t U = .ok true := by
  obtain ⟨coinbase, ts, htxs, -, hts⟩ := (validateTransactions_eq_true_iff E).mp h.transactions
  rw [htxs, List.tail_cons] at ht
  obtain ⟨k, hk⟩ := List.getElem?_of_mem ht
  exact ⟨stack (1 + k), hts k t hk⟩

/-- Every block accepted on top of `prev` spends each reference at most once if and only if nothing
can be spent there. -/
theorem noDoubleSpend_iff (prev : Option Block) (U : List UnspentTxOut) :
    (∀ stack block, blockIsValid E stack block prev U = .ok 0 → (spentRefs block).Nodup) ↔
      NothingToSpend E prev U := by
  constructor
  · rintro h p rfl hp hindex hashBuff t ht hvalid
    have haccepted := spendTwice_isValid E hp hindex ht hvalid fun _ => hashBuff
    exact spendTwice_not_nodup E ht (h _ _ haccepted)
  · intro h stack block hvalid
    rcases (blockIsValid_eq_zero_iff E).mp hvalid with rfl | ⟨p, rfl, hnext⟩
    · exact List.nodup_nil
    · -- no transaction behind the coinbase has an input
      have hindex : p.info.index + 1 ≠ 0 := hnext.index_eq ▸ hnext.index_ne
      have hinputs : block.txs.tail.flatMap (·.inputs) = [] := by
        rw [List.flatMap_eq_nil_iff]
        intro t ht
        by_contra hne
        obtain ⟨hashBuff, ht⟩ := exists_valid_of_mem_tail E hnext ht
        exact h p rfl hnext.prev_hash hindex hashBuff t hne ht
      rw [spentRefs, inputRefs, hinputs]
      exact List.nodup_nil

/-- A block with a double spend is accepted. -/
theorem not_noDoubleSpend :
    ¬ ∀ (stack : ℕ → Digest) (block prev : Block) (U : List UnspentTxOut),
      (U.map UnspentTxOut.ref).Nodup →
      blockIsValid sampleEnv stack block (some prev) U = .ok 0 → (spentRefs block).Nodup := by
  intro h
  have hnodup := h (fun _ => zero 32)
    (spendTwice sampleEnv genesisBlock (spendRewards [reward 1] [sampleOut 50 2])) genesisBlock
    [reward 1] (by decide +kernel) (by decide +kernel)
  exact spendTwice_not_nodup sampleEnv (by decide) hnodup

end HolbertonChain
