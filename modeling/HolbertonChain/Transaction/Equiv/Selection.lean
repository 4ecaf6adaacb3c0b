import HolbertonChain.Sample
import HolbertonChain.Transaction.Equiv.Create

/-!
# When coins are found

`transaction_create` refuses to pay an amount that the running total of the unspent outputs it
selects never reaches.  The total is a 32-bit one, so it may pass the amount and wrap around below
it, and `used_in_pool` compares four bytes of each field, so it may pass over outputs that the pool
does not use.  A transaction is created exactly when at some point the total, modulo `2 ^ 32`, is
at least the amount (`transactionCreate_complete_iff`), which is always so where the pool is told
apart from what is left and the sender has less than `2 ^ 32` coins
(`transactionCreate_of_total_lt`).
-/

namespace HolbertonChain

open Bytes WrapSum

variable {κ : Type} (E : Env κ)

/-- The unspent outputs of a key that no input of the pool refers to. -/
def spendable (pub : Pub) (txPool : List Transaction) (U : List UnspentTxOut) :
    List UnspentTxOut :=
  U.filter fun u => u.out.pub = pub ∧ u.ref ∉ inputRefs txPool

/-! ### The running total -/

/-- The loop ends with enough exactly when the total is enough at some point. -/
theorem le_selectLoop_iff {pub : Pub} {txPool : List Transaction} {amount : UInt32}
    {U : List UnspentTxOut} {acc : List TxIn × UInt32} (hacc : acc.2 < amount) :
    amount ≤ (selectLoop pub txPool amount U acc).2 ↔
      ∃ k, amount ≤ ((U.filter (isSelected pub txPool)).take k).foldl
        (fun acc u => acc + u.out.amount) acc.2 := by
  induction U generalizing acc with
  | nil => simp [selectLoop]
  | cons u U ih =>
    rw [selectLoop]
    by_cases hu : isSelected pub txPool u = true
    · rw [List.filter_cons_of_pos hu, selectUnspentIn_of_selected hu]
      dsimp only
      split_ifs with henough
      · exact iff_of_true henough ⟨1, by simpa using henough⟩
      · rw [ih (UInt32.not_le.mp henough)]
        constructor
        · rintro ⟨k, hk⟩
          exact ⟨k + 1, by simpa using hk⟩
        · rintro ⟨k, hk⟩
          cases k with
          | zero => exact absurd hk (UInt32.not_le.mpr hacc)
          | succ k => exact ⟨k, by simpa using hk⟩
    · rw [List.filter_cons_of_neg hu, selectUnspentIn_of_not_selected hu,
        if_neg (UInt32.not_le.mpr hacc), ih hacc]

/-! ### What is created -/

/-- Signing comes to an end, since there is an unspent output to look at. -/
theorem exists_signTransactionInputs {U : List UnspentTxOut} (hne : U ≠ []) (txId : Digest)
    (sender : κ) (rnd : ℕ → ℕ) (is : List TxIn) (idx : ℕ) :
    ∃ is', signTransactionInputs E txId sender U rnd is idx = .ok is' := by
  induction is generalizing idx with
  | nil => exact ⟨[], rfl⟩
  | cons i is ih =>
    obtain ⟨⟨ok, i'⟩, hi⟩ : ∃ r, txInSign E i txId sender U (rnd idx) = .ok r := by
      unfold txInSign
      rw [if_neg hne]
      split
      · exact ⟨_, rfl⟩
      · split_ifs
        · exact ⟨_, rfl⟩
        · exact ⟨_, rfl⟩
    obtain ⟨rest, hrest⟩ := ih (idx + 1)
    rw [signTransactionInputs, hi, Except.ok_bind]
    dsimp only
    split_ifs
    · rw [hrest, Except.ok_bind]
      exact ⟨_, rfl⟩
    · exact ⟨_, rfl⟩

/-- Where hashing succeeds, a transaction over more than nothing is created exactly when the loop
selects enough. -/
theorem exists_transactionCreate_iff {pubBuff : Pub} {rnd : ℕ → ℕ} {sender receiver : κ}
    {amount : UInt32} {U : List UnspentTxOut} {txPool : List Transaction} (hamount : amount ≠ 0)
    (hhash : ∀ t : Transaction, t.inputs.length ≤ U.length → t.outputs.length ≤ 2 →
      ∃ r, transactionHash E t = .ok r) :
    (∃ t, transactionCreate E pubBuff rnd (some sender) (some receiver) amount U txPool =
        .ok (some t)) ↔
      amount ≤ (selectLoop ((ecToPub E sender).getD pubBuff) txPool amount U ([], 0)).2 := by
  constructor
  · rintro ⟨t, h⟩
    obtain ⟨s, r, selected, hs, -, hc⟩ := exists_isCreated E h
    obtain rfl := Option.some.inj hs
    rw [hc.loop_eq]
    exact hc.amount_le
  · intro henough
    obtain ⟨selected, hsub, hloop⟩ :=
      exists_selected ((ecToPub E sender).getD pubBuff) txPool amount U
    rw [hloop] at henough
    have hne : U ≠ [] := by
      rintro rfl
      have hnil : selected = [] := List.sublist_nil.mp hsub
      rw [hnil] at henough
      exact hamount (UInt32.le_zero_iff.mp henough)
    have hback : amount.toInt32.toUInt32 = amount := UInt32.toUInt32_toInt32 amount
    have hpaid : sendAmount E pubBuff sender receiver amount.toInt32 (selectedAmount selected) =
        some (paidOutputs E amount (selectedAmount selected) ((ecToPub E receiver).getD pubBuff)
          ((ecToPub E sender).getD pubBuff)) := by
      rw [sendAmount_eq_some_iff, hback]
      exact ⟨hamount, rfl⟩
    obtain ⟨r, hr⟩ := hhash
      { id := zero 32, inputs := selected.map txInCreate
        outputs := paidOutputs E amount (selectedAmount selected)
          ((ecToPub E receiver).getD pubBuff) ((ecToPub E sender).getD pubBuff) }
      (by simpa using (hsub.trans List.filter_sublist).length_le) (length_paidOutputs_le E _ _ _ _)
    obtain ⟨signed, hsigned⟩ := exists_signTransactionInputs E hne (r.getD (zero 32)) sender rnd
      (selected.map txInCreate) 0
    unfold transactionCreate
    simp only [hloop, if_neg (UInt32.not_lt.mpr henough), hpaid, hr, Except.ok_bind, hsigned]
    exact ⟨_, rfl⟩

/-! ### Completeness -/

section Completeness

variable {E} {pubBuff : Pub} {rnd : ℕ → ℕ} {sender receiver : κ} {pub : Pub} {amount : UInt32}
  {U : List UnspentTxOut} {txPool : List Transaction}

/-- Where hashing succeeds, a transaction is created whenever the sender's unspent outputs that the
pool does not use hold the amount, if and only if they do not hold it or the total of those that
`used_in_pool` lets through, modulo `2 ^ 32`, is at least the amount at some point. -/
theorem transactionCreate_complete_iff (hpub : ecToPub E sender = some pub) (hamount : amount ≠ 0)
    (hhash : ∀ t : Transaction, t.inputs.length ≤ U.length → t.outputs.length ≤ 2 →
      ∃ r, transactionHash E t = .ok r) :
    (amount.toNat ≤ total (fun u : UnspentTxOut => u.out.amount) (spendable pub txPool U) →
        ∃ t, transactionCreate E pubBuff rnd (some sender) (some receiver) amount U txPool =
          .ok (some t)) ↔
      total (fun u : UnspentTxOut => u.out.amount) (spendable pub txPool U) < amount.toNat ∨
        ∃ k, amount.toNat ≤ total (fun u : UnspentTxOut => u.out.amount)
          ((U.filter (isSelected pub txPool)).take k) % 2 ^ 32 := by
  have hpos : (0 : UInt32) < amount := UInt32.pos_iff_ne_zero.mpr hamount
  rw [exists_transactionCreate_iff E hamount hhash, hpub, Option.getD_some, le_selectLoop_iff hpos]
  simp only [UInt32.le_iff_toNat_le, toNat_foldl_add, UInt32.toNat_zero, Nat.zero_add]
  rw [imp_iff_not_or, Nat.not_le]

/-- Nothing goes wrong where `used_in_pool` is right about the sender's unspent outputs and the
sender has less than `2 ^ 32` coins. -/
theorem transactionCreate_of_total_lt (hpub : ecToPub E sender = some pub) (hamount : amount ≠ 0)
    (hhash : ∀ t : Transaction, t.inputs.length ≤ U.length → t.outputs.length ≤ 2 →
      ∃ r, transactionHash E t = .ok r)
    (hused : ∀ u ∈ U, u.out.pub = pub → usedInPool txPool u = true → u.ref ∈ inputRefs txPool)
    (hlt : total (fun u : UnspentTxOut => u.out.amount) (spendable pub txPool U) < 2 ^ 32)
    (hle : amount.toNat ≤
      total (fun u : UnspentTxOut => u.out.amount) (spendable pub txPool U)) :
    ∃ t, transactionCreate E pubBuff rnd (some sender) (some receiver) amount U txPool =
      .ok (some t) := by
  refine (transactionCreate_complete_iff hpub hamount hhash).mpr (Or.inr ?_) hle
  have hsame : U.filter (isSelected pub txPool) = spendable pub txPool U := by
    apply List.filter_congr
    intro u hu
    by_cases hown : u.out.pub = pub
    · have hiff : usedInPool txPool u = true ↔ u.ref ∈ inputRefs txPool :=
        ⟨hused u hu hown, usedInPool_of_mem⟩
      by_cases hmem : u.ref ∈ inputRefs txPool
      · simp [isSelected, hmem, hiff.mpr hmem]
      · have hfree : usedInPool txPool u = false := by simpa [hmem] using hiff
        simp [isSelected, hown, hmem, hfree]
    · simp [isSelected, hown]
  -- all of them together are enough, and do not wrap around
  refine ⟨(spendable pub txPool U).length, ?_⟩
  rw [hsame, List.take_length, Nat.mod_eq_of_lt hlt]
  exact hle

end Completeness

/-! ### An output that is passed over -/

/-- A transaction that spends an output like `reward 1` of another block, whose hash has the same
first four bytes. -/
def lookalike : Transaction :=
  spendRewards [{ reward 1 with blockHash := ofList 32 [1, 0, 0, 0, 1] }] [sampleOut 50 2]

theorem transactionHash_of_length_le_one (t : Transaction) (hin : t.inputs.length ≤ 1)
    (hout : t.outputs.length ≤ 2) : ∃ r, transactionHash sampleEnv t = .ok r := by
  have hsize : ¬ intMax < bufferSize t := by
    unfold bufferSize intMax
    omega
  unfold transactionHash
  rw [if_neg hsize]
  split_ifs
  · exact ⟨_, rfl⟩
  · exact ⟨_, rfl⟩

/-- With an empty pool 10 coins of a reward are sent; with `lookalike` in it they are not. -/
theorem lookalike_complete_iff :
    (∃ t, transactionCreate sampleEnv (zero 65) (fun _ => 0) (some 1) (some 2) 10 [reward 1] [] =
      .ok (some t)) ∧
    (((10 : UInt32).toNat ≤ total (fun u : UnspentTxOut => u.out.amount)
          (spendable (samplePub 1) [lookalike] [reward 1]) →
        ∃ t, transactionCreate sampleEnv (zero 65) (fun _ => 0) (some 1) (some 2) 10 [reward 1]
          [lookalike] = .ok (some t)) ↔
      total (fun u : UnspentTxOut => u.out.amount)
            (spendable (samplePub 1) [lookalike] [reward 1]) < (10 : UInt32).toNat ∨
        ∃ k, (10 : UInt32).toNat ≤ total (fun u : UnspentTxOut => u.out.amount)
          (([reward 1].filter (isSelected (samplePub 1) [lookalike])).take k) % 2 ^ 32) := by
  have hpub : ecToPub sampleEnv 1 = some (samplePub 1) := by decide +kernel
  constructor
  · refine (transactionCreate_complete_iff (U := [reward 1]) hpub (by decide)
      transactionHash_of_length_le_one).mpr (Or.inr ⟨1, ?_⟩) ?_
    all_goals decide +kernel
  · exact transactionCreate_complete_iff hpub (by decide) transactionHash_of_length_le_one

/-- Coins that the pool does not use can be refused. -/
theorem not_transactionCreate_complete :
    ¬ ∀ (sender receiver : ℕ) (pub pubBuff : Pub) (rnd : ℕ → ℕ) (amount : UInt32)
      (U : List UnspentTxOut) (txPool : List Transaction),
      ecToPub sampleEnv sender = some pub → amount ≠ 0 →
      (∀ t : Transaction, t.inputs.length ≤ U.length → t.outputs.length ≤ 2 →
        ∃ r, transactionHash sampleEnv t = .ok r) →
      amount.toNat ≤ total (fun u : UnspentTxOut => u.out.amount) (spendable pub txPool U) →
      ∃ t, transactionCreate sampleEnv pubBuff rnd (some sender) (some receiver) amount U txPool =
        .ok (some t) := by
  intro h
  obtain ⟨t, ht⟩ := h 1 2 (samplePub 1) (zero 65) (fun _ => 0) 10 [reward 1] [lookalike]
    (by decide +kernel) (by decide) transactionHash_of_length_le_one (by decide +kernel)
  have hnone : transactionCreate sampleEnv (zero 65) (fun _ => 0) (some 1) (some 2) 10 [reward 1]
      [lookalike] = .ok none := by
    decide +kernel
  rw [hnone] at ht
  cases ht

end HolbertonChain
