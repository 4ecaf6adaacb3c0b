import HolbertonChain.Block.Difficulty
import HolbertonChain.Block.Hash
import HolbertonChain.Transaction.Coinbase
import HolbertonChain.Transaction.Validity

/-!
# Block validation (`block_is_valid.c`)

`stack i` is what the local array `hash_buff` of `transaction_is_valid` holds when the loop of
`validate_transactions` checks the transaction at index `i`.

The functions take `transaction_hash` as a parameter, since C leaves open what comes of a size that
is no `int`: `blockIsValidWith` says what they do whatever that is, and in `blockIsValid` it is a
fault.
-/

namespace HolbertonChain

variable {κ : Type} (E : Env κ)

section With

variable (txHash : Transaction → Exec (Option Digest)) (stack : ℕ → Digest)

/-- The loop of `validate_transactions` after the first transaction. -/
def validateRestWith (unspent : List UnspentTxOut) : ℕ → List Transaction → Exec Bool
  | _, [] => pure true
  | i, t :: ts => do
    if ← transactionIsValidWith E txHash (stack i) t unspent then
      validateRestWith unspent (i + 1) ts
    else
      pure false

/-- `validate_transactions`: whether it returns 0. -/
def validateTransactionsWith (block : Block) (unspent : List UnspentTxOut) : Exec Bool :=
  match block.txs with
  | [] => pure false
  | coinbase :: ts => do
    if ← coinbaseIsValidWith E txHash coinbase block.info.index then
      validateRestWith E txHash stack unspent 1 ts
    else
      pure false

/-- `block_is_valid`: 0 for a valid block.  `none` as previous block is `NULL`.  The comparison of
a block of index 0 with the genesis block is one of all fields; the sign of a nonzero `memcmp` is
not specified and shown as 1. -/
def blockIsValidWith (block : Block) (prevBlock : Option Block) (allUnspent : List UnspentTxOut) :
    Exec ℕ :=
  if prevBlock.isNone ∧ block.info.index ≠ 0 then pure 1
  else if block.info.index = 0 then pure (if block = genesisBlock then 0 else 1)
  else
    match prevBlock with
    | none => pure 1
    | some prev =>
      if block.info.index ≠ prev.info.index + 1 then pure 1
      else do
        -- `NULL` is turned away like another hash than the stored one
        let hash ← blockHash E prev
        if hash ≠ some prev.hash then pure 1
        else if prev.hash ≠ block.info.prevHash then pure 1
        else
          -- the block is hashed before its `data.len` is compared with the size of the buffer
          let hash ← blockHash E block
          if hash ≠ some block.hash then pure 1
          else if 1024 < block.data.len then pure 1
          else if !(← hashMatchesDifficulty block.hash block.info.difficulty) then pure 1
          else if !(← validateTransactionsWith E txHash stack block allUnspent) then pure 1
          else pure 0

end With

/-- The loop of `validate_transactions` with `transactionHash` -/
def validateRest (stack : ℕ → Digest) (unspent : List UnspentTxOut) (i : ℕ)
    (ts : List Transaction) : Exec Bool :=
  validateRestWith E (transactionHash E) stack unspent i ts

/-- `validate_transactions` -/
def validateTransactions (stack : ℕ → Digest) (block : Block) (unspent : List UnspentTxOut) :
    Exec Bool :=
  validateTransactionsWith E (transactionHash E) stack block unspent

/-- `block_is_valid` -/
def blockIsValid (stack : ℕ → Digest) (block : Block) (prevBlock : Option Block)
    (allUnspent : List UnspentTxOut) : Exec ℕ :=
  blockIsValidWith E (transactionHash E) stack block prevBlock allUnspent

/-! ### First properties -/

theorem validateRest_cons (stack : ℕ → Digest) (U : List UnspentTxOut) (i : ℕ) (t : Transaction)
    (ts : List Transaction) :
    validateRest E stack U i (t :: ts) = (do
      if ← transactionIsValid E (stack i) t U then validateRest E stack U (i + 1) ts
      else pure false) := rfl

theorem validateTransactions_of_txs_eq {block : Block} {coinbase : Transaction}
    {ts : List Transaction} (h : block.txs = coinbase :: ts) (stack : ℕ → Digest)
    (U : List UnspentTxOut) :
    validateTransactions E stack block U = (do
      if ← coinbaseIsValid E coinbase block.info.index then validateRest E stack U 1 ts
      else pure false) := by
  unfold validateTransactions validateTransactionsWith
  rw [h]
  rfl

/-- The loop accepts exactly when it accepts each transaction, each with its own stack. -/
theorem validateRest_eq_true_iff {stack : ℕ → Digest} {U : List UnspentTxOut} {i : ℕ}
    {ts : List Transaction} :
    validateRest E stack U i ts = .ok true ↔
      ∀ k t, ts[k]? = some t → transactionIsValid E (stack (i + k)) t U = .ok true := by
  induction ts generalizing i with
  | nil => simp [validateRest, validateRestWith]
  | cons t ts ih =>
    rw [validateRest_cons, Except.bind_eq_ok_iff]
    constructor
    · rintro ⟨valid, hvalid, h⟩ k t' hk
      cases valid with
      | false => cases h
      | true =>
        cases k with
        | zero =>
          obtain rfl := Option.some.inj hk
          exact hvalid
        | succ k =>
          have hrest := ih.mp h k t' hk
          rwa [Nat.add_right_comm, Nat.add_assoc] at hrest
    · intro h
      refine ⟨true, h 0 t rfl, ih.mpr fun k t' hk => ?_⟩
      have hrest := h (k + 1) t' hk
      rwa [Nat.add_comm k 1, ← Nat.add_assoc] at hrest

theorem validateTransactions_eq_true_iff {stack : ℕ → Digest} {block : Block}
    {U : List UnspentTxOut} :
    validateTransactions E stack block U = .ok true ↔
      ∃ coinbase ts, block.txs = coinbase :: ts ∧
        coinbaseIsValid E coinbase block.info.index = .ok true ∧
        ∀ k t, ts[k]? = some t → transactionIsValid E (stack (1 + k)) t U = .ok true := by
  unfold validateTransactions validateTransactionsWith
  cases htxs : block.txs with
  | nil => simp
  | cons coinbase ts =>
    simp only [Except.bind_eq_ok_iff, List.cons.injEq]
    constructor
    · rintro ⟨valid, hvalid, h⟩
      cases valid with
      | false => cases h
      | true => exact ⟨coinbase, ts, ⟨rfl, rfl⟩, hvalid, (validateRest_eq_true_iff E).mp h⟩
    · rintro ⟨coinbase', ts', ⟨rfl, rfl⟩, hvalid, h⟩
      exact ⟨true, hvalid, (validateRest_eq_true_iff E).mpr h⟩

/-- Every check a block behind another one passes. -/
structure IsNext (stack : ℕ → Digest) (block prev : Block) (U : List UnspentTxOut) : Prop where
  index_ne : block.info.index ≠ 0
  index_eq : block.info.index = prev.info.index + 1
  prev_hash : blockHash E prev = .ok (some prev.hash)
  prevHash_eq : block.info.prevHash = prev.hash
  hash_eq : blockHash E block = .ok (some block.hash)
  len_le : block.data.len.toNat ≤ 1024
  difficulty : hashMatchesDifficulty block.hash block.info.difficulty = .ok true
  transactions : validateTransactions E stack block U = .ok true

/-- A check of `block_is_valid`: a block that fails it is not valid. -/
theorem check_eq_zero_iff {c : Prop} [Decidable c] {x : Exec ℕ} :
    (if c then pure 1 else x) = .ok 0 ↔ ¬ c ∧ x = .ok 0 := by
  by_cases h : c <;> simp [h]

/-- A block is valid if it is the genesis block, or if it has a previous block and passes every
check against it. -/
theorem blockIsValid_eq_zero_iff {stack : ℕ → Digest} {block : Block} {prev : Option Block}
    {U : List UnspentTxOut} :
    blockIsValid E stack block prev U = .ok 0 ↔
      block = genesisBlock ∨ ∃ p, prev = some p ∧ IsNext E stack block p U := by
  unfold blockIsValid blockIsValidWith
  -- index 0 is for the genesis block alone, and every other index for a block behind another one
  by_cases hindex : block.info.index = 0
  · have hnext : ¬ ∃ p, prev = some p ∧ IsNext E stack block p U :=
      fun ⟨_, _, h⟩ => h.index_ne hindex
    rw [if_neg (fun h => h.2 hindex), if_pos hindex, or_iff_left hnext]
    by_cases hgenesis : block = genesisBlock <;> simp [hgenesis]
  · have hgenesis : block ≠ genesisBlock := fun h => hindex (h ▸ rfl)
    rw [or_iff_right hgenesis]
    cases prev with
    | none => simp [hindex]
    | some p =>
      rw [if_neg (by simp), if_neg hindex]
      -- the checks in turn, each of which must not return
      simp only [check_eq_zero_iff, Except.bind_eq_ok_iff, not_not]
      constructor
      · rintro ⟨hnext, hash, hprev, hstored, hlink, hash', hblock, hself, hlen, matches', hmatches,
          hdifficulty, valid, hvalid, htransactions, -⟩
        refine ⟨p, rfl, hindex, hnext, by rw [hprev, hstored], hlink.symm, by rw [hblock, hself],
          ?_, ?_, ?_⟩
        · simpa [UInt32.lt_iff_toNat_lt] using hlen
        · have htrue : matches' = true := by simpa using hdifficulty
          rw [hmatches, htrue]
        · have htrue : valid = true := by simpa using htransactions
          rw [htrue] at hvalid
          exact hvalid
      · rintro ⟨p', hp', h⟩
        obtain rfl := Option.some.inj hp'
        refine ⟨h.index_eq, some p.hash, h.prev_hash, rfl, h.prevHash_eq.symm, some block.hash,
          h.hash_eq, rfl, ?_, true, h.difficulty, by simp, true, h.transactions, by simp, rfl⟩
        simpa [UInt32.lt_iff_toNat_lt] using h.len_le

/-! ### Validation comes to an end -/

theorem exists_transactionIsValid {t : Transaction} (ht : bufferSize t ≤ intMax) (hashBuff : Digest)
    (U : List UnspentTxOut) : ∃ valid, transactionIsValid E hashBuff t U = .ok valid := by
  obtain ⟨r, hr⟩ : ∃ r, transactionHash E t = .ok r := by
    unfold transactionHash
    rw [if_neg (Nat.not_lt.mpr ht)]
    split_ifs
    · exact ⟨_, rfl⟩
    · exact ⟨_, rfl⟩
  unfold transactionIsValid transactionIsValidWith
  rw [hr, Except.ok_bind]
  split_ifs
  · exact ⟨_, rfl⟩
  · split
    · exact ⟨_, rfl⟩
    · exact ⟨_, rfl⟩

theorem exists_validateRest {ts : List Transaction} (hts : ∀ t ∈ ts, bufferSize t ≤ intMax)
    (stack : ℕ → Digest) (U : List UnspentTxOut) (i : ℕ) :
    ∃ valid, validateRest E stack U i ts = .ok valid := by
  induction ts generalizing i with
  | nil => exact ⟨true, rfl⟩
  | cons t ts ih =>
    rw [List.forall_mem_cons] at hts
    obtain ⟨valid, hvalid⟩ := exists_transactionIsValid E hts.1 (stack i) U
    rw [validateRest_cons, hvalid, Except.ok_bind]
    cases valid with
    | true => exact ih hts.2 (i + 1)
    | false => exact ⟨false, rfl⟩

/-- A check of `block_is_valid` comes to an end if the checks behind it do. -/
theorem exists_check {c : Prop} [Decidable c] {x : Exec ℕ} (h : ∃ code, x = .ok code) :
    ∃ code, (if c then pure 1 else x) = .ok code := by
  by_cases hc : c
  · exact ⟨1, by rw [if_pos hc]; rfl⟩
  · rw [if_neg hc]
    exact h

/-- A block is found to be valid or not, where hashing it and the block in front, testing its
difficulty and validating its transactions come to an end. -/
theorem exists_blockIsValid {stack : ℕ → Digest} {block prev : Block} {U : List UnspentTxOut}
    {hash hash' : Option Digest} {matches' valid : Bool} (hprev : blockHash E prev = .ok hash)
    (hblock : blockHash E block = .ok hash')
    (hmatches : hashMatchesDifficulty block.hash block.info.difficulty = .ok matches')
    (hvalid : validateTransactions E stack block U = .ok valid) :
    ∃ code, blockIsValid E stack block (some prev) U = .ok code := by
  unfold validateTransactions at hvalid
  unfold blockIsValid blockIsValidWith
  simp only [hprev, hblock, hmatches, hvalid, Except.ok_bind]
  apply exists_check
  by_cases hindex : block.info.index = 0
  · rw [if_pos hindex]
    exact ⟨_, rfl⟩
  · rw [if_neg hindex]
    -- the seven checks against the block in front
    repeat apply exists_check
    exact ⟨0, rfl⟩

end HolbertonChain
