import HolbertonChain.Transaction.Hash

/-!
# Transaction validation (`transaction_is_valid.c`)
-/

namespace HolbertonChain

variable {κ : Type} (E : Env κ)

/-- `in_out_match`: the three fields of the reference, compared in full. -/
def inOutMatch (txInput : TxIn) (utxo : UnspentTxOut) : Bool :=
  if txInput.txOutHash ≠ utxo.out.hash then false
  else if txInput.txId ≠ utxo.txId then false
  else if txInput.blockHash ≠ utxo.blockHash then false
  else true

/-- The loop of `transaction_is_valid` over the inputs: the first matching unspent output is
found, the signature is verified under its key, and its amount is added to `amountIn` modulo
`2 ^ 32`.  `none` is one of the two early `return (0)`. -/
def checkInputs (id : Digest) (allUnspent : List UnspentTxOut) :
    List TxIn → UInt32 → Option UInt32
  | [], amountIn => some amountIn
  | i :: is, amountIn =>
    -- every input is looked up in the whole list: what another input matched is still there
    match allUnspent.find? (inOutMatch i) with
    | none => none
    | some utxo =>
      if ecVerify E (ecFromPub E utxo.out.pub) id i.sig then
        checkInputs id allUnspent is (amountIn + utxo.out.amount)
      else none

/-- The total of the outputs, accumulated modulo `2 ^ 32`. -/
def amountOut (outs : List TxOut) : UInt32 := outs.foldl (fun acc o => acc + o.amount) 0

/-- `transaction_is_valid`, with `transaction_hash` as a parameter.  `hashBuff` is what the local
array of that name holds before `transaction_hash` writes it; the call's return value is not looked
at, so where it returns `NULL` the stored ID is compared with `hashBuff`. -/
def transactionIsValidWith (txHash : Transaction → Exec (Option Digest)) (hashBuff : Digest)
    (t : Transaction) (allUnspent : List UnspentTxOut) : Exec Bool := do
  let hash ← txHash t
  if t.id ≠ hash.getD hashBuff then
    pure false
  else
    match checkInputs E t.id allUnspent t.inputs 0 with
    | none => pure false
    | some amountIn => pure (amountIn == amountOut t.outputs)

/-- `transaction_is_valid` -/
def transactionIsValid (hashBuff : Digest) (t : Transaction) (allUnspent : List UnspentTxOut) :
    Exec Bool :=
  transactionIsValidWith E (transactionHash E) hashBuff t allUnspent

/-! ### First properties -/

theorem inOutMatch_eq_true_iff {i : TxIn} {u : UnspentTxOut} :
    inOutMatch i u = true ↔ i.ref = u.ref := by
  unfold inOutMatch
  split_ifs with h1 h2 h3 <;> simp_all [TxIn.ref, UnspentTxOut.ref]

/-- The unspent outputs the inputs match: for each input the first one with its reference. -/
def matched (allUnspent : List UnspentTxOut) (is : List TxIn) : List UnspentTxOut :=
  is.filterMap fun i => allUnspent.find? (inOutMatch i)

/-- What it takes to pass the loop over the inputs: every input refers to an unspent output and
is signed under its key; the accumulator then holds the matched amounts modulo `2 ^ 32`. -/
theorem checkInputs_eq_some_iff {id : Digest} {U : List UnspentTxOut} {is : List TxIn}
    {acc amountIn : UInt32} :
    checkInputs E id U is acc = some amountIn ↔
      (∀ i ∈ is, ∃ u, U.find? (inOutMatch i) = some u ∧
        ecVerify E (ecFromPub E u.out.pub) id i.sig = true) ∧
      amountIn = (matched U is).foldl (fun acc u => acc + u.out.amount) acc := by
  induction is generalizing acc with
  | nil =>
    rw [checkInputs, matched, List.filterMap_nil, List.foldl_nil, Option.some.injEq]
    exact ⟨fun h => ⟨by simp, h.symm⟩, fun h => h.2.symm⟩
  | cons i is ih =>
    rw [checkInputs]
    cases hfind : U.find? (inOutMatch i) with
    | none => simp [hfind]
    | some u =>
      have hmatched : matched U (i :: is) = u :: matched U is := by
        rw [matched, List.filterMap_cons, hfind, matched]
      by_cases hsig : ecVerify E (ecFromPub E u.out.pub) id i.sig = true
      · simp only [hsig, if_true, ih, hmatched, List.foldl_cons, List.forall_mem_cons]
        constructor
        · rintro ⟨hall, hsum⟩
          exact ⟨⟨⟨u, hfind, hsig⟩, hall⟩, hsum⟩
        · rintro ⟨⟨-, hall⟩, hsum⟩
          exact ⟨hall, hsum⟩
      · simp only [hsig, Bool.false_eq_true, if_false, reduceCtorEq, false_iff, not_and,
          List.forall_mem_cons, and_imp]
        rintro ⟨u', hu', hsig'⟩
        rw [hfind] at hu'
        rw [Option.some.inj hu'] at hsig
        exact absurd hsig' hsig

/-- Every check of an accepted transaction, at once. -/
theorem transactionIsValid_eq_true_iff {hashBuff : Digest} {t : Transaction}
    {U : List UnspentTxOut} :
    transactionIsValid E hashBuff t U = .ok true ↔
      (∃ r, transactionHash E t = .ok r ∧ t.id = r.getD hashBuff) ∧
      (∀ i ∈ t.inputs, ∃ u, U.find? (inOutMatch i) = some u ∧
        ecVerify E (ecFromPub E u.out.pub) t.id i.sig = true) ∧
      (matched U t.inputs).foldl (fun acc u => acc + u.out.amount) 0 = amountOut t.outputs := by
  unfold transactionIsValid transactionIsValidWith
  rw [Except.bind_eq_ok_iff]
  constructor
  · rintro ⟨r, hr, h⟩
    split_ifs at h with hid
    · cases h
    · cases hsum : checkInputs E t.id U t.inputs 0 with
      | none => simp [hsum] at h
      | some amountIn =>
        obtain ⟨hall, hacc⟩ := (checkInputs_eq_some_iff E).mp hsum
        simp only [hsum, Except.pure_eq_ok, Except.ok.injEq, beq_iff_eq] at h
        exact ⟨⟨r, hr, not_not.mp hid⟩, hall, by rw [← hacc, h]⟩
  · rintro ⟨⟨r, hr, hid⟩, hall, hsum⟩
    refine ⟨r, hr, ?_⟩
    rw [if_neg (not_not.mpr hid), (checkInputs_eq_some_iff E).mpr ⟨hall, rfl⟩]
    simp [hsum]

/-- Validity depends on the list of unspent outputs only through what the inputs find in it. -/
theorem transactionIsValid_of_find? {t : Transaction} {U W : List UnspentTxOut}
    (h : ∀ i ∈ t.inputs, W.find? (inOutMatch i) = U.find? (inOutMatch i)) (hashBuff : Digest) :
    transactionIsValid E hashBuff t W = transactionIsValid E hashBuff t U := by
  have hcheck : ∀ (is : List TxIn) (acc : UInt32), is ⊆ t.inputs →
      checkInputs E t.id W is acc = checkInputs E t.id U is acc := by
    intro is
    induction is with
    | nil => exact fun acc _ => rfl
    | cons i is ih =>
      intro acc hsub
      obtain ⟨hi, his⟩ := List.cons_subset.mp hsub
      rw [checkInputs, checkInputs, h i hi]
      cases U.find? (inOutMatch i) with
      | none => rfl
      | some u =>
        dsimp only
        rw [ih _ his]
  unfold transactionIsValid transactionIsValidWith
  rw [hcheck _ _ (List.Subset.refl _)]

/-- What is left in `hash_buff` matters to no transaction with an input or an output. -/
theorem transactionIsValid_congr {t : Transaction} (ht : bufferSize t ≠ 0)
    (hashBuff hashBuff' : Digest) (U : List UnspentTxOut) :
    transactionIsValid E hashBuff t U = transactionIsValid E hashBuff' t U := by
  have hhash : transactionHash E t = .error .intOverflow ∨
      transactionHash E t = .ok (some (E.sha256 (transactionPreimage t))) := by
    unfold transactionHash
    rw [if_neg ht]
    split_ifs
    · exact Or.inl rfl
    · exact Or.inr rfl
  unfold transactionIsValid transactionIsValidWith
  rcases hhash with h | h <;> rw [h] <;> rfl

end HolbertonChain
