import HolbertonChain.Lib.FixedWidth
import HolbertonChain.Sample
import HolbertonChain.Transaction.Validity

/-!
# What a transaction ID commits to

The ID of an accepted transaction is the digest of the references of its inputs followed by the
stored hashes of its outputs, with no count between them, and no check ties a stored hash to the
amount and the receiver of its output.  So of two accepted transactions with one ID the references
and the payments agree exactly when the numbers of inputs and of outputs do, and outputs with equal
stored hashes at one place make one payment (`transactionIsValid_commits_iff`).
-/

namespace HolbertonChain

open Bytes FixedWidth

variable {κ : Type} (E : Env κ)

/-- What an output pays, and to whom. -/
def TxOut.payment (o : TxOut) : UInt32 × Pub := (o.amount, o.pub)

/-- The references of the inputs of a transaction. -/
def Transaction.refs (t : Transaction) : List OutRef := t.inputs.map TxIn.ref

/-- The payments of a transaction. -/
def Transaction.payments (t : Transaction) : List (UInt32 × Pub) := t.outputs.map TxOut.payment

/-! ### The preimage -/

/-- Cut at the same place, a preimage gives back the references and the stored hashes. -/
theorem refs_and_hashes_of_transactionPreimage_eq {t t' : Transaction}
    (hlen : t.inputs.length = t'.inputs.length)
    (h : transactionPreimage t = transactionPreimage t') :
    t.refs = t'.refs ∧ t.outputs.map TxOut.hash = t'.outputs.map TxOut.hash := by
  obtain ⟨hin, hout⟩ := map_eq_map_of_append_flatMap_eq length_inputs length_outputs
    (by decide) (by decide) hlen h
  constructor
  · exact map_eq_map_of_map_eq_map (fun _ _ hij => inputs_eq_inputs_iff.mp hij) hin
  · exact map_eq_map_of_map_eq_map (fun _ _ hoo => toList_injective hoo) hout

/-- The ID of an accepted transaction that is not empty is the digest of its preimage. -/
theorem id_eq_of_transactionIsValid {hashBuff : Digest} {t : Transaction} {U : List UnspentTxOut}
    (h : transactionIsValid E hashBuff t U = .ok true) (hne : bufferSize t ≠ 0) :
    t.id = E.sha256 (transactionPreimage t) := by
  obtain ⟨⟨r, hr, hid⟩, -⟩ := (transactionIsValid_eq_true_iff E).mp h
  -- `transaction_hash` returns `NULL` for an empty transaction only
  obtain ⟨-, ⟨h0, -⟩ | ⟨-, hsome⟩⟩ := (transactionHash_eq_ok_iff E).mp hr
  · exact absurd h0 hne
  · rw [hid, hsome, Option.getD_some]

/-- Accepted transactions with one ID and equally many inputs and outputs have one preimage, where
SHA-256 has no collision between the two. -/
theorem transactionPreimage_eq_of_id_eq {hashBuff hashBuff' : Digest} {t t' : Transaction}
    {U : List UnspentTxOut} (h : transactionIsValid E hashBuff t U = .ok true)
    (h' : transactionIsValid E hashBuff' t' U = .ok true) (hid : t.id = t'.id)
    (hsha : Set.InjOn E.sha256 {transactionPreimage t, transactionPreimage t'})
    (hin : t.inputs.length = t'.inputs.length) (hout : t.outputs.length = t'.outputs.length) :
    transactionPreimage t = transactionPreimage t' := by
  have hsize : bufferSize t = bufferSize t' := by rw [bufferSize, bufferSize, hin, hout]
  by_cases h0 : bufferSize t = 0
  · -- both are empty
    have hnil : ∀ s : Transaction, bufferSize s = 0 → transactionPreimage s = [] := by
      intro s hs
      rw [← List.length_eq_zero_iff, length_transactionPreimage, hs]
    rw [hnil t h0, hnil t' (hsize ▸ h0)]
  · have hdigest : E.sha256 (transactionPreimage t) = E.sha256 (transactionPreimage t') := by
      rw [← id_eq_of_transactionIsValid E h h0, hid,
        id_eq_of_transactionIsValid E h' (hsize ▸ h0)]
    exact hsha (by simp) (by simp) hdigest

/-! ### The whole transaction -/

/-- Outputs with the same stored hashes make the same payments exactly when at no place two
payments share a hash. -/
theorem payments_eq_iff_of_hashes_eq {outs outs' : List TxOut}
    (h : outs.map TxOut.hash = outs'.map TxOut.hash) :
    outs.map TxOut.payment = outs'.map TxOut.payment ↔
      ∀ p ∈ outs.zip outs', p.1.hash = p.2.hash → p.1.payment = p.2.payment := by
  induction outs generalizing outs' with
  | nil =>
    have hnil : outs' = [] := List.map_eq_nil_iff.mp h.symm
    simp [hnil]
  | cons o outs ih =>
    obtain ⟨o', rest, rfl, ho, hrest⟩ := List.map_eq_cons_iff.mp h.symm
    rw [List.map_cons, List.map_cons, List.cons.injEq, ih hrest.symm, List.zip_cons_cons,
      List.forall_mem_cons]
    exact and_congr_left fun _ => ⟨fun hp _ => hp, fun hp => hp ho.symm⟩

/-- Two accepted transactions with one ID have the same references and make the same payments if and
only if they have equally many inputs and outputs, and outputs with equal stored hashes at one place
make the same payment. -/
theorem transactionIsValid_commits_iff {hashBuff hashBuff' : Digest} {t t' : Transaction}
    {U : List UnspentTxOut} (h : transactionIsValid E hashBuff t U = .ok true)
    (h' : transactionIsValid E hashBuff' t' U = .ok true) (hid : t.id = t'.id)
    (hsha : Set.InjOn E.sha256 {transactionPreimage t, transactionPreimage t'}) :
    t.refs = t'.refs ∧ t.payments = t'.payments ↔
      t.inputs.length = t'.inputs.length ∧ t.outputs.length = t'.outputs.length ∧
        ∀ p ∈ t.outputs.zip t'.outputs, p.1.hash = p.2.hash → p.1.payment = p.2.payment := by
  constructor
  · rintro ⟨hrefs, hpayments⟩
    have hin : t.inputs.length = t'.inputs.length := by
      simpa [Transaction.refs] using congrArg List.length hrefs
    have hout : t.outputs.length = t'.outputs.length := by
      simpa [Transaction.payments] using congrArg List.length hpayments
    have hpre := transactionPreimage_eq_of_id_eq E h h' hid hsha hin hout
    have hhashes := (refs_and_hashes_of_transactionPreimage_eq hin hpre).2
    exact ⟨hin, hout, (payments_eq_iff_of_hashes_eq hhashes).mp hpayments⟩
  · rintro ⟨hin, hout, hplaces⟩
    have hpre := transactionPreimage_eq_of_id_eq E h h' hid hsha hin hout
    obtain ⟨hrefs, hhashes⟩ := refs_and_hashes_of_transactionPreimage_eq hin hpre
    exact ⟨hrefs, (payments_eq_iff_of_hashes_eq hhashes).mpr hplaces⟩

/-! ### Honest outputs -/

/-- The digest of a payment. -/
def paymentHash (p : UInt32 × Pub) : Digest := outHash E p.1 p.2

/-- The stored hash of an output is the digest of its own payment. -/
def TxOut.Honest (o : TxOut) : Prop := o.hash = paymentHash E o.payment

/-- Transactions whose outputs are honest are committed to by their ID, once the numbers of their
inputs and outputs agree. -/
theorem commits_of_honest {hashBuff hashBuff' : Digest} {t t' : Transaction}
    {U : List UnspentTxOut} (h : transactionIsValid E hashBuff t U = .ok true)
    (h' : transactionIsValid E hashBuff' t' U = .ok true) (hid : t.id = t'.id)
    (hsha : Set.InjOn E.sha256 {transactionPreimage t, transactionPreimage t'})
    (hin : t.inputs.length = t'.inputs.length) (hout : t.outputs.length = t'.outputs.length)
    (hhonest : ∀ o ∈ t.outputs ++ t'.outputs, o.Honest E)
    (hpay : Set.InjOn (paymentHash E) {p | ∃ o ∈ t.outputs ++ t'.outputs, o.payment = p}) :
    t.refs = t'.refs ∧ t.payments = t'.payments := by
  have hpre := transactionPreimage_eq_of_id_eq E h h' hid hsha hin hout
  obtain ⟨hrefs, hhashes⟩ := refs_and_hashes_of_transactionPreimage_eq hin hpre
  refine ⟨hrefs, (payments_eq_iff_of_hashes_eq hhashes).mpr fun p hp hsame => ?_⟩
  obtain ⟨hp1, hp2⟩ := List.of_mem_zip hp
  have hm1 : p.1 ∈ t.outputs ++ t'.outputs := List.mem_append_left _ hp1
  have hm2 : p.2 ∈ t.outputs ++ t'.outputs := List.mem_append_right _ hp2
  apply hpay ⟨p.1, hm1, rfl⟩ ⟨p.2, hm2, rfl⟩
  calc paymentHash E p.1.payment = p.1.hash := (hhonest p.1 hm1).symm
    _ = p.2.hash := hsame
    _ = paymentHash E p.2.payment := hhonest p.2 hm2

/-- The stored hashes of unspent outputs are those of their payments, and tell the payments
apart. -/
structure HonestUnspent (U : List UnspentTxOut) : Prop where
  honest : ∀ u ∈ U, u.out.Honest E
  injOn : Set.InjOn (paymentHash E) {p | ∃ u ∈ U, u.out.payment = p}

theorem HonestUnspent.payment_eq {U : List UnspentTxOut} (h : HonestUnspent E U)
    {u v : UnspentTxOut} (hu : u ∈ U) (hv : v ∈ U) (hhash : u.out.hash = v.out.hash) :
    u.out.payment = v.out.payment := by
  apply h.injOn ⟨u, hu, rfl⟩ ⟨v, hv, rfl⟩
  rw [← h.honest u hu, ← h.honest v hv, hhash]

/-! ### One signature, two receivers -/

/-- Key 1 spends a reward of 50 for an output that says it pays the key `k`, under the hash of the
output to key 2. -/
def redirected (k : ℕ) : Transaction :=
  spendRewards [reward 1] [{ sampleOut 50 2 with pub := samplePub k }]

/-- The two transactions are one to SHA-256. -/
theorem redirected_injOn :
    Set.InjOn sampleEnv.sha256
      {transactionPreimage (redirected 2), transactionPreimage (redirected 3)} := by
  have hpre : transactionPreimage (redirected 2) = transactionPreimage (redirected 3) := rfl
  rw [hpre, Set.pair_eq_singleton]
  exact Set.injOn_singleton _ _

/-- The payment to key 2 with another byte behind its signature. -/
def resigned : Transaction :=
  { redirected 2 with
    inputs := (redirected 2).inputs.map fun i =>
      { i with sig := { i.sig with sig := ofList 72 (i.sig.sig.toList.take 33 ++ [1]) } } }

/-- Three transactions are accepted under one ID: two differ in what is behind the signature and
agree in what they spend and pay, the third one has another receiver. -/
theorem redirected_commits_iff :
    (resigned.inputs ≠ (redirected 2).inputs ∧ resigned.refs = (redirected 2).refs ∧
      resigned.payments = (redirected 2).payments) ∧
    ((redirected 2).refs = (redirected 3).refs ∧ (redirected 2).payments = (redirected 3).payments ↔
      (redirected 2).inputs.length = (redirected 3).inputs.length ∧
        (redirected 2).outputs.length = (redirected 3).outputs.length ∧
        ∀ p ∈ (redirected 2).outputs.zip (redirected 3).outputs,
          p.1.hash = p.2.hash → p.1.payment = p.2.payment) := by
  have h2 : transactionIsValid sampleEnv (zero 32) (redirected 2) [reward 1] = .ok true := by
    decide +kernel
  have h2' : transactionIsValid sampleEnv (zero 32) resigned [reward 1] = .ok true := by
    decide +kernel
  have h3 : transactionIsValid sampleEnv (zero 32) (redirected 3) [reward 1] = .ok true := by
    decide +kernel
  have hpre : transactionPreimage resigned = transactionPreimage (redirected 2) := by
    decide +kernel
  refine ⟨⟨by decide +kernel, ?_⟩,
    transactionIsValid_commits_iff sampleEnv h2 h3 rfl redirected_injOn⟩
  refine (transactionIsValid_commits_iff sampleEnv h2' h2 rfl ?_).mpr ?_
  · rw [hpre, Set.pair_eq_singleton]
    exact Set.injOn_singleton _ _
  · exact ⟨List.length_map _, rfl, by decide +kernel⟩

/-- An ID does not commit to the payments. -/
theorem not_transactionIsValid_commits :
    ¬ ∀ (U : List UnspentTxOut) (hashBuff hashBuff' : Digest) (t t' : Transaction),
      Set.InjOn sampleEnv.sha256 {transactionPreimage t, transactionPreimage t'} →
      transactionIsValid sampleEnv hashBuff t U = .ok true →
      transactionIsValid sampleEnv hashBuff' t' U = .ok true → t.id = t'.id →
      t.refs = t'.refs ∧ t.payments = t'.payments := by
  intro h
  have hsame := h [reward 1] (zero 32) (zero 32) (redirected 2) (redirected 3) redirected_injOn
    (by decide +kernel) (by decide +kernel) rfl
  have hpubs : (redirected 2).payments = (redirected 3).payments := hsame.2
  revert hpubs
  decide +kernel

end HolbertonChain
