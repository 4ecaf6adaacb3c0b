import HolbertonChain.Transaction.Equiv.Ownership

/-!
# The output that is signed for and the output that is checked

`tx_in_sign` takes the first unspent output with the output hash of the input, `in_out_match` wants
the whole reference, and the loop of `tx_in_sign` assigns no output on an empty list.  So signer and
validator agree on an input (`SignerAgrees`) exactly when there is an unspent output at all and,
where the output that is signed for belongs to the sender, the input refers to an output of the same
owner (`signerAgrees_iff`).

Rewards of one key all carry one hash, so an input that refers to a reward which is gone is signed
for another one.
-/

namespace HolbertonChain

open Bytes

variable {κ : Type} (E : Env κ)

/-- A call of `tx_in_sign` comes to an end; an input that it signed passes the check of
`transaction_is_valid` on an unspent output of the sender, and one that it did not sign is as it
was. -/
def SignerAgrees (i : TxIn) (txId : Digest) (sender : κ) (U : List UnspentTxOut) (rnd : ℕ) : Prop :=
  ∃ signed i', txInSign E i txId sender U rnd = .ok (signed, i') ∧
    (signed = true → i'.ref = i.ref ∧ ∃ v, U.find? (inOutMatch i') = some v ∧
      ecToPub E sender = some v.out.pub ∧
      ecVerify E (ecFromPub E v.out.pub) txId i'.sig = true) ∧
    (signed = false → i' = i)

/-- The unspent output that `tx_in_sign` signs an input for. -/
def signedFor (i : TxIn) (U : List UnspentTxOut) : Option UnspentTxOut :=
  U.find? fun u => i.txOutHash == u.out.hash

/-! ### The two ways a call ends -/

theorem txInSign_of_not_owned {i : TxIn} {sender : κ} {U : List UnspentTxOut} (hU : U ≠ [])
    (h : ∀ u, signedFor i U = some u → ecToPub E sender ≠ some u.out.pub) (txId : Digest)
    (rnd : ℕ) : txInSign E i txId sender U rnd = .ok (false, i) := by
  unfold txInSign
  rw [if_neg hU]
  cases hfind : signedFor i U with
  | none =>
    unfold signedFor at hfind
    rw [hfind]
    rfl
  | some u =>
    have howner := h u hfind
    unfold signedFor at hfind
    rw [hfind]
    dsimp only
    rw [if_pos howner]
    rfl

theorem txInSign_of_signedFor {i : TxIn} {sender : κ} {U : List UnspentTxOut} {u : UnspentTxOut}
    (hfor : signedFor i U = some u) (hkey : SignsAs E sender u.out.pub) (txId : Digest) (rnd : ℕ) :
    txInSign E i txId sender U rnd =
      .ok (true, { i with sig := (ecSign E sender txId rnd i.sig).2 }) := by
  have hU : U ≠ [] := List.ne_nil_of_mem (List.mem_of_find?_eq_some hfor)
  unfold signedFor at hfor
  unfold txInSign
  rw [if_neg hU, hfor]
  dsimp only
  rw [if_neg (not_not.mpr hkey.ecToPub_eq), hkey.signs]
  rfl

/-- The signature of an input is not looked at when it is matched. -/
theorem inOutMatch_with_sig (i : TxIn) (sig : Sign) : inOutMatch { i with sig } = inOutMatch i :=
  rfl

/-! ### When signer and validator agree -/

/-- Where signer and validator agree, the input refers to an output of the owner of the one it is
signed for. -/
theorem SignerAgrees.exists_find {i : TxIn} {txId : Digest} {sender : κ} {U : List UnspentTxOut}
    {rnd : ℕ} (h : SignerAgrees E i txId sender U rnd) {u : UnspentTxOut}
    (hfor : signedFor i U = some u) (hkey : SignsAs E sender u.out.pub) :
    ∃ v, U.find? (inOutMatch i) = some v ∧ v.out.pub = u.out.pub := by
  obtain ⟨signed, i', hcall, hsigned, -⟩ := h
  rw [txInSign_of_signedFor E hfor hkey] at hcall
  obtain ⟨rfl, rfl⟩ := Prod.mk.inj (Except.ok.inj hcall)
  obtain ⟨-, v, hfind, hv, -⟩ := hsigned rfl
  rw [inOutMatch_with_sig] at hfind
  refine ⟨v, hfind, ?_⟩
  rw [hkey.ecToPub_eq] at hv
  exact (Option.some.inj hv).symm

theorem SignerAgrees.ne_nil {i : TxIn} {txId : Digest} {sender : κ} {U : List UnspentTxOut}
    {rnd : ℕ} (h : SignerAgrees E i txId sender U rnd) : U ≠ [] := by
  obtain ⟨signed, i', hcall, -, -⟩ := h
  rintro rfl
  -- the pointer that is read was not assigned
  cases hcall

theorem signerAgrees_of_find {sender : κ}
    (hkey : ∀ pub, ecToPub E sender = some pub → SignsAs E sender pub) {i : TxIn}
    {U : List UnspentTxOut} (hU : U ≠ [])
    (h : ∀ u, signedFor i U = some u → ecToPub E sender = some u.out.pub →
      ∃ v, U.find? (inOutMatch i) = some v ∧ v.out.pub = u.out.pub) (txId : Digest) (rnd : ℕ) :
    SignerAgrees E i txId sender U rnd := by
  by_cases howned : ∃ u, signedFor i U = some u ∧ ecToPub E sender = some u.out.pub
  · obtain ⟨u, hfor, hpub⟩ := howned
    obtain ⟨v, hfind, hv⟩ := h u hfor hpub
    have hu := hkey _ hpub
    refine ⟨true, _, txInSign_of_signedFor E hfor hu txId rnd, fun _ => ⟨rfl, v, ?_, ?_, ?_⟩,
      fun hfalse => nomatch hfalse⟩
    · rw [inOutMatch_with_sig]
      exact hfind
    · rw [hpub, hv]
    · rw [hv]
      exact hu.verifies _ _ _
  · have hnot : ∀ u, signedFor i U = some u → ecToPub E sender ≠ some u.out.pub :=
      fun u hfor hpub => howned ⟨u, hfor, hpub⟩
    exact ⟨false, i, txInSign_of_not_owned E hU hnot txId rnd, fun htrue => (nomatch htrue),
      fun _ => rfl⟩

/-- Signer and validator agree on an input if and only if there is an unspent output and, where the
one that `tx_in_sign` signs for belongs to the sender, the input refers to one of the same owner. -/
theorem signerAgrees_iff {sender : κ}
    (hkey : ∀ pub, ecToPub E sender = some pub → SignsAs E sender pub) (i : TxIn) (txId : Digest)
    (U : List UnspentTxOut) (rnd : ℕ) :
    SignerAgrees E i txId sender U rnd ↔
      U ≠ [] ∧ ∀ u, signedFor i U = some u → ecToPub E sender = some u.out.pub →
        ∃ v, U.find? (inOutMatch i) = some v ∧ v.out.pub = u.out.pub := by
  constructor
  · intro h
    exact ⟨h.ne_nil E, fun u hfor hpub => h.exists_find E hfor (hkey _ hpub)⟩
  · rintro ⟨hU, h⟩
    exact signerAgrees_of_find E hkey hU h txId rnd

/-- Among honest unspent outputs, signer and validator agree on an input unless it has the hash of
an output of the sender and refers to none. -/
theorem HonestUnspent.agrees_iff {U : List UnspentTxOut} (h : HonestUnspent E U) {sender : κ}
    (hkey : ∀ pub, ecToPub E sender = some pub → SignsAs E sender pub) (i : TxIn) (txId : Digest)
    (rnd : ℕ) :
    SignerAgrees E i txId sender U rnd ↔
      U ≠ [] ∧ ∀ u ∈ U, i.txOutHash = u.out.hash → ecToPub E sender = some u.out.pub →
        ∃ v ∈ U, i.ref = v.ref := by
  constructor
  · intro hagrees
    refine ⟨hagrees.ne_nil E, fun u hu hhash hpub => ?_⟩
    have hsome : (signedFor i U).isSome := List.find?_isSome.mpr ⟨u, hu, by simpa using hhash⟩
    obtain ⟨w, hw⟩ := Option.isSome_iff_exists.mp hsome
    -- the output that is signed for makes the same payment
    have hwhash : i.txOutHash = w.out.hash := by simpa using List.find?_some hw
    have hpayment := h.payment_eq E (List.mem_of_find?_eq_some hw) hu (hwhash.symm.trans hhash)
    have hwpub : ecToPub E sender = some w.out.pub := by rw [hpub, (Prod.mk.inj hpayment).2]
    obtain ⟨v, hfind, -⟩ := hagrees.exists_find E hw (hkey _ hwpub)
    exact ⟨v, List.mem_of_find?_eq_some hfind, inOutMatch_eq_true_iff.mp (List.find?_some hfind)⟩
  · rintro ⟨hU, hall⟩
    refine signerAgrees_of_find E hkey hU (fun u hfor hpub => ?_) txId rnd
    have hu := List.mem_of_find?_eq_some hfor
    have hhash : i.txOutHash = u.out.hash := by simpa using List.find?_some hfor
    obtain ⟨w, hw, href⟩ := hall u hu hhash hpub
    obtain ⟨v, hfind⟩ := exists_find_inOutMatch hw href
    have hv : i.ref = v.ref := inOutMatch_eq_true_iff.mp (List.find?_some hfind)
    have hvhash : v.out.hash = u.out.hash := by rw [← hhash, (OutRef.mk.inj hv).2.2]
    have hpayment := h.payment_eq E (List.mem_of_find?_eq_some hfind) hu hvhash
    exact ⟨v, hfind, (Prod.mk.inj hpayment).2⟩

/-! ### A reward that is gone -/

theorem sampleEnv_signsAs_of_ecToPub {pub : Pub} (h : ecToPub sampleEnv 1 = some pub) :
    SignsAs sampleEnv 1 pub := by
  rw [sampleEnv_signsAs.ecToPub_eq] at h
  rw [← Option.some.inj h]
  exact sampleEnv_signsAs

/-- The input that refers to the reward that there is is signed for it, and accepted. -/
theorem signerAgrees_reward :
    SignerAgrees sampleEnv (txInCreate (reward 1)) (zero 32) 1 [reward 1] 0 := by
  refine (signerAgrees_iff sampleEnv (fun _ => sampleEnv_signsAs_of_ecToPub) (txInCreate (reward 1))
    (zero 32) [reward 1] 0).mpr ⟨List.cons_ne_nil _ _, fun u hfor _ => ?_⟩
  obtain rfl := List.mem_singleton.mp (List.mem_of_find?_eq_some hfor)
  exact ⟨reward 1, by decide +kernel, rfl⟩

/-- An input that refers to a reward which is gone is signed for another reward. -/
theorem not_signerAgrees :
    ¬ ∀ (i : TxIn) (txId : Digest) (U : List UnspentTxOut), (∀ u ∈ U, u.out.Honest sampleEnv) →
      SignerAgrees sampleEnv i txId 1 U 0 := by
  intro h
  have hhonest := (rewards_honestUnspent [1]).honest
  have hagrees := h (txInCreate (reward 2)) (zero 32) [reward 1] hhonest
  -- one owner and one amount, so one hash
  have hfor : signedFor (txInCreate (reward 2)) [reward 1] = some (reward 1) := by
    simp [signedFor, txInCreate, reward]
  obtain ⟨v, hfind, -⟩ := hagrees.exists_find sampleEnv hfor sampleEnv_signsAs
  have hnone : [reward 1].find? (inOutMatch (txInCreate (reward 2))) = none := by decide +kernel
  rw [hnone] at hfind
  cases hfind

end HolbertonChain
