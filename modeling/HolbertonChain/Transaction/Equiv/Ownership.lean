import HolbertonChain.Transaction.Equiv.Create

/-!
# Who may spend an unspent output

`transaction_is_valid` looks up the output an input refers to by its whole reference, `tx_in_sign`
by its hash alone, and `transaction_create` takes it from its place in the list.  In a list of
honest unspent outputs (`HonestUnspent`) all three come to the same amount and the same key, also
where hashes or whole references are repeated.  So every input of an accepted transaction is signed
by the owner of the output it refers to (`verifies_of_transactionIsValid`), and every transaction
that is created is accepted (`transactionCreate_isValid`).
-/

namespace HolbertonChain

open Bytes WrapSum

variable {κ : Type} (E : Env κ)

/-! ### Looking up -/

/-- The first unspent output with the reference of an input makes the payment of every one with
it. -/
theorem HonestUnspent.payment_find {U : List UnspentTxOut} (hU : HonestUnspent E U) {i : TxIn}
    {u v : UnspentTxOut} (hfind : U.find? (inOutMatch i) = some v) (hu : u ∈ U)
    (href : i.ref = u.ref) : v.out.payment = u.out.payment := by
  have hv : i.ref = v.ref := inOutMatch_eq_true_iff.mp (List.find?_some hfind)
  have hhash : v.out.hash = u.out.hash := (OutRef.mk.inj (hv.symm.trans href)).2.2
  exact hU.payment_eq E (List.mem_of_find?_eq_some hfind) hu hhash

/-- What is there is found. -/
theorem exists_find_inOutMatch {U : List UnspentTxOut} {i : TxIn} {u : UnspentTxOut} (hu : u ∈ U)
    (href : i.ref = u.ref) : ∃ v, U.find? (inOutMatch i) = some v := by
  have hsome : (U.find? (inOutMatch i)).isSome :=
    List.find?_isSome.mpr ⟨u, hu, inOutMatch_eq_true_iff.mpr href⟩
  exact Option.isSome_iff_exists.mp hsome

/-- Each input of an accepted transaction refers to an unspent output, and its signature verifies
under the key of every unspent output it refers to. -/
theorem verifies_of_transactionIsValid {U : List UnspentTxOut} (hU : HonestUnspent E U)
    {hashBuff : Digest} {t : Transaction} (h : transactionIsValid E hashBuff t U = .ok true)
    {i : TxIn} (hi : i ∈ t.inputs) :
    (∃ u ∈ U, u.ref = i.ref) ∧
      ∀ u ∈ U, u.ref = i.ref → ecVerify E (ecFromPub E u.out.pub) t.id i.sig = true := by
  obtain ⟨v, hfind, hverify⟩ := ((transactionIsValid_eq_true_iff E).mp h).2.1 i hi
  have hv : i.ref = v.ref := inOutMatch_eq_true_iff.mp (List.find?_some hfind)
  refine ⟨⟨v, List.mem_of_find?_eq_some hfind, hv.symm⟩, fun u hu href => ?_⟩
  have hpub := (Prod.mk.inj (hU.payment_find E hfind hu href.symm)).2
  rw [← hpub]
  exact hverify

/-! ### Signing -/

/-- The key has the public key `pub`, and what it signs verifies under that. -/
structure SignsAs (sender : κ) (pub : Pub) : Prop where
  ecToPub_eq : ecToPub E sender = some pub
  signs : ∀ msg rnd sig, (ecSign E sender msg rnd sig).1 = true
  verifies : ∀ msg rnd sig,
    ecVerify E (ecFromPub E pub) msg (ecSign E sender msg rnd sig).2 = true

/-- An input that refers to an unspent output of the sender is signed. -/
theorem txInSign_of_owned {U : List UnspentTxOut} (hU : HonestUnspent E U) {sender : κ} {pub : Pub}
    (hkey : SignsAs E sender pub) {i : TxIn} {u : UnspentTxOut} (hu : u ∈ U) (href : i.ref = u.ref)
    (hpub : u.out.pub = pub) (txId : Digest) (rnd : ℕ) :
    txInSign E i txId sender U rnd =
      .ok (true, { i with sig := (ecSign E sender txId rnd i.sig).2 }) := by
  have hne : U ≠ [] := List.ne_nil_of_mem hu
  have hhash : i.txOutHash = u.out.hash := (OutRef.mk.inj href).2.2
  have hsome : (U.find? fun v => i.txOutHash == v.out.hash).isSome :=
    List.find?_isSome.mpr ⟨u, hu, by simpa using hhash⟩
  obtain ⟨v, hfind⟩ := Option.isSome_iff_exists.mp hsome
  have hv : i.txOutHash = v.out.hash := by simpa using List.find?_some hfind
  -- found by its hash, the output belongs to the sender as well
  have hpayment := hU.payment_eq E (List.mem_of_find?_eq_some hfind) hu (hv.symm.trans hhash)
  have howner : ecToPub E sender = some v.out.pub := by
    rw [hkey.ecToPub_eq, (Prod.mk.inj hpayment).2, hpub]
  unfold txInSign
  simp only [hne, if_false, hfind, howner, ne_eq, not_true_eq_false, hkey.signs]
  rfl

/-- All inputs that refer to unspent outputs of the sender are signed. -/
theorem verifies_signTransactionInputs {U : List UnspentTxOut} (hU : HonestUnspent E U)
    {sender : κ} {pub : Pub} (hkey : SignsAs E sender pub) {txId : Digest} {rnd : ℕ → ℕ}
    {is is' : List TxIn} {idx : ℕ} (hown : ∀ i ∈ is, ∃ u ∈ U, i.ref = u.ref ∧ u.out.pub = pub)
    (h : signTransactionInputs E txId sender U rnd is idx = .ok is') :
    ∀ i ∈ is', ecVerify E (ecFromPub E pub) txId i.sig = true := by
  induction is generalizing is' idx with
  | nil =>
    obtain rfl := Except.ok.inj h
    simp
  | cons i is ih =>
    rw [List.forall_mem_cons] at hown
    obtain ⟨⟨u, hu, href, hpub⟩, hown⟩ := hown
    rw [signTransactionInputs, txInSign_of_owned E hU hkey hu href hpub, Except.ok_bind] at h
    obtain ⟨rest, hrest, h⟩ := Except.bind_eq_ok_iff.mp h
    obtain rfl := Except.ok.inj h
    rw [List.forall_mem_cons]
    exact ⟨hkey.verifies _ _ _, ih hown hrest⟩

/-! ### What is created is accepted -/

/-- What inputs match holds what the unspent outputs hold that they were made from. -/
theorem amounts_matched {U : List UnspentTxOut} (hU : HonestUnspent E U) {is : List TxIn}
    {selected : List UnspentTxOut} (hselected : ∀ u ∈ selected, u ∈ U)
    (hrefs : is.map TxIn.ref = selected.map UnspentTxOut.ref) :
    (matched U is).map (·.out.amount) = selected.map (·.out.amount) := by
  induction is generalizing selected with
  | nil =>
    have hnil : selected = [] := List.map_eq_nil_iff.mp hrefs.symm
    rw [hnil]
    rfl
  | cons i is ih =>
    obtain ⟨u, rest, rfl, hu, hrest⟩ := List.map_eq_cons_iff.mp hrefs.symm
    rw [List.forall_mem_cons] at hselected
    obtain ⟨v, hfind⟩ := exists_find_inOutMatch hselected.1 hu.symm
    have hamount := (Prod.mk.inj (hU.payment_find E hfind hselected.1 hu.symm)).1
    have hmatched : matched U (i :: is) = v :: matched U is := by
      rw [matched, List.filterMap_cons, hfind, matched]
    rw [hmatched, List.map_cons, List.map_cons, ih hselected.2 hrest.symm]
    exact congrArg (· :: _) hamount

/-- A transaction that was created from honest unspent outputs by a key that signs is accepted. -/
theorem IsCreated.isValid {pubBuff : Pub} {rnd : ℕ → ℕ} {sender receiver : κ} {amount : UInt32}
    {U : List UnspentTxOut} {txPool : List Transaction} {t : Transaction}
    {selected : List UnspentTxOut} {pub : Pub}
    (h : IsCreated E pubBuff rnd sender receiver amount U txPool t selected)
    (hU : HonestUnspent E U) (hkey : SignsAs E sender pub) (hashBuff : Digest) :
    transactionIsValid E hashBuff t U = .ok true := by
  have hsub : ∀ u ∈ selected, u ∈ U ∧ u.out.pub = pub := by
    intro u hu
    obtain ⟨hmem, hpub, -⟩ := h.mem_selected hu
    rw [hkey.ecToPub_eq, Option.getD_some] at hpub
    exact ⟨hmem, hpub⟩
  have hverify := verifies_signTransactionInputs E hU hkey (by
    intro i hi
    obtain ⟨u, hu, rfl⟩ := List.mem_map.mp hi
    exact ⟨u, (hsub u hu).1, rfl, (hsub u hu).2⟩) h.signed
  rw [transactionIsValid_eq_true_iff]
  refine ⟨⟨some t.id, ?_, rfl⟩, fun i hi => ?_, ?_⟩
  · rw [transactionHash_eq_ok_iff, ← h.id_eq]
    refine ⟨h.size_le, Or.inr ⟨fun h0 => ?_, rfl⟩⟩
    exact h.outputs_ne (bufferSize_eq_zero_iff.mp h0).2
  · -- the input refers to an output that was selected
    have href : i.ref ∈ selected.map UnspentTxOut.ref := h.refs_eq ▸ List.mem_map_of_mem hi
    obtain ⟨u, hu, hui⟩ := List.mem_map.mp href
    obtain ⟨v, hfind⟩ := exists_find_inOutMatch (hsub u hu).1 hui.symm
    have hpub := (Prod.mk.inj (hU.payment_find E hfind (hsub u hu).1 hui.symm)).2
    refine ⟨v, hfind, ?_⟩
    rw [hpub, (hsub u hu).2]
    exact hverify i hi
  · have hamounts := amounts_matched E hU (fun u hu => (hsub u hu).1) h.refs_eq
    have hmatched : (matched U t.inputs).foldl (fun acc u => acc + u.out.amount) 0 =
        selectedAmount selected := foldl_add_congr hamounts 0
    rw [hmatched, h.outputs_eq, amountOut_paidOutputs]

/-- A transaction that is created takes unspent outputs of the sender that the pool does not use,
from the front of the list on; it pays the amount to the receiver and the change to the sender, and
it is accepted. -/
theorem transactionCreate_isValid {pubBuff : Pub} {rnd : ℕ → ℕ} {sender receiver : κ} {pub : Pub}
    {amount : UInt32} {U : List UnspentTxOut} {txPool : List Transaction} {t : Transaction}
    (hU : HonestUnspent E U) (hkey : SignsAs E sender pub)
    (h : transactionCreate E pubBuff rnd (some sender) (some receiver) amount U txPool =
      .ok (some t)) :
    ∃ selected : List UnspentTxOut, selected.Sublist U ∧
      t.inputs.map TxIn.ref = selected.map UnspentTxOut.ref ∧
      (∀ u ∈ selected, u.out.pub = pub ∧ u.ref ∉ inputRefs txPool) ∧
      t.outputs = paidOutputs E amount (selectedAmount selected)
        ((ecToPub E receiver).getD pubBuff) pub ∧
      ∀ hashBuff, transactionIsValid E hashBuff t U = .ok true := by
  obtain ⟨s, r, selected, hs, hr, hc⟩ := exists_isCreated E h
  obtain rfl := Option.some.inj hs
  obtain rfl := Option.some.inj hr
  have hpub : (ecToPub E sender).getD pubBuff = pub := by rw [hkey.ecToPub_eq, Option.getD_some]
  refine ⟨selected, hc.sublist.trans List.filter_sublist, hc.refs_eq, fun u hu => ?_, ?_,
    hc.isValid E hU hkey⟩
  · rw [← hpub]
    exact (hc.mem_selected hu).2
  · rw [hc.outputs_eq, hpub]

/-! ### Two rewards spent at once -/

theorem sampleEnv_signsAs : SignsAs sampleEnv 1 (samplePub 1) where
  ecToPub_eq := by decide +kernel
  signs _ _ _ := rfl
  verifies msg rnd sig := by
    have hkey : ecFromPub sampleEnv (samplePub 1) = some 1 := by decide +kernel
    have hlen : (sampleSignature 1 msg).1.length = 33 := by simp [sampleSignature]
    have htake : (ofList 72 (sampleSignature 1 msg).1).toList.take 33 = (sampleSignature 1 msg).1 := by
      rw [← hlen]
      exact take_ofList (sampleSignature 1 msg).2
    rw [hkey]
    simp [ecVerify, ecSign, sampleEnv, hlen, htake]

/-- Rewards of one key all make one payment. -/
theorem rewards_honestUnspent (ns : List UInt8) : HonestUnspent sampleEnv (ns.map reward) where
  honest u hu := by
    obtain ⟨n, -, rfl⟩ := List.mem_map.mp hu
    rfl
  injOn := by
    rintro p ⟨u, hu, rfl⟩ q ⟨v, hv, rfl⟩ -
    obtain ⟨n, -, rfl⟩ := List.mem_map.mp hu
    obtain ⟨m, -, rfl⟩ := List.mem_map.mp hv
    rfl

theorem payFromTwoRewards_isValid :
    ∃ t, transactionCreate sampleEnv (zero 65) (fun _ => 0) (some 1) (some 2) 60
        [reward 1, reward 2] [] = .ok (some t) ∧
      (∃ selected : List UnspentTxOut, selected.Sublist [reward 1, reward 2] ∧
        t.inputs.map TxIn.ref = selected.map UnspentTxOut.ref ∧
        (∀ u ∈ selected, u.out.pub = samplePub 1 ∧ u.ref ∉ inputRefs []) ∧
        t.outputs = paidOutputs sampleEnv 60 (selectedAmount selected)
          ((ecToPub sampleEnv 2).getD (zero 65)) (samplePub 1) ∧
        ∀ hashBuff, transactionIsValid sampleEnv hashBuff t [reward 1, reward 2] = .ok true) :=
  have hcreate : transactionCreate sampleEnv (zero 65) (fun _ => 0) (some 1) (some 2) 60
      [reward 1, reward 2] [] =
        .ok (some (spendRewards [reward 1, reward 2] [sampleOut 60 2, sampleOut 40 1])) := by
    decide +kernel
  ⟨_, hcreate,
    transactionCreate_isValid sampleEnv (rewards_honestUnspent [1, 2]) sampleEnv_signsAs hcreate⟩

end HolbertonChain
