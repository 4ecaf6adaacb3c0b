import HolbertonChain.Transaction.Create
import HolbertonChain.Transaction.Equiv.Commitment
import HolbertonChain.Transaction.Equiv.Conservation
import HolbertonChain.Transaction.Equiv.UpdateUnspent
import Mathlib.Data.List.Flatten

/-!
# What `transaction_create` builds

The inputs of a new transaction refer, each to another one, to unspent outputs that no transaction
of the pool uses; its outputs are honest, and, as long as the amounts selected do not wrap around,
they pay out exactly what these unspent outputs hold (`transactionCreate_eq_ok_some`).
-/

namespace HolbertonChain

open Bytes WrapSum

variable {κ : Type} (E : Env κ)

/-! ### Selecting -/

/-- Whether `select_unspent_in` takes an unspent output. -/
def isSelected (pub : Pub) (txPool : List Transaction) (u : UnspentTxOut) : Bool :=
  decide (u.out.pub = pub) && !usedInPool txPool u

theorem selectUnspentIn_of_selected {pub : Pub} {txPool : List Transaction} {u : UnspentTxOut}
    (h : isSelected pub txPool u = true) (acc : List TxIn × UInt32) :
    selectUnspentIn pub txPool u acc = (acc.1 ++ [txInCreate u], acc.2 + u.out.amount) := by
  rw [isSelected, Bool.and_eq_true, decide_eq_true_eq, Bool.not_eq_true'] at h
  rw [selectUnspentIn, if_pos h]

theorem selectUnspentIn_of_not_selected {pub : Pub} {txPool : List Transaction} {u : UnspentTxOut}
    (h : ¬ isSelected pub txPool u = true) (acc : List TxIn × UInt32) :
    selectUnspentIn pub txPool u acc = acc := by
  rw [isSelected, Bool.and_eq_true, decide_eq_true_eq, Bool.not_eq_true'] at h
  rw [selectUnspentIn, if_neg h]

/-- The loop takes unspent outputs from the front, and adds up what they hold. -/
theorem selectLoop_eq (pub : Pub) (txPool : List Transaction) (amount : UInt32)
    (U : List UnspentTxOut) (acc : List TxIn × UInt32) :
    ∃ selected : List UnspentTxOut, selected.Sublist (U.filter (isSelected pub txPool)) ∧
      selectLoop pub txPool amount U acc =
        (acc.1 ++ selected.map txInCreate,
          selected.foldl (fun total u => total + u.out.amount) acc.2) := by
  induction U generalizing acc with
  | nil => exact ⟨[], List.Sublist.refl _, by simp [selectLoop]⟩
  | cons u U ih =>
    -- what the head adds to the accumulators
    obtain ⟨head, hhead, hacc⟩ : ∃ head : List UnspentTxOut,
        head.Sublist ([u].filter (isSelected pub txPool)) ∧
        selectUnspentIn pub txPool u acc =
          (acc.1 ++ head.map txInCreate,
            head.foldl (fun total u => total + u.out.amount) acc.2) := by
      by_cases hu : isSelected pub txPool u = true
      · exact ⟨[u], by simp [hu], selectUnspentIn_of_selected hu acc⟩
      · exact ⟨[], by simp, by rw [selectUnspentIn_of_not_selected hu]; simp⟩
    have hfilter : (u :: U).filter (isSelected pub txPool) =
        [u].filter (isSelected pub txPool) ++ U.filter (isSelected pub txPool) :=
      List.filter_append [u] U
    rw [selectLoop, hacc, hfilter]
    dsimp only
    split_ifs
    · -- enough was selected
      exact ⟨head, hhead.trans (List.sublist_append_left _ _), rfl⟩
    · obtain ⟨selected, hsub, hloop⟩ := ih
        (acc.1 ++ head.map txInCreate, head.foldl (fun total u => total + u.out.amount) acc.2)
      refine ⟨head ++ selected, hhead.append hsub, ?_⟩
      rw [hloop, List.map_append, List.foldl_append, List.append_assoc]

/-- What the selected unspent outputs hold, modulo `2 ^ 32`. -/
def selectedAmount (selected : List UnspentTxOut) : UInt32 :=
  selected.foldl (fun acc u => acc + u.out.amount) 0

/-- What is selected when nothing has been yet. -/
theorem exists_selected (pub : Pub) (txPool : List Transaction) (amount : UInt32)
    (U : List UnspentTxOut) :
    ∃ selected : List UnspentTxOut, selected.Sublist (U.filter (isSelected pub txPool)) ∧
      selectLoop pub txPool amount U ([], 0) =
        (selected.map txInCreate, selectedAmount selected) :=
  selectLoop_eq pub txPool amount U ([], 0)

/-! ### The pool -/

@[simp] theorem inputRefs_append (ts ts' : List Transaction) :
    inputRefs (ts ++ ts') = inputRefs ts ++ inputRefs ts' := by
  simp [inputRefs]

theorem inputRefs_singleton (t : Transaction) : inputRefs [t] = t.refs := by
  simp [inputRefs, Transaction.refs]

theorem inputRefs_sublist {ts ts' : List Transaction} (h : ts.Sublist ts') :
    (inputRefs ts).Sublist (inputRefs ts') :=
  (h.flatMap _).map _

/-- An unspent output that an input of the pool refers to is found to be used. -/
theorem usedInPool_of_mem {txPool : List Transaction} {u : UnspentTxOut}
    (h : u.ref ∈ inputRefs txPool) : usedInPool txPool u = true := by
  obtain ⟨i, hi, href⟩ := List.mem_map.mp h
  obtain ⟨t, ht, hit⟩ := List.mem_flatMap.mp hi
  obtain ⟨hblock, htx, hout⟩ := OutRef.mk.inj href
  refine List.any_eq_true.mpr ⟨t, ht, List.any_eq_true.mpr ⟨i, hit, ?_⟩⟩
  simp [samePrefix, hblock, htx, hout]

/-! ### Paying -/

/-- The output of `amount` to `pub`, under its own hash. -/
def honestOut (amount : UInt32) (pub : Pub) : TxOut where
  amount := amount
  pub := pub
  hash := outHash E amount pub

/-- What is paid out of a balance: the amount to the receiver, and the change, if there is any, to
the sender. -/
def paidOutputs (amount balance : UInt32) (receiverPub senderPub : Pub) : List TxOut :=
  honestOut E amount receiverPub ::
    if balance = amount then [] else [honestOut E (balance - amount) senderPub]

theorem change_eq_zero_iff {balance amount : UInt32} : balance - amount = 0 ↔ balance = amount := by
  rw [UInt32.sub_eq_iff_eq_add, UInt32.zero_add]

/-- Every amount but zero is paid. -/
theorem sendAmount_eq_some_iff {pubBuff : Pub} {sender receiver : κ} {amount : Int32}
    {balance : UInt32} {outs : List TxOut} :
    sendAmount E pubBuff sender receiver amount balance = some outs ↔
      amount.toUInt32 ≠ 0 ∧
        outs = paidOutputs E amount.toUInt32 balance ((ecToPub E receiver).getD pubBuff)
          ((ecToPub E sender).getD pubBuff) := by
  unfold sendAmount paidOutputs txOutCreate honestOut
  by_cases hamount : amount.toUInt32 = 0
  · simp [hamount]
  · by_cases hchange : balance = amount.toUInt32
    · simp [hamount, hchange, eq_comm]
    · have hrest : balance - amount.toUInt32 ≠ 0 := mt change_eq_zero_iff.mp hchange
      simp [hamount, hchange, hrest, eq_comm]

theorem honest_paidOutputs (amount balance : UInt32) (receiverPub senderPub : Pub) :
    ∀ o ∈ paidOutputs E amount balance receiverPub senderPub, o.Honest E := by
  unfold paidOutputs
  intro o ho
  rcases List.mem_cons.mp ho with rfl | ho
  · rfl
  · split_ifs at ho with hchange
    · cases ho
    · rw [List.mem_singleton.mp ho]
      rfl

theorem length_paidOutputs_le (amount balance : UInt32) (receiverPub senderPub : Pub) :
    (paidOutputs E amount balance receiverPub senderPub).length ≤ 2 := by
  unfold paidOutputs
  split_ifs <;> simp

/-- The amounts paid out add up to the balance, also where they wrap around. -/
theorem amountOut_paidOutputs (amount balance : UInt32) (receiverPub senderPub : Pub) :
    amountOut (paidOutputs E amount balance receiverPub senderPub) = balance := by
  unfold amountOut paidOutputs
  split_ifs with hchange
  · simp [honestOut, hchange]
  · show 0 + amount + (balance - amount) = balance
    rw [UInt32.zero_add, UInt32.add_comm, UInt32.sub_add_cancel]

/-- The whole balance is paid out. -/
theorem total_paidOutputs {amount balance : UInt32} (receiverPub senderPub : Pub)
    (hle : amount ≤ balance) :
    total TxOut.amount (paidOutputs E amount balance receiverPub senderPub) = balance.toNat := by
  have hlenat : amount.toNat ≤ balance.toNat := UInt32.le_iff_toNat_le.mp hle
  have hsub : (balance - amount).toNat = balance.toNat - amount.toNat :=
    UInt32.toNat_sub_of_le _ _ hle
  unfold paidOutputs
  split_ifs with hchange
  · simp [honestOut, hchange]
  · simp only [total_cons, total_nil, honestOut, hsub]
    omega

/-! ### Signing -/

theorem ref_txInSign {i i' : TxIn} {txId : Digest} {sender : κ} {U : List UnspentTxOut} {rnd : ℕ}
    {ok : Bool} (h : txInSign E i txId sender U rnd = .ok (ok, i')) : i'.ref = i.ref := by
  unfold txInSign at h
  split at h
  · cases h
  · split at h
    · obtain ⟨-, rfl⟩ := Prod.mk.inj (Except.ok.inj h)
      rfl
    · split at h
      · obtain ⟨-, rfl⟩ := Prod.mk.inj (Except.ok.inj h)
        rfl
      · obtain ⟨-, rfl⟩ := Prod.mk.inj (Except.ok.inj h)
        rfl

/-- Signing changes no reference. -/
theorem refs_signTransactionInputs {txId : Digest} {sender : κ} {U : List UnspentTxOut}
    {rnd : ℕ → ℕ} {is is' : List TxIn} {idx : ℕ}
    (h : signTransactionInputs E txId sender U rnd is idx = .ok is') :
    is'.map TxIn.ref = is.map TxIn.ref := by
  induction is generalizing is' idx with
  | nil =>
    obtain rfl := Except.ok.inj h
    rfl
  | cons i is ih =>
    rw [signTransactionInputs] at h
    obtain ⟨⟨ok, i'⟩, hi, h⟩ := Except.bind_eq_ok_iff.mp h
    dsimp only at h
    split_ifs at h with hok
    · obtain ⟨rest, hrest, h⟩ := Except.bind_eq_ok_iff.mp h
      obtain rfl := Except.ok.inj h
      rw [List.map_cons, List.map_cons, ref_txInSign E hi, ih hrest]
    · obtain rfl := Except.ok.inj h
      rw [List.map_cons, List.map_cons, ref_txInSign E hi]

/-! ### The transaction -/

/-- The preimage is made of the references and of the outputs. -/
theorem transactionPreimage_congr {t t' : Transaction} (hrefs : t.refs = t'.refs)
    (houts : t.outputs = t'.outputs) : transactionPreimage t = transactionPreimage t' := by
  have hinputs : t.inputs.map inputs = t'.inputs.map inputs :=
    FixedWidth.map_eq_map_of_map_eq_map (fun _ _ hij => inputs_eq_inputs_iff.mpr hij) hrefs
  have hflat : t.inputs.flatMap inputs = t'.inputs.flatMap inputs := by
    rw [List.flatMap_def, List.flatMap_def, hinputs]
  rw [transactionPreimage, transactionPreimage, hflat, houts]

/-- The hash of a transaction before it is signed is the digest of its preimage afterwards. -/
theorem sha256_transactionPreimage_of_hash {unsigned t : Transaction} {hash : Option Digest}
    (hhash : transactionHash E unsigned = .ok hash) (hrefs : t.refs = unsigned.refs)
    (houts : t.outputs = unsigned.outputs) (hne : t.outputs ≠ []) :
    hash.getD (zero 32) = E.sha256 (transactionPreimage t) ∧ bufferSize t ≤ intMax := by
  have hpre : transactionPreimage t = transactionPreimage unsigned :=
    transactionPreimage_congr hrefs houts
  have hsize : bufferSize t = bufferSize unsigned := by
    rw [← length_transactionPreimage, hpre, length_transactionPreimage]
  obtain ⟨hmax, ⟨h0, -⟩ | ⟨-, rfl⟩⟩ := (transactionHash_eq_ok_iff E).mp hhash
  · rw [houts] at hne
    exact absurd (bufferSize_eq_zero_iff.mp h0).2 hne
  · rw [hpre, hsize]
    exact ⟨rfl, hmax⟩

/-- What is true of a transaction that was created from the unspent outputs `selected`. -/
structure IsCreated (pubBuff : Pub) (rnd : ℕ → ℕ) (sender receiver : κ) (amount : UInt32)
    (U : List UnspentTxOut) (txPool : List Transaction) (t : Transaction)
    (selected : List UnspentTxOut) : Prop where
  sublist : selected.Sublist
    (U.filter (isSelected ((ecToPub E sender).getD pubBuff) txPool))
  loop_eq : selectLoop ((ecToPub E sender).getD pubBuff) txPool amount U ([], 0) =
    (selected.map txInCreate, selectedAmount selected)
  amount_ne : amount ≠ 0
  amount_le : amount ≤ selectedAmount selected
  outputs_eq : t.outputs = paidOutputs E amount (selectedAmount selected)
    ((ecToPub E receiver).getD pubBuff) ((ecToPub E sender).getD pubBuff)
  signed : signTransactionInputs E t.id sender U rnd (selected.map txInCreate) 0 = .ok t.inputs
  id_eq : t.id = E.sha256 (transactionPreimage t)
  size_le : bufferSize t ≤ intMax

namespace IsCreated

variable {E} {pubBuff : Pub} {rnd : ℕ → ℕ} {sender receiver : κ} {amount : UInt32}
  {U : List UnspentTxOut} {txPool : List Transaction} {t : Transaction}
  {selected : List UnspentTxOut}

theorem refs_eq (h : IsCreated E pubBuff rnd sender receiver amount U txPool t selected) :
    t.refs = selected.map UnspentTxOut.ref := by
  rw [Transaction.refs, refs_signTransactionInputs E h.signed, List.map_map]
  rfl

theorem outputs_ne (h : IsCreated E pubBuff rnd sender receiver amount U txPool t selected) :
    t.outputs ≠ [] := by
  rw [h.outputs_eq]
  exact List.cons_ne_nil _ _

theorem honest (h : IsCreated E pubBuff rnd sender receiver amount U txPool t selected) :
    ∀ o ∈ t.outputs, o.Honest E := by
  rw [h.outputs_eq]
  exact honest_paidOutputs E _ _ _ _

/-- What is selected is an unspent output of the sender that the pool does not use. -/
theorem mem_selected (h : IsCreated E pubBuff rnd sender receiver amount U txPool t selected)
    {u : UnspentTxOut} (hu : u ∈ selected) :
    u ∈ U ∧ u.out.pub = (ecToPub E sender).getD pubBuff ∧ u.ref ∉ inputRefs txPool := by
  obtain ⟨hmem, hselected⟩ := List.mem_filter.mp (h.sublist.subset hu)
  rw [isSelected, Bool.and_eq_true, decide_eq_true_eq, Bool.not_eq_true'] at hselected
  refine ⟨hmem, hselected.1, fun hused => ?_⟩
  rw [usedInPool_of_mem hused] at hselected
  exact absurd hselected.2 (by decide)

/-- Something was selected, since something is paid. -/
theorem selected_ne (h : IsCreated E pubBuff rnd sender receiver amount U txPool t selected) :
    selected ≠ [] := by
  rintro rfl
  have hle : amount ≤ 0 := h.amount_le
  exact h.amount_ne (UInt32.le_zero_iff.mp hle)

end IsCreated

/-- A transaction is created from unspent outputs. -/
theorem exists_isCreated {pubBuff : Pub} {rnd : ℕ → ℕ} {sender receiver : Option κ}
    {amount : UInt32} {U : List UnspentTxOut} {txPool : List Transaction} {t : Transaction}
    (h : transactionCreate E pubBuff rnd sender receiver amount U txPool = .ok (some t)) :
    ∃ s r selected, sender = some s ∧ receiver = some r ∧
      IsCreated E pubBuff rnd s r amount U txPool t selected := by
  unfold transactionCreate at h
  split at h
  next sender receiver =>
    obtain ⟨selected, hsub, hloop⟩ :=
      exists_selected ((ecToPub E sender).getD pubBuff) txPool amount U
    simp only [hloop] at h
    split_ifs at h with henough
    · cases h
    · split at h
      · cases h
      next outs houts =>
        obtain ⟨hash, hhash, h⟩ := Except.bind_eq_ok_iff.mp h
        obtain ⟨signed, hsigned, h⟩ := Except.bind_eq_ok_iff.mp h
        have ht := Option.some.inj (Except.ok.inj h)
        have hback : amount.toInt32.toUInt32 = amount := UInt32.toUInt32_toInt32 amount
        obtain ⟨hne, houtputs⟩ := (sendAmount_eq_some_iff E).mp houts
        rw [hback] at hne houtputs
        subst ht
        -- the ID is the digest of the unsigned transaction, and signing changes no reference
        obtain ⟨hid, hmax⟩ := sha256_transactionPreimage_of_hash E hhash
          (t := { id := hash.getD (zero 32), inputs := signed, outputs := outs })
          (refs_signTransactionInputs E hsigned) rfl
          (by rw [houtputs]; exact List.cons_ne_nil _ _)
        exact ⟨sender, receiver, selected, rfl, rfl,
          { sublist := hsub
            loop_eq := hloop
            amount_ne := hne
            amount_le := UInt32.not_lt.mp henough
            outputs_eq := houtputs
            signed := hsigned
            id_eq := hid
            size_le := hmax }⟩
  next => cases h

/-- What there is to say about a transaction that was created. -/
theorem transactionCreate_eq_ok_some {pubBuff : Pub} {rnd : ℕ → ℕ} {sender receiver : Option κ}
    {amount : UInt32} {U : List UnspentTxOut} {txPool : List Transaction} {t : Transaction}
    (h : transactionCreate E pubBuff rnd sender receiver amount U txPool = .ok (some t)) :
    t.outputs ≠ [] ∧ (∀ o ∈ t.outputs, o.Honest E) ∧
      ∃ selected : List UnspentTxOut, selected.Sublist (U.filter fun u => !usedInPool txPool u) ∧
        t.refs = selected.map UnspentTxOut.ref ∧
        (total (fun u : UnspentTxOut => u.out.amount) selected < 2 ^ 32 →
          totalOut t = total (fun u : UnspentTxOut => u.out.amount) selected) := by
  obtain ⟨s, r, selected, -, -, hc⟩ := exists_isCreated E h
  refine ⟨hc.outputs_ne, hc.honest, selected, hc.sublist.trans ?_, hc.refs_eq, fun hlt => ?_⟩
  · exact List.monotone_filter_right U fun u hu => (Bool.and_eq_true _ _ ▸ hu).2
  · rw [totalOut, hc.outputs_eq, total_paidOutputs E _ _ hc.amount_le, selectedAmount,
      toNat_foldl_add, UInt32.toNat_zero, Nat.zero_add, Nat.mod_eq_of_lt hlt]

end HolbertonChain
