import HolbertonChain.Block.Equiv.References
import HolbertonChain.Cli.Equiv.Accounting
import HolbertonChain.Cli.Equiv.Pool

/-!
# References over runs of the client

A reference carries no output index.  That it names one unspent output comes from three things: the
blocks of a chain have different indices, so different hashes; the transactions of a block spend
different outputs, so have different IDs; and the outputs of a transaction make different payments,
so have different hashes.  The last one fails where a wallet sends itself half of what was selected
(`SplitsEvenly`): the payment and the change are then one output twice.  Without such a `send` all
references stay apart (`run_refs_nodup`).
-/

namespace HolbertonChain

open AppendLog Bytes

variable {κ φ : Type} (E : Env κ)

/-! ### Sends to oneself -/

/-- A payment and its change are the same exactly when a half of the balance goes back to the
sender. -/
theorem nodup_payments_paidOutputs_iff {amount balance : UInt32} {receiverPub senderPub : Pub}
    (hne : amount ≠ 0) (hle : amount ≤ balance) :
    ((paidOutputs E amount balance receiverPub senderPub).map TxOut.payment).Nodup ↔
      ¬ (receiverPub = senderPub ∧ balance.toNat = 2 * amount.toNat) := by
  have hlenat : amount.toNat ≤ balance.toNat := UInt32.le_iff_toNat_le.mp hle
  have hpos : amount.toNat ≠ 0 := fun h => hne (UInt32.toNat_inj.mp h)
  have hsub : (balance - amount).toNat = balance.toNat - amount.toNat :=
    UInt32.toNat_sub_of_le _ _ hle
  unfold paidOutputs
  split_ifs with hchange
  · rw [hchange]
    refine iff_of_true (List.nodup_singleton _) ?_
    omega
  · have hhalf : amount = balance - amount ↔ balance.toNat = 2 * amount.toNat := by
      rw [← UInt32.toNat_inj, hsub]
      omega
    simp only [List.map_cons, List.map_nil, TxOut.payment, honestOut, List.nodup_cons,
      List.mem_singleton, Prod.mk.injEq, List.not_mem_nil, not_false_eq_true, List.nodup_nil,
      and_true]
    rw [hhalf, and_comm]

/-- What `transaction_create` selects for an amount is twice the amount, and the key of the receiver
is that of the sender. -/
def IsHalfToSelf (ω : Oracle) (s : State κ φ) (amount : UInt32) (sender receiver : κ) : Prop :=
  amount ≠ 0 ∧ (ecToPub E receiver).getD ω.pubBuff = (ecToPub E sender).getD ω.pubBuff ∧
    (selectLoop ((ecToPub E sender).getD ω.pubBuff) s.txPool amount s.blockchain.unspent
      ([], 0)).2.toNat = 2 * amount.toNat

instance decidableIsHalfToSelf (ω : Oracle) (s : State κ φ) (amount : UInt32)
    (sender receiver : κ) : Decidable (IsHalfToSelf E ω s amount sender receiver) :=
  inferInstanceAs (Decidable (_ ∧ _ ∧ _))

/-- The command sends the wallet a half of what is selected. -/
def SplitsEvenly (ω : Oracle) (s : State κ φ) (c : Command κ φ) : Prop :=
  ∃ sent ∈ c.sent, ∃ sender ∈ s.wallet, ∃ receiver ∈ (strToKey E sent.2).1,
    IsHalfToSelf E ω s sent.1.toUInt32 sender receiver

instance decidableSplitsEvenly (ω : Oracle) (s : State κ φ) (c : Command κ φ) :
    Decidable (SplitsEvenly E ω s c) :=
  inferInstanceAs (Decidable (∃ sent ∈ c.sent, ∃ sender ∈ s.wallet,
    ∃ receiver ∈ (strToKey E sent.2).1, IsHalfToSelf E ω s sent.1.toUInt32 sender receiver))

/-! ### The invariant -/

/-- A transaction of the pool has an input, carries its own digest, and makes different payments,
under their hashes. -/
structure WellMade (t : Transaction) : Prop where
  inputs_ne : t.inputs ≠ []
  id_eq : t.id = E.sha256 (transactionPreimage t)
  honest : ∀ o ∈ t.outputs, o.Honest E
  payments_nodup : t.payments.Nodup

/-- A reference to a block of the chain and to one of its transactions. -/
def HasSource (chain : List Block) (r : OutRef) : Prop := ∃ b ∈ chain, ∃ t, IsSource E b t r

/-- The last block has the largest index, references name what is in the chain, the pool is well
made, and no two unspent outputs share a reference. -/
structure Identified (s : State κ φ) : Prop where
  index_le : ∀ last, s.blockchain.chain.getLast? = some last →
    ∀ b ∈ s.blockchain.chain, b.info.index.toNat ≤ last.info.index.toNat
  unspent : ∀ u ∈ s.blockchain.unspent, HasSource E s.blockchain.chain u.ref
  pool_refs : ∀ r ∈ inputRefs s.txPool, HasSource E s.blockchain.chain r
  pool : ∀ t ∈ s.txPool, WellMade E t
  apart : PoolApart s.txPool
  nodup : CollisionFree E (hashedStrings E s.blockchain.chain) →
    (s.blockchain.unspent.map UnspentTxOut.ref).Nodup

theorem identified_initialState (files : φ → Option (List UInt8)) :
    Identified E (initialState files : State κ φ) where
  index_le last hlast b hb := by
    obtain rfl := Option.some.inj hlast
    rw [List.mem_singleton.mp hb]
    exact le_rfl
  unspent := by simp [initialState, blockchainCreate]
  pool_refs := by simp [initialState, inputRefs]
  pool := by simp [initialState]
  apart := List.Pairwise.nil
  nodup _ := List.nodup_nil

variable {E}

theorem HasSource.mono {chain chain' : List Block} {r : OutRef} (h : HasSource E chain r)
    (hsub : chain ⊆ chain') : HasSource E chain' r := by
  obtain ⟨b, hb, t, ht⟩ := h
  exact ⟨b, hsub hb, t, ht⟩

/-- The first input of a well-made transaction. -/
theorem WellMade.exists_input {t : Transaction} (h : WellMade E t) :
    ∃ i is, t.inputs = i :: is :=
  List.exists_cons_of_ne_nil h.inputs_ne

/-- Where SHA-256 tells the payments apart, so do the hashes. -/
theorem WellMade.nodup_hashes {t : Transaction} (h : WellMade E t)
    {strings : List (List UInt8)} (hfree : CollisionFree E strings)
    (hmem : ∀ o ∈ t.outputs, outRecord E o.amount o.pub ∈ strings) :
    (t.outputs.map TxOut.hash).Nodup := by
  have hpairs : t.outputs.Pairwise fun o o' => o.payment ≠ o'.payment :=
    List.pairwise_map.mp h.payments_nodup
  refine List.pairwise_map.mpr (hpairs.imp_of_mem fun {o o'} ho ho' hne heq => hne ?_)
  rw [h.honest o ho, h.honest o' ho'] at heq
  obtain ⟨hamount, hpub⟩ := outRecord_injective (hfree (hmem o ho) (hmem o' ho') heq)
  rw [TxOut.payment, TxOut.payment, hamount, hpub]

/-! ### Commands that do not mine -/

namespace Identified

variable {s : State κ φ}

/-- What `list` does: the order of the unspent outputs is of no account. -/
theorem perm (h : Identified E s) {U : List UnspentTxOut} (hperm : U.Perm s.blockchain.unspent) :
    Identified E { s with blockchain := { s.blockchain with unspent := U } } where
  index_le := h.index_le
  unspent u hu := h.unspent u (hperm.subset hu)
  pool_refs := h.pool_refs
  pool := h.pool
  apart := h.apart
  nodup hfree := (hperm.map _).nodup_iff.mpr (h.nodup hfree)

/-- What a rejected block does: a part of the pool is left. -/
theorem reject (h : Identified E s) {txPool : List Transaction} (hsub : txPool.Sublist s.txPool) :
    Identified E { s with txPool } where
  index_le := h.index_le
  unspent := h.unspent
  pool_refs r hr := h.pool_refs r ((inputRefs_sublist hsub).subset hr)
  pool t ht := h.pool t (hsub.subset ht)
  apart := h.apart.sublist hsub
  nodup := h.nodup

/-- A transaction that was created joins the pool, if it does not split evenly. -/
theorem send (h : Identified E s) {ω : Oracle} {amount : Int32} {address : List UInt8}
    {tx : Transaction} (heven : ¬ SplitsEvenly E ω s (.send amount address))
    (hcreate : transactionCreate E ω.pubBuff ω.rnd s.wallet (strToKey E address).1
      amount.toUInt32 s.blockchain.unspent s.txPool = .ok (some tx)) :
    Identified E { s with txPool := s.txPool ++ [tx] } := by
  obtain ⟨sender, receiver, selected, hsender, hreceiver, hc⟩ := exists_isCreated E hcreate
  have hinputs : tx.inputs ≠ [] := by
    intro hnil
    have hrefs := hc.refs_eq
    rw [Transaction.refs, hnil] at hrefs
    exact hc.selected_ne (List.map_eq_nil_iff.mp hrefs.symm)
  have hpayments : tx.payments.Nodup := by
    rw [Transaction.payments, hc.outputs_eq,
      nodup_payments_paidOutputs_iff E hc.amount_ne hc.amount_le]
    rintro ⟨hpubs, hhalf⟩
    refine heven ⟨(amount, address), rfl, sender, hsender, receiver, hreceiver, hc.amount_ne, hpubs,
      ?_⟩
    rw [hc.loop_eq]
    exact hhalf
  exact
    { index_le := h.index_le
      unspent := h.unspent
      pool_refs := by
        intro r hr
        rw [inputRefs_append, inputRefs_singleton, hc.refs_eq] at hr
        rcases List.mem_append.mp hr with hr | hr
        · exact h.pool_refs r hr
        · obtain ⟨u, hu, rfl⟩ := List.mem_map.mp hr
          exact h.unspent u (hc.mem_selected hu).1
      pool := forall_mem_concat.mpr ⟨h.pool, ⟨hinputs, hc.id_eq, hc.honest, hpayments⟩⟩
      apart := h.apart.append hc
      nodup := h.nodup }

/-! ### Mining -/

variable {ω : Oracle} {prev mined : Block} {pub : Pub} {txPool : List Transaction}

/-- The index of an accepted block is above all others. -/
theorem index_lt_mined (h : Identified E s) (hmined : MinedOn E ω s prev pub txPool mined)
    (hvalid : blockIsValid E ω.stack mined (some prev) s.blockchain.unspent = .ok 0) :
    ∀ b ∈ s.blockchain.chain, b.info.index.toNat < mined.info.index.toNat := by
  have hindex : mined.info.index ≠ 0 := by
    rcases (blockIsValid_eq_zero_iff E).mp hvalid with hgenesis | ⟨p, -, hnext⟩
    · -- the genesis block has no list of transactions
      have htxs := hmined.transactions_eq
      rw [hgenesis] at htxs
      cases htxs
    · exact hnext.index_ne
  have hsucc : mined.info.index.toNat = (prev.info.index.toNat + 1) % 2 ^ 32 := by
    rw [hmined.index_eq, UInt32.toNat_add]
    rfl
  have hne : mined.info.index.toNat ≠ 0 := fun h0 => hindex (UInt32.toNat_inj.mp h0)
  have hprev : prev.info.index.toNat < 2 ^ 32 := prev.info.index.toNat_lt
  intro b hb
  have hle := h.index_le prev hmined.prev_eq b hb
  omega

/-- The entries for the outputs of a mined block name the block and their transactions. -/
theorem isSource_mined (h : Identified E s) (hmined : MinedOn E ω s prev pub txPool mined)
    (hsub : txPool.Sublist s.txPool) :
    ∀ u ∈ newEntries mined.hash mined.txs, ∃ t, IsSource E mined t u.ref := by
  obtain ⟨-, -, hhash⟩ := (blockHash_eq_ok_some_iff E).mp hmined.hash_eq
  have hid : ∀ t ∈ mined.txs, t.id = E.sha256 (transactionPreimage t) := by
    rw [hmined.txs_eq]
    intro t ht
    rcases List.mem_cons.mp ht with rfl | ht
    · rfl
    · exact (h.pool t (hsub.subset ht)).id_eq
  intro u hu
  obtain ⟨t, ht, hu⟩ := List.mem_flatMap.mp hu
  obtain ⟨o, -, rfl⟩ := List.mem_map.mp hu
  exact ⟨t,
    { mem := ht
      blockHash_eq := hhash.symm
      len_eq := by rw [hmined.data_eq]
      txId_eq := hid t ht }⟩

/-- The transactions of a mined block have different IDs. -/
theorem pairwise_ids_mined (h : Identified E s) (hmined : MinedOn E ω s prev pub txPool mined)
    (hsub : txPool.Sublist s.txPool)
    (hfree : CollisionFree E (hashedStrings E (s.blockchain.chain ++ [mined]))) :
    mined.txs.Pairwise fun t t' => t.id ≠ t'.id := by
  have hlast : mined ∈ s.blockchain.chain ++ [mined] := by simp
  have hmem : ∀ t ∈ mined.txs,
      transactionPreimage t ∈ hashedStrings E (s.blockchain.chain ++ [mined]) :=
    fun t ht => transactionPreimage_mem hlast ht
  rw [hmined.txs_eq, List.forall_mem_cons] at hmem
  rw [hmined.txs_eq, List.pairwise_cons]
  constructor
  · -- the coinbase refers to nothing in the chain
    intro t ht heq
    have hmade := h.pool t (hsub.subset ht)
    obtain ⟨i, is, hi⟩ := hmade.exists_input
    rw [hmade.id_eq] at heq
    have hpre := hfree hmem.1 (hmem.2 t ht) heq
    have href : (coinbaseInput E (prev.info.index + 1)).ref = i.ref :=
      ref_eq_of_transactionPreimage_eq hpre rfl hi
    have hin : i.ref ∈ inputRefs s.txPool :=
      List.mem_map_of_mem (List.mem_flatMap.mpr ⟨t, hsub.subset ht, by simp [hi]⟩)
    obtain ⟨b, hb, t', hsource⟩ := h.pool_refs _ hin
    have hfree' := hfree.mono (hashedStrings_subset (List.prefix_append _ _))
    exact hsource.ne_coinbaseInput hfree' hb _ href.symm
  · -- transactions of the pool refer to different outputs
    refine (h.apart.sublist hsub).imp_of_mem fun {t t'} ht ht' hapart heq => ?_
    have hmade := h.pool t (hsub.subset ht)
    have hmade' := h.pool t' (hsub.subset ht')
    obtain ⟨i, is, hi⟩ := hmade.exists_input
    obtain ⟨i', is', hi'⟩ := hmade'.exists_input
    rw [hmade.id_eq, hmade'.id_eq] at heq
    have hpre := hfree (hmem.2 t ht) (hmem.2 t' ht') heq
    exact hapart i (by simp [hi]) i' (by simp [hi']) (ref_eq_of_transactionPreimage_eq hpre hi hi')

/-- The outputs of each transaction of a mined block have different hashes. -/
theorem nodup_hashes_mined (h : Identified E s) (hmined : MinedOn E ω s prev pub txPool mined)
    (hsub : txPool.Sublist s.txPool)
    (hfree : CollisionFree E (hashedStrings E (s.blockchain.chain ++ [mined]))) :
    ∀ t ∈ mined.txs, (t.outputs.map TxOut.hash).Nodup := by
  intro t ht
  have hmem : ∀ o ∈ t.outputs,
      outRecord E o.amount o.pub ∈ hashedStrings E (s.blockchain.chain ++ [mined]) :=
    fun o ho => outRecord_mem (by simp) ht ho
  rw [hmined.txs_eq] at ht
  rcases List.mem_cons.mp ht with rfl | ht
  · exact List.nodup_singleton _
  · exact (h.pool t (hsub.subset ht)).nodup_hashes hfree hmem

/-- A mined block keeps the references apart. -/
theorem append (h : Identified E s) (hmined : MinedOn E ω s prev pub txPool mined)
    (hvalid : blockIsValid E ω.stack mined (some prev) s.blockchain.unspent = .ok 0) :
    Identified E (s.appendBlock mined) := by
  have hsub := (filterPool_eq_ok E le_rfl hmined.pool_eq).1
  have hlt := h.index_lt_mined hmined hvalid
  have hnew := h.isSource_mined hmined hsub
  have htxs : mined.transactions = some mined.txs := by
    rw [hmined.txs_eq, hmined.transactions_eq]
  have hentries : (updateUnspent mined.transactions mined.hash s.blockchain.unspent).Sublist
      (s.blockchain.unspent ++ newEntries mined.hash mined.txs) := by
    rw [htxs]
    exact updateUnspent_sublist _ _ _
  have hold : s.blockchain.chain ⊆ s.blockchain.chain ++ [mined] := List.subset_append_left _ _
  exact
    { index_le := by
        intro last hlast
        rw [State.appendBlock, List.getLast?_concat] at hlast
        obtain rfl := Option.some.inj hlast
        exact forall_mem_concat.mpr ⟨fun b hb => Nat.le_of_lt (hlt b hb), le_rfl⟩
      unspent := by
        intro u hu
        rcases List.mem_append.mp (hentries.subset hu) with hu | hu
        · exact (h.unspent u hu).mono hold
        · obtain ⟨t, ht⟩ := hnew u hu
          exact ⟨mined, by simp [State.appendBlock], t, ht⟩
      pool_refs := by simp [State.appendBlock, inputRefs]
      pool := by simp [State.appendBlock]
      apart := List.Pairwise.nil
      nodup := by
        intro hfree
        have hfree' := hfree.mono (hashedStrings_subset (List.prefix_append _ _))
        refine List.Nodup.sublist (hentries.map _) ?_
        rw [List.map_append, List.nodup_append]
        refine ⟨h.nodup hfree', nodup_refs_newEntries (h.pairwise_ids_mined hmined hsub hfree)
          (h.nodup_hashes_mined hmined hsub hfree), ?_⟩
        -- an old reference names a block with a smaller index
        intro r hr r' hr' heq
        obtain ⟨u, hu, rfl⟩ := List.mem_map.mp hr
        obtain ⟨v, hv, rfl⟩ := List.mem_map.mp hr'
        obtain ⟨b, hb, t, hsource⟩ := h.unspent u hu
        obtain ⟨t', hsource'⟩ := hnew v hv
        have hinfo := hsource.info_eq hfree hsource' (hold hb) (by simp [State.appendBlock])
          (congrArg OutRef.blockHash heq)
        have hindex := hlt b hb
        rw [hinfo] at hindex
        exact absurd hindex (Nat.lt_irrefl _) }

end Identified

/-! ### Runs -/

variable [DecidableEq φ]

/-- Every command but `load` keeps the invariant, unless it splits evenly. -/
theorem identified_findCommand (hsort : ∀ cmp l, (E.llistSort cmp l).Perm l) {ω : Oracle}
    {s s' : State κ φ} {c : Command κ φ} {reply : Reply} (hload : ∀ path, c ≠ .load path)
    (heven : ¬ SplitsEvenly E ω s c) (h : findCommand E ω s c = .ok (reply, s'))
    (hs : Identified E s) : Identified E s' := by
  cases findCommand_transition E h with
  | unchanged => exact hs
  | wallet wallet => exact { hs with }
  | walletSave files => exact { hs with }
  | save hbytes => exact { hs with }
  | list => exact hs.perm (hsort _ _)
  | send hcreate hvalid =>
    rcases handleSend_eq_ok E h with ⟨-, heq⟩ | ⟨tx, hcreate, -, -, heq⟩
    · rw [heq]
      exact hs
    · rw [heq]
      exact hs.send heven hcreate
  | reject hpool => exact hs.reject (filterPool_eq_ok E le_rfl hpool).1
  | append hmined hvalid => exact hs.append hmined hvalid
  | load hload' => exact absurd rfl (hload _)

/-- In every state that a run without loads reaches, and without a `send` that splits evenly, no two
unspent outputs share a reference. -/
theorem run_refs_nodup (hsort : ∀ cmp l, (E.llistSort cmp l).Perm l)
    {files : φ → Option (List UInt8)} {cmds : List (Command κ φ × Oracle)} {s : State κ φ}
    (hrun : run E (initialState files) cmds = .ok s)
    (hload : ∀ p ∈ cmds, ∀ path, p.1 ≠ .load path)
    (hfree : CollisionFree E (hashedStrings E s.blockchain.chain))
    (hmeet : StepsMeet E (fun ω s c => ¬ SplitsEvenly E ω s c) (initialState files) cmds) :
    (s.blockchain.unspent.map UnspentTxOut.ref).Nodup := by
  have hs : Identified E s :=
    run_preserves_of_stepsMeet E
      (fun _ _ _ _ _ hc heven h hs => identified_findCommand hsort hc heven h hs) hload hmeet hrun
      (identified_initialState E files)
  exact hs.nodup hfree

/-! ### Two runs -/

/-- In the run in which key 1 sends key 2 a part of its reward, no `send` splits evenly. -/
theorem mineSendMine_refs_nodup :
    ∃ s, run sampleEnv (initialState fun _ => none) mineSendMine = .ok s ∧
      (s.blockchain.unspent.map UnspentTxOut.ref).Nodup := by
  have hchecked : ((checkedRun sampleEnv [] (initialState fun _ => none) mineSendMine).map fun s =>
      decide ((hashedStrings sampleEnv s.blockchain.chain).dedup.map sampleEnv.sha256).Nodup) =
        some true := by
    decide +kernel
  obtain ⟨s, hs, hnodup⟩ := Option.map_eq_some_iff.mp hchecked
  have hrun := (checkedRun_eq_some sampleEnv hs).1
  exact ⟨s, hrun, run_refs_nodup sampleEnv_llistSort_perm hrun (by simp [mineSendMine])
    (collisionFree_of_nodup (of_decide_eq_true hnodup)) (by decide +kernel)⟩

/-- Key 1 mines a block, sends itself a half of the reward and mines another block. -/
def sendHalfToSelf : List (Command ℕ ℕ × Oracle) :=
  [.walletCreate (some 1), .mine,
    .send 25 ([0x30, 0x34, 0x30, 0x31] ++ List.replicate 126 0x30), .mine].map
      fun c => (c, sampleOracle)

/-- Commands can lead to two unspent outputs with one reference. -/
theorem not_run_refs_nodup :
    ¬ ∀ (cmds : List (Command ℕ ℕ × Oracle)) (s : State ℕ ℕ),
      run sampleEnv (initialState fun _ => none) cmds = .ok s →
      (∀ p ∈ cmds, ∀ path, p.1 ≠ .load path) →
      CollisionFree sampleEnv (hashedStrings sampleEnv s.blockchain.chain) →
        (s.blockchain.unspent.map UnspentTxOut.ref).Nodup := by
  intro h
  have hchecked : ((checkedRun sampleEnv [] (initialState fun _ => none) sendHalfToSelf).map
      fun s => (decide ((hashedStrings sampleEnv s.blockchain.chain).dedup.map
          sampleEnv.sha256).Nodup,
        decide (s.blockchain.unspent.map UnspentTxOut.ref).Nodup)) = some (true, false) := by
    decide +kernel
  obtain ⟨s, hs, hfacts⟩ := Option.map_eq_some_iff.mp hchecked
  obtain ⟨hnodup, hrefs⟩ := Prod.mk.inj hfacts
  have hrun := (checkedRun_eq_some sampleEnv hs).1
  exact of_decide_eq_false hrefs (h sendHalfToSelf s hrun (by simp [sendHalfToSelf])
    (collisionFree_of_nodup (of_decide_eq_true hnodup)))

end HolbertonChain
