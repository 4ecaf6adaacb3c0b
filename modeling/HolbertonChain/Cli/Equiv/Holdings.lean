import HolbertonChain.Cli.Equiv.Accepted

/-!
# Nobody else spends the outputs of a key

`update_unspent` takes out entries by hash, without a look at whose they are.  Still the unspent
outputs of a key stay where they are as long as nobody sends from that key: the inputs of the pool
refer to outputs of the wallets that sent them, an output of another key has another hash, and so
what is mined takes out none (`run_keeps_holdings`).
-/

namespace HolbertonChain

open CoinLedger List

variable {κ φ : Type} (E : Env κ)

/-- The unspent outputs of a key. -/
def holdings (k : Pub) (U : List UnspentTxOut) : List UnspentTxOut := U.filter (·.out.pub = k)

/-- The inputs of the pool refer to unspent outputs of other keys. -/
def SpendsNot (k : Pub) (s : State κ φ) : Prop :=
  ∀ r ∈ inputRefs s.txPool, ∃ u ∈ s.blockchain.unspent, u.ref = r ∧ u.out.pub ≠ k

/-- If the command sends, it does not send from the key. -/
def SendsNotFrom (k : Pub) (ω : Oracle) (s : State κ φ) (c : Command κ φ) : Prop :=
  ∀ _ ∈ c.sent, ∀ sender ∈ s.wallet, (ecToPub E sender).getD ω.pubBuff ≠ k

instance decidableSendsNotFrom (k : Pub) (ω : Oracle) (s : State κ φ) (c : Command κ φ) :
    Decidable (SendsNotFrom E k ω s c) :=
  inferInstanceAs (Decidable (∀ _ ∈ c.sent, ∀ _ ∈ s.wallet, _ ≠ k))

variable {E}

/-- A hash that the pool names is not that of an output of the key. -/
theorem SpendsNot.hash_notMem {k : Pub} {s : State κ φ} {L : Ledger Coin} (h : SpendsNot k s)
    (hL : Books E s L) (hapart : NamesApart E L.created) {u : UnspentTxOut}
    (hu : u ∈ s.blockchain.unspent) (hk : u.out.pub = k) : u.hash ∉ inputHashes s.txPool := by
  intro hmem
  rw [← map_txOutHash_inputRefs] at hmem
  obtain ⟨r, hr, hhash⟩ := mem_map.mp hmem
  obtain ⟨v, hv, rfl, hpub⟩ := h r hr
  -- outputs with one hash make one payment
  have hpayment := (hL.honestUnspent hapart).payment_eq E hv hu hhash
  rw [(Prod.mk.inj hpayment).2] at hpub
  exact hpub hk

/-- A mined block takes out no output of the key. -/
theorem SpendsNot.append {k : Pub} {s : State κ φ} {L : Ledger Coin} (h : SpendsNot k s)
    (hL : Books E s L) (hapart : NamesApart E L.created) {ω : Oracle} {prev mined : Block}
    {pub : Pub} {txPool : List Transaction} (hmined : MinedOn E ω s prev pub txPool mined) :
    holdings k s.blockchain.unspent <+~ holdings k (s.appendBlock mined).blockchain.unspent := by
  have hsub := (filterPool_eq_ok E le_rfl hmined.pool_eq).1
  have hthere := hL.inputHashes_subperm hsub []
  rw [append_nil] at hthere
  have hthere' := hL.inputHashes_subperm hsub [rewardEntry E prev mined pub]
  show holdings k _ <+~ holdings k (updateUnspent mined.transactions mined.hash _)
  rw [hL.updateUnspent_mined hmined hapart, updateUnspent_eq_append _ hthere',
    eraseKeys_append _ hthere, append_assoc, holdings, holdings, filter_append]
  have hstay : (eraseKeys UnspentTxOut.hash (inputHashes txPool) s.blockchain.unspent).filter
      (·.out.pub = k) = s.blockchain.unspent.filter (·.out.pub = k) := by
    refine filter_eraseKeys _ fun u hu hk hmem => ?_
    have hhashes : inputHashes txPool ⊆ inputHashes s.txPool :=
      ((hsub.flatMap _).map _).subset
    exact h.hash_notMem hL hapart hu (by simpa using hk) (hhashes hmem)
  rw [hstay]
  exact (sublist_append_left _ _).subperm

variable [DecidableEq φ]

/-- A command that does not send from the key leaves its outputs there. -/
theorem Transition.keepsHoldings (hsort : ∀ cmp l, (E.llistSort cmp l).Perm l) {ω : Oracle}
    {s s' : State κ φ} {c : Command κ φ} {k : Pub} (h : Transition E ω s c s')
    (hload : ∀ path, c ≠ .load path) (hsend : SendsNotFrom E k ω s c) {L : Ledger Coin}
    (hL : Books E s L) (hapart : NamesApart E L.created) (hs : SpendsNot k s) :
    holdings k s.blockchain.unspent <+~ holdings k s'.blockchain.unspent ∧ SpendsNot k s' := by
  cases h with
  | unchanged | wallet | walletSave | save => exact ⟨Subperm.refl _, hs⟩
  | list =>
    have hperm := hsort comparesUnspentTxOut s.blockchain.unspent
    refine ⟨(hperm.symm.filter _).subperm, fun r hr => ?_⟩
    obtain ⟨u, hu, hur⟩ := hs r hr
    exact ⟨u, hperm.symm.subset hu, hur⟩
  | send hcreate hvalid =>
    refine ⟨Subperm.refl _, fun r hr => ?_⟩
    obtain ⟨sender, receiver, selected, hsender, -, hc⟩ := exists_isCreated E hcreate
    rw [inputRefs_append, inputRefs_singleton, hc.refs_eq] at hr
    rcases mem_append.mp hr with hr | hr
    · exact hs r hr
    · obtain ⟨u, hu, rfl⟩ := mem_map.mp hr
      obtain ⟨hmem, hpub, -⟩ := hc.mem_selected hu
      exact ⟨u, hmem, rfl, hpub ▸ hsend (_, _) rfl sender hsender⟩
  | reject hpool =>
    have hsub := (filterPool_eq_ok E le_rfl hpool).1
    exact ⟨Subperm.refl _, fun r hr => hs r ((inputRefs_sublist hsub).subset hr)⟩
  | append hmined hvalid => exact ⟨hs.append hL hapart hmined, fun r hr => by cases hr⟩
  | load hload' => exact absurd rfl (hload _)

/-- As long as nobody sends from a key and the client loads nothing, the unspent outputs of the key
stay there, whatever else is sent and mined. -/
theorem run_keeps_holdings (hsort : ∀ cmp l, (E.llistSort cmp l).Perm l)
    {files : φ → Option (List UInt8)} {cmds cmds' : List (Command κ φ × Oracle)} {s s' : State κ φ}
    (hrun : run E (initialState files) cmds = .ok s) (hrun' : run E s cmds' = .ok s')
    (hload : ∀ p ∈ cmds ++ cmds', ∀ path, p.1 ≠ .load path)
    (hlength : 50 * s'.blockchain.chain.length < 2 ^ 32)
    (hapart : NamesApart E (createdCoins s'.blockchain.chain)) {k : Pub} (hpool : SpendsNot k s)
    (hmeet : StepsMeet E (SendsNotFrom E k) s cmds') :
    holdings k s.blockchain.unspent <+~ holdings k s'.blockchain.unspent := by
  rw [forall_mem_append] at hload
  have hs : KeepsPool E s := run_keepsPool hsort hrun hload.1 (keepsPool_initialState files)
  let P : State κ φ → Prop := fun t => KeepsPool E t ∧
    (50 * t.blockchain.chain.length < 2 ^ 32 → NamesApart E (createdCoins t.blockchain.chain) →
      holdings k s.blockchain.unspent <+~ holdings k t.blockchain.unspent ∧ SpendsNot k t)
  have hstep : ∀ ω (t t' : State κ φ) (c : Command κ φ) reply, (∀ path, c ≠ .load path) →
      SendsNotFrom E k ω t c → findCommand E ω t c = .ok (reply, t') → P t → P t' := by
    rintro ω t t' c reply hc hsend hfind ⟨hbooks, hholdings⟩
    have h := findCommand_transition E hfind
    refine ⟨h.keepsPool hsort hc hbooks, fun hlength hapart => ?_⟩
    obtain ⟨hlength', hapart'⟩ := h.assumed hc hlength hapart
    obtain ⟨⟨L, hL⟩, -⟩ := hbooks hlength' hapart'
    obtain ⟨hsofar, hspends⟩ := hholdings hlength' hapart'
    obtain ⟨hnext, hspends'⟩ :=
      h.keepsHoldings hsort hc hsend hL (hL.created_eq ▸ hapart') hspends
    exact ⟨hsofar.trans hnext, hspends'⟩
  have hP : P s' :=
    run_preserves_of_stepsMeet E hstep hload.2 hmeet hrun' ⟨hs, fun _ _ => ⟨Subperm.refl _, hpool⟩⟩
  exact (hP.2 hlength hapart).1

/-- Names that are apart, by what can be computed. -/
theorem namesApart_of_nodup {coins : List Coin}
    (hnodup : (coins.dedup.map (paymentHash E)).Nodup)
    (htails : replicate 28 0 ∉ coins.map fun c => (paymentHash E c).toList.drop 4) :
    NamesApart E (coins : Multiset Coin) where
  injOn c hc c' hc' heq :=
    inj_on_of_nodup_map hnodup (mem_dedup.mpr hc) (mem_dedup.mpr hc') heq
  ne_coinbaseOutHash c hc blockIndex heq := by
    apply htails
    rw [← drop_coinbaseOutHash E blockIndex, ← heq]
    exact mem_map_of_mem (f := fun c => (paymentHash E c).toList.drop 4) hc

/-- Key 1 mines a block; then key 2 does, sends key 1 a part of its reward, and mines another. -/
def mineByTwo : List (Command ℕ ℕ × Oracle) :=
  [.walletCreate (some 1), .mine, .walletCreate (some 2), .mine,
    .send 30 ([0x30, 0x34, 0x30, 0x31] ++ List.replicate 126 0x30), .mine].map
      fun c => (c, sampleOracle)

/-- What key 2 does leaves key 1 its reward. -/
theorem mineByTwo_keeps_holdings :
    ∃ s s', run sampleEnv (initialState fun _ => none) (mineByTwo.take 2) = .ok s ∧
      run sampleEnv s (mineByTwo.drop 2) = .ok s' ∧
      (holdings (samplePub 1) s.blockchain.unspent).length = 1 ∧
      holdings (samplePub 1) s.blockchain.unspent <+~
        holdings (samplePub 1) s'.blockchain.unspent := by
  have hchecked : ((checkedRun sampleEnv [] (initialState fun _ => none)
      (mineByTwo.take 2)).bind fun s =>
        (checkedRun sampleEnv [] s (mineByTwo.drop 2)).map fun s' =>
          ([s.txPool.length, s'.blockchain.chain.length,
            (holdings (samplePub 1) s.blockchain.unspent).length],
            (decide (StepsMeet sampleEnv (SendsNotFrom sampleEnv (samplePub 1)) s
              (mineByTwo.drop 2)),
            (s'.blockchain.chain.flatMap Block.txs).flatMap Transaction.payments))) =
      some ([0, 4, 1], (true, [(50, samplePub 1), (50, samplePub 2), (50, samplePub 2),
        (30, samplePub 1), (20, samplePub 2)])) := by
    decide +kernel
  obtain ⟨s, hs, hfacts⟩ := Option.bind_eq_some_iff.mp hchecked
  obtain ⟨s', hs', hfacts⟩ := Option.map_eq_some_iff.mp hfacts
  simp only [Prod.mk.injEq, cons.injEq, and_true, decide_eq_true_eq] at hfacts
  obtain ⟨⟨hpool, hlength, hheld⟩, hmeet, hcoins⟩ := hfacts
  have hrun := (checkedRun_eq_some sampleEnv hs).1
  have hrun' := (checkedRun_eq_some sampleEnv hs').1
  have hapart : NamesApart sampleEnv (createdCoins s'.blockchain.chain) := by
    rw [createdCoins, paidCoins, hcoins]
    exact namesApart_of_nodup (by decide +kernel) (by decide +kernel)
  have hspends : SpendsNot (samplePub 1) s := by
    intro r hr
    rw [length_eq_zero_iff.mp hpool] at hr
    cases hr
  exact ⟨s, s', hrun, hrun', hheld, run_keeps_holdings sampleEnv_llistSort_perm hrun hrun'
    (by simp [mineByTwo]) (by rw [hlength]; decide) hapart hspends hmeet⟩

end HolbertonChain
