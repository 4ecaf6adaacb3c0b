import HolbertonChain.Cli.Equiv.Accounting
import HolbertonChain.Cli.Equiv.Clients

/-!
# Where the inputs of the chain come from

A chain keeps no list of its unspent outputs to check it against; that what its transactions spend
was ever created follows from how the chain grew.  In every state that clients reach, the unspent
outputs are entries for outputs of the chain (`chainEntries`), and a transaction of the pool is only
mined if it is valid against them.  So each transaction behind a coinbase spends outputs of earlier
blocks, under signatures of their owners, and pays out what these hold modulo `2 ^ 32`
(`reached_spends_earlier`).  That takes no assumption about SHA-256 or about signatures.
-/

namespace HolbertonChain

open AppendLog

variable {κ φ : Type} (E : Env κ)

/-! ### Sources -/

/-- An entry for each output of the chain, in order. -/
def chainEntries (chain : List Block) : List UnspentTxOut :=
  chain.flatMap fun b => newEntries b.hash b.txs

theorem chainEntries_append (chain : List Block) (b : Block) :
    chainEntries (chain ++ [b]) = chainEntries chain ++ newEntries b.hash b.txs := by
  simp [chainEntries]

/-- What an entry of the chain is made of. -/
theorem mem_chainEntries {chain : List Block} {u : UnspentTxOut} :
    u ∈ chainEntries chain ↔
      ∃ b ∈ chain, ∃ t ∈ b.txs, ∃ o ∈ t.outputs, u = unspentTxOutCreate b.hash t.id o := by
  simp only [chainEntries, newEntries, List.mem_flatMap, List.mem_map]
  constructor
  · rintro ⟨b, hb, t, ht, o, ho, rfl⟩
    exact ⟨b, hb, t, ht, o, ho, rfl⟩
  · rintro ⟨b, hb, t, ht, o, ho, rfl⟩
    exact ⟨b, hb, t, ht, o, ho, rfl⟩

/-- The inputs of the transaction refer, in their order, to the outputs `sources` of the blocks
`before`, each input signed under the key of its source, and the outputs pay out what the sources
hold, modulo `2 ^ 32`. -/
structure SpendsFrom (before : List Block) (t : Transaction) (sources : List UnspentTxOut) :
    Prop where
  subset : ∀ u ∈ sources, u ∈ chainEntries before
  signed : List.Forall₂ (fun i u => i.ref = u.ref ∧
    ecVerify E (ecFromPub E u.out.pub) t.id i.sig = true) t.inputs sources
  amount_eq : selectedAmount sources = amountOut t.outputs

/-- What valid inputs match. -/
theorem forall₂_matched {U : List UnspentTxOut} {id : Digest} {is : List TxIn}
    (h : ∀ i ∈ is, ∃ u, U.find? (inOutMatch i) = some u ∧
      ecVerify E (ecFromPub E u.out.pub) id i.sig = true) :
    List.Forall₂ (fun i u => i.ref = u.ref ∧ ecVerify E (ecFromPub E u.out.pub) id i.sig = true)
      is (matched U is) := by
  induction is with
  | nil => exact .nil
  | cons i is ih =>
    rw [List.forall_mem_cons] at h
    obtain ⟨⟨u, hfind, hverify⟩, h⟩ := h
    have hmatched : matched U (i :: is) = u :: matched U is := by
      rw [matched, List.filterMap_cons, hfind, matched]
    rw [hmatched]
    exact .cons ⟨inOutMatch_eq_true_iff.mp (List.find?_some hfind), hverify⟩ (ih h)

/-- A valid transaction spends from the blocks whose entries the unspent outputs are. -/
theorem spendsFrom_of_transactionIsValid {U : List UnspentTxOut} {before : List Block}
    (hU : ∀ u ∈ U, u ∈ chainEntries before) {hashBuff : Digest} {t : Transaction}
    (h : transactionIsValid E hashBuff t U = .ok true) :
    SpendsFrom E before t (matched U t.inputs) := by
  obtain ⟨-, hinputs, hamount⟩ := (transactionIsValid_eq_true_iff E).mp h
  refine ⟨fun u hu => ?_, forall₂_matched E hinputs, hamount⟩
  obtain ⟨i, -, hfind⟩ := List.mem_filterMap.mp hu
  exact hU u (List.mem_of_find?_eq_some hfind)

/-! ### The invariant -/

/-- The unspent outputs are outputs of the chain, and each block spends from those in front. -/
structure Sourced (bc : Blockchain) : Prop where
  unspent : ∀ u ∈ bc.unspent, u ∈ chainEntries bc.chain
  log : Log genesisBlock
    (fun before _ b => ∀ t ∈ b.txs.tail, ∃ sources, SpendsFrom E before t sources) bc.chain

theorem sourced_blockchainCreate : Sourced E blockchainCreate where
  unspent := by simp [blockchainCreate]
  log := .start

variable {E}

/-- A mined block spends from the chain it is appended to. -/
theorem Sourced.append {ω : Oracle} {s : State κ φ} {prev mined : Block} {pub : Pub}
    {txPool : List Transaction} (h : Sourced E s.blockchain)
    (hmined : MinedOn E ω s prev pub txPool mined) :
    Sourced E (s.appendBlock mined).blockchain where
  unspent := by
    intro u hu
    have htxs : mined.transactions = some mined.txs := by
      rw [hmined.txs_eq, hmined.transactions_eq]
    show u ∈ chainEntries (s.blockchain.chain ++ [mined])
    rw [chainEntries_append]
    have hsub := updateUnspent_sublist mined.txs mined.hash s.blockchain.unspent
    rw [← htxs] at hsub
    rcases List.mem_append.mp (hsub.subset hu) with hu | hu
    · exact List.mem_append_left _ (h.unspent u hu)
    · exact List.mem_append_right _ hu
  log := by
    refine .append h.log hmined.prev_eq fun t ht => ?_
    rw [hmined.txs_eq, List.tail_cons] at ht
    have hvalid := (filterPool_eq_ok E le_rfl hmined.pool_eq).2 t ht
    exact ⟨_, spendsFrom_of_transactionIsValid E h.unspent hvalid⟩

variable [DecidableEq φ]

/-- What `list` does: the order of the unspent outputs is of no account. -/
theorem Sourced.perm {bc : Blockchain} (h : Sourced E bc) {U : List UnspentTxOut}
    (hperm : U.Perm bc.unspent) : Sourced E { bc with unspent := U } :=
  ⟨fun u hu => h.unspent u (hperm.subset hu), h.log⟩

theorem Reached.sourced (hsort : ∀ cmp l, (E.llistSort cmp l).Perm l)
    {cond : Oracle → State κ φ → Command κ φ → Prop} {s : State κ φ} (h : Reached E cond s) :
    Sourced E s.blockchain := by
  refine h.rule (P := fun s => Sourced E s.blockchain) ?_ ?_ ?_ ?_
  · exact fun _ => sourced_blockchainCreate E
  · exact fun _ _ hs => hs
  · intro ω s s' c _ _ hload _ hstep hs
    cases hstep with
    | append hmined hvalid => exact hs.append hmined
    | list => exact hs.perm (hsort _ _)
    | load hload' => exact absurd rfl (hload _)
    | unchanged | wallet | walletSave | send | reject | save => exact hs
  · exact fun _ _ _ _ _ _ _ ht => ht

/-- In every state that clients reach, each transaction behind a coinbase spends outputs of earlier
blocks: its inputs name them by block hash, transaction ID and output hash, and are signed under
their keys. -/
theorem reached_spends_earlier (hsort : ∀ cmp l, (E.llistSort cmp l).Perm l)
    {cond : Oracle → State κ φ → Command κ φ → Prop} {s : State κ φ} (h : Reached E cond s) {i : ℕ}
    {b : Block} (hb : s.blockchain.chain[i]? = some b) {t : Transaction} (ht : t ∈ b.txs.tail) :
    ∃ sources : List UnspentTxOut,
      (∀ u ∈ sources, ∃ j < i, ∃ b', s.blockchain.chain[j]? = some b' ∧
        ∃ t' ∈ b'.txs, ∃ o ∈ t'.outputs, u = unspentTxOutCreate b'.hash t'.id o) ∧
      List.Forall₂ (fun i u => i.ref = u.ref ∧
        ecVerify E (ecFromPub E u.out.pub) t.id i.sig = true) t.inputs sources ∧
      selectedAmount sources = amountOut t.outputs := by
  have hs := h.sourced hsort
  cases i with
  | zero =>
    -- the genesis block has no transaction
    rw [← List.head?_eq_getElem?, hs.log.head?_eq] at hb
    obtain rfl := Option.some.inj hb
    cases ht
  | succ i =>
    have hlen : i + 1 < s.blockchain.chain.length := (List.getElem?_eq_some_iff.mp hb).1
    have hprev := List.getElem?_eq_getElem (Nat.lt_of_succ_lt hlen)
    obtain ⟨sources, hsources⟩ := hs.log.getElem hprev hb t ht
    refine ⟨sources, fun u hu => ?_, hsources.signed, hsources.amount_eq⟩
    obtain ⟨b', hb', t', ht', o, ho, heq⟩ := mem_chainEntries.mp (hsources.subset u hu)
    obtain ⟨j, hj, hget⟩ := List.mem_take_iff_getElem.mp hb'
    refine ⟨j, by omega, b', ?_, t', ht', o, ho, heq⟩
    rw [← hget]
    exact List.getElem?_eq_getElem _

/-- In the run in which key 1 sends key 2 a part of its reward, the transaction of the third block
spends the reward of the second. -/
theorem mineSendMine_spends_earlier :
    ∃ s b t, run sampleEnv (initialState fun _ => none) mineSendMine = .ok s ∧
      s.blockchain.chain[2]? = some b ∧ t ∈ b.txs.tail ∧
      ∃ sources : List UnspentTxOut,
        (∀ u ∈ sources, ∃ j < 2, ∃ b', s.blockchain.chain[j]? = some b' ∧
          ∃ t' ∈ b'.txs, ∃ o ∈ t'.outputs, u = unspentTxOutCreate b'.hash t'.id o) ∧
        List.Forall₂ (fun i u => i.ref = u.ref ∧
          ecVerify sampleEnv (ecFromPub sampleEnv u.out.pub) t.id i.sig = true)
            t.inputs sources ∧
        selectedAmount sources = amountOut t.outputs := by
  have hchecked : ((checkedRun sampleEnv [] (initialState fun _ => none) mineSendMine).map fun s =>
      ((s.blockchain.chain[2]?.map fun b => b.txs.tail.length))) = some (some 1) := by
    decide +kernel
  obtain ⟨s, hs, hlen⟩ := Option.map_eq_some_iff.mp hchecked
  obtain ⟨b, hb, hlen⟩ := Option.map_eq_some_iff.mp hlen
  obtain ⟨t, ht⟩ : ∃ t, t ∈ b.txs.tail := List.exists_mem_of_length_pos (by omega)
  obtain ⟨hrun, hloads, hshort⟩ := checkedRun_eq_some sampleEnv hs
  have hreached : Reached sampleEnv (fun _ _ _ => True) s :=
    run_reached (.start _) hrun hloads hshort (stepsMeet_true _ _ _) (by simp)
  exact ⟨s, b, t, hrun, hb, ht,
    reached_spends_earlier sampleEnv_llistSort_perm hreached hb ht⟩

end HolbertonChain
