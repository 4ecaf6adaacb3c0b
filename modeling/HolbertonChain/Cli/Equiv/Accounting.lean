import HolbertonChain.Cli.Equiv.ChainIntegrity
import HolbertonChain.Transaction.Equiv.Coins

/-!
# The books of the client

As long as the client loads nothing, the unspent outputs hold exactly the coins that the
transactions of the chain created less those that its inputs name, and they are worth 50 for each
block behind the genesis block (`run_accounting`).

Nothing in the client tests for this.  The invariant is `Books`: the chain and the unspent outputs
are the two sides of a `Ledger`, and the pool is covered by it.  That the inputs of the pool refer,
each to another one, to unspent outputs is what `transaction_create` sees to; it tests four bytes of
each field only, which may make it pass over an output but never take one twice
(`usedInPool_of_mem`).
-/

namespace HolbertonChain

open AppendLog Bytes CoinLedger WrapSum

variable {κ φ : Type} (E : Env κ)

/-! ### The coins of the chain -/

/-- The coins that the transactions of the chain create. -/
def createdCoins (chain : List Block) : Multiset Coin := paidCoins (chain.flatMap Block.txs)

/-- The output hashes that the inputs of the chain name, apart from those of the coinbase
transactions, which come first. -/
def spentHashes (chain : List Block) : Multiset Digest :=
  (inputHashes (chain.flatMap fun b => b.txs.tail) : List Digest)

theorem createdCoins_append (chain : List Block) (b : Block) :
    createdCoins (chain ++ [b]) = createdCoins chain + paidCoins b.txs := by
  simp [createdCoins]

theorem createdCoins_subset {chain chain' : List Block} (h : chain <+: chain') :
    createdCoins chain ⊆ createdCoins chain' := by
  obtain ⟨rest, rfl⟩ := h
  intro c hc
  rw [createdCoins, List.flatMap_append, paidCoins_append]
  exact Multiset.mem_add.mpr (Or.inl hc)

theorem spentHashes_append (chain : List Block) (b : Block) :
    spentHashes (chain ++ [b]) = spentHashes chain + (inputHashes b.txs.tail : List Digest) := by
  simp [spentHashes, inputHashes]

/-- SHA-256 gives the coins different names, and none that is the block index of a coinbase input
with zeros behind it. -/
structure NamesApart (coins : Multiset Coin) : Prop where
  injOn : Set.InjOn (paymentHash E) {c | c ∈ coins}
  ne_coinbaseOutHash : ∀ c ∈ coins, ∀ blockIndex, paymentHash E c ≠ coinbaseOutHash E blockIndex

theorem NamesApart.mono {coins coins' : Multiset Coin} (h : NamesApart E coins')
    (hsub : coins ⊆ coins') : NamesApart E coins where
  injOn := h.injOn.mono fun _ hc => hsub hc
  ne_coinbaseOutHash c hc := h.ne_coinbaseOutHash c (hsub hc)

/-- Behind the block index there are zeros. -/
theorem drop_coinbaseOutHash (blockIndex : UInt32) :
    (coinbaseOutHash E blockIndex).toList.drop 4 = List.replicate 28 0 := by
  simp [coinbaseOutHash, ofList]

/-! ### The pool -/

/-- The references of the inputs, cut down to the hashes. -/
theorem map_txOutHash_inputRefs (ts : List Transaction) :
    (inputRefs ts).map OutRef.txOutHash = inputHashes ts := by
  rw [inputRefs, inputHashes, List.map_map]
  rfl

/-- Selecting outputs that the pool does not use, a transaction more keeps the references of the
pool apart. -/
theorem inputRefs_append_subperm {txPool : List Transaction} {tx : Transaction}
    {U selected : List UnspentTxOut}
    (hpool : (inputRefs txPool).Subperm (U.map UnspentTxOut.ref))
    (hselected : selected.Sublist (U.filter fun u => !usedInPool txPool u))
    (hrefs : tx.refs = selected.map UnspentTxOut.ref) :
    (inputRefs (txPool ++ [tx])).Subperm (U.map UnspentTxOut.ref) := by
  rw [inputRefs_append, inputRefs_singleton, hrefs, List.subperm_iff_count]
  intro r
  rw [List.count_append]
  by_cases hr : r ∈ inputRefs txPool
  · -- the pool uses `r`, so it was not selected
    have hnot : r ∉ selected.map UnspentTxOut.ref := by
      intro hmem
      obtain ⟨u, hu, rfl⟩ := List.mem_map.mp hmem
      have hunused := (List.mem_filter.mp (hselected.subset hu)).2
      rw [usedInPool_of_mem hr] at hunused
      exact absurd hunused (by decide)
    rw [List.count_eq_zero.mpr hnot, Nat.add_zero]
    exact List.subperm_iff_count.mp hpool r
  · rw [List.count_eq_zero.mpr hr, Nat.zero_add]
    exact ((hselected.trans List.filter_sublist).map _).count_le r

/-! ### The reward -/

/-- The unspent output for the reward of a mined block. -/
def rewardEntry (prev mined : Block) (pub : Pub) : UnspentTxOut :=
  unspentTxOutCreate mined.hash (coinbaseWith E (prev.info.index + 1) (rewardOut E pub)).id
    (rewardOut E pub)

/-- A mined block creates the reward and what the transactions of the pool pay out. -/
theorem MinedOn.createdCoins_eq {E : Env κ} {ω : Oracle} {s : State κ φ} {prev mined : Block}
    {pub : Pub} {txPool : List Transaction} (h : MinedOn E ω s prev pub txPool mined) :
    createdCoins (s.blockchain.chain ++ [mined]) =
      createdCoins s.blockchain.chain + {(coinbaseAmount, pub)} + paidCoins txPool := by
  rw [createdCoins_append, h.txs_eq, paidCoins_cons, add_assoc]
  rfl

/-! ### The invariant -/

/-- The ledger `L` is that of the chain and of the unspent outputs, and covers the pool. -/
structure Books (s : State κ φ) (L : Ledger Coin) : Prop where
  created_eq : L.created = createdCoins s.blockchain.chain
  unspent_eq : L.unspent = unspentCoins s.blockchain.unspent
  spent_eq : L.spent.map (paymentHash E) = spentHashes s.blockchain.chain
  honest : ∀ u ∈ s.blockchain.unspent, u.out.Honest E
  value_eq : value coinValue L.unspent + 50 = 50 * s.blockchain.chain.length
  reserved : (inputRefs s.txPool).Subperm (s.blockchain.unspent.map UnspentTxOut.ref)
  funded : ∀ t ∈ s.txPool, Funded E L.created t

theorem books_initialState (files : φ → Option (List UInt8)) :
    Books E (initialState files : State κ φ) Ledger.empty where
  created_eq := rfl
  unspent_eq := rfl
  spent_eq := rfl
  honest := by simp [initialState, blockchainCreate]
  value_eq := rfl
  reserved := List.nil_subperm
  funded := by simp [initialState]

namespace Books

variable {E} {s : State κ φ} {L : Ledger Coin}

theorem mem_created (h : Books E s L) {u : UnspentTxOut} (hu : u ∈ s.blockchain.unspent) :
    u.out.payment ∈ L.created := by
  apply Ledger.mem_created_of_mem_unspent
  rw [h.unspent_eq]
  exact mem_unspentCoins hu

theorem total_unspent (h : Books E s L) :
    total (fun u : UnspentTxOut => u.out.amount) s.blockchain.unspent + 50 =
      50 * s.blockchain.chain.length := by
  rw [← value_unspentCoins, ← h.unspent_eq]
  exact h.value_eq

/-- What `list` does: the order of the unspent outputs is of no account. -/
theorem perm (h : Books E s L) {U : List UnspentTxOut} (hperm : U.Perm s.blockchain.unspent) :
    Books E { s with blockchain := { s.blockchain with unspent := U } } L where
  created_eq := h.created_eq
  unspent_eq := h.unspent_eq.trans (unspentCoins_perm hperm).symm
  spent_eq := h.spent_eq
  honest u hu := h.honest u (hperm.subset hu)
  value_eq := h.value_eq
  reserved := h.reserved.trans (hperm.map _).symm.subperm
  funded := h.funded

/-- What a rejected block does: a part of the pool is left. -/
theorem reject (h : Books E s L) {txPool : List Transaction} (hsub : txPool.Sublist s.txPool) :
    Books E { s with txPool } L where
  created_eq := h.created_eq
  unspent_eq := h.unspent_eq
  spent_eq := h.spent_eq
  honest := h.honest
  value_eq := h.value_eq
  reserved := (inputRefs_sublist hsub).subperm.trans h.reserved
  funded t ht := h.funded t (hsub.subset ht)

/-- A transaction that was created is covered. -/
theorem send (h : Books E s L) {pubBuff : Pub} {rnd : ℕ → ℕ} {sender receiver : Option κ}
    {amount : UInt32} {tx : Transaction} (hlength : 50 * s.blockchain.chain.length < 2 ^ 32)
    (hcreate : transactionCreate E pubBuff rnd sender receiver amount s.blockchain.unspent
      s.txPool = .ok (some tx)) :
    Books E { s with txPool := s.txPool ++ [tx] } L := by
  obtain ⟨-, hhonest, selected, hselected, hrefs, htotal⟩ := transactionCreate_eq_ok_some E hcreate
  have hsub : selected.Sublist s.blockchain.unspent := hselected.trans List.filter_sublist
  -- the selected amounts cannot wrap around, since all amounts together do not
  have hlt : total (fun u : UnspentTxOut => u.out.amount) selected < 2 ^ 32 := by
    have hle := total_sublist (fun u : UnspentTxOut => u.out.amount) hsub
    have hall := h.total_unspent
    omega
  have hfunded : Funded E L.created tx := by
    refine ⟨hhonest, unspentCoins selected, ?_, ?_, ?_⟩
    · intro c hc
      obtain ⟨u, hu, rfl⟩ := List.mem_map.mp (Multiset.mem_coe.mp hc)
      exact h.mem_created (hsub.subset hu)
    · have hhashes := congrArg (List.map OutRef.txOutHash) hrefs
      rw [Transaction.refs, List.map_map, List.map_map] at hhashes
      rw [map_paymentHash_unspentCoins E fun u hu => h.honest u (hsub.subset hu)]
      exact congrArg _ hhashes.symm
    · rw [value_unspentCoins, htotal hlt]
  exact
    { created_eq := h.created_eq
      unspent_eq := h.unspent_eq
      spent_eq := h.spent_eq
      honest := h.honest
      value_eq := h.value_eq
      reserved := inputRefs_append_subperm h.reserved hselected hrefs
      funded := forall_mem_concat.mpr ⟨h.funded, hfunded⟩ }

/-! ### Mining -/

/-- The input of the coinbase transaction takes nothing out. -/
theorem updateUnspent_mined (h : Books E s L) {ω : Oracle} {prev mined : Block} {pub : Pub}
    {txPool : List Transaction} (hmined : MinedOn E ω s prev pub txPool mined)
    (hapart : NamesApart E L.created) :
    updateUnspent mined.transactions mined.hash s.blockchain.unspent =
      updateUnspent (some txPool) mined.hash
        (s.blockchain.unspent ++ [rewardEntry E prev mined pub]) := by
  rw [hmined.transactions_eq]
  apply updateUnspent_coinbase
  intro u hu
  rw [UnspentTxOut.hash, h.honest u hu]
  exact hapart.ne_coinbaseOutHash _ (h.mem_created hu) _

/-- The entries the pool refers to are there, whatever stands behind. -/
theorem inputHashes_subperm (h : Books E s L) {txPool : List Transaction}
    (hsub : txPool.Sublist s.txPool) (V : List UnspentTxOut) :
    (inputHashes txPool).Subperm ((s.blockchain.unspent ++ V).map UnspentTxOut.hash) := by
  obtain ⟨refs, hperm, hrefs⟩ := (inputRefs_sublist hsub).subperm.trans h.reserved
  have hhashes : (inputHashes txPool).Subperm (s.blockchain.unspent.map UnspentTxOut.hash) := by
    refine ⟨refs.map OutRef.txOutHash, ?_, ?_⟩
    · rw [← map_txOutHash_inputRefs]
      exact hperm.map _
    · have hmap := hrefs.map OutRef.txOutHash
      rwa [List.map_map] at hmap
  rw [List.map_append]
  exact hhashes.trans (List.sublist_append_left _ _).subperm

/-- The coins of the unspent outputs, once the reward is there. -/
theorem unspentCoins_reward (h : Books E s L) (prev mined : Block) (pub : Pub) :
    unspentCoins (s.blockchain.unspent ++ [rewardEntry E prev mined pub]) =
      (L.mint {(coinbaseAmount, pub)}).unspent := by
  rw [unspentCoins_append, ← h.unspent_eq]
  rfl

theorem honest_reward (h : Books E s L) (prev mined : Block) (pub : Pub) :
    ∀ u ∈ s.blockchain.unspent ++ [rewardEntry E prev mined pub], u.out.Honest E :=
  forall_mem_concat.mpr ⟨h.honest, rfl⟩

/-- A mined block creates the reward, spends the coins that the pool names and creates those that
the pool pays out. -/
theorem append (h : Books E s L) {ω : Oracle} {prev mined : Block} {pub : Pub}
    {txPool : List Transaction} (hmined : MinedOn E ω s prev pub txPool mined)
    (hapart : NamesApart E (createdCoins (s.blockchain.chain ++ [mined]))) :
    ∃ L', Books E (s.appendBlock mined) L' := by
  have hsub := (filterPool_eq_ok E le_rfl hmined.pool_eq).1
  obtain ⟨coins, hcoins, hnames, hvalue⟩ :=
    exists_coins_of_funded E fun t ht => h.funded t (hsub.subset ht)
  -- the ledger with the reward, of which the pool's coins are spent
  let L₁ := L.mint {(coinbaseAmount, pub)}
  have hcreated : createdCoins (s.blockchain.chain ++ [mined]) =
      L₁.created + paidCoins txPool := by
    rw [hmined.createdCoins_eq, ← h.created_eq]
    rfl
  have hold : L.created ⊆ createdCoins (s.blockchain.chain ++ [mined]) := by
    rw [h.created_eq]
    exact createdCoins_subset (List.prefix_append _ _)
  have hentries := h.unspentCoins_reward prev mined pub
  have hhonest := h.honest_reward prev mined pub
  have hthere := h.inputHashes_subperm hsub [rewardEntry E prev mined pub]
  have hupdate := h.updateUnspent_mined hmined (hapart.mono E hold)
  have hunspent : unspentCoins (s.blockchain.unspent ++ [rewardEntry E prev mined pub]) ⊆
      createdCoins (s.blockchain.chain ++ [mined]) := by
    intro c hc
    rw [hentries] at hc
    rw [hcreated]
    exact Multiset.mem_add.mpr (Or.inl (Ledger.mem_created_of_mem_unspent hc))
  obtain ⟨kept, hkept, hafter⟩ := unspentCoins_updateUnspent E mined.hash hapart.injOn hhonest
    hunspent hthere (fun c hc => hold (hcoins hc)) hnames
  rw [hentries] at hkept
  refine ⟨L₁.transfer kept coins (paidCoins txPool) hkept, ?_⟩
  exact
    { created_eq := hcreated.symm
      unspent_eq := by
        rw [State.appendBlock, hupdate]
        exact hafter.symm
      spent_eq := by
        rw [State.appendBlock, spentHashes_append, hmined.txs_eq, ← h.spent_eq]
        show (L.spent + 0 + coins).map (paymentHash E) = _
        rw [add_zero, Multiset.map_add, hnames]
        rfl
      honest := by
        rw [State.appendBlock, hupdate]
        exact honest_updateUnspent E mined.hash hthere hhonest fun t ht =>
          (h.funded t (hsub.subset ht)).honest
      value_eq := by
        have hbefore := h.value_eq
        have hmint : value coinValue L₁.unspent = value coinValue L.unspent + 50 :=
          Ledger.value_mint coinValue L {(coinbaseAmount, pub)}
        have htransfer := Ledger.value_transfer coinValue L₁ (paidCoins txPool) hkept
        rw [State.appendBlock, List.length_append, List.length_singleton]
        omega
      reserved := List.nil_subperm
      funded := by simp [State.appendBlock] }

end Books

/-! ### Runs -/

variable {E} [DecidableEq φ]

/-- No command but `load` takes a block from the chain. -/
theorem Transition.chain_prefix {ω : Oracle} {s s' : State κ φ} {c : Command κ φ}
    (h : Transition E ω s c s') (hload : ∀ path, c ≠ .load path) :
    s.blockchain.chain <+: s'.blockchain.chain := by
  cases h with
  | append hmined hvalid => exact List.prefix_append _ _
  | load hload' => exact absurd rfl (hload _)
  | unchanged | wallet | walletSave | send | reject | list | save => exact List.prefix_refl _

/-- Every command but `load` keeps the books. -/
theorem Transition.books (hsort : ∀ cmp l, (E.llistSort cmp l).Perm l) {ω : Oracle}
    {s s' : State κ φ} {c : Command κ φ} (h : Transition E ω s c s')
    (hload : ∀ path, c ≠ .load path) (hlength : 50 * s.blockchain.chain.length < 2 ^ 32)
    (hapart : NamesApart E (createdCoins s'.blockchain.chain)) {L : Ledger Coin}
    (hs : Books E s L) : ∃ L', Books E s' L' := by
  cases h with
  | unchanged => exact ⟨L, hs⟩
  | wallet wallet => exact ⟨L, { hs with }⟩
  | walletSave files => exact ⟨L, { hs with }⟩
  | save hbytes => exact ⟨L, { hs with }⟩
  | list => exact ⟨L, hs.perm (hsort _ _)⟩
  | send hcreate hvalid => exact ⟨L, hs.send hlength hcreate⟩
  | reject hpool => exact ⟨L, hs.reject (filterPool_eq_ok E le_rfl hpool).1⟩
  | append hmined hvalid => exact hs.append hmined hapart
  | load hload' => exact absurd rfl (hload _)

/-- The books are kept, as long as the chain is not too long and SHA-256 tells its coins apart. -/
def Accounted (E : Env κ) (s : State κ φ) : Prop :=
  50 * s.blockchain.chain.length < 2 ^ 32 → NamesApart E (createdCoins s.blockchain.chain) →
    ∃ L, Books E s L

/-- What is assumed of the chain after a command holds before it, so the books were kept there. -/
theorem Transition.accounted (hsort : ∀ cmp l, (E.llistSort cmp l).Perm l) {ω : Oracle}
    {s s' : State κ φ} {c : Command κ φ} (hload : ∀ path, c ≠ .load path)
    (h : Transition E ω s c s') (hs : Accounted E s) : Accounted E s' := by
  intro hlength hapart
  have hprefix := h.chain_prefix hload
  have hlength' : 50 * s.blockchain.chain.length < 2 ^ 32 := by
    have hle := hprefix.length_le
    omega
  obtain ⟨L, hL⟩ := hs hlength' (hapart.mono E (createdCoins_subset hprefix))
  exact h.books hsort hload hlength' hapart hL

/-- A run without loads keeps the books. -/
theorem run_accounted (hsort : ∀ cmp l, (E.llistSort cmp l).Perm l)
    {files : φ → Option (List UInt8)} {cmds : List (Command κ φ × Oracle)} {s : State κ φ}
    (hrun : run E (initialState files) cmds = .ok s)
    (hload : ∀ p ∈ cmds, ∀ path, p.1 ≠ .load path) : Accounted E s := by
  have hstep : ∀ ω (s s' : State κ φ) (c : Command κ φ), (∀ path, c ≠ .load path) →
      Transition E ω s c s' → Accounted E s → Accounted E s' :=
    fun _ _ _ _ hc h hs => h.accounted hsort hc hs
  exact run_preserves E hstep hload hrun fun _ _ => ⟨Ledger.empty, books_initialState E files⟩

/-- In every state that a run without loads reaches, the unspent outputs hold the coins that the
transactions of the chain created, less one for each output hash that a non-coinbase input names,
and they are worth 50 for each block behind the genesis block. -/
theorem run_accounting (hsort : ∀ cmp l, (E.llistSort cmp l).Perm l)
    {files : φ → Option (List UInt8)} {cmds : List (Command κ φ × Oracle)} {s : State κ φ}
    (hrun : run E (initialState files) cmds = .ok s)
    (hload : ∀ p ∈ cmds, ∀ path, p.1 ≠ .load path)
    (hlength : 50 * s.blockchain.chain.length < 2 ^ 32)
    (hapart : NamesApart E (createdCoins s.blockchain.chain)) :
    (∃ spent : Multiset Coin,
      spent.map (paymentHash E) = spentHashes s.blockchain.chain ∧
        unspentCoins s.blockchain.unspent + spent = createdCoins s.blockchain.chain) ∧
      total (fun u : UnspentTxOut => u.out.amount) s.blockchain.unspent =
        50 * (s.blockchain.chain.length - 1) := by
  obtain ⟨L, hL⟩ := run_accounted hsort hrun hload hlength hapart
  refine ⟨⟨L.spent, hL.spent_eq, ?_⟩, ?_⟩
  · rw [← hL.unspent_eq, ← hL.created_eq]
    exact L.balanced
  · have htotal := hL.total_unspent
    omega

/-! ### A run -/

/-- Key 1 mines a block, sends key 2 a part of the reward, sorts the unspent outputs and mines
another block. -/
def mineSendMine : List (Command ℕ ℕ × Oracle) :=
  [.walletCreate (some 1), .mine,
    .send 30 ([0x30, 0x34, 0x30, 0x32] ++ List.replicate 126 0x30), .list, .mine].map
      fun c => (c, sampleOracle)

/-- The coins of the run: two rewards, what was sent, and the change. -/
def mineSendMineCoins : List Coin :=
  [(50, samplePub 1), (50, samplePub 1), (30, samplePub 2), (20, samplePub 1)]

/-- Their names are apart. -/
theorem mineSendMineCoins_namesApart :
    NamesApart sampleEnv (mineSendMineCoins : Multiset Coin) where
  injOn := by
    have hnodup : (mineSendMineCoins.dedup.map (paymentHash sampleEnv)).Nodup := by
      decide +kernel
    intro c hc c' hc' heq
    exact List.inj_on_of_nodup_map hnodup (List.mem_dedup.mpr hc) (List.mem_dedup.mpr hc') heq
  ne_coinbaseOutHash := by
    intro c hc blockIndex heq
    have htails : List.replicate 28 0 ∉
        mineSendMineCoins.map fun c => (paymentHash sampleEnv c).toList.drop 4 := by
      decide +kernel
    apply htails
    rw [← drop_coinbaseOutHash sampleEnv blockIndex, ← heq]
    exact List.mem_map_of_mem (f := fun c => (paymentHash sampleEnv c).toList.drop 4) hc

theorem mineSendMine_accounting :
    ∃ s, run sampleEnv (initialState fun _ => none) mineSendMine = .ok s ∧
      (∃ spent : Multiset Coin,
        spent.map (paymentHash sampleEnv) = spentHashes s.blockchain.chain ∧
          unspentCoins s.blockchain.unspent + spent = createdCoins s.blockchain.chain) ∧
        total (fun u : UnspentTxOut => u.out.amount) s.blockchain.unspent =
          50 * (s.blockchain.chain.length - 1) := by
  have hchecked : ((checkedRun sampleEnv [] (initialState fun _ => none) mineSendMine).map fun s =>
      (s.blockchain.chain.length,
        (s.blockchain.chain.flatMap Block.txs).flatMap Transaction.payments)) =
      some (3, mineSendMineCoins) := by
    decide +kernel
  obtain ⟨s, hs, hfacts⟩ := Option.map_eq_some_iff.mp hchecked
  obtain ⟨hlength, hcoins⟩ := Prod.mk.inj hfacts
  have hrun := (checkedRun_eq_some sampleEnv hs).1
  have hload : ∀ p ∈ mineSendMine, ∀ path, p.1 ≠ .load path := by simp [mineSendMine]
  have hapart : NamesApart sampleEnv (createdCoins s.blockchain.chain) := by
    rw [createdCoins, paidCoins, hcoins]
    exact mineSendMineCoins_namesApart
  exact ⟨s, hrun, run_accounting sampleEnv_llistSort_perm hrun hload
    (by rw [hlength]; decide) hapart⟩

end HolbertonChain
