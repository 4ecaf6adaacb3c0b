import HolbertonChain.Cli.Equiv.Accepted
import HolbertonChain.Cli.Equiv.References

/-!
# The register of outputs

A chain on which every output is spent at most once has a register: the references of all outputs it
created are different, and each of them is either that of an unspent output or was spent by exactly
one input (`run_registry`).  Nothing in the client keeps such a register.  `update_unspent` takes
out entries by their output hash, which payments of one amount to one key share, and takes out the
first it finds; so what it leaves is right only if, of entries with one hash, those in front are
spent first (`Ordered`).  `transaction_create` sees to that, since it takes the outputs of a key
from the front of the list on (`exists_take_selectLoop`), as long as

- no `send` splits evenly (`SplitsEvenly`), which makes one reference twice;
- no `send` passes over an unspent output for four bytes that it has in common with an input of the
  pool, and
- `list` does not exchange entries with one hash

(`KeepsOrder`).
-/

namespace HolbertonChain

open AppendLog CoinLedger List

variable {κ φ : Type} (E : Env κ)

/-! ### Selecting from the front -/

/-- The loop of `transaction_create` takes the first outputs that it does not pass over. -/
theorem exists_take_selectLoop (pub : Pub) (txPool : List Transaction) (amount : UInt32)
    (U : List UnspentTxOut) (acc : List TxIn × UInt32) :
    ∃ k, (selectLoop pub txPool amount U acc).1 =
      acc.1 ++ ((U.filter (isSelected pub txPool)).take k).map txInCreate := by
  induction U generalizing acc with
  | nil => exact ⟨0, by simp [selectLoop]⟩
  | cons u U ih =>
    rw [selectLoop]
    by_cases hu : isSelected pub txPool u = true
    · rw [selectUnspentIn_of_selected hu, filter_cons_of_pos hu]
      dsimp only
      split_ifs
      · exact ⟨1, by simp⟩
      · obtain ⟨k, hk⟩ := ih (acc.1 ++ [txInCreate u], acc.2 + u.out.amount)
        exact ⟨k + 1, by rw [hk]; simp⟩
    · rw [selectUnspentIn_of_not_selected hu, filter_cons_of_neg hu]
      split_ifs
      · exact ⟨0, by simp⟩
      · exact ih acc

theorem IsCreated.exists_take {E : Env κ} {pubBuff : Pub} {rnd : ℕ → ℕ} {sender receiver : κ}
    {amount : UInt32} {U : List UnspentTxOut} {txPool : List Transaction} {t : Transaction}
    {selected : List UnspentTxOut}
    (h : IsCreated E pubBuff rnd sender receiver amount U txPool t selected) :
    ∃ k, t.refs = ((U.filter (isSelected ((ecToPub E sender).getD pubBuff) txPool)).take k).map
      UnspentTxOut.ref := by
  obtain ⟨k, hk⟩ := exists_take_selectLoop ((ecToPub E sender).getD pubBuff) txPool amount U ([], 0)
  rw [h.loop_eq, nil_append] at hk
  refine ⟨k, ?_⟩
  -- the input made from an output has its reference
  have hrefs := congrArg (map TxIn.ref) hk
  rw [map_map, map_map] at hrefs
  rw [h.refs_eq]
  exact hrefs

/-! ### Entries with one hash -/

/-- Of entries with one hash, those in front are spent first. -/
def Ordered (U : List UnspentTxOut) (refs : List OutRef) : Prop :=
  U.Pairwise fun u v => u.hash = v.hash → v.ref ∈ refs → u.ref ∈ refs

theorem ordered_nil (U : List UnspentTxOut) : Ordered U [] :=
  pairwise_of_forall fun _ _ _ hv => absurd hv not_mem_nil

/-- Where entries with one hash are spent from the front, `update_unspent` takes out the entries
that the inputs refer to. -/
theorem Ordered.updateUnspent_eq {U : List UnspentTxOut} {ts : List Transaction} (bh : Digest)
    (h : Ordered U (inputRefs ts)) (hU : (U.map UnspentTxOut.ref).Nodup)
    (hts : (inputRefs ts).Nodup) (hmem : ∀ r ∈ inputRefs ts, r ∈ U.map UnspentTxOut.ref) :
    updateUnspent (some ts) bh U = U.filter (¬ ·.ref ∈ inputRefs ts) ++ newEntries bh ts := by
  have hperm := inputHashes_perm hU hts hmem
  have hsub : inputHashes ts <+~ U.map UnspentTxOut.hash :=
    hperm.subperm.trans (filter_sublist.map _).subperm
  rw [updateUnspent_eq_append bh hsub, append_left_inj, eraseKeys_perm _ hperm]
  exact (eraseKeys_eq_filter_iff _ hU.of_map).mpr h

/-- The references of the entries left, together with those spent, are the references there were. -/
theorem refs_filter_append_perm {U : List UnspentTxOut} {refs : List OutRef}
    (hU : (U.map UnspentTxOut.ref).Nodup) (hrefs : refs.Nodup)
    (hmem : ∀ r ∈ refs, r ∈ U.map UnspentTxOut.ref) :
    (U.filter (¬ ·.ref ∈ refs)).map UnspentTxOut.ref ++ refs ~ U.map UnspentTxOut.ref := by
  have hspent : (U.filter (·.ref ∈ refs)).map UnspentTxOut.ref ~ refs := by
    refine (perm_ext_iff_of_nodup (hU.sublist (filter_sublist.map _)) hrefs).mpr fun r => ?_
    constructor
    · intro hr
      obtain ⟨u, hu, rfl⟩ := mem_map.mp hr
      simpa using (mem_filter.mp hu).2
    · intro hr
      obtain ⟨u, hu, rfl⟩ := mem_map.mp (hmem r hr)
      exact mem_map.mpr ⟨u, mem_filter.mpr ⟨hu, by simpa using hr⟩, rfl⟩
  have hsplit := filter_append_perm (fun u : UnspentTxOut => decide (u.ref ∈ refs)) U
  calc (U.filter (¬ ·.ref ∈ refs)).map UnspentTxOut.ref ++ refs
      ~ (U.filter (¬ ·.ref ∈ refs)).map UnspentTxOut.ref ++
        (U.filter (·.ref ∈ refs)).map UnspentTxOut.ref := hspent.symm.append_left _
    _ ~ (U.filter (·.ref ∈ refs)).map UnspentTxOut.ref ++
        (U.filter (¬ ·.ref ∈ refs)).map UnspentTxOut.ref := perm_append_comm
    _ ~ U.map UnspentTxOut.ref := by
      rw [← map_append]
      simpa using hsplit.map UnspentTxOut.ref

/-! ### Commands -/

/-- If the command sends, it passes over no unspent output of the wallet but those the pool
spends. -/
def SelectsInOrder (ω : Oracle) (s : State κ φ) (c : Command κ φ) : Prop :=
  ∀ _ ∈ c.sent, ∀ sender ∈ s.wallet, ∀ u ∈ s.blockchain.unspent,
    u.out.pub = (ecToPub E sender).getD ω.pubBuff → usedInPool s.txPool u = true →
      u.ref ∈ inputRefs s.txPool

/-- If the command is `list`, it exchanges no entries with one hash. -/
def ListsInOrder (s : State κ φ) (c : Command κ φ) : Prop :=
  c.isList = true → ∀ u ∈ s.blockchain.unspent,
    (E.llistSort comparesUnspentTxOut s.blockchain.unspent).filter (·.hash = u.hash) =
      s.blockchain.unspent.filter (·.hash = u.hash)

/-- The command passes over no unspent output of the wallet but those the pool spends, and exchanges
no entries with one hash. -/
def KeepsOrder (ω : Oracle) (s : State κ φ) (c : Command κ φ) : Prop :=
  SelectsInOrder E ω s c ∧ ListsInOrder E s c

instance decidableKeepsOrder (ω : Oracle) (s : State κ φ) (c : Command κ φ) :
    Decidable (KeepsOrder E ω s c) :=
  inferInstanceAs <| Decidable <|
    (∀ _ ∈ c.sent, ∀ sender ∈ s.wallet, ∀ u ∈ s.blockchain.unspent,
      u.out.pub = (ecToPub E sender).getD ω.pubBuff → usedInPool s.txPool u = true →
        u.ref ∈ inputRefs s.txPool) ∧
    (c.isList = true → ∀ u ∈ s.blockchain.unspent,
      (E.llistSort comparesUnspentTxOut s.blockchain.unspent).filter (·.hash = u.hash) =
        s.blockchain.unspent.filter (·.hash = u.hash))

variable {E}

/-- A transaction that was created spends entries with one hash from the front, behind those that
the pool spends. -/
theorem Ordered.send {pubBuff : Pub} {rnd : ℕ → ℕ} {sender receiver : κ} {amount : UInt32}
    {U : List UnspentTxOut} {txPool : List Transaction} {tx : Transaction}
    {selected : List UnspentTxOut} (h : Ordered U (inputRefs txPool)) (hU : HonestUnspent E U)
    (hrefs : (U.map UnspentTxOut.ref).Nodup)
    (hc : IsCreated E pubBuff rnd sender receiver amount U txPool tx selected)
    (hused : ∀ u ∈ U, u.out.pub = (ecToPub E sender).getD pubBuff → usedInPool txPool u = true →
      u.ref ∈ inputRefs txPool) :
    Ordered U (inputRefs (txPool ++ [tx])) := by
  obtain ⟨k, hk⟩ := hc.exists_take
  have hfront := pairwise_mem_take_filter
    (isSelected ((ecToPub E sender).getD pubBuff) txPool) hrefs.of_map k
  unfold Ordered
  rw [inputRefs_append, inputRefs_singleton]
  refine (h.and hfront).imp_of_mem fun {u v} hu hv ⟨hpool, htake⟩ hhash hmem => ?_
  rcases mem_append.mp hmem with hmem | hmem
  · exact mem_append_left _ (hpool hhash hmem)
  · -- the entry is one that was selected, so the one in front has the sender's key too
    rw [hk] at hmem ⊢
    obtain ⟨w, hw, hwv⟩ := mem_map.mp hmem
    have hwU : w ∈ U := mem_of_mem_filter (mem_of_mem_take hw)
    obtain rfl := inj_on_of_nodup_map hrefs hwU hv hwv
    have hselected := (mem_filter.mp (mem_of_mem_take hw)).2
    rw [isSelected, Bool.and_eq_true, decide_eq_true_eq] at hselected
    have hpub : u.out.pub = (ecToPub E sender).getD pubBuff := by
      rw [← hselected.1]
      exact (Prod.mk.inj (hU.payment_eq E hu hv hhash)).2
    by_cases huPool : u.ref ∈ inputRefs txPool
    · exact mem_append_left _ huPool
    · have hunused : usedInPool txPool u = false :=
        Bool.eq_false_iff.mpr fun hused' => huPool (hused u hu hpub hused')
      have hsel : isSelected ((ecToPub E sender).getD pubBuff) txPool u = true := by
        rw [isSelected, hunused, decide_eq_true hpub]
        rfl
      exact mem_append_right _ (mem_map_of_mem (htake hw hsel))

/-- Sorting that exchanges no entries with one hash keeps the order. -/
theorem Ordered.sort {U V : List UnspentTxOut} {refs : List OutRef} (h : Ordered U refs)
    (hperm : V ~ U)
    (hkeep : ∀ u ∈ U, V.filter (·.hash = u.hash) = U.filter (·.hash = u.hash)) :
    Ordered V refs := by
  refine (pairwise_key_iff UnspentTxOut.hash).mpr fun u hu => ?_
  rw [hkeep u (hperm.subset hu)]
  exact (pairwise_key_iff UnspentTxOut.hash).mp h u (hperm.subset hu)

/-! ### The invariant -/

/-- The references of all outputs of the chain. -/
def createdRefs (chain : List Block) : List OutRef := (chainEntries chain).map UnspentTxOut.ref

/-- The references of all inputs of the chain but those of the coinbases. -/
def consumedRefs (chain : List Block) : List OutRef :=
  inputRefs (chain.flatMap fun b => b.txs.tail)

theorem createdRefs_append (chain : List Block) (b : Block) :
    createdRefs (chain ++ [b]) =
      createdRefs chain ++ (newEntries b.hash b.txs).map UnspentTxOut.ref := by
  rw [createdRefs, chainEntries_append, map_append]
  rfl

theorem consumedRefs_append (chain : List Block) (b : Block) :
    consumedRefs (chain ++ [b]) = consumedRefs chain ++ inputRefs b.txs.tail := by
  rw [consumedRefs, flatMap_append, flatMap_singleton, inputRefs_append]
  rfl

/-- The references created are different and name what is in the chain, each is unspent or was spent
once, and the pool spends entries with one hash from the front. -/
structure Registered (E : Env κ) (s : State κ φ) : Prop where
  source : ∀ r ∈ createdRefs s.blockchain.chain, HasSource E s.blockchain.chain r
  nodup : (createdRefs s.blockchain.chain).Nodup
  balanced : ∃ R : Ledger OutRef, R.created = (createdRefs s.blockchain.chain : List OutRef) ∧
    R.unspent = (s.blockchain.unspent.map UnspentTxOut.ref : List OutRef) ∧
    R.spent = (consumedRefs s.blockchain.chain : List OutRef)
  ordered : Ordered s.blockchain.unspent (inputRefs s.txPool)

theorem registered_initialState (files : φ → Option (List UInt8)) :
    Registered E (initialState files) where
  source r hr := by cases hr
  nodup := nodup_nil
  balanced := ⟨Ledger.empty, rfl, rfl, rfl⟩
  ordered := Pairwise.nil

namespace Registered

variable {s : State κ φ}

/-- The references of the unspent outputs and those spent are those created. -/
theorem perm (h : Registered E s) :
    s.blockchain.unspent.map UnspentTxOut.ref ++ consumedRefs s.blockchain.chain ~
      createdRefs s.blockchain.chain := by
  obtain ⟨R, hcreated, hunspent, hspent⟩ := h.balanced
  have hbalanced := R.balanced
  rw [hcreated, hunspent, hspent, Multiset.coe_add] at hbalanced
  exact Multiset.coe_eq_coe.mp hbalanced

theorem mem_created (h : Registered E s) {u : UnspentTxOut} (hu : u ∈ s.blockchain.unspent) :
    u.ref ∈ createdRefs s.blockchain.chain :=
  h.perm.subset (mem_append_left _ (mem_map_of_mem hu))

theorem nodup_unspent (h : Registered E s) :
    (s.blockchain.unspent.map UnspentTxOut.ref).Nodup :=
  (List.nodup_append.mp (h.perm.nodup_iff.mpr h.nodup)).1

variable {ω : Oracle} {prev mined : Block} {pub : Pub} {txPool : List Transaction}

/-- A mined block creates references that were not there. -/
theorem nodup_append (h : Registered E s) (hi : Identified E s)
    (hmined : MinedOn E ω s prev pub txPool mined) (hsub : txPool.Sublist s.txPool)
    (hvalid : blockIsValid E ω.stack mined (some prev) s.blockchain.unspent = .ok 0)
    (hfree : CollisionFree E (hashedStrings E (s.blockchain.chain ++ [mined]))) :
    (createdRefs (s.blockchain.chain ++ [mined])).Nodup := by
  rw [createdRefs_append, List.nodup_append]
  refine ⟨h.nodup, nodup_refs_newEntries (hi.pairwise_ids_mined hmined hsub hfree)
    (hi.nodup_hashes_mined hmined hsub hfree), ?_⟩
  -- an old reference names a block with a smaller index
  intro r hr r' hr' heq
  obtain ⟨b, hb, t, hsource⟩ := h.source r hr
  obtain ⟨u, hu, rfl⟩ := mem_map.mp hr'
  obtain ⟨t', hsource'⟩ := hi.isSource_mined hmined hsub u hu
  have hlast : mined ∈ s.blockchain.chain ++ [mined] := by simp
  have hinfo := hsource.info_eq hfree hsource' (mem_append_left _ hb) hlast
    (congrArg OutRef.blockHash heq)
  have hlt := hi.index_lt_mined hmined hvalid b hb
  rw [hinfo] at hlt
  exact lt_irrefl _ hlt

/-- A mined block spends what the pool refers to, and creates what it pays out. -/
theorem append (h : Registered E s) (hi : Identified E s) {L : Ledger Coin} (hL : Books E s L)
    (hpool : PoolValid E s) (hmined : MinedOn E ω s prev pub txPool mined)
    (hvalid : blockIsValid E ω.stack mined (some prev) s.blockchain.unspent = .ok 0)
    (hapart : NamesApart E L.created)
    (hfree : CollisionFree E (hashedStrings E (s.blockchain.chain ++ [mined]))) :
    Registered E (s.appendBlock mined) := by
  obtain rfl := hpool.filterPool_eq hmined.pool_eq
  have hsub : s.txPool.Sublist s.txPool := Sublist.refl _
  have hnodup := h.nodup_append hi hmined hsub hvalid hfree
  -- the list with the reward, of which the pool's references are taken out
  let U := s.blockchain.unspent ++ [rewardEntry E prev mined pub]
  have hnew : newEntries mined.hash mined.txs =
      rewardEntry E prev mined pub :: newEntries mined.hash s.txPool := by
    rw [hmined.txs_eq, newEntries_cons]
    rfl
  have hdisjoint :
      ∀ r ∈ createdRefs s.blockchain.chain, r ≠ (rewardEntry E prev mined pub).ref := by
    intro r hr heq
    rw [createdRefs_append, hnew] at hnodup
    exact (List.nodup_append.mp hnodup).2.2 r hr _ (mem_map_of_mem mem_cons_self) heq
  have hU : (U.map UnspentTxOut.ref).Nodup := by
    rw [map_append, List.nodup_append]
    refine ⟨h.nodup_unspent, nodup_singleton _, ?_⟩
    intro r hr r' hr'
    obtain ⟨u, hu, rfl⟩ := mem_map.mp hr
    rw [map_singleton, mem_singleton] at hr'
    rw [hr']
    exact hdisjoint _ (h.mem_created hu)
  have hthere : ∀ r ∈ inputRefs s.txPool, r ∈ s.blockchain.unspent.map UnspentTxOut.ref :=
    fun r hr => hL.reserved.subset hr
  have hrefs : (inputRefs s.txPool).Nodup := by
    obtain ⟨l, hperm, hl⟩ := hL.reserved
    exact hperm.nodup_iff.mp (h.nodup_unspent.sublist hl)
  have hmem : ∀ r ∈ inputRefs s.txPool, r ∈ U.map UnspentTxOut.ref := by
    intro r hr
    rw [map_append]
    exact mem_append_left _ (hthere r hr)
  have hordered : Ordered U (inputRefs s.txPool) := by
    refine pairwise_append.mpr ⟨h.ordered, pairwise_singleton _ _, ?_⟩
    intro u hu v hv _ hspent
    -- the pool cannot refer to the reward
    rw [mem_singleton.mp hv] at hspent
    obtain ⟨w, hw, hwr⟩ := mem_map.mp (hthere _ hspent)
    exact absurd hwr (hdisjoint _ (h.mem_created hw))
  have hupdate : updateUnspent mined.transactions mined.hash s.blockchain.unspent =
      U.filter (¬ ·.ref ∈ inputRefs s.txPool) ++ newEntries mined.hash s.txPool :=
    (hL.updateUnspent_mined hmined hapart).trans (hordered.updateUnspent_eq _ hU hrefs hmem)
  exact
    { source := by
        intro r hr
        rw [State.appendBlock, createdRefs_append] at hr
        rcases mem_append.mp hr with hr | hr
        · exact (h.source r hr).mono (subset_append_left _ _)
        · obtain ⟨u, hu, rfl⟩ := mem_map.mp hr
          obtain ⟨t, ht⟩ := hi.isSource_mined hmined hsub u hu
          exact ⟨mined, by simp [State.appendBlock], t, ht⟩
      nodup := hnodup
      balanced := by
        obtain ⟨R, hcreated, hunspent, hspent⟩ := h.balanced
        let R₁ := R.mint {(rewardEntry E prev mined pub).ref}
        have hkept : ((U.filter (¬ ·.ref ∈ inputRefs s.txPool)).map UnspentTxOut.ref :
            Multiset OutRef) + (inputRefs s.txPool : List OutRef) = R₁.unspent := by
          show _ = R.unspent + {(rewardEntry E prev mined pub).ref}
          rw [hunspent, Multiset.coe_add, Multiset.coe_eq_coe.mpr
            (refs_filter_append_perm hU hrefs hmem), map_append, ← Multiset.coe_add]
          rfl
        refine ⟨R₁.transfer _ _ ((newEntries mined.hash s.txPool).map UnspentTxOut.ref :
          List OutRef) hkept, ?_, ?_, ?_⟩
        · show R.created + {_} + _ = _
          rw [State.appendBlock, createdRefs_append, hnew, hcreated, map_cons, ← Multiset.coe_add,
            ← Multiset.cons_coe, ← Multiset.singleton_add, add_assoc]
        · rw [State.appendBlock, hupdate, map_append, ← Multiset.coe_add]
          rfl
        · show R.spent + 0 + _ = _
          rw [State.appendBlock, consumedRefs_append, hmined.txs_eq, tail_cons, hspent, add_zero,
            Multiset.coe_add]
      ordered := ordered_nil _ }

end Registered

/-! ### Runs -/

variable [DecidableEq φ]

/-- A command that splits nothing evenly and keeps the order keeps the register. -/
theorem Transition.registered (hsort : ∀ cmp l, (E.llistSort cmp l).Perm l) {ω : Oracle}
    {s s' : State κ φ} {c : Command κ φ} (h : Transition E ω s c s')
    (hload : ∀ path, c ≠ .load path) (hkeep : KeepsOrder E ω s c) (hi : Identified E s)
    {L : Ledger Coin} (hL : Books E s L) (hpool : PoolValid E s) (hapart : NamesApart E L.created)
    (hfree : CollisionFree E (hashedStrings E s'.blockchain.chain)) (hs : Registered E s) :
    Registered E s' := by
  cases h with
  | unchanged => exact hs
  | wallet | walletSave | save => exact { hs with }
  | list =>
    obtain ⟨R, hcreated, hunspent, hspent⟩ := hs.balanced
    refine { hs with balanced := ⟨R, hcreated, ?_, hspent⟩, ordered := ?_ }
    · rw [hunspent]
      exact Multiset.coe_eq_coe.mpr ((hsort _ _).map _).symm
    · exact hs.ordered.sort (hsort _ _) (hkeep.2 rfl)
  | send hcreate hvalid =>
    obtain ⟨sender, receiver, selected, hsender, -, hc⟩ := exists_isCreated E hcreate
    have hordered := hs.ordered.send (hL.honestUnspent hapart) hs.nodup_unspent hc
      fun u hu hpub hused => hkeep.1 (_, _) rfl sender hsender u hu hpub hused
    exact { hs with ordered := hordered }
  | reject hpool' =>
    rw [hpool.filterPool_eq hpool']
    exact hs
  | append hmined hvalid => exact hs.append hi hL hpool hmined hvalid hapart hfree
  | load hload' => exact absurd rfl (hload _)

/-- What is kept along a run: the books and the pool, and the register as long as the chain is not
too long and SHA-256 has no collision in it. -/
structure KeepsRegister (E : Env κ) (s : State κ φ) : Prop where
  identified : Identified E s
  pool : KeepsPool E s
  registered : 50 * s.blockchain.chain.length < 2 ^ 32 →
    NamesApart E (createdCoins s.blockchain.chain) →
    CollisionFree E (hashedStrings E s.blockchain.chain) → Registered E s

/-- In every state that a run without loads reaches, and without a `send` or a `list` that brings
entries with one hash out of order, the references of all outputs of the chain are different, and
each of them is that of one unspent output or was spent by one input. -/
theorem run_registry (hsort : ∀ cmp l, (E.llistSort cmp l).Perm l)
    {files : φ → Option (List UInt8)} {cmds : List (Command κ φ × Oracle)} {s : State κ φ}
    (hrun : run E (initialState files) cmds = .ok s)
    (hload : ∀ p ∈ cmds, ∀ path, p.1 ≠ .load path)
    (hlength : 50 * s.blockchain.chain.length < 2 ^ 32)
    (hapart : NamesApart E (createdCoins s.blockchain.chain))
    (hfree : CollisionFree E (hashedStrings E s.blockchain.chain))
    (hmeet : StepsMeet E (fun ω s c => ¬ SplitsEvenly E ω s c ∧ KeepsOrder E ω s c)
      (initialState files) cmds) :
    (createdRefs s.blockchain.chain).Nodup ∧
      s.blockchain.unspent.map UnspentTxOut.ref ++ consumedRefs s.blockchain.chain ~
        createdRefs s.blockchain.chain := by
  have hstep : ∀ ω (s s' : State κ φ) (c : Command κ φ) reply, (∀ path, c ≠ .load path) →
      ¬ SplitsEvenly E ω s c ∧ KeepsOrder E ω s c → findCommand E ω s c = .ok (reply, s') →
        KeepsRegister E s → KeepsRegister E s' := by
    rintro ω s s' c reply hc ⟨heven, hkeep⟩ hfind ⟨hi, hpool, hregistered⟩
    have h := findCommand_transition E hfind
    refine ⟨identified_findCommand hsort hc heven hfind hi, h.keepsPool hsort hc hpool, ?_⟩
    intro hlength hapart hfree
    obtain ⟨hlength', hapart'⟩ := h.assumed hc hlength hapart
    obtain ⟨⟨L, hL⟩, hvalid⟩ := hpool hlength' hapart'
    have hfree' := hfree.mono (hashedStrings_subset (h.chain_prefix hc))
    exact h.registered hsort hc hkeep hi hL hvalid (hL.created_eq ▸ hapart') hfree
      (hregistered hlength' hapart' hfree')
  have hs : KeepsRegister E s :=
    run_preserves_of_stepsMeet E hstep hload hmeet hrun
      ⟨identified_initialState E files, keepsPool_initialState files,
        fun _ _ _ => registered_initialState files⟩
  have hregistered := hs.registered hlength hapart hfree
  exact ⟨hregistered.nodup, hregistered.perm⟩

/-- In the run in which key 1 sends key 2 a part of its reward, nothing gets out of order. -/
theorem mineSendMine_registry :
    ∃ s, run sampleEnv (initialState fun _ => none) mineSendMine = .ok s ∧
      (consumedRefs s.blockchain.chain).length = 1 ∧
      (createdRefs s.blockchain.chain).Nodup ∧
      s.blockchain.unspent.map UnspentTxOut.ref ++ consumedRefs s.blockchain.chain ~
        createdRefs s.blockchain.chain := by
  have hchecked : ((checkedRun sampleEnv [] (initialState fun _ => none) mineSendMine).map fun s =>
      ([s.blockchain.chain.length, (consumedRefs s.blockchain.chain).length],
        (decide ((hashedStrings sampleEnv s.blockchain.chain).dedup.map sampleEnv.sha256).Nodup,
          (s.blockchain.chain.flatMap Block.txs).flatMap Transaction.payments))) =
      some ([3, 1], (true, mineSendMineCoins)) := by
    decide +kernel
  obtain ⟨s, hs, hfacts⟩ := Option.map_eq_some_iff.mp hchecked
  simp only [Prod.mk.injEq, cons.injEq, and_true, decide_eq_true_eq] at hfacts
  obtain ⟨⟨hlength, hspent⟩, hnodup, hcoins⟩ := hfacts
  have hrun := (checkedRun_eq_some sampleEnv hs).1
  have hapart : NamesApart sampleEnv (createdCoins s.blockchain.chain) := by
    rw [createdCoins, paidCoins, hcoins]
    exact mineSendMineCoins_namesApart
  exact ⟨s, hrun, hspent, run_registry sampleEnv_llistSort_perm hrun (by simp [mineSendMine])
    (by rw [hlength]; decide) hapart (collisionFree_of_nodup hnodup) (by decide +kernel)⟩

end HolbertonChain
