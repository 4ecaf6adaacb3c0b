import HolbertonChain.Lib.CoinLedger
import HolbertonChain.Transaction.Coinbase
import HolbertonChain.Transaction.Equiv.Commitment
import HolbertonChain.Transaction.Equiv.Conservation
import HolbertonChain.Transaction.Equiv.UpdateUnspent

/-!
# Coins

An output is a coin, a pair of an amount and a receiver, and its hash is the name of the coin.
Where the outputs are honest and no two coins share a name, `update_unspent` spends the coins its
inputs name and creates those of its outputs (`unspentCoins_updateUnspent`): that it takes out some
other entry with the same hash makes no difference to the coins.
-/

namespace HolbertonChain

open CoinLedger WrapSum

variable {κ : Type} (E : Env κ)

/-- What an output pays, and to whom. -/
abbrev Coin := UInt32 × Pub

/-- The amount of a coin. -/
def coinValue (c : Coin) : ℕ := c.1.toNat

/-- The coins in a list of unspent outputs. -/
def unspentCoins (U : List UnspentTxOut) : Multiset Coin :=
  (U.map fun u : UnspentTxOut => u.out.payment : List Coin)

/-- The coins that a list of transactions pays out. -/
def paidCoins (ts : List Transaction) : Multiset Coin :=
  (ts.flatMap Transaction.payments : List Coin)

@[simp] theorem unspentCoins_append (U V : List UnspentTxOut) :
    unspentCoins (U ++ V) = unspentCoins U + unspentCoins V := by
  simp [unspentCoins]

@[simp] theorem paidCoins_cons (t : Transaction) (ts : List Transaction) :
    paidCoins (t :: ts) = (t.payments : Multiset Coin) + paidCoins ts := by
  simp [paidCoins]

@[simp] theorem paidCoins_append (ts ts' : List Transaction) :
    paidCoins (ts ++ ts') = paidCoins ts + paidCoins ts' := by
  simp [paidCoins]

theorem mem_unspentCoins {U : List UnspentTxOut} {u : UnspentTxOut} (h : u ∈ U) :
    u.out.payment ∈ unspentCoins U :=
  Multiset.mem_coe.mpr (List.mem_map_of_mem h)

theorem unspentCoins_perm {U V : List UnspentTxOut} (h : U.Perm V) :
    unspentCoins U = unspentCoins V :=
  Multiset.coe_eq_coe.mpr (h.map _)

theorem value_unspentCoins (U : List UnspentTxOut) :
    value coinValue (unspentCoins U) = total (fun u : UnspentTxOut => u.out.amount) U := by
  rw [value, unspentCoins, Multiset.map_coe, Multiset.sum_coe, List.map_map]
  rfl

theorem value_payments (t : Transaction) :
    value coinValue (t.payments : Multiset Coin) = totalOut t := by
  rw [value, Transaction.payments, Multiset.map_coe, Multiset.sum_coe, List.map_map]
  rfl

/-- The entries for the outputs of transactions hold the coins these pay out. -/
theorem unspentCoins_newEntries (bh : Digest) (ts : List Transaction) :
    unspentCoins (newEntries bh ts) = paidCoins ts := by
  induction ts with
  | nil => rfl
  | cons t ts ih =>
    have hhead : unspentCoins (t.outputs.map (unspentTxOutCreate bh t.id)) =
        (t.payments : Multiset Coin) := by
      rw [unspentCoins, List.map_map]
      rfl
    rw [newEntries_cons, unspentCoins_append, paidCoins_cons, ih, hhead]

/-- Honest entries are named by their hashes. -/
theorem map_paymentHash_unspentCoins {U : List UnspentTxOut} (h : ∀ u ∈ U, u.out.Honest E) :
    (unspentCoins U).map (paymentHash E) = (U.map UnspentTxOut.hash : List Digest) := by
  rw [unspentCoins, Multiset.map_coe, List.map_map]
  exact congrArg _ (List.map_congr_left fun u hu => (h u hu).symm)

/-! ### Funds -/

/-- The transaction pays out what the coins that its inputs name are worth, each of them among those
created, and its outputs are honest. -/
structure Funded (created : Multiset Coin) (t : Transaction) : Prop where
  honest : ∀ o ∈ t.outputs, o.Honest E
  exists_coins : ∃ coins : Multiset Coin, coins ⊆ created ∧
    coins.map (paymentHash E) = (t.inputs.map (·.txOutHash) : List Digest) ∧
    value coinValue coins = totalOut t

theorem Funded.mono {created created' : Multiset Coin} {t : Transaction}
    (h : Funded E created t) (hsub : created ⊆ created') : Funded E created' t where
  honest := h.honest
  exists_coins := by
    obtain ⟨coins, hcoins, hnames, hvalue⟩ := h.exists_coins
    exact ⟨coins, fun c hc => hsub (hcoins hc), hnames, hvalue⟩

/-- The coins that fund a list of transactions. -/
theorem exists_coins_of_funded {created : Multiset Coin} {ts : List Transaction}
    (h : ∀ t ∈ ts, Funded E created t) :
    ∃ coins : Multiset Coin, coins ⊆ created ∧
      coins.map (paymentHash E) = (inputHashes ts : Multiset Digest) ∧
      value coinValue coins = value coinValue (paidCoins ts) := by
  induction ts with
  | nil => exact ⟨0, Multiset.zero_subset _, rfl, rfl⟩
  | cons t ts ih =>
    rw [List.forall_mem_cons] at h
    obtain ⟨first, hfirst, hnames, hvalue⟩ := h.1.exists_coins
    obtain ⟨rest, hrest, hnames', hvalue'⟩ := ih h.2
    refine ⟨first + rest, ?_, ?_, ?_⟩
    · intro c hc
      rcases Multiset.mem_add.mp hc with hc | hc
      · exact hfirst hc
      · exact hrest hc
    · rw [Multiset.map_add, hnames, hnames', inputHashes_cons, Multiset.coe_add]
    · rw [value_add, paidCoins_cons, value_add, value_payments, hvalue, hvalue']

/-! ### What `update_unspent` does to the coins -/

/-- `update_unspent` spends the coins that its inputs name, and creates those of its outputs. -/
theorem unspentCoins_updateUnspent {created coins : Multiset Coin} {U : List UnspentTxOut}
    {ts : List Transaction} (bh : Digest)
    (hname : Set.InjOn (paymentHash E) {c | c ∈ created})
    (hhonest : ∀ u ∈ U, u.out.Honest E) (hU : unspentCoins U ⊆ created)
    (hthere : List.Subperm (inputHashes ts) (U.map UnspentTxOut.hash)) (hcoins : coins ⊆ created)
    (hnames : coins.map (paymentHash E) = (inputHashes ts : Multiset Digest)) :
    ∃ kept, kept + coins = unspentCoins U ∧
      unspentCoins (updateUnspent (some ts) bh U) = kept + paidCoins ts := by
  obtain ⟨removed, hkeys, hall⟩ := List.exists_perm_eraseKeys UnspentTxOut.hash hthere
  have hsplit : unspentCoins removed +
      unspentCoins (List.eraseKeys UnspentTxOut.hash (inputHashes ts) U) = unspentCoins U := by
    rw [← unspentCoins_append, unspentCoins_perm hall]
  have hremoved : ∀ u ∈ removed, u ∈ U := fun u hu => hall.subset (List.mem_append_left _ hu)
  -- what was taken out has the names asked for, so it is the coins asked for
  have hsame : unspentCoins removed = coins := by
    apply eq_of_map_eq_map hname
    · intro c hc
      exact hU (hsplit ▸ Multiset.mem_add.mpr (Or.inl hc))
    · exact fun c hc => hcoins hc
    · rw [map_paymentHash_unspentCoins E fun u hu => hhonest u (hremoved u hu), hnames]
      exact Multiset.coe_eq_coe.mpr hkeys
  refine ⟨unspentCoins (List.eraseKeys UnspentTxOut.hash (inputHashes ts) U), ?_, ?_⟩
  · rw [← hsplit, hsame, add_comm]
  · rw [updateUnspent_eq_append bh hthere, unspentCoins_append, unspentCoins_newEntries]

/-- New entries of honest transactions are honest, and so is what `update_unspent` leaves. -/
theorem honest_updateUnspent {U : List UnspentTxOut} {ts : List Transaction} (bh : Digest)
    (hthere : List.Subperm (inputHashes ts) (U.map UnspentTxOut.hash))
    (hU : ∀ u ∈ U, u.out.Honest E) (hts : ∀ t ∈ ts, ∀ o ∈ t.outputs, o.Honest E) :
    ∀ u ∈ updateUnspent (some ts) bh U, u.out.Honest E := by
  intro u hu
  rw [updateUnspent_eq_append bh hthere] at hu
  rcases List.mem_append.mp hu with hu | hu
  · exact hU u ((List.eraseKeys_sublist _ _ _).subset hu)
  · obtain ⟨t, ht, hu⟩ := List.mem_flatMap.mp hu
    obtain ⟨o, ho, rfl⟩ := List.mem_map.mp hu
    exact hts t ht o ho

/-- The input of a coinbase transaction names no coin, so the reward is all that changes. -/
theorem updateUnspent_coinbase {U : List UnspentTxOut} {ts : List Transaction} {blockIndex : UInt32}
    {output : TxOut} (bh : Digest) (h : ∀ u ∈ U, u.hash ≠ coinbaseOutHash E blockIndex) :
    updateUnspent (some (coinbaseWith E blockIndex output :: ts)) bh U =
      updateUnspent (some ts) bh
        (U ++ [unspentTxOutCreate bh (coinbaseWith E blockIndex output).id output]) := by
  have hins : (coinbaseWith E blockIndex output).inputs.map (·.txOutHash) =
      [coinbaseOutHash E blockIndex] := rfl
  have hremove : removeInputs (coinbaseWith E blockIndex output).inputs U = U := by
    rw [removeInputs_eq_eraseKeys, hins]
    apply List.eraseKeys_of_forall_ne
    intro k hk u hu
    rw [List.mem_singleton.mp hk]
    exact h u hu
  rw [updateUnspent_cons, hremove]
  rfl

end HolbertonChain
