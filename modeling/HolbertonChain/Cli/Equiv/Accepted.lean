import HolbertonChain.Cli.Equiv.Accounting
import HolbertonChain.Cli.Equiv.Provenance
import HolbertonChain.Transaction.Equiv.Ownership

/-!
# What becomes of a transaction that was sent

`mine` tests every transaction of the pool again and drops those that fail.  As long as the client
loads nothing it never drops one: the unspent outputs only change when the pool is emptied, except
for the order `list` brings them in, and validity does not depend on that
(`transactionIsValid_of_perm`).  So the transactions of the chain, with those of the pool behind
them, are a log of the transactions that `send` reported as sent: no command loses one, repeats one
or lets one overtake another (`run_accepted_prefix`).
-/

namespace HolbertonChain

open AppendLog CoinLedger WrapSum

variable {κ φ : Type} (E : Env κ)

/-! ### Validity and order -/

theorem HonestUnspent.perm {E : Env κ} {U V : List UnspentTxOut} (h : HonestUnspent E U)
    (hperm : V.Perm U) : HonestUnspent E V where
  honest u hu := h.honest u (hperm.subset hu)
  injOn := h.injOn.mono (by
    rintro _ ⟨u, hu, rfl⟩
    exact ⟨u, hperm.subset hu, rfl⟩)

/-- In honest unspent outputs a valid transaction stays valid when they change places. -/
theorem transactionIsValid_of_perm {U V : List UnspentTxOut} (hU : HonestUnspent E U)
    (hperm : V.Perm U) {hashBuff : Digest} {t : Transaction}
    (h : transactionIsValid E hashBuff t U = .ok true) :
    transactionIsValid E hashBuff t V = .ok true := by
  obtain ⟨hid, hinputs, hamount⟩ := (transactionIsValid_eq_true_iff E).mp h
  have hV := hU.perm hperm
  -- what is found now makes the payment of what was found before
  have hfound : ∀ i ∈ t.inputs, ∃ v, V.find? (inOutMatch i) = some v ∧
      ecVerify E (ecFromPub E v.out.pub) t.id i.sig = true := by
    intro i hi
    obtain ⟨u, hfind, hverify⟩ := hinputs i hi
    have hu : u ∈ V := hperm.symm.subset (List.mem_of_find?_eq_some hfind)
    have href : i.ref = u.ref := inOutMatch_eq_true_iff.mp (List.find?_some hfind)
    obtain ⟨v, hv⟩ := exists_find_inOutMatch hu href
    have hpub := (Prod.mk.inj (hV.payment_find E hv hu href)).2
    exact ⟨v, hv, by rwa [hpub]⟩
  refine (transactionIsValid_eq_true_iff E).mpr ⟨hid, hfound, ?_⟩
  have hrefs : t.inputs.map TxIn.ref = (matched U t.inputs).map UnspentTxOut.ref := by
    have hmatched := forall₂_matched E hinputs
    rw [← List.forall₂_eq_eq_eq, List.forall₂_map_left_iff, List.forall₂_map_right_iff]
    exact hmatched.imp fun _ _ hpair => hpair.1
  have hmem : ∀ u ∈ matched U t.inputs, u ∈ V := by
    intro u hu
    obtain ⟨i, -, hfind⟩ := List.mem_filterMap.mp hu
    exact hperm.symm.subset (List.mem_of_find?_eq_some hfind)
  rw [← hamount]
  exact foldl_add_congr (amounts_matched E hV hmem hrefs) 0

/-- The unspent outputs that the books are about are honest. -/
theorem Books.honestUnspent {E : Env κ} {s : State κ φ} {L : Ledger Coin} (h : Books E s L)
    (hapart : NamesApart E L.created) : HonestUnspent E s.blockchain.unspent where
  honest := h.honest
  injOn := hapart.injOn.mono (by
    rintro _ ⟨u, hu, rfl⟩
    exact h.mem_created hu)

/-! ### The pool -/

/-- Every transaction of the pool is valid, whatever the stack holds. -/
def PoolValid (s : State κ φ) : Prop :=
  ∀ t ∈ s.txPool, ∀ hashBuff, transactionIsValid E hashBuff t s.blockchain.unspent = .ok true

variable {E}

/-- From a valid pool nothing is dropped. -/
theorem PoolValid.filterPool_eq {s : State κ φ} (h : PoolValid E s) {hashBuff : Digest} {n : ℕ}
    {txPool : List Transaction}
    (hpool : filterPool E hashBuff s.blockchain.unspent n s.txPool = .ok txPool) :
    txPool = s.txPool := by
  rw [filterPool_of_valid E fun t ht => h t ht hashBuff] at hpool
  exact (Except.ok.inj hpool).symm

variable [DecidableEq φ]

/-- Every command but `load` keeps the pool valid. -/
theorem Transition.poolValid (hsort : ∀ cmp l, (E.llistSort cmp l).Perm l) {ω : Oracle}
    {s s' : State κ φ} {c : Command κ φ} (h : Transition E ω s c s')
    (hload : ∀ path, c ≠ .load path) (hU : HonestUnspent E s.blockchain.unspent)
    (hs : PoolValid E s) : PoolValid E s' := by
  cases h with
  | unchanged | wallet | walletSave | save => exact hs
  | list =>
    intro t ht hashBuff
    exact transactionIsValid_of_perm E hU (hsort _ _) (hs t ht hashBuff)
  | send hcreate hvalid =>
    refine forall_mem_concat.mpr ⟨hs, fun hashBuff => ?_⟩
    have hne := (transactionCreate_eq_ok_some E hcreate).1
    rw [transactionIsValid_congr E (fun h0 => hne (bufferSize_eq_zero_iff.mp h0).2)]
    exact hvalid
  | reject hpool =>
    rw [hs.filterPool_eq hpool]
    exact hs
  | append hmined hvalid =>
    intro t ht
    cases ht
  | load hload' => exact absurd rfl (hload _)

/-! ### The log -/

/-- The books are kept and the pool is valid, as long as the chain is not too long and SHA-256 tells
its coins apart. -/
def KeepsPool (E : Env κ) (s : State κ φ) : Prop :=
  50 * s.blockchain.chain.length < 2 ^ 32 → NamesApart E (createdCoins s.blockchain.chain) →
    (∃ L, Books E s L) ∧ PoolValid E s

/-- What is assumed of the chain after a command holds before it. -/
theorem Transition.assumed {ω : Oracle} {s s' : State κ φ} {c : Command κ φ}
    (h : Transition E ω s c s') (hload : ∀ path, c ≠ .load path)
    (hlength : 50 * s'.blockchain.chain.length < 2 ^ 32)
    (hapart : NamesApart E (createdCoins s'.blockchain.chain)) :
    50 * s.blockchain.chain.length < 2 ^ 32 ∧ NamesApart E (createdCoins s.blockchain.chain) := by
  have hpre := h.chain_prefix hload
  have hle := hpre.length_le
  exact ⟨by omega, hapart.mono E (createdCoins_subset hpre)⟩

theorem Transition.keepsPool (hsort : ∀ cmp l, (E.llistSort cmp l).Perm l) {ω : Oracle}
    {s s' : State κ φ} {c : Command κ φ} (hload : ∀ path, c ≠ .load path)
    (h : Transition E ω s c s') (hs : KeepsPool E s) : KeepsPool E s' := by
  intro hlength hapart
  obtain ⟨hlength', hapart'⟩ := h.assumed hload hlength hapart
  obtain ⟨⟨L, hL⟩, hvalid⟩ := hs hlength' hapart'
  refine ⟨h.books hsort hload hlength' hapart hL, ?_⟩
  refine h.poolValid hsort hload (hL.honestUnspent ?_) hvalid
  rw [hL.created_eq]
  exact hapart'

omit [DecidableEq φ] in
theorem keepsPool_initialState (files : φ → Option (List UInt8)) :
    KeepsPool E (initialState files) := by
  refine fun _ _ => ⟨⟨Ledger.empty, books_initialState E files⟩, ?_⟩
  intro t ht
  cases ht

theorem run_keepsPool (hsort : ∀ cmp l, (E.llistSort cmp l).Perm l)
    {cmds : List (Command κ φ × Oracle)} {s s' : State κ φ} (hrun : run E s cmds = .ok s')
    (hload : ∀ p ∈ cmds, ∀ path, p.1 ≠ .load path) (hs : KeepsPool E s) : KeepsPool E s' :=
  run_preserves E (fun _ _ _ _ hc h hs => h.keepsPool hsort hc hs) hload hrun hs

end HolbertonChain
