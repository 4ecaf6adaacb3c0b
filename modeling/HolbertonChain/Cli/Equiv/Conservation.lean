import HolbertonChain.Cli.Equiv.Accounting
import HolbertonChain.Cli.Equiv.Clients

/-!
# The coins of clients that hand each other files

`load` replaces the blockchain and leaves the pool as it is, so that the transactions of the pool
may be about coins of another chain.  As long as every client loads with an empty pool, the books of
all of them are kept in any order of their commands: nowhere are there more coins, or fewer, than
were mined on the chain (`reached_conservation`).
-/

namespace HolbertonChain

open CoinLedger WrapSum

variable {κ φ : Type} {E : Env κ}

/-- If the command is `load`, the pool is empty. -/
def LoadsEmptyPool (_ω : Oracle) (s : State κ φ) (c : Command κ φ) : Prop :=
  ∀ _ ∈ c.loaded, s.txPool = []

instance decidableLoadsEmptyPool (ω : Oracle) (s : State κ φ) (c : Command κ φ) :
    Decidable (LoadsEmptyPool ω s c) :=
  inferInstanceAs (Decidable (∀ _ ∈ c.loaded, s.txPool = []))

/-- With an empty pool the books are taken over with the blockchain. -/
theorem Books.load {s t : State κ φ} {L : Ledger Coin} (ht : Books E t L) (hpool : s.txPool = []) :
    Books E { s with blockchain := t.blockchain } L where
  created_eq := ht.created_eq
  unspent_eq := ht.unspent_eq
  spent_eq := ht.spent_eq
  honest := ht.honest
  value_eq := ht.value_eq
  reserved := by
    show (inputRefs s.txPool).Subperm _
    rw [hpool]
    exact List.nil_subperm
  funded := by
    show ∀ t ∈ s.txPool, _
    rw [hpool]
    exact fun _ => nofun

variable [DecidableEq φ]

theorem Reached.accounted (hsort : ∀ cmp l, (E.llistSort cmp l).Perm l) {s : State κ φ}
    (h : Reached E LoadsEmptyPool s) : Accounted E s := by
  refine h.rule ?_ ?_ ?_ ?_
  · exact fun files _ _ => ⟨Ledger.empty, books_initialState E files⟩
  · intro s files hs hlength hapart
    obtain ⟨L, hL⟩ := hs hlength hapart
    exact ⟨L, { hL with }⟩
  · exact fun _ _ _ _ _ _ hload _ hstep hs => hstep.accounted hsort hload hs
  · intro ω s t path _ hpool _ ht hlength hapart
    obtain ⟨L, hL⟩ := ht hlength hapart
    exact ⟨L, hL.load (hpool path rfl)⟩

/-- In every state of clients that load with an empty pool only, the unspent outputs hold the coins
that the transactions of the chain created, less one for each output hash that a non-coinbase input
names, and they are worth 50 for each block behind the genesis block. -/
theorem reached_conservation (hsort : ∀ cmp l, (E.llistSort cmp l).Perm l) {s : State κ φ}
    (h : Reached E LoadsEmptyPool s) (hapart : NamesApart E (createdCoins s.blockchain.chain)) :
    (∃ spent : Multiset Coin,
      spent.map (paymentHash E) = spentHashes s.blockchain.chain ∧
        unspentCoins s.blockchain.unspent + spent = createdCoins s.blockchain.chain) ∧
      total (fun u : UnspentTxOut => u.out.amount) s.blockchain.unspent =
        50 * (s.blockchain.chain.length - 1) := by
  obtain ⟨L, hL⟩ := h.accounted hsort h.rewards_lt hapart
  refine ⟨⟨L.spent, hL.spent_eq, ?_⟩, ?_⟩
  · rw [← hL.unspent_eq, ← hL.created_eq]
    exact L.balanced
  · have htotal := hL.total_unspent
    omega

/-! ### Two clients -/

/-- Client `false` mines a block for key 1 and saves it; client `true` loads it, mines another one,
sends 30 to key 2 and mines a third. -/
def loadAndSend : List (Bool × Command ℕ ℕ × Oracle) :=
  [(false, .walletCreate (some 1)), (false, .mine), (false, .save 0),
    (true, .walletCreate (some 1)), (true, .load 0), (true, .mine),
    (true, .send 30 (bytesToHex (samplePub 2).toList)), (true, .mine)].map
      fun step => (step.1, step.2, sampleOracle)

theorem exists_loadAndSend :
    ∃ clients, schedule sampleEnv (fun _ => initialState fun _ => none) loadAndSend = .ok clients ∧
      (clients true).blockchain.chain.length = 4 ∧
      Reached sampleEnv LoadsEmptyPool (clients true) ∧
      NamesApart sampleEnv (createdCoins (clients true).blockchain.chain) := by
  have hchecked : ((schedule sampleEnv (fun _ => initialState fun _ => none)
      loadAndSend).toOption.map fun clients =>
        ([(clients true).blockchain.chain.length],
          decide ((((clients true).blockchain.chain.flatMap Block.txs).flatMap
            Transaction.payments) ⊆ mineSendMineCoins))) =
      some ([4], true) := by
    decide +kernel
  have hmeets : ScheduleMeets sampleEnv LoadsEmptyPool [] (fun _ => initialState fun _ => none)
      loadAndSend := by
    decide +kernel
  obtain ⟨clients, hrun, hfacts⟩ := Option.map_eq_some_iff.mp hchecked
  simp only [Prod.mk.injEq, List.cons.injEq, and_true] at hfacts
  obtain ⟨hlength, hcoins⟩ := hfacts
  have hrun := Except.toOption_eq_some_iff.mp hrun
  refine ⟨clients, hrun, hlength,
    schedule_reached (fun _ => .start _) hrun hmeets (by simp) true, ?_⟩
  refine mineSendMineCoins_namesApart.mono sampleEnv fun c hc => ?_
  rw [createdCoins, paidCoins, Multiset.mem_coe] at hc
  exact Multiset.mem_coe.mpr (of_decide_eq_true hcoins hc)

theorem loadAndSend_conservation :
    ∃ clients, schedule sampleEnv (fun _ => initialState fun _ => none) loadAndSend = .ok clients ∧
      (∃ spent : Multiset Coin,
        spent.map (paymentHash sampleEnv) = spentHashes (clients true).blockchain.chain ∧
          unspentCoins (clients true).blockchain.unspent + spent =
            createdCoins (clients true).blockchain.chain) ∧
        total (fun u : UnspentTxOut => u.out.amount) (clients true).blockchain.unspent =
          50 * ((clients true).blockchain.chain.length - 1) := by
  obtain ⟨clients, hrun, -, hreached, hapart⟩ := exists_loadAndSend
  exact ⟨clients, hrun, reached_conservation sampleEnv_llistSort_perm hreached hapart⟩

/-- With a pool that is not empty coins can be made: both clients have the two coins of 25 that
key 1 sent itself, client `true` spends one of them, and what client `false` is about to pay with
both is taken for valid on the chain that it loads, since each of its inputs finds the one that is
left.  Four rewards of 50 are worth 225 then. -/
example :
    (schedule sampleEnv (fun _ => initialState fun _ => none)
      ([(false, .walletCreate (some 1)), (false, .mine),
        (false, .send 25 (bytesToHex (samplePub 1).toList)), (false, .walletCreate (some 4)),
        (false, .mine), (false, .walletCreate (some 1)), (false, .save 0),
        (true, .walletCreate (some 1)), (true, .load 0),
        (true, .send 25 (bytesToHex (samplePub 2).toList)), (true, .mine), (true, .save 0),
        (false, .send 50 (bytesToHex (samplePub 3).toList)), (false, .load 0),
        (false, .mine)].map fun step : Bool × Command ℕ ℕ =>
          (step.1, step.2, sampleOracle))).toOption.map (fun clients =>
            ((clients false).blockchain.chain.length,
              total (fun u : UnspentTxOut => u.out.amount) (clients false).blockchain.unspent)) =
      some (5, 225) := by
  decide +kernel

end HolbertonChain
