import HolbertonChain.Cli.Equiv.ChainIntegrity

/-!
# The pool

The block validator does not look for double spends; what keeps them out of mined blocks is that
`transaction_create` passes over every unspent output that a transaction of the pool uses.  It
compares four bytes of each field, which makes it pass over more than it has to and never over less
(`usedInPool_of_mem`).  So no two transactions of the pool refer to one output, whatever is sent,
mined, sorted or loaded, by whichever wallet (`run_poolApart`).
-/

namespace HolbertonChain

variable {κ φ : Type} (E : Env κ)

/-- No two transactions of the pool refer to one output. -/
def PoolApart (txPool : List Transaction) : Prop :=
  txPool.Pairwise fun t t' => ∀ i ∈ t.inputs, ∀ i' ∈ t'.inputs, i.ref ≠ i'.ref

/-- A transaction that was created joins the pool. -/
theorem PoolApart.append {E : Env κ} {pubBuff : Pub} {rnd : ℕ → ℕ} {sender receiver : κ}
    {amount : UInt32} {U : List UnspentTxOut} {txPool : List Transaction} {tx : Transaction}
    {selected : List UnspentTxOut} (h : PoolApart txPool)
    (hc : IsCreated E pubBuff rnd sender receiver amount U txPool tx selected) :
    PoolApart (txPool ++ [tx]) := by
  refine List.pairwise_append.mpr ⟨h, List.pairwise_singleton _ _, ?_⟩
  intro t ht tx' htx' i hi i' hi' heq
  rw [List.mem_singleton.mp htx'] at hi'
  -- the new input was made from an output that the pool does not use
  have href : i'.ref ∈ selected.map UnspentTxOut.ref := hc.refs_eq ▸ List.mem_map_of_mem hi'
  obtain ⟨u, hu, hui⟩ := List.mem_map.mp href
  have hused : i.ref ∈ inputRefs txPool :=
    List.mem_map_of_mem (List.mem_flatMap.mpr ⟨t, ht, hi⟩)
  rw [heq, ← hui] at hused
  exact (hc.mem_selected hu).2.2 hused

variable [DecidableEq φ]

/-- Every command keeps the transactions of the pool apart. -/
theorem Transition.poolApart {ω : Oracle} {s s' : State κ φ} {c : Command κ φ}
    (h : Transition E ω s c s') (hs : PoolApart s.txPool) : PoolApart s'.txPool := by
  cases h with
  | send hcreate hvalid =>
    obtain ⟨sender, receiver, selected, -, -, hc⟩ := exists_isCreated E hcreate
    exact hs.append hc
  | reject hpool => exact hs.sublist (filterPool_eq_ok E le_rfl hpool).1
  | append hmined hvalid => exact List.Pairwise.nil
  | unchanged | wallet | walletSave | list | save | load => exact hs

/-- In every state that commands lead to, also through files with arbitrary contents, no two
transactions of the pool refer to one output. -/
theorem run_poolApart {files : φ → Option (List UInt8)} {cmds : List (Command κ φ × Oracle)}
    {s : State κ φ} (hrun : run E (initialState files) cmds = .ok s) : PoolApart s.txPool := by
  have hstep : ∀ ω (s s' : State κ φ) (c : Command κ φ), True →
      Transition E ω s c s' → PoolApart s.txPool → PoolApart s'.txPool :=
    fun _ _ _ _ _ h hs => h.poolApart E hs
  exact run_preserves E hstep (fun _ _ => trivial) hrun List.Pairwise.nil

/-- Key 1 mines two blocks, saves them and sends from the first reward; it loads them again, and
sends from the second. -/
def sendAroundLoad : List (Command ℕ ℕ × Oracle) :=
  [.walletCreate (some 1), .mine, .mine, .save 0,
    .send 30 ([0x30, 0x34, 0x30, 0x32] ++ List.replicate 126 0x30), .load 0,
    .send 30 ([0x30, 0x34, 0x30, 0x32] ++ List.replicate 126 0x30)].map fun c => (c, sampleOracle)

theorem sendAroundLoad_poolApart :
    ∃ s, run sampleEnv (initialState fun _ => none) sendAroundLoad = .ok s ∧
      s.txPool.length = 2 ∧ PoolApart s.txPool := by
  have hchecked : ((checkedRun sampleEnv [] (initialState fun _ => none) sendAroundLoad).map
      fun s => s.txPool.length) = some 2 := by decide +kernel
  obtain ⟨s, hs, hlen⟩ := Option.map_eq_some_iff.mp hchecked
  have hrun := (checkedRun_eq_some sampleEnv hs).1
  exact ⟨s, hrun, hlen, run_poolApart sampleEnv hrun⟩

end HolbertonChain
