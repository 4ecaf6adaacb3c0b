import HolbertonChain.Cli.Equiv.Clients
import HolbertonChain.Transaction.Equiv.Selection

/-!
# What clients put into a chain

A file could hold any block, but a chain that clients passed on to each other is made of nothing but
what `transaction_create` and `coinbase_create` build: `Made` is what the first of these guarantees,
`BlockMade` what a mined block is like, and `Reached.contents` says that every pool and every chain
is made of them.
-/

namespace HolbertonChain

open AppendLog Bytes

variable {κ φ : Type} (E : Env κ)

/-- What `transaction_create` sees to: there are inputs, one output or two under the hashes of their
payments, and the ID is the digest of both. -/
structure Made (t : Transaction) : Prop where
  inputs_ne : t.inputs ≠ []
  outputs_ne : t.outputs ≠ []
  outputs_le : t.outputs.length ≤ 2
  honest : ∀ o ∈ t.outputs, o.Honest E
  id_eq : t.id = E.sha256 (transactionPreimage t)
  size_le : bufferSize t ≤ intMax

theorem IsCreated.made {pubBuff : Pub} {rnd : ℕ → ℕ} {sender receiver : κ} {amount : UInt32}
    {U : List UnspentTxOut} {txPool : List Transaction} {t : Transaction}
    {selected : List UnspentTxOut}
    (h : IsCreated E pubBuff rnd sender receiver amount U txPool t selected) : Made E t where
  inputs_ne := by
    intro hnil
    have hrefs := h.refs_eq
    rw [Transaction.refs, hnil] at hrefs
    exact h.selected_ne (List.map_eq_nil_iff.mp hrefs.symm)
  outputs_ne := h.outputs_ne
  outputs_le := by
    rw [h.outputs_eq]
    exact length_paidOutputs_le E _ _ _ _
  honest := h.honest
  id_eq := h.id_eq
  size_le := h.size_le

theorem made_coinbaseWith (blockIndex : UInt32) (pub : Pub) :
    Made E (coinbaseWith E blockIndex (rewardOut E pub)) where
  inputs_ne := List.cons_ne_nil _ _
  outputs_ne := List.cons_ne_nil _ _
  outputs_le := by
    show 1 ≤ 2
    omega
  honest o ho := by
    rw [List.mem_singleton.mp ho]
    rfl
  id_eq := rfl
  size_le := by
    show 128 ≤ intMax
    decide

/-- A block that `handle_mine` puts together: a full buffer of zeros, the reward to some key, and
transactions that were created. -/
def BlockMade (b : Block) : Prop :=
  b.data = { buffer := zero 1024, len := 1024 } ∧
    ∃ pub ts, b.transactions = some (coinbaseWith E b.info.index (rewardOut E pub) :: ts) ∧
      ∀ t ∈ ts, Made E t

/-- The chain holds blocks that were put together behind the genesis block, and the pool
transactions that were created. -/
structure Contents (s : State κ φ) : Prop where
  chain : ∀ b ∈ s.blockchain.chain, b = genesisBlock ∨ BlockMade E b
  pool : ∀ t ∈ s.txPool, Made E t

variable {E}

theorem BlockMade.made {b : Block} (h : BlockMade E b) : ∀ t ∈ b.txs, Made E t := by
  obtain ⟨-, pub, ts, htxs, hts⟩ := h
  rw [Block.txs, htxs, Option.getD_some, List.forall_mem_cons]
  exact ⟨made_coinbaseWith E _ _, hts⟩

theorem Contents.made {s : State κ φ} (h : Contents E s) {b : Block}
    (hb : b ∈ s.blockchain.chain) : ∀ t ∈ b.txs, Made E t := by
  rcases h.chain b hb with rfl | hmade
  · -- the genesis block has none
    intro t ht
    cases ht
  · exact hmade.made

theorem MinedOn.blockMade {ω : Oracle} {s : State κ φ} {prev mined : Block} {pub : Pub}
    {txPool : List Transaction} (h : MinedOn E ω s prev pub txPool mined)
    (hpool : ∀ t ∈ s.txPool, Made E t) : BlockMade E mined := by
  refine ⟨h.data_eq, pub, txPool, ?_, fun t ht => ?_⟩
  · rw [h.transactions_eq, h.index_eq]
  · exact hpool t ((filterPool_eq_ok E le_rfl h.pool_eq).1.subset ht)

variable [DecidableEq φ]

/-- Every command but `load` keeps to what the client builds. -/
theorem Transition.contents {ω : Oracle} {s s' : State κ φ} {c : Command κ φ}
    (h : Transition E ω s c s') (hload : ∀ path, c ≠ .load path) (hs : Contents E s) :
    Contents E s' := by
  cases h with
  | unchanged => exact hs
  | wallet | walletSave | list | save => exact ⟨hs.chain, hs.pool⟩
  | send hcreate hvalid =>
    obtain ⟨sender, receiver, selected, -, -, hc⟩ := exists_isCreated E hcreate
    exact ⟨hs.chain, forall_mem_concat.mpr ⟨hs.pool, hc.made⟩⟩
  | reject hpool =>
    have hsub := (filterPool_eq_ok E le_rfl hpool).1
    exact ⟨hs.chain, fun t ht => hs.pool t (hsub.subset ht)⟩
  | append hmined hvalid =>
    refine ⟨forall_mem_concat.mpr ⟨hs.chain, Or.inr (hmined.blockMade hs.pool)⟩, ?_⟩
    simp [State.appendBlock]
  | load hload' => exact absurd rfl (hload _)

/-- In every state that clients reach, the chain and the pool are made of what the client builds. -/
theorem Reached.contents {cond : Oracle → State κ φ → Command κ φ → Prop} {s : State κ φ}
    (h : Reached E cond s) : Contents E s := by
  refine h.rule ?_ ?_ ?_ ?_
  · intro files
    exact ⟨fun b hb => Or.inl (List.mem_singleton.mp hb), by simp [initialState]⟩
  · exact fun _ _ hs => ⟨hs.chain, hs.pool⟩
  · exact fun _ _ _ _ _ _ hload _ hstep hs => hstep.contents hload hs
  · exact fun _ _ _ _ _ _ hs ht => ⟨ht.chain, hs.pool⟩

end HolbertonChain
