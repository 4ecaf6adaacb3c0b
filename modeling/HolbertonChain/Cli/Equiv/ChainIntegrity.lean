import HolbertonChain.Blockchain.Equiv.RoundTrip
import HolbertonChain.Cli.Equiv.Transitions
import HolbertonChain.Lib.AppendLog
import HolbertonChain.Transaction.Equiv.Create

/-!
# The chain over runs of the client

Whatever commands are run, the chain is a log of blocks each of which was mined on top of what was
there (`BlockAt`), as long as a load reads what an earlier save of the run wrote.  `Integrity` is
the invariant that carries this through every command: besides the log it says that the buffers of
the blocks are zero behind the data, without which a loaded block would not be the saved one, and
that no transaction of the pool is empty.
-/

namespace HolbertonChain

open AppendLog Bytes Format

variable {κ φ : Type} (E : Env κ)

/-! ### The chain -/

/-- What a block behind the blocks `before`, of which `prev` is the last, is like. -/
structure BlockAt (before : List Block) (prev b : Block) : Prop where
  index_eq : b.info.index.toNat = before.length
  prevHash_eq : b.info.prevHash = prev.hash
  hash_eq : blockHash E b = .ok (some b.hash)
  meets_difficulty : hashMatchesDifficulty b.hash b.info.difficulty = .ok true
  difficulty_eq : b.info.difficulty = blockchainDifficulty before
  len_le : b.data.len.toNat ≤ 1024
  coinbase_valid : ∃ coinbase ts, b.transactions = some (coinbase :: ts) ∧
    coinbaseIsValid E coinbase b.info.index = .ok true

/-- The chain starts with the genesis block, and the block at each later position is what it has to
be there. -/
def ChainOk (chain : List Block) : Prop :=
  chain.head? = some genesisBlock ∧
    ∀ i prev b, chain[i]? = some prev → chain[i + 1]? = some b →
      BlockAt E (chain.take (i + 1)) prev b

/-- The lists of a blockchain have fewer than `2 ^ 24` nodes. -/
structure Short (bc : Blockchain) : Prop where
  chain_lt : bc.chain.length < 2 ^ 24
  unspent_lt : bc.unspent.length < 2 ^ 24
  transactions_lt : ∀ b ∈ bc.chain, b.txs.length < 2 ^ 24
  inputs_lt : ∀ b ∈ bc.chain, ∀ t ∈ b.txs, t.inputs.length < 2 ^ 24
  outputs_lt : ∀ b ∈ bc.chain, ∀ t ∈ b.txs, t.outputs.length < 2 ^ 24

/-- The chain as it grows by mining, its buffers zero behind the data. -/
structure ChainLog (chain : List Block) : Prop where
  log : Log genesisBlock (BlockAt E) chain
  zero_tail : ∀ b ∈ chain, ∀ x ∈ b.data.buffer.toList.drop b.data.len.toNat, x = 0

theorem chainLog_genesis : ChainLog E [genesisBlock] where
  log := .start
  zero_tail b hb := by
    rw [List.mem_singleton.mp hb]
    exact eq_zero_of_all (by decide +kernel)

theorem ChainLog.chainOk {chain : List Block} (h : ChainLog E chain) : ChainOk E chain :=
  ⟨h.log.head?_eq, fun _ _ _ hprev hb => h.log.getElem hprev hb⟩

/-- The index of the last block counts the blocks. -/
theorem ChainLog.index_last {chain : List Block} (h : ChainLog E chain) {b : Block}
    (hb : chain.getLast? = some b) : b.info.index.toNat + 1 = chain.length := by
  rcases h.log.last hb with ⟨rfl, rfl⟩ | ⟨before, prev, -, hat, rfl⟩
  · rfl
  · rw [hat.index_eq, List.length_append, List.length_singleton]

/-- The last block carries its hash, if the genesis block does. -/
theorem ChainLog.hash_last (hgenesis : blockHash E genesisBlock = .ok (some genesisHash))
    {chain : List Block} (h : ChainLog E chain) {b : Block} (hb : chain.getLast? = some b) :
    blockHash E b = .ok (some b.hash) := by
  rcases h.log.last hb with ⟨-, rfl⟩ | ⟨before, prev, -, hat, -⟩
  · exact hgenesis
  · exact hat.hash_eq

/-- A blockchain whose chain grew by mining can be saved and loaded. -/
theorem ChainLog.savable {bc : Blockchain} (h : ChainLog E bc.chain) (hshort : Short bc) :
    Savable bc where
  len_le := h.log.forall_mem (by decide) fun _ _ _ _ hat => hat.len_le
  zero_tail := h.zero_tail
  genesis_null := by
    refine h.log.forall_mem (fun _ => rfl) fun before prev b hprev hat hzero => ?_
    -- only the first block has index 0
    have hindex := hat.index_eq
    rw [hzero] at hindex
    have hnil : before = [] := List.length_eq_zero_iff.mp hindex.symm
    rw [hnil] at hprev
    cases hprev
  chain_lt := hshort.chain_lt.trans (by decide)
  unspent_lt := hshort.unspent_lt.trans (by decide)
  transactions_lt b hb := (hshort.transactions_lt b hb).trans (by decide)
  inputs_lt b hb t ht := (hshort.inputs_lt b hb t ht).trans (by decide)
  outputs_lt b hb t ht := (hshort.outputs_lt b hb t ht).trans (by decide)

/-- A mined block continues the chain it was mined on. -/
theorem ChainLog.append {ω : Oracle} {s : State κ φ} {prev mined : Block} {pub : Pub}
    {txPool : List Transaction} (h : ChainLog E s.blockchain.chain)
    (hshort : s.blockchain.chain.length < 2 ^ 24) (hmined : MinedOn E ω s prev pub txPool mined) :
    ChainLog E (s.blockchain.chain ++ [mined]) := by
  have hlen := h.index_last E hmined.prev_eq
  have hindex : mined.info.index.toNat = s.blockchain.chain.length := by
    rw [hmined.index_eq, UInt32.toNat_add, show (1 : UInt32).toNat = 1 from rfl]
    omega
  have hat : BlockAt E s.blockchain.chain prev mined :=
    { index_eq := hindex
      prevHash_eq := hmined.prevHash_eq
      hash_eq := hmined.hash_eq
      meets_difficulty := hmined.meets_difficulty
      difficulty_eq := hmined.difficulty_eq
      len_le := by rw [hmined.data_eq]; decide
      coinbase_valid :=
        ⟨_, txPool, hmined.transactions_eq, by
          rw [hmined.index_eq]
          exact coinbaseWith_isValid E _ rfl⟩ }
  refine ⟨.append h.log hmined.prev_eq hat, forall_mem_concat.mpr ⟨h.zero_tail, ?_⟩⟩
  rw [hmined.data_eq]
  exact eq_zero_of_all (by decide +kernel)

/-! ### Runs -/

variable [DecidableEq φ]

/-- The contents of the file a command saves. -/
def savedFile (s : State κ φ) : Command κ φ → List (List UInt8)
  | .save _ => (blockchainSerialize E s.blockchain).toOption.toList
  | _ => []

/-- Along a run from `s`, every load reads a file whose contents are among `saved` or were written
by an earlier save of the run. -/
def LoadsSaved :
    List (List UInt8) → State κ φ → List (Command κ φ × Oracle) → Prop
  | _, _, [] => True
  | saved, s, (c, ω) :: cmds =>
    (∀ path, c = .load path → ∃ bytes ∈ saved, s.files path = some bytes) ∧
      ∀ reply s', findCommand E ω s c = .ok (reply, s') → reply.ret ≠ 1 →
        LoadsSaved (saved ++ savedFile E s c) s' cmds

/-- Along a run from `s`, the lists of the blockchain stay short. -/
def StaysShort (s : State κ φ) (cmds : List (Command κ φ × Oracle)) : Prop :=
  ∀ k s', run E s (cmds.take k) = .ok s' → Short s'.blockchain

/-- The invariant of the client: the chain grew by mining, and no transaction of the pool is
empty. -/
structure Integrity (s : State κ φ) : Prop where
  chain : ChainLog E s.blockchain.chain
  pool : ∀ t ∈ s.txPool, t.outputs ≠ []

/-- The contents are those of a saved blockchain whose chain grew by mining. -/
def SavedWell (bytes : List UInt8) : Prop :=
  ∃ bc, bytes = file E.host bc ∧ Savable bc ∧ ChainLog E bc.chain

omit [DecidableEq φ] in
theorem integrity_initialState (files : φ → Option (List UInt8)) :
    Integrity E (initialState files : State κ φ) where
  chain := chainLog_genesis E
  pool := by simp [initialState]

/-- Every command keeps the invariant, where a load reads a file that was saved well. -/
theorem Transition.integrity {ω : Oracle} {s s' : State κ φ} {c : Command κ φ}
    (h : Transition E ω s c s') (hshort : Short s.blockchain) (hs : Integrity E s)
    (hload : ∀ path, c = .load path → ∃ bytes, SavedWell E bytes ∧ s.files path = some bytes) :
    Integrity E s' := by
  cases h with
  | unchanged => exact hs
  | wallet wallet => exact ⟨hs.chain, hs.pool⟩
  | walletSave files => exact ⟨hs.chain, hs.pool⟩
  | list => exact ⟨hs.chain, hs.pool⟩
  | save hbytes => exact ⟨hs.chain, hs.pool⟩
  | send hcreate hvalid =>
    have hne := (transactionCreate_eq_ok_some E hcreate).1
    exact ⟨hs.chain, forall_mem_concat.mpr ⟨hs.pool, hne⟩⟩
  | reject hpool =>
    have hsub := (filterPool_eq_ok E le_rfl hpool).1
    exact ⟨hs.chain, fun t ht => hs.pool t (hsub.subset ht)⟩
  | append hmined hvalid =>
    exact ⟨hs.chain.append E hshort.chain_lt hmined, by simp [State.appendBlock]⟩
  | load hload' =>
    -- what is read is what was saved
    obtain ⟨bytes, ⟨bc, rfl, hsavable, hlog⟩, hfile⟩ := hload _ rfl
    rw [hfile, hsavable.blockchainDeserialize_eq E] at hload'
    obtain rfl := Option.some.inj (Except.ok.inj hload')
    exact ⟨hlog, hs.pool⟩

omit [DecidableEq φ] in
/-- What is saved of a state with the invariant is saved well. -/
theorem Integrity.savedFile {s : State κ φ} (hs : Integrity E s) (hshort : Short s.blockchain)
    (c : Command κ φ) : ∀ bytes ∈ savedFile E s c, SavedWell E bytes := by
  intro bytes hbytes
  cases c with
  | save path =>
    have hsavable := hs.chain.savable E hshort
    have hwrite := hsavable.blockchainSerialize_eq E
    have heq : bytes = file E.host s.blockchain := by
      simpa [HolbertonChain.savedFile, hwrite, Except.toOption] using hbytes
    exact ⟨s.blockchain, heq, hsavable, hs.chain⟩
  | _ => simp [HolbertonChain.savedFile] at hbytes

/-- The invariant holds at the end of every run that loads what it saved. -/
theorem run_integrity {cmds : List (Command κ φ × Oracle)} {saved : List (List UInt8)}
    {s s' : State κ φ} (hrun : run E s cmds = .ok s') (hloads : LoadsSaved E saved s cmds)
    (hshort : StaysShort E s cmds) (hsaved : ∀ bytes ∈ saved, SavedWell E bytes)
    (hs : Integrity E s) : Integrity E s' := by
  -- the contents saved so far are carried along, and stay well saved
  induction cmds generalizing s saved with
  | nil =>
    obtain rfl := Except.ok.inj hrun
    exact hs
  | cons p cmds ih =>
    obtain ⟨c, ω⟩ := p
    obtain ⟨hload, hloads⟩ := hloads
    have hs0 : Short s.blockchain := hshort 0 s rfl
    obtain ⟨⟨reply, next⟩, hnext, hrest⟩ := Except.bind_eq_ok_iff.mp hrun
    have hkeep : Integrity E next := by
      refine (findCommand_transition E hnext).integrity E hs0 hs fun path hpath => ?_
      obtain ⟨bytes, hbytes, hfile⟩ := hload path hpath
      exact ⟨bytes, hsaved bytes hbytes, hfile⟩
    dsimp only at hrest
    split_ifs at hrest with hexit
    · obtain rfl := Except.ok.inj hrest
      exact hkeep
    · have hshort' : StaysShort E next cmds := by
        intro k s'' hk
        apply hshort (k + 1) s''
        rw [List.take_succ_cons, run, hnext, Except.ok_bind]
        simpa only [if_neg hexit] using hk
      have hsaved' : ∀ bytes ∈ saved ++ savedFile E s c, SavedWell E bytes := by
        intro bytes hbytes
        rcases List.mem_append.mp hbytes with hbytes | hbytes
        · exact hsaved bytes hbytes
        · exact hs.savedFile E hs0 c bytes hbytes
      exact ih hrest (hloads reply next hnext hexit) hshort' hsaved' hkeep

/-! ### Checking a run -/

instance decidableShort (bc : Blockchain) : Decidable (Short bc) :=
  decidable_of_iff
    (bc.chain.length < 2 ^ 24 ∧ bc.unspent.length < 2 ^ 24 ∧
      (∀ b ∈ bc.chain, b.txs.length < 2 ^ 24) ∧
      (∀ b ∈ bc.chain, ∀ t ∈ b.txs, t.inputs.length < 2 ^ 24) ∧
      ∀ b ∈ bc.chain, ∀ t ∈ b.txs, t.outputs.length < 2 ^ 24)
    ⟨fun ⟨h1, h2, h3, h4, h5⟩ => ⟨h1, h2, h3, h4, h5⟩,
      fun h => ⟨h.1, h.2, h.3, h.4, h.5⟩⟩

/-- Whether a command, if it is a load, reads one of the contents `saved`. -/
def loadsOneOf (saved : List (List UInt8)) (s : State κ φ) : Command κ φ → Bool
  | .load path => saved.any fun bytes => s.files path == some bytes
  | _ => true

/-- Runs the commands, and returns the last state if no command faults, every load reads what was
saved and the lists stay short. -/
def checkedRun :
    List (List UInt8) → State κ φ → List (Command κ φ × Oracle) → Option (State κ φ)
  | _, s, [] => if Short s.blockchain then some s else none
  | saved, s, (c, ω) :: cmds =>
    if Short s.blockchain ∧ loadsOneOf saved s c = true then
      match findCommand E ω s c with
      | .error _ => none
      | .ok (reply, s') =>
        if reply.ret = 1 then none else checkedRun (saved ++ savedFile E s c) s' cmds
    else none

/-- A run that passes the check is one the results about runs are about. -/
theorem checkedRun_eq_some {cmds : List (Command κ φ × Oracle)} {saved : List (List UInt8)}
    {s s' : State κ φ} (h : checkedRun E saved s cmds = some s') :
    run E s cmds = .ok s' ∧ LoadsSaved E saved s cmds ∧ StaysShort E s cmds := by
  induction cmds generalizing s saved with
  | nil =>
    rw [checkedRun] at h
    split_ifs at h with hshort
    obtain rfl := Option.some.inj h
    refine ⟨rfl, trivial, fun k s' hk => ?_⟩
    rw [List.take_nil] at hk
    obtain rfl := Except.ok.inj hk
    exact hshort
  | cons p cmds ih =>
    obtain ⟨c, ω⟩ := p
    rw [checkedRun] at h
    split_ifs at h with hgood
    obtain ⟨hshort, hload⟩ := hgood
    cases hstep : findCommand E ω s c with
    | error e =>
      rw [hstep] at h
      cases h
    | ok result =>
      obtain ⟨reply, next⟩ := result
      simp only [hstep] at h
      split_ifs at h with hexit
      obtain ⟨hrun, hloads, hshorts⟩ := ih h
      refine ⟨?_, ⟨?_, ?_⟩, ?_⟩
      · rw [run, hstep, Except.ok_bind]
        simpa only [if_neg hexit] using hrun
      · rintro path rfl
        simpa [loadsOneOf] using hload
      · intro reply' next' hstep' _
        obtain ⟨rfl, rfl⟩ := Prod.mk.inj (Except.ok.inj (hstep.symm.trans hstep'))
        exact hloads
      · intro k s'' hk
        cases k with
        | zero =>
          obtain rfl := Except.ok.inj hk
          exact hshort
        | succ k =>
          rw [List.take_succ_cons, run, hstep, Except.ok_bind] at hk
          exact hshorts k s'' (by simpa only [if_neg hexit] using hk)

/-! ### The result -/

/-- In every state the client reaches by commands that load only what was saved, the chain is as it
was mined. -/
theorem run_chainOk {files : φ → Option (List UInt8)} {cmds : List (Command κ φ × Oracle)}
    {s : State κ φ} (hrun : run E (initialState files) cmds = .ok s)
    (hloads : LoadsSaved E [] (initialState files) cmds)
    (hshort : StaysShort E (initialState files) cmds) : ChainOk E s.blockchain.chain := by
  have hs := run_integrity E hrun hloads hshort (by simp) (integrity_initialState E files)
  exact hs.chain.chainOk E

/-- Key 1 mines a block, saves the chain and loads it again. -/
def saveAndLoad : List (Command ℕ ℕ × Oracle) :=
  [.walletCreate (some 1), .mine, .save 0, .load 0].map fun c => (c, sampleOracle)

theorem saveAndLoad_chainOk :
    ∃ s, run sampleEnv (initialState fun _ => none) saveAndLoad = .ok s ∧
      s.blockchain.chain.length = 2 ∧ ChainOk sampleEnv s.blockchain.chain := by
  have hchecked : ((checkedRun sampleEnv [] (initialState fun _ => none) saveAndLoad).map
      fun s => s.blockchain.chain.length) = some 2 := by decide +kernel
  obtain ⟨s, hs, hlen⟩ := Option.map_eq_some_iff.mp hchecked
  obtain ⟨hrun, hloads, hshort⟩ := checkedRun_eq_some sampleEnv hs
  exact ⟨s, hrun, hlen, run_chainOk sampleEnv hrun hloads hshort⟩

end HolbertonChain
