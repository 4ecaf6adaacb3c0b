import HolbertonChain.Cli.Equiv.Contents
import HolbertonChain.Cli.Equiv.Outcome
import HolbertonChain.Cli.Equiv.Retarget
import HolbertonChain.Block.Equiv.Mining

/-!
# A client does not leave defined behaviour

Single functions do: a difficulty above 256 has `hash_matches_difficulty` read behind the hash, a
data length above 1024 has `block_hash` read behind the buffer, `tx_in_sign` on an empty list tests
a pointer that was not assigned, and the sizes of buffers are computed in `int`.  In the states that
clients reach none of this comes about while the lists are short: the difficulty is bounded by the
position (`ChainLog.difficulty_eq`), and the rest by what the chain and the pool are made of
(`Reached.contents`).  So a command returns, unless it is `mine` and no nonce gives a hash of the
difficulty (`reached_findCommand`), and a run leads to a state or to such a search
(`run_returns_or_diverges`).
-/

namespace HolbertonChain

open Bytes

variable {κ φ : Type} (E : Env κ)

/-! ### Sending -/

theorem bufferSize_le_of_length_lt {t : Transaction} (hin : t.inputs.length < 2 ^ 24)
    (hout : t.outputs.length ≤ 2) : bufferSize t ≤ intMax := by
  unfold bufferSize intMax
  omega

/-- On a short list of unspent outputs `transaction_create` returns. -/
theorem exists_transactionCreate_of_lt {U : List UnspentTxOut} (hU : U.length < 2 ^ 24)
    (pubBuff : Pub) (rnd : ℕ → ℕ) (sender receiver : Option κ) (amount : UInt32)
    (txPool : List Transaction) :
    ∃ r, transactionCreate E pubBuff rnd sender receiver amount U txPool = .ok r := by
  cases sender with
  | none => exact ⟨none, rfl⟩
  | some sender =>
    cases receiver with
    | none => exact ⟨none, rfl⟩
    | some receiver =>
      have hhash : ∀ t : Transaction, t.inputs.length ≤ U.length → t.outputs.length ≤ 2 →
          ∃ r, transactionHash E t = .ok r := by
        intro t hin hout
        have hsize := bufferSize_le_of_length_lt (hin.trans_lt hU) hout
        by_cases h0 : bufferSize t = 0
        · exact ⟨_, (transactionHash_eq_ok_iff E).mpr ⟨hsize, Or.inl ⟨h0, rfl⟩⟩⟩
        · exact ⟨_, (transactionHash_eq_ok_iff E).mpr ⟨hsize, Or.inr ⟨h0, rfl⟩⟩⟩
      by_cases hamount : amount = 0
      · -- an amount of zero is refused
        have hback : amount.toInt32.toUInt32 = amount := UInt32.toUInt32_toInt32 amount
        have hnone : ∀ balance,
            sendAmount E pubBuff sender receiver amount.toInt32 balance = none := by
          intro balance
          rw [sendAmount, hback, hamount]
          rfl
        unfold transactionCreate
        simp only [hnone]
        split_ifs
        · exact ⟨_, rfl⟩
        · exact ⟨_, rfl⟩
      · by_cases henough : amount ≤
          (selectLoop ((ecToPub E sender).getD pubBuff) txPool amount U ([], 0)).2
        · obtain ⟨t, ht⟩ := (exists_transactionCreate_iff E hamount hhash).mpr henough
          exact ⟨some t, ht⟩
        · refine ⟨none, ?_⟩
          unfold transactionCreate
          simp only [if_pos (UInt32.not_le.mp henough)]
          rfl

/-- `send` returns. -/
theorem exists_handleSend {s : State κ φ} (hU : s.blockchain.unspent.length < 2 ^ 24) (ω : Oracle)
    (amount : Int32) (address : List UInt8) :
    ∃ reply s', handleSend E ω amount address s = .ok (reply, s') := by
  obtain ⟨created, hcreated⟩ := exists_transactionCreate_of_lt E hU ω.pubBuff ω.rnd s.wallet
    (strToKey E address).1 amount.toUInt32 s.txPool
  unfold handleSend
  simp only [hcreated, Except.ok_bind]
  cases created with
  | none => exact ⟨_, _, rfl⟩
  | some tx =>
    obtain ⟨sender, receiver, selected, -, -, hc⟩ := exists_isCreated E hcreated
    obtain ⟨valid, hvalid⟩ :=
      exists_transactionIsValid E hc.size_le ω.hashBuff s.blockchain.unspent
    simp only [hvalid, Except.ok_bind]
    cases valid with
    | true => exact ⟨_, _, rfl⟩
    | false => exact ⟨_, _, rfl⟩

/-! ### Mining -/

theorem exists_llistRemoveNode {α : Type} {identifier : α → Exec Bool} {l : List α}
    (h : ∀ a ∈ l, ∃ r, identifier a = .ok r) : ∃ l', llistRemoveNode identifier l = .ok l' := by
  induction l with
  | nil => exact ⟨[], rfl⟩
  | cons a l ih =>
    rw [List.forall_mem_cons] at h
    obtain ⟨⟨found, hfound⟩, h⟩ := h
    obtain ⟨rest, hrest⟩ := ih h
    rw [llistRemoveNode, hfound, Except.ok_bind]
    cases found with
    | true => exact ⟨l, rfl⟩
    | false => exact ⟨a :: rest, by rw [if_neg Bool.false_ne_true, hrest]; rfl⟩

/-- The filter returns. -/
theorem exists_filterPool {txPool : List Transaction} (h : ∀ t ∈ txPool, bufferSize t ≤ intMax)
    (hashBuff : Digest) (U : List UnspentTxOut) (n : ℕ) :
    ∃ txPool', filterPool E hashBuff U n txPool = .ok txPool' := by
  induction n generalizing txPool with
  | zero => exact ⟨txPool, rfl⟩
  | succ n ih =>
    have hfound : ∀ t ∈ txPool, ∃ invalid, invalidTx E hashBuff U t = .ok invalid := by
      intro t ht
      obtain ⟨valid, hvalid⟩ := exists_transactionIsValid E (h t ht) hashBuff U
      exact ⟨!valid, (invalidTx_eq_ok_iff E).mpr (by rw [hvalid, Bool.not_not])⟩
    obtain ⟨once, honce⟩ := exists_llistRemoveNode hfound
    have honce' : ∀ t ∈ once, bufferSize t ≤ intMax := by
      rcases llistRemoveNode_eq_ok honce with ⟨rfl, -⟩ | ⟨before, a, after, rfl, rfl, -⟩
      · exact h
      · intro t ht
        apply h t
        rcases List.mem_append.mp ht with ht | ht
        · exact List.mem_append_left _ ht
        · exact List.mem_append_right _ (List.mem_cons_of_mem _ ht)
    obtain ⟨rest, hrest⟩ := ih honce'
    refine ⟨rest, ?_⟩
    rw [filterPool, honce, Except.ok_bind, hrest]

/-- The search for a nonce returns a block, or goes on for ever because no nonce matches. -/
theorem blockMine_returns_or_diverges {block : Block} (hlen : block.data.len.toNat ≤ 1024)
    (hsize : block.txs.length * 32 ≤ intMax) (hd : block.info.difficulty.toNat ≤ 256) :
    (∃ mined, blockMine E block = .ok mined) ∨
      blockMine E block = .error .diverges ∧ ∀ nonce, ¬ NonceMatches E block nonce := by
  by_cases hmatch : ∃ nonce, NonceMatches E block nonce
  · obtain ⟨nonce, hnonce⟩ := hmatch
    exact Or.inl (exists_blockMine_of_nonceMatches hnonce)
  · rw [not_exists] at hmatch
    refine Or.inr ⟨?_, hmatch⟩
    have hends := not_ends_of_forall_not_nonceMatches hlen hsize hd hmatch (blockMine E block)
    have hrun : CounterSearch.run .diverges (mineTest E block) (2 ^ 64) 0 = blockMine E block :=
      (blockMineLoop_eq_run _ _).symm
    rcases CounterSearch.run_eq_iff.mp hrun with h | ⟨-, h⟩
    · exact absurd h hends
    · exact h

/-- What is mined next: the block that `handle_mine` and `mine` put together. -/
def nextBlock (ω : Oracle) (s : State κ φ) (prev : Block) (pub : Pub)
    (txPool : List Transaction) : Block :=
  assembleBlock s.blockchain.chain txPool
    (coinbaseWith E (prev.info.index + 1) (rewardOut E pub)) (newBlock ω.time prev)

/-- The search for the nonce of the next block of a state does not end. -/
def MinesForever (E : Env κ) (ω : Oracle) (s : State κ φ) : Prop :=
  ∃ prev pub txPool, s.blockchain.chain.getLast? = some prev ∧ txPool.Sublist s.txPool ∧
    ∀ nonce, ¬ NonceMatches E (nextBlock E ω s prev pub txPool) nonce

/-- `mine` returns, or no nonce matches. -/
theorem handleMine_returns_or_diverges {s : State κ φ}
    (hchain : ChainLog E s.blockchain.chain) (hcontents : Contents E s)
    (hshort : Short s.blockchain) (hpool : s.txPool.length < 2 ^ 24)
    (hlength : s.blockchain.chain.length ≤ 1285) (ω : Oracle) :
    (∃ reply s', handleMine E ω s = .ok (reply, s')) ∨
      handleMine E ω s = .error .diverges ∧ MinesForever E ω s := by
  cases hwallet : s.wallet with
  | none => exact Or.inl ⟨_, _, by simp only [handleMine, hwallet]; rfl⟩
  | some wallet =>
    cases hprev : s.blockchain.chain.getLast? with
    | none => exact Or.inl ⟨_, _, by simp only [handleMine, hwallet, hprev]; rfl⟩
    | some prev =>
      cases hpub : ecToPub E wallet with
      | none =>
        refine Or.inl ⟨{ ret := -1, out := ["mine: failed to create coinbase transaction\n"] }, s,
          ?_⟩
        simp only [handleMine, hwallet, hprev, blockCreate_eq_newBlock, coinbaseCreate, hpub,
          Except.pure_eq_ok, Except.ok_bind]
      | some pub =>
        rw [handleMine_of_pub E hwallet hprev hpub]
        obtain ⟨txPool, htxPool⟩ := exists_filterPool E (fun t ht => (hcontents.pool t ht).size_le)
          ω.hashBuff s.blockchain.unspent s.txPool.length
        have hsub := (filterPool_eq_ok E le_rfl htxPool).1
        have hlen : (nextBlock E ω s prev pub txPool).data.len.toNat ≤ 1024 := by
          show (1024 : UInt32).toNat ≤ 1024
          decide
        have htxs : (nextBlock E ω s prev pub txPool).txs.length * 32 ≤ intMax := by
          show ((coinbaseWith E _ _ :: ([] ++ txPool)).length) * 32 ≤ intMax
          have hle := hsub.length_le
          rw [List.length_cons, List.nil_append]
          unfold intMax
          omega
        have hdifficulty : (nextBlock E ω s prev pub txPool).info.difficulty.toNat ≤ 256 := by
          show (blockchainDifficulty s.blockchain.chain).toNat ≤ 256
          -- the difficulty of a block at the next position
          have hpos : 0 < s.blockchain.chain.length :=
            List.length_pos_of_ne_nil (by rintro hnil; rw [hnil] at hprev; cases hprev)
          rw [List.getLast?_eq_getElem?] at hprev
          have hnext := hchain.toNat_blockchainDifficulty hprev (hchain.difficulty_eq hprev)
          rw [Nat.sub_add_cancel hpos, List.take_length] at hnext
          rw [hnext]
          have hle := retarget_le (timeAt s.blockchain.chain) s.blockchain.chain.length
          omega
        rcases blockMine_returns_or_diverges E hlen htxs hdifficulty with ⟨mined, hmined⟩ | hnone
        · left
          have hon := minedOn_of_blockMine E hprev htxPool hmined
          have hmem : prev ∈ s.blockchain.chain := List.mem_of_getLast? hprev
          have hprevLen : prev.data.len.toNat ≤ 1024 := (hchain.savable E hshort).len_le prev hmem
          have hprevTxs : prev.txs.length * 32 ≤ intMax := by
            have hlt := hshort.transactions_lt prev hmem
            unfold intMax
            omega
          obtain ⟨code, hcode⟩ := hon.exists_blockIsValid
            ((blockHash_eq_ok_some_iff E).mpr ⟨hprevLen, hprevTxs, rfl⟩)
          rw [mine_of_blockMine E htxPool hmined, hcode, Except.ok_bind]
          split_ifs
          · exact ⟨_, _, rfl⟩
          · exact ⟨_, _, rfl⟩
        · obtain ⟨hdiverges, hnone⟩ := hnone
          refine Or.inr ⟨?_, prev, pub, txPool, hprev, hsub, hnone⟩
          unfold mine
          rw [htxPool, Except.ok_bind]
          show (blockMine E (nextBlock E ω s prev pub txPool) >>= _) = _
          rw [hdiverges]
          rfl

/-! ### Every command -/

variable [DecidableEq φ]

/-- The lists are short enough for the next command. -/
structure Small (s : State κ φ) : Prop where
  short : Short s.blockchain
  pool_lt : s.txPool.length < 2 ^ 24
  chain_le : s.blockchain.chain.length ≤ 1285

instance decidableSmall (s : State κ φ) : Decidable (Small s) :=
  decidable_of_iff
    (Short s.blockchain ∧ s.txPool.length < 2 ^ 24 ∧ s.blockchain.chain.length ≤ 1285)
    ⟨fun ⟨h1, h2, h3⟩ => ⟨h1, h2, h3⟩, fun h => ⟨h.1, h.2, h.3⟩⟩

variable {E} {cond : Oracle → State κ φ → Command κ φ → Prop}

/-- `load` returns, where the file is not there or was saved by a client. -/
theorem exists_handleLoad {s : State κ φ} {path : φ}
    (hfile : ∀ bytes, s.files path = some bytes → IsSaved E cond bytes) (ω : Oracle) :
    ∃ reply s', handleLoad E ω path s = .ok (reply, s') := by
  unfold handleLoad
  cases hbytes : s.files path with
  | none => exact ⟨_, _, rfl⟩
  | some bytes =>
    obtain ⟨t, ht, hshort, hsaved⟩ := hfile bytes hbytes
    have hsavable := ht.integrity.chain.savable E hshort
    rw [hsavable.blockchainSerialize_eq E] at hsaved
    obtain rfl := Except.ok.inj hsaved
    rw [hsavable.blockchainDeserialize_eq E]
    exact ⟨_, _, rfl⟩

/-- In a state that clients reach with short lists, a command returns, or it is `mine` and no nonce
gives the next block a hash of its difficulty. -/
theorem reached_findCommand {s : State κ φ} (h : Reached E cond s) (hsmall : Small s)
    {c : Command κ φ}
    (hload : ∀ path, c = .load path → ∀ bytes, s.files path = some bytes → IsSaved E cond bytes)
    (ω : Oracle) :
    (∃ reply s', findCommand E ω s c = .ok (reply, s')) ∨
      findCommand E ω s c = .error .diverges ∧ c = .mine ∧ MinesForever E ω s := by
  cases c with
  | send amount address => exact Or.inl (exists_handleSend E hsmall.short.unspent_lt ω _ _)
  | mine =>
    rcases handleMine_returns_or_diverges E h.integrity.chain h.contents hsmall.short
      hsmall.pool_lt hsmall.chain_le ω with hret | ⟨hdiverges, hnone⟩
    · exact Or.inl hret
    · exact Or.inr ⟨hdiverges, rfl, hnone⟩
  | save path =>
    have hsave := (h.integrity.chain.savable E hsmall.short).blockchainSerialize_eq E
    left
    rw [findCommand, handleSave, hsave]
    exact ⟨_, _, rfl⟩
  | load path => exact Or.inl (exists_handleLoad (hload path rfl) ω)
  | walletCreate | walletLoad | walletSave | list | info | infoBlock | help | exit | other =>
    exact Or.inl ⟨_, _, rfl⟩

/-- A run whose loads read what was saved leads to a state, as long as the lists stay short, or it
comes to a `mine` for whose block no nonce gives a hash of the difficulty: nothing else takes a
client out of defined behaviour. -/
theorem run_returns_or_diverges {cmds : List (Command κ φ × Oracle)} {saved : List (List UInt8)}
    {s : State κ φ} (hs : Reached E cond s) (hloads : LoadsSaved E saved s cmds)
    (hmeet : StepsMeet E (fun ω s c => Small s ∧ cond ω s c) s cmds)
    (hsaved : ∀ bytes ∈ saved, IsSaved E cond bytes) :
    (∃ s', run E s cmds = .ok s') ∨
      run E s cmds = .error .diverges ∧ ∃ k t ω, run E s (cmds.take k) = .ok t ∧
        cmds[k]? = some (.mine, ω) ∧ MinesForever E ω t := by
  induction cmds generalizing s saved with
  | nil => exact Or.inl ⟨s, rfl⟩
  | cons p cmds ih =>
    obtain ⟨c, ω⟩ := p
    obtain ⟨hload, hloads⟩ := hloads
    obtain ⟨⟨hsmall, hcond⟩, hmeet⟩ := hmeet
    have hfile : ∀ path, c = .load path → ∀ bytes, s.files path = some bytes →
        IsSaved E cond bytes := by
      intro path hpath bytes hbytes
      obtain ⟨bytes', hmem, hbytes'⟩ := hload path hpath
      rw [hbytes'] at hbytes
      obtain rfl := Option.some.inj hbytes
      exact hsaved bytes' hmem
    rcases reached_findCommand hs hsmall hfile ω with ⟨reply, next, hnext⟩ | ⟨hdiverges, rfl, h⟩
    · by_cases hexit : reply.ret = 1
      · refine Or.inl ⟨next, ?_⟩
        rw [run, hnext, Except.ok_bind]
        exact if_pos hexit
      · have hgo : ∀ cmds', run E s ((c, ω) :: cmds') = run E next cmds' := by
          intro cmds'
          rw [run, hnext, Except.ok_bind]
          exact if_neg hexit
        have hnext' : Reached E cond next :=
          findCommand_reached hs hsmall.short hcond hsaved hload hnext
        have hmeet' : StepsMeet E (fun ω s c => Small s ∧ cond ω s c) next cmds := by
          refine hmeet (reply, next) ?_ hexit
          rw [hnext]
          rfl
        have hsaved' : ∀ bytes ∈ saved ++ savedFile E s c, IsSaved E cond bytes := by
          intro bytes hbytes
          rcases List.mem_append.mp hbytes with hbytes | hbytes
          · exact hsaved bytes hbytes
          · exact isSaved_savedFile hs hsmall.short c bytes hbytes
        rw [hgo]
        rcases ih hnext' (hloads reply next hnext hexit) hmeet' hsaved' with
          hret | ⟨hdiverges, k, t, ω', hrun, hk, hmine⟩
        · exact Or.inl hret
        · refine Or.inr ⟨hdiverges, k + 1, t, ω', ?_, hk, hmine⟩
          rw [List.take_succ_cons, hgo]
          exact hrun
    · refine Or.inr ⟨?_, 0, s, ω, rfl, rfl, h⟩
      rw [run, hdiverges]
      rfl

/-- The run in which key 1 mines, sends, sorts and mines again. -/
theorem mineSendMine_returns_or_diverges :
    (∃ s', run sampleEnv (initialState fun _ => none) mineSendMine = .ok s') ∨
      run sampleEnv (initialState fun _ => none) mineSendMine = .error .diverges ∧ ∃ k t ω,
        run sampleEnv (initialState fun _ => none) (mineSendMine.take k) = .ok t ∧
          mineSendMine[k]? = some (.mine, ω) ∧ MinesForever sampleEnv ω t := by
  have hloads : LoadsSaved sampleEnv [] (initialState fun _ => none) mineSendMine := by
    have hchecked : (checkedRun sampleEnv [] (initialState fun _ => none) mineSendMine).isSome := by
      decide +kernel
    obtain ⟨s, hs⟩ := Option.isSome_iff_exists.mp hchecked
    exact (checkedRun_eq_some sampleEnv hs).2.1
  have hstart : Reached sampleEnv (fun _ _ _ => True) (@initialState ℕ ℕ fun _ => none) :=
    .start _
  exact run_returns_or_diverges hstart hloads (by decide +kernel) (by simp)

end HolbertonChain
