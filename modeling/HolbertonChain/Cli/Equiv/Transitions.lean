import HolbertonChain.Cli.Commands
import HolbertonChain.Cli.Equiv.Filter

/-!
# What a command can do

`Transition` lists the effects a command that returns can have on the state, with everything the
code has checked on the way; `findCommand_transition` says that there are no others.  An invariant
of the client is proved by one case for each effect, and `run_preserves` carries it over a whole
run.
-/

namespace HolbertonChain

open Bytes

variable {κ φ : Type} (E : Env κ)

/-! ### Commands -/

/-- The amount and the address of a `send`. -/
def Command.sent : Command κ φ → Option (Int32 × List UInt8)
  | .send amount address => some (amount, address)
  | _ => none

/-- The path of a `load`. -/
def Command.loaded : Command κ φ → Option φ
  | .load path => some path
  | _ => none

/-- Whether a command is `list`. -/
def Command.isList : Command κ φ → Bool
  | .list => true
  | _ => false

/-! ### Mining -/

/-- What `handle_mine` and `mine` put together on top of `prev`: the block with its hash, from the
reward to `pub` and the filtered pool. -/
structure MinedOn (ω : Oracle) (s : State κ φ) (prev : Block) (pub : Pub)
    (txPool : List Transaction) (mined : Block) : Prop where
  prev_eq : s.blockchain.chain.getLast? = some prev
  pool_eq : filterPool E ω.hashBuff s.blockchain.unspent s.txPool.length s.txPool = .ok txPool
  index_eq : mined.info.index = prev.info.index + 1
  prevHash_eq : mined.info.prevHash = prev.hash
  difficulty_eq : mined.info.difficulty = blockchainDifficulty s.blockchain.chain
  data_eq : mined.data = { buffer := zero 1024, len := 1024 }
  transactions_eq : mined.transactions =
    some (coinbaseWith E (prev.info.index + 1) (rewardOut E pub) :: txPool)
  hash_eq : blockHash E mined = .ok (some mined.hash)
  meets_difficulty : hashMatchesDifficulty mined.hash mined.info.difficulty = .ok true

theorem MinedOn.txs_eq {E : Env κ} {ω : Oracle} {s : State κ φ} {prev mined : Block} {pub : Pub}
    {txPool : List Transaction} (h : MinedOn E ω s prev pub txPool mined) :
    mined.txs = coinbaseWith E (prev.info.index + 1) (rewardOut E pub) :: txPool := by
  rw [Block.txs, h.transactions_eq, Option.getD_some]

/-- The block `handle_mine` creates, before its transactions are added. -/
def newBlock (time : UInt64) (prev : Block) : Block where
  info :=
    { index := prev.info.index + 1, difficulty := 0, timestamp := time, nonce := 0
      prevHash := prev.hash }
  data := { buffer := zero 1024, len := 1024 }
  transactions := some []
  hash := zero 32

theorem blockCreate_eq_newBlock (time : UInt64) (prev : Block) :
    blockCreate time (some prev) (List.replicate 1024 0) 1024 = some (newBlock time prev) := by
  have hbuffer : ofList 1024 ((List.replicate 1024 0).take 1024) = zero 1024 := by decide +kernel
  have hmax : (if (1024 : UInt32) < 1024 then (1024 : UInt32) else 1024) = 1024 := by decide
  have hlen : (1024 : UInt32).toNat = 1024 := rfl
  simp only [blockCreate, newBlock, Option.map_some, hmax, hlen, hbuffer]

theorem minedOn_of_blockMine {ω : Oracle} {s : State κ φ} {prev mined : Block} {pub : Pub}
    {txPool : List Transaction} (hprev : s.blockchain.chain.getLast? = some prev)
    (hpool : filterPool E ω.hashBuff s.blockchain.unspent s.txPool.length s.txPool = .ok txPool)
    (hmined : blockMine E (assembleBlock s.blockchain.chain txPool
      (coinbaseWith E (prev.info.index + 1) (rewardOut E pub)) (newBlock ω.time prev)) =
        .ok mined) :
    MinedOn E ω s prev pub txPool mined := by
  obtain ⟨hindex, hdifficulty, -, hprevHash, hdata, htransactions, hhash, hmatches⟩ :=
    blockMine_eq_ok E hmined
  exact ⟨hprev, hpool, hindex, hprevHash, hdifficulty, hdata, htransactions, hhash, hmatches⟩

/-- The state with a mined block at the end of the chain. -/
def State.appendBlock (s : State κ φ) (mined : Block) : State κ φ :=
  { s with
    blockchain :=
      { chain := s.blockchain.chain ++ [mined]
        unspent := updateUnspent mined.transactions mined.hash s.blockchain.unspent }
    txPool := [] }

/-- What `mine` can do: reject the block it mined, or append it. -/
theorem mine_eq_ok {ω : Oracle} {s s' : State κ φ} {prev : Block} {pub : Pub} {reply : Reply}
    (hprev : s.blockchain.chain.getLast? = some prev)
    (h : mine E ω s (newBlock ω.time prev) prev
      (coinbaseWith E (prev.info.index + 1) (rewardOut E pub)) = .ok (reply, s')) :
    ∃ txPool mined, MinedOn E ω s prev pub txPool mined ∧
      ((∃ code, code ≠ 0 ∧
          blockIsValid E ω.stack mined (some prev) s.blockchain.unspent = .ok code ∧
          reply.ret = -1 ∧ s' = { s with txPool }) ∨
        (blockIsValid E ω.stack mined (some prev) s.blockchain.unspent = .ok 0 ∧
          reply = { ret := 0, out := ["Block Successfuly mined\n"] } ∧
          s' = s.appendBlock mined)) := by
  unfold mine at h
  obtain ⟨txPool, hpool, h⟩ := Except.bind_eq_ok_iff.mp h
  obtain ⟨mined, hmined, h⟩ := Except.bind_eq_ok_iff.mp h
  obtain ⟨code, hcode, h⟩ := Except.bind_eq_ok_iff.mp h
  refine ⟨txPool, mined, minedOn_of_blockMine E hprev hpool hmined, ?_⟩
  split_ifs at h with hzero
  · obtain ⟨rfl, rfl⟩ := Prod.mk.inj (Except.ok.inj h)
    exact Or.inl ⟨code, hzero, hcode, rfl, rfl⟩
  · obtain ⟨rfl, rfl⟩ := Prod.mk.inj (Except.ok.inj h)
    exact Or.inr ⟨not_not.mp hzero ▸ hcode, rfl, rfl⟩

/-- `handle_mine` with a wallet whose public key can be extracted: the coinbase it creates is valid,
so it mines. -/
theorem handleMine_of_pub {ω : Oracle} {s : State κ φ} {wallet : κ} {prev : Block} {pub : Pub}
    (hwallet : s.wallet = some wallet) (hprev : s.blockchain.chain.getLast? = some prev)
    (hpub : ecToPub E wallet = some pub) :
    handleMine E ω s = mine E ω s (newBlock ω.time prev) prev
      (coinbaseWith E (prev.info.index + 1) (rewardOut E pub)) := by
  have hcoinbase : coinbaseCreate E wallet (newBlock ω.time prev).info.index =
      .ok (some (coinbaseWith E (prev.info.index + 1) (rewardOut E pub))) :=
    (coinbaseCreate_eq_ok_some_iff E).mpr ⟨pub, hpub, rfl⟩
  have hamount : (rewardOut E pub).amount = coinbaseAmount := rfl
  have hvalid := coinbaseWith_isValid E (prev.info.index + 1) hamount
  unfold handleMine
  simp only [hwallet, hprev, blockCreate_eq_newBlock, hcoinbase, Except.ok_bind]
  rw [show (newBlock ω.time prev).info.index = prev.info.index + 1 from rfl, hvalid]
  rfl

/-- A command that fails leaves the state as it is. -/
theorem eq_of_fail {s s' : State κ φ} {out : List String} {reply : Reply}
    (h : (.ok ({ ret := -1, out }, s) : Exec (Reply × State κ φ)) = .ok (reply, s')) :
    reply.ret = -1 ∧ s' = s := by
  obtain ⟨rfl, rfl⟩ := Prod.mk.inj (Except.ok.inj h)
  exact ⟨rfl, rfl⟩

/-- What `handle_mine` can do: fail early, or mine on the last block of the chain. -/
theorem handleMine_eq_ok {ω : Oracle} {s s' : State κ φ} {reply : Reply}
    (h : handleMine E ω s = .ok (reply, s')) :
    (reply.ret = -1 ∧ s' = s) ∨ ∃ prev pub, s.blockchain.chain.getLast? = some prev ∧
      mine E ω s (newBlock ω.time prev) prev
        (coinbaseWith E (prev.info.index + 1) (rewardOut E pub)) = .ok (reply, s') := by
  cases hwallet : s.wallet with
  | none =>
    simp only [handleMine, hwallet] at h
    exact Or.inl (eq_of_fail h)
  | some wallet =>
    cases hprev : s.blockchain.chain.getLast? with
    | none =>
      simp only [handleMine, hwallet, hprev] at h
      exact Or.inl (eq_of_fail h)
    | some prev =>
      cases hpub : ecToPub E wallet with
      | none =>
        simp only [handleMine, hwallet, hprev, blockCreate_eq_newBlock, coinbaseCreate, hpub,
          Except.pure_eq_ok, Except.ok_bind] at h
        exact Or.inl (eq_of_fail h)
      | some pub =>
        rw [handleMine_of_pub E hwallet hprev hpub] at h
        exact Or.inr ⟨prev, pub, rfl, h⟩

/-- A `mine` that reports success has appended a valid block. -/
theorem exists_appendBlock_of_handleMine {ω : Oracle} {s s' : State κ φ} {reply : Reply}
    (h : handleMine E ω s = .ok (reply, s')) (hret : reply.ret = 0) :
    ∃ prev pub txPool mined, MinedOn E ω s prev pub txPool mined ∧
      blockIsValid E ω.stack mined (some prev) s.blockchain.unspent = .ok 0 ∧
        s' = s.appendBlock mined := by
  have hne : reply.ret ≠ -1 := by
    rw [hret]
    decide
  rcases handleMine_eq_ok E h with ⟨hfail, -⟩ | ⟨prev, pub, hprev, h⟩
  · exact absurd hfail hne
  · obtain ⟨txPool, mined, hmined, ⟨_, -, -, hfail, -⟩ | ⟨hvalid, -, heq⟩⟩ := mine_eq_ok E hprev h
    · exact absurd hfail hne
    · exact ⟨prev, pub, txPool, mined, hmined, hvalid, heq⟩

/-! ### Sending -/

/-- What `handle_send` can do: fail, or put a valid transaction into the pool. -/
theorem handleSend_eq_ok {ω : Oracle} {amount : Int32} {address : List UInt8} {s s' : State κ φ}
    {reply : Reply} (h : handleSend E ω amount address s = .ok (reply, s')) :
    (reply.ret = -1 ∧ s' = s) ∨ ∃ tx,
      transactionCreate E ω.pubBuff ω.rnd s.wallet (strToKey E address).1 amount.toUInt32
        s.blockchain.unspent s.txPool = .ok (some tx) ∧
      transactionIsValid E ω.hashBuff tx s.blockchain.unspent = .ok true ∧
      reply =
        { ret := 0
          out := (strToKey E address).2 ++ transactionCreateOut E ω.pubBuff s.wallet
            (strToKey E address).1 amount.toUInt32 s.blockchain.unspent s.txPool ++
            ["Transaction created successfully\n", "Transaction is valid\n",
              "Transaction sent successfully\n"] } ∧
      s' = { s with txPool := s.txPool ++ [tx] } := by
  unfold handleSend at h
  obtain ⟨created, hcreated, h⟩ := Except.bind_eq_ok_iff.mp h
  cases created with
  | none => exact Or.inl (eq_of_fail h)
  | some tx =>
    obtain ⟨valid, hvalid, h⟩ := Except.bind_eq_ok_iff.mp h
    cases valid with
    | false => exact Or.inl (eq_of_fail h)
    | true =>
      obtain ⟨hreply, hstate⟩ := Prod.mk.inj (Except.ok.inj h)
      refine Or.inr ⟨tx, hcreated, hvalid, ?_, hstate.symm⟩
      rw [← hreply, List.append_assoc]
      rfl

/-! ### Effects -/

/-- The effects of a command on the state. -/
inductive Transition [DecidableEq φ] (ω : Oracle) (s : State κ φ) :
    Command κ φ → State κ φ → Prop
  | unchanged {c : Command κ φ} : Transition ω s c s
  | wallet {c : Command κ φ} (wallet : Option κ) : Transition ω s c { s with wallet }
  | walletSave {priFile pubFile : φ} {priPem pubPem : List UInt8}
      (files : φ → Option (List UInt8)) :
      Transition ω s (.walletSave priFile pubFile priPem pubPem) { s with files }
  | send {amount : Int32} {address : List UInt8} {receiver : Option κ} {tx : Transaction}
      (hcreate : transactionCreate E ω.pubBuff ω.rnd s.wallet receiver amount.toUInt32
        s.blockchain.unspent s.txPool = .ok (some tx))
      (hvalid : transactionIsValid E ω.hashBuff tx s.blockchain.unspent = .ok true) :
      Transition ω s (.send amount address) { s with txPool := s.txPool ++ [tx] }
  | reject {txPool : List Transaction}
      (hpool : filterPool E ω.hashBuff s.blockchain.unspent s.txPool.length s.txPool =
        .ok txPool) :
      Transition ω s .mine { s with txPool }
  | append {prev mined : Block} {pub : Pub} {txPool : List Transaction}
      (hmined : MinedOn E ω s prev pub txPool mined)
      (hvalid : blockIsValid E ω.stack mined (some prev) s.blockchain.unspent = .ok 0) :
      Transition ω s .mine (s.appendBlock mined)
  | list :
      Transition ω s .list
        { s with
          blockchain :=
            { s.blockchain with
              unspent := E.llistSort comparesUnspentTxOut s.blockchain.unspent } }
  | save {path : φ} {bytes : List UInt8} (hbytes : blockchainSerialize E s.blockchain = .ok bytes) :
      Transition ω s (.save path) { s with files := Function.update s.files path (some bytes) }
  | load {path : φ} {blockchain : Blockchain}
      (hload : blockchainDeserialize E ω.junk (s.files path) = .ok (some blockchain)) :
      Transition ω s (.load path) { s with blockchain }

/-- A command that returns has one of these effects. -/
theorem findCommand_transition [DecidableEq φ] {ω : Oracle} {s s' : State κ φ}
    {c : Command κ φ} {reply : Reply} (h : findCommand E ω s c = .ok (reply, s')) :
    Transition E ω s c s' := by
  cases c with
  | walletCreate created =>
    obtain rfl := (Prod.mk.inj (Except.ok.inj h)).2
    exact .wallet created
  | walletLoad loaded =>
    obtain rfl := (Prod.mk.inj (Except.ok.inj h)).2
    exact .wallet loaded
  | walletSave priFile pubFile priPem pubPem =>
    simp only [findCommand, handleWalletSave] at h
    split at h
    · obtain rfl := (Prod.mk.inj (Except.ok.inj h)).2
      exact .unchanged
    · obtain rfl := (Prod.mk.inj (Except.ok.inj h)).2
      exact .walletSave _
  | send amount address =>
    rcases handleSend_eq_ok E h with ⟨-, rfl⟩ | ⟨tx, hcreate, hvalid, -, rfl⟩
    · exact .unchanged
    · exact .send hcreate hvalid
  | mine =>
    rcases handleMine_eq_ok E h with ⟨-, rfl⟩ | ⟨prev, pub, hprev, h⟩
    · exact .unchanged
    · obtain ⟨txPool, mined, hmined, ⟨code, -, -, -, rfl⟩ | ⟨hvalid, -, rfl⟩⟩ :=
        mine_eq_ok E hprev h
      · exact .reject hmined.pool_eq
      · exact .append hmined hvalid
  | list =>
    obtain rfl := (Prod.mk.inj (Except.ok.inj h)).2
    exact .list
  | save path =>
    obtain ⟨bytes, hbytes, h⟩ := Except.bind_eq_ok_iff.mp h
    obtain rfl := (Prod.mk.inj (Except.ok.inj h)).2
    exact .save hbytes
  | load path =>
    obtain ⟨loaded, hload, h⟩ := Except.bind_eq_ok_iff.mp h
    cases loaded with
    | none =>
      obtain rfl := (Prod.mk.inj (Except.ok.inj h)).2
      exact .unchanged
    | some blockchain =>
      obtain rfl := (Prod.mk.inj (Except.ok.inj h)).2
      exact .load hload
  | info | infoBlock | help | exit | other =>
    obtain rfl := (Prod.mk.inj (Except.ok.inj h)).2
    exact .unchanged

/-! ### Runs -/

variable [DecidableEq φ]

/-- Along a run from `s`, the commands meet a condition in the states they are run in. -/
def StepsMeet (cond : Oracle → State κ φ → Command κ φ → Prop) :
    State κ φ → List (Command κ φ × Oracle) → Prop
  | _, [] => True
  | s, (c, ω) :: cmds =>
    cond ω s c ∧
      ∀ r ∈ (findCommand E ω s c).toOption, r.1.ret ≠ 1 → StepsMeet cond r.2 cmds

instance decidableStepsMeet (cond : Oracle → State κ φ → Command κ φ → Prop)
    [∀ ω s c, Decidable (cond ω s c)] :
    ∀ (s : State κ φ) (cmds : List (Command κ φ × Oracle)), Decidable (StepsMeet E cond s cmds)
  | _, [] => .isTrue trivial
  | s, (c, ω) :: cmds =>
    have (s' : State κ φ) : Decidable (StepsMeet E cond s' cmds) := decidableStepsMeet cond s' cmds
    inferInstanceAs (Decidable (cond ω s c ∧
      ∀ r ∈ (findCommand E ω s c).toOption, r.1.ret ≠ 1 → StepsMeet E cond r.2 cmds))

/-- What every command that meets the condition preserves, the run preserves. -/
theorem run_preserves_of_stepsMeet {P : State κ φ → Prop} {allowed : Command κ φ → Prop}
    {cond : Oracle → State κ φ → Command κ φ → Prop}
    (hstep : ∀ ω s s' c reply, allowed c → cond ω s c → findCommand E ω s c = .ok (reply, s') →
      P s → P s')
    {cmds : List (Command κ φ × Oracle)} (hallowed : ∀ p ∈ cmds, allowed p.1)
    {s s' : State κ φ} (hmeet : StepsMeet E cond s cmds) (hrun : run E s cmds = .ok s')
    (hs : P s) : P s' := by
  induction cmds generalizing s with
  | nil =>
    obtain rfl := Except.ok.inj hrun
    exact hs
  | cons p cmds ih =>
    obtain ⟨c, ω⟩ := p
    rw [List.forall_mem_cons] at hallowed
    obtain ⟨hcond, hmeet⟩ := hmeet
    obtain ⟨⟨reply, next⟩, hnext, hrest⟩ := Except.bind_eq_ok_iff.mp hrun
    have hP := hstep ω s next c reply hallowed.1 hcond hnext hs
    dsimp only at hrest
    split_ifs at hrest with hexit
    · obtain rfl := Except.ok.inj hrest
      exact hP
    · refine ih hallowed.2 (hmeet (reply, next) ?_ hexit) hrest hP
      rw [hnext]
      rfl

theorem stepsMeet_true (s : State κ φ) (cmds : List (Command κ φ × Oracle)) :
    StepsMeet E (fun _ _ _ => True) s cmds := by
  induction cmds generalizing s with
  | nil => trivial
  | cons p cmds ih => exact ⟨trivial, fun r _ _ => ih r.2⟩

/-- What every command of a run preserves, the run preserves. -/
theorem run_preserves {P : State κ φ → Prop} {allowed : Command κ φ → Prop}
    (hstep : ∀ ω s s' c, allowed c → Transition E ω s c s' → P s → P s')
    {cmds : List (Command κ φ × Oracle)} (hallowed : ∀ p ∈ cmds, allowed p.1)
    {s s' : State κ φ} (hrun : run E s cmds = .ok s') (hs : P s) : P s' := by
  refine run_preserves_of_stepsMeet E ?_ hallowed (stepsMeet_true E s cmds) hrun hs
  intro ω s s' c reply hc _ h
  exact hstep ω s s' c hc (findCommand_transition E h)

end HolbertonChain
