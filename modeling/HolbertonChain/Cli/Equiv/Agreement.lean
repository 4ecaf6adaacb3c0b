import HolbertonChain.Block.Equiv.References
import HolbertonChain.Cli.Equiv.Replay
import HolbertonChain.Cli.Equiv.Retarget
import HolbertonChain.Lib.HashChain

/-!
# What clients agree on

A file or a transaction can be made to say many things under one hash: no block hash fixes the
length of the data, no transaction ID the number of inputs, and no check ties an output to its hash.
Among chains that clients made, SHA-256 without collisions fixes all of that: the data is full, the
transactions have one output or two under their own hashes (`Reached.contents`).  What no hash
covers are the signatures.  So two clients whose chains share one block hash have the same blocks up
to there, signatures aside; their chains fork once and never come together again (`reached_fork`);
and if their last blocks have one hash, their unspent outputs hold the same coins
(`reached_same_coins`).
-/

namespace HolbertonChain

open Bytes CoinLedger HashChain

variable {κ φ : Type} {E : Env κ}

/-! ### Signatures aside -/

/-- A transaction without its signatures. -/
def Transaction.unsigned (t : Transaction) : Transaction :=
  { t with inputs := t.inputs.map fun i => { i with sig := { sig := zero 72, len := 0 } } }

/-- A block without the signatures of its transactions. -/
def Block.unsigned (b : Block) : Block :=
  { b with transactions := b.transactions.map (List.map Transaction.unsigned) }

/-- Without its signatures, an input is its reference. -/
theorem unsigned_eq_of_ref_eq {i j : TxIn} (h : i.ref = j.ref) :
    { i with sig := { sig := zero 72, len := 0 } } =
      ({ j with sig := { sig := zero 72, len := 0 } } : TxIn) := by
  obtain ⟨h1, h2, h3⟩ := OutRef.mk.inj h
  rw [h1, h2, h3]

theorem unsigned_eq_of_refs_eq {t t' : Transaction} (hid : t.id = t'.id) (hrefs : t.refs = t'.refs)
    (houts : t.outputs = t'.outputs) : t.unsigned = t'.unsigned := by
  have hinputs := FixedWidth.map_eq_map_of_map_eq_map
    (fun _ _ hij => unsigned_eq_of_ref_eq hij) hrefs
  unfold Transaction.unsigned
  rw [hid, hinputs, houts]

/-- `update_unspent` does not look at signatures. -/
theorem updateUnspent_unsigned (b : Block) (U : List UnspentTxOut) :
    updateUnspent b.unsigned.transactions b.unsigned.hash U =
      updateUnspent b.transactions b.hash U := by
  unfold Block.unsigned
  cases b.transactions with
  | none => rfl
  | some ts =>
    show updateUnspent (some (ts.map Transaction.unsigned)) b.hash U = _
    induction ts generalizing U with
    | nil => rfl
    | cons t ts ih =>
      have hins : removeInputs t.unsigned.inputs U = removeInputs t.inputs U := by
        rw [removeInputs_eq_eraseKeys, removeInputs_eq_eraseKeys, Transaction.unsigned,
          List.map_map]
        rfl
      rw [List.map_cons, updateUnspent_cons, updateUnspent_cons, hins, ih]
      rfl

theorem replay_map_unsigned (chain : List Block) :
    replay (chain.map Block.unsigned) = replay chain := by
  unfold replay
  rw [List.foldl_map]
  exact List.foldl_ext _ _ _ fun U b _ => updateUnspent_unsigned b U

/-! ### What a hash fixes -/

/-- The strings that a transaction has SHA-256 hash. -/
def Transaction.strings (E : Env κ) (t : Transaction) : List (List UInt8) :=
  transactionPreimage t :: t.outputs.map fun o => outRecord E o.amount o.pub

theorem strings_subset {chain : List Block} {b : Block} (hb : b ∈ chain) {t : Transaction}
    (ht : t ∈ b.txs) : t.strings E ⊆ hashedStrings E chain := by
  rw [Transaction.strings, List.cons_subset]
  refine ⟨transactionPreimage_mem hb ht, fun x hx => ?_⟩
  obtain ⟨o, ho, rfl⟩ := List.mem_map.mp hx
  exact outRecord_mem hb ht ho

/-- Outputs under their own hashes are the same where the hashes are. -/
theorem honest_inj {strings : List (List UInt8)} (hfree : CollisionFree E strings) {o o' : TxOut}
    (ho : o.Honest E) (ho' : o'.Honest E) (hmem : outRecord E o.amount o.pub ∈ strings)
    (hmem' : outRecord E o'.amount o'.pub ∈ strings) (hhash : o.hash = o'.hash) : o = o' := by
  have hdigest : E.sha256 (outRecord E o.amount o.pub) = E.sha256 (outRecord E o'.amount o'.pub) :=
    ho.symm.trans (hhash.trans ho')
  obtain ⟨hamount, hpub⟩ := outRecord_injective (hfree hmem hmem' hdigest)
  cases o
  cases o'
  simp only at hamount hpub hhash
  rw [hamount, hpub, hhash]

/-- Two transactions that were created under one ID are the same, signatures aside. -/
theorem Made.unsigned_eq {t t' : Transaction} {strings : List (List UInt8)}
    (hfree : CollisionFree E strings) (h : Made E t) (h' : Made E t')
    (hmem : t.strings E ⊆ strings) (hmem' : t'.strings E ⊆ strings) (hid : t.id = t'.id) :
    t.unsigned = t'.unsigned := by
  rw [Transaction.strings, List.cons_subset] at hmem hmem'
  have hpre : transactionPreimage t = transactionPreimage t' := by
    apply hfree hmem.1 hmem'.1
    rw [← h.id_eq, hid, h'.id_eq]
  -- with one output or two, the length of the preimage gives the number of inputs
  have hlen : t.inputs.length = t'.inputs.length := by
    have hsize := congrArg List.length hpre
    have hpos := List.length_pos_of_ne_nil h.outputs_ne
    have hpos' := List.length_pos_of_ne_nil h'.outputs_ne
    have hle := h.outputs_le
    have hle' := h'.outputs_le
    rw [length_transactionPreimage, length_transactionPreimage, bufferSize, bufferSize] at hsize
    omega
  obtain ⟨hrefs, hhashes⟩ := refs_and_hashes_of_transactionPreimage_eq hlen hpre
  have houts : t.outputs.map id = t'.outputs.map id :=
    FixedWidth.map_eq_map_of_forall_mem (fun o ho o' ho' hhash =>
      honest_inj hfree (h.honest o ho) (h'.honest o' ho') (hmem.2 (List.mem_map_of_mem ho))
        (hmem'.2 (List.mem_map_of_mem ho')) hhash) hhashes
  rw [List.map_id, List.map_id] at houts
  exact unsigned_eq_of_refs_eq hid hrefs houts

/-- Two blocks that were put together under one hash are the same, signatures aside. -/
theorem BlockMade.unsigned_eq {b b' : Block} {chain : List Block}
    (hfree : CollisionFree E (hashedStrings E chain)) (hb : b ∈ chain) (hb' : b' ∈ chain)
    (h : BlockMade E b) (h' : BlockMade E b') (hself : blockHash E b = .ok (some b.hash))
    (hself' : blockHash E b' = .ok (some b'.hash)) (hhash : b.hash = b'.hash) :
    b.unsigned = b'.unsigned := by
  obtain ⟨-, -, hdigest⟩ := (blockHash_eq_ok_some_iff E).mp hself
  obtain ⟨-, -, hdigest'⟩ := (blockHash_eq_ok_some_iff E).mp hself'
  have hpre : blockPreimage E b = blockPreimage E b' := by
    apply hfree (blockPreimage_mem hb) (blockPreimage_mem hb')
    rw [hdigest, hhash, hdigest']
  obtain ⟨hinfo, hbytes⟩ := info_and_bytes_of_blockPreimage_eq E hpre
  -- the data is full, so it is cut off at the same place
  have hdata : b.data = b'.data := h.1.trans h'.1.symm
  rw [hdata, List.append_cancel_left_eq] at hbytes
  have hids : b.txs.map (fun t => t.id.toList) = b'.txs.map (fun t => t.id.toList) :=
    FixedWidth.map_eq_map_of_flatMap_eq (n := 32) (by simp) (by decide) hbytes
  have htxs : b.txs.map Transaction.unsigned = b'.txs.map Transaction.unsigned :=
    FixedWidth.map_eq_map_of_forall_mem (fun t ht t' ht' hid =>
      (h.made t ht).unsigned_eq hfree (h'.made t' ht') (strings_subset hb ht)
        (strings_subset hb' ht') (toList_injective hid)) hids
  have hsome : ∀ {c : Block}, BlockMade E c → c.transactions = some c.txs := by
    rintro c ⟨-, pub, ts, hts, -⟩
    rw [Block.txs, hts, Option.getD_some]
  unfold Block.unsigned
  rw [hinfo, hdata, hhash, hsome h, hsome h', Option.map_some, Option.map_some, htxs]

/-! ### Two chains -/

theorem ChainLog.linked {chain : List Block} (h : ChainLog E chain) :
    Linked Block.hash (fun b => b.info.prevHash) (fun b => b.info.index.toNat) chain where
  prev_eq _ _ _ hprev hb := (h.log.getElem hprev hb).prevHash_eq
  pos_eq _ _ hb := h.index_eq hb

theorem ChainLog.hash_mem (hgenesis : blockHash E genesisBlock = .ok (some genesisHash))
    {chain : List Block} (h : ChainLog E chain) : ∀ b ∈ chain, blockHash E b = .ok (some b.hash) :=
  h.log.forall_mem hgenesis fun _ _ _ _ hat => hat.hash_eq

/-- Only the genesis block has index 0. -/
theorem ChainLog.eq_genesis {chain : List Block} (h : ChainLog E chain) {b : Block} (hb : b ∈ chain)
    (hindex : b.info.index = 0) : b = genesisBlock := by
  obtain ⟨i, hi⟩ := List.mem_iff_getElem?.mp hb
  have hzero := h.index_eq hi
  rw [hindex] at hzero
  rw [← hzero, show (0 : UInt32).toNat = 0 from rfl, ← List.head?_eq_getElem?,
    h.log.head?_eq] at hi
  exact (Option.some.inj hi).symm

variable [DecidableEq φ] {cond cond' : Oracle → State κ φ → Command κ φ → Prop} {s s' : State κ φ}

/-- The hashes of two chains commit to their blocks, signatures aside. -/
theorem Reached.commits (h : Reached E cond s) (h' : Reached E cond' s')
    (hgenesis : blockHash E genesisBlock = .ok (some genesisHash))
    (hfree : CollisionFree E (hashedStrings E (s.blockchain.chain ++ s'.blockchain.chain))) :
    Commits Block.hash (fun b => b.info.prevHash) (fun b => b.info.index.toNat) Block.unsigned
      s.blockchain.chain s'.blockchain.chain where
  view_eq := by
    intro b hb b' hb' hhash
    have hlog := h.integrity.chain
    have hlog' := h'.integrity.chain
    have hself := hlog.hash_mem hgenesis b hb
    have hself' := hlog'.hash_mem hgenesis b' hb'
    have hmem : b ∈ s.blockchain.chain ++ s'.blockchain.chain := List.mem_append_left _ hb
    have hmem' : b' ∈ s.blockchain.chain ++ s'.blockchain.chain := List.mem_append_right _ hb'
    have hinfo : b.info = b'.info := by
      obtain ⟨-, -, hdigest⟩ := (blockHash_eq_ok_some_iff E).mp hself
      obtain ⟨-, -, hdigest'⟩ := (blockHash_eq_ok_some_iff E).mp hself'
      refine (info_and_bytes_of_blockPreimage_eq E ?_).1
      apply hfree (blockPreimage_mem hmem) (blockPreimage_mem hmem')
      rw [hdigest, hhash, hdigest']
    rcases h.contents.chain b hb with rfl | hmade
    · -- the other one has index 0 too
      rw [hlog'.eq_genesis hb' (by rw [← hinfo]; rfl)]
    · rcases h'.contents.chain b' hb' with rfl | hmade'
      · rw [hlog.eq_genesis hb (by rw [hinfo]; rfl)]
      · exact hmade.unsigned_eq hfree hmem hmem' hmade' hself hself' hhash
  prev_eq b b' heq := by
    show b.unsigned.info.prevHash = b'.unsigned.info.prevHash
    rw [heq]
  pos_eq b b' heq := by
    show b.unsigned.info.index.toNat = b'.unsigned.info.index.toNat
    rw [heq]

/-- The chains of two clients agree up to a fork, signatures aside, and from there on no block of
the one has the hash of a block of the other. -/
theorem reached_fork (h : Reached E cond s) (h' : Reached E cond' s')
    (hgenesis : blockHash E genesisBlock = .ok (some genesisHash))
    (hfree : CollisionFree E (hashedStrings E (s.blockchain.chain ++ s'.blockchain.chain))) :
    ∃ k, 0 < k ∧
      (s.blockchain.chain.take k).map Block.unsigned =
        (s'.blockchain.chain.take k).map Block.unsigned ∧
      ∀ (i j : ℕ) (b b' : Block), k ≤ i → s.blockchain.chain[i]? = some b →
        s'.blockchain.chain[j]? = some b' → b.hash ≠ b'.hash := by
  have hlog := h.integrity.chain
  have hlog' := h'.integrity.chain
  obtain ⟨k, hview, -, -, hfork⟩ :=
    exists_fork hlog.linked hlog'.linked (h.commits h' hgenesis hfree)
  refine ⟨k, Nat.pos_of_ne_zero ?_, hview, hfork⟩
  rintro rfl
  -- the genesis block is in front of both
  refine hfork 0 0 genesisBlock genesisBlock le_rfl ?_ ?_ rfl
  · rw [← List.head?_eq_getElem?, hlog.log.head?_eq]
  · rw [← List.head?_eq_getElem?, hlog'.log.head?_eq]

/-! ### Two lists of unspent outputs -/

/-- The payments of the unspent outputs are hashed in the chain, and are their hashes. -/
theorem Reached.honest_unspent (hsort : ∀ cmp l, (E.llistSort cmp l).Perm l)
    (h : Reached E cond s) {u : UnspentTxOut} (hu : u ∈ s.blockchain.unspent) :
    u.out.Honest E ∧ outRecord E u.out.amount u.out.pub ∈ hashedStrings E s.blockchain.chain := by
  obtain ⟨b, hb, t, ht, o, ho, rfl⟩ := mem_chainEntries.mp ((h.sourced hsort).unspent u hu)
  exact ⟨(h.contents.made hb t ht).honest o ho, outRecord_mem hb ht ho⟩

/-- Two clients whose last blocks have one hash have unspent outputs that hold the same coins, and
the same list of them if none uses `list`. -/
theorem reached_same_coins (hsort : ∀ cmp l, (E.llistSort cmp l).Perm l) (h : Reached E cond s)
    (h' : Reached E cond' s') (hgenesis : blockHash E genesisBlock = .ok (some genesisHash))
    (hfree : CollisionFree E (hashedStrings E (s.blockchain.chain ++ s'.blockchain.chain)))
    {b b' : Block} (hb : s.blockchain.chain.getLast? = some b)
    (hb' : s'.blockchain.chain.getLast? = some b') (hhash : b.hash = b'.hash) :
    unspentCoins s.blockchain.unspent = unspentCoins s'.blockchain.unspent ∧
      ((∀ ω s c, cond ω s c ∨ cond' ω s c → c ≠ .list) →
        s.blockchain.unspent = s'.blockchain.unspent) := by
  have hreplay : replay s.blockchain.chain = replay s'.blockchain.chain := by
    have hlinked := h.integrity.chain.linked
    have hlinked' := h'.integrity.chain.linked
    have hcommits := h.commits h' hgenesis hfree
    rw [List.getLast?_eq_getElem?] at hb hb'
    have hlen := position_eq hlinked hlinked' hcommits hb hb' hhash
    rw [← hlen] at hb'
    have hview := take_map_view_eq hlinked hlinked' hcommits hb hb' hhash
    rw [List.take_of_length_le (by omega), List.take_of_length_le (by omega)] at hview
    rw [← replay_map_unsigned, hview, replay_map_unsigned]
  obtain ⟨hperm, heq⟩ := reached_replay hsort h
  obtain ⟨hperm', heq'⟩ := reached_replay hsort h'
  constructor
  · -- coins are known by their hashes
    have hinj : Set.InjOn (paymentHash E) {c | outRecord E c.1 c.2 ∈
        hashedStrings E (s.blockchain.chain ++ s'.blockchain.chain)} := by
      intro c hc c' hc' hcc
      obtain ⟨hamount, hpub⟩ := outRecord_injective (hfree hc hc' hcc)
      exact Prod.ext hamount hpub
    apply eq_of_map_eq_map hinj
    · intro c hc
      obtain ⟨u, hu, rfl⟩ := List.mem_map.mp (Multiset.mem_coe.mp hc)
      exact hashedStrings_subset (List.prefix_append _ _) (h.honest_unspent hsort hu).2
    · intro c hc
      obtain ⟨u, hu, rfl⟩ := List.mem_map.mp (Multiset.mem_coe.mp hc)
      show _ ∈ hashedStrings E (s.blockchain.chain ++ s'.blockchain.chain)
      rw [hashedStrings, List.flatMap_append]
      exact List.mem_append_right _ (h'.honest_unspent hsort hu).2
    · rw [map_paymentHash_unspentCoins E fun u hu => (h.honest_unspent hsort hu).1,
        map_paymentHash_unspentCoins E fun u hu => (h'.honest_unspent hsort hu).1]
      rw [← hreplay] at hperm'
      exact Multiset.coe_eq_coe.mpr (hperm.trans hperm'.symm)
  · intro hno
    rw [heq fun ω s c hc => hno ω s c (Or.inl hc), hreplay,
      heq' fun ω s c hc => hno ω s c (Or.inr hc)]

/-! ### Two clients on one disk -/

/-- Client `false` mines a block for key 1 and saves it, client `true` loads it and mines a block
for key 2 on top, and so does client `false` for key 1; each saves its chain. -/
def twoClients : List (Bool × Command ℕ ℕ × Oracle) :=
  [(false, .walletCreate (some 1), sampleOracle), (false, .mine, sampleOracle),
    (false, .save 0, sampleOracle), (true, .walletCreate (some 2), sampleOracle),
    (true, .load 0, sampleOracle), (true, .mine, sampleOracle), (false, .mine, sampleOracle),
    (true, .save 0, sampleOracle), (false, .save 1, sampleOracle)]

/-- The two clients after some of the steps, if no command faults. -/
def afterSteps (steps : ℕ) : Exec (Bool → State ℕ ℕ) :=
  schedule sampleEnv (fun _ => initialState fun _ => none) (twoClients.take steps)

/-- What there is to compute about them: the lengths of their chains, whether their last blocks have
one hash, and whether the strings that they hash have different digests. -/
def twoClientsFacts (clients : Bool → State ℕ ℕ) : ℕ × ℕ × Bool × Bool :=
  let chain := (clients false).blockchain.chain
  let chain' := (clients true).blockchain.chain
  (chain.length, chain'.length,
    decide (chain.getLast?.map Block.hash = chain'.getLast?.map Block.hash),
    decide ((hashedStrings sampleEnv (chain ++ chain')).dedup.map sampleEnv.sha256).Nodup)

theorem afterSteps_eq_ok {steps : ℕ} {facts : ℕ × ℕ × Bool × Bool}
    (h : (afterSteps steps).toOption.map twoClientsFacts = some facts) :
    ∃ clients, afterSteps steps = .ok clients ∧ twoClientsFacts clients = facts := by
  cases hafter : afterSteps steps with
  | error e =>
    rw [hafter] at h
    cases h
  | ok clients =>
    rw [hafter] at h
    exact ⟨clients, rfl, Option.some.inj h⟩

theorem afterSteps_reached {steps : ℕ} {clients : Bool → State ℕ ℕ}
    (hrun : afterSteps steps = .ok clients)
    (hmeets : ScheduleMeets sampleEnv NeverLists [] (fun _ => initialState fun _ => none)
      (twoClients.take steps)) (i : Bool) : Reached sampleEnv NeverLists (clients i) :=
  schedule_reached (fun _ => .start _) hrun hmeets (by simp) i

/-- At the end of the schedule the chains have forked. -/
theorem twoClients_fork :
    ∃ clients, afterSteps 9 = .ok clients ∧
      ((clients false).blockchain.chain.getLast?.map Block.hash ≠
        (clients true).blockchain.chain.getLast?.map Block.hash) ∧
      ∃ k, 0 < k ∧
        ((clients false).blockchain.chain.take k).map Block.unsigned =
          ((clients true).blockchain.chain.take k).map Block.unsigned ∧
        ∀ (i j : ℕ) (b b' : Block), k ≤ i → (clients false).blockchain.chain[i]? = some b →
          (clients true).blockchain.chain[j]? = some b' → b.hash ≠ b'.hash := by
  have hchecked : (afterSteps 9).toOption.map twoClientsFacts = some (3, 3, false, true) := by
    decide +kernel
  have hgenesis : blockHash sampleEnv genesisBlock = .ok (some genesisHash) := by decide +kernel
  obtain ⟨clients, hrun, hfacts⟩ := afterSteps_eq_ok hchecked
  simp only [twoClientsFacts, Prod.mk.injEq] at hfacts
  obtain ⟨-, -, hlast, hnodup⟩ := hfacts
  have hreached := afterSteps_reached hrun (by decide +kernel)
  exact ⟨clients, hrun, of_decide_eq_false hlast, reached_fork (hreached false) (hreached true)
    hgenesis (collisionFree_of_nodup (of_decide_eq_true hnodup))⟩

/-- Once client `true` has loaded the chain, the two have the same unspent outputs. -/
theorem twoClients_same_coins :
    ∃ clients, afterSteps 5 = .ok clients ∧
      (clients false).blockchain.chain.length = 2 ∧
      unspentCoins (clients false).blockchain.unspent =
        unspentCoins (clients true).blockchain.unspent ∧
      ((∀ ω s (c : Command ℕ ℕ), @NeverLists ℕ ℕ ω s c ∨ @NeverLists ℕ ℕ ω s c →
          c ≠ .list) →
        (clients false).blockchain.unspent = (clients true).blockchain.unspent) := by
  have hchecked : (afterSteps 5).toOption.map twoClientsFacts = some (2, 2, true, true) := by
    decide +kernel
  have hgenesis : blockHash sampleEnv genesisBlock = .ok (some genesisHash) := by decide +kernel
  obtain ⟨clients, hrun, hfacts⟩ := afterSteps_eq_ok hchecked
  simp only [twoClientsFacts, Prod.mk.injEq] at hfacts
  obtain ⟨hlen, hlen', hlast, hnodup⟩ := hfacts
  have hreached := afterSteps_reached hrun (by decide +kernel)
  obtain ⟨b, hb⟩ : ∃ b, (clients false).blockchain.chain.getLast? = some b :=
    Option.isSome_iff_exists.mp
      (List.getLast?_isSome.mpr (List.ne_nil_of_length_pos (by omega)))
  obtain ⟨b', hb'⟩ : ∃ b, (clients true).blockchain.chain.getLast? = some b :=
    Option.isSome_iff_exists.mp
      (List.getLast?_isSome.mpr (List.ne_nil_of_length_pos (by omega)))
  have hhash := of_decide_eq_true hlast
  rw [hb, hb', Option.map_some, Option.map_some, Option.some.injEq] at hhash
  exact ⟨clients, hrun, hlen, reached_same_coins sampleEnv_llistSort_perm (hreached false)
    (hreached true) hgenesis (collisionFree_of_nodup (of_decide_eq_true hnodup)) hb hb' hhash⟩

end HolbertonChain
