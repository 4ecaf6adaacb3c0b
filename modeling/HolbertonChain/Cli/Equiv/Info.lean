import HolbertonChain.Cli.Equiv.Address
import HolbertonChain.Cli.Equiv.Agreement
import HolbertonChain.Cli.Equiv.Conservation
import HolbertonChain.Cli.Info
import HolbertonChain.Lib.Readable

/-!
# What can be read from what is displayed

No two blockchains are displayed alike: the text of `info_block` can be read back line by line, and
determines what it displays of every block, and the unspent outputs
(`shown_eq_of_handleInfoBlock_eq`).  Since the hashes are displayed, two clients that see the same
text have the same chain, signatures aside (`reached_infoBlock`).  What `info` adds up in 32 bits is
what was mined (`reached_info`).
-/

namespace HolbertonChain

open Bytes Readable WrapSum

variable {κ φ α δ : Type} {E : Env κ}

/-! ### Lines -/

section Lines

variable {F : List UInt8 → Prop} {v : α → List UInt8} {g : α → δ}

theorem isReadable_printNumber (label : String) : IsReadable F (printNumber label) id := by
  have hstop : ∀ n, (0x0a : UInt8) ∉ Decimal.chars n := by
    intro n hmem
    exact absurd (Decimal.toNat_of_mem_chars hmem).1 (by decide)
  exact (isReadable_line hstop fun n m heq => Decimal.chars_injective heq).label _

theorem isReadable_printHex (label : String) {n : ℕ} :
    IsReadable F (printHex label (n := n)) id := by
  have hstop : ∀ b : Bytes n, (0x0a : UInt8) ∉ bytesToHex b.toList := by
    intro b hmem
    exact absurd (digits_bytesToHex b.toList _ hmem).1 (by decide)
  have hread : ∀ b : Bytes n, scanPairs n (bytesToHex b.toList) = b.toList := by
    intro b
    have hscan := scanPairs_bytesToHex b.toList
    rwa [length_toList] at hscan
  refine (isReadable_line hstop fun b b' heq => ?_).label _
  have hscan := congrArg (scanPairs n) heq
  rw [hread, hread] at hscan
  exact List.Vector.toList_injective hscan

/-- A line with a number in front of a text. -/
theorem printNumber_append (hv : IsReadable F v g) (label : String) (k : α → ℕ) :
    IsReadable F (fun x => printNumber label (k x) ++ v x) fun x => (k x, g x) :=
  ((isReadable_printNumber (F := fun _ => True) label).comap k).append hv fun _ _ _ => trivial

/-- A line with bytes in front of a text. -/
theorem printHex_append (hv : IsReadable F v g) (label : String) {n : ℕ} (k : α → Bytes n) :
    IsReadable F (fun x => printHex label (k x) ++ v x) fun x => (k x, g x) :=
  ((isReadable_printHex (F := fun _ => True) label).comap k).append hv fun _ _ _ => trivial

end Lines

/-! ### Unspent outputs -/

theorem isReadable_printUnspentTxOutInfo {F : List UInt8 → Prop} :
    IsReadable F printUnspentTxOutInfo id := by
  have hhash := (isReadable_printHex (F := F) "    - Output Hash: ").comap
    fun u : UnspentTxOut => u.out.hash
  have hpub := printHex_append hhash "    - Public Address: " fun u => u.out.pub
  have hout := printNumber_append hpub "    - Amount: " fun u => u.out.amount.toNat
  have htext := printHex_append (printHex_append (hout.label (ascii "Output Info:\n".toList))
    "Transaction ID: " fun u => u.txId) "Block Hash: " fun u => u.blockHash
  show IsReadable F (fun u => printUnspentTxOutInfo u) id
  simp only [printUnspentTxOutInfo, List.flatten_cons, List.flatten_nil, List.append_nil]
  refine htext.view ?_
  rintro ⟨blockHash, txId, amount, pub, hash⟩ ⟨blockHash', txId', amount', pub', hash'⟩ heq
  simp only [Prod.mk.injEq, UInt32.toNat_inj, id_eq] at heq
  obtain ⟨rfl, rfl, rfl, rfl, rfl⟩ := heq
  rfl

/-- What begins with the label of an unspent output. -/
theorem prefix_printUnspentTxOutInfo (u : UnspentTxOut) :
    ascii "Block Hash: ".toList <+: printUnspentTxOutInfo u := by
  rw [printUnspentTxOutInfo, List.flatten_cons, printHex, List.append_assoc]
  exact List.prefix_append _ _

theorem isReadable_printUnspent {F : List UInt8 → Prop}
    (hstop : ∀ r, F r → ¬ ascii "Block Hash: ".toList <+: r) : IsReadable F printUnspent id := by
  refine (isReadable_printUnspentTxOutInfo.list prefix_printUnspentTxOutInfo hstop).view ?_
  intro U V heq
  rwa [List.map_id, List.map_id] at heq

/-! ### Transactions -/

theorem isReadable_printInputInfo {F : List UInt8 → Prop} :
    IsReadable F printInputInfo TxIn.ref := by
  have hhash := (isReadable_printHex (F := F) "    - Transaction Output Hash: ").comap
    fun i : TxIn => i.txOutHash
  have htext := printHex_append (printHex_append hhash "    - Transaction ID: " fun i => i.txId)
    "    - Block Hash: " fun i => i.blockHash
  show IsReadable F (fun i => printInputInfo i) TxIn.ref
  simp only [printInputInfo, List.flatten_cons, List.flatten_nil, List.append_nil]
  refine htext.view fun i j heq => ?_
  simp only [Prod.mk.injEq, id_eq] at heq
  obtain ⟨hblock, htx, hout⟩ := heq
  rw [TxIn.ref, TxIn.ref, hblock, htx, hout]

theorem isReadable_printOutputInfo {F : List UInt8 → Prop} :
    IsReadable F printOutputInfo id := by
  have hhash := (isReadable_printHex (F := F) "    - Output Hash: ").comap
    fun o : TxOut => o.hash
  have htext := printNumber_append (printHex_append hhash "    - Public Address: " fun o => o.pub)
    "    - Amount: " fun o => o.amount.toNat
  show IsReadable F (fun o => printOutputInfo o) id
  simp only [printOutputInfo, List.flatten_cons, List.flatten_nil, List.append_nil]
  refine htext.view ?_
  rintro ⟨amount, pub, hash⟩ ⟨amount', pub', hash'⟩ heq
  simp only [Prod.mk.injEq, UInt32.toNat_inj, id_eq] at heq
  obtain ⟨rfl, rfl, rfl⟩ := heq
  rfl

/-- What `info_block` displays of a transaction: all but the signatures. -/
def Transaction.shown (t : Transaction) : Digest × List OutRef × List TxOut :=
  (t.id, t.refs, t.outputs)

theorem prefix_printInputInfo (i : TxIn) :
    ascii "    - Block Hash: ".toList <+: printInputInfo i := by
  rw [printInputInfo, List.flatten_cons, printHex, List.append_assoc]
  exact List.prefix_append _ _

theorem prefix_printOutputInfo (o : TxOut) :
    ascii "    - Amount: ".toList <+: printOutputInfo o := by
  rw [printOutputInfo, List.flatten_cons, printNumber, List.append_assoc]
  exact List.prefix_append _ _

theorem prefix_printTransactionInfo (U : List UnspentTxOut) (t : Transaction) :
    ascii "- Transaction ID: ".toList <+: printTransactionInfo U t := by
  rw [printTransactionInfo, List.flatten_cons, printHex, List.append_assoc]
  exact List.prefix_append _ _

theorem isReadable_printTransactionInfo {F : List UInt8 → Prop}
    (hstop : ∀ r, F r → ¬ ascii "Block Hash: ".toList <+: r) :
    IsReadable F (fun x : List UnspentTxOut × Transaction => printTransactionInfo x.1 x.2)
      fun x => (x.1, x.2.shown) := by
  have hunspent := (isReadable_printUnspent hstop).comap
    fun x : List UnspentTxOut × Transaction => x.1
  have hinputs : IsReadable (fun r => ascii "  Outputs:\n".toList <+: r) _ _ :=
    isReadable_printInputInfo.list prefix_printInputInfo fun r hr =>
      not_prefix_of_prefix (by decide) (by decide) hr
  have houtputs : IsReadable (fun r => ascii "  Unspent:\n".toList <+: r) _ _ :=
    isReadable_printOutputInfo.list prefix_printOutputInfo fun r hr =>
      not_prefix_of_prefix (by decide) (by decide) hr
  have hlists := (hinputs.comap fun x => x.2.inputs).append_label
    ((houtputs.comap fun x => x.2.outputs).append_label hunspent)
  have htext := printHex_append (hlists.label (ascii "  Inputs:\n".toList)) "- Transaction ID: "
    fun x => x.2.id
  simp only [printTransactionInfo, List.flatten_cons, List.flatten_nil, List.append_nil]
  refine htext.view fun x y heq => ?_
  simp only [Prod.mk.injEq, List.map_id, id_eq] at heq
  obtain ⟨hid, hrefs, houts, hU⟩ := heq
  rw [hU, Transaction.shown, Transaction.shown, Transaction.refs, Transaction.refs, hid, hrefs,
    houts]

/-! ### Blocks -/

/-- What `info_block` displays of a block. -/
def Block.shown (b : Block) :
    UInt32 × UInt64 × Digest × Digest × List (Digest × List OutRef × List TxOut) :=
  (b.info.index, b.info.timestamp, b.info.prevHash, b.hash, b.txs.map Transaction.shown)

theorem prefix_printBlock (U : List UnspentTxOut) (b : Block) :
    ascii "Block Index: ".toList <+: printBlock U b := by
  rw [printBlock, List.flatten_cons, printNumber, List.append_assoc]
  exact List.prefix_append _ _

theorem isReadable_totalSize {F : List UInt8 → Prop} :
    IsReadable F (fun n => Decimal.chars n ++ ascii " bytes\n\n".toList) fun n => (n, ()) := by
  have hsplit : ascii " bytes\n\n".toList = [0x20] ++ ascii "bytes\n\n".toList := by decide
  have hstop : ∀ n, (0x20 : UInt8) ∉ Decimal.chars n := by
    intro n hmem
    exact absurd (Decimal.toNat_of_mem_chars hmem).1 (by decide)
  have hchars := isReadable_line (F := fun _ => True) hstop (f := id)
    fun n m heq => Decimal.chars_injective heq
  have htext := hchars.append (F := F) (isReadable_const (ascii "bytes\n\n".toList))
    fun _ _ _ => trivial
  simpa only [List.append_assoc, ← hsplit, id_eq] using htext

theorem isReadable_printBlock {F : List UInt8 → Prop} :
    IsReadable F (fun x : List UnspentTxOut × Block => printBlock x.1 x.2)
      fun x => (x.2.shown, x.2.txs.map fun _ => x.1) := by
  have hstop : ∀ r, (ascii "Block Size: ".toList <+: r ∨ ascii "- Transaction ID: ".toList <+: r) →
      ¬ ascii "Block Hash: ".toList <+: r := by
    rintro r (hr | hr)
    · exact not_prefix_of_prefix (by decide) (by decide) hr
    · exact not_prefix_of_prefix (by decide) (by decide) hr
  have htxs := (isReadable_printTransactionInfo hstop).list
    (F := fun r => ascii "Block Size: ".toList <+: r)
    (fun x => prefix_printTransactionInfo x.1 x.2) fun r hr =>
      not_prefix_of_prefix (by decide) (by decide) hr
  have hbody := (htxs.comap fun x : List UnspentTxOut × Block =>
    x.2.txs.map fun t => (x.1, t)).append_label ((isReadable_totalSize (F := F)).comap
      fun x => totalSize (llistCount x.2.transactions))
  have hcount := printNumber_append (hbody.label (ascii "List of Transactions:\n".toList))
    "Number of Transactions: " fun x => (llistCount x.2.transactions).toNat
  have hhashes := printHex_append (printHex_append hcount "Block Hash: " fun x => x.2.hash)
    "Previous Block Hash: " fun x => x.2.info.prevHash
  have htext := printNumber_append (printNumber_append hhashes "Timestamp: "
    fun x => x.2.info.timestamp.toNat) "Block Index: " fun x => x.2.info.index.toNat
  simp only [List.flatMap_map] at htext
  simp only [printBlock, List.flatten_cons, List.flatten_nil, List.append_nil]
  refine htext.view fun x y heq => ?_
  simp only [Prod.mk.injEq, List.map_map, UInt32.toNat_inj, UInt64.toNat_inj] at heq
  obtain ⟨hindex, htime, hprev, hhash, -, hshown, -⟩ := heq
  have htxs := congrArg (List.map Prod.snd) hshown
  have hU := congrArg (List.map Prod.fst) hshown
  rw [List.map_map, List.map_map] at htxs hU
  have htxs' : x.2.txs.map Transaction.shown = y.2.txs.map Transaction.shown := htxs
  refine Prod.ext ?_ hU
  show x.2.shown = y.2.shown
  rw [Block.shown, Block.shown, hindex, htime, hprev, hhash, htxs']

/-- The text of `info_block` determines what is displayed of every block, and the unspent outputs if
there is a transaction. -/
theorem shown_eq_of_handleInfoBlock_eq {s s' : State κ φ}
    (heq : handleInfoBlock s = handleInfoBlock s') :
    s.blockchain.chain.map Block.shown = s'.blockchain.chain.map Block.shown ∧
      ((∃ b ∈ s.blockchain.chain, b.txs ≠ []) → s.blockchain.unspent = s'.blockchain.unspent) := by
  have htext := (isReadable_printBlock (F := fun r => r = [] ∨ _)).list (F := fun r => r = [])
    (fun x => prefix_printBlock x.1 x.2) fun r hr => by rw [hr]; decide
  have hblocks := htext.comap fun bc : Blockchain => bc.chain.map fun b => (bc.unspent, b)
  simp only [List.flatMap_map, List.map_map] at hblocks
  have hviews := hblocks.eq rfl (List.append_cancel_left heq)
  have hshown : s.blockchain.chain.map Block.shown = s'.blockchain.chain.map Block.shown := by
    have hfst := congrArg (List.map Prod.fst) hviews
    rwa [List.map_map, List.map_map] at hfst
  have hunspent : (s.blockchain.chain.map fun b => b.txs.map fun _ => s.blockchain.unspent) =
      s'.blockchain.chain.map fun b => b.txs.map fun _ => s'.blockchain.unspent := by
    have hsnd := congrArg (List.map Prod.snd) hviews
    rwa [List.map_map, List.map_map] at hsnd
  refine ⟨hshown, ?_⟩
  rintro ⟨b, hb, hne⟩
  obtain ⟨t, ht⟩ := List.exists_mem_of_ne_nil _ hne
  -- what is displayed with the transaction is displayed with one of the other chain
  have hmem := List.mem_map_of_mem (f := fun b => b.txs.map fun _ => s.blockchain.unspent) hb
  rw [hunspent] at hmem
  obtain ⟨b', -, hb'⟩ := List.mem_map.mp hmem
  have hother : s.blockchain.unspent ∈ b'.txs.map fun _ => s'.blockchain.unspent := by
    rw [hb']
    exact List.mem_map.mpr ⟨t, ht, rfl⟩
  obtain ⟨-, -, hsame⟩ := List.mem_map.mp hother
  exact hsame.symm

/-! ### Clients -/

variable [DecidableEq φ] {cond cond' : Oracle → State κ φ → Command κ φ → Prop} {s s' : State κ φ}

/-- Without transactions in the chain there is nothing unspent. -/
theorem Reached.unspent_eq_nil (hsort : ∀ cmp l, (E.llistSort cmp l).Perm l)
    (h : Reached E cond s) (hno : ∀ b ∈ s.blockchain.chain, b.txs = []) :
    s.blockchain.unspent = [] := by
  rw [List.eq_nil_iff_forall_not_mem]
  intro u hu
  obtain ⟨b, hb, t, ht, -⟩ := mem_chainEntries.mp ((h.sourced hsort).unspent u hu)
  rw [hno b hb] at ht
  cases ht

/-- Two clients that `info_block` displays the same text to have the same blocks, signatures aside,
and the same unspent outputs in the same order. -/
theorem reached_infoBlock (hsort : ∀ cmp l, (E.llistSort cmp l).Perm l) (h : Reached E cond s)
    (h' : Reached E cond' s') (hgenesis : blockHash E genesisBlock = .ok (some genesisHash))
    (hfree : CollisionFree E (hashedStrings E (s.blockchain.chain ++ s'.blockchain.chain)))
    (heq : handleInfoBlock s = handleInfoBlock s') :
    s.blockchain.chain.map Block.unsigned = s'.blockchain.chain.map Block.unsigned ∧
      s.blockchain.unspent = s'.blockchain.unspent := by
  obtain ⟨hshown, hunspent⟩ := shown_eq_of_handleInfoBlock_eq heq
  have hcommits := h.commits h' hgenesis hfree
  have hget : ∀ i : ℕ, s.blockchain.chain[i]?.map Block.shown =
      s'.blockchain.chain[i]?.map Block.shown := by
    intro i
    rw [← List.getElem?_map, hshown, List.getElem?_map]
  constructor
  · -- the hashes of the blocks are displayed
    apply List.ext_getElem?
    intro i
    have hi := hget i
    rw [List.getElem?_map, List.getElem?_map]
    cases hb : s.blockchain.chain[i]? with
    | none =>
      rw [hb, Option.map_none] at hi
      rw [Option.map_eq_none_iff.mp hi.symm]
    | some b =>
      rw [hb, Option.map_some] at hi
      obtain ⟨b', hb', hbb'⟩ := Option.map_eq_some_iff.mp hi.symm
      have hhash : b.hash = b'.hash := congrArg (fun shown => shown.2.2.2.1) hbb'.symm
      rw [hb', Option.map_some, Option.map_some, hcommits.view_eq b (List.mem_of_getElem? hb) b'
        (List.mem_of_getElem? hb') hhash]
  · by_cases htxs : ∃ b ∈ s.blockchain.chain, b.txs ≠ []
    · exact hunspent htxs
    · push Not at htxs
      have htxs' : ∀ b ∈ s'.blockchain.chain, b.txs = [] := by
        intro b' hb'
        have hmem := List.mem_map_of_mem (f := Block.shown) hb'
        rw [← hshown] at hmem
        obtain ⟨b, hb, hbb'⟩ := List.mem_map.mp hmem
        have hempty : b'.txs.map Transaction.shown = b.txs.map Transaction.shown :=
          congrArg (fun shown => shown.2.2.2.2) hbb'.symm
        rw [htxs b hb] at hempty
        exact List.map_eq_nil_iff.mp hempty
      rw [h.unspent_eq_nil hsort htxs, h'.unspent_eq_nil hsort htxs']

/-- Once client `true` has loaded the chain, `info_block` displays the same to both. -/
theorem twoClients_infoBlock :
    ∃ clients, afterSteps 5 = .ok clients ∧ (clients false).blockchain.chain.length = 2 ∧
      (clients false).blockchain.chain.map Block.unsigned =
        (clients true).blockchain.chain.map Block.unsigned ∧
      (clients false).blockchain.unspent = (clients true).blockchain.unspent := by
  have hchecked : ((afterSteps 5).toOption.map fun clients =>
      ([(clients false).blockchain.chain.length],
        (decide (handleInfoBlock (clients false) = handleInfoBlock (clients true)),
          decide ((hashedStrings sampleEnv ((clients false).blockchain.chain ++
            (clients true).blockchain.chain)).dedup.map sampleEnv.sha256).Nodup))) =
      some ([2], (true, true)) := by
    decide +kernel
  have hgenesis : blockHash sampleEnv genesisBlock = .ok (some genesisHash) := by decide +kernel
  obtain ⟨clients, hrun, hfacts⟩ := Option.map_eq_some_iff.mp hchecked
  simp only [Prod.mk.injEq, List.cons.injEq, and_true] at hfacts
  obtain ⟨hlength, hsame, hnodup⟩ := hfacts
  have hrun := Except.toOption_eq_some_iff.mp hrun
  have hreached := afterSteps_reached hrun (by decide +kernel)
  exact ⟨clients, hrun, hlength, reached_infoBlock sampleEnv_llistSort_perm (hreached false)
    (hreached true) hgenesis (collisionFree_of_nodup (of_decide_eq_true hnodup))
    (of_decide_eq_true hsame)⟩

/-- What `info` counts and adds up are the blocks and 50 for each of them behind the genesis block,
and it takes the last block for the genesis block only if there is no other. -/
theorem reached_info (hsort : ∀ cmp l, (E.llistSort cmp l).Perm l) {s : State κ φ}
    (h : Reached E LoadsEmptyPool s) (hapart : NamesApart E (createdCoins s.blockchain.chain)) :
    ∃ b, s.blockchain.chain.getLast? = some b ∧
      handleInfo s =
        [printNumber "Number of Blocks in Blockchain: " s.blockchain.chain.length,
          printNumber "Number of unspent transaction outputs: "
            (llistCount (some s.blockchain.unspent)).toNat,
          ascii "Transaction pool is available\n".toList,
          printNumber "Number of pending transactions in transaction pool: "
            (llistCount (some s.txPool)).toNat,
          printNumber "Coins: " (50 * (s.blockchain.chain.length - 1)),
          ascii "\nBlock Header:\n".toList,
          if s.blockchain.chain.length = 1 then ascii "This is the Genesis Block\n".toList
          else
            printNumber "Nonce: " b.info.nonce.toNat ++
              printNumber "Difficulty: " b.info.difficulty.toNat].flatten := by
  have hchain := h.integrity.chain
  have hlength := h.rewards_lt
  obtain ⟨L, hL⟩ := h.accounted hsort hlength hapart
  have htotal := hL.total_unspent
  obtain ⟨b, hb⟩ : ∃ b, s.blockchain.chain.getLast? = some b := by
    rw [← Option.isSome_iff_exists, List.getLast?_isSome]
    intro hnil
    rw [hnil] at htotal
    simp at htotal
  have hindex := hchain.index_last E hb
  have hcount : (llistCount (some s.blockchain.chain)).toNat = s.blockchain.chain.length := by
    show (UInt32.ofNat _).toNat = _
    rw [UInt32.toNat_ofNat']
    omega
  have hcoins : (sumUnspent s.blockchain.unspent).toNat = 50 * (s.blockchain.chain.length - 1) := by
    rw [sumUnspent, toNat_foldl_add, UInt32.toNat_zero]
    omega
  have hgenesis : b.info.index = 0 ↔ s.blockchain.chain.length = 1 := by
    rw [← UInt32.toNat_inj, UInt32.toNat_zero]
    omega
  refine ⟨b, hb, ?_⟩
  rw [handleInfo, hcount, hcoins, hb, printHeader]
  simp only [hgenesis, List.flatten_cons, List.flatten_nil, List.append_nil]

/-- With four blocks there are 150 coins. -/
theorem loadAndSend_info :
    ∃ clients, schedule sampleEnv (fun _ => initialState fun _ => none) loadAndSend = .ok clients ∧
      printNumber "Coins: " 150 <:+: handleInfo (clients true) := by
  obtain ⟨clients, hrun, hlength, hreached, hapart⟩ := exists_loadAndSend
  obtain ⟨b, -, hinfo⟩ := reached_info sampleEnv_llistSort_perm hreached hapart
  refine ⟨clients, hrun, ?_⟩
  rw [hinfo, hlength]
  exact List.infix_of_mem_flatten (by simp)

end HolbertonChain
