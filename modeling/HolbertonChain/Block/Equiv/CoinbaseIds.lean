import HolbertonChain.Block.Equiv.Extend
import HolbertonChain.Transaction.Equiv.Commitment

/-!
# The block index in a coinbase transaction

`coinbase_is_valid` compares the first four bytes of the output hash of the only input with the
index, and these bytes are among those that `transaction_hash` hashes.  So a coinbase transaction is
valid at one index only (`index_eq_of_coinbaseIsValid`), and two that are valid at different indices
have different IDs unless SHA-256 collides on them (`id_ne_of_coinbaseIsValid`).
`coinbaseIsValid_iff_and_ids_ne` puts this together for what `coinbase_create` makes, for whatever
`coinbase_is_valid` accepts, and for the blocks of a chain.
-/

namespace HolbertonChain

open Bytes

variable {κ : Type} (E : Env κ)

/-! ### One index -/

/-- Inputs of valid coinbase transactions with one reference carry one index. -/
theorem IsCoinbase.index_eq_of_ref_eq {c c' : Transaction} {i j : UInt32} {input input' : TxIn}
    {output output' : TxOut} (hc : IsCoinbase E c i input output)
    (hc' : IsCoinbase E c' j input' output') (href : input.ref = input'.ref) : i = j := by
  have hhash : input.txOutHash = input'.txOutHash := (OutRef.mk.inj href).2.2
  have hi := hc.index_eq
  have hj := hc'.index_eq
  rw [hhash] at hi
  exact encode32_injective E.host (toList_injective (hi.symm.trans hj))

/-- A coinbase transaction is valid at one index only. -/
theorem index_eq_of_coinbaseIsValid {c : Transaction} {i j : UInt32}
    (h : coinbaseIsValid E c i = .ok true) (h' : coinbaseIsValid E c j = .ok true) : i = j := by
  obtain ⟨input, output, hc⟩ := (coinbaseIsValid_eq_true_iff E).mp h
  obtain ⟨input', output', hc'⟩ := (coinbaseIsValid_eq_true_iff E).mp h'
  have hinput : input = input' := List.singleton_inj.mp (hc.inputs_eq.symm.trans hc'.inputs_eq)
  exact hc.index_eq_of_ref_eq E hc' (congrArg TxIn.ref hinput)

/-- What `coinbase_create` makes for an index is valid there and nowhere else. -/
theorem coinbaseCreate_isValid_iff {receiver : κ} {i : UInt32} {c : Transaction}
    (h : coinbaseCreate E receiver i = .ok (some c)) (j : UInt32) :
    coinbaseIsValid E c j = .ok true ↔ i = j := by
  obtain ⟨pub, -, rfl⟩ := (coinbaseCreate_eq_ok_some_iff E).mp h
  have hvalid : coinbaseIsValid E (coinbaseWith E i (rewardOut E pub)) i = .ok true :=
    coinbaseWith_isValid E i rfl
  constructor
  · exact index_eq_of_coinbaseIsValid E hvalid
  · rintro rfl
    exact hvalid

/-! ### One ID -/

/-- The ID of a valid coinbase transaction is the digest of its preimage. -/
theorem IsCoinbase.id_eq_sha256 {c : Transaction} {i : UInt32} {input : TxIn} {output : TxOut}
    (h : IsCoinbase E c i input output) : c.id = E.sha256 (transactionPreimage c) := by
  rcases ((transactionHash_eq_ok_iff E).mp h.id_eq).2 with ⟨-, hnone⟩ | ⟨-, hsome⟩
  · cases hnone
  · exact Option.some.inj hsome

/-- Coinbase transactions that are valid at different indices have different IDs. -/
theorem id_ne_of_coinbaseIsValid {c c' : Transaction} {i j : UInt32}
    (hsha : Set.InjOn E.sha256 {transactionPreimage c, transactionPreimage c'})
    (h : coinbaseIsValid E c i = .ok true) (h' : coinbaseIsValid E c' j = .ok true)
    (hij : i ≠ j) : c.id ≠ c'.id := by
  obtain ⟨input, output, hc⟩ := (coinbaseIsValid_eq_true_iff E).mp h
  obtain ⟨input', output', hc'⟩ := (coinbaseIsValid_eq_true_iff E).mp h'
  intro hid
  rw [hc.id_eq_sha256 E, hc'.id_eq_sha256 E] at hid
  have hpre : transactionPreimage c = transactionPreimage c' := hsha (by simp) (by simp) hid
  have hlen : c.inputs.length = c'.inputs.length := by rw [hc.inputs_eq, hc'.inputs_eq]; rfl
  obtain ⟨hrefs, -⟩ := refs_and_hashes_of_transactionPreimage_eq hlen hpre
  rw [Transaction.refs, Transaction.refs, hc.inputs_eq, hc'.inputs_eq] at hrefs
  exact hij (hc.index_eq_of_ref_eq E hc' (List.singleton_inj.mp hrefs))

/-! ### The coinbase transactions of a chain -/

/-- The preimages of the coinbase transactions of a chain. -/
def coinbasePreimages (chain : List Block) : Set (List UInt8) :=
  {p | ∃ b ∈ chain, ∃ c, b.txs.head? = some c ∧ transactionPreimage c = p}

/-- The first transaction of a block whose transactions are valid is a coinbase for its index. -/
theorem coinbaseIsValid_of_validateTransactions {stack : ℕ → Digest} {b : Block}
    {U : List UnspentTxOut} {c : Transaction}
    (h : validateTransactions E stack b U = .ok true) (hc : b.txs.head? = some c) :
    coinbaseIsValid E c b.info.index = .ok true := by
  obtain ⟨coinbase, ts, htxs, hvalid, -⟩ := (validateTransactions_eq_true_iff E).mp h
  rw [htxs] at hc
  rw [← Option.some.inj hc]
  exact hvalid

/-- What `coinbase_create` makes for an index is valid at that index only; transactions that are
valid coinbases at different indices have different IDs; and so have the coinbases of two blocks of
a chain whose blocks carry their positions as indices. -/
theorem coinbaseIsValid_iff_and_ids_ne :
    (∀ (receiver : κ) (pub : Pub), ecToPub E receiver = some pub → ∀ i,
      ∃ c, coinbaseCreate E receiver i = .ok (some c) ∧
        ∀ j, coinbaseIsValid E c j = .ok true ↔ i = j) ∧
    (∀ (c c' : Transaction) (i j : UInt32),
      Set.InjOn E.sha256 {transactionPreimage c, transactionPreimage c'} →
      coinbaseIsValid E c i = .ok true → coinbaseIsValid E c' j = .ok true → i ≠ j →
        c.id ≠ c'.id) ∧
    (∀ (stack : ℕ → ℕ → Digest) (U : ℕ → List UnspentTxOut) (chain : List Block),
      Set.InjOn E.sha256 (coinbasePreimages chain) →
      (∀ (i : ℕ) (b : Block), chain[i]? = some b → b.info.index.toNat = i) →
      (∀ (i : ℕ) (b : Block), chain[i + 1]? = some b →
        validateTransactions E (stack (i + 1)) b (U (i + 1)) = .ok true) →
      ∀ (i k : ℕ) (b b' : Block) (c c' : Transaction), i ≠ k → chain[i + 1]? = some b →
        chain[k + 1]? = some b' → b.txs.head? = some c → b'.txs.head? = some c' →
          c.id ≠ c'.id) := by
  refine ⟨fun receiver pub hpub i => ?_, fun c c' i j hsha h h' hij => ?_, ?_⟩
  · have hcreate : coinbaseCreate E receiver i =
        .ok (some (coinbaseWith E i (rewardOut E pub))) :=
      (coinbaseCreate_eq_ok_some_iff E).mpr ⟨pub, hpub, rfl⟩
    exact ⟨_, hcreate, coinbaseCreate_isValid_iff E hcreate⟩
  · exact id_ne_of_coinbaseIsValid E hsha h h' hij
  · intro stack U chain hsha hindex hvalid i k b b' c c' hik hb hb' hc hc'
    have hne : b.info.index ≠ b'.info.index := by
      intro heq
      have hi := hindex (i + 1) b hb
      have hk := hindex (k + 1) b' hb'
      rw [heq] at hi
      omega
    have hsub : {transactionPreimage c, transactionPreimage c'} ⊆ coinbasePreimages chain := by
      rw [Set.pair_subset_iff]
      exact ⟨⟨b, List.mem_of_getElem? hb, c, hc, rfl⟩, ⟨b', List.mem_of_getElem? hb', c', hc', rfl⟩⟩
    exact id_ne_of_coinbaseIsValid E (hsha.mono hsub)
      (coinbaseIsValid_of_validateTransactions E (hvalid i b hb) hc)
      (coinbaseIsValid_of_validateTransactions E (hvalid k b' hb') hc') hne

/-- Coinbase transactions of one key for two blocks have different IDs. -/
theorem anyCoinbase_ids_ne :
    (∃ c, coinbaseCreate sampleEnv 1 7 = .ok (some c) ∧
      ∀ j, coinbaseIsValid sampleEnv c j = .ok true ↔ 7 = j) ∧
    (anyCoinbase sampleEnv 1).id ≠ (anyCoinbase sampleEnv 2).id :=
  have hpub : ecToPub sampleEnv 1 = some (samplePub 1) := by decide +kernel
  have hsha : sampleEnv.sha256 (transactionPreimage (anyCoinbase sampleEnv 1)) ≠
      sampleEnv.sha256 (transactionPreimage (anyCoinbase sampleEnv 2)) := by decide +kernel
  have hinj : Set.InjOn sampleEnv.sha256
      {transactionPreimage (anyCoinbase sampleEnv 1),
        transactionPreimage (anyCoinbase sampleEnv 2)} := by
    simp [Set.InjOn, hsha, hsha.symm]
  ⟨(coinbaseIsValid_iff_and_ids_ne sampleEnv).1 1 (samplePub 1) hpub 7,
    (coinbaseIsValid_iff_and_ids_ne sampleEnv).2.1 _ _ 1 2 hinj
      (coinbaseWith_isValid sampleEnv 1 rfl) (coinbaseWith_isValid sampleEnv 2 rfl) (by decide)⟩

end HolbertonChain
