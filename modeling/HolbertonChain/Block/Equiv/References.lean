import HolbertonChain.Block.Equiv.Commitment
import HolbertonChain.Transaction.Coinbase
import HolbertonChain.Transaction.Equiv.Create
import Mathlib.Data.List.Dedup

/-!
# What a reference names

A reference is a block hash, a transaction ID and an output hash; there is no output index in it.
Where SHA-256 has no collision among the strings that a chain has it hash, the block hash names a
block up to its transactions (`IsSource.info_eq`), and within a list of transactions with different
IDs, each of which makes different payments, a reference names one output
(`nodup_refs_newEntries`).
-/

namespace HolbertonChain

open Bytes

variable {κ : Type} (E : Env κ)

/-! ### What is hashed -/

/-- The strings whose digests are the block hashes, transaction IDs and output hashes of a chain. -/
def hashedStrings (chain : List Block) : List (List UInt8) :=
  chain.flatMap fun b => blockPreimage E b :: b.txs.flatMap fun t =>
    transactionPreimage t :: t.outputs.map fun o => outRecord E o.amount o.pub

/-- SHA-256 has no collision among the strings. -/
def CollisionFree (strings : List (List UInt8)) : Prop := Set.InjOn E.sha256 {x | x ∈ strings}

variable {E} {chain : List Block} {b : Block} {t : Transaction}

theorem CollisionFree.mono {strings strings' : List (List UInt8)} (h : CollisionFree E strings')
    (hsub : strings ⊆ strings') : CollisionFree E strings :=
  Set.InjOn.mono (fun _ hx => hsub hx) h

/-- Freedom from collisions can be computed. -/
theorem collisionFree_of_nodup {strings : List (List UInt8)}
    (h : (strings.dedup.map E.sha256).Nodup) : CollisionFree E strings := by
  intro x hx y hy heq
  exact List.inj_on_of_nodup_map h (List.mem_dedup.mpr hx) (List.mem_dedup.mpr hy) heq

theorem hashedStrings_subset {chain' : List Block} (h : chain <+: chain') :
    hashedStrings E chain ⊆ hashedStrings E chain' := by
  obtain ⟨rest, rfl⟩ := h
  rw [hashedStrings, hashedStrings, List.flatMap_append]
  exact List.subset_append_left _ _

theorem blockPreimage_mem (hb : b ∈ chain) : blockPreimage E b ∈ hashedStrings E chain :=
  List.mem_flatMap.mpr ⟨b, hb, List.mem_cons_self⟩

theorem transactionPreimage_mem (hb : b ∈ chain) (ht : t ∈ b.txs) :
    transactionPreimage t ∈ hashedStrings E chain :=
  List.mem_flatMap.mpr ⟨b, hb, List.mem_cons_of_mem _
    (List.mem_flatMap.mpr ⟨t, ht, List.mem_cons_self⟩)⟩

theorem outRecord_mem (hb : b ∈ chain) (ht : t ∈ b.txs) {o : TxOut} (ho : o ∈ t.outputs) :
    outRecord E o.amount o.pub ∈ hashedStrings E chain :=
  List.mem_flatMap.mpr ⟨b, hb, List.mem_cons_of_mem _
    (List.mem_flatMap.mpr ⟨t, ht, List.mem_cons_of_mem _ (List.mem_map_of_mem ho)⟩)⟩

/-! ### Preimages -/

theorem outRecord_injective {amount amount' : UInt32} {pub pub' : Pub}
    (h : outRecord E amount pub = outRecord E amount' pub') : amount = amount' ∧ pub = pub' := by
  obtain ⟨hamount, hpub⟩ := List.append_inj h (by simp)
  exact ⟨encode32_injective _ (toList_injective hamount), toList_injective hpub⟩

/-- With a full buffer of data, a block hashes 24 bytes more than a multiple of 32. -/
theorem length_blockPreimage (h : b.data.len = 1024) :
    (blockPreimage E b).length = 32 * (b.txs.length + 33) + 24 := by
  have hlen : b.data.len.toNat = 1024 := by rw [h]; rfl
  simp only [blockPreimage, List.length_append, length_infoBytes, List.length_take, hlen,
    length_toList, length_hashTransactionIds, min_self]
  omega

/-- So no transaction has the preimage of such a block. -/
theorem blockPreimage_ne_transactionPreimage (h : b.data.len = 1024) (t : Transaction) :
    blockPreimage E b ≠ transactionPreimage t := by
  intro heq
  have hlen := congrArg List.length heq
  rw [length_blockPreimage h, length_transactionPreimage, bufferSize] at hlen
  omega

/-- A preimage starts with the first reference. -/
theorem ref_eq_of_transactionPreimage_eq {t t' : Transaction} {i i' : TxIn} {is is' : List TxIn}
    (h : transactionPreimage t = transactionPreimage t') (hi : t.inputs = i :: is)
    (hi' : t'.inputs = i' :: is') : i.ref = i'.ref := by
  rw [transactionPreimage, transactionPreimage, hi, hi', List.flatMap_cons, List.flatMap_cons,
    List.append_assoc, List.append_assoc] at h
  exact inputs_eq_inputs_iff.mp (List.append_inj h (by simp)).1

/-! ### Sources -/

/-- The reference names the block and the transaction by the digests of their contents. -/
structure IsSource (E : Env κ) (b : Block) (t : Transaction) (r : OutRef) : Prop where
  mem : t ∈ b.txs
  blockHash_eq : r.blockHash = E.sha256 (blockPreimage E b)
  len_eq : b.data.len = 1024
  txId_eq : r.txId = E.sha256 (transactionPreimage t)

/-- References to one block are references to blocks with one info. -/
theorem IsSource.info_eq (hchain : CollisionFree E (hashedStrings E chain)) {b' : Block}
    {t' : Transaction} {r r' : OutRef} (h : IsSource E b t r) (h' : IsSource E b' t' r')
    (hb : b ∈ chain) (hb' : b' ∈ chain) (heq : r.blockHash = r'.blockHash) :
    b.info = b'.info := by
  have hpre : blockPreimage E b = blockPreimage E b' := by
    apply hchain (blockPreimage_mem hb) (blockPreimage_mem hb')
    rw [← h.blockHash_eq, heq, h'.blockHash_eq]
  exact (info_and_bytes_of_blockPreimage_eq E hpre).1

/-- The input of a coinbase transaction has no source. -/
theorem IsSource.ne_coinbaseInput (hchain : CollisionFree E (hashedStrings E chain)) {r : OutRef}
    (h : IsSource E b t r) (hb : b ∈ chain) (blockIndex : UInt32) :
    r ≠ (coinbaseInput E blockIndex).ref := by
  rintro rfl
  -- the block and the transaction would have one digest, that of zeros
  have hzero : E.sha256 (blockPreimage E b) = E.sha256 (transactionPreimage t) :=
    h.blockHash_eq.symm.trans h.txId_eq
  have hpre := hchain (blockPreimage_mem hb) (transactionPreimage_mem hb h.mem) hzero
  exact blockPreimage_ne_transactionPreimage h.len_eq t hpre

/-! ### New entries -/

/-- Different IDs, and different output hashes in each transaction, make different references. -/
theorem nodup_refs_newEntries {bh : Digest} {ts : List Transaction}
    (hids : ts.Pairwise fun t t' => t.id ≠ t'.id)
    (houts : ∀ t ∈ ts, (t.outputs.map TxOut.hash).Nodup) :
    ((newEntries bh ts).map UnspentTxOut.ref).Nodup := by
  rw [newEntries, List.map_flatMap, List.nodup_flatMap]
  constructor
  · intro t ht
    apply List.Nodup.of_map OutRef.txOutHash
    rw [List.map_map, List.map_map]
    exact houts t ht
  · refine hids.imp fun hne => ?_
    intro r hr hr'
    obtain ⟨u, hu, rfl⟩ := List.mem_map.mp hr
    obtain ⟨o, -, rfl⟩ := List.mem_map.mp hu
    obtain ⟨u', hu', heq⟩ := List.mem_map.mp hr'
    obtain ⟨o', -, rfl⟩ := List.mem_map.mp hu'
    exact hne (congrArg OutRef.txId heq).symm

end HolbertonChain
