import HolbertonChain.Lib.EraseKeys
import HolbertonChain.Sample
import HolbertonChain.Transaction.UpdateUnspent

/-!
# What `update_unspent` takes out

`find_unspent` compares nothing but the hash of an output, which outputs of equal amount to one
receiver share.  Where the list holds an entry for every input, `update_unspent` takes out for each
input hash the first entries that have it, and puts the outputs at the rear
(`updateUnspent_eq_append`).  It takes out the entries the inputs refer to exactly when no such
entry stands behind one with the same hash that no input refers to (`updateUnspent_eq_filter_iff`).
-/

namespace HolbertonChain

open Bytes List

/-! ### The two inner loops -/

/-- The hash of an unspent output, by which `find_unspent` finds it. -/
def UnspentTxOut.hash (u : UnspentTxOut) : Digest := u.out.hash

/-- The output hashes named by the inputs of a list of transactions. -/
def inputHashes (ts : List Transaction) : List Digest :=
  (ts.flatMap (·.inputs)).map (·.txOutHash)

/-- The references of the inputs of a list of transactions. -/
def inputRefs (ts : List Transaction) : List OutRef := (ts.flatMap (·.inputs)).map TxIn.ref

/-- The entries for the outputs of a list of transactions. -/
def newEntries (blockHash : Digest) (ts : List Transaction) : List UnspentTxOut :=
  ts.flatMap fun t => t.outputs.map (unspentTxOutCreate blockHash t.id)

@[simp] theorem inputHashes_cons (t : Transaction) (ts : List Transaction) :
    inputHashes (t :: ts) = t.inputs.map (·.txOutHash) ++ inputHashes ts := by
  simp [inputHashes]

@[simp] theorem newEntries_cons (bh : Digest) (t : Transaction) (ts : List Transaction) :
    newEntries bh (t :: ts) = t.outputs.map (unspentTxOutCreate bh t.id) ++ newEntries bh ts := by
  simp [newEntries]

theorem removeInputs_eq_eraseKeys (ins : List TxIn) (U : List UnspentTxOut) :
    removeInputs ins U = eraseKeys UnspentTxOut.hash (ins.map (·.txOutHash)) U := by
  rw [removeInputs, eraseKeys, foldl_map]
  rfl

theorem addOutputs_eq_append (bh id : Digest) (outs : List TxOut) (U : List UnspentTxOut) :
    addOutputs bh id outs U = U ++ outs.map (unspentTxOutCreate bh id) := by
  unfold addOutputs
  induction outs generalizing U with
  | nil => simp
  | cons o outs ih => rw [foldl_cons, ih, map_cons, append_assoc, singleton_append]

theorem updateUnspent_cons (t : Transaction) (ts : List Transaction) (bh : Digest)
    (U : List UnspentTxOut) :
    updateUnspent (some (t :: ts)) bh U =
      updateUnspent (some ts) bh
        (removeInputs t.inputs U ++ t.outputs.map (unspentTxOutCreate bh t.id)) := by
  rw [← addOutputs_eq_append]
  rfl

/-- Nothing but the new entries is added. -/
theorem updateUnspent_sublist (ts : List Transaction) (bh : Digest) (U : List UnspentTxOut) :
    updateUnspent (some ts) bh U <+ U ++ newEntries bh ts := by
  induction ts generalizing U with
  | nil =>
    show U <+ U ++ []
    rw [append_nil]
  | cons t ts ih =>
    have hremove : removeInputs t.inputs U <+ U := by
      rw [removeInputs_eq_eraseKeys]
      exact eraseKeys_sublist _ _ _
    rw [updateUnspent_cons, newEntries_cons, ← append_assoc]
    exact (ih _).trans ((hremove.append_right _).append_right _)

/-- An entry with none of the input hashes is found where it was, unless it is a new one. -/
theorem find?_updateUnspent {p : UnspentTxOut → Bool} {ts : List Transaction} {bh : Digest}
    (hins : ∀ u, p u = true → u.hash ∉ inputHashes ts) (hnew : ∀ u ∈ newEntries bh ts, p u = false)
    (U : List UnspentTxOut) : (updateUnspent (some ts) bh U).find? p = U.find? p := by
  induction ts generalizing U with
  | nil => rfl
  | cons t ts ih =>
    have hfind : (t.outputs.map (unspentTxOutCreate bh t.id)).find? p = none := by
      rw [find?_eq_none]
      intro u hu
      rw [hnew u (by rw [newEntries_cons]; exact mem_append_left _ hu)]
      exact Bool.false_ne_true
    simp only [inputHashes_cons, mem_append, not_or] at hins
    simp only [newEntries_cons, mem_append] at hnew
    rw [updateUnspent_cons, ih (fun u hu => (hins u hu).2) fun u hu => hnew u (Or.inr hu),
      find?_append, hfind, Option.or_none, removeInputs_eq_eraseKeys,
      find?_eraseKeys _ fun u hu => (hins u hu).1]

/-! ### The whole list -/

/-- Where every input hash is there often enough, `update_unspent` takes out the first entries with
these hashes, and the outputs stand behind. -/
theorem updateUnspent_eq_append {ts : List Transaction} {U : List UnspentTxOut} (bh : Digest)
    (h : inputHashes ts <+~ U.map UnspentTxOut.hash) :
    updateUnspent (some ts) bh U =
      eraseKeys UnspentTxOut.hash (inputHashes ts) U ++ newEntries bh ts := by
  induction ts generalizing U with
  | nil => simp [updateUnspent, inputHashes, newEntries]
  | cons t ts ih =>
    rw [inputHashes_cons] at h
    -- what the later inputs ask for stands in front of the new entries
    have hts := subperm_map_eraseKeys UnspentTxOut.hash h
    have hlonger : inputHashes ts <+~ (eraseKeys UnspentTxOut.hash (t.inputs.map (·.txOutHash)) U ++
        t.outputs.map (unspentTxOutCreate bh t.id)).map UnspentTxOut.hash := by
      rw [map_append]
      exact hts.trans (sublist_append_left _ _).subperm
    rw [updateUnspent_cons, removeInputs_eq_eraseKeys, ih hlonger, eraseKeys_append _ hts,
      inputHashes_cons, newEntries_cons, eraseKeys_append_keys, append_assoc]

/-! ### Exactly what was spent -/

/-- Distinct references to entries of a list without repeated references: the entries referred to
have the hashes the inputs name. -/
theorem inputHashes_perm {ts : List Transaction} {U : List UnspentTxOut}
    (hU : (U.map UnspentTxOut.ref).Nodup) (hts : (inputRefs ts).Nodup)
    (hmem : ∀ r ∈ inputRefs ts, r ∈ U.map UnspentTxOut.ref) :
    inputHashes ts ~ (U.filter (·.ref ∈ inputRefs ts)).map UnspentTxOut.hash := by
  have hrefs : inputRefs ts ~ (U.filter (·.ref ∈ inputRefs ts)).map UnspentTxOut.ref := by
    refine (perm_ext_iff_of_nodup hts (hU.sublist (filter_sublist.map _))).mpr fun r => ?_
    constructor
    · intro hr
      obtain ⟨u, hu, rfl⟩ := mem_map.mp (hmem r hr)
      exact mem_map.mpr ⟨u, mem_filter.mpr ⟨hu, by simpa using hr⟩, rfl⟩
    · intro hr
      obtain ⟨u, hu, rfl⟩ := mem_map.mp hr
      simpa using (mem_filter.mp hu).2
  have hhashes := hrefs.map OutRef.txOutHash
  rwa [inputRefs, map_map, map_map] at hhashes

/-- `update_unspent` takes out exactly the entries the inputs refer to if and only if an entry in
front of such an entry with the same output hash is itself referred to. -/
theorem updateUnspent_eq_filter_iff {ts : List Transaction} {bh : Digest} {U : List UnspentTxOut}
    (hU : (U.map UnspentTxOut.ref).Nodup) (hts : (inputRefs ts).Nodup)
    (hmem : ∀ r ∈ inputRefs ts, r ∈ U.map UnspentTxOut.ref) :
    updateUnspent (some ts) bh U = U.filter (¬ ·.ref ∈ inputRefs ts) ++ newEntries bh ts ↔
      U.Pairwise fun u v =>
        u.out.hash = v.out.hash → v.ref ∈ inputRefs ts → u.ref ∈ inputRefs ts := by
  have hperm := inputHashes_perm hU hts hmem
  have hsub : inputHashes ts <+~ U.map UnspentTxOut.hash :=
    hperm.subperm.trans (filter_sublist.map _).subperm
  rw [updateUnspent_eq_append bh hsub, append_left_inj, eraseKeys_perm _ hperm]
  exact eraseKeys_eq_filter_iff _ hU.of_map

/-! ### Two rewards of one miner -/

/-- The second reward of key 1 is sent to key 2. -/
def spendSecondReward : Transaction := spendRewards [reward 2] [sampleOut 50 2]

/-- The first reward of key 1 is sent to key 2. -/
def spendFirstReward : Transaction := spendRewards [reward 1] [sampleOut 50 2]

/-- When the first reward is spent, it is taken out; when the second one is, it is not. -/
theorem spendSecondReward_condition :
    updateUnspent (some [spendFirstReward]) (ofList 32 [4]) [reward 1, reward 2] =
        [reward 1, reward 2].filter (¬ ·.ref ∈ inputRefs [spendFirstReward]) ++
          newEntries (ofList 32 [4]) [spendFirstReward] ∧
      (updateUnspent (some [spendSecondReward]) (ofList 32 [4]) [reward 1, reward 2] =
          [reward 1, reward 2].filter (¬ ·.ref ∈ inputRefs [spendSecondReward]) ++
            newEntries (ofList 32 [4]) [spendSecondReward] ↔
        [reward 1, reward 2].Pairwise fun u v =>
          u.out.hash = v.out.hash → v.ref ∈ inputRefs [spendSecondReward] →
            u.ref ∈ inputRefs [spendSecondReward]) := by
  constructor
  · refine (updateUnspent_eq_filter_iff ?_ ?_ ?_).mpr ?_
    all_goals decide +kernel
  · exact updateUnspent_eq_filter_iff (by decide +kernel) (by decide +kernel) (by decide +kernel)

/-- `update_unspent` does not take out exactly what was spent. -/
theorem not_updateUnspent_eq_filter :
    ¬ ∀ (ts : List Transaction) (bh : Digest) (U : List UnspentTxOut),
      (U.map UnspentTxOut.ref).Nodup → (inputRefs ts).Nodup →
      (∀ r ∈ inputRefs ts, r ∈ U.map UnspentTxOut.ref) →
      updateUnspent (some ts) bh U = U.filter (¬ ·.ref ∈ inputRefs ts) ++ newEntries bh ts := by
  intro h
  have hsame := h [spendSecondReward] (ofList 32 [4]) [reward 1, reward 2] (by decide +kernel)
    (by decide +kernel) (by decide +kernel)
  revert hsame
  decide +kernel

end HolbertonChain
