import HolbertonChain.Cli.Equiv.Contents
import HolbertonChain.Cli.Equiv.Provenance

/-!
# The unspent outputs as the chain gives them

The list of unspent outputs is kept beside the chain, saved beside it and loaded beside it, and no
command computes it from the chain.  All the same it is what the chain gives when `update_unspent`
is run over its blocks from the first on (`replay`): exactly, where `list` is never used, and up to
what the entries are and where they stand otherwise (`reached_replay`).  What `update_unspent` takes
out is found by its hash, so sorting the list can make it take out another entry, but never one with
another hash (`map_hash_updateUnspent_perm`).
-/

namespace HolbertonChain

open List

/-! ### `update_unspent` by hashes -/

/-- Lists with the same hashes have the same hashes after an update. -/
theorem map_hash_updateUnspent_perm {U V : List UnspentTxOut}
    (h : U.map UnspentTxOut.hash ~ V.map UnspentTxOut.hash) (txs : Option (List Transaction))
    (bh : Digest) :
    (updateUnspent txs bh U).map UnspentTxOut.hash ~
      (updateUnspent txs bh V).map UnspentTxOut.hash := by
  cases txs with
  | none => exact h
  | some ts =>
    induction ts generalizing U V with
    | nil => exact h
    | cons t ts ih =>
      rw [updateUnspent_cons, updateUnspent_cons]
      apply ih
      rw [map_append, map_append, removeInputs_eq_eraseKeys, removeInputs_eq_eraseKeys,
        map_eraseKeys, map_eraseKeys]
      exact (h.diff_right _).append_right _

/-! ### Replaying a chain -/

/-- `update_unspent` run over the blocks of a chain, from no unspent outputs on. -/
def replay (chain : List Block) : List UnspentTxOut :=
  chain.foldl (fun unspent b => updateUnspent b.transactions b.hash unspent) []

theorem replay_append (chain : List Block) (b : Block) :
    replay (chain ++ [b]) = updateUnspent b.transactions b.hash (replay chain) := by
  rw [replay, foldl_append]
  rfl

variable {κ φ : Type} [DecidableEq φ] {E : Env κ}
  {cond : Oracle → State κ φ → Command κ φ → Prop}

/-- In every state that clients reach, the unspent outputs have the hashes that replaying the chain
gives, and where no client uses `list` they are what it gives. -/
theorem reached_replay (hsort : ∀ cmp l, (E.llistSort cmp l).Perm l) {s : State κ φ}
    (h : Reached E cond s) :
    s.blockchain.unspent.map UnspentTxOut.hash ~
        (replay s.blockchain.chain).map UnspentTxOut.hash ∧
      ((∀ ω s c, cond ω s c → c ≠ .list) →
        s.blockchain.unspent = replay s.blockchain.chain) := by
  refine h.rule (P := fun s => s.blockchain.unspent.map UnspentTxOut.hash ~
      (replay s.blockchain.chain).map UnspentTxOut.hash ∧
    ((∀ ω s c, cond ω s c → c ≠ .list) → s.blockchain.unspent = replay s.blockchain.chain))
    ?_ ?_ ?_ ?_
  · exact fun _ => ⟨Perm.nil, fun _ => rfl⟩
  · exact fun _ _ hs => hs
  · intro ω s s' c _ _ hload hcond hstep hs
    cases hstep with
    | append hmined hvalid =>
      obtain ⟨hperm, heq⟩ := hs
      show map _ (updateUnspent _ _ s.blockchain.unspent) ~
        map _ (replay (s.blockchain.chain ++ [_])) ∧
        (_ → updateUnspent _ _ s.blockchain.unspent = replay (s.blockchain.chain ++ [_]))
      rw [replay_append]
      exact ⟨map_hash_updateUnspent_perm hperm _ _, fun hno => by rw [heq hno]⟩
    | list =>
      refine ⟨((hsort _ _).map _).trans hs.1, fun hno => ?_⟩
      exact absurd rfl (hno _ _ _ hcond)
    | load hload' => exact absurd rfl (hload _)
    | unchanged | wallet | walletSave | send | reject | save => exact hs
  · exact fun _ _ _ _ _ _ _ ht => ht

/-- The command is not `list`. -/
def NeverLists (_ω : Oracle) (_s : State κ φ) (c : Command κ φ) : Prop := c.isList = false

instance decidableNeverLists (ω : Oracle) (s : State κ φ) (c : Command κ φ) :
    Decidable (NeverLists ω s c) :=
  inferInstanceAs (Decidable (_ = false))

/-- Key 1 mines a block, saves the chain and loads it again. -/
theorem saveAndLoad_replay :
    ∃ s, run sampleEnv (initialState fun _ => none) saveAndLoad = .ok s ∧
      (s.blockchain.unspent.map UnspentTxOut.hash ~
        (replay s.blockchain.chain).map UnspentTxOut.hash ∧
      ((∀ ω s (c : Command ℕ ℕ), @NeverLists ℕ ℕ ω s c → c ≠ .list) →
        s.blockchain.unspent = replay s.blockchain.chain)) := by
  have hchecked : (checkedRun sampleEnv [] (initialState fun _ => none) saveAndLoad).isSome := by
    decide +kernel
  obtain ⟨s, hs⟩ := Option.isSome_iff_exists.mp hchecked
  obtain ⟨hrun, hloads, hshort⟩ := checkedRun_eq_some sampleEnv hs
  have hreached : Reached sampleEnv NeverLists s :=
    run_reached (.start _) hrun hloads hshort (by decide +kernel) (by simp)
  exact ⟨s, hrun, reached_replay sampleEnv_llistSort_perm hreached⟩

end HolbertonChain
