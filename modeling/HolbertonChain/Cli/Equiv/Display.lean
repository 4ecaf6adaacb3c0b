import HolbertonChain.Cli.Equiv.ChainIntegrity
import HolbertonChain.Lib.StableSort

/-!
# Commands that display something

`info` and `info_block` leave the state alone.  `list` sorts the list of unspent outputs it prints,
and that is the list `send` selects from, `mine` updates and `save` writes.  So a display command
makes no difference to what later commands do exactly when it is not `list`, or `llist_sort` leaves
the list as it is (`influencesNothing_iff_llistSort_eq`), which is when no amount is larger than one
in front of it (`influencesNothing_iff`).
-/

namespace HolbertonChain

open StableSort

variable {κ φ : Type} [DecidableEq φ] (E : Env κ)

/-- The commands that only display something. -/
inductive IsDisplay : Command κ φ → Prop
  | list : IsDisplay .list
  | info : IsDisplay .info
  | infoBlock : IsDisplay .infoBlock

/-- What the commands of a run reply, and the state they lead to. -/
def results : State κ φ → List (Command κ φ × Oracle) → Exec (List Reply × State κ φ)
  | s, [] => pure ([], s)
  | s, (c, ω) :: cs => do
    let (reply, s) ← findCommand E ω s c
    if reply.ret = 1 then pure ([reply], s)
    else
      let (replies, s) ← results s cs
      pure (reply :: replies, s)

/-- The state is the one `run` returns. -/
theorem run_eq_results (s : State κ φ) (cs : List (Command κ φ × Oracle)) :
    run E s cs = (do let (_, s') ← results E s cs; pure s') := by
  induction cs generalizing s with
  | nil => rfl
  | cons p cs ih =>
    obtain ⟨c, ω⟩ := p
    rw [run, results]
    cases findCommand E ω s c with
    | error e => rfl
    | ok r =>
      obtain ⟨reply, next⟩ := r
      simp only [Except.ok_bind]
      split_ifs with hexit
      · rfl
      · rw [ih]
        cases results E next cs with
        | error e => rfl
        | ok r => rfl

/-- Whatever commands follow, their results are the same with and without the command in front. -/
def InfluencesNothing (ω : Oracle) (s : State κ φ) (d : Command κ φ) : Prop :=
  ∀ cs, (do let (_, s') ← findCommand E ω s d; results E s' cs) = results E s cs

/-- `list` never fails. -/
theorem results_list (ω : Oracle) (s : State κ φ) (cs : List (Command κ φ × Oracle)) :
    (do let (_, s') ← findCommand E ω s .list; results E s' cs) =
      results E (generateSortedUnspentList E s).2 cs := rfl

/-- A display command influences nothing if and only if it is not `list`, or `llist_sort` leaves the
unspent outputs as they are. -/
theorem influencesNothing_iff_llistSort_eq {d : Command κ φ} (hd : IsDisplay d) (ω : Oracle)
    (s : State κ φ) :
    InfluencesNothing E ω s d ↔
      (d = .list →
        E.llistSort comparesUnspentTxOut s.blockchain.unspent = s.blockchain.unspent) := by
  cases hd with
  | list =>
    constructor
    · intro h _
      -- the list itself is among the results
      have hstate := (Prod.mk.inj (Except.ok.inj (h []))).2
      exact congrArg (fun s : State κ φ => s.blockchain.unspent) hstate
    · intro h cs
      rw [results_list, generateSortedUnspentList, h rfl]
  | info | infoBlock =>
    constructor
    · intro _ h
      cases h
    · intro _ cs
      rfl

/-! ### The order of amounts -/

/-- `llist_sort` with the flags 0, which do not hold `SORT_LIST_ASC`: the amounts end up in
descending order, and unspent outputs of one amount keep theirs. -/
def SortsDescending : Prop :=
  IsStableSort (fun u => u.out.amount.toNat) (E.llistSort comparesUnspentTxOut)

theorem zero_le_comparesUnspentTxOut_iff (u v : UnspentTxOut) :
    0 ≤ comparesUnspentTxOut u v ↔ v.out.amount.toNat ≤ u.out.amount.toNat := by
  rw [← UInt32.le_iff_toNat_le]
  unfold comparesUnspentTxOut
  split_ifs with hlt hgt
  · exact iff_of_false (by decide) (UInt32.not_le.mpr hlt)
  · exact iff_of_true (by decide) (UInt32.le_of_lt hgt)
  · exact iff_of_true (by decide) (UInt32.not_lt.mp hlt)

theorem sampleEnv_sortsDescending : SortsDescending sampleEnv :=
  isStableSort_insertionSort zero_le_comparesUnspentTxOut_iff

/-- A display command influences nothing if and only if it is not `list`, or the amounts of the
unspent outputs do not increase along the list. -/
theorem influencesNothing_iff (hsort : SortsDescending E) {d : Command κ φ} (hd : IsDisplay d)
    (ω : Oracle) (s : State κ φ) :
    InfluencesNothing E ω s d ↔
      (d = .list → s.blockchain.unspent.Pairwise fun u v => v.out.amount ≤ u.out.amount) := by
  rw [influencesNothing_iff_llistSort_eq E hd, hsort.eq_self_iff]
  simp only [UInt32.le_iff_toNat_le]

/-! ### A payment out of another coin -/

/-- Key 1 mines a block, sends key 2 a part of the reward and mines another block: a reward, the
part and the change are unspent, in this order. -/
def mineAfterSend : List (Command ℕ ℕ × Oracle) :=
  [.walletCreate (some 1), .mine,
    .send 30 ([0x30, 0x34, 0x30, 0x32] ++ List.replicate 126 0x30), .mine].map
      fun c => (c, sampleOracle)

/-- The amounts of 50, 30 and 20 are listed in the order in which they are. -/
theorem influencesNothing_mineAfterSend :
    ∃ s, run sampleEnv (initialState fun _ => none) mineAfterSend = .ok s ∧
      s.blockchain.unspent.map (fun u => u.out.amount) = [50, 30, 20] ∧
      InfluencesNothing sampleEnv sampleOracle s .list := by
  have hchecked : ((checkedRun sampleEnv [] (initialState fun _ => none) mineAfterSend).map
      fun s => s.blockchain.unspent.map fun u => u.out.amount) = some [50, 30, 20] := by
    decide +kernel
  obtain ⟨s, hs, hamounts⟩ := Option.map_eq_some_iff.mp hchecked
  refine ⟨s, (checkedRun_eq_some sampleEnv hs).1, hamounts, ?_⟩
  refine (influencesNothing_iff sampleEnv sampleEnv_sortsDescending .list _ s).mpr fun _ => ?_
  have hdescending :
      (s.blockchain.unspent.map fun u => u.out.amount).Pairwise fun a b => b ≤ a := by
    rw [hamounts]
    decide
  exact List.pairwise_map.mp hdescending

/-- Key 2 is sent 60 coins. -/
def sendSixty : List (Command ℕ ℕ × Oracle) :=
  [(.send 60 ([0x30, 0x34, 0x30, 0x32] ++ List.replicate 126 0x30), sampleOracle)]

/-- The references of the pool at the end of a run. -/
def poolRefs (r : Exec (List Reply × State ℕ ℕ)) : Option (List (List OutRef)) :=
  r.toOption.map fun p => p.2.txPool.map Transaction.refs

/-- Behind another block with its reward, a `send` selects other unspent outputs after a `list`: the
two rewards in place of one reward and the change. -/
theorem not_influencesNothing :
    ¬ ∀ (cmds : List (Command ℕ ℕ × Oracle)) (s : State ℕ ℕ) (ω : Oracle) (d : Command ℕ ℕ),
      run sampleEnv (initialState fun _ => none) cmds = .ok s → IsDisplay d →
        InfluencesNothing sampleEnv ω s d := by
  intro h
  have hchecked : ((checkedRun sampleEnv [] (initialState fun _ => none)
      (mineAfterSend ++ [(.mine, sampleOracle)])).map fun s =>
        decide (poolRefs (results sampleEnv (generateSortedUnspentList sampleEnv s).2 sendSixty) =
          poolRefs (results sampleEnv s sendSixty))) = some false := by
    decide +kernel
  obtain ⟨s, hs, hdiffer⟩ := Option.map_eq_some_iff.mp hchecked
  have hrun := (checkedRun_eq_some sampleEnv hs).1
  have hsame : results sampleEnv (generateSortedUnspentList sampleEnv s).2 sendSixty =
      results sampleEnv s sendSixty := by
    rw [← results_list sampleEnv sampleOracle]
    exact h _ s sampleOracle .list hrun .list sendSixty
  exact absurd (congrArg poolRefs hsame) (of_decide_eq_false hdiffer)

end HolbertonChain
