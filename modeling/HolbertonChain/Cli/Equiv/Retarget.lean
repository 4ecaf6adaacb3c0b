import HolbertonChain.Block.Equiv.Adjustment
import HolbertonChain.Cli.Equiv.Accounting
import HolbertonChain.Cli.Equiv.Clients

/-!
# The difficulties of a chain

`blockchain_difficulty` looks at two blocks of the chain it is given.  Over a chain that grew by
mining, that makes the difficulties a function of the timestamps (`retarget`): they start at zero,
and behind every fifth block the time since the fourth block in front of it moves them by at most
one, up where less than 2 seconds passed and down where more than 10 did.  So the block at position
`i` has a difficulty of at most `(i - 1) / 5`, and no counter runs over (`reached_difficulty`).
-/

namespace HolbertonChain

variable {κ φ : Type} {E : Env κ}

/-! ### The recurrence -/

/-- The difficulty at a position, from the timestamps of the blocks in front. -/
def retarget (times : ℕ → UInt64) : ℕ → ℕ
  | 0 => 0
  | i + 1 =>
    if i = 0 ∨ ¬ 5 ∣ i then retarget times i
    else if (times i - times (i - 4)).toNat < 2 then retarget times i + 1
    else if 10 < (times i - times (i - 4)).toNat then retarget times i - 1
    else retarget times i

/-- One step up for five blocks is the most there can be. -/
theorem retarget_le (times : ℕ → UInt64) (i : ℕ) : retarget times i ≤ (i - 1) / 5 := by
  induction i with
  | zero => exact le_rfl
  | succ i ih =>
    rw [retarget]
    split_ifs with hkeep hfast hslow
    · omega
    · -- only behind a multiple of five
      rw [not_or, not_not] at hkeep
      obtain ⟨hpos, k, rfl⟩ := hkeep
      omega
    · omega
    · omega

/-- The timestamp of the block at a position. -/
def timeAt (chain : List Block) (i : ℕ) : UInt64 :=
  (chain[i]?.map fun b => b.info.timestamp).getD 0

theorem timeAt_of_getElem? {chain : List Block} {i : ℕ} {b : Block} (h : chain[i]? = some b) :
    timeAt chain i = b.info.timestamp := by
  rw [timeAt, h]
  rfl

/-! ### The chain -/

/-- The index of a block is its position. -/
theorem ChainLog.index_eq {chain : List Block} (h : ChainLog E chain) {i : ℕ} {b : Block}
    (hb : chain[i]? = some b) : b.info.index.toNat = i := by
  cases i with
  | zero =>
    rw [← List.head?_eq_getElem?, h.log.head?_eq] at hb
    obtain rfl := Option.some.inj hb
    rfl
  | succ i =>
    have hlen : i + 1 < chain.length := (List.getElem?_eq_some_iff.mp hb).1
    have hprev := List.getElem?_eq_getElem (Nat.lt_of_succ_lt hlen)
    rw [(h.log.getElem hprev hb).index_eq, List.length_take_of_le hlen.le]

/-- Behind the last block of `chain.take (i + 1)` the difficulty goes one step of the
recurrence. -/
theorem ChainLog.toNat_blockchainDifficulty {chain : List Block} (h : ChainLog E chain) {i : ℕ}
    {last : Block} (hlast : chain[i]? = some last)
    (hd : last.info.difficulty.toNat = retarget (timeAt chain) i) :
    (blockchainDifficulty (chain.take (i + 1))).toNat = retarget (timeAt chain) (i + 1) := by
  have hlen : i < chain.length := (List.getElem?_eq_some_iff.mp hlast).1
  have hindex := h.index_eq hlast
  have hget : (chain.take (i + 1)).getLast? = some last := by
    rw [List.getLast?_eq_getElem?, List.length_take_of_le hlen]
    show (chain.take (i + 1))[i]? = some last
    rw [List.getElem?_take_of_lt (Nat.lt_succ_self i), hlast]
  have hzero : last.info.index = 0 ↔ i = 0 := by
    rw [← UInt32.toNat_inj, hindex]
    rfl
  rw [retarget, ← hd]
  by_cases hkeep : i = 0 ∨ ¬ 5 ∣ i
  · have hsame : last.info.index = 0 ∨ last.info.index.toNat % 5 ≠ 0 := by
      rw [hzero, hindex]
      omega
    rw [if_pos hkeep, blockchainDifficulty, blockchainDifficultyWith, hget]
    dsimp only
    rw [if_pos hsame]
  · rw [if_neg hkeep, blockchainDifficulty]
    rw [not_or, not_not] at hkeep
    obtain ⟨hpos, hdvd⟩ := hkeep
    have hfive : 5 ≤ i := Nat.le_of_dvd (Nat.pos_of_ne_zero hpos) hdvd
    have hblock : (chain.take (i + 1))[(chain.take (i + 1)).length - 5]? = chain[i - 4]? := by
      rw [List.length_take_of_le hlen, List.getElem?_take_of_lt (by omega)]
      exact congrArg (chain[·]?) (by omega)
    have hadjusted := List.getElem?_eq_getElem (show i - 4 < chain.length by omega)
    -- the bound keeps the counter from running over
    have hbound : last.info.difficulty.toNat < 2 ^ 32 - 1 := by
      have hle := retarget_le (timeAt chain) i
      have hlt := last.info.index.toNat_lt
      omega
    rw [toNat_blockchainDifficultyWith hget (mt hzero.mp hpos) (by rwa [hindex])
      (by rw [List.length_take_of_le hlen]; omega) (hblock.trans hadjusted) hbound,
      timeAt_of_getElem? hlast, timeAt_of_getElem? hadjusted]
    rfl

/-- The difficulties of a chain that grew by mining. -/
theorem ChainLog.difficulty_eq {chain : List Block} (h : ChainLog E chain) {i : ℕ} {b : Block}
    (hb : chain[i]? = some b) : b.info.difficulty.toNat = retarget (timeAt chain) i := by
  induction i generalizing b with
  | zero =>
    rw [← List.head?_eq_getElem?, h.log.head?_eq] at hb
    obtain rfl := Option.some.inj hb
    rfl
  | succ i ih =>
    have hlen : i + 1 < chain.length := (List.getElem?_eq_some_iff.mp hb).1
    have hprev := List.getElem?_eq_getElem (Nat.lt_of_succ_lt hlen)
    rw [(h.log.getElem hprev hb).difficulty_eq]
    exact h.toNat_blockchainDifficulty hprev (ih hprev)

variable [DecidableEq φ] {cond : Oracle → State κ φ → Command κ φ → Prop}

/-- In every state that clients reach, the difficulties of the chain follow from its timestamps by
the recurrence, and the one at position `i` is at most `(i - 1) / 5`. -/
theorem reached_difficulty {s : State κ φ} (h : Reached E cond s) {i : ℕ} {b : Block}
    (hb : s.blockchain.chain[i]? = some b) :
    b.info.difficulty.toNat = retarget (timeAt s.blockchain.chain) i ∧
      b.info.difficulty.toNat ≤ (i - 1) / 5 := by
  have heq := h.integrity.chain.difficulty_eq hb
  exact ⟨heq, heq ▸ retarget_le _ i⟩

/-- Key 1 mines six blocks in no time. -/
def mineSix : List (Command ℕ ℕ × Oracle) :=
  [.walletCreate (some 1), .mine, .mine, .mine, .mine, .mine, .mine].map
    fun c => (c, sampleOracle)

/-- The difficulty of the sixth block is 1, the most it can be. -/
theorem mineSix_difficulty :
    ∃ s b, run sampleEnv (initialState fun _ => none) mineSix = .ok s ∧
      s.blockchain.chain[6]? = some b ∧ b.info.difficulty = 1 ∧
      b.info.difficulty.toNat = retarget (timeAt s.blockchain.chain) 6 ∧
      b.info.difficulty.toNat ≤ (6 - 1) / 5 := by
  have hchecked : ((checkedRun sampleEnv [] (initialState fun _ => none) mineSix).map fun s =>
      s.blockchain.chain[6]?.map fun b => b.info.difficulty) = some (some 1) := by
    decide +kernel
  obtain ⟨s, hs, hlast⟩ := Option.map_eq_some_iff.mp hchecked
  obtain ⟨b, hb, hone⟩ := Option.map_eq_some_iff.mp hlast
  obtain ⟨hrun, hloads, hshort⟩ := checkedRun_eq_some sampleEnv hs
  have hreached : Reached sampleEnv (fun _ _ _ => True) s :=
    run_reached (.start _) hrun hloads hshort (stepsMeet_true _ _ _) (by simp)
  exact ⟨s, b, hrun, hb, hone, reached_difficulty hreached hb⟩

end HolbertonChain
