import HolbertonChain.Block.Difficulty
import Mathlib.Tactic.Ring

/-!
# The rule for the difficulty and what is computed for it

The rule compares twice the time that passed with the time that was expected, and the time that
passed with twice the expected one (`adjusted`).  `blockchain_difficulty` halves the expected time
instead, and takes the time that passed as the difference of two `uint64_t`.  So it departs from the
rule where the clock went back, and where the expected time is odd and half of it, rounded down, has
passed (`meetsRule_iff`); intervals whose product or its double does not fit its type bring in the
product that is computed instead (`AdjustsExactly`).
-/

namespace HolbertonChain

/-! ### The rule -/

/-- The difficulty `d`, raised where less than half of the expected time passed, and lowered where
more than twice of it did. -/
def adjusted (expected : ℕ) (elapsed : ℤ) (d : ℕ) : ℕ :=
  if 2 * elapsed < expected then d + 1
  else if 2 * (expected : ℤ) < elapsed then d - 1
  else d

/-- The time from a block to a later one, which is negative where the clock went back. -/
def elapsed (block last : Block) : ℤ :=
  (last.info.timestamp.toNat : ℤ) - block.info.timestamp.toNat

/-- The difficulty of the next block of a chain with the given last block is that of the last block,
or, at a multiple of the adjustment interval, that of the last block adjusted by the time from the
block at position `chain.length - A` on. -/
def MeetsRule (A G : ℕ) (chain : List Block) (last : Block) : Prop :=
  (last.info.index = 0 ∨ ¬ A ∣ last.info.index.toNat →
    blockchainDifficultyWith A G chain = last.info.difficulty) ∧
  (last.info.index ≠ 0 → A ∣ last.info.index.toNat →
    ∃ block, chain[chain.length - A]? = some block ∧
      (blockchainDifficultyWith A G chain).toNat =
        adjusted (A * G) (elapsed block last) last.info.difficulty.toNat)

/-! ### What is computed -/

/-- The difference of two `uint64_t` as an integer. -/
theorem toNat_timestamp_sub (block last : Block) :
    ((last.info.timestamp - block.info.timestamp).toNat : ℤ) =
      if 0 ≤ elapsed block last then elapsed block last else 2 ^ 64 + elapsed block last := by
  have h1 := last.info.timestamp.toNat_lt
  have h2 := block.info.timestamp.toNat_lt
  rw [UInt64.toNat_sub]
  unfold elapsed
  split_ifs <;> omega

/-- The adjustment as it is computed, on the numbers that the integers hold. -/
theorem toNat_blockchainDifficultyWith {A G : ℕ} {chain : List Block} {last block : Block}
    (hlast : chain.getLast? = some last) (hzero : last.info.index ≠ 0)
    (hdvd : A ∣ last.info.index.toNat) (hlen : A ≤ chain.length)
    (hblock : chain[chain.length - A]? = some block)
    (hd : last.info.difficulty.toNat < 2 ^ 32 - 1) :
    (blockchainDifficultyWith A G chain).toNat =
      if (last.info.timestamp - block.info.timestamp).toNat < (constantProduct A G).toNat / 2 then
        last.info.difficulty.toNat + 1
      else if 2 * (constantProduct A G).toNat % 2 ^ 64 <
          (last.info.timestamp - block.info.timestamp).toNat then
        last.info.difficulty.toNat - 1
      else last.info.difficulty.toNat := by
  have hmod : last.info.index.toNat % A = 0 := Nat.mod_eq_zero_of_dvd hdvd
  have hhalf : (constantProduct A G / 2).toNat = (constantProduct A G).toNat / 2 :=
    UInt64.toNat_div _ _
  have htwice : (constantProduct A G * 2).toNat = 2 * (constantProduct A G).toNat % 2 ^ 64 := by
    rw [UInt64.toNat_mul, Nat.mul_comm]
    rfl
  unfold blockchainDifficultyWith
  simp only [hlast, hzero, hmod, hblock, not_true_eq_false, ne_eq, or_self, if_false,
    if_neg (Nat.not_lt.mpr hlen), UInt64.lt_iff_toNat_lt, hhalf, gt_iff_lt, htwice]
  split_ifs with h1 h2 h3
  · rw [UInt32.toNat_add, show (1 : UInt32).toNat = 1 from rfl]
    exact Nat.mod_eq_of_lt (by omega)
  · rw [UInt32.toNat_sub_of_le _ _ (by rw [UInt32.le_iff_toNat_le]; exact h3)]
    rfl
  · have hz : last.info.difficulty = 0 := by
      rw [UInt32.lt_iff_toNat_lt, Nat.not_lt] at h3
      exact UInt32.toNat_inj.mp (Nat.le_zero.mp h3)
    rw [hz]
    rfl
  · rfl

/-! ### Where the two agree -/

/-- Neither the product that is computed for the expected time, halved or doubled, nor the
difference of the timestamps, changes which way the difficulty goes: a clock that went back would
have to give a difference below the halved product, the halved product must not be rounded onto the
time that passed or lie above it where the rule does not raise the difficulty, and the doubled
product must lie on the side of it where twice the expected time does. -/
structure AdjustsExactly (expected product : ℕ) (elapsed : ℤ) (d : ℕ) : Prop where
  back : elapsed < 0 → 2 ^ 64 + elapsed < ((product / 2 : ℕ) : ℤ)
  half : 0 ≤ elapsed → (2 * elapsed < expected ↔ elapsed < ((product / 2 : ℕ) : ℤ))
  twice : (expected : ℤ) ≤ 2 * elapsed →
    d = 0 ∨ (2 * (expected : ℤ) < elapsed ↔ ((2 * product % 2 ^ 64 : ℕ) : ℤ) < elapsed)

/-- On intervals whose product is the expected time and fits 63 bits, the clock did not go back and
the time that passed is not the rounded half of the expected time; or the clock went back by nearly
`2 ^ 64`. -/
theorem adjustsExactly_iff_of_lt {expected : ℕ} (h : expected < 2 ^ 63) (elapsed : ℤ) (d : ℕ) :
    AdjustsExactly expected expected elapsed d ↔
      (0 ≤ elapsed ∧ 2 * elapsed + 1 ≠ expected) ∨
        (elapsed < 0 ∧ 2 ^ 64 + elapsed < ((expected / 2 : ℕ) : ℤ)) := by
  have htwice : 2 * expected % 2 ^ 64 = 2 * expected := Nat.mod_eq_of_lt (by omega)
  constructor
  · rintro ⟨hback, hhalf, -⟩
    omega
  · intro hcases
    refine ⟨fun hneg => ?_, fun hpos => ?_, fun hle => Or.inr ?_⟩
    · omega
    · omega
    · rw [htwice]
      push_cast
      rfl

theorem adjustsExactly_iff_of_fits {A G : ℕ} (h : ProductFits A G) (elapsed : ℤ) (d : ℕ) :
    AdjustsExactly (A * G) (constantProduct A G).toNat elapsed d ↔
      (0 ≤ elapsed ∧ 2 * elapsed + 1 ≠ (A * G : ℕ)) ∨
        (elapsed < 0 ∧ 2 ^ 64 + elapsed < ((A * G / 2 : ℕ) : ℤ)) := by
  obtain ⟨hproduct, hlt⟩ := toNat_constantProduct_of_fits h
  rw [hproduct]
  exact adjustsExactly_iff_of_lt hlt elapsed d

/-- The computed direction is the one of the rule exactly under `AdjustsExactly`. -/
theorem computed_eq_adjusted_iff {expected product d : ℕ} {e : ℤ} {wrapped : ℕ}
    (hwrapped : (wrapped : ℤ) = if 0 ≤ e then e else 2 ^ 64 + e) (hlt : wrapped < 2 ^ 64) :
    (if wrapped < product / 2 then d + 1
      else if 2 * product % 2 ^ 64 < wrapped then d - 1 else d) = adjusted expected e d ↔
      AdjustsExactly expected product e d := by
  unfold adjusted
  constructor
  · intro heq
    refine ⟨fun hneg => ?_, fun hpos => ?_, fun hle => ?_⟩
    · -- the rule raises the difficulty, so this is what must have been computed
      rw [if_neg (by omega)] at hwrapped
      rw [if_pos (show 2 * e < expected by omega)] at heq
      split_ifs at heq <;> omega
    · rw [if_pos hpos] at hwrapped
      split_ifs at heq <;> omega
    · have hpos : 0 ≤ e := by omega
      rw [if_pos hpos] at hwrapped
      rw [if_neg (show ¬ 2 * e < expected by omega)] at heq
      split_ifs at heq <;> omega
  · rintro ⟨hback, hhalf, htwice⟩
    by_cases hneg : e < 0
    · have hup := hback hneg
      rw [if_neg (by omega)] at hwrapped
      rw [if_pos (show 2 * e < expected by omega), if_pos (by omega)]
    · rw [if_pos (by omega)] at hwrapped
      have hup := hhalf (by omega)
      by_cases hfast : 2 * e < expected
      · rw [if_pos hfast, if_pos (by omega)]
      · have hslow := htwice (by omega)
        rw [if_neg hfast, if_neg (by omega)]
        split_ifs <;> omega

/-- The last block of a chain whose blocks carry their positions as indices. -/
theorem index_eq_of_getLast? {chain : List Block} {last : Block}
    (hindex : ∀ (i : ℕ) (b : Block), chain[i]? = some b → b.info.index.toNat = i)
    (hlast : chain.getLast? = some last) : last.info.index.toNat + 1 = chain.length := by
  rw [List.getLast?_eq_getElem?] at hlast
  have hlt := (List.getElem?_eq_some_iff.mp hlast).1
  rw [hindex _ _ hlast]
  omega

/-- The difficulty of the next block of a chain whose blocks carry their positions as indices
follows the rule if and only if, where it is adjusted, the computation is exact. -/
theorem meetsRule_iff {A G : ℕ} (hA : 0 < A) {chain : List Block} {last : Block}
    (hindex : ∀ (i : ℕ) (b : Block), chain[i]? = some b → b.info.index.toNat = i)
    (hlast : chain.getLast? = some last) (hd : last.info.difficulty.toNat < 2 ^ 32 - 1) :
    MeetsRule A G chain last ↔
      (last.info.index ≠ 0 → A ∣ last.info.index.toNat →
        ∀ block, chain[chain.length - A]? = some block →
          AdjustsExactly (A * G) (constantProduct A G).toNat (elapsed block last)
            last.info.difficulty.toNat) := by
  have hlen := index_eq_of_getLast? hindex hlast
  have hcode : ∀ block, last.info.index ≠ 0 → A ∣ last.info.index.toNat →
      chain[chain.length - A]? = some block →
      ((blockchainDifficultyWith A G chain).toNat =
          adjusted (A * G) (elapsed block last) last.info.difficulty.toNat ↔
        AdjustsExactly (A * G) (constantProduct A G).toNat (elapsed block last)
          last.info.difficulty.toNat) := by
    intro block hzero hdvd hblock
    have hpos : 0 < last.info.index.toNat := by
      rw [Nat.pos_iff_ne_zero]
      exact fun h0 => hzero (UInt32.toNat_inj.mp h0)
    have hle := Nat.le_of_dvd hpos hdvd
    rw [toNat_blockchainDifficultyWith hlast hzero hdvd (by omega) hblock hd]
    exact computed_eq_adjusted_iff (toNat_timestamp_sub block last) (UInt64.toNat_lt _)
  constructor
  · rintro ⟨-, hrule⟩ hzero hdvd block hblock
    obtain ⟨block', hblock', heq⟩ := hrule hzero hdvd
    obtain rfl := Option.some.inj (hblock'.symm.trans hblock)
    exact (hcode block' hzero hdvd hblock).mp heq
  · intro hexact
    refine ⟨fun hkeep => ?_, fun hzero hdvd => ?_⟩
    · have hcond : last.info.index = 0 ∨ last.info.index.toNat % A ≠ 0 :=
        hkeep.imp_right fun hdvd hmod => hdvd (Nat.dvd_of_mod_eq_zero hmod)
      unfold blockchainDifficultyWith
      rw [hlast]
      dsimp only
      rw [if_pos hcond]
    · have hlt : chain.length - A < chain.length := by omega
      have hblock := List.getElem?_eq_getElem hlt
      exact ⟨_, hblock, (hcode _ hzero hdvd hblock).mpr (hexact hzero hdvd _ hblock)⟩

/-! ### Six blocks -/

/-- A block with the given index and timestamp. -/
def timedBlock (index : ℕ) (timestamp : UInt64) : Block :=
  { genesisBlock with
    info := { genesisBlock.info with index := UInt32.ofNat index, timestamp } }

/-- A chain of six blocks, the last of which came `time` after the block at position 1. -/
def sixBlocks (time : UInt64) : List Block :=
  [timedBlock 0 100, timedBlock 1 100, timedBlock 2 100, timedBlock 3 100, timedBlock 4 100,
    timedBlock 5 (100 + time)]

theorem index_sixBlocks (time : UInt64) (i : ℕ) (b : Block) (hb : (sixBlocks time)[i]? = some b) :
    b.info.index.toNat = i := by
  have hlt : i < 6 := (List.getElem?_eq_some_iff.mp hb).1
  rcases i with _ | _ | _ | _ | _ | _ | i
  all_goals first | omega | (obtain rfl := Option.some.inj hb; rfl)

/-- Five units of time for five blocks leave the difficulty as it is. -/
theorem sixBlocks_meetsRule : MeetsRule 5 1 (sixBlocks 5) (timedBlock 5 105) :=
  (meetsRule_iff (by decide) (index_sixBlocks 5) rfl (by decide)).mpr fun _ _ block hblock => by
    obtain rfl := Option.some.inj (show some (timedBlock 1 100) = some block from hblock)
    exact (adjustsExactly_iff_of_fits (by decide) _ _).mpr (Or.inl (by decide))

/-- Two units of time are less than half of five, and do not raise the difficulty. -/
theorem not_meetsRule :
    ¬ ∀ (chain : List Block) (last : Block),
      (∀ (i : ℕ) (b : Block), chain[i]? = some b → b.info.index.toNat = i) →
      chain.getLast? = some last → last.info.difficulty.toNat < 2 ^ 32 - 1 →
      MeetsRule 5 1 chain last := by
  intro h
  have hrule := h (sixBlocks 2) (timedBlock 5 102) (index_sixBlocks 2) rfl (by decide)
  obtain ⟨block, hblock, heq⟩ := hrule.2 (by decide) (by decide)
  obtain rfl := Option.some.inj (show some (timedBlock 1 100) = some block from hblock)
  revert heq
  decide

end HolbertonChain
