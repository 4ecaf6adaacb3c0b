import HolbertonChain.Block.Equiv.Extend
import HolbertonChain.Sample

/-!
# Chains that are valid block by block

`block_is_valid` compares a block with the one in front of it, and a block of index 0 with the
genesis block only, whatever stands in front.  So a chain each of whose blocks is accepted behind
the one before is made of stretches that each start with the genesis block; it is one such stretch
exactly when no block behind the first has index 0 (`wellFormed_iff`).
-/

namespace HolbertonChain

open Bytes

variable {κ : Type} (E : Env κ)

/-- Every block is accepted behind the one in front of it, and the first one behind none, each
against its own list of unspent outputs. -/
structure PairwiseValid (stack : ℕ → ℕ → Digest) (U : ℕ → List UnspentTxOut)
    (chain : List Block) : Prop where
  first : ∀ b, chain[0]? = some b → blockIsValid E (stack 0) b none (U 0) = .ok 0
  next : ∀ i prev b, chain[i]? = some prev → chain[i + 1]? = some b →
    blockIsValid E (stack (i + 1)) b (some prev) (U (i + 1)) = .ok 0

/-- The chain starts with the genesis block, its indices count up, each block carries the hash of
the one in front, and, apart from the genesis block, its own. -/
structure WellFormed (chain : List Block) : Prop where
  genesis : chain[0]? = some genesisBlock
  index_eq : ∀ (i : ℕ) (b : Block), chain[i]? = some b → b.info.index.toNat = i
  prevHash_eq : ∀ (i : ℕ) (prev b : Block), chain[i]? = some prev → chain[i + 1]? = some b →
    b.info.prevHash = prev.hash
  hash_eq : ∀ b ∈ chain, b ≠ genesisBlock → blockHash E b = .ok (some b.hash)

variable {E} {stack : ℕ → ℕ → Digest} {U : ℕ → List UnspentTxOut} {chain : List Block}

/-- A block behind another one is the genesis block, or passes every check against it. -/
theorem PairwiseValid.cases_next (h : PairwiseValid E stack U chain) {i : ℕ} {prev b : Block}
    (hprev : chain[i]? = some prev) (hb : chain[i + 1]? = some b) :
    b = genesisBlock ∨ IsNext E (stack (i + 1)) b prev (U (i + 1)) := by
  rcases (blockIsValid_eq_zero_iff E).mp (h.next i prev b hprev hb) with rfl | ⟨p, hp, hnext⟩
  · exact Or.inl rfl
  · obtain rfl := Option.some.inj hp
    exact Or.inr hnext

/-- The first block is the genesis block. -/
theorem PairwiseValid.genesis (h : PairwiseValid E stack U chain) (hne : chain ≠ []) :
    chain[0]? = some genesisBlock := by
  obtain ⟨b, rest, rfl⟩ := List.exists_cons_of_ne_nil hne
  rcases (blockIsValid_eq_zero_iff E).mp (h.first b rfl) with rfl | ⟨p, hp, -⟩
  · rfl
  · cases hp

/-- Behind the first block without a block of index 0, every block passes every check. -/
theorem PairwiseValid.isNext (h : PairwiseValid E stack U chain)
    (hzero : ∀ b ∈ chain.tail, b.info.index ≠ 0) {i : ℕ} {prev b : Block}
    (hprev : chain[i]? = some prev) (hb : chain[i + 1]? = some b) :
    IsNext E (stack (i + 1)) b prev (U (i + 1)) := by
  rcases h.cases_next hprev hb with rfl | hnext
  · have hmem : genesisBlock ∈ chain.tail :=
      List.mem_of_getElem? (i := i) (by rw [List.getElem?_tail]; exact hb)
    exact absurd rfl (hzero _ hmem)
  · exact hnext

/-- The indices count up, where no block behind the first has index 0. -/
theorem PairwiseValid.index_eq (h : PairwiseValid E stack U chain) (hlen : chain.length ≤ 2 ^ 32)
    (hzero : ∀ b ∈ chain.tail, b.info.index ≠ 0) {i : ℕ} {b : Block} (hb : chain[i]? = some b) :
    b.info.index.toNat = i := by
  have hlt : i < chain.length := (List.getElem?_eq_some_iff.mp hb).1
  have hne : chain ≠ [] := List.ne_nil_of_length_pos (by omega)
  -- along the chain: the index is that of the block in front, plus 1
  induction i generalizing b with
  | zero =>
    obtain rfl := Option.some.inj ((h.genesis hne).symm.trans hb)
    rfl
  | succ i ih =>
    obtain ⟨prev, hprev⟩ : ∃ prev, chain[i]? = some prev :=
      ⟨_, List.getElem?_eq_getElem (Nat.lt_of_succ_lt hlt)⟩
    have hindex := (h.isNext hzero hprev hb).index_eq
    have hih := ih hprev (by omega)
    rw [hindex, UInt32.toNat_add, hih, show (1 : UInt32).toNat = 1 from rfl]
    exact Nat.mod_eq_of_lt (by omega)

/-- A chain that is valid block by block is well formed if and only if no block behind the first
has index 0. -/
theorem wellFormed_iff (hne : chain ≠ []) (hlen : chain.length ≤ 2 ^ 32)
    (h : PairwiseValid E stack U chain) :
    WellFormed E chain ↔ ∀ b ∈ chain.tail, b.info.index ≠ 0 := by
  constructor
  · intro hwell b hb hindex
    obtain ⟨i, hi⟩ := List.getElem?_of_mem hb
    rw [List.getElem?_tail] at hi
    have hsucc := hwell.index_eq (i + 1) b hi
    rw [hindex] at hsucc
    exact absurd hsucc.symm (Nat.succ_ne_zero i)
  · intro hzero
    refine ⟨h.genesis hne, fun i b hb => h.index_eq hlen hzero hb, ?_, ?_⟩
    · intro i prev b hprev hb
      exact (h.isNext hzero hprev hb).prevHash_eq
    · intro b hb hgenesis
      obtain ⟨i, hi⟩ := List.getElem?_of_mem hb
      cases i with
      | zero => exact absurd (Option.some.inj (hi.symm.trans (h.genesis hne))) hgenesis
      | succ i =>
        have hlt : i + 1 < chain.length := (List.getElem?_eq_some_iff.mp hi).1
        obtain ⟨prev, hprev⟩ : ∃ prev, chain[i]? = some prev :=
          ⟨_, List.getElem?_eq_getElem (Nat.lt_of_succ_lt hlt)⟩
        exact (h.isNext hzero hprev hi).hash_eq

/-! ### Two chains of two blocks -/

/-- The genesis block and a block that extends it. -/
def twoBlocks : List Block :=
  [genesisBlock, extend sampleEnv genesisBlock { buffer := zero 1024, len := 0 } []]

theorem twoBlocks_wellFormed : WellFormed sampleEnv twoBlocks := by
  have hvalid : PairwiseValid sampleEnv (fun _ _ => zero 32) (fun _ => []) twoBlocks :=
    { first := fun b hb => by
        obtain rfl := Option.some.inj hb
        exact (blockIsValid_eq_zero_iff sampleEnv).mpr (Or.inl rfl)
      next := fun i prev b hprev hb => by
        have hi : i = 0 := by
          have hlt := (List.getElem?_eq_some_iff.mp hb).1
          exact Nat.lt_one_iff.mp (Nat.lt_of_succ_lt_succ hlt)
        subst hi
        obtain rfl := Option.some.inj hprev
        obtain rfl := Option.some.inj hb
        exact extend_isValid sampleEnv (by decide +kernel) (by decide) (by decide) (by decide)
          (by simp) }
  exact (wellFormed_iff (by decide) (by decide) hvalid).mpr (by decide)

/-- The genesis block is accepted behind itself. -/
theorem genesisTwice_pairwiseValid :
    PairwiseValid E stack U [genesisBlock, genesisBlock] where
  first b hb := by
    obtain rfl := Option.some.inj hb
    exact (blockIsValid_eq_zero_iff E).mpr (Or.inl rfl)
  next i prev b _ hb := by
    have hmem := List.mem_of_getElem? hb
    have heq : b = genesisBlock := by simpa using hmem
    exact (blockIsValid_eq_zero_iff E).mpr (Or.inl heq)

/-- Validity block by block does not make a chain well formed. -/
theorem not_wellFormed_of_pairwiseValid :
    ¬ ∀ (stack : ℕ → ℕ → Digest) (U : ℕ → List UnspentTxOut) (chain : List Block), chain ≠ [] →
      chain.length ≤ 2 ^ 32 → PairwiseValid sampleEnv stack U chain →
        WellFormed sampleEnv chain := by
  intro h
  have hwell := h (fun _ _ => zero 32) (fun _ => []) [genesisBlock, genesisBlock]
    (by decide) (by decide) genesisTwice_pairwiseValid
  have hindex := hwell.index_eq 1 genesisBlock rfl
  exact absurd hindex (by decide)

end HolbertonChain
