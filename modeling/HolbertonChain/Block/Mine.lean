import HolbertonChain.Block.Difficulty
import HolbertonChain.Block.Hash

/-!
# Proof of work (`block_mine.c`)
-/

namespace HolbertonChain

variable {κ : Type} (E : Env κ)

/-- A block with another nonce. -/
def Block.withNonce (b : Block) (nonce : UInt64) : Block :=
  { b with info := { b.info with nonce } }

/-- The array `hash` of `block_mine` behind the call of `block_hash`, whose result is not looked at:
where it is `NULL`, the array was never written. -/
def mineHash (block : Block) : Exec Digest := do
  match ← blockHash E block with
  | none => throw .uninitialised
  | some hash => pure hash

/-- The loop of `block_mine` from a given nonce on.  After `2 ^ 64` rounds every nonce has failed
and the loop starts over, so it never ends. -/
def blockMineLoop (block : Block) : ℕ → UInt64 → Exec Block
  | 0, _ => throw .diverges
  | rounds + 1, nonce => do
    let hash ← mineHash E (block.withNonce nonce)
    if ← hashMatchesDifficulty hash block.info.difficulty then
      pure { block.withNonce nonce with hash }
    else
      blockMineLoop block rounds (nonce + 1)

/-- `block_mine` -/
def blockMine (block : Block) : Exec Block := blockMineLoop E block (2 ^ 64) 0

/-! ### First properties -/

theorem mineHash_eq_ok_iff {block : Block} {hash : Digest} :
    mineHash E block = .ok hash ↔ blockHash E block = .ok (some hash) := by
  rw [mineHash, Except.bind_eq_ok_iff]
  constructor
  · rintro ⟨r, hr, h⟩
    cases r with
    | none => cases h
    | some hash' => rw [hr, Except.ok.inj h]
  · intro h
    exact ⟨some hash, h, rfl⟩

/-- What the loop returns is the block with some nonce and the hash it then has, which meets the
difficulty. -/
theorem blockMineLoop_eq_ok {block b : Block} {rounds : ℕ} {nonce : UInt64}
    (h : blockMineLoop E block rounds nonce = .ok b) :
    ∃ found, blockHash E (block.withNonce found) = .ok (some b.hash) ∧
      hashMatchesDifficulty b.hash block.info.difficulty = .ok true ∧
      b = { block.withNonce found with hash := b.hash } := by
  induction rounds generalizing nonce with
  | zero => cases h
  | succ rounds ih =>
    rw [blockMineLoop] at h
    obtain ⟨hash, hhash, h⟩ := Except.bind_eq_ok_iff.mp h
    obtain ⟨found, hfound, h⟩ := Except.bind_eq_ok_iff.mp h
    cases found with
    | false => exact ih h
    | true =>
      -- the loop ends here
      obtain rfl := Except.ok.inj h
      exact ⟨nonce, (mineHash_eq_ok_iff E).mp hhash, hfound, rfl⟩

/-- A mined block differs from the block it was mined from in nothing but the nonce and the hash. -/
theorem blockMine_eq_ok {block b : Block} (h : blockMine E block = .ok b) :
    b.info.index = block.info.index ∧ b.info.difficulty = block.info.difficulty ∧
      b.info.timestamp = block.info.timestamp ∧ b.info.prevHash = block.info.prevHash ∧
      b.data = block.data ∧ b.transactions = block.transactions ∧
      blockHash E b = .ok (some b.hash) ∧
      hashMatchesDifficulty b.hash b.info.difficulty = .ok true := by
  obtain ⟨found, hhash, hdifficulty, hb⟩ := blockMineLoop_eq_ok E h
  have hself : blockHash E b = blockHash E (block.withNonce found) := by
    rw [hb]
    rfl
  rw [hself]
  rw [hb] at hdifficulty ⊢
  exact ⟨rfl, rfl, rfl, rfl, rfl, rfl, hb ▸ hhash, hdifficulty⟩

end HolbertonChain
