import HolbertonChain.Block.Validity

/-!
# Blocks that extend a block

`extend` puts a block of difficulty zero on a block `p`: the hash needs no work, the coinbase pays
no one in particular (`anyCoinbase`), and behind it stand transactions of one's own choice.
`block_is_valid` accepts it whenever it accepts the transactions one by one
(`extend_isValid`).
-/

namespace HolbertonChain

open Bytes

variable {κ : Type} (E : Env κ)

/-- A coinbase transaction whose output names no key and carries no hash. -/
def anyCoinbase (blockIndex : UInt32) : Transaction :=
  coinbaseWith E blockIndex { amount := coinbaseAmount, pub := zero 65, hash := zero 32 }

/-- A block on `p` with the given data and transactions, without its hash. -/
def unsealed (p : Block) (data : BlockData) (ts : List Transaction) : Block where
  info :=
    { index := p.info.index + 1, difficulty := 0, timestamp := 0, nonce := 0, prevHash := p.hash }
  data := data
  transactions := some (anyCoinbase E (p.info.index + 1) :: ts)
  hash := zero 32

/-- A block on `p` with the given data and transactions. -/
def extend (p : Block) (data : BlockData) (ts : List Transaction) : Block :=
  { unsealed E p data ts with hash := E.sha256 (blockPreimage E (unsealed E p data ts)) }

@[simp] theorem txs_extend (p : Block) (data : BlockData) (ts : List Transaction) :
    (extend E p data ts).txs = anyCoinbase E (p.info.index + 1) :: ts := rfl

/-- The hash is that of the block itself, since it is not among the bytes hashed. -/
theorem hash_extend (p : Block) (data : BlockData) (ts : List Transaction) :
    (extend E p data ts).hash = E.sha256 (blockPreimage E (extend E p data ts)) := rfl

/-- A block that extends `p` is accepted if each of its transactions is. -/
theorem extend_isValid {p : Block} {data : BlockData} {ts : List Transaction}
    {stack : ℕ → Digest} {U : List UnspentTxOut} (hp : blockHash E p = .ok (some p.hash))
    (hindex : p.info.index + 1 ≠ 0) (hdata : data.len.toNat ≤ 1024)
    (hsize : (ts.length + 1) * 32 ≤ intMax)
    (hts : ∀ k t, ts[k]? = some t → transactionIsValid E (stack (1 + k)) t U = .ok true) :
    blockIsValid E stack (extend E p data ts) (some p) U = .ok 0 := by
  rw [blockIsValid_eq_zero_iff]
  refine Or.inr ⟨p, rfl, hindex, rfl, hp, rfl, ?_, hdata, hashMatchesDifficulty_zero _, ?_⟩
  · -- the stored hash is not among the bytes hashed
    rw [blockHash_eq_ok_some_iff]
    exact ⟨hdata, by simpa using hsize, rfl⟩
  · rw [validateTransactions_eq_true_iff]
    exact ⟨_, ts, rfl, coinbaseWith_isValid E _ rfl, hts⟩

end HolbertonChain
