import HolbertonChain.Cli.State
import HolbertonChain.Lib.Sha256
import HolbertonChain.Transaction.Hash
import Mathlib.Data.List.Sort

/-!
# A machine to compute on

`sampleEnv` is a little-endian machine with the real SHA-256, so that hashes of concrete blocks and
transactions come out as the program computes them.  The curve is replaced by a signature scheme
that can be evaluated: a key is a number, its point has that number as second byte, and a signature
is the number followed by the message.  What one signs, it verifies, and under no other key.  The
list library sorts in descending order and keeps that of equal elements.

`reward` and `spendRewards` are coins and transactions on it.
-/

namespace HolbertonChain

open Bytes

/-- The public key of the key `k`. -/
def samplePub (k : ℕ) : Pub := ofList 65 [4, UInt8.ofNat k]

/-- The signature of a message by the key `k`. -/
def sampleSignature (k : ℕ) (msg : Digest) : DerSignature :=
  ⟨UInt8.ofNat k :: msg.toList, by simp⟩

/-- A machine on which everything can be evaluated. -/
def sampleEnv : Env ℕ where
  host := .little
  sha256 := Sha256.sha256
  point2oct k := some (samplePub k).toList
  oct2point pub := some ((pub.toList.getD 1 0).toNat)
  checkKey _ := true
  ecdsaSign k msg _ := some (sampleSignature k msg)
  ecdsaVerify k msg sig := sig.sig.toList.take sig.len.toNat == (sampleSignature k msg).1
  llistSort cmp l := l.insertionSort fun u v => 0 ≤ cmp u v

/-- The sort of `sampleEnv` only reorders. -/
theorem sampleEnv_llistSort_perm (cmp : UnspentTxOut → UnspentTxOut → ℤ) (l : List UnspentTxOut) :
    (sampleEnv.llistSort cmp l).Perm l :=
  List.perm_insertionSort _ l

/-- What the machine supplies to the commands of a sample run. -/
def sampleOracle : Oracle where
  time := 1600000000
  rnd _ := 0
  hashBuff := zero 32
  stack _ := zero 32
  pubBuff := zero 65
  junk _ := 0

/-! ### Coins -/

/-- The output of `amount` to the key `k`. -/
def sampleOut (amount : UInt32) (k : ℕ) : TxOut where
  amount := amount
  pub := samplePub k
  hash := outHash sampleEnv amount (samplePub k)

/-- The output of a coinbase transaction for key 1, in the block and transaction numbered `n`. -/
def reward (n : UInt8) : UnspentTxOut where
  blockHash := ofList 32 [n]
  txId := ofList 32 [n]
  out := sampleOut 50 1

/-- A transaction that spends rewards of key 1, with its ID and signatures. -/
def spendRewards (rewards : List UnspentTxOut) (outs : List TxOut) : Transaction :=
  let unsigned : Transaction :=
    { id := zero 32, inputs := rewards.map txInCreate, outputs := outs }
  let id := sampleEnv.sha256 (transactionPreimage unsigned)
  { id
    inputs := unsigned.inputs.map fun i =>
      { i with sig := { sig := ofList 72 (sampleSignature 1 id).1, len := 33 } }
    outputs := outs }

end HolbertonChain
