import HolbertonChain.Blockchain.Serialize
import HolbertonChain.Lib.FillBuffer

/-!
# The buffers of the two hash functions (`transaction_hash.c`, `block_hash.c`)

`transaction_hash` and `block_hash` once more, with what the functions of the same names elsewhere
leave out: the buffer itself, and the cursor that the functions called by `llist_for_each` move
through it.  A copy that leaves the buffer is a fault, and an `int` wraps around, also in
`transaction_hash`, where its overflow is a fault elsewhere.
-/

namespace HolbertonChain.HashBuffer

open FillBuffer

variable {κ : Type} (E : Env κ)

/-! ### Library calls -/

/-- `llist_for_each`: `action` is called with each node in turn and its index, until it returns
something else than 0. -/
def llistForEach {α σ : Type} (action : α → ℕ → σ → Exec (ℤ × σ)) : ℕ → List α → σ → Exec σ
  | _, [], arg => pure arg
  | idx, node :: nodes, arg => do
    let (code, arg) ← action node idx arg
    if code ≠ 0 then pure arg else llistForEach action (idx + 1) nodes arg

/-- `calloc(1, size)`: no object is larger than `PTRDIFF_MAX`. -/
def calloc (size : ℕ) : Option (Cursor UInt8) :=
  if size < 2 ^ 63 then some (Cursor.start (List.replicate size 0)) else none

/-- `memcpy` to the cursor -/
def memcpy (dest : Cursor UInt8) (src : List UInt8) : Exec (Cursor UInt8) :=
  match dest.copy src with
  | none => throw .outOfBounds
  | some dest => pure dest

/-- `+=` on the cursor -/
def advance (dest : Cursor UInt8) (n : ℕ) : Exec (Cursor UInt8) :=
  match dest.advance n with
  | none => throw .outOfBounds
  | some dest => pure dest

/-- What a hash function has computed: the size of its buffer, where the cursor was left, and the
digest of the buffer. -/
structure HashRun where
  size : ℕ
  pos : ℕ
  digest : Digest
  deriving DecidableEq

/-! ### The transaction hash -/

/-- `inputs` -/
def inputs (transactionInput : TxIn) (_idx : ℕ) (destinationBuffer : Cursor UInt8) :
    Exec (ℤ × Cursor UInt8) := do
  let destinationBuffer ← memcpy destinationBuffer ((txInImage transactionInput).take (32 * 3))
  let destinationBuffer ← advance destinationBuffer (32 * 3)
  pure (0, destinationBuffer)

/-- `outputs` -/
def outputs (transactionOutput : TxOut) (_idx : ℕ) (destinationBuffer : Cursor UInt8) :
    Exec (ℤ × Cursor UInt8) := do
  let destinationBuffer ← memcpy destinationBuffer transactionOutput.hash.toList
  let destinationBuffer ← advance destinationBuffer 32
  pure (0, destinationBuffer)

/-- The `int` that `transaction_hash` assigns to `buffer_size`. -/
def wrappedSize (t : Transaction) : Int32 :=
  32 * 3 * llistSize t.inputs + 32 * llistSize t.outputs

/-- `transaction_hash`; `none` is `NULL`. -/
def transactionHash (t : Transaction) : Exec (Option HashRun) :=
  let bufferSize := (wrappedSize t).toInt
  if bufferSize ≤ 0 then pure none
  else
    match calloc bufferSize.toNat with
    | none => pure none
    | some temporaryBuffer => do
      let current ← llistForEach inputs 0 t.inputs temporaryBuffer
      let current ← llistForEach outputs 0 t.outputs current
      pure (some
        { size := bufferSize.toNat, pos := current.pos, digest := E.sha256 current.buffer })

/-- The digest that `transaction_hash` returns. -/
def txHash (t : Transaction) : Exec (Option Digest) :=
  (transactionHash E t).map (Option.map HashRun.digest)

/-! ### The block hash -/

/-- `hash_transaction_ids` -/
def hashTransactionIds (node : Transaction) (_idx : ℕ) (arg : Cursor UInt8) :
    Exec (ℤ × Cursor UInt8) := do
  let arg ← memcpy arg node.id.toList
  let arg ← advance arg 32
  pure (0, arg)

/-- `block_hash`; `none` is `NULL`.  The first `memcpy` reads on behind the header into the data of
the block. -/
def blockHash (block : Block) : Exec (Option HashRun) :=
  let len0 := (56 + block.data.len.toUInt64).toNat
  let len := (wrappedLen block).toNat
  match calloc len with
  | none => pure none
  | some buffer =>
    if 1024 < block.data.len.toNat then throw .outOfBounds
    else do
      let buffer ←
        memcpy buffer ((infoBytes E block.info ++ block.data.buffer.toList).take len0)
      let buffer ← advance buffer len0
      let buffer ← llistForEach hashTransactionIds 0 block.txs buffer
      pure (some { size := len, pos := buffer.pos, digest := E.sha256 buffer.buffer })

end HolbertonChain.HashBuffer
