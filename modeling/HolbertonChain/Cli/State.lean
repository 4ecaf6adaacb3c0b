import HolbertonChain.Crypto

/-!
# The state of the command line client (`cli.h`)

`State` is `state_t` and the files on disk; a file is named by its identity `φ`, so that two paths
to one file are one name.  `Oracle` is what the machine supplies while one command runs: the clock,
the nonces of signatures, and what uninitialised memory holds.
-/

namespace HolbertonChain

/-- `state_t`, without `status`, which no command reads; `none` is the `NULL` wallet. -/
structure State (κ φ : Type) where
  wallet : Option κ
  blockchain : Blockchain
  txPool : List Transaction
  files : φ → Option (List UInt8)

/-- What the machine supplies to one command. -/
structure Oracle where
  /-- `time(NULL)` -/
  time : UInt64
  /-- the nonce ECDSA draws for the signature of the input at an index -/
  rnd : ℕ → ℕ
  /-- `hash_buff` in the calls of `transaction_is_valid` made outside block validation -/
  hashBuff : Digest
  /-- `hash_buff` in the calls made by `validate_transactions`, by index -/
  stack : ℕ → Digest
  /-- an array `pub` that a failed `ec_to_pub` left unwritten -/
  pubBuff : Pub
  /-- the memory that short reads of a file leave unwritten -/
  junk : ℕ → UInt8

/-- The return value of a handler and the messages it prints; `%s` in a message stands for the word
of the line that it repeats. -/
structure Reply where
  ret : ℤ
  out : List String
  deriving DecidableEq

/-- The state `main` builds, with the files there are. -/
def initialState {κ φ : Type} (files : φ → Option (List UInt8)) : State κ φ where
  wallet := none
  blockchain := blockchainCreate
  txPool := []
  files := files

end HolbertonChain
