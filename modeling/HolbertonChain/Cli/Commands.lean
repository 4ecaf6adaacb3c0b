import HolbertonChain.Blockchain.Deserialize
import HolbertonChain.Cli.Mine
import HolbertonChain.Cli.Send

/-!
# Commands and runs of the client (`cli.c` and the remaining handlers)

`findCommand` is one command, `run` the loop of `main` over a sequence of them.  What `list`,
`info`, `info_block` and `help` print is left out of their replies.
-/

namespace HolbertonChain

/-- A command line.  `walletCreate` and `walletLoad` carry the key that `ec_create` or `ec_load`
returns, `walletSave` the two files that `ec_save` writes and their contents. -/
inductive Command (κ φ : Type) where
  | walletCreate (created : Option κ)
  | walletLoad (loaded : Option κ)
  | walletSave (priFile pubFile : φ) (priPem pubPem : List UInt8)
  | send (amount : Int32) (receiverAddress : List UInt8)
  | mine
  | list
  | info
  | infoBlock
  | help
  | save (path : φ)
  | load (path : φ)
  | exit
  /-- a line that names no command or has a wrong number of arguments -/
  | other

variable {κ φ : Type} [DecidableEq φ] (E : Env κ)

/-- `handle_wallet_create` -/
def handleWalletCreate (created : Option κ) (s : State κ φ) : Reply × State κ φ :=
  (if created.isSome then { ret := 0, out := ["Create wallet (EC key)\n"] }
    else { ret := -1, out := ["Failed to create EC key\n"] },
    { s with wallet := created })

/-- `handle_wallet_load` -/
def handleWalletLoad (loaded : Option κ) (s : State κ φ) : Reply × State κ φ :=
  (if loaded.isSome then { ret := 0, out := ["Load wallet (EC key pair)\n"] }
    else { ret := -1, out := ["Failed to load EC key\n"] },
    { s with wallet := loaded })

/-- `handle_wallet_save`, where `ec_save` succeeds. -/
def handleWalletSave (priFile pubFile : φ) (priPem pubPem : List UInt8) (s : State κ φ) :
    Reply × State κ φ :=
  match s.wallet with
  | none => ({ ret := -1, out := ["No EC key available\n"] }, s)
  | some _ =>
    ({ ret := 0, out := ["Save wallet (EC key pair)\n"] },
      { s with
        files := Function.update (Function.update s.files priFile (some priPem)) pubFile
          (some pubPem) })

/-- `compares_unspent_tx_out` -/
def comparesUnspentTxOut (first second : UnspentTxOut) : ℤ :=
  if first.out.amount < second.out.amount then -1
  else if first.out.amount > second.out.amount then 1
  else 0

/-- `generate_sorted_unspent_list`: the list of unspent outputs is sorted in place. -/
def generateSortedUnspentList (s : State κ φ) : Reply × State κ φ :=
  ({ ret := 0, out := [] },
    { s with
      blockchain :=
        { s.blockchain with unspent := E.llistSort comparesUnspentTxOut s.blockchain.unspent } })

/-- `handle_save`, on a path that can be opened. -/
def handleSave (path : φ) (s : State κ φ) : Exec (Reply × State κ φ) := do
  let bytes ← blockchainSerialize E s.blockchain
  pure ({ ret := 0, out := ["Saved blockchain to %s\n"] },
    { s with files := Function.update s.files path (some bytes) })

/-- `handle_load` -/
def handleLoad (ω : Oracle) (path : φ) (s : State κ φ) : Exec (Reply × State κ φ) := do
  match ← blockchainDeserialize E ω.junk (s.files path) with
  | none => pure ({ ret := -1, out := ["Failed to load blockchain from %s\n"] }, s)
  | some blockchain =>
    pure ({ ret := 0, out := ["Loaded blockchain from %s\n"] }, { s with blockchain })

/-- `find_command`; only `exit` returns 1. -/
def findCommand (ω : Oracle) (s : State κ φ) : Command κ φ → Exec (Reply × State κ φ)
  | .walletCreate created => pure (handleWalletCreate created s)
  | .walletLoad loaded => pure (handleWalletLoad loaded s)
  | .walletSave priFile pubFile priPem pubPem =>
    pure (handleWalletSave priFile pubFile priPem pubPem s)
  | .send amount receiverAddress => handleSend E ω amount receiverAddress s
  | .mine => handleMine E ω s
  | .list => pure (generateSortedUnspentList E s)
  | .info => pure ({ ret := 0, out := [] }, s)
  | .infoBlock => pure ({ ret := 0, out := [] }, s)
  | .help => pure ({ ret := 0, out := [] }, s)
  | .save path => handleSave E path s
  | .load path => handleLoad E ω path s
  | .exit => pure ({ ret := 1, out := ["Exiting CLI\n"] }, s)
  | .other => pure ({ ret := -1, out := [] }, s)

/-- The loop of `main`: the commands in turn, until one returns 1. -/
def run : State κ φ → List (Command κ φ × Oracle) → Exec (State κ φ)
  | s, [] => pure s
  | s, (c, ω) :: cs => do
    let (reply, s) ← findCommand E ω s c
    if reply.ret = 1 then pure s else run s cs

end HolbertonChain
