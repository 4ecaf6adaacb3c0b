import HolbertonChain.Cli.CommandLine

/-!
# Wallets on disk (`ec_save.c`, `ec_load.c`, `handle_wallet_save.c`, `handle_wallet_load.c`)

A wallet is two files of a folder, the private key in `key.pem` and the public key in `key_pub.pem`.
`Host` is what OpenSSL and the file system contribute.  A path is put together in an array of
`BUFSIZ` characters.
-/

namespace HolbertonChain

/-- The PEM functions of OpenSSL, and what the file system grants while a command runs. -/
structure Host (κ φ : Type) where
  /-- the file that a path names -/
  file : List UInt8 → φ
  /-- `PEM_write_ECPrivateKey`: whether it succeeds, and what it writes -/
  writePrivate : κ → Bool × List UInt8
  /-- `PEM_write_EC_PUBKEY` -/
  writePublic : κ → Bool × List UInt8
  /-- `PEM_read_EC_PUBKEY` -/
  readPublic : List UInt8 → Option κ
  /-- `PEM_read_ECPrivateKey`, which puts the key it reads in the place of the one there is -/
  readPrivate : List UInt8 → Option κ
  /-- `access` of a folder succeeds -/
  access : List UInt8 → Bool
  /-- `mkdir` of a folder succeeds -/
  mkdir : List UInt8 → Bool
  /-- `fopen` of a path with `"w"` succeeds -/
  opensToWrite : List UInt8 → Bool
  /-- `fopen` of a path with `"r"` succeeds if the file is there -/
  opensToRead : List UInt8 → Bool

variable {κ φ : Type} (H : Host κ φ)

/-- `BUFSIZ` -/
def bufsiz : ℕ := 8192

/-- `PRI_FILENAME` -/
def priFilename : List UInt8 := ascii "key.pem".toList

/-- `PUB_FILENAME` -/
def pubFilename : List UInt8 := ascii "key_pub.pem".toList

/-- The path of a file in a folder. -/
def pathIn (folder name : List UInt8) : List UInt8 := folder ++ 0x2f :: name

/-- `sprintf` of a path into an array of `BUFSIZ` characters. -/
def sprintfPath (folder name : List UInt8) : Exec (List UInt8) :=
  if bufsiz < (pathIn folder name).length + 1 then throw .outOfBounds else pure (pathIn folder name)

/-! ### `ec_save` -/

section Save

variable [DecidableEq φ]

/-- A file is opened and written.  If it cannot be opened, `fclose` gets the `NULL` pointer. -/
def writePem (path : List UInt8) (pem : Bool × List UInt8) (files : φ → Option (List UInt8)) :
    Exec (Bool × (φ → Option (List UInt8))) :=
  if H.opensToWrite path then pure (pem.1, Function.update files (H.file path) (some pem.2))
  else throw .outOfBounds

/-- The part of `ec_save` behind the folder. -/
def writeKey (key : κ) (pathPriv pathPub : List UInt8) (files : φ → Option (List UInt8)) :
    Exec (Bool × (φ → Option (List UInt8))) := do
  let (written, files) ← writePem H pathPriv (H.writePrivate key) files
  if written then writePem H pathPub (H.writePublic key) files else pure (false, files)

/-- `ec_save` on the files there are: whether it returns 1, and the files afterwards. -/
def ecSave (key : κ) (folder : List UInt8) (files : φ → Option (List UInt8)) :
    Exec (Bool × (φ → Option (List UInt8))) := do
  let pathPriv ← sprintfPath folder priFilename
  let pathPub ← sprintfPath folder pubFilename
  if H.access folder || H.mkdir folder then writeKey H key pathPriv pathPub files
  else pure (false, files)

/-- `handle_wallet_save` -/
def walletSave (folder : List UInt8) (s : State κ φ) : Exec (Reply × State κ φ) :=
  match s.wallet with
  | none => pure ({ ret := -1, out := ["No EC key available\n"] }, s)
  | some key => do
    let (saved, files) ← ecSave H key folder s.files
    pure (
      if saved then { ret := 0, out := ["Save wallet (EC key pair)\n"] }
        else { ret := -1, out := ["Failed to save EC key\n"] },
      { s with files })

end Save

/-! ### `ec_load` -/

/-- What `fopen` with `"r"` gives to read. -/
def fopenRead (path : List UInt8) (files : φ → Option (List UInt8)) : Option (List UInt8) :=
  if H.opensToRead path then files (H.file path) else none

/-- The part of `ec_load` behind the public key. -/
def readKey (folder : List UInt8) (files : φ → Option (List UInt8)) : Exec (Option κ) := do
  let pathPriv ← sprintfPath folder priFilename
  pure ((fopenRead H pathPriv files).bind H.readPrivate)

/-- `ec_load` -/
def ecLoad (folder : List UInt8) (files : φ → Option (List UInt8)) : Exec (Option κ) :=
  if bufsiz < folder.length + pubFilename.length then pure none
  else do
    let pathPub ← sprintfPath folder pubFilename
    match (fopenRead H pathPub files).bind H.readPublic with
    | none => pure none
    | some _ => readKey H folder files

/-- `handle_wallet_load` with a path -/
def walletLoad (folder : List UInt8) (s : State κ φ) : Exec (Reply × State κ φ) := do
  let loaded ← ecLoad H folder s.files
  pure (handleWalletLoad loaded s)

end HolbertonChain
