import HolbertonChain.Basic

/-!
# What the repository calls and does not contain, and `crypto/*.c` over it

`Env` collects the code outside the repository: OpenSSL's SHA-256 and its elliptic-curve calls on
key handles of a type `κ`, the sort of the binary list library, and the byte order of the host.
The wrappers of `crypto/` are defined over it.  ECDSA signatures are randomised: a call takes the
nonce it draws.
-/

namespace HolbertonChain

open Bytes

/-- A DER-encoded signature on the 256-bit curve takes at most `SIG_MAX_LEN` bytes. -/
abbrev DerSignature := {der : List UInt8 // der.length ≤ 72}

/-- The code and the machine around the repository. -/
structure Env (κ : Type) where
  /-- The byte order of the host. -/
  host : Endian
  /-- `SHA256_Init`, `SHA256_Update`, `SHA256_Final` -/
  sha256 : List UInt8 → Digest
  /-- `EC_POINT_point2oct` on the public point of a key, if it has one -/
  point2oct : κ → Option (List UInt8)
  /-- a new key on the curve with the public point `EC_POINT_oct2point` decodes -/
  oct2point : Pub → Option κ
  /-- `EC_KEY_check_key` -/
  checkKey : κ → Bool
  /-- `ECDSA_sign`, with the nonce drawn -/
  ecdsaSign : κ → Digest → ℕ → Option DerSignature
  /-- `ECDSA_verify` -/
  ecdsaVerify : κ → Digest → Sign → Bool
  /-- `llist_sort` on the list of unspent outputs, for a comparator and the flags `0` -/
  llistSort : (UnspentTxOut → UnspentTxOut → ℤ) → List UnspentTxOut → List UnspentTxOut

variable {κ : Type} (E : Env κ)

/-- `ec_to_pub`: the length and the first byte of the octet string are checked. -/
def ecToPub (key : κ) : Option Pub :=
  match E.point2oct key with
  | none => none
  | some bytes =>
    if h : bytes.length = 65 ∧ bytes.head? ≠ some 0 then some ⟨bytes, h.1⟩ else none

/-- `ec_from_pub` -/
def ecFromPub (pub : Pub) : Option κ := E.oct2point pub

/-- `ec_sign`: whether it succeeded, and the signature structure it leaves. -/
def ecSign (key : κ) (msg : Digest) (rnd : ℕ) (sig : Sign) : Bool × Sign :=
  match E.ecdsaSign key msg rnd with
  | none => (false, { sig with sig := zero 72 })
  | some der => (true, { sig := ofList 72 der.1, len := UInt8.ofNat der.1.length })

/-- `ec_verify`; `none` is the `NULL` key. -/
def ecVerify (key : Option κ) (msg : Digest) (sig : Sign) : Bool :=
  match key with
  | none => false
  | some k => E.checkKey k && E.ecdsaVerify k msg sig

end HolbertonChain
