import HolbertonChain.Cli.State
import HolbertonChain.Transaction.Create
import HolbertonChain.Transaction.Validity

/-!
# The command `send` (`tools.c`, `handle_send.c`) and addresses (`handle_info.c`)

A C string is the list of its characters without the terminating zero.
-/

namespace HolbertonChain

open Bytes

variable {κ φ : Type} (E : Env κ)

/-- `isdigit` on a character of a string. -/
def isDigit (c : UInt8) : Bool := 0x30 ≤ c && c ≤ 0x39

/-- `check_string`: the string with its upper-case hexadecimal digits lowered in place, or `none`
at a character that is no hexadecimal digit. -/
def checkString : List UInt8 → Option (List UInt8)
  | [] => some []
  | c :: cs =>
    if isDigit c then (checkString cs).map (c :: ·)
    else if 0x61 ≤ c ∧ c ≤ 0x66 then (checkString cs).map (c :: ·)
    else if 0x41 ≤ c ∧ c ≤ 0x46 then (checkString cs).map ((c + 0x20) :: ·)
    else none

/-- The value of a hexadecimal digit that is a decimal digit or lower case. -/
def hexValue (c : UInt8) : UInt8 := if isDigit c then c - 0x30 else c - 0x61 + 10

/-- The loop of `string_to_pub`: `sscanf` with `"%02x"` reads two digits at a time, `n` times. -/
def scanPairs : ℕ → List UInt8 → List UInt8
  | n + 1, a :: b :: cs => (hexValue a * 16 + hexValue b) :: scanPairs n cs
  | _, _ => []

/-- `string_to_pub` -/
def stringToPub (address : List UInt8) : Option Pub :=
  if address.length < 65 * 2 then none
  else (checkString address).map fun lowered => ofList 65 (scanPairs 65 lowered)

/-- `hex_chars`, `"0123456789abcdef"`, at an index. -/
def hexChar (n : UInt8) : UInt8 :=
  [0x30, 0x31, 0x32, 0x33, 0x34, 0x35, 0x36, 0x37, 0x38, 0x39, 0x61, 0x62, 0x63, 0x64, 0x65,
    0x66].getD n.toNat 0

/-- `bytes_to_hex`, which writes the addresses that a user types. -/
def bytesToHex (bytes : List UInt8) : List UInt8 :=
  bytes.flatMap fun (b : UInt8) => [hexChar ((b >>> 4) &&& 0xF), hexChar (b &&& 0xF)]

/-- `str_to_key`: the key it stores, which stays `NULL` where the address cannot be converted. -/
def strToKey (str : List UInt8) : Option κ × List String :=
  match stringToPub str with
  | none => (none, ["Failed to convert receiver address\n"])
  | some pub => (ecFromPub E pub, [])

/-- `handle_send` -/
def handleSend (ω : Oracle) (amount : Int32) (receiverAddress : List UInt8) (s : State κ φ) :
    Exec (Reply × State κ φ) := do
  -- the return value of `str_to_key` is not looked at
  let (receiverKey, out) := strToKey E receiverAddress
  let tx ← transactionCreate E ω.pubBuff ω.rnd s.wallet receiverKey amount.toUInt32
    s.blockchain.unspent s.txPool
  let out := out ++ transactionCreateOut E ω.pubBuff s.wallet receiverKey amount.toUInt32
    s.blockchain.unspent s.txPool
  match tx with
  | none => pure ({ ret := -1, out := out ++ ["Failed to create transaction\n"] }, s)
  | some tx =>
    let out := out ++ ["Transaction created successfully\n"]
    if ← transactionIsValid E ω.hashBuff tx s.blockchain.unspent then
      pure (
        { ret := 0, out := out ++ ["Transaction is valid\n", "Transaction sent successfully\n"] },
        { s with txPool := s.txPool ++ [tx] })
    else
      pure ({ ret := -1, out := out ++ ["Invalid transaction\n"] }, s)

end HolbertonChain
