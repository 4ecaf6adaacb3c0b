import HolbertonChain.Cli.Commands
import HolbertonChain.Lib.Words

/-!
# The command line (`cli.c`)

The loop of `main` over the lines that a user types, and `find_command` as it stands: the words of a
line, the command they name, and what is wrong with the arguments.  A line is a C string, the list
of its characters without the terminating zero.  The logo, the prompt and the history of `readline`
are left out.
-/

namespace HolbertonChain

open Words

/-! ### Functions of the C library -/

/-- The codes of characters. -/
def ascii (cs : List Char) : List UInt8 := cs.map fun c => UInt8.ofNat c.toNat

/-- `strtok` with `" "`, call after call. -/
def strtok (line : List UInt8) : List (List UInt8) := words 0x20 line

/-- `isspace` -/
def isSpace (c : UInt8) : Bool := c == 0x20 || (0x09 ≤ c && c ≤ 0x0d)

/-- The number that the digits in front stand for. -/
def digitsValue (s : List UInt8) : ℕ :=
  (s.takeWhile isDigit).foldl (fun n c => 10 * n + (c - 0x30).toNat) 0

/-- `atoi`, which has no defined result for a number that is not an `int`. -/
def atoi (s : List UInt8) : Exec Int32 :=
  let value : ℤ :=
    match s.dropWhile isSpace with
    | [] => 0
    | c :: cs =>
      if c = 0x2d then -(digitsValue cs : ℤ)
      else if c = 0x2b then digitsValue cs
      else digitsValue (c :: cs)
  if value < -2 ^ 31 ∨ 2 ^ 31 ≤ value then throw .intOverflow
  else pure (Int32.ofInt value)

/-- `strncpy`: `n` bytes are written, zeros behind the string. -/
def strncpy (dst src : List UInt8) (n : ℕ) : Exec (List UInt8) :=
  if dst.length < n then throw .outOfBounds
  else pure (src.take n ++ List.replicate (n - src.length) 0 ++ dst.drop n)

/-- The string in an array. -/
def cString (array : List UInt8) : Exec (List UInt8) :=
  if 0 ∈ array then pure (array.takeWhile (· ≠ 0)) else throw .outOfBounds

/-! ### Commands -/

/-- The names that `find_command` compares with. -/
inductive Name where
  | exit
  | walletCreate
  | walletSave
  | walletLoad
  | mine
  | send
  | info
  | infoBlock
  | help
  | list
  | clear
  | ls
  | load
  | save
  deriving DecidableEq

namespace Name

/-- How a command is typed. -/
def text : Name → List UInt8
  | exit => ascii ['e', 'x', 'i', 't']
  | walletCreate => ascii ['w', 'a', 'l', 'l', 'e', 't', '_', 'c', 'r', 'e', 'a', 't', 'e']
  | walletSave => ascii ['w', 'a', 'l', 'l', 'e', 't', '_', 's', 'a', 'v', 'e']
  | walletLoad => ascii ['w', 'a', 'l', 'l', 'e', 't', '_', 'l', 'o', 'a', 'd']
  | mine => ascii ['m', 'i', 'n', 'e']
  | send => ascii ['s', 'e', 'n', 'd']
  | info => ascii ['i', 'n', 'f', 'o']
  | infoBlock => ascii ['i', 'n', 'f', 'o', '_', 'b', 'l', 'o', 'c', 'k']
  | help => ascii ['h', 'e', 'l', 'p']
  | list => ascii ['l', 'i', 's', 't']
  | clear => ascii ['c', 'l', 'e', 'a', 'r']
  | ls => ascii ['l', 's']
  | load => ascii ['l', 'o', 'a', 'd']
  | save => ascii ['s', 'a', 'v', 'e']

/-- The names in the order in which they are compared with. -/
def all : List Name :=
  [exit, walletCreate, walletSave, walletLoad, mine, send, info, infoBlock, help, list, clear, ls,
    load, save]

/-- The first name that `strcmp` finds equal. -/
def find (cmd : List UInt8) : Option Name := all.find? fun name => cmd == name.text

end Name

/-- What the crypto library and the file system supply to one line. -/
structure Shell (κ φ : Type) where
  /-- the file that a path names -/
  file : List UInt8 → φ
  /-- what `ec_create` returns -/
  ecCreate : Option κ
  /-- what `ec_load` returns -/
  ecLoad : List UInt8 → Option κ
  /-- the files that `ec_save` writes for a folder, the one of the private key first -/
  ecSave : List UInt8 → φ × φ
  /-- the contents of the two files -/
  pems : List UInt8 × List UInt8

variable {κ φ : Type}

/-- A command without arguments. -/
def withoutArgument (usage : String) (arg1 : Option (List UInt8)) (command : Command κ φ) :
    Reply ⊕ Command κ φ :=
  if arg1.isSome then .inl { ret := -1, out := [usage, "Too many arguments\n"] } else .inr command

/-- A command with a path. -/
def withPath (usage : String) (arg1 : Option (List UInt8))
    (command : List UInt8 → Command κ φ) : Reply ⊕ Command κ φ :=
  match arg1 with
  | none => .inl { ret := -1, out := [usage] }
  | some path => .inr (command path)

/-- The branch of `send`.  `receiverAddress` is the array of `main`. -/
def parseSend (receiverAddress : List UInt8) (arg1 arg2 : Option (List UInt8)) :
    Exec (Reply ⊕ Command κ φ) :=
  match arg1, arg2 with
  | some arg1, some arg2 => do
    let amount ← atoi arg1
    -- `EC_PUB_LEN * 2 + 1` bytes are written
    let receiverAddress ← strncpy receiverAddress arg2 131
    -- the handler begins with the length of the string
    let address ← cString receiverAddress
    pure (.inr (.send amount address))
  | _, _ => pure (.inl { ret := -1, out := ["Usage: send <amount> <address>\n"] })

/-- `find_command` up to the handler: the reply to a line that names no command or has a wrong
number of arguments, or the command to be handled. -/
def parseCommand (sh : Shell κ φ) (receiverAddress cmd : List UInt8)
    (arg1 arg2 : Option (List UInt8)) : Exec (Reply ⊕ Command κ φ) :=
  match Name.find cmd with
  | some .exit => pure (.inr .exit)
  | some .walletCreate =>
    pure (withoutArgument "Usage: wallet_create\n" arg1 (.walletCreate sh.ecCreate))
  | some .walletSave =>
    pure (withPath "Usage: wallet_save <path>\n" arg1 fun path =>
      .walletSave (sh.ecSave path).1 (sh.ecSave path).2 sh.pems.1 sh.pems.2)
  | some .walletLoad =>
    pure (withPath "Usage: wallet_load <path>\n" arg1 fun path => .walletLoad (sh.ecLoad path))
  | some .mine => pure (withoutArgument "Usage: mine\n" arg1 .mine)
  | some .send => parseSend receiverAddress arg1 arg2
  | some .info => pure (.inr .info)
  | some .infoBlock => pure (.inr .infoBlock)
  | some .help => pure (.inr .help)
  | some .list => pure (withoutArgument "Usage: list\n" arg1 .list)
  | some .clear => pure (.inl { ret := 0, out := [] })
  | some .ls => pure (.inl { ret := 0, out := [] })
  | some .load =>
    pure (withPath "Usage: load <path>\n" arg1 fun path => .load (sh.file path))
  | some .save =>
    pure (withPath "Usage: save <path>/<file>\n" arg1 fun path => .save (sh.file path))
  | none => pure (.inl { ret := -1, out := ["unknown command: \"%s\"\n"] })

/-! ### The loop -/

/-- The words of a line, and what they ask for; nothing if the line is empty.  A line of blanks has
no first word, and `strcmp` reads through the `NULL` pointer. -/
def parseLine (sh : Shell κ φ) (receiverAddress line : List UInt8) :
    Exec (Option (Reply ⊕ Command κ φ)) :=
  if line = [] then pure none
  else
    match strtok line with
    | [] => throw .outOfBounds
    | cmd :: args => do
      let parsed ← parseCommand sh receiverAddress cmd args[0]? args[1]?
      pure (some parsed)

variable [DecidableEq φ] (E : Env κ)

/-- What `find_command` returns: the reply at once, or what the handler of the command returns. -/
def handle (ω : Oracle) (s : State κ φ) : Reply ⊕ Command κ φ → Exec (Reply × State κ φ)
  | .inl reply => pure (reply, s)
  | .inr command => findCommand E ω s command

/-- The loop of `main` with the last return value, until a command returns 1 or the input ends.
What one line leaves in the array `receiverAddress` is overwritten by the next that uses it. -/
def mainLoop (receiverAddress : List UInt8) : ℤ → State κ φ →
    List (List UInt8 × Shell κ φ × Oracle) → Exec (ℤ × State κ φ)
  | ret, s, [] => pure (ret, s)
  | ret, s, (line, sh, ω) :: lines => do
    match ← parseLine sh receiverAddress line with
    | none => mainLoop receiverAddress ret s lines
    | some parsed =>
      let (reply, s) ← handle E ω s parsed
      if reply.ret = 1 then pure (reply.ret, s)
      else mainLoop receiverAddress reply.ret s lines

/-- `main` with the lines that a user types: its exit status and the state at the end.  The array
`receiver_address` has `EC_PUB_LEN * 2` bytes, which hold anything. -/
def main (files : φ → Option (List UInt8)) (receiverAddress : Bytes 130)
    (lines : List (List UInt8 × Shell κ φ × Oracle)) : Exec (ℕ × State κ φ) := do
  let (ret, s) ← mainLoop E receiverAddress.toList 0 (initialState files) lines
  pure (if ret ≠ 0 then 1 else 0, s)

end HolbertonChain
