import HolbertonChain.Cli.CommandLine
import HolbertonChain.Cli.Equiv.Transitions
import HolbertonChain.Lib.AppendLog
import HolbertonChain.Lib.Decimal
import HolbertonChain.Sample
import Mathlib.Data.List.TakeWhile

/-!
# What is typed and what is run

A command that is typed with its arguments one blank apart is the command that runs, an amount in
decimal is the amount sent (`atoi_decimal`), and so the loop of `main` over such lines is the run of
their commands (`mainLoop_render`).

`send` takes one byte more than `main` has: `strncpy` writes `EC_PUB_LEN * 2 + 1` bytes to the array
`receiver_address` of `EC_PUB_LEN * 2`.  With an array that is too short, the lines that leave
defined behaviour before their command runs are the complete `send`s and those of nothing but
blanks (`exists_parseLine_iff`), so nothing that `main` does in defined behaviour ever puts a
transaction into the pool (`main_txPool`).
-/

namespace HolbertonChain

open Bytes Words

/-! ### Amounts -/

/-- An amount in decimal. -/
def decimal (amount : Int32) : List UInt8 :=
  if amount.toInt < 0 then 0x2d :: Decimal.chars amount.toInt.natAbs
  else Decimal.chars amount.toInt.natAbs

theorem isDigit_of_mem_chars {n : ℕ} : ∀ c ∈ Decimal.chars n, isDigit c = true := by
  intro c hc
  have hrange := Decimal.toNat_of_mem_chars hc
  rw [isDigit, Bool.and_eq_true, decide_eq_true_eq, decide_eq_true_eq, UInt8.le_iff_toNat_le,
    UInt8.le_iff_toNat_le]
  exact hrange

/-- The digits of a number are read up to the end. -/
theorem digitsValue_chars (n : ℕ) : digitsValue (Decimal.chars n) = n := by
  rw [digitsValue, List.takeWhile_eq_self_iff.mpr isDigit_of_mem_chars]
  exact Decimal.value_chars n

/-- A digit is none of the characters that `atoi` looks for first. -/
theorem not_special_of_isDigit {c : UInt8} (h : isDigit c = true) :
    isSpace c = false ∧ c ≠ 0x2d ∧ c ≠ 0x2b := by
  rw [isDigit, Bool.and_eq_true, decide_eq_true_eq, decide_eq_true_eq, UInt8.le_iff_toNat_le,
    UInt8.le_iff_toNat_le] at h
  have hlow : 0x30 ≤ c.toNat := h.1
  refine ⟨?_, ?_, ?_⟩
  · rw [isSpace, Bool.or_eq_false_iff, Bool.and_eq_false_iff]
    refine ⟨?_, Or.inr ?_⟩
    · rw [beq_eq_false_iff_ne]
      rintro rfl
      exact absurd hlow (by decide)
    · rw [decide_eq_false_iff_not, UInt8.le_iff_toNat_le]
      show ¬ c.toNat ≤ 13
      omega
  · rintro rfl
    exact absurd hlow (by decide)
  · rintro rfl
    exact absurd hlow (by decide)

/-- `atoi` reads an amount back from its digits. -/
theorem atoi_decimal (amount : Int32) : atoi (decimal amount) = .ok amount := by
  have hlt := amount.toInt_lt
  have hle := amount.le_toInt
  obtain ⟨c, cs, hcs⟩ := List.exists_cons_of_ne_nil (Decimal.chars_ne_nil amount.toInt.natAbs)
  have hvalue := digitsValue_chars amount.toInt.natAbs
  obtain ⟨hspace, hminus, hplus⟩ : isSpace c = false ∧ c ≠ 0x2d ∧ c ≠ 0x2b :=
    not_special_of_isDigit (isDigit_of_mem_chars c (by rw [hcs]; exact List.mem_cons_self))
  have hresult : ∀ value : ℤ, value = amount.toInt →
      (if value < -2 ^ 31 ∨ 2 ^ 31 ≤ value then throw .intOverflow
        else pure (Int32.ofInt value) : Exec Int32) = .ok amount := by
    rintro value rfl
    rw [if_neg (by omega), Int32.ofInt_toInt]
    rfl
  unfold atoi decimal
  split_ifs with hneg
  · have hspace' : isSpace 0x2d = false := rfl
    rw [List.dropWhile_cons_of_neg (by rw [hspace']; exact Bool.false_ne_true)]
    dsimp only
    rw [if_pos rfl, hvalue]
    exact hresult _ (by omega)
  · rw [hcs, List.dropWhile_cons_of_neg (by rw [hspace]; exact Bool.false_ne_true)]
    dsimp only
    rw [if_neg hminus, if_neg hplus, ← hcs, hvalue]
    exact hresult _ (by omega)

/-! ### Lines -/

theorem Name.find_text (name : Name) : Name.find name.text = some name := by
  cases name <;> decide

theorem Name.isWord_text (name : Name) : IsWord 0x20 name.text := by
  cases name <;> exact ⟨by decide, by decide⟩

/-- What a user may ask for. -/
inductive Entry where
  | exit
  | walletCreate
  | walletSave (folder : List UInt8)
  | walletLoad (folder : List UInt8)
  | mine
  | send (amount : Int32) (address : List UInt8)
  | info
  | infoBlock
  | help
  | list
  | clear
  | ls
  | load (path : List UInt8)
  | save (path : List UInt8)

namespace Entry

/-- The words of the line. -/
def words : Entry → List (List UInt8)
  | exit => [Name.exit.text]
  | walletCreate => [Name.walletCreate.text]
  | walletSave folder => [Name.walletSave.text, folder]
  | walletLoad folder => [Name.walletLoad.text, folder]
  | mine => [Name.mine.text]
  | send amount address => [Name.send.text, decimal amount, address]
  | info => [Name.info.text]
  | infoBlock => [Name.infoBlock.text]
  | help => [Name.help.text]
  | list => [Name.list.text]
  | clear => [Name.clear.text]
  | ls => [Name.ls.text]
  | load path => [Name.load.text, path]
  | save path => [Name.save.text, path]

/-- The line, its words one blank apart. -/
def render (e : Entry) : List UInt8 := join 0x20 e.words

/-- The arguments are words, and the address fits the array, with the zero behind it. -/
def Fits (receiverAddress : List UInt8) : Entry → Prop
  | walletSave arg | walletLoad arg | load arg | save arg => IsWord 0x20 arg
  | send _ address =>
    IsWord 0x20 address ∧ 0 ∉ address ∧ address.length < 131 ∧ 131 ≤ receiverAddress.length
  | _ => True

variable {κ φ : Type}

/-- The command; `clear` and `ls` are for the shell alone. -/
def command (sh : Shell κ φ) : Entry → Option (Command κ φ)
  | exit => some .exit
  | walletCreate => some (.walletCreate sh.ecCreate)
  | walletSave folder =>
    some (.walletSave (sh.ecSave folder).1 (sh.ecSave folder).2 sh.pems.1 sh.pems.2)
  | walletLoad folder => some (.walletLoad (sh.ecLoad folder))
  | mine => some .mine
  | send amount address => some (.send amount address)
  | info => some .info
  | infoBlock => some .infoBlock
  | help => some .help
  | list => some .list
  | clear | ls => none
  | load path => some (.load (sh.file path))
  | save path => some (.save (sh.file path))

end Entry

theorem isWord_decimal (amount : Int32) : IsWord 0x20 (decimal amount) := by
  have hdigits : ∀ n, (0x20 : UInt8) ∉ Decimal.chars n := fun n hmem =>
    absurd (isDigit_of_mem_chars _ hmem) (by decide)
  unfold decimal
  split_ifs
  · refine ⟨List.cons_ne_nil _ _, ?_⟩
    rw [List.mem_cons, not_or]
    exact ⟨by decide, hdigits _⟩
  · exact ⟨Decimal.chars_ne_nil _, hdigits _⟩

theorem Entry.isWord {receiverAddress : List UInt8} {e : Entry} (h : e.Fits receiverAddress) :
    ∀ w ∈ e.words, IsWord 0x20 w := by
  cases e with
  | send amount address =>
    simp only [Entry.words, List.forall_mem_cons]
    exact ⟨Name.isWord_text _, isWord_decimal amount, h.1, by simp⟩
  | walletSave arg | walletLoad arg | load arg | save arg =>
    simp only [Entry.words, List.forall_mem_cons]
    exact ⟨Name.isWord_text _, h, by simp⟩
  | exit | walletCreate | mine | info | infoBlock | help | list | clear | ls =>
    simp only [Entry.words, List.forall_mem_singleton]
    exact Name.isWord_text _

/-- A string that `strncpy` copies whole is the string in the array. -/
theorem cString_of_strncpy {dst src : List UInt8} {n : ℕ} (hdst : n ≤ dst.length)
    (hsrc : src.length < n) (hzero : 0 ∉ src) :
    (strncpy dst src n >>= cString) = .ok src := by
  obtain ⟨k, hk⟩ : ∃ k, n - src.length = k + 1 := ⟨n - src.length - 1, by omega⟩
  rw [strncpy, if_neg (Nat.not_lt.mpr hdst), Except.pure_eq_ok, Except.ok_bind,
    List.take_of_length_le hsrc.le, hk, List.replicate_succ, cString, if_pos (by simp),
    Except.pure_eq_ok, List.append_assoc, List.takeWhile_append_of_pos, List.cons_append,
    List.takeWhile_cons_of_neg (by simp), List.append_nil]
  intro c hc
  simpa using fun h : c = 0 => hzero (h ▸ hc)

variable {κ φ : Type}

/-- A line of words asks for what its words ask for. -/
theorem parseLine_join (sh : Shell κ φ) (receiverAddress : List UInt8) {cmd : List UInt8}
    {args : List (List UInt8)} (h : ∀ w ∈ cmd :: args, IsWord 0x20 w) :
    parseLine sh receiverAddress (join 0x20 (cmd :: args)) =
      (do
        let parsed ← parseCommand sh receiverAddress cmd args[0]? args[1]?
        pure (some parsed)) := by
  have hwords : strtok (join 0x20 (cmd :: args)) = cmd :: args := words_join h
  have hne : join 0x20 (cmd :: args) ≠ [] := by
    intro hnil
    rw [hnil] at hwords
    cases hwords
  rw [parseLine, if_neg hne, hwords]

/-- A line that is typed asks for its command. -/
theorem parseLine_render (sh : Shell κ φ) {receiverAddress : List UInt8} {e : Entry}
    (h : e.Fits receiverAddress) :
    parseLine sh receiverAddress e.render = .ok (some (match e.command sh with
      | some c => .inr c
      | none => .inl { ret := 0, out := [] })) := by
  have hwords := Entry.isWord h
  cases e with
  | send amount address =>
    obtain ⟨-, hzero, hlen, harray⟩ := h
    have hcopy := cString_of_strncpy harray hlen hzero
    obtain ⟨copied, hcopied, hstring⟩ := Except.bind_eq_ok_iff.mp hcopy
    have hsend : (parseSend receiverAddress (some (decimal amount)) (some address) :
        Exec (Reply ⊕ Command κ φ)) = .ok (.inr (.send amount address)) := by
      simp only [parseSend, atoi_decimal, hcopied, hstring, Except.ok_bind]
      rfl
    rw [Entry.render, Entry.words, parseLine_join sh receiverAddress hwords]
    unfold parseCommand
    rw [Name.find_text]
    show (parseSend receiverAddress (some (decimal amount)) (some address) >>= _) = _
    rw [hsend]
    rfl
  | walletSave arg | walletLoad arg | load arg | save arg | exit | walletCreate | mine | info
  | infoBlock | help | list | clear | ls =>
    rw [Entry.render, Entry.words, parseLine_join sh receiverAddress hwords]
    unfold parseCommand
    rw [Name.find_text]
    rfl

/-! ### The array of `main` -/

theorem Name.eq_text_of_find {cmd : List UInt8} {name : Name} (h : Name.find cmd = some name) :
    cmd = name.text := by
  simpa using List.find?_some h

/-- The name of a command. -/
def Command.name : Command κ φ → Option Name
  | .walletCreate _ => some .walletCreate
  | .walletLoad _ => some .walletLoad
  | .walletSave .. => some .walletSave
  | .send .. => some .send
  | .mine => some .mine
  | .list => some .list
  | .info => some .info
  | .infoBlock => some .infoBlock
  | .help => some .help
  | .save _ => some .save
  | .load _ => some .load
  | .exit => some .exit
  | .other => none

variable {sh : Shell κ φ} {receiverAddress cmd line : List UInt8} {arg1 arg2 : Option (List UInt8)}
  {c : Command κ φ}

/-- A complete `send` writes behind the array, if it is too short. -/
theorem parseSend_eq_ok (hshort : receiverAddress.length < 131) {parsed : Reply ⊕ Command κ φ}
    (h : parseSend receiverAddress arg1 arg2 = .ok parsed) :
    parsed = .inl { ret := -1, out := ["Usage: send <amount> <address>\n"] } ∧
      (arg1 = none ∨ arg2 = none) := by
  cases arg1 with
  | none => exact ⟨(Except.ok.inj h).symm, Or.inl rfl⟩
  | some arg1 =>
    cases arg2 with
    | none => exact ⟨(Except.ok.inj h).symm, Or.inr rfl⟩
    | some arg2 =>
      obtain ⟨amount, -, h⟩ := Except.bind_eq_ok_iff.mp h
      obtain ⟨copied, hcopied, -⟩ := Except.bind_eq_ok_iff.mp h
      rw [strncpy, if_pos hshort] at hcopied
      cases hcopied

/-- A command is run under its name, and `send` is not run if the array is too short. -/
theorem find_of_parseCommand (hshort : receiverAddress.length < 131)
    (h : parseCommand sh receiverAddress cmd arg1 arg2 = .ok (.inr c)) :
    Name.find cmd = c.name ∧ ∀ amount address, c ≠ .send amount address := by
  unfold parseCommand at h
  cases hname : Name.find cmd with
  | none =>
    rw [hname] at h
    cases h
  | some name =>
    rw [hname] at h
    cases name with
    | send => exact absurd (parseSend_eq_ok hshort h).1 nofun
    | clear | ls => cases h
    | exit | info | infoBlock | help =>
      obtain rfl := Sum.inr.inj (Except.ok.inj h)
      exact ⟨rfl, nofun⟩
    | walletCreate | mine | list =>
      have hcommand := Except.ok.inj h
      unfold withoutArgument at hcommand
      split_ifs at hcommand
      obtain rfl := Sum.inr.inj hcommand
      exact ⟨rfl, nofun⟩
    | walletSave | walletLoad | load | save =>
      have hcommand := Except.ok.inj h
      unfold withPath at hcommand
      cases arg1 with
      | none => cases hcommand
      | some path =>
        obtain rfl := Sum.inr.inj hcommand
        exact ⟨rfl, nofun⟩

/-- A command that a line asks for is named by its first word. -/
theorem strtok_of_parseLine (hshort : receiverAddress.length < 131)
    (h : parseLine sh receiverAddress line = .ok (some (.inr c))) :
    (∃ name rest, c.name = some name ∧ strtok line = name.text :: rest) ∧
      ∀ amount address, c ≠ .send amount address := by
  unfold parseLine at h
  by_cases hnil : line = []
  · rw [if_pos hnil] at h
    cases h
  rw [if_neg hnil] at h
  cases hwords : strtok line with
  | nil =>
    rw [hwords] at h
    cases h
  | cons cmd args =>
    rw [hwords] at h
    obtain ⟨parsed, hparsed, hsome⟩ := Except.bind_eq_ok_iff.mp h
    obtain rfl := Option.some.inj (Except.ok.inj hsome)
    obtain ⟨hfind, hsend⟩ := find_of_parseCommand hshort hparsed
    refine ⟨?_, hsend⟩
    cases hname : c.name with
    | none =>
      -- a line of no name has its reply already
      rw [hname] at hfind
      unfold parseCommand at hparsed
      rw [hfind] at hparsed
      cases hparsed
    | some name =>
      rw [hname] at hfind
      exact ⟨name, args, rfl, by rw [Name.eq_text_of_find hfind]⟩

/-- With an array that is too short, a line is read unless it is of nothing but blanks or a `send`
with both of its arguments. -/
theorem exists_parseLine_iff (sh : Shell κ φ) (hshort : receiverAddress.length < 131) :
    (∃ parsed, parseLine sh receiverAddress line = .ok parsed) ↔
      line = [] ∨ (∃ ch ∈ line, ch ≠ 0x20) ∧
        ∀ amount address rest, strtok line ≠ Name.send.text :: amount :: address :: rest := by
  unfold parseLine
  by_cases hnil : line = []
  · rw [if_pos hnil]
    exact ⟨fun _ => Or.inl hnil, fun _ => ⟨none, rfl⟩⟩
  · rw [if_neg hnil, or_iff_right hnil]
    cases hwords : strtok line with
    | nil =>
      have hblank : ∀ ch ∈ line, ch = 0x20 := words_eq_nil_iff.mp hwords
      constructor
      · rintro ⟨parsed, h⟩
        cases h
      · rintro ⟨⟨ch, hch, hne⟩, -⟩
        exact absurd (hblank ch hch) hne
    | cons cmd args =>
      have hblank : ∃ ch ∈ line, ch ≠ 0x20 := by
        by_contra hnone
        have hall : ∀ ch ∈ line, ch = 0x20 := fun ch hch =>
          by_contra fun hne => hnone ⟨ch, hch, hne⟩
        rw [strtok, words_eq_nil_iff.mpr hall] at hwords
        cases hwords
      rw [and_iff_right hblank]
      constructor
      · rintro ⟨parsed, h⟩ amount address rest heq
        obtain ⟨hcmd, hargs⟩ := List.cons.inj heq
        obtain ⟨asked, hasked, -⟩ := Except.bind_eq_ok_iff.mp h
        rw [hcmd, hargs] at hasked
        unfold parseCommand at hasked
        rw [Name.find_text] at hasked
        rcases (parseSend_eq_ok hshort hasked).2 with hnone | hnone
        · cases hnone
        · cases hnone
      · intro hsend
        suffices h : ∃ asked, parseCommand sh receiverAddress cmd args[0]? args[1]? = .ok asked by
          obtain ⟨asked, hasked⟩ := h
          exact ⟨some asked, by dsimp only; rw [hasked]; rfl⟩
        unfold parseCommand
        cases hname : Name.find cmd with
        | none => exact ⟨_, rfl⟩
        | some name =>
          cases name with
          | send =>
            have hcmd := Name.eq_text_of_find hname
            rcases args with _ | ⟨amount, _ | ⟨address, rest⟩⟩
            · exact ⟨_, rfl⟩
            · exact ⟨_, rfl⟩
            · exact absurd (by rw [hcmd]) (hsend amount address rest)
          | exit | walletCreate | walletSave | walletLoad | mine | info | infoBlock | help | list
          | clear | ls | load | save => exact ⟨_, rfl⟩

/-- What the machine supplies to a line in the samples. -/
def sampleShell : Shell ℕ ℕ where
  file path := path.length
  ecCreate := some 1
  ecLoad _ := none
  ecSave _ := (0, 1)
  pems := ([], [])

/-- A `send` with an amount and an address is not read. -/
theorem send_parseLine_iff :
    let line := join 0x20 [Name.send.text, [0x31], [0x61]]
    (∃ parsed, parseLine sampleShell (zero 130).toList line = .ok parsed) ↔
      line = [] ∨ (∃ ch ∈ line, ch ≠ 0x20) ∧
        ∀ amount address rest, strtok line ≠ Name.send.text :: amount :: address :: rest :=
  exists_parseLine_iff sampleShell (by simp)

/-! ### Sessions -/

variable [DecidableEq φ] {E : Env κ}

/-- The loop of `main` over lines that were typed is the run of their commands. -/
theorem mainLoop_render {receiverAddress : List UInt8} {ret : ℤ} {s : State κ φ}
    {inputs : List (Entry × Shell κ φ × Oracle)}
    (h : ∀ p ∈ inputs, p.1.Fits receiverAddress) :
    (mainLoop E receiverAddress ret s (inputs.map fun p => (p.1.render, p.2))).map Prod.snd =
      run E s (inputs.filterMap fun p => (p.1.command p.2.1).map fun c => (c, p.2.2)) := by
  induction inputs generalizing ret s with
  | nil => rfl
  | cons p inputs ih =>
    obtain ⟨e, sh, ω⟩ := p
    rw [List.forall_mem_cons] at h
    rw [List.map_cons, mainLoop, parseLine_render sh h.1, Except.ok_bind]
    cases hcommand : e.command sh with
    | none =>
      rw [List.filterMap_cons_none (by rw [hcommand]; rfl)]
      exact ih h.2
    | some c =>
      rw [List.filterMap_cons_some (by rw [hcommand]; rfl), run]
      have hhandle : handle E ω s (.inr c) = findCommand E ω s c := rfl
      dsimp only
      rw [hhandle]
      cases findCommand E ω s c with
      | error e => rfl
      | ok r =>
        obtain ⟨reply, s'⟩ := r
        rw [Except.ok_bind, Except.ok_bind]
        dsimp only
        split_ifs with hexit
        · rfl
        · exact ih h.2

/-- A wallet, a block, a payment of 20 to key 2, a file. -/
def sampleEntries : List Entry :=
  [.walletCreate, .mine, .send 20 (bytesToHex (samplePub 2).toList), .clear, .save [0x61]]

/-- With one byte more in the array, the payment is sent. -/
theorem sampleEntries_mainLoop_render :
    let inputs := sampleEntries.map fun e => (e, sampleShell, sampleOracle)
    (mainLoop sampleEnv (zero 131).toList 0 (initialState fun _ => none)
      (inputs.map fun p => (p.1.render, p.2))).map Prod.snd =
        run sampleEnv (initialState fun _ => none)
          (inputs.filterMap fun p => (p.1.command p.2.1).map fun c => (c, p.2.2)) := by
  refine mainLoop_render ?_
  rintro p hp
  obtain ⟨e, he, rfl⟩ := List.mem_map.mp hp
  simp only [sampleEntries, List.mem_cons, List.not_mem_nil, or_false] at he
  rcases he with rfl | rfl | rfl | rfl | rfl
  · trivial
  · trivial
  · have hword : IsWord 0x20 (bytesToHex (samplePub 2).toList) :=
      ⟨by decide +kernel, by decide +kernel⟩
    exact ⟨hword, by decide +kernel, by decide +kernel, by simp⟩
  · trivial
  · exact ⟨by decide, by decide⟩

/-! ### Sessions in defined behaviour -/

/-- What the commands of the lines keep, the loop keeps. -/
theorem mainLoop_preserves {P : State κ φ → Prop} {allowed : Command κ φ → Prop}
    {lines : List (List UInt8 × Shell κ φ × Oracle)} {ret ret' : ℤ} {s s' : State κ φ}
    (hstep : ∀ ω (s s' : State κ φ) c, allowed c → Transition E ω s c s' → P s → P s')
    (hlines : ∀ p ∈ lines, ∀ c, parseLine p.2.1 receiverAddress p.1 = .ok (some (.inr c)) →
      allowed c)
    (h : mainLoop E receiverAddress ret s lines = .ok (ret', s')) (hs : P s) : P s' := by
  induction lines generalizing ret s with
  | nil =>
    obtain ⟨-, rfl⟩ := Prod.mk.inj (Except.ok.inj h)
    exact hs
  | cons p lines ih =>
    obtain ⟨line, sh, ω⟩ := p
    rw [List.forall_mem_cons] at hlines
    rw [mainLoop] at h
    obtain ⟨parsed, hparsed, h⟩ := Except.bind_eq_ok_iff.mp h
    cases parsed with
    | none => exact ih hlines.2 h hs
    | some asked =>
      obtain ⟨⟨reply, next⟩, hnext, h⟩ := Except.bind_eq_ok_iff.mp h
      have hkept : P next := by
        cases asked with
        | inl reply' =>
          obtain ⟨-, rfl⟩ := Prod.mk.inj (Except.ok.inj hnext)
          exact hs
        | inr c =>
          exact hstep ω s next c (hlines.1 c hparsed) (findCommand_transition E hnext) hs
      dsimp only at h
      split_ifs at h with hexit
      · obtain ⟨-, rfl⟩ := Prod.mk.inj (Except.ok.inj h)
        exact hkept
      · exact ih hlines.2 h hkept

/-- Every command but `send` leaves an empty pool empty. -/
theorem Transition.txPool_eq_nil {ω : Oracle} {s s' : State κ φ} (h : Transition E ω s c s')
    (hsend : ∀ amount address, c ≠ .send amount address) (hs : s.txPool = []) :
    s'.txPool = [] := by
  cases h with
  | unchanged | wallet | walletSave | list | save | load => exact hs
  | send => exact absurd rfl (hsend _ _)
  | reject hpool =>
    have hsub := (filterPool_eq_ok E le_rfl hpool).1
    rw [hs] at hsub
    exact List.sublist_nil.mp hsub
  | append => rfl

/-- With an empty pool, every command but `load` keeps a chain of blocks with one transaction. -/
theorem Transition.txs_length_le {ω : Oracle} {s s' : State κ φ} (h : Transition E ω s c s')
    (hload : ∀ path, c ≠ .load path) (hpool : s.txPool = [])
    (hs : ∀ b ∈ s.blockchain.chain, b.txs.length ≤ 1) :
    ∀ b ∈ s'.blockchain.chain, b.txs.length ≤ 1 := by
  cases h with
  | unchanged | wallet | walletSave | list | save | send | reject => exact hs
  | load => exact absurd rfl (hload _)
  | append hmined =>
    have hsub := (filterPool_eq_ok E le_rfl hmined.pool_eq).1
    rw [hpool] at hsub
    refine AppendLog.forall_mem_concat.mpr ⟨hs, ?_⟩
    rw [hmined.txs_eq, List.sublist_nil.mp hsub]
    exact le_rfl

/-- Whatever a user types, as long as `main` stays in defined behaviour nothing gets into the pool,
and without `load` every block has no transaction but its coinbase. -/
theorem main_txPool {files : φ → Option (List UInt8)} {receiverAddress : Bytes 130}
    {lines : List (List UInt8 × Shell κ φ × Oracle)} {status : ℕ} {s : State κ φ}
    (h : main E files receiverAddress lines = .ok (status, s)) :
    s.txPool = [] ∧
      ((∀ p ∈ lines, ∀ rest, strtok p.1 ≠ Name.load.text :: rest) →
        ∀ b ∈ s.blockchain.chain, b.txs.length ≤ 1) := by
  obtain ⟨⟨ret, s'⟩, hloop, hstatus⟩ := Except.bind_eq_ok_iff.mp h
  obtain ⟨-, rfl⟩ := Prod.mk.inj (Except.ok.inj hstatus)
  have hshort : receiverAddress.toList.length < 131 := by simp
  have hsend : ∀ p ∈ lines, ∀ c, parseLine p.2.1 receiverAddress.toList p.1 = .ok (some (.inr c)) →
      ∀ amount address, c ≠ .send amount address :=
    fun p _ c hc => (strtok_of_parseLine hshort hc).2
  refine ⟨mainLoop_preserves (fun ω s s' c hc ht hs => ht.txPool_eq_nil hc hs) hsend hloop rfl,
    fun hnoload => ?_⟩
  have hload : ∀ p ∈ lines, ∀ c, parseLine p.2.1 receiverAddress.toList p.1 = .ok (some (.inr c)) →
      (∀ amount address, c ≠ .send amount address) ∧ ∀ path, c ≠ .load path := by
    intro p hp c hc
    refine ⟨hsend p hp c hc, ?_⟩
    rintro path rfl
    obtain ⟨⟨name, rest, hname, hwords⟩, -⟩ := strtok_of_parseLine hshort hc
    obtain rfl := Option.some.inj hname
    exact hnoload p hp rest hwords
  have hstart : ∀ b ∈ (initialState files : State κ φ).blockchain.chain, b.txs.length ≤ 1 := by
    intro b hb
    rw [List.mem_singleton.mp hb]
    exact Nat.zero_le _
  exact (mainLoop_preserves (P := fun t => t.txPool = [] ∧ ∀ b ∈ t.blockchain.chain,
      b.txs.length ≤ 1)
    (fun ω s s' c hc ht hs =>
      ⟨ht.txPool_eq_nil hc.1 hs.1, ht.txs_length_le hc.2 hs.1 hs.2⟩) hload hloop ⟨rfl, hstart⟩).2

/-- A wallet, a block, a `send` without its arguments, an empty line. -/
def sampleLines : List (List UInt8 × Shell ℕ ℕ × Oracle) :=
  [Name.walletCreate.text, Name.mine.text, Name.send.text, []].map fun line =>
    (line, sampleShell, sampleOracle)

theorem sampleLines_txPool :
    ∃ s, main sampleEnv (fun _ => none) (zero 130) sampleLines = .ok (1, s) ∧
      s.blockchain.chain.length = 2 ∧ s.txPool = [] ∧
        ((∀ p ∈ sampleLines, ∀ rest, strtok p.1 ≠ Name.load.text :: rest) →
          ∀ b ∈ s.blockchain.chain, b.txs.length ≤ 1) := by
  have hchecked : ((main sampleEnv (fun _ => none) (zero 130) sampleLines).toOption.map fun r =>
      (r.1, r.2.blockchain.chain.length)) = some (1, 2) := by
    decide +kernel
  cases hmain : main sampleEnv (fun _ => none) (zero 130) sampleLines with
  | error e =>
    rw [hmain] at hchecked
    cases hchecked
  | ok r =>
    obtain ⟨status, s⟩ := r
    rw [hmain] at hchecked
    obtain ⟨rfl, hlength⟩ := Prod.mk.inj (Option.some.inj hchecked)
    exact ⟨s, rfl, hlength, main_txPool hmain⟩

end HolbertonChain
