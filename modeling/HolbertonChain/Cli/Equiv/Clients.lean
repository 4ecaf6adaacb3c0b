import HolbertonChain.Cli.Equiv.ChainIntegrity

/-!
# Clients that hand each other files

A chain leaves a client by `save` and enters another one by `load`.  `Reached` are the states that
clients get into which load nothing but what a client saved: they take their commands in any order,
and between two commands of one of them the others may have written any file.  Every such state has
the invariant of the client (`Reached.integrity`), and a load takes over the blockchain that was
saved (`Reached.load_eq`); so what the remaining commands preserve holds of every state reached, if
it passes from the saved blockchain to the client that loads it (`Reached.rule`).

Several clients at work on one disk are the case in point (`schedule_reached`), and a run of one
client that loads only what it saved is another (`run_reached`).
-/

namespace HolbertonChain

variable {κ φ : Type} [DecidableEq φ] (E : Env κ)

/-! ### States reached -/

/-- The states of clients whose commands meet a condition and who load what a client saved. -/
inductive Reached (cond : Oracle → State κ φ → Command κ φ → Prop) : State κ φ → Prop
  | start (files : φ → Option (List UInt8)) : Reached cond (initialState files)
  /-- somebody else writes to the disk -/
  | files {s : State κ φ} (hs : Reached cond s) (files : φ → Option (List UInt8)) :
      Reached cond { s with files }
  | command {ω : Oracle} {s s' : State κ φ} {c : Command κ φ} {reply : Reply}
      (hs : Reached cond s) (hshort : Short s.blockchain) (hload : ∀ path, c ≠ .load path)
      (hcond : cond ω s c) (hc : findCommand E ω s c = .ok (reply, s')) : Reached cond s'
  /-- a client loads what the client in state `t` saved, which may be itself at an earlier time -/
  | load {ω : Oracle} {s s' t : State κ φ} {path : φ} {bytes : List UInt8} {reply : Reply}
      (hs : Reached cond s) (ht : Reached cond t) (hshort : Short t.blockchain)
      (hsaved : blockchainSerialize E t.blockchain = .ok bytes)
      (hfile : s.files path = some bytes) (hcond : cond ω s (.load path))
      (hc : findCommand E ω s (.load path) = .ok (reply, s')) : Reached cond s'

variable {E} {cond : Oracle → State κ φ → Command κ φ → Prop}

/-- What is loaded is the blockchain that was saved. -/
theorem load_eq_of_saved {ω : Oracle} {s s' : State κ φ} {bc : Blockchain} {path : φ}
    {bytes : List UInt8} {reply : Reply} (hbc : ChainLog E bc.chain) (hshort : Short bc)
    (hsaved : blockchainSerialize E bc = .ok bytes) (hfile : s.files path = some bytes)
    (hc : findCommand E ω s (.load path) = .ok (reply, s')) :
    s' = { s with blockchain := bc } := by
  have hsavable := hbc.savable E hshort
  rw [hsavable.blockchainSerialize_eq E] at hsaved
  obtain rfl := Except.ok.inj hsaved
  simp only [findCommand, handleLoad, hfile, hsavable.blockchainDeserialize_eq E,
    Except.ok_bind] at hc
  exact (Prod.mk.inj (Except.ok.inj hc)).2.symm

/-- Every state reached has the invariant of the client. -/
theorem Reached.integrity {s : State κ φ} (h : Reached E cond s) : Integrity E s := by
  induction h with
  | start files => exact integrity_initialState E files
  | files hs files ih => exact ⟨ih.chain, ih.pool⟩
  | command hs hshort hload hcond hc ih =>
    exact (findCommand_transition E hc).integrity E hshort ih fun path hpath =>
      absurd hpath (hload path)
  | load hs ht hshort hsaved hfile hcond hc ihs iht =>
    rw [load_eq_of_saved iht.chain hshort hsaved hfile hc]
    exact ⟨iht.chain, ihs.pool⟩

/-- What holds at the start, is kept by every command but `load` and by writes to the disk, and
passes from a saved blockchain to the client that loads it, holds of every state reached. -/
theorem Reached.rule {P : State κ φ → Prop} {s : State κ φ} (h : Reached E cond s)
    (hstart : ∀ files, P (initialState files))
    (hfiles : ∀ (s : State κ φ) files, P s → P { s with files })
    (hstep : ∀ ω s s' c, Reached E cond s → Short s.blockchain → (∀ path, c ≠ .load path) →
      cond ω s c → Transition E ω s c s' → P s → P s')
    (hload : ∀ ω (s t : State κ φ) path, Reached E cond t → cond ω s (.load path) → P s → P t →
      P { s with blockchain := t.blockchain }) : P s := by
  induction h with
  | start files => exact hstart files
  | files hs files ih => exact hfiles _ files ih
  | command hs hshort hnoload hcond hc ih =>
    exact hstep _ _ _ _ hs hshort hnoload hcond (findCommand_transition E hc) ih
  | load hs ht hshort hsaved hfile hcond hc ihs iht =>
    rw [load_eq_of_saved ht.integrity.chain hshort hsaved hfile hc]
    exact hload _ _ _ _ ht hcond ihs iht

/-- Clients that keep their lists short mine at most one block more. -/
theorem Reached.length_le {s : State κ φ} (h : Reached E cond s) :
    s.blockchain.chain.length ≤ 2 ^ 24 := by
  refine h.rule (P := fun s => s.blockchain.chain.length ≤ 2 ^ 24) ?_ ?_ ?_ ?_
  · intro files
    show 1 ≤ 2 ^ 24
    decide
  · exact fun _ _ hs => hs
  · intro ω s s' c _ hshort hload _ hstep hs
    cases hstep with
    | append hmined hvalid =>
      show (s.blockchain.chain ++ [_]).length ≤ 2 ^ 24
      rw [List.length_append, List.length_singleton]
      exact hshort.chain_lt
    | load hload' => exact absurd rfl (hload _)
    | unchanged | wallet | walletSave | send | reject | list | save => exact hs
  · exact fun _ _ _ _ _ _ _ ht => ht

/-- So the rewards of the chain do not exceed 32 bits. -/
theorem Reached.rewards_lt {s : State κ φ} (h : Reached E cond s) :
    50 * s.blockchain.chain.length < 2 ^ 32 := by
  have hle := h.length_le
  omega

theorem Reached.mono {cond' : Oracle → State κ φ → Command κ φ → Prop} {s : State κ φ}
    (h : Reached E cond s) (hcond : ∀ ω s c, cond ω s c → cond' ω s c) : Reached E cond' s := by
  induction h with
  | start files => exact .start files
  | files hs files ih => exact .files ih files
  | command hs hshort hload hc hrun ih => exact .command ih hshort hload (hcond _ _ _ hc) hrun
  | load hs ht hshort hsaved hfile hload hc ihs iht =>
    exact .load ihs iht hshort hsaved hfile (hcond _ _ _ hload) hc

/-! ### Runs of one client -/

/-- The contents are those of the blockchain of a client. -/
def IsSaved (E : Env κ) (cond : Oracle → State κ φ → Command κ φ → Prop)
    (bytes : List UInt8) : Prop :=
  ∃ t : State κ φ, Reached E cond t ∧ Short t.blockchain ∧
    blockchainSerialize E t.blockchain = .ok bytes

theorem isSaved_savedFile {s : State κ φ} (hs : Reached E cond s) (hshort : Short s.blockchain)
    (c : Command κ φ) : ∀ bytes ∈ savedFile E s c, IsSaved E cond bytes := by
  intro bytes hbytes
  cases c with
  | save path =>
    refine ⟨s, hs, hshort, ?_⟩
    cases hsave : blockchainSerialize E s.blockchain with
    | error e => simp [savedFile, hsave, Except.toOption] at hbytes
    | ok bytes' =>
      have heq : bytes = bytes' := by simpa [savedFile, hsave, Except.toOption] using hbytes
      rw [heq]
  | _ => simp [savedFile] at hbytes

/-- One command of a client that loads only what is among the contents saved. -/
theorem findCommand_reached {saved : List (List UInt8)} {ω : Oracle} {s s' : State κ φ}
    {c : Command κ φ} {reply : Reply} (hs : Reached E cond s) (hshort : Short s.blockchain)
    (hcond : cond ω s c) (hsaved : ∀ bytes ∈ saved, IsSaved E cond bytes)
    (hload : ∀ path, c = .load path → ∃ bytes ∈ saved, s.files path = some bytes)
    (hc : findCommand E ω s c = .ok (reply, s')) : Reached E cond s' := by
  by_cases hpath : ∃ path, c = .load path
  · obtain ⟨path, rfl⟩ := hpath
    obtain ⟨bytes, hbytes, hfile⟩ := hload path rfl
    obtain ⟨t, ht, htshort, htsaved⟩ := hsaved bytes hbytes
    exact .load hs ht htshort htsaved hfile hcond hc
  · exact .command hs hshort (fun path heq => hpath ⟨path, heq⟩) hcond hc

/-- A run that loads what it saved, or what other clients saved. -/
theorem run_reached {cmds : List (Command κ φ × Oracle)} {saved : List (List UInt8)}
    {s s' : State κ φ} (hs : Reached E cond s) (hrun : run E s cmds = .ok s')
    (hloads : LoadsSaved E saved s cmds) (hshort : StaysShort E s cmds)
    (hmeet : StepsMeet E cond s cmds) (hsaved : ∀ bytes ∈ saved, IsSaved E cond bytes) :
    Reached E cond s' := by
  induction cmds generalizing s saved with
  | nil =>
    obtain rfl := Except.ok.inj hrun
    exact hs
  | cons p cmds ih =>
    obtain ⟨c, ω⟩ := p
    obtain ⟨hload, hloads⟩ := hloads
    obtain ⟨hcond, hmeet⟩ := hmeet
    have hs0 : Short s.blockchain := hshort 0 s rfl
    obtain ⟨⟨reply, next⟩, hnext, hrest⟩ := Except.bind_eq_ok_iff.mp hrun
    have hreached : Reached E cond next :=
      findCommand_reached hs hs0 hcond hsaved hload hnext
    dsimp only at hrest
    split_ifs at hrest with hexit
    · obtain rfl := Except.ok.inj hrest
      exact hreached
    · have hshort' : StaysShort E next cmds := by
        intro k s'' hk
        apply hshort (k + 1) s''
        rw [List.take_succ_cons, run, hnext, Except.ok_bind]
        simpa only [if_neg hexit] using hk
      have hmeet' : StepsMeet E cond next cmds := by
        refine hmeet (reply, next) ?_ hexit
        rw [hnext]
        rfl
      have hsaved' : ∀ bytes ∈ saved ++ savedFile E s c, IsSaved E cond bytes := by
        intro bytes hbytes
        rcases List.mem_append.mp hbytes with hbytes | hbytes
        · exact hsaved bytes hbytes
        · exact isSaved_savedFile hs hs0 c bytes hbytes
      exact ih hreached hrest (hloads reply next hnext hexit) hshort' hmeet' hsaved'

/-! ### Clients on one disk -/

variable {ι : Type} [DecidableEq ι]

/-- The clients after a command of one of them: what it wrote to the disk is there for all. -/
def afterCommand (clients : ι → State κ φ) (i : ι) (s : State κ φ) : ι → State κ φ :=
  fun j => if j = i then s else { clients j with files := s.files }

/-- The clients along a schedule, which says who runs which command next; each of them goes on
after a command that returns 1 too, since that is another process. -/
def schedule (E : Env κ) :
    (ι → State κ φ) → List (ι × Command κ φ × Oracle) → Exec (ι → State κ φ)
  | clients, [] => pure clients
  | clients, (i, c, ω) :: steps => do
    let (_, s) ← findCommand E ω (clients i) c
    schedule E (afterCommand clients i s) steps

/-- Along a schedule the lists stay short, the commands meet the condition, and every load reads
contents that are among `saved` or that some client saved before. -/
def ScheduleMeets (E : Env κ) (cond : Oracle → State κ φ → Command κ φ → Prop) :
    List (List UInt8) → (ι → State κ φ) → List (ι × Command κ φ × Oracle) → Prop
  | _, _, [] => True
  | saved, clients, (i, c, ω) :: steps =>
    (Short (clients i).blockchain ∧ cond ω (clients i) c ∧
        loadsOneOf saved (clients i) c = true) ∧
      ∀ r ∈ (findCommand E ω (clients i) c).toOption,
        ScheduleMeets E cond (saved ++ savedFile E (clients i) c) (afterCommand clients i r.2) steps

instance decidableScheduleMeets (E : Env κ) (cond : Oracle → State κ φ → Command κ φ → Prop)
    [∀ ω s c, Decidable (cond ω s c)] :
    ∀ (saved : List (List UInt8)) (clients : ι → State κ φ)
      (steps : List (ι × Command κ φ × Oracle)),
      Decidable (ScheduleMeets E cond saved clients steps)
  | _, _, [] => .isTrue trivial
  | saved, clients, (i, c, ω) :: steps =>
    have (clients' : ι → State κ φ) :
        Decidable (ScheduleMeets E cond (saved ++ savedFile E (clients i) c) clients' steps) :=
      decidableScheduleMeets E cond _ clients' steps
    inferInstanceAs (Decidable ((Short (clients i).blockchain ∧ cond ω (clients i) c ∧
        loadsOneOf saved (clients i) c = true) ∧
      ∀ r ∈ (findCommand E ω (clients i) c).toOption,
        ScheduleMeets E cond (saved ++ savedFile E (clients i) c)
          (afterCommand clients i r.2) steps))

/-- Whatever the order in which clients on one disk run their commands, each of them stays in a
state reached. -/
theorem schedule_reached {steps : List (ι × Command κ φ × Oracle)} {saved : List (List UInt8)}
    {clients clients' : ι → State κ φ} (hclients : ∀ i, Reached E cond (clients i))
    (hrun : schedule E clients steps = .ok clients')
    (hmeets : ScheduleMeets E cond saved clients steps)
    (hsaved : ∀ bytes ∈ saved, IsSaved E cond bytes) : ∀ i, Reached E cond (clients' i) := by
  induction steps generalizing clients saved with
  | nil =>
    obtain rfl := Except.ok.inj hrun
    exact hclients
  | cons p steps ih =>
    obtain ⟨i, c, ω⟩ := p
    obtain ⟨⟨hshort, hcond, hloads⟩, hmeets⟩ := hmeets
    obtain ⟨⟨reply, s⟩, hnext, hrest⟩ := Except.bind_eq_ok_iff.mp hrun
    have hload : ∀ path, c = .load path → ∃ bytes ∈ saved, (clients i).files path = some bytes := by
      rintro path rfl
      simpa [loadsOneOf] using hloads
    have hreached : Reached E cond s :=
      findCommand_reached (hclients i) hshort hcond hsaved hload hnext
    have hafter : ∀ j, Reached E cond (afterCommand clients i s j) := by
      intro j
      unfold afterCommand
      split_ifs with hj
      · exact hreached
      · exact .files (hclients j) s.files
    refine ih hafter hrest (hmeets (reply, s) (by rw [hnext]; rfl)) fun bytes hbytes => ?_
    rcases List.mem_append.mp hbytes with hbytes | hbytes
    · exact hsaved bytes hbytes
    · exact isSaved_savedFile (hclients i) hshort c bytes hbytes

end HolbertonChain
