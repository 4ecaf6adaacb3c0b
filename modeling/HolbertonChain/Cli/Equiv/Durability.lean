import HolbertonChain.Cli.Equiv.Agreement

/-!
# What a client saves is there to be loaded

The clients of a schedule share a disk, and a command changes no file but those it names
(`findCommand_files`).  So a blockchain that one of them saved stays in its file while all of them
go on working, as long as nobody writes to that file; and whoever loads it gets the blockchain that
was saved, to the last field (`schedule_load_saved`).
-/

namespace HolbertonChain

variable {κ φ ι : Type} [DecidableEq φ] [DecidableEq ι] {E : Env κ}

/-- The files that a command names to be written. -/
def Command.written : Command κ φ → List φ
  | .walletSave priFile pubFile _ _ => [priFile, pubFile]
  | .save path => [path]
  | _ => []

/-- A command leaves the other files as they are. -/
theorem findCommand_files {ω : Oracle} {s s' : State κ φ} {c : Command κ φ} {reply : Reply}
    {path : φ} (h : findCommand E ω s c = .ok (reply, s')) (hpath : path ∉ c.written) :
    s'.files path = s.files path := by
  cases c with
  | walletSave priFile pubFile priPem pubPem =>
    rw [Command.written, List.mem_cons, List.mem_singleton, not_or] at hpath
    simp only [findCommand, handleWalletSave] at h
    split at h
    · obtain rfl := (Prod.mk.inj (Except.ok.inj h)).2
      rfl
    · obtain rfl := (Prod.mk.inj (Except.ok.inj h)).2
      show Function.update (Function.update s.files priFile (some priPem)) pubFile
        (some pubPem) path = s.files path
      rw [Function.update_of_ne hpath.2, Function.update_of_ne hpath.1]
  | save written =>
    have hne : path ≠ written := fun heq => hpath (List.mem_singleton.mpr heq)
    cases findCommand_transition E h with
    | save hbytes => exact Function.update_of_ne hne _ _
    | unchanged | wallet wallet => rfl
  | _ => cases findCommand_transition E h <;> rfl

/-- After `save`, the file holds the blockchain. -/
theorem blockchainSerialize_of_save {ω : Oracle} {s s' : State κ φ} {path : φ} {reply : Reply}
    (h : findCommand E ω s (.save path) = .ok (reply, s')) :
    ∃ bytes, blockchainSerialize E s.blockchain = .ok bytes ∧ s'.files path = some bytes := by
  obtain ⟨bytes, hbytes, h⟩ := Except.bind_eq_ok_iff.mp h
  obtain rfl := (Prod.mk.inj (Except.ok.inj h)).2
  exact ⟨bytes, hbytes, Function.update_self _ _ _⟩

/-! ### One disk -/

/-- The clients see the same files. -/
def OneDisk (clients : ι → State κ φ) (files : φ → Option (List UInt8)) : Prop :=
  ∀ i, (clients i).files = files

omit [DecidableEq φ] in
theorem oneDisk_afterCommand {clients : ι → State κ φ} {i : ι} {s : State κ φ} :
    OneDisk (afterCommand clients i s) s.files := by
  intro j
  unfold afterCommand
  split_ifs <;> rfl

/-- A file that no step names to be written keeps its contents. -/
theorem schedule_files {steps : List (ι × Command κ φ × Oracle)} {clients clients' : ι → State κ φ}
    {files : φ → Option (List UInt8)} {path : φ} (hdisk : OneDisk clients files)
    (hrun : schedule E clients steps = .ok clients')
    (hpath : ∀ p ∈ steps, path ∉ p.2.1.written) (j : ι) :
    (clients' j).files path = files path := by
  induction steps generalizing clients files with
  | nil =>
    obtain rfl := Except.ok.inj hrun
    rw [hdisk]
  | cons p steps ih =>
    rw [List.forall_mem_cons] at hpath
    obtain ⟨⟨reply, s⟩, hnext, hrest⟩ := Except.bind_eq_ok_iff.mp hrun
    rw [ih oneDisk_afterCommand hrest hpath.2, findCommand_files hnext hpath.1, hdisk]

/-- A blockchain that was saved is what every client loads, however the clients went on, as long as
nobody wrote to the file. -/
theorem schedule_load_saved {files : φ → Option (List UInt8)}
    {before after : List (ι × Command κ φ × Oracle)} {clients clients' : ι → State κ φ} {i : ι}
    {path : φ} {ω : Oracle}
    (hrun : schedule E (fun _ => initialState files) before = .ok clients)
    (hmeets : ScheduleMeets E (fun _ _ _ => True) [] (fun _ => initialState files) before)
    (hshort : Short (clients i).blockchain)
    (hrun' : schedule E clients ((i, .save path, ω) :: after) = .ok clients')
    (hpath : ∀ p ∈ after, path ∉ p.2.1.written) (j : ι) (ω' : Oracle) :
    findCommand E ω' (clients' j) (.load path) =
      .ok ({ ret := 0, out := ["Loaded blockchain from %s\n"] },
        { clients' j with blockchain := (clients i).blockchain }) := by
  have hreached : Reached E (fun _ _ _ => True) (clients i) :=
    schedule_reached (fun _ => .start files) hrun hmeets (by simp) i
  have hsavable := hreached.integrity.chain.savable E hshort
  obtain ⟨⟨reply, s⟩, hsave, hrest⟩ := Except.bind_eq_ok_iff.mp hrun'
  obtain ⟨bytes, hbytes, hwritten⟩ := blockchainSerialize_of_save hsave
  -- what was saved is still in the file
  have hfile : (clients' j).files path = some bytes := by
    rw [schedule_files oneDisk_afterCommand hrest hpath j, hwritten]
  rw [hsavable.blockchainSerialize_eq E] at hbytes
  obtain rfl := Except.ok.inj hbytes
  simp only [findCommand, handleLoad, hfile, hsavable.blockchainDeserialize_eq E, Except.ok_bind]
  rfl

/-- Client `false` saves its two blocks, client `true` goes on from them, and client `false` mines a
third block; then client `false` gets its two blocks back. -/
theorem twoClients_load_saved :
    ∃ clients clients', afterSteps 2 = .ok clients ∧
      schedule sampleEnv clients
        ((false, .save 0, sampleOracle) :: (twoClients.drop 3).take 4) = .ok clients' ∧
      (clients' false).blockchain.chain.length = 3 ∧
      (clients false).blockchain.chain.length = 2 ∧
      findCommand sampleEnv sampleOracle (clients' false) (.load 0) =
        .ok ({ ret := 0, out := ["Loaded blockchain from %s\n"] },
          { clients' false with blockchain := (clients false).blockchain }) := by
  have hchecked : ((afterSteps 2).toOption.bind fun clients =>
      (schedule sampleEnv clients
        ((false, .save 0, sampleOracle) :: (twoClients.drop 3).take 4)).toOption.map fun clients' =>
          ([(clients' false).blockchain.chain.length, (clients false).blockchain.chain.length],
            decide (Short (clients false).blockchain))) =
      some ([3, 2], true) := by
    decide +kernel
  obtain ⟨clients, hrun, hfacts⟩ := Option.bind_eq_some_iff.mp hchecked
  obtain ⟨clients', hrun', hfacts⟩ := Option.map_eq_some_iff.mp hfacts
  simp only [Prod.mk.injEq, List.cons.injEq, and_true] at hfacts
  obtain ⟨⟨hlength', hlength⟩, hshort⟩ := hfacts
  have hrun := Except.toOption_eq_some_iff.mp hrun
  have hrun' := Except.toOption_eq_some_iff.mp hrun'
  exact ⟨clients, clients', hrun, hrun', hlength', hlength,
    schedule_load_saved hrun (by decide +kernel) (of_decide_eq_true hshort) hrun'
      (by simp [twoClients, Command.written]) false sampleOracle⟩

end HolbertonChain
