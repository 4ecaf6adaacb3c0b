import HolbertonChain.Cli.Equiv.Durability
import HolbertonChain.Cli.Wallet
import HolbertonChain.Lib.Decimal

/-!
# Wallets that are saved and loaded

Where `wallet_save` reports success it is the command of the model with the two files of the folder
(`findCommand_of_walletSave`), and the wallet is there for every client to load as long as nobody
writes to these files (`schedule_walletLoad_saved`).

`ec_load` tests the length of the folder before it puts a path together, and takes two characters
too few into account, the slash and the terminating zero; `ec_save` has no such test, and closes
files that it could not open.  So loading leaves defined behaviour for the folders of just two
lengths, and saving a wallet for all that are longer (`wallet_fault_iff`).
-/

namespace HolbertonChain

variable {κ φ ι : Type} {H : Host κ φ} {folder : List UInt8}

/-- The file of the private key. -/
def Host.priFile (H : Host κ φ) (folder : List UInt8) : φ := H.file (pathIn folder priFilename)

/-- The file of the public key. -/
def Host.pubFile (H : Host κ φ) (folder : List UInt8) : φ := H.file (pathIn folder pubFilename)

/-! ### Paths -/

theorem sprintfPath_of_le {name : List UInt8} (h : folder.length + name.length + 2 ≤ bufsiz) :
    sprintfPath folder name = .ok (pathIn folder name) := by
  rw [sprintfPath, if_neg]
  · rfl
  · rw [pathIn, List.length_append, List.length_cons]
    omega

theorem sprintfPath_of_lt {name : List UInt8} (h : bufsiz < folder.length + name.length + 2) :
    sprintfPath folder name = .error .outOfBounds := by
  rw [sprintfPath, if_pos]
  · rfl
  · rw [pathIn, List.length_append, List.length_cons]
    omega

theorem length_priFilename : priFilename.length = 7 := by decide

theorem length_pubFilename : pubFilename.length = 11 := by decide

/-! ### Saving -/

variable [DecidableEq φ]

theorem ecSave_of_le {key : κ} {files : φ → Option (List UInt8)} (h : folder.length ≤ 8179) :
    ecSave H key folder files =
      if H.access folder || H.mkdir folder then
        writeKey H key (pathIn folder priFilename) (pathIn folder pubFilename) files
      else .ok (false, files) := by
  have hpri := length_priFilename
  have hpub := length_pubFilename
  rw [ecSave, sprintfPath_of_le (by rw [bufsiz]; omega), sprintfPath_of_le (by rw [bufsiz]; omega)]
  rfl

theorem ecSave_of_lt {key : κ} {files : φ → Option (List UInt8)} (h : 8179 < folder.length) :
    ecSave H key folder files = .error .outOfBounds := by
  have hpri := length_priFilename
  have hpub := length_pubFilename
  by_cases hfits : folder.length + 9 ≤ bufsiz
  · rw [ecSave, sprintfPath_of_le (by omega), sprintfPath_of_lt (by rw [bufsiz]; omega)]
    rfl
  · rw [ecSave, sprintfPath_of_lt (by omega)]
    rfl

theorem writePem_eq_ok_iff {path : List UInt8} {pem : Bool × List UInt8} {ok : Bool}
    {files files' : φ → Option (List UInt8)} :
    writePem H path pem files = .ok (ok, files') ↔
      H.opensToWrite path = true ∧ pem.1 = ok ∧
        Function.update files (H.file path) (some pem.2) = files' := by
  rw [writePem]
  split_ifs with hopens
  · simp [hopens]
  · simp [hopens]

/-- If both files are written, they hold the two keys. -/
theorem writeKey_eq_ok_true {key : κ} {pathPriv pathPub : List UInt8}
    {files files' : φ → Option (List UInt8)}
    (h : writeKey H key pathPriv pathPub files = .ok (true, files')) :
    (H.writePrivate key).1 = true ∧ (H.writePublic key).1 = true ∧
      files' = Function.update (Function.update files (H.file pathPriv)
        (some (H.writePrivate key).2)) (H.file pathPub) (some (H.writePublic key).2) := by
  obtain ⟨⟨written, between⟩, hpriv, h⟩ := Except.bind_eq_ok_iff.mp h
  obtain ⟨-, hok, rfl⟩ := writePem_eq_ok_iff.mp hpriv
  cases written with
  | false => cases (Prod.mk.inj (Except.ok.inj h)).1
  | true =>
    obtain ⟨-, hok', rfl⟩ := writePem_eq_ok_iff.mp h
    exact ⟨hok, hok', rfl⟩

/-- What `wallet_save` has done when it reports success. -/
theorem walletSave_eq_ok {s s' : State κ φ} {reply : Reply}
    (h : walletSave H folder s = .ok (reply, s')) (hret : reply.ret = 0) :
    ∃ key, s.wallet = some key ∧ folder.length ≤ 8179 ∧ (H.writePrivate key).1 = true ∧
      (H.writePublic key).1 = true ∧ reply.out = ["Save wallet (EC key pair)\n"] ∧
      s' = { s with
        files := Function.update (Function.update s.files (H.priFile folder)
          (some (H.writePrivate key).2)) (H.pubFile folder) (some (H.writePublic key).2) } := by
  unfold walletSave at h
  cases hkey : s.wallet with
  | none =>
    rw [hkey] at h
    obtain ⟨rfl, -⟩ := Prod.mk.inj (Except.ok.inj h)
    exact absurd hret (by decide)
  | some key =>
    rw [hkey] at h
    obtain ⟨⟨saved, files⟩, hsave, h⟩ := Except.bind_eq_ok_iff.mp h
    obtain ⟨hreply, rfl⟩ := Prod.mk.inj (Except.ok.inj h)
    cases saved with
    | false =>
      rw [← hreply] at hret
      exact absurd hret (by decide)
    | true =>
      have hle : folder.length ≤ 8179 := by
        by_contra hlt
        rw [ecSave_of_lt (by omega)] at hsave
        cases hsave
      rw [ecSave_of_le hle] at hsave
      split_ifs at hsave with hfolder
      · obtain ⟨hpriv, hpub, rfl⟩ := writeKey_eq_ok_true hsave
        exact ⟨key, rfl, hle, hpriv, hpub, hreply ▸ rfl, rfl⟩
      · cases (Prod.mk.inj (Except.ok.inj hsave)).1

/-- Where it reports success, `wallet_save` is the command of the model. -/
theorem findCommand_of_walletSave {E : Env κ} {s s' : State κ φ} {reply : Reply} (ω : Oracle)
    (h : walletSave H folder s = .ok (reply, s')) (hret : reply.ret = 0) :
    ∃ priPem pubPem, findCommand E ω s
      (.walletSave (H.priFile folder) (H.pubFile folder) priPem pubPem) = .ok (reply, s') := by
  obtain ⟨key, hkey, -, -, -, hout, rfl⟩ := walletSave_eq_ok h hret
  obtain ⟨ret, out⟩ := reply
  refine ⟨(H.writePrivate key).2, (H.writePublic key).2, ?_⟩
  simp only [findCommand, handleWalletSave, hkey]
  subst hret hout
  rfl

/-! ### Loading -/

omit [DecidableEq φ] in
theorem ecLoad_of_le {files : φ → Option (List UInt8)} (h : folder.length ≤ 8179) :
    ecLoad H folder files =
      .ok (((fopenRead H (pathIn folder pubFilename) files).bind H.readPublic).bind fun _ =>
        (fopenRead H (pathIn folder priFilename) files).bind H.readPrivate) := by
  have hpri := length_priFilename
  have hpub := length_pubFilename
  rw [ecLoad, if_neg (by rw [bufsiz]; omega), sprintfPath_of_le (by rw [bufsiz]; omega),
    Except.ok_bind]
  cases (fopenRead H (pathIn folder pubFilename) files).bind H.readPublic with
  | none => rfl
  | some key =>
    show readKey H folder files = _
    rw [readKey, sprintfPath_of_le (by rw [bufsiz]; omega)]
    rfl

/-! ### Faults -/

omit [DecidableEq φ] in
/-- Two lengths pass the test and are too long. -/
theorem ecLoad_eq_error_iff {files : φ → Option (List UInt8)} {e : Fault} :
    ecLoad H folder files = .error e ↔
      e = .outOfBounds ∧ (folder.length = 8180 ∨ folder.length = 8181) := by
  have hpub := length_pubFilename
  rcases Nat.lt_or_ge 8181 folder.length with hlong | hle
  · rw [ecLoad, if_pos (by rw [bufsiz]; omega)]
    constructor
    · intro h
      cases h
    · intro h
      omega
  · rcases Nat.lt_or_ge 8179 folder.length with hlong | hle'
    · rw [ecLoad, if_neg (by rw [bufsiz]; omega), sprintfPath_of_lt (by rw [bufsiz]; omega)]
      exact ⟨fun h => ⟨(Except.error.inj h).symm, by omega⟩, fun h => by rw [h.1]; rfl⟩
    · rw [ecLoad_of_le hle']
      constructor
      · intro h
        cases h
      · intro h
        omega

theorem writePem_eq_error_iff {path : List UInt8} {pem : Bool × List UInt8} {e : Fault}
    {files : φ → Option (List UInt8)} :
    writePem H path pem files = .error e ↔ e = .outOfBounds ∧ H.opensToWrite path = false := by
  rw [writePem]
  split_ifs with hopens
  · simp [hopens]
  · show Except.error Fault.outOfBounds = Except.error e ↔ _
    rw [Except.error.injEq, eq_comm]
    simp [hopens]

theorem writeKey_eq_error_iff {key : κ} {pathPriv pathPub : List UInt8} {e : Fault}
    {files : φ → Option (List UInt8)} :
    writeKey H key pathPriv pathPub files = .error e ↔ e = .outOfBounds ∧
      (H.opensToWrite pathPriv = false ∨
        (H.writePrivate key).1 = true ∧ H.opensToWrite pathPub = false) := by
  rw [writeKey, Except.bind_eq_error_iff, writePem_eq_error_iff]
  constructor
  · rintro (⟨he, hopens⟩ | ⟨⟨written, between⟩, hpriv, h⟩)
    · exact ⟨he, Or.inl hopens⟩
    · obtain ⟨-, hok, -⟩ := writePem_eq_ok_iff.mp hpriv
      cases written with
      | false => cases h
      | true =>
        obtain ⟨he, hopens⟩ := writePem_eq_error_iff.mp h
        exact ⟨he, Or.inr ⟨hok, hopens⟩⟩
  · rintro ⟨he, hopens⟩
    by_cases hfirst : H.opensToWrite pathPriv = true
    · rcases hopens with hopens | ⟨hok, hopens⟩
      · rw [hfirst] at hopens
        cases hopens
      · refine Or.inr ⟨(true, _), writePem_eq_ok_iff.mpr ⟨hfirst, hok, rfl⟩, ?_⟩
        exact writePem_eq_error_iff.mpr ⟨he, hopens⟩
    · exact Or.inl ⟨he, Bool.eq_false_iff.mpr hfirst⟩

theorem ecSave_eq_error_iff {key : κ} {files : φ → Option (List UInt8)} {e : Fault} :
    ecSave H key folder files = .error e ↔ e = .outOfBounds ∧
      (8180 ≤ folder.length ∨
        (H.access folder || H.mkdir folder) = true ∧
          (H.opensToWrite (pathIn folder priFilename) = false ∨
            (H.writePrivate key).1 = true ∧
              H.opensToWrite (pathIn folder pubFilename) = false)) := by
  rcases Nat.lt_or_ge 8179 folder.length with hlong | hle
  · rw [ecSave_of_lt hlong]
    exact ⟨fun h => ⟨(Except.error.inj h).symm, Or.inl hlong⟩, fun h => by rw [h.1]⟩
  · have hshort : ¬ 8180 ≤ folder.length := by omega
    rw [ecSave_of_le hle, or_iff_right hshort]
    split_ifs with hfolder
    · rw [writeKey_eq_error_iff, and_iff_right hfolder]
    · simp [hfolder]

/-- The exact condition under which a wallet command leaves defined behaviour, in any state: without
a wallet nothing is saved. -/
theorem wallet_fault_iff (s : State κ φ) :
    ((∃ e, walletLoad H folder s = .error e) ↔
      folder.length = 8180 ∨ folder.length = 8181) ∧
      ((∃ e, walletSave H folder s = .error e) ↔
        ∃ key, s.wallet = some key ∧
          (8180 ≤ folder.length ∨
            (H.access folder || H.mkdir folder) = true ∧
              (H.opensToWrite (pathIn folder priFilename) = false ∨
                (H.writePrivate key).1 = true ∧
                  H.opensToWrite (pathIn folder pubFilename) = false))) := by
  have hload : ∀ e, walletLoad H folder s = .error e ↔ ecLoad H folder s.files = .error e := by
    intro e
    rw [walletLoad, Except.bind_eq_error_iff]
    exact or_iff_left fun ⟨_, _, h⟩ => by cases h
  have hsave : ∀ e, walletSave H folder s = .error e ↔
      ∃ key, s.wallet = some key ∧ ecSave H key folder s.files = .error e := by
    intro e
    rw [walletSave]
    cases s.wallet with
    | none => exact iff_of_false nofun nofun
    | some key =>
      dsimp only
      rw [Except.bind_eq_error_iff, or_iff_left fun ⟨_, _, h⟩ => by cases h]
      simp only [Option.some.injEq, exists_eq_left']
  simp only [hload, hsave, ecLoad_eq_error_iff, ecSave_eq_error_iff]
  constructor
  · exact ⟨fun ⟨_, _, h⟩ => h, fun h => ⟨_, rfl, h⟩⟩
  · exact ⟨fun ⟨_, key, hkey, _, h⟩ => ⟨key, hkey, h⟩, fun ⟨key, hkey, h⟩ => ⟨_, key, hkey, rfl, h⟩⟩

/-! ### Saved and loaded -/

variable [DecidableEq ι] {E : Env κ}

/-- A wallet that was saved is what every client loads from the folder, however the clients went on,
as long as nobody wrote to its two files. -/
theorem schedule_walletLoad_saved {H' : Host κ φ} {key : κ} {clients clients' : ι → State κ φ}
    {i : ι} {s : State κ φ} {reply : Reply} {steps : List (ι × Command κ φ × Oracle)}
    (hpublic : (H'.readPublic (H.writePublic key).2).isSome)
    (hprivate : H'.readPrivate (H.writePrivate key).2 = some key) (hfile : H'.file = H.file)
    (hne : H.priFile folder ≠ H.pubFile folder) (hkey : (clients i).wallet = some key)
    (hsave : walletSave H folder (clients i) = .ok (reply, s)) (hret : reply.ret = 0)
    (hrun : schedule E (afterCommand clients i s) steps = .ok clients')
    (hwritten : ∀ p ∈ steps, H.priFile folder ∉ p.2.1.written ∧ H.pubFile folder ∉ p.2.1.written)
    (hopens : H'.opensToRead (pathIn folder priFilename) = true ∧
      H'.opensToRead (pathIn folder pubFilename) = true) (j : ι) :
    walletLoad H' folder (clients' j) =
      .ok ({ ret := 0, out := ["Load wallet (EC key pair)\n"] },
        { clients' j with wallet := some key }) := by
  obtain ⟨key', hkey', hle, -, -, -, hs⟩ := walletSave_eq_ok hsave hret
  obtain rfl := Option.some.inj (hkey.symm.trans hkey')
  have hfiles : s.files = Function.update (Function.update (clients i).files (H.priFile folder)
      (some (H.writePrivate key).2)) (H.pubFile folder) (some (H.writePublic key).2) := by
    rw [hs]
  have hpri : (clients' j).files (H.priFile folder) = some (H.writePrivate key).2 := by
    rw [schedule_files oneDisk_afterCommand hrun (fun p hp => (hwritten p hp).1), hfiles,
      Function.update_of_ne hne, Function.update_self]
  have hpub : (clients' j).files (H.pubFile folder) = some (H.writePublic key).2 := by
    rw [schedule_files oneDisk_afterCommand hrun (fun p hp => (hwritten p hp).2), hfiles,
      Function.update_self]
  obtain ⟨read, hread⟩ := Option.isSome_iff_exists.mp hpublic
  have hreadPub : (fopenRead H' (pathIn folder pubFilename) (clients' j).files).bind H'.readPublic =
      some read := by
    rw [fopenRead, if_pos hopens.2, hfile]
    show ((clients' j).files (H.pubFile folder)).bind _ = _
    rw [hpub]
    exact hread
  have hreadPri : (fopenRead H' (pathIn folder priFilename) (clients' j).files).bind
      H'.readPrivate = some key := by
    rw [fopenRead, if_pos hopens.1, hfile]
    show ((clients' j).files (H.priFile folder)).bind _ = _
    rw [hpri]
    exact hprivate
  rw [walletLoad, ecLoad_of_le hle, hreadPub, Option.bind_some, hreadPri]
  rfl

/-- A key of `sampleEnv` between the lines of a PEM file. -/
def samplePem (label : String) (key : ℕ) : List UInt8 :=
  ascii ("-----BEGIN " ++ label).toList ++ Decimal.chars key ++ ascii "-----END".toList

/-- The number of the key of such a file. -/
def readSamplePem (label : String) (pem : List UInt8) : Option ℕ :=
  let begin := ascii ("-----BEGIN " ++ label).toList
  if begin <+: pem then some (digitsValue (pem.drop begin.length)) else none

/-- A disk on which nothing fails. -/
def sampleHost : Host ℕ (List UInt8) where
  file path := path
  writePrivate key := (true, samplePem "EC PRIVATE KEY-----" key)
  writePublic key := (true, samplePem "PUBLIC KEY-----" key)
  readPublic := readSamplePem "PUBLIC KEY-----"
  readPrivate := readSamplePem "EC PRIVATE KEY-----"
  access _ := true
  mkdir _ := false
  opensToWrite _ := true
  opensToRead _ := true

/-- Clients with key 1. -/
def sampleWallets : Bool → State ℕ (List UInt8) := fun _ =>
  { wallet := some 1, blockchain := blockchainCreate, txPool := [], files := fun _ => none }

/-- A folder of 8180 characters passes the test, and its paths do not fit; a client without a wallet
saves nothing there, and comes to no harm. -/
theorem sampleHost_fault :
    (∃ e, walletLoad sampleHost (List.replicate 8180 0x61) (sampleWallets false) = .error e) ∧
      ¬ ∃ e, walletSave sampleHost (List.replicate 8180 0x61)
        (initialState fun _ => none : State ℕ (List UInt8)) = .error e := by
  constructor
  · exact (wallet_fault_iff (sampleWallets false)).1.mpr (Or.inl List.length_replicate)
  · rw [(wallet_fault_iff _).2]
    rintro ⟨key, hkey, -⟩
    cases hkey

/-- Client `false` saves key 1, mines a block and saves the chain; client `true` loads both. -/
theorem sampleHost_walletLoad_saved :
    ∃ clients' : Bool → State ℕ (List UInt8), (clients' true).blockchain.chain.length = 2 ∧
      walletLoad sampleHost (ascii "keys".toList) (clients' true) =
        .ok ({ ret := 0, out := ["Load wallet (EC key pair)\n"] },
          { clients' true with wallet := some 1 }) := by
  let steps : List (Bool × Command ℕ (List UInt8) × Oracle) :=
    [(false, .mine, sampleOracle), (false, .save (ascii "chain".toList), sampleOracle),
      (true, .load (ascii "chain".toList), sampleOracle)]
  have hchecked : ((walletSave sampleHost (ascii "keys".toList) (sampleWallets false)).toOption.bind
      fun saved =>
        (schedule sampleEnv (afterCommand sampleWallets false saved.2) steps).toOption.map
          fun clients' => ([saved.1.ret.natAbs, (clients' true).blockchain.chain.length])) =
      some [0, 2] := by
    decide +kernel
  obtain ⟨⟨reply, s⟩, hsave, hfacts⟩ := Option.bind_eq_some_iff.mp hchecked
  obtain ⟨clients', hrun, hfacts⟩ := Option.map_eq_some_iff.mp hfacts
  simp only [List.cons.injEq, and_true] at hfacts
  obtain ⟨hret, hlength⟩ := hfacts
  exact ⟨clients', hlength, schedule_walletLoad_saved (H := sampleHost) (by decide) (by decide) rfl
    (by decide) rfl (Except.toOption_eq_some_iff.mp hsave) (Int.natAbs_eq_zero.mp hret)
    (Except.toOption_eq_some_iff.mp hrun) (by simp [steps, Command.written]; decide)
    ⟨rfl, rfl⟩ true⟩

end HolbertonChain
