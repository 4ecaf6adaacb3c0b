import HolbertonChain.Blockchain.Equiv.RoundTrip
import HolbertonChain.Cli.Commands

/-!
# Loading a file that is not whole

`blockchain_deserialize` looks at the first seven bytes of the header and at nothing else: whatever
passes `check_header` is turned into a blockchain, and missing bytes are made up from memory.  So a
file that is not `Complete` is turned away exactly when these seven bytes are wrong
(`rejectsUnlessComplete_iff`).  They are the first ones of the file, and where it is shorter, what
the memory held behind it (`checkHeader_headerOf_iff`).

A file cut short is not complete: no format of a blockchain is the beginning of another one's
(`not_complete_of_append_eq_file`).
-/

namespace HolbertonChain

open Bytes Stdio Format

variable {κ φ : Type} (E : Env κ)

/-! ### Files cut short -/

/-- What the reader makes of a blockchain has the same format. -/
theorem file_loadedBlockchain (ord : Endian) (bc : Blockchain) :
    file ord (loadedBlockchain bc) = file ord bc := by
  have hblock (b : Block) : Format.block ord (loadedBlock b) = Format.block ord b := by
    have hdata : (loadedBuffer b.data).toList.take b.data.len.toNat =
        b.data.buffer.toList.take b.data.len.toNat := take_ofList_take _ _
    simp only [Format.block, loadedBlock, Block.txs, hdata]
  simp only [file, loadedBlockchain, List.length_map, List.flatMap_map, hblock]

/-- The eighth byte of a file tells its byte order. -/
theorem ord_eq_of_file_append_eq {ord ord' : Endian} {bc bc' : Blockchain} {l l' : List UInt8}
    (h : file ord bc ++ l = file ord' bc' ++ l') : ord = ord' := by
  have hbyte : endian ord = endian ord' := by
    have h7 := congrArg (fun bytes => bytes[7]?) h
    simpa [file, Format.header] using h7
  cases ord <;> cases ord' <;> first | rfl | exact absurd hbyte (by decide)

/-- A format behind which more follows is no beginning of another format. -/
theorem file_eq_of_append_eq {ord ord' : Endian} {bc bc' : Blockchain} {l l' : List UInt8}
    (hbc : Encodable bc) (hbc' : Encodable bc') (h : file ord bc ++ l = file ord' bc' ++ l') :
    file ord bc = file ord' bc' := by
  obtain rfl := ord_eq_of_file_append_eq h
  -- on a host of that byte order, both are read back
  have hread := blockchainDeserialize_file { sampleEnv with host := ord } hbc (fun _ => 0) l
  have hread' := blockchainDeserialize_file { sampleEnv with host := ord } hbc' (fun _ => 0) l'
  simp only at hread hread'
  rw [h, hread'] at hread
  have hloaded : loadedBlockchain bc' = loadedBlockchain bc :=
    Option.some.inj (Except.ok.inj hread)
  rw [← file_loadedBlockchain ord bc, ← hloaded, file_loadedBlockchain]

/-- A file cut short is not complete. -/
theorem not_complete_of_append_eq_file {ord : Endian} {bc : Blockchain} {f missing : List UInt8}
    (hbc : Encodable bc) (hmissing : missing ≠ []) (h : f ++ missing = file ord bc) :
    ¬ Complete f := by
  rintro ⟨ord', bc', rest, hbc', rfl⟩
  have happend : file ord' bc' ++ (rest ++ missing) = file ord bc ++ [] := by
    rw [← List.append_assoc, h, List.append_nil]
  have hfile := file_eq_of_append_eq hbc' hbc happend
  rw [hfile, List.append_cancel_left_eq] at happend
  exact hmissing (List.append_eq_nil_iff.mp happend).2

/-! ### What is turned away -/

/-- The header as `blockchain_deserialize` reads it. -/
def headerOf (junk : ℕ → UInt8) (f : List UInt8) : BlockHeader :=
  headerOfImage E (fread 16 { rest := f, junk }).1

/-- The first bytes that a read leaves: those of the file, and behind its end those of the
memory. -/
theorem take_fread {k n : ℕ} (h : k ≤ n) (f : List UInt8) (junk : ℕ → UInt8) :
    (fread n { rest := f, junk }).1.toList.take k =
      f.take k ++ (List.range (k - f.length)).map junk := by
  show (f.take n ++ (List.range (n - f.length)).map junk).take k = _
  rw [List.take_append, List.take_take, Nat.min_eq_left h, List.length_take, ← List.map_take,
    List.take_range]
  congr 3
  omega

/-- A header passes if and only if the first seven bytes that are read are the magic number and the
version. -/
theorem checkHeader_headerOf_iff {junk : ℕ → UInt8} {f : List UInt8} :
    checkHeader (headerOf E junk f) = true ↔
      f.take 7 ++ (List.range (7 - f.length)).map junk =
        hblkMagic.toList ++ hblkVersion.toList := by
  rw [← take_fread (show 7 ≤ 16 by decide)]
  unfold headerOf checkHeader headerOfImage
  generalize (fread 16 { rest := f, junk }).1 = v
  have hlen : v.toList.length = 16 := length_toList v
  have hmagic : (field v 0 4).toList = v.toList.take 4 := toList_ofList (by simp)
  have hversion : (field v 4 3).toList = (v.toList.drop 4).take 3 := toList_ofList (by simp)
  rw [Bool.and_eq_true, beq_iff_eq, beq_iff_eq, ← toList_inj, ← toList_inj, hmagic, hversion,
    show 7 = 4 + 3 from rfl, List.take_add]
  constructor
  · rintro ⟨h, h'⟩
    rw [h, h']
  · intro h
    exact List.append_inj h (by simp [hlen])

theorem blockchainDeserialize_of_not_checkHeader {junk : ℕ → UInt8} {f : List UInt8}
    (h : checkHeader (headerOf E junk f) = false) :
    blockchainDeserialize E junk (some f) = .ok none := by
  unfold headerOf at h
  simp [blockchainDeserialize, h]

/-- Behind a header that passes, nothing is turned away. -/
theorem blockchainDeserialize_ne_none {junk : ℕ → UInt8} {f : List UInt8}
    (h : checkHeader (headerOf E junk f) = true) :
    blockchainDeserialize E junk (some f) ≠ .ok none := by
  intro hnone
  unfold headerOf at h
  simp only [blockchainDeserialize, h, if_true] at hnone
  obtain ⟨⟨chain, fr⟩, -, hsome⟩ := Except.bind_eq_ok_iff.mp hnone
  cases hsome

/-- A load of `f` succeeds only if `f` is complete, and otherwise it is turned away and leaves the
state as it is. -/
def RejectsUnlessComplete (φ : Type) (junk : ℕ → UInt8) (f : List UInt8) : Prop :=
  (∀ bc, blockchainDeserialize E junk (some f) = .ok (some bc) → Complete f) ∧
    (¬ Complete f → blockchainDeserialize E junk (some f) = .ok none ∧
      ∀ (ω : Oracle) (path : φ) (s : State κ φ), ω.junk = junk → s.files path = some f →
        ∃ reply, handleLoad E ω path s = .ok (reply, s))

/-- The loader treats a file as it should if and only if the file is complete or its magic number or
version is wrong. -/
theorem rejectsUnlessComplete_iff (junk : ℕ → UInt8) (f : List UInt8) :
    RejectsUnlessComplete E φ junk f ↔
      Complete f ∨ checkHeader (headerOf E junk f) = false := by
  constructor
  · rintro ⟨-, hreject⟩
    by_contra hneither
    rw [not_or, Bool.not_eq_false] at hneither
    exact blockchainDeserialize_ne_none E hneither.2 (hreject hneither.1).1
  · rintro (hcomplete | hheader)
    · exact ⟨fun _ _ => hcomplete, fun h => absurd hcomplete h⟩
    · have hnone := blockchainDeserialize_of_not_checkHeader E hheader
      refine ⟨fun bc hbc => ?_, fun _ => ⟨hnone, ?_⟩⟩
      · rw [hnone] at hbc
        cases hbc
      · rintro ω path s rfl hfile
        rw [handleLoad, hfile, hnone]
        exact ⟨_, rfl⟩

/-! ### A header with nothing behind it -/

/-- The header of a file with one block, and nothing behind it. -/
def headerOnly : List UInt8 := (Format.header .little 1 0).toList

theorem not_complete_headerOnly : ¬ Complete headerOnly := by
  have hencodable : Encodable { chain := [genesisBlock], unspent := [] } :=
    { chain_lt := by decide
      unspent_lt := by decide
      blocks := by
        intro b hb
        rw [List.mem_singleton.mp hb]
        exact ⟨by decide, by decide, by intro t ht; cases ht⟩ }
  have hwhole : headerOnly ++ Format.block .little genesisBlock =
      file .little { chain := [genesisBlock], unspent := [] } := by
    simp [headerOnly, file]
  exact not_complete_of_append_eq_file hencodable (by decide) hwhole

/-- A file that is not complete replaces the blockchain. -/
theorem not_rejectsUnlessComplete :
    ¬ ∀ (junk : ℕ → UInt8) (f : List UInt8), RejectsUnlessComplete sampleEnv ℕ junk f := by
  intro h
  have hreject := (h (fun _ => 0) headerOnly).2 not_complete_headerOnly
  exact blockchainDeserialize_ne_none sampleEnv (by decide) hreject.1

end HolbertonChain
