import HolbertonChain.Sample
import HolbertonChain.V02.Equiv.Records

/-!
# Loading a v0.2 file that is not whole

`blockchain_deserialize` turns away a file without a complete header or with the wrong magic number
or version (`blockchainDeserialize_eq_none`).  Behind the header, `blocks` looks at every `read`,
but its own `NULL` is not looked at, so a file that ends within its blocks is loaded as a blockchain
with a `NULL` list.  In a file of the other byte order the number of blocks is read wrong as well.
So the loader treats a file as it should if and only if it has no right header, or everything its
header announces is there and the number of blocks is read as it was announced
(`loadsOnlyComplete_iff`).

A file cut short is not complete (`not_completeFile_of_append_eq_file`).
-/

namespace HolbertonChain.V02

open Bytes Stdio

variable {κ : Type} (E : Env κ)

/-! ### Complete files -/

/-- The byte order that `hblk_endian` names; the reader takes any byte but that of the host for the
other order. -/
def announcedOrder (endian : UInt8) : Endian := readOrder E (endian != getEndianness E)

/-- The magic number and the version are right, and the complete records of the `n` blocks that the
header announces are there. -/
def CompleteFile (version : Bytes 3) (f : List UInt8) (n : ℕ) : Prop :=
  ∃ (endian : UInt8) (size : Bytes 4) (rest : List UInt8),
    f = withHeader version endian size rest ∧
      n = (decode32 (announcedOrder E endian) size).toNat ∧
      Records (announcedOrder E endian) n rest

/-- A blockchain is loaded of a file only if it is complete, and then with a list of as many blocks
as it announces; of any other file nothing is loaded. -/
def LoadsOnlyComplete (version : Bytes 3) (f : List UInt8) : Prop :=
  ∃ result, blockchainDeserialize E version (some f) = .ok result ∧
    (∀ bc, result = some bc →
      ∃ n bs, CompleteFile E version f n ∧ bc.chain = some bs ∧ bs.length = n) ∧
    ((∀ n, ¬ CompleteFile E version f n) → result = none)

theorem announcedOrder_endian (ord : Endian) : announcedOrder E (Format.endian ord) = ord := by
  rw [announcedOrder, getEndianness_eq, endian_bne, readOrder_bne]

theorem withHeader_inj {version version' : Bytes 3} {endian endian' : UInt8} {size size' : Bytes 4}
    {rest rest' : List UInt8} :
    withHeader version endian size rest = withHeader version' endian' size' rest' ↔
      version = version' ∧ endian = endian' ∧ size = size' ∧ rest = rest' := by
  constructor
  · intro h
    obtain ⟨hversion, h⟩ := List.append_inj (List.append_cancel_left h) (by simp)
    obtain ⟨hendian, h⟩ := List.cons.inj h
    obtain ⟨hsize, hrest⟩ := List.append_inj h (by simp)
    exact ⟨toList_injective hversion, hendian, toList_injective hsize, hrest⟩
  · rintro ⟨rfl, rfl, rfl, rfl⟩
    rfl

theorem withHeader_append (version : Bytes 3) (endian : UInt8) (size : Bytes 4)
    (rest missing : List UInt8) :
    withHeader version endian size rest ++ missing =
      withHeader version endian size (rest ++ missing) := by
  simp only [withHeader, List.append_assoc, List.cons_append]

/-- Complete records are not the beginning of more than themselves. -/
theorem eq_nil_of_records_append {ord : Endian} {bs : List Block}
    (hlen : ∀ b ∈ bs, b.data.len.toNat ≤ 1024) {bytes missing : List UInt8}
    (hrecords : Records ord bs.length bytes)
    (h : bytes ++ missing = bs.flatMap (blockRecord ord)) : missing = [] := by
  induction bs generalizing bytes with
  | nil => exact (List.append_eq_nil_iff.mp h).2
  | cons b bs ih =>
    rw [List.forall_mem_cons] at hlen
    obtain ⟨image, len, data, hash, rest, rfl, hdata, -, hrest⟩ := hrecords
    simp only [List.flatMap_cons, blockRecord, List.append_assoc] at h
    -- field by field, the first record is that of the first block
    obtain ⟨-, h⟩ := List.append_inj h (by simp)
    obtain ⟨hlength, h⟩ := List.append_inj h (by simp)
    rw [toList_injective hlength, decode32_encode32] at hdata
    obtain ⟨-, h⟩ := List.append_inj h (by simp [hdata, hlen.1])
    obtain ⟨-, h⟩ := List.append_inj h (by simp)
    exact ih hlen.2 hrest h

/-- A file cut short is not complete. -/
theorem not_completeFile_of_append_eq_file {version : Bytes 3} {ord : Endian} {bs : List Block}
    (hlt : bs.length < 2 ^ 32) (hlen : ∀ b ∈ bs, b.data.len.toNat ≤ 1024) {f missing : List UInt8}
    (hmissing : missing ≠ []) (h : f ++ missing = file version ord bs) (n : ℕ) :
    ¬ CompleteFile E version f n := by
  rintro ⟨endian, size, rest, rfl, rfl, hrecords⟩
  rw [withHeader_append, file, withHeader_inj] at h
  obtain ⟨-, rfl, rfl, h⟩ := h
  rw [announcedOrder_endian, decode32_encode32, UInt32.toNat_ofNat_of_lt' hlt] at hrecords
  exact hmissing (eq_nil_of_records_append hlen hrecords h)

/-! ### What is loaded -/

/-- Behind a right header, the loader does as it should if the blocks are all there, and as many as
are read. -/
theorem loadsOnlyComplete_withHeader_iff (version : Bytes 3) (endian : UInt8) (size : Bytes 4)
    (rest : List UInt8) :
    LoadsOnlyComplete E version (withHeader version endian size rest) ↔
      CompleteFile E version (withHeader version endian size rest)
        (decode32 E.host size).toNat := by
  have hload := blockchainDeserialize_withHeader E version endian size rest
  constructor
  · rintro ⟨result, hresult, hcomplete, -⟩
    obtain ⟨chain, hblocks, hbc⟩ := Except.bind_eq_ok_iff.mp (hload.symm.trans hresult)
    obtain ⟨n, bs, hfile, rfl, hlength⟩ := hcomplete { chain } (Except.ok.inj hbc).symm
    rwa [← length_of_blocks E hblocks, hlength]
  · intro hcomplete
    have ⟨endian', size', rest', hfile, _, hrecords⟩ := hcomplete
    obtain ⟨-, rfl, rfl, rfl⟩ := withHeader_inj.mp hfile
    obtain ⟨bs, hblocks⟩ := (exists_blocks_iff E (endian != getEndianness E) _ rest).mpr hrecords
    rw [hblocks, Except.ok_bind, Except.pure_eq_ok] at hload
    refine ⟨_, hload, ?_, fun h => absurd hcomplete (h _)⟩
    rintro bc hbc
    obtain rfl := Option.some.inj hbc
    exact ⟨_, bs, hcomplete, rfl, length_of_blocks E hblocks⟩

/-- A file that is cut short behind its header is not treated as it should be, wherever it is
cut. -/
theorem not_loadsOnlyComplete_of_append_eq_file {version : Bytes 3} {ord : Endian}
    {bs : List Block} (hlt : bs.length < 2 ^ 32) (hlen : ∀ b ∈ bs, b.data.len.toNat ≤ 1024)
    {endian : UInt8} {size : Bytes 4} {rest missing : List UInt8} (hmissing : missing ≠ [])
    (h : withHeader version endian size rest ++ missing = file version ord bs) :
    ¬ LoadsOnlyComplete E version (withHeader version endian size rest) := by
  rw [loadsOnlyComplete_withHeader_iff]
  exact not_completeFile_of_append_eq_file E hlt hlen hmissing h _

/-- The loader treats a file as it should if and only if the file has no complete header with the
right magic number and version, or it is complete and announces as many blocks as the host reads in
its header. -/
theorem loadsOnlyComplete_iff (version : Bytes 3) (f : List UInt8) :
    LoadsOnlyComplete E version f ↔
      (∀ (endian : UInt8) (size : Bytes 4) (rest : List UInt8),
        f ≠ withHeader version endian size rest) ∨
      ∃ (endian : UInt8) (size : Bytes 4) (rest : List UInt8),
        f = withHeader version endian size rest ∧
          CompleteFile E version f (decode32 E.host size).toNat := by
  by_cases hheader : ∃ (endian : UInt8) (size : Bytes 4) (rest : List UInt8),
      f = withHeader version endian size rest
  · obtain ⟨endian, size, rest, rfl⟩ := hheader
    rw [loadsOnlyComplete_withHeader_iff]
    constructor
    · intro h
      exact Or.inr ⟨endian, size, rest, rfl, h⟩
    · rintro (h | ⟨endian', size', rest', hfile, h⟩)
      · exact absurd rfl (h endian size rest)
      · obtain ⟨-, rfl, rfl, rfl⟩ := withHeader_inj.mp hfile
        exact h
  · have hnone : ∀ (endian : UInt8) (size : Bytes 4) (rest : List UInt8),
        f ≠ withHeader version endian size rest :=
      fun endian size rest h => hheader ⟨endian, size, rest, h⟩
    have hload := blockchainDeserialize_eq_none E version hnone
    exact ⟨fun _ => Or.inl hnone, fun _ => ⟨none, hload, fun _ => nofun, fun _ => rfl⟩⟩

/-! ### A header with nothing behind it -/

/-- The header of a v0.2 file with one block, and nothing behind it. -/
def headerOnly : List UInt8 := withHeader hblkVersion 1 (encode32 .little 1) []

/-- A file cut short behind its header is loaded, without a list. -/
theorem blockchainDeserialize_headerOnly :
    blockchainDeserialize sampleEnv hblkVersion (some headerOnly) =
      .ok (some { chain := none }) := by
  decide

/-- A file that is not complete is loaded. -/
theorem not_loadsOnlyComplete : ¬ ∀ f : List UInt8, LoadsOnlyComplete sampleEnv hblkVersion f := by
  intro h
  obtain ⟨result, hresult, hcomplete, -⟩ := h headerOnly
  rw [blockchainDeserialize_headerOnly] at hresult
  obtain rfl := Except.ok.inj hresult
  obtain ⟨n, bs, -, hchain, -⟩ := hcomplete { chain := none } rfl
  cases hchain

end HolbertonChain.V02
