import HolbertonChain.Block.Equiv.References
import HolbertonChain.Lib.HashChain
import HolbertonChain.V02.Block
import HolbertonChain.V02.Equiv.RoundTrip

/-!
# Chains that v0.1 and v0.2 find valid

`block_is_valid` is for one block and the one in front of it.  A whole chain is valid (`ValidChain`)
if each of its blocks is; in v0.2 that is validity in v0.1 and proof of work for each block.  What
validity says nothing about are the bytes of a buffer behind the data: they are not hashed, and no
file holds them (`Block.trimmed`).

- Saved and loaded, a valid chain is valid again, trimmed, and its file is the same
  (`validChain_reload`).
- Without collisions of SHA-256, two valid chains agree, trimmed, up to a fork, and no block behind
  it on the one has the hash of a block on the other (`validChain_fork`).  That takes chains with
  the genesis block in front only: `block_is_valid` lets it stand behind any block.
-/

namespace HolbertonChain.V02

open Bytes HashChain

variable {κ : Type} (E : Env κ)

/-- Each block of a chain is valid behind the block in front of it. -/
structure ValidChain (isValid : Block → Option Block → Exec ℕ) (chain : List Block) : Prop where
  head : ∃ b, chain.head? = some b ∧ isValid b none = .ok 0
  next : ∀ i prev b, chain[i]? = some prev → chain[i + 1]? = some b →
    isValid b (some prev) = .ok 0

/-- The validity of a chain can be computed. -/
theorem validChain_of_zip {isValid : Block → Option Block → Exec ℕ} {b : Block} {chain : List Block}
    (hhead : isValid b none = .ok 0)
    (hnext : ∀ p ∈ (b :: chain).zip chain, isValid p.2 (some p.1) = .ok 0) :
    ValidChain isValid (b :: chain) where
  head := ⟨b, rfl, hhead⟩
  next i prev c hprev hc := by
    apply hnext (prev, c)
    apply List.mem_of_getElem? (i := i)
    rw [List.getElem?_zip_eq_some]
    exact ⟨hprev, hc⟩

/-- A block whose buffer is zero behind the data. -/
def Block.trimmed (b : Block) : Block :=
  { b with data := { b.data with buffer := loadedBuffer b.data } }

theorem trimmed_genesis : genesis.trimmed = genesis := by
  decide +kernel

/-! ### Bytes behind the data -/

theorem take_trimmed (b : Block) :
    b.trimmed.data.buffer.toList.take b.data.len.toNat =
      b.data.buffer.toList.take b.data.len.toNat := take_ofList_take _ _

theorem blockPreimage_trimmed (b : Block) : blockPreimage E b.trimmed = blockPreimage E b := by
  unfold blockPreimage
  show _ ++ b.trimmed.data.buffer.toList.take b.data.len.toNat = _
  rw [take_trimmed]
  rfl

theorem blockHash_trimmed {b : Block} (h : b.data.len.toNat ≤ 1024) :
    blockHash E b.trimmed = blockHash E b := by
  have htrimmed : b.trimmed.data.len.toNat ≤ 1024 := h
  rw [blockHash_of_le E htrimmed, blockHash_of_le E h, blockPreimage_trimmed]

theorem blockRecord_trimmed (ord : Endian) (b : Block) :
    blockRecord ord b.trimmed = blockRecord ord b := by
  unfold blockRecord
  show _ ++ (_ ++ (b.trimmed.data.buffer.toList.take b.data.len.toNat ++ _)) = _
  rw [take_trimmed]
  rfl

/-- Header and data determine a block, trimmed, up to its hash. -/
theorem trimmed_eq_of_preimage_eq {b b' : Block} (hlen : b.data.len.toNat ≤ 1024)
    (hlen' : b'.data.len.toNat ≤ 1024) (hpre : blockPreimage E b = blockPreimage E b')
    (hhash : b.hash = b'.hash) : b.trimmed = b'.trimmed := by
  obtain ⟨hinfo, hdata⟩ := List.append_inj hpre (by simp)
  have hinfo' : b.info = b'.info := infoBytes_injective E hinfo
  have hlens : b.data.len = b'.data.len := by
    have hlength := congrArg List.length hdata
    rw [List.length_take, List.length_take, length_toList, length_toList, Nat.min_eq_left hlen,
      Nat.min_eq_left hlen'] at hlength
    exact UInt32.toNat_inj.mp hlength
  have hbuffer : loadedBuffer b.data = loadedBuffer b'.data := by
    unfold loadedBuffer
    rw [hdata]
  show Block.mk b.info ⟨loadedBuffer b.data, b.data.len⟩ b.hash = _
  rw [hinfo', hbuffer, hlens, hhash]
  rfl

/-! ### Validity -/

variable {E} {lastCheck : Block → Exec Bool} {chain : List Block}

/-- Being valid behind a block, trimmed or not, is the same up to the last check. -/
theorem IsNext.of_trimmed {lastCheck' : Block → Exec Bool} {b prev : Block}
    (h : IsNext E lastCheck b prev) (hlen : prev.data.len.toNat ≤ 1024)
    (hlast : lastCheck' b.trimmed = .ok true) : IsNext E lastCheck' b.trimmed prev.trimmed where
  index_ne := h.index_ne
  index_eq := h.index_eq
  prev_hash := (blockHash_trimmed E hlen).trans h.prev_hash
  prevHash_eq := h.prevHash_eq
  hash_eq := (blockHash_trimmed E h.len_le).trans h.hash_eq
  len_le := h.len_le
  lastCheck := hlast

namespace ValidChain

theorem head?_eq (h : ValidChain (blockIsValidWith E lastCheck) chain) :
    chain.head? = some genesis := by
  obtain ⟨b, hb, hvalid⟩ := h.head
  rcases (blockIsValidWith_eq_zero_iff E).mp hvalid with rfl | ⟨p, hp, -⟩
  · exact hb
  · cases hp

/-- Every block is the genesis block, or passes the checks behind the block in front. -/
theorem cases_mem (h : ValidChain (blockIsValidWith E lastCheck) chain) {b : Block}
    (hb : b ∈ chain) : b = genesis ∨ ∃ prev ∈ chain, IsNext E lastCheck b prev := by
  obtain ⟨i, hi⟩ := List.mem_iff_getElem?.mp hb
  cases i with
  | zero =>
    rw [← List.head?_eq_getElem?, h.head?_eq] at hi
    exact Or.inl (Option.some.inj hi).symm
  | succ i =>
    have hlt : i < chain.length := Nat.lt_of_succ_lt (List.getElem?_eq_some_iff.mp hi).1
    have hprev := List.getElem?_eq_getElem hlt
    have hvalid := h.next i _ b hprev hi
    rcases (blockIsValidWith_eq_zero_iff E).mp hvalid with hgenesis | ⟨p, hp, hnext⟩
    · exact Or.inl hgenesis
    · obtain rfl := Option.some.inj hp
      exact Or.inr ⟨_, List.mem_of_getElem? hprev, hnext⟩

theorem len_le (h : ValidChain (blockIsValidWith E lastCheck) chain) :
    ∀ b ∈ chain, b.data.len.toNat ≤ 1024 := by
  intro b hb
  rcases h.cases_mem hb with rfl | ⟨prev, -, hnext⟩
  · decide
  · exact hnext.len_le

theorem hash_eq (h : ValidChain (blockIsValidWith E lastCheck) chain)
    (hgenesis : blockHash E genesis = .ok genesisHash) :
    ∀ b ∈ chain, blockHash E b = .ok b.hash := by
  intro b hb
  rcases h.cases_mem hb with rfl | ⟨prev, -, hnext⟩
  · exact hgenesis
  · exact hnext.hash_eq

/-- A valid chain in which each block passes another last check. -/
theorem change (h : ValidChain (blockIsValidWith E lastCheck) chain)
    {lastCheck' : Block → Exec Bool}
    (hlast : ∀ b ∈ chain, b ≠ genesis → lastCheck' b = .ok true) :
    ValidChain (blockIsValidWith E lastCheck') chain where
  head := ⟨genesis, h.head?_eq, (blockIsValidWith_eq_zero_iff E).mpr (Or.inl rfl)⟩
  next i prev b hprev hb := by
    rw [blockIsValidWith_eq_zero_iff]
    have hvalid := h.next i prev b hprev hb
    rcases (blockIsValidWith_eq_zero_iff E).mp hvalid with hgenesis | ⟨p, hp, hn⟩
    · exact Or.inl hgenesis
    · have hne : b ≠ genesis := fun heq => hn.index_ne (heq ▸ rfl)
      exact Or.inr ⟨p, hp, { hn with lastCheck := hlast b (List.mem_of_getElem? hb) hne }⟩

/-- The last check, of each block that is not the genesis block. -/
theorem lastCheck_of_mem (h : ValidChain (blockIsValidWith E lastCheck) chain) {b : Block}
    (hb : b ∈ chain) (hne : b ≠ genesis) : lastCheck b = .ok true := by
  rcases h.cases_mem hb with hgenesis | ⟨prev, -, hnext⟩
  · exact absurd hgenesis hne
  · exact hnext.lastCheck

/-- Trimmed, a valid chain stays valid. -/
theorem trimmed (h : ValidChain (blockIsValidWith E lastCheck) chain)
    (hlast : ∀ b, lastCheck b.trimmed = lastCheck b) :
    ValidChain (blockIsValidWith E lastCheck) (chain.map Block.trimmed) where
  head := by
    refine ⟨genesis, ?_, (blockIsValidWith_eq_zero_iff E).mpr (Or.inl rfl)⟩
    rw [List.head?_map, h.head?_eq, Option.map_some, trimmed_genesis]
  next i prev' b' hprev' hb' := by
    rw [List.getElem?_map, Option.map_eq_some_iff] at hprev' hb'
    obtain ⟨prev, hprev, rfl⟩ := hprev'
    obtain ⟨b, hb, rfl⟩ := hb'
    rw [blockIsValidWith_eq_zero_iff]
    rcases (blockIsValidWith_eq_zero_iff E).mp (h.next i prev b hprev hb) with rfl | ⟨p, hp, hn⟩
    · exact Or.inl trimmed_genesis
    · obtain rfl := Option.some.inj hp
      exact Or.inr ⟨prev.trimmed, rfl, hn.of_trimmed (h.len_le _ (List.mem_of_getElem? hprev))
        ((hlast b).trans hn.lastCheck)⟩

end ValidChain

/-- Validity in v0.2 is validity in v0.1 and proof of work. -/
theorem validChain_iff :
    ValidChain (blockIsValid E) chain ↔
      ValidChain (blockIsValidV01 E) chain ∧
        ∀ b ∈ chain, b ≠ genesis → meetsDifficulty b = .ok true := by
  constructor
  · intro h
    exact ⟨h.change fun _ _ _ => rfl, fun b hb hne => h.lastCheck_of_mem hb hne⟩
  · rintro ⟨h, hwork⟩
    exact h.change hwork

/-! ### Saving and loading -/

/-- What is loaded of the file of a list of blocks are the blocks, trimmed. -/
theorem blockchainDeserialize_file (version : Bytes 3) (hlt : chain.length < 2 ^ 31)
    (hlen : ∀ b ∈ chain, b.data.len.toNat ≤ 1024) :
    blockchainDeserialize E version (some (file version E.host chain)) =
      .ok (some { chain := some (chain.map Block.trimmed) }) := by
  have hread := blocks_flatMap E false hlen
  have horder : readOrder E false = E.host := rfl
  rw [horder] at hread
  rw [file, blockchainDeserialize_withHeader, getEndianness_eq, endian_bne, bne_self_eq_false,
    decode32_encode32, UInt32.toNat_ofNat_of_lt' (hlt.trans (by decide)), hread]
  rfl

/-- A chain that is valid in v0.1 is saved and loaded as the same chain, trimmed, which is valid in
v0.1, and in v0.2 if and only if the chain saved was; saved once more, it gives the same file. -/
theorem validChain_reload (version : Bytes 3) (h : ValidChain (blockIsValidV01 E) chain)
    (hlt : chain.length < 2 ^ 31) :
    ∃ f, blockchainSerialize E version { chain := some chain } = .ok f ∧
      blockchainDeserialize E version (some f) =
        .ok (some { chain := some (chain.map Block.trimmed) }) ∧
      ValidChain (blockIsValidV01 E) (chain.map Block.trimmed) ∧
      (ValidChain (blockIsValid E) (chain.map Block.trimmed) ↔ ValidChain (blockIsValid E) chain) ∧
      blockchainSerialize E version { chain := some (chain.map Block.trimmed) } = .ok f := by
  have hlen := h.len_le
  have hlen' : ∀ b ∈ chain.map Block.trimmed, b.data.len.toNat ≤ 1024 := by
    intro b hb
    obtain ⟨c, hc, rfl⟩ := List.mem_map.mp hb
    exact hlen c hc
  have hrecords : (chain.map Block.trimmed).flatMap (blockRecord E.host) =
      chain.flatMap (blockRecord E.host) := by
    rw [List.flatMap_map]
    exact List.flatMap_congr fun b _ => blockRecord_trimmed E.host b
  refine ⟨file version E.host chain, blockchainSerialize_eq_file E version hlt hlen,
    blockchainDeserialize_file version hlt hlen, h.trimmed fun _ => rfl,
    ⟨fun hwork => ?_, fun hwork => hwork.trimmed fun _ => rfl⟩, ?_⟩
  · -- the last check looks at the hash and the header
    refine validChain_iff.mpr ⟨h, fun b hb hne => ?_⟩
    have hne' : b.trimmed ≠ genesis := by
      intro heq
      rcases h.cases_mem hb with hgenesis | ⟨prev, -, hnext⟩
      · exact hne hgenesis
      · exact hnext.index_ne (congrArg (fun c : Block => c.info.index) heq)
    exact (validChain_iff.mp hwork).2 b.trimmed (List.mem_map_of_mem hb) hne'
  · rw [blockchainSerialize_eq_file E version (by simpa using hlt) hlen', file, file, hrecords,
      List.length_map]

/-- The block behind the genesis block of `test/block_is_valid-main.c`, with given data. -/
def testBlock (data : List UInt8) : Block :=
  let block : Block :=
    { info :=
        { index := 1, difficulty := 0, timestamp := 1600000000, nonce := 0
          prevHash := genesisHash }
      data := { buffer := ofList 1024 data, len := UInt32.ofNat data.length }
      hash := zero 32 }
  { block with hash := sampleEnv.sha256 (blockPreimage sampleEnv block) }

/-- The bytes of `"Holberton"`. -/
def holberton : List UInt8 := genesisData.take 9

/-- The bytes of `"School"`. -/
def school : List UInt8 := genesisData.drop 10

theorem testBlock_valid :
    ValidChain (blockIsValidV01 sampleEnv) [genesis, testBlock holberton] ∧
      ValidChain (blockIsValidV01 sampleEnv) [genesis, testBlock school] :=
  ⟨validChain_of_zip (by decide +kernel) (by decide +kernel),
    validChain_of_zip (by decide +kernel) (by decide +kernel)⟩

/-- The chain of `test/block_is_valid-main.c` is saved and loaded. -/
theorem testBlock_reload :
    let chain := [genesis, testBlock holberton]
    ∃ f, blockchainSerialize sampleEnv hblkVersion { chain := some chain } = .ok f ∧
      blockchainDeserialize sampleEnv hblkVersion (some f) =
        .ok (some { chain := some (chain.map Block.trimmed) }) ∧
      ValidChain (blockIsValidV01 sampleEnv) (chain.map Block.trimmed) ∧
      (ValidChain (blockIsValid sampleEnv) (chain.map Block.trimmed) ↔
        ValidChain (blockIsValid sampleEnv) chain) ∧
      blockchainSerialize sampleEnv hblkVersion { chain := some (chain.map Block.trimmed) } =
        .ok f :=
  validChain_reload hblkVersion testBlock_valid.1 (by decide)

/-! ### Forks -/

/-- The genesis block is valid behind any block. -/
example : blockIsValidV01 sampleEnv genesis (some (testBlock school)) = .ok 0 := by
  decide +kernel

namespace ValidChain

variable {chain' : List Block}

/-- Where the genesis block stands in front only, an index is a position. -/
theorem index_eq (h : ValidChain (blockIsValidWith E lastCheck) chain)
    (hfront : genesis ∉ chain.tail) {i : ℕ} {b : Block} (hb : chain[i]? = some b) :
    b.info.index.toNat = i := by
  induction i generalizing b with
  | zero =>
    rw [← List.head?_eq_getElem?, h.head?_eq] at hb
    obtain rfl := Option.some.inj hb
    rfl
  | succ i ih =>
    have hlt : i < chain.length := Nat.lt_of_succ_lt (List.getElem?_eq_some_iff.mp hb).1
    have hprev := List.getElem?_eq_getElem hlt
    rcases (blockIsValidWith_eq_zero_iff E).mp (h.next i _ b hprev hb) with rfl | ⟨p, hp, hnext⟩
    · rw [← List.getElem?_tail] at hb
      exact absurd (List.mem_of_getElem? hb) hfront
    · obtain rfl := Option.some.inj hp
      have hprevIndex := ih hprev
      -- the index does not wrap, since it is not 0
      have hne : b.info.index.toNat ≠ 0 := fun hzero =>
        hnext.index_ne (UInt32.toNat_inj.mp hzero)
      have hnat := congrArg UInt32.toNat hnext.index_eq
      have hbound := (chain[i]).info.index.toNat_lt
      rw [UInt32.toNat_add, hprevIndex, show (1 : UInt32).toNat = 1 from rfl] at hnat
      omega

theorem linked (h : ValidChain (blockIsValidWith E lastCheck) chain)
    (hfront : genesis ∉ chain.tail) :
    Linked Block.hash (fun b => b.info.prevHash) (fun b => b.info.index.toNat) chain where
  prev_eq i prev b hprev hb := by
    rcases (blockIsValidWith_eq_zero_iff E).mp (h.next i prev b hprev hb) with rfl | ⟨p, hp, hnext⟩
    · rw [← List.getElem?_tail] at hb
      exact absurd (List.mem_of_getElem? hb) hfront
    · obtain rfl := Option.some.inj hp
      exact hnext.prevHash_eq
  pos_eq i b hb := h.index_eq hfront hb

/-- The hashes of two valid chains commit to their blocks, trimmed. -/
theorem commits (h : ValidChain (blockIsValidWith E lastCheck) chain)
    (h' : ValidChain (blockIsValidWith E lastCheck) chain')
    (hgenesis : blockHash E genesis = .ok genesisHash)
    (hfree : CollisionFree E ((chain ++ chain').map (blockPreimage E))) :
    Commits Block.hash (fun b => b.info.prevHash) (fun b => b.info.index.toNat) Block.trimmed
      chain chain' where
  view_eq b hb b' hb' hhash := by
    have hlen := h.len_le b hb
    have hlen' := h'.len_le b' hb'
    have hself := h.hash_eq hgenesis b hb
    have hself' := h'.hash_eq hgenesis b' hb'
    rw [blockHash_of_le E hlen, Except.ok.injEq] at hself
    rw [blockHash_of_le E hlen', Except.ok.injEq] at hself'
    refine trimmed_eq_of_preimage_eq E hlen hlen' ?_ hhash
    apply hfree
    · exact List.mem_map_of_mem (List.mem_append_left _ hb)
    · exact List.mem_map_of_mem (List.mem_append_right _ hb')
    · rw [hself, hself', hhash]
  prev_eq b b' heq := by
    show b.trimmed.info.prevHash = b'.trimmed.info.prevHash
    rw [heq]
  pos_eq b b' heq := by
    show b.trimmed.info.index.toNat = b'.trimmed.info.index.toNat
    rw [heq]

end ValidChain

/-- Two chains that are valid in v0.1, with the genesis block in front only, agree up to a fork, the
bytes behind the data aside, and from there on no block of the one has the hash of a block of the
other. -/
theorem validChain_fork {chain' : List Block} (h : ValidChain (blockIsValidV01 E) chain)
    (h' : ValidChain (blockIsValidV01 E) chain') (hfront : genesis ∉ chain.tail)
    (hfront' : genesis ∉ chain'.tail)
    (hgenesis : blockHash E genesis = .ok genesisHash)
    (hfree : CollisionFree E ((chain ++ chain').map (blockPreimage E))) :
    ∃ k, 0 < k ∧ (chain.take k).map Block.trimmed = (chain'.take k).map Block.trimmed ∧
      ∀ (i j : ℕ) (b b' : Block), k ≤ i → chain[i]? = some b → chain'[j]? = some b' →
        b.hash ≠ b'.hash := by
  obtain ⟨k, hview, -, -, hfork⟩ :=
    exists_fork (h.linked hfront) (h'.linked hfront') (h.commits h' hgenesis hfree)
  refine ⟨k, Nat.pos_of_ne_zero ?_, hview, hfork⟩
  rintro rfl
  -- the genesis block is in front of both
  refine hfork 0 0 genesis genesis le_rfl ?_ ?_ rfl
  · rw [← List.head?_eq_getElem?, h.head?_eq]
  · rw [← List.head?_eq_getElem?, h'.head?_eq]

/-- Two chains with different blocks behind the genesis block. -/
theorem testBlock_fork :
    let chain := [genesis, testBlock holberton]
    let chain' := [genesis, testBlock school]
    ∃ k, 0 < k ∧ (chain.take k).map Block.trimmed = (chain'.take k).map Block.trimmed ∧
      ∀ (i j : ℕ) (b b' : Block), k ≤ i → chain[i]? = some b → chain'[j]? = some b' →
        b.hash ≠ b'.hash :=
  validChain_fork testBlock_valid.1 testBlock_valid.2 (by decide +kernel) (by decide +kernel)
    (by decide +kernel) (collisionFree_of_nodup (by decide +kernel))

end HolbertonChain.V02
