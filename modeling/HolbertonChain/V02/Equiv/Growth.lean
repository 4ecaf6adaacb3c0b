import HolbertonChain.V02.Equiv.Validity

/-!
# Chains made with the library of v0.1 and of v0.2

What the programs under `test/` do with a blockchain: they start with `blockchain_create`, make
blocks behind the last one with `block_create`, give them a difficulty, seal them, in v0.1 by
storing their hash and in v0.2 by mining, and save and load the chain (`Grown`).  However that is
done, the chain is one that the library finds valid, with the genesis block in front only, and one
that saving and loading does not change (`grown_valid`).
-/

namespace HolbertonChain.V02

open Bytes CounterSearch

variable {κ : Type} (E : Env κ)

/-! ### The libraries -/

/-- `block_hash(block, block->hash)` -/
def storeHash (block : Block) : Exec Block := do
  let hash ← blockHash E block
  pure { block with hash }

/-- The libraries without transactions. -/
inductive Library where
  | v01
  | v02

namespace Library

/-- `HBLK_VERSION` -/
def hblkVersion : Library → Bytes 3
  | v01 => ⟨[0x30, 0x2e, 0x31], rfl⟩
  | v02 => V02.hblkVersion

/-- How a block is sealed. -/
def sealBlock : Library → Block → Exec Block
  | v01 => storeHash E
  | v02 => blockMine E

/-- `block_is_valid` -/
def isValid : Library → Block → Option Block → Exec ℕ
  | v01 => blockIsValidV01 E
  | v02 => blockIsValid E

/-- The last check of `block_is_valid`. -/
def lastCheck : Library → Block → Exec Bool
  | v01 => fun _ => pure true
  | v02 => meetsDifficulty

theorem isValid_eq (lib : Library) : lib.isValid E = blockIsValidWith E lib.lastCheck := by
  cases lib <;> rfl

end Library

/-! ### Sealing a block -/

variable {E}

/-- The stored hash is not among what is hashed. -/
theorem blockHash_with_hash {b : Block} (h : b.data.len.toNat ≤ 1024) (hash : Digest) :
    blockHash E { b with hash } = blockHash E b := by
  have h' : ({ b with hash } : Block).data.len.toNat ≤ 1024 := h
  rw [blockHash_of_le E h', blockHash_of_le E h]
  rfl

/-- What `block_mine` returns passed the test of some nonce. -/
theorem exists_nonce_of_blockMine {block b : Block} (h : blockMine E block = .ok b) :
    ∃ nonce, mineTest E block nonce = .ok (some b) := by
  rcases run_eq_iff.mp h with hends | ⟨-, herror⟩
  · obtain ⟨nonce, -, hstop⟩ := ends_zero_iff.mp hends
    exact ⟨nonce, hstop⟩
  · cases herror

/-- Sealing changes nothing but nonce and hash, and leaves the right hash there, under which the
block passes the last check. -/
theorem Library.sealBlock_eq_ok (lib : Library) {block b : Block}
    (hlen : block.data.len.toNat ≤ 1024) (h : lib.sealBlock E block = .ok b) :
    b = { block.withNonce b.info.nonce with hash := b.hash } ∧
      blockHash E b = .ok b.hash ∧ lib.lastCheck b = .ok true := by
  cases lib with
  | v01 =>
    obtain ⟨hash, hhash, hb⟩ := Except.bind_eq_ok_iff.mp h
    obtain rfl := Except.ok.inj hb
    exact ⟨rfl, (blockHash_with_hash hlen hash).trans hhash, rfl⟩
  | v02 =>
    obtain ⟨nonce, hnonce⟩ := exists_nonce_of_blockMine h
    obtain ⟨hash, hhash, htest⟩ := Except.bind_eq_ok_iff.mp hnonce
    obtain ⟨found, hfound, hb⟩ := Except.bind_eq_ok_iff.mp htest
    cases found with
    | false => cases hb
    | true =>
      obtain rfl := Option.some.inj (Except.ok.inj hb)
      have hlen' : (block.withNonce nonce).data.len.toNat ≤ 1024 := hlen
      exact ⟨rfl, (blockHash_with_hash hlen' hash).trans hhash, hfound⟩

/-! ### Making a block -/

/-- A block made behind another one names its hash, and its buffer is zero behind the data. -/
theorem blockCreate_eq_some {time : UInt64} {prev block : Block} {data : List UInt8}
    {dataLen : UInt32} (h : blockCreate time (some prev) (some data) dataLen = .ok (some block)) :
    block.info.index = prev.info.index + 1 ∧ block.info.prevHash = prev.hash ∧
      block.data.len.toNat ≤ 1024 ∧ block.trimmed = block := by
  unfold blockCreate at h
  dsimp only at h
  generalize hmax : (if 1024 < dataLen then 1024 else dataLen) = maxLen at h
  have hle : maxLen.toNat ≤ 1024 := by
    rw [← hmax]
    split_ifs with hlt
    · decide
    · exact UInt32.le_iff_toNat_le.mp (UInt32.not_lt.mp hlt)
  split_ifs at h with hshort
  obtain rfl := Option.some.inj (Except.ok.inj h)
  refine ⟨rfl, rfl, hle, ?_⟩
  -- cut off at the length and filled up again, the buffer is what it was
  have htake : (data.take maxLen.toNat).length = maxLen.toNat := by
    rw [List.length_take, Nat.min_eq_left (by omega)]
  have hbuffer : (ofList 1024 (data.take maxLen.toNat)).toList.take maxLen.toNat =
      data.take maxLen.toNat := by
    have hinner : (data.take maxLen.toNat).take 1024 = data.take maxLen.toNat :=
      List.take_of_length_le (by omega)
    rw [ofList, toList_mk, hinner]
    exact List.take_left' htake
  unfold Block.trimmed loadedBuffer
  dsimp only
  rw [hbuffer]

/-! ### Growing a chain -/

/-- `block->info.difficulty = difficulty` -/
def Block.withDifficulty (b : Block) (difficulty : UInt32) : Block :=
  { b with info := { b.info with difficulty } }

/-- The chains that are made with a library. -/
inductive Grown (E : Env κ) (lib : Library) : List Block → Prop
  | create {chain : List Block} (hcreate : blockchainCreate.chain = some chain) :
      Grown E lib chain
  | append {chain : List Block} {time : UInt64} {data : List UInt8} {dataLen difficulty : UInt32}
      {prev block b : Block} (hchain : Grown E lib chain)
      (hprev : chain.getLast? = some prev)
      (hcreate : blockCreate time (some prev) (some data) dataLen = .ok (some block))
      (hseal : lib.sealBlock E (block.withDifficulty difficulty) = .ok b) :
      Grown E lib (chain ++ [b])
  | reload {chain loaded : List Block} {f : List UInt8} (hchain : Grown E lib chain)
      (hlt : chain.length < 2 ^ 31)
      (hsave : blockchainSerialize E lib.hblkVersion { chain := some chain } = .ok f)
      (hload : blockchainDeserialize E lib.hblkVersion (some f) =
        .ok (some { chain := some loaded })) :
      Grown E lib loaded

theorem ValidChain.append {isValid : Block → Option Block → Exec ℕ} {chain : List Block}
    {prev b : Block} (h : ValidChain isValid chain) (hprev : chain.getLast? = some prev)
    (hb : isValid b (some prev) = .ok 0) : ValidChain isValid (chain ++ [b]) where
  head := by
    obtain ⟨first, hfirst, hvalid⟩ := h.head
    exact ⟨first, by rw [List.head?_append, hfirst, Option.some_or], hvalid⟩
  next i p c hp hc := by
    have hlen : i + 1 < (chain ++ [b]).length := (List.getElem?_eq_some_iff.mp hc).1
    rw [List.length_append, List.length_singleton] at hlen
    rw [List.getElem?_append_left (by omega)] at hp
    by_cases hi : i + 1 < chain.length
    · rw [List.getElem?_append_left hi] at hc
      exact h.next i p c hp hc
    · -- the block is the one appended
      have hend : i + 1 = chain.length := by omega
      rw [hend, List.getElem?_concat_length] at hc
      obtain rfl := Option.some.inj hc
      rw [List.getLast?_eq_getElem?, ← hend, Nat.add_sub_cancel] at hprev
      obtain rfl := Option.some.inj (hprev.symm.trans hp)
      exact hb

/-- What holds of the chains that the library makes. -/
structure GrownOk (E : Env κ) (lib : Library) (chain : List Block) : Prop where
  valid : ValidChain (blockIsValidWith E lib.lastCheck) chain
  front : genesis ∉ chain.tail
  trimmed : chain.map Block.trimmed = chain

variable {lib : Library} {chain : List Block}

/-- A block that is made behind the last one and sealed continues the chain. -/
theorem GrownOk.append (hgenesis : blockHash E genesis = .ok genesisHash)
    (h : GrownOk E lib chain)
    {time : UInt64} {data : List UInt8} {dataLen difficulty : UInt32} {prev block b : Block}
    (hprev : chain.getLast? = some prev)
    (hcreate : blockCreate time (some prev) (some data) dataLen = .ok (some block))
    (hseal : lib.sealBlock E (block.withDifficulty difficulty) = .ok b)
    (hlt : chain.length < 2 ^ 32 - 1) : GrownOk E lib (chain ++ [b]) := by
  obtain ⟨hindex, hprevHash, hlen, htrimmed⟩ := blockCreate_eq_some hcreate
  have hlen' : (block.withDifficulty difficulty).data.len.toNat ≤ 1024 := hlen
  obtain ⟨hb, hhash, hlast⟩ := lib.sealBlock_eq_ok hlen' hseal
  have hmem : prev ∈ chain := List.mem_of_getLast? hprev
  have hindex' : b.info.index = prev.info.index + 1 := by
    rw [hb]
    exact hindex
  have hdata : b.data = block.data := by rw [hb]; rfl
  have hne : b.info.index ≠ 0 := by
    -- the index counts the blocks
    rw [List.getLast?_eq_getElem?] at hprev
    have hpos : 0 < chain.length := List.length_pos_of_mem hmem
    have hcount := h.valid.index_eq h.front hprev
    intro hzero
    have hnat := congrArg UInt32.toNat (hindex'.symm.trans hzero)
    rw [UInt32.toNat_add, hcount, show (1 : UInt32).toNat = 1 from rfl,
      show (0 : UInt32).toNat = 0 from rfl] at hnat
    omega
  have hnext : IsNext E lib.lastCheck b prev :=
    { index_ne := hne
      index_eq := hindex'
      prev_hash := h.valid.hash_eq hgenesis prev hmem
      prevHash_eq := by
        rw [hb]
        exact hprevHash
      hash_eq := hhash
      len_le := by rw [hdata]; exact hlen
      lastCheck := hlast }
  exact
    { valid := h.valid.append hprev
        ((blockIsValidWith_eq_zero_iff E).mpr (Or.inr ⟨prev, rfl, hnext⟩))
      front := by
        intro hfront
        rw [List.tail_append_of_ne_nil (List.ne_nil_of_mem hmem)] at hfront
        rcases List.mem_append.mp hfront with hold | hnew
        · exact h.front hold
        · exact hne (List.mem_singleton.mp hnew ▸ rfl)
      trimmed := by
        have hself : b.trimmed = b := by
          show Block.mk b.info ⟨loadedBuffer b.data, b.data.len⟩ b.hash = b
          rw [hdata]
          show Block.mk b.info block.trimmed.data b.hash = b
          rw [htrimmed, ← hdata]
        rw [List.map_append, h.trimmed, List.map_singleton, hself] }

theorem grownOk_of_grown (hgenesis : blockHash E genesis = .ok genesisHash)
    (h : Grown E lib chain) (hlt : chain.length < 2 ^ 32) : GrownOk E lib chain := by
  induction h with
  | create hcreate =>
    obtain rfl := Option.some.inj hcreate
    exact
      { valid := validChain_of_zip ((blockIsValidWith_eq_zero_iff E).mpr (Or.inl rfl)) (by simp)
        front := by simp
        trimmed := by rw [List.map_singleton, trimmed_genesis] }
  | append hchain hprev hcreate hseal ih =>
    rw [List.length_append, List.length_singleton] at hlt
    exact (ih (by omega)).append hgenesis hprev hcreate hseal (by omega)
  | reload hchain hshort hsave hload ih =>
    have hok := ih (by omega)
    have hlen := hok.valid.len_le
    rw [blockchainSerialize_eq_file E lib.hblkVersion hshort hlen] at hsave
    obtain rfl := Except.ok.inj hsave
    rw [blockchainDeserialize_file lib.hblkVersion hshort hlen, hok.trimmed] at hload
    obtain rfl := Option.some.inj (congrArg Blockchain.chain
      (Option.some.inj (Except.ok.inj hload)))
    exact hok

/-- However a chain is made with a library, the library finds it valid, no block but the first is
the genesis block, and what is saved of it is loaded as the same chain. -/
theorem grown_valid (hgenesis : blockHash E genesis = .ok genesisHash)
    (h : Grown E lib chain) (hlt : chain.length < 2 ^ 31) :
    ValidChain (lib.isValid E) chain ∧ genesis ∉ chain.tail ∧
      ∃ f, blockchainSerialize E lib.hblkVersion { chain := some chain } = .ok f ∧
        blockchainDeserialize E lib.hblkVersion (some f) =
          .ok (some { chain := some chain }) := by
  have hok := grownOk_of_grown hgenesis h (hlt.trans (by decide))
  have hlen := hok.valid.len_le
  have hload := blockchainDeserialize_file (E := E) lib.hblkVersion hlt hlen
  rw [hok.trimmed] at hload
  rw [lib.isValid_eq]
  exact ⟨hok.valid, hok.front, _, blockchainSerialize_eq_file E lib.hblkVersion hlt hlen, hload⟩

/-- A block with the data `"Holberton"`, mined behind the genesis block for a difficulty of 3. -/
theorem mined_grown_valid :
    ∃ b, Grown sampleEnv .v02 [genesis, b] ∧ b.info.difficulty = 3 ∧
      ValidChain (blockIsValid sampleEnv) [genesis, b] ∧
      genesis ∉ [genesis, b].tail ∧
      ∃ f, blockchainSerialize sampleEnv hblkVersion { chain := some [genesis, b] } = .ok f ∧
        blockchainDeserialize sampleEnv hblkVersion (some f) =
          .ok (some { chain := some [genesis, b] }) := by
  have hchecked : ((blockCreate 1600000000 (some genesis) (some holberton) 9).toOption.join.map
      fun block => (blockMine sampleEnv (block.withDifficulty 3)).isOk) = some true := by
    decide +kernel
  obtain ⟨block, hblock, hmined⟩ := Option.map_eq_some_iff.mp hchecked
  have hcreate : blockCreate 1600000000 (some genesis) (some holberton) 9 =
      .ok (some block) := by
    cases h : blockCreate 1600000000 (some genesis) (some holberton) 9 with
    | error e =>
      rw [h] at hblock
      cases hblock
    | ok created =>
      rw [h] at hblock
      exact congrArg _ hblock
  obtain ⟨b, hb⟩ := Except.isOk_iff_exists.mp hmined
  have hlast : [genesis].getLast? = some genesis := List.getLast?_singleton
  have hgrown : Grown sampleEnv .v02 ([genesis] ++ [b]) :=
    .append (.create rfl) hlast hcreate hb
  have hlen : (block.withDifficulty 3).data.len.toNat ≤ 1024 := (blockCreate_eq_some hcreate).2.2.1
  have hself := (Library.sealBlock_eq_ok .v02 hlen hb).1
  have hdifficulty : b.info.difficulty = 3 := by
    rw [hself]
    rfl
  have hgenesis : blockHash sampleEnv genesis = .ok genesisHash := by decide +kernel
  exact ⟨b, hgrown, hdifficulty, grown_valid hgenesis hgrown (by simp)⟩

end HolbertonChain.V02
