import HolbertonChain.Cli.Send
import HolbertonChain.Lib.Hex
import HolbertonChain.Sample
import Mathlib.Tactic.IntervalCases

/-!
# Which addresses are public keys

An address is meant to be the 130 hexadecimal digits of a public key.  `check_string` refuses every
other character at any place, and `string_to_pub` refuses a shorter string; a longer one it cuts off
after 130 digits without a word.  So an address is read as it should be unless it is made of more
than 130 digits (`readsAddress_iff`).
-/

namespace HolbertonChain

open Bytes

variable {κ : Type} (E : Env κ)

/-- The address is 130 hexadecimal digits. -/
def IsAddress (s : List UInt8) : Prop := s.length = 130 ∧ ∀ c ∈ s, Hex.IsDigit c

/-- Byte `k` of the key is 16 times the value of digit `2 * k` of the address plus the value of the
digit behind it. -/
def ByteOf (s : List UInt8) (p : Pub) (k : ℕ) : Prop :=
  ∃ c d hi lo b, s[2 * k]? = some c ∧ Hex.value? c = some hi ∧
    s[2 * k + 1]? = some d ∧ Hex.value? d = some lo ∧
    p.toList[k]? = some b ∧ b.toNat = 16 * hi + lo

/-- An address is converted if and only if it is made of 130 hexadecimal digits, each byte comes
from its two digits, the case of the digits does not matter, and nothing else becomes a receiver. -/
structure ReadsAddress (s : List UInt8) : Prop where
  isSome_iff : (stringToPub s).isSome ↔ IsAddress s
  bytes : ∀ p, stringToPub s = some p → ∀ k < 65, ByteOf s p k
  upper : stringToPub (s.map Hex.upper) = stringToPub s
  receiver : (strToKey E s).1.isSome → IsAddress s

/-! ### One character -/

/-- The branches of `check_string` are the three kinds of digits. -/
theorem checkString_cons (c : UInt8) (cs : List UInt8) :
    checkString (c :: cs) =
      if Hex.IsDigit c then (checkString cs).map (Hex.lower c :: ·) else none := by
  rw [checkString]
  unfold Hex.IsDigit Hex.value? Hex.lower isDigit
  simp only [UInt8.le_iff_toNat_le, Bool.and_eq_true, decide_eq_true_eq,
    show (0x30 : UInt8).toNat = 0x30 from rfl, show (0x39 : UInt8).toNat = 0x39 from rfl,
    show (0x61 : UInt8).toNat = 0x61 from rfl, show (0x66 : UInt8).toNat = 0x66 from rfl,
    show (0x41 : UInt8).toNat = 0x41 from rfl, show (0x46 : UInt8).toNat = 0x46 from rfl,
    show (0x5a : UInt8).toNat = 0x5a from rfl]
  by_cases hdigit : 0x30 ≤ c.toNat ∧ c.toNat ≤ 0x39
  · rw [if_pos hdigit, if_pos hdigit, if_neg (show ¬ (0x41 ≤ c.toNat ∧ c.toNat ≤ 0x5a) by omega)]
    rfl
  · rw [if_neg hdigit, if_neg hdigit]
    by_cases hlow : 0x61 ≤ c.toNat ∧ c.toNat ≤ 0x66
    · rw [if_pos hlow, if_pos hlow, if_neg (show ¬ (0x41 ≤ c.toNat ∧ c.toNat ≤ 0x5a) by omega)]
      rfl
    · rw [if_neg hlow, if_neg hlow]
      by_cases hup : 0x41 ≤ c.toNat ∧ c.toNat ≤ 0x46
      · rw [if_pos hup, if_pos hup, if_pos (show 0x41 ≤ c.toNat ∧ c.toNat ≤ 0x5a by omega)]
        rfl
      · rw [if_neg hup, if_neg hup]
        rfl

/-- What `sscanf` makes of a digit that was lowered is its value. -/
theorem toNat_hexValue_lower {c : UInt8} {n : ℕ} (h : Hex.value? c = some n) :
    (hexValue (Hex.lower c)).toNat = n ∧ n < 16 := by
  rw [← Hex.value?_lower, Hex.value?_eq] at h
  have hrange := Hex.toNat_lower (c := c)
  have hlt := c.toNat_lt
  have hnot : ¬ (0x41 ≤ (Hex.lower c).toNat ∧ (Hex.lower c).toNat ≤ 0x46) := by
    split_ifs at hrange <;> omega
  unfold hexValue isDigit
  simp only [Bool.and_eq_true, decide_eq_true_eq, UInt8.le_iff_toNat_le,
    show (0x30 : UInt8).toNat = 0x30 from rfl, show (0x39 : UInt8).toNat = 0x39 from rfl]
  generalize hl : Hex.lower c = l at *
  rw [if_neg hnot] at h
  by_cases hdigit : 0x30 ≤ l.toNat ∧ l.toNat ≤ 0x39
  · rw [if_pos hdigit] at h ⊢
    have hle : (0x30 : UInt8) ≤ l := UInt8.le_iff_toNat_le.mpr hdigit.1
    rw [UInt8.toNat_sub_of_le _ _ hle, show (0x30 : UInt8).toNat = 0x30 from rfl]
    have hn := Option.some.inj h
    omega
  · rw [if_neg hdigit] at h ⊢
    by_cases hlow : 0x61 ≤ l.toNat ∧ l.toNat ≤ 0x66
    · rw [if_pos hlow] at h
      have hn := Option.some.inj h
      have hle : (0x61 : UInt8) ≤ l := UInt8.le_iff_toNat_le.mpr hlow.1
      rw [UInt8.toNat_add, UInt8.toNat_sub_of_le _ _ hle,
        show (0x61 : UInt8).toNat = 0x61 from rfl, show (10 : UInt8).toNat = 10 from rfl]
      omega
    · rw [if_neg hlow] at h
      cases h

/-! ### The whole string -/

/-- A string is accepted if every character is a digit, and its letters are then lowered. -/
theorem checkString_eq (s : List UInt8) :
    checkString s = if Hex.AllDigits s then some (s.map Hex.lower) else none := by
  induction s with
  | nil => rfl
  | cons c cs ih =>
    have hcons : Hex.AllDigits (c :: cs) ↔ Hex.IsDigit c ∧ Hex.AllDigits cs :=
      List.forall_mem_cons
    rw [checkString_cons, ih]
    by_cases hc : Hex.IsDigit c
    · by_cases hcs : Hex.AllDigits cs
      · rw [if_pos hc, if_pos hcs, if_pos (hcons.mpr ⟨hc, hcs⟩)]
        rfl
      · rw [if_pos hc, if_neg hcs, if_neg (fun h => hcs (hcons.mp h).2)]
        rfl
    · rw [if_neg hc, if_neg (fun h => hc (hcons.mp h).1)]

theorem length_scanPairs {n : ℕ} {l : List UInt8} (h : 2 * n ≤ l.length) :
    (scanPairs n l).length = n := by
  induction n generalizing l with
  | zero => rw [scanPairs]; rfl; exact nofun
  | succ n ih =>
    rcases l with _ | ⟨a, _ | ⟨b, cs⟩⟩
    · simp at h
    · simp at h
      omega
    · simp only [List.length_cons] at h
      rw [scanPairs, List.length_cons, ih (by omega)]

/-- Each byte that is scanned comes from its two digits. -/
theorem getElem?_scanPairs {n k : ℕ} {l : List UInt8} (hk : k < n) {a b : UInt8}
    (ha : l[2 * k]? = some a) (hb : l[2 * k + 1]? = some b) :
    (scanPairs n l)[k]? = some (hexValue a * 16 + hexValue b) := by
  induction k generalizing n l with
  | zero =>
    rcases n with _ | n
    · omega
    rcases l with _ | ⟨a', _ | ⟨b', cs⟩⟩
    · cases ha
    · cases hb
    · obtain rfl := Option.some.inj ha
      obtain rfl := Option.some.inj hb
      rfl
  | succ k ih =>
    rcases n with _ | n
    · omega
    rcases l with _ | ⟨a', _ | ⟨b', cs⟩⟩
    · cases ha
    · cases ha
    · exact ih (by omega) ha hb

/-- The key that is read from an address of digits, however long it is. -/
theorem stringToPub_eq (s : List UInt8) :
    stringToPub s =
      if 130 ≤ s.length ∧ Hex.AllDigits s then
        some (ofList 65 (scanPairs 65 (s.map Hex.lower)))
      else none := by
  unfold stringToPub
  rw [checkString_eq]
  by_cases hlen : s.length < 65 * 2
  · rw [if_pos hlen, if_neg (fun h => absurd h.1 (by omega))]
  · rw [if_neg hlen]
    by_cases hall : Hex.AllDigits s
    · rw [if_pos hall, if_pos ⟨by omega, hall⟩]
      rfl
    · rw [if_neg hall, if_neg (fun h => hall h.2)]
      rfl

theorem isSome_stringToPub_iff {s : List UInt8} :
    (stringToPub s).isSome ↔ 130 ≤ s.length ∧ Hex.AllDigits s := by
  rw [stringToPub_eq]
  split_ifs with h
  · exact iff_of_true rfl h
  · exact iff_of_false Bool.false_ne_true h

/-- The case of the digits does not matter. -/
theorem stringToPub_upper (s : List UInt8) : stringToPub (s.map Hex.upper) = stringToPub s := by
  have hall : Hex.AllDigits (s.map Hex.upper) ↔ Hex.AllDigits s := by
    simp [Hex.AllDigits, Hex.isDigit_upper_iff]
  have hlower : (s.map Hex.upper).map Hex.lower = s.map Hex.lower := by
    rw [List.map_map]
    exact List.map_congr_left fun c _ => Hex.lower_upper c
  rw [stringToPub_eq, stringToPub_eq]
  simp only [hall, hlower, List.length_map]

/-- Each byte of a key that is read comes from its two digits. -/
theorem byteOf_of_stringToPub {s : List UInt8} {p : Pub} (h : stringToPub s = some p) {k : ℕ}
    (hk : k < 65) : ByteOf s p k := by
  rw [stringToPub_eq] at h
  split_ifs at h with hs
  · obtain rfl := Option.some.inj h
    obtain ⟨c, hc⟩ : ∃ c, s[2 * k]? = some c :=
      ⟨_, List.getElem?_eq_getElem (show 2 * k < s.length by omega)⟩
    obtain ⟨d, hd⟩ : ∃ d, s[2 * k + 1]? = some d :=
      ⟨_, List.getElem?_eq_getElem (show 2 * k + 1 < s.length by omega)⟩
    obtain ⟨hi, hhi⟩ := Option.isSome_iff_exists.mp (hs.2 c (List.mem_of_getElem? hc))
    obtain ⟨lo, hlo⟩ := Option.isSome_iff_exists.mp (hs.2 d (List.mem_of_getElem? hd))
    have hscan : (scanPairs 65 (s.map Hex.lower))[k]? =
        some (hexValue (Hex.lower c) * 16 + hexValue (Hex.lower d)) := by
      apply getElem?_scanPairs hk
      · rw [List.getElem?_map, hc]
        rfl
      · rw [List.getElem?_map, hd]
        rfl
    have hlen : (scanPairs 65 (s.map Hex.lower)).length = 65 :=
      length_scanPairs (by rw [List.length_map]; omega)
    refine ⟨c, d, hi, lo, hexValue (Hex.lower c) * 16 + hexValue (Hex.lower d), hc, hhi, hd, hlo,
      ?_, ?_⟩
    · rw [toList_ofList hlen.ge, List.take_of_length_le hlen.le]
      exact hscan
    · obtain ⟨hhival, hhilt⟩ := toNat_hexValue_lower hhi
      obtain ⟨hloval, hlolt⟩ := toNat_hexValue_lower hlo
      rw [UInt8.toNat_add, UInt8.toNat_mul, hhival, hloval, show (16 : UInt8).toNat = 16 from rfl]
      omega

/-! ### Written and read -/

theorem hexChar_spec {n : UInt8} (h : n.toNat < 16) :
    Hex.IsDigit (hexChar n) ∧ Hex.lower (hexChar n) = hexChar n ∧ hexValue (hexChar n) = n := by
  rw [← UInt8.ofNat_toNat (x := n)]
  generalize n.toNat = k at h
  interval_cases k <;> decide

theorem toNat_shiftRight_four_and (b : UInt8) : ((b >>> 4) &&& 0xF).toNat = b.toNat / 16 := by
  have hlt := b.toNat_lt
  rw [UInt8.toNat_and, UInt8.toNat_shiftRight, show (0xF : UInt8).toNat = 2 ^ 4 - 1 from rfl,
    Nat.and_two_pow_sub_one_eq_mod, show (4 : UInt8).toNat % 8 = 4 from rfl,
    Nat.shiftRight_eq_div_pow]
  omega

theorem toNat_and_fifteen (b : UInt8) : (b &&& 0xF).toNat = b.toNat % 16 := by
  rw [UInt8.toNat_and, show (0xF : UInt8).toNat = 2 ^ 4 - 1 from rfl,
    Nat.and_two_pow_sub_one_eq_mod]

/-- The two digits of a byte are read back. -/
theorem hexPair_eq (b : UInt8) :
    hexValue (hexChar ((b >>> 4) &&& 0xF)) * 16 + hexValue (hexChar (b &&& 0xF)) = b := by
  have hlt := b.toNat_lt
  have hhi := toNat_shiftRight_four_and b
  have hlo := toNat_and_fifteen b
  rw [(hexChar_spec (by omega)).2.2, (hexChar_spec (by omega)).2.2]
  apply UInt8.toNat_inj.mp
  rw [UInt8.toNat_add, UInt8.toNat_mul, hhi, hlo, show (16 : UInt8).toNat = 16 from rfl]
  omega

theorem bytesToHex_cons (b : UInt8) (bs : List UInt8) :
    bytesToHex (b :: bs) =
      hexChar ((b >>> 4) &&& 0xF) :: hexChar (b &&& 0xF) :: bytesToHex bs := rfl

theorem length_bytesToHex (bs : List UInt8) : (bytesToHex bs).length = 2 * bs.length := by
  induction bs with
  | nil => rfl
  | cons b bs ih =>
    rw [bytesToHex_cons, List.length_cons, List.length_cons, ih, List.length_cons]
    omega

/-- What is written is made of digits in lower case. -/
theorem digits_bytesToHex (bs : List UInt8) :
    ∀ c ∈ bytesToHex bs, Hex.IsDigit c ∧ Hex.lower c = c := by
  induction bs with
  | nil => exact nofun
  | cons b bs ih =>
    have hlt := b.toNat_lt
    have hhi := hexChar_spec (n := (b >>> 4) &&& 0xF) (by rw [toNat_shiftRight_four_and]; omega)
    have hlo := hexChar_spec (n := b &&& 0xF) (by rw [toNat_and_fifteen]; omega)
    rw [bytesToHex_cons, List.forall_mem_cons, List.forall_mem_cons]
    exact ⟨⟨hhi.1, hhi.2.1⟩, ⟨hlo.1, hlo.2.1⟩, ih⟩

theorem scanPairs_bytesToHex (bs : List UInt8) : scanPairs bs.length (bytesToHex bs) = bs := by
  induction bs with
  | nil => rfl
  | cons b bs ih => rw [bytesToHex_cons, List.length_cons, scanPairs, hexPair_eq, ih]

/-- The address of a public key is read as that key. -/
theorem stringToPub_bytesToHex (p : Pub) : stringToPub (bytesToHex p.toList) = some p := by
  have hlen : (bytesToHex p.toList).length = 130 := by
    rw [length_bytesToHex, length_toList]
  have hlower : (bytesToHex p.toList).map Hex.lower = bytesToHex p.toList := by
    conv_rhs => rw [← List.map_id (bytesToHex p.toList)]
    exact List.map_congr_left fun c hc => (digits_bytesToHex _ c hc).2
  have hscan : scanPairs 65 (bytesToHex p.toList) = p.toList := by
    have h := scanPairs_bytesToHex p.toList
    rwa [length_toList] at h
  rw [stringToPub_eq, if_pos ⟨hlen.ge, fun c hc => (digits_bytesToHex _ c hc).1⟩, hlower, hscan,
    ofList_toList]

/-! ### Addresses that are read as they should be -/

/-- Only an address that is converted becomes a receiver. -/
theorem isSome_stringToPub_of_strToKey {s : List UInt8} (h : (strToKey E s).1.isSome) :
    (stringToPub s).isSome := by
  unfold strToKey at h
  cases hpub : stringToPub s with
  | none =>
    rw [hpub] at h
    cases h
  | some p => rfl

/-- An address is read as it should be unless it is made of more than 130 digits; and what is
written of a key is read back. -/
theorem readsAddress_iff :
    (∀ s, ReadsAddress E s ↔ ¬ (130 < s.length ∧ ∀ c ∈ s, Hex.IsDigit c)) ∧
    ∀ p : Pub, stringToPub (bytesToHex p.toList) = some p := by
  refine ⟨fun s => ⟨?_, fun hshort => ?_⟩, stringToPub_bytesToHex⟩
  · rintro ⟨hiff, -, -, -⟩ ⟨hlen, hall⟩
    have hlen' := (hiff.mp (isSome_stringToPub_iff.mpr ⟨hlen.le, hall⟩)).1
    omega
  · have hiff : (stringToPub s).isSome ↔ IsAddress s := by
      rw [isSome_stringToPub_iff]
      constructor
      · rintro ⟨hlen, hall⟩
        have hle : ¬ 130 < s.length := fun h => hshort ⟨h, hall⟩
        exact ⟨by omega, hall⟩
      · rintro ⟨hlen, hall⟩
        exact ⟨hlen.ge, hall⟩
    exact
      { isSome_iff := hiff
        bytes := fun p hp k hk => byteOf_of_stringToPub hp hk
        upper := stringToPub_upper s
        receiver := fun h => hiff.mp (isSome_stringToPub_of_strToKey E h) }

/-- A digit too many is not refused. -/
theorem not_readsAddress : ¬ ∀ s, ReadsAddress sampleEnv s := by
  intro h
  have hlen := ((h (List.replicate 131 0x30)).isSome_iff.mp (by decide +kernel)).1
  rw [List.length_replicate] at hlen
  omega

end HolbertonChain
