import HolbertonChain.Lib.Bytes

/-!
# SHA-256

The hash function of FIPS 180-4, executable.  Words are natural numbers below `2 ^ 32`.  The
definitions are written for the kernel, which then computes a digest in one pass over the message:
with the functions of `Nat` that it evaluates on numerals, and with the words of the message and of
each chaining value evaluated before they are used (`strict`).
-/

namespace Sha256

/-- Evaluate `n` before passing it on: the match forces the numeral. -/
def strict {α : Type} (n : ℕ) (f : ℕ → α) : α :=
  match n with
  | 0 => f 0
  | Nat.succ m => f (Nat.succ m)

/-- The chaining value: eight words. -/
structure State where
  (a b c d e f g h : ℕ)

/-- Sixteen consecutive words of the message schedule. -/
structure Window where
  (w0 w1 w2 w3 w4 w5 w6 w7 w8 w9 w10 w11 w12 w13 w14 w15 : ℕ)

/-- `2 ^ 32` -/
def modulus : ℕ := 0x100000000

/-- A word next to itself, so that a shift of it is a rotation of the word. -/
def twice (x : ℕ) : ℕ := Nat.mul x 0x100000001

/-! ### The functions of section 4.1.2 -/

def ch (x y z : ℕ) : ℕ := Nat.xor (Nat.land x y) (Nat.land (Nat.sub 0xffffffff x) z)

def maj (x y z : ℕ) : ℕ := Nat.xor (Nat.xor (Nat.land x y) (Nat.land x z)) (Nat.land y z)

/-- The exclusive or of three rotations. -/
def rotations (i j k x : ℕ) : ℕ :=
  Nat.mod (Nat.xor (Nat.xor (Nat.shiftRight (twice x) i) (Nat.shiftRight (twice x) j))
    (Nat.shiftRight (twice x) k)) modulus

/-- The exclusive or of two rotations and a shift. -/
def rotationsShift (i j k x : ℕ) : ℕ :=
  Nat.mod (Nat.xor (Nat.xor (Nat.shiftRight (twice x) i) (Nat.shiftRight (twice x) j))
    (Nat.shiftRight x k)) modulus

def bigSigma0 (x : ℕ) : ℕ := rotations 2 13 22 x

def bigSigma1 (x : ℕ) : ℕ := rotations 6 11 25 x

def smallSigma0 (x : ℕ) : ℕ := rotationsShift 7 18 3 x

def smallSigma1 (x : ℕ) : ℕ := rotationsShift 17 19 10 x

/-- The constants `K` of section 4.2.2. -/
def roundConstants : List ℕ :=
  [0x428a2f98, 0x71374491, 0xb5c0fbcf, 0xe9b5dba5, 0x3956c25b, 0x59f111f1, 0x923f82a4, 0xab1c5ed5,
   0xd807aa98, 0x12835b01, 0x243185be, 0x550c7dc3, 0x72be5d74, 0x80deb1fe, 0x9bdc06a7, 0xc19bf174,
   0xe49b69c1, 0xefbe4786, 0x0fc19dc6, 0x240ca1cc, 0x2de92c6f, 0x4a7484aa, 0x5cb0a9dc, 0x76f988da,
   0x983e5152, 0xa831c66d, 0xb00327c8, 0xbf597fc7, 0xc6e00bf3, 0xd5a79147, 0x06ca6351, 0x14292967,
   0x27b70a85, 0x2e1b2138, 0x4d2c6dfc, 0x53380d13, 0x650a7354, 0x766a0abb, 0x81c2c92e, 0x92722c85,
   0xa2bfe8a1, 0xa81a664b, 0xc24b8b70, 0xc76c51a3, 0xd192e819, 0xd6990624, 0xf40e3585, 0x106aa070,
   0x19a4c116, 0x1e376c08, 0x2748774c, 0x34b0bcb5, 0x391c0cb3, 0x4ed8aa4a, 0x5b9cca4f, 0x682e6ff3,
   0x748f82ee, 0x78a5636f, 0x84c87814, 0x8cc70208, 0x90befffa, 0xa4506ceb, 0xbef9a3f7, 0xc67178f2]

/-- The initial chaining value of section 5.3.3. -/
def initial : State :=
  ⟨0x6a09e667, 0xbb67ae85, 0x3c6ef372, 0xa54ff53a, 0x510e527f, 0x9b05688c, 0x1f83d9ab, 0x5be0cd19⟩

/-! ### Compression (section 6.2.2) -/

/-- One round for each constant, with the first word of the window, which then moves on by one word
of the message schedule. -/
def rounds : List ℕ → Window → State → State
  | [], _, s => s
  | k :: ks, ⟨w0, w1, w2, w3, w4, w5, w6, w7, w8, w9, w10, w11, w12, w13, w14, w15⟩,
      ⟨a, b, c, d, e, f, g, h⟩ =>
    let w16 :=
      Nat.mod (Nat.add (Nat.add (smallSigma1 w14) w9) (Nat.add (smallSigma0 w1) w0)) modulus
    let t1 := Nat.add (Nat.add (Nat.add h (bigSigma1 e)) (Nat.add (ch e f g) k)) w0
    let t2 := Nat.add (bigSigma0 a) (maj a b c)
    rounds ks ⟨w1, w2, w3, w4, w5, w6, w7, w8, w9, w10, w11, w12, w13, w14, w15, w16⟩
      ⟨Nat.mod (Nat.add t1 t2) modulus, a, b, c, Nat.mod (Nat.add d t1) modulus, e, f, g⟩

/-- The next chaining value, word by word. -/
def addStates : State → State → State
  | ⟨a, b, c, d, e, f, g, h⟩, ⟨a', b', c', d', e', f', g', h'⟩ =>
    strict (Nat.mod (Nat.add a a') modulus) fun a =>
    strict (Nat.mod (Nat.add b b') modulus) fun b =>
    strict (Nat.mod (Nat.add c c') modulus) fun c =>
    strict (Nat.mod (Nat.add d d') modulus) fun d =>
    strict (Nat.mod (Nat.add e e') modulus) fun e =>
    strict (Nat.mod (Nat.add f f') modulus) fun f =>
    strict (Nat.mod (Nat.add g g') modulus) fun g =>
    strict (Nat.mod (Nat.add h h') modulus) fun h => ⟨a, b, c, d, e, f, g, h⟩

/-- One block of sixteen words after the other. -/
def blocks : List ℕ → State → State
  | w0 :: w1 :: w2 :: w3 :: w4 :: w5 :: w6 :: w7 :: w8 :: w9 :: w10 :: w11 :: w12 :: w13 :: w14 ::
      w15 :: ws, s =>
    let w := ⟨w0, w1, w2, w3, w4, w5, w6, w7, w8, w9, w10, w11, w12, w13, w14, w15⟩
    blocks ws (addStates s (rounds roundConstants w s))
  | _, s => s

/-! ### The digest -/

/-- Four bytes as a big-endian word. -/
def word (a b c d : ℕ) : ℕ :=
  Nat.add (Nat.mul (Nat.add (Nat.mul (Nat.add (Nat.mul a 256) b) 256) c) 256) d

/-- The message as words. -/
def words : List UInt8 → List ℕ
  | a :: b :: c :: d :: rest =>
    strict (word a.toNat b.toNat c.toNat d.toNat) fun w => w :: words rest
  | _ => []

/-- The padding of section 5.1.1: a one bit, zeros, and the length in bits. -/
def pad (m : List UInt8) : List UInt8 :=
  m ++ 0x80 :: (List.replicate ((119 - m.length % 64) % 64) 0
    ++ (Bytes.leBytes 8 (8 * m.length)).reverse)

/-- The SHA-256 digest of a message. -/
def sha256 (m : List UInt8) : Bytes 32 :=
  match blocks (words (pad m)) initial with
  | ⟨a, b, c, d, e, f, g, h⟩ =>
    ⟨[a, b, c, d, e, f, g, h].flatMap fun w => (Bytes.leBytes 4 w).reverse, by simp⟩

/-- The digest of the three bytes of `abc`. -/
example : (sha256 [0x61, 0x62, 0x63]).toList =
    [0xba, 0x78, 0x16, 0xbf, 0x8f, 0x01, 0xcf, 0xea, 0x41, 0x41, 0x40, 0xde,
      0x5d, 0xae, 0x22, 0x23, 0xb0, 0x03, 0x61, 0xa3, 0x96, 0x17, 0x7a, 0x9c,
      0xb4, 0x10, 0xff, 0x61, 0xf2, 0x00, 0x15, 0xad] := by
  decide +kernel

end Sha256
