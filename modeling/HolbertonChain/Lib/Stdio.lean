import HolbertonChain.Lib.Bytes

/-!
# Reading records with `fread` and `read`

A call of `fread` whose result is not looked at leaves, at the end of the file, the rest of its
destination as it was.  `File.junk` is the sequence of bytes that fresh memory holds, each of which
is used once.

`Reads read bytes a` says that `read` takes exactly `bytes` from the front of a file and makes `a`
of them, whatever follows and whatever memory holds.
-/

namespace Stdio

open Bytes

/-- An open file: the bytes not yet read, and the contents of the memory that short reads leave
unwritten. -/
structure File where
  rest : List UInt8
  junk : ℕ → UInt8

/-- `fread` of `n` bytes into memory that was never written. -/
def fread (n : ℕ) (fr : File) : Bytes n × File :=
  (⟨fr.rest.take n ++ (List.range (n - fr.rest.length)).map fr.junk, by simp; omega⟩,
    { rest := fr.rest.drop n, junk := fun k => fr.junk (k + (n - fr.rest.length)) })

/-- `read` of `n` bytes, where fewer bytes are refused. -/
def readExact (n : ℕ) (bytes : List UInt8) : Option (Bytes n × List UInt8) :=
  if h : n ≤ bytes.length then some (⟨bytes.take n, by simp [h]⟩, bytes.drop n) else none

/-- The `n` bytes of a record from an offset on. -/
def field {m : ℕ} (v : Bytes m) (offset n : ℕ) : Bytes n := ofList n (v.toList.drop offset)

/-- `n` records of `size` bytes. -/
def freadRecords {α : Type} (size : ℕ) (ofImage : Bytes size → α) : ℕ → File → List α × File
  | 0, fr => ([], fr)
  | n + 1, fr =>
    let (v, fr) := fread size fr
    let (xs, fr) := freadRecords size ofImage n fr
    (ofImage v :: xs, fr)

/-! ### What is there is read -/

variable {α : Type} {m n : ℕ}

/-- `read` takes exactly `bytes` from the front of every file, and makes `a` of them. -/
def Reads (read : File → α × File) (bytes : List UInt8) (a : α) : Prop :=
  ∀ (rest : List UInt8) (junk : ℕ → UInt8), read ⟨bytes ++ rest, junk⟩ = (a, ⟨rest, junk⟩)

theorem reads_fread (v : Bytes n) : Reads (fread n) v.toList v := by
  intro rest junk
  have hshort : n - (v.toList ++ rest).length = 0 := by simp
  have htake : (v.toList ++ rest).take n = v.toList := List.take_left' (length_toList v)
  have hdrop : (v.toList ++ rest).drop n = rest := List.drop_left' (length_toList v)
  unfold fread
  refine Prod.ext ?_ ?_
  · apply toList_injective
    simp
  · simp only [hshort, hdrop, Nat.add_zero]

theorem fread_append (v : Bytes n) (rest : List UInt8) (junk : ℕ → UInt8) :
    fread n ⟨v.toList ++ rest, junk⟩ = (v, ⟨rest, junk⟩) :=
  reads_fread v rest junk

/-- A read that is not refused takes its bytes from the front. -/
theorem readExact_eq_some_iff {bytes rest : List UInt8} {v : Bytes n} :
    readExact n bytes = some (v, rest) ↔ bytes = v.toList ++ rest := by
  unfold readExact
  constructor
  · intro h
    split_ifs at h
    obtain ⟨rfl, rfl⟩ := Prod.mk.inj (Option.some.inj h)
    rw [toList_mk, List.take_append_drop]
  · rintro rfl
    rw [dif_pos (by simp)]
    have htake : (v.toList ++ rest).take n = v.toList := List.take_left' (length_toList v)
    have hdrop : (v.toList ++ rest).drop n = rest := List.drop_left' (length_toList v)
    simp only [htake, hdrop]
    rfl

@[simp] theorem readExact_append (v : Bytes n) (rest : List UInt8) :
    readExact n (v.toList ++ rest) = some (v, rest) :=
  readExact_eq_some_iff.mpr rfl

theorem length_freadRecords (size : ℕ) (ofImage : Bytes size → α) (n : ℕ) (fr : File) :
    (freadRecords size ofImage n fr).1.length = n := by
  induction n generalizing fr with
  | zero => rfl
  | succ n ih => exact congrArg (· + 1) (ih _)

/-- Of records, what each image stands for is read. -/
theorem reads_freadRecords_map {β : Type} {size : ℕ} (ofImage : Bytes size → β)
    (image : α → Bytes size) (l : List α) :
    Reads (freadRecords size ofImage l.length) (l.flatMap fun a => (image a).toList)
      (l.map fun a => ofImage (image a)) := by
  induction l with
  | nil =>
    intro rest junk
    rfl
  | cons a l ih =>
    intro rest junk
    rw [List.flatMap_cons, List.append_assoc, List.length_cons, freadRecords]
    simp only [fread_append, ih rest junk, List.map_cons]

/-- Records are read back if each one is. -/
theorem reads_freadRecords {size : ℕ} {ofImage : Bytes size → α} {image : α → Bytes size}
    (hround : ∀ a, ofImage (image a) = a) (l : List α) :
    Reads (freadRecords size ofImage l.length) (l.flatMap fun a => (image a).toList) l := by
  have hmap := reads_freadRecords_map ofImage image l
  simp only [hround, List.map_id'] at hmap
  exact hmap

end Stdio
