import Mathlib.Data.List.Basic

/-!
# Filling a buffer through a cursor

A `Cursor` is a buffer with the place at which the next piece is put into it.  A piece is copied
there (`Cursor.copy`), and then the cursor is moved behind it (`Cursor.advance`); each is refused if
it leaves the buffer.  The two together are `Cursor.write`, which appends to what is written so far
and is refused if and only if there is no room (`write_eq_some_iff`, `exists_write_iff`).

Pieces that are written one after the other are written like their concatenation (`write_append`),
and what is as long as the buffer fills it from its start to its end (`write_start`).
-/

namespace FillBuffer

variable {α : Type*}

/-- A buffer, and a place in it or at its end. -/
structure Cursor (α : Type*) where
  buffer : List α
  pos : ℕ
  pos_le : pos ≤ buffer.length

namespace Cursor

/-- The cursor at the start of a buffer. -/
def start (buffer : List α) : Cursor α := ⟨buffer, 0, Nat.zero_le _⟩

/-- Copies a piece to the cursor, which stays where it is. -/
def copy (c : Cursor α) (xs : List α) : Option (Cursor α) :=
  if h : c.pos + xs.length ≤ c.buffer.length then
    some
      { buffer := c.buffer.take c.pos ++ xs ++ c.buffer.drop (c.pos + xs.length)
        pos := c.pos
        pos_le := by simp; omega }
  else none

/-- Moves the cursor. -/
def advance (c : Cursor α) (n : ℕ) : Option (Cursor α) :=
  if h : c.pos + n ≤ c.buffer.length then some { c with pos := c.pos + n, pos_le := h } else none

/-- Copies a piece and moves the cursor behind it. -/
def write (c : Cursor α) (xs : List α) : Option (Cursor α) :=
  (c.copy xs).bind fun c => c.advance xs.length

/-- What stands in front of the cursor. -/
def written (c : Cursor α) : List α := c.buffer.take c.pos

/-- What stands behind it. -/
def rest (c : Cursor α) : List α := c.buffer.drop c.pos

/-! ### In front of the cursor and behind it -/

theorem written_append_rest (c : Cursor α) : c.written ++ c.rest = c.buffer :=
  List.take_append_drop _ _

@[simp] theorem length_written (c : Cursor α) : c.written.length = c.pos := by
  rw [written, List.length_take]
  exact Nat.min_eq_left c.pos_le

theorem length_rest (c : Cursor α) : c.rest.length = c.buffer.length - c.pos := List.length_drop

@[simp] theorem written_start (buffer : List α) : (start buffer).written = [] := rfl

@[simp] theorem rest_start (buffer : List α) : (start buffer).rest = buffer := rfl

/-- A cursor is what stands in front of it and behind it. -/
@[ext] theorem ext_written {c c' : Cursor α} (hwritten : c.written = c'.written)
    (hrest : c.rest = c'.rest) : c = c' := by
  have hbuffer : c.buffer = c'.buffer := by
    rw [← written_append_rest c, ← written_append_rest c', hwritten, hrest]
  have hpos : c.pos = c'.pos := by rw [← length_written c, ← length_written c', hwritten]
  cases c
  cases c'
  simp only [mk.injEq]
  exact ⟨hbuffer, hpos⟩

/-! ### One piece -/

/-- A piece is written if there is room for it, and then it is appended to what is written. -/
theorem write_eq_some_iff {c c' : Cursor α} {xs : List α} :
    c.write xs = some c' ↔
      xs.length ≤ c.rest.length ∧ c'.written = c.written ++ xs ∧
        c'.rest = c.rest.drop xs.length := by
  have hle := c.pos_le
  have hroom : c.pos + xs.length ≤ c.buffer.length ↔ xs.length ≤ c.rest.length := by
    rw [length_rest]
    omega
  rw [← hroom]
  unfold write copy
  by_cases h : c.pos + xs.length ≤ c.buffer.length
  · rw [dif_pos h, Option.bind_some, advance, dif_pos (by simp; omega), Option.some.injEq]
    have htake : (c.buffer.take c.pos ++ xs ++ c.buffer.drop (c.pos + xs.length)).take
        (c.pos + xs.length) = c.written ++ xs :=
      List.take_left' (by simp [hle])
    have hdrop : (c.buffer.take c.pos ++ xs ++ c.buffer.drop (c.pos + xs.length)).drop
        (c.pos + xs.length) = c.rest.drop xs.length := by
      rw [rest, List.drop_drop]
      exact List.drop_left' (by simp [hle])
    constructor
    · rintro rfl
      exact ⟨h, htake, hdrop⟩
    · rintro ⟨-, hwritten, hrest⟩
      exact ext_written (htake.trans hwritten.symm) (hdrop.trans hrest.symm)
  · rw [dif_neg h]
    exact iff_of_false nofun fun hwrite => h hwrite.1

theorem exists_write_iff {c : Cursor α} {xs : List α} :
    (∃ c', c.write xs = some c') ↔ xs.length ≤ c.rest.length := by
  constructor
  · rintro ⟨c', h⟩
    exact (write_eq_some_iff.mp h).1
  · intro h
    have hle := c.pos_le
    rw [length_rest] at h
    unfold write copy
    rw [dif_pos (by omega), Option.bind_some, advance, dif_pos (by simp; omega)]
    exact ⟨_, rfl⟩

/-! ### Pieces one after the other -/

theorem write_nil (c : Cursor α) : c.write [] = some c := by
  rw [write_eq_some_iff]
  exact ⟨Nat.zero_le _, (List.append_nil _).symm, rfl⟩

/-- Two pieces are written like one. -/
theorem write_append (c : Cursor α) (xs ys : List α) :
    c.write (xs ++ ys) = (c.write xs).bind fun c => c.write ys := by
  ext c'
  rw [Option.bind_eq_some_iff]
  constructor
  · intro h
    obtain ⟨hroom, hwritten, hrest⟩ := write_eq_some_iff.mp h
    rw [List.length_append] at hroom hrest
    obtain ⟨c₁, h₁⟩ := exists_write_iff.mpr (show xs.length ≤ c.rest.length by omega)
    obtain ⟨-, hwritten₁, hrest₁⟩ := write_eq_some_iff.mp h₁
    refine ⟨c₁, h₁, write_eq_some_iff.mpr ⟨?_, ?_, ?_⟩⟩
    · rw [hrest₁, List.length_drop]
      omega
    · rw [hwritten, hwritten₁, List.append_assoc]
    · rw [hrest, hrest₁, List.drop_drop]
  · rintro ⟨c₁, h₁, h₂⟩
    obtain ⟨hroom₁, hwritten₁, hrest₁⟩ := write_eq_some_iff.mp h₁
    obtain ⟨hroom₂, hwritten₂, hrest₂⟩ := write_eq_some_iff.mp h₂
    rw [hrest₁, List.length_drop] at hroom₂
    refine write_eq_some_iff.mpr ⟨?_, ?_, ?_⟩
    · rw [List.length_append]
      omega
    · rw [hwritten₂, hwritten₁, List.append_assoc]
    · rw [hrest₂, hrest₁, List.drop_drop, List.length_append]

/-! ### A whole buffer -/

/-- What is as long as the buffer fills it to its end. -/
theorem write_start {buffer xs : List α} (h : xs.length = buffer.length) :
    (start buffer).write xs = some ⟨xs, xs.length, Nat.le_refl _⟩ := by
  rw [write_eq_some_iff, written_start, rest_start]
  refine ⟨Nat.le_of_eq h, ?_, ?_⟩
  · exact List.take_length
  · rw [rest, List.drop_length, h, List.drop_length]

end Cursor

end FillBuffer
