import Mathlib.Algebra.BigOperators.Group.List.Basic
import Mathlib.Algebra.GroupWithZero.Nat

/-!
# Totals in 32-bit arithmetic

A loop that adds `f a` to a `uint32_t` for each `a` of a list ends with the exact total modulo
`2 ^ 32` (`toNat_foldl_add`).  Two such accumulators can agree where the exact totals do not: they
agree together with the totals exactly when both have wrapped around equally often
(`totals_eq_iff`).
-/

namespace WrapSum

variable {α β : Type*}

/-- The exact total of 32-bit values. -/
def total (f : α → UInt32) (l : List α) : ℕ := (l.map fun a => (f a).toNat).sum

@[simp] theorem total_nil (f : α → UInt32) : total f [] = 0 := rfl

@[simp] theorem total_cons (f : α → UInt32) (a : α) (l : List α) :
    total f (a :: l) = (f a).toNat + total f l := by
  simp [total]

theorem total_sublist (f : α → UInt32) {l l' : List α} (h : l.Sublist l') :
    total f l ≤ total f l' := by
  induction h with
  | slnil => exact Nat.le_refl _
  | cons a _ ih =>
    rw [total_cons]
    omega
  | cons_cons a _ ih =>
    rw [total_cons, total_cons]
    omega

/-- The accumulator at the end of the loop. -/
theorem toNat_foldl_add (f : α → UInt32) (l : List α) (acc : UInt32) :
    (l.foldl (fun acc a => acc + f a) acc).toNat = (acc.toNat + total f l) % 2 ^ 32 := by
  induction l generalizing acc with
  | nil =>
    -- the accumulator is less than `2 ^ 32` to begin with
    have hacc : acc.toNat < 2 ^ 32 := acc.toNat_lt
    simp only [List.foldl_nil, total_nil, Nat.add_zero]
    omega
  | cons a l ih =>
    rw [List.foldl_cons, ih, UInt32.toNat_add, total_cons]
    omega

/-- The accumulator depends on the values alone. -/
theorem foldl_add_congr {f : α → UInt32} {g : β → UInt32} {l : List α} {l' : List β}
    (h : l.map f = l'.map g) (acc : UInt32) :
    l.foldl (fun acc a => acc + f a) acc = l'.foldl (fun acc b => acc + g b) acc := by
  calc l.foldl (fun acc a => acc + f a) acc = (l.map f).foldl (· + ·) acc := List.foldl_map.symm
    _ = (l'.map g).foldl (· + ·) acc := by rw [h]
    _ = l'.foldl (fun acc b => acc + g b) acc := List.foldl_map

/-- Equal accumulators stand for equal totals exactly when both wrapped around equally often. -/
theorem totals_eq_iff {f : α → UInt32} {g : β → UInt32} {l : List α} {l' : List β}
    (h : l.foldl (fun acc a => acc + f a) 0 = l'.foldl (fun acc b => acc + g b) 0) :
    total f l = total g l' ↔ total f l / 2 ^ 32 = total g l' / 2 ^ 32 := by
  have hmod := congrArg UInt32.toNat h
  rw [toNat_foldl_add, toNat_foldl_add] at hmod
  simp only [UInt32.toNat_zero, Nat.zero_add] at hmod
  omega

end WrapSum
