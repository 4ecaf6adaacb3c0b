import Mathlib.Data.List.Sort

/-!
# Stable sorts

What a stable sort returns follows from its description (`IsStableSort`): a list in descending order
of its keys is determined by the elements of each key, in their order (`eq_of_filter_eq`).  So such
a sort leaves exactly those lists as they are that are in descending order (`eq_self_iff`).
Insertion sort is one (`isStableSort_insertionSort`).
-/

namespace StableSort

variable {α : Type*} (key : α → ℕ)

/-- The sort puts a list into descending order of the keys, and elements with one key stay in their
order. -/
structure IsStableSort (sort : List α → List α) : Prop where
  descending : ∀ l, (sort l).Pairwise fun a b => key b ≤ key a
  stable : ∀ l k, (sort l).filter (key · = k) = l.filter (key · = k)

variable {key}

/-- The first key of a list in descending order is the largest. -/
theorem key_le_of_mem {a b : α} {l : List α} (h : (a :: l).Pairwise fun a b => key b ≤ key a)
    (hb : b ∈ a :: l) : key b ≤ key a := by
  rcases List.mem_cons.mp hb with rfl | hb
  · exact Nat.le_refl _
  · exact List.rel_of_pairwise_cons h hb

theorem mem_of_filter_eq {a : α} {l l' : List α}
    (h : ∀ k, l.filter (key · = k) = l'.filter (key · = k)) (ha : a ∈ l) : a ∈ l' := by
  have hmem : a ∈ l.filter (key · = key a) := List.mem_filter.mpr ⟨ha, by simp⟩
  rw [h] at hmem
  exact (List.mem_filter.mp hmem).1

/-- Two lists in descending order with the same elements of each key, in the same order, are
equal. -/
theorem eq_of_filter_eq {l l' : List α} (hl : l.Pairwise fun a b => key b ≤ key a)
    (hl' : l'.Pairwise fun a b => key b ≤ key a)
    (h : ∀ k, l.filter (key · = k) = l'.filter (key · = k)) : l = l' := by
  induction l generalizing l' with
  | nil =>
    refine (List.eq_nil_iff_forall_not_mem.mpr fun a ha => ?_).symm
    exact List.not_mem_nil (mem_of_filter_eq (fun k => (h k).symm) ha)
  | cons a l ih =>
    cases l' with
    | nil => exact absurd (mem_of_filter_eq h List.mem_cons_self) List.not_mem_nil
    | cons a' l' =>
      -- each of the two first elements stands in the other list as well
      have hle := key_le_of_mem hl' (mem_of_filter_eq h List.mem_cons_self)
      have hge :=
        key_le_of_mem hl (mem_of_filter_eq (fun k => (h k).symm) List.mem_cons_self)
      have hkey : key a = key a' := Nat.le_antisymm hle hge
      obtain rfl : a = a' := by
        have hfirst := h (key a)
        rw [List.filter_cons_of_pos (by simp), List.filter_cons_of_pos (by simp [hkey])] at hfirst
        exact (List.cons.inj hfirst).1
      rw [ih hl.of_cons hl'.of_cons fun k => ?_]
      have hrest := h k
      rw [List.filter_cons, List.filter_cons] at hrest
      split_ifs at hrest
      · exact (List.cons.inj hrest).2
      · exact hrest

/-- A stable sort leaves a list as it is if and only if it is in descending order. -/
theorem IsStableSort.eq_self_iff {sort : List α → List α} (h : IsStableSort key sort)
    {l : List α} : sort l = l ↔ l.Pairwise fun a b => key b ≤ key a := by
  constructor
  · intro heq
    rw [← heq]
    exact h.descending l
  · intro hl
    exact eq_of_filter_eq (h.descending l) hl (h.stable l)

variable {r : α → α → Prop} [DecidableRel r]

/-- Insertion sort by the order of the keys is stable. -/
theorem isStableSort_insertionSort (hr : ∀ a b, r a b ↔ key b ≤ key a) :
    IsStableSort key (List.insertionSort r) where
  descending l := by
    have : Std.Total r := ⟨fun a b => by
      rw [hr, hr]
      exact Nat.le_total _ _⟩
    have : IsTrans α r := ⟨fun a b c hab hbc => by
      rw [hr] at hab hbc ⊢
      exact hbc.trans hab⟩
    exact (List.pairwise_insertionSort r l).imp fun hab => (hr _ _).mp hab
  stable l k := by
    have hclass : (l.filter (key · = k)).Pairwise r := by
      refine List.pairwise_of_forall_sublist fun {a b} hab => (hr a b).mpr ?_
      have hka := (List.mem_filter.mp (hab.mem (List.mem_cons_self))).2
      have hkb := (List.mem_filter.mp (hab.mem (List.mem_cons_of_mem a List.mem_cons_self))).2
      simp only [decide_eq_true_eq] at hka hkb
      rw [hka, hkb]
    -- the elements of one key are a sublist of the sorted list, of the length of all of them there
    have hsub := (List.sublist_insertionSort hclass List.filter_sublist).filter (key · = k)
    rw [List.filter_filter] at hsub
    have hperm := (List.perm_insertionSort r l).filter (key · = k)
    simp only [Bool.and_self] at hsub
    exact (hsub.eq_of_length hperm.length_eq.symm).symm

end StableSort
