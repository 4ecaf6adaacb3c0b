import Mathlib.Data.List.Count

/-!
# Admitting entries one by one

`admitted ok apply s l` goes through a list with a state: an entry that the state admits is taken
in, and changes the state for the entries behind it.  To test all entries against the first state
instead, and keep those that pass, comes to the same list exactly when no entry is disturbed, that
is when the entries taken in before it make no difference to whether it passes
(`admitted_eq_filter_iff`).
-/

namespace Admission

variable {σ α : Type*} (ok : σ → α → Bool) (apply : σ → α → σ)

/-- The entries taken in, each by the state that those before it lead to. -/
def admitted : σ → List α → List α
  | _, [] => []
  | s, a :: l => if ok s a = true then a :: admitted (apply s a) l else admitted s l

/-- With `before` in front, an entry is admitted in the state that the entries of `before` that `s`
admits lead to from `w`, if and only if `s` admits it. -/
def Undisturbed (s w : σ) (before : List α) (a : α) : Prop :=
  ok ((before.filter (ok s)).foldl apply w) a = ok s a

variable {ok apply}

theorem admitted_sublist (s : σ) (l : List α) : (admitted ok apply s l).Sublist l := by
  induction l generalizing s with
  | nil => exact List.Sublist.refl _
  | cons a l ih =>
    rw [admitted]
    split_ifs
    · exact (ih _).cons_cons a
    · exact (ih _).cons a

/-- Where the first entry is disturbed, the two lists differ in how often they hold it. -/
theorem admitted_cons_ne_filter {s w : σ} {a : α} {l : List α} (h : ok w a ≠ ok s a) :
    admitted ok apply w (a :: l) ≠ (a :: l).filter (ok s) := by
  classical
  intro heq
  rw [admitted] at heq
  split_ifs at heq with hw
  · -- admitted by `w` and not by `s`, which keeps no copy of it
    have hs : ok s a = false := by
      rw [hw] at h
      exact Bool.eq_false_iff.mpr fun hs => h hs.symm
    have hmem : a ∈ (a :: l).filter (ok s) := heq ▸ List.mem_cons_self
    exact absurd (List.mem_filter.mp hmem).2 (by simp [hs])
  · -- admitted by `s`, which keeps every copy of it
    have hs : ok s a = true := by
      cases hsa : ok s a with
      | true => rfl
      | false => exact absurd (Bool.eq_false_iff.mpr hw) (hsa ▸ h)
    have hle : (admitted ok apply w l).count a ≤ l.count a := (admitted_sublist w l).count_le a
    have hcount : ((a :: l).filter (ok s)).count a = l.count a + 1 := by
      rw [List.count_filter hs, List.count_cons_self]
    rw [heq, hcount] at hle
    exact absurd hle (Nat.not_succ_le_self _)

/-- Admission one by one keeps what passes against `s` if and only if no entry is disturbed. -/
theorem admitted_eq_filter_iff {s w : σ} {l : List α} :
    admitted ok apply w l = l.filter (ok s) ↔
      ∀ before a after, l = before ++ a :: after → Undisturbed ok apply s w before a := by
  -- along the list: the entries that pass carry `w` on
  induction l generalizing w with
  | nil => simp [admitted]
  | cons b l ih =>
    by_cases hb : ok w b = ok s b
    · have hcases : (∀ before a after, b :: l = before ++ a :: after →
            Undisturbed ok apply s w before a) ↔
          ∀ before a after, l = before ++ a :: after →
            Undisturbed ok apply s w (b :: before) a := by
        constructor
        · intro h before a after hl
          exact h (b :: before) a after (by rw [hl, List.cons_append])
        · intro h before a after hl
          cases before with
          | nil =>
            obtain ⟨rfl, -⟩ := List.cons.inj hl
            exact hb
          | cons c before =>
            obtain ⟨rfl, hrest⟩ := List.cons.inj hl
            exact h before a after hrest
      rw [hcases, admitted, hb]
      unfold Undisturbed
      split_ifs with hs
      · simp only [List.filter_cons_of_pos hs, List.cons.injEq, true_and, List.foldl_cons]
        exact ih
      · simp only [List.filter_cons_of_neg hs]
        exact ih
    · refine iff_of_false (admitted_cons_ne_filter hb) fun h => hb ?_
      exact h [] b l rfl

end Admission
