import Mathlib.Data.List.Basic

/-!
# Logs that only grow at the end

A `Log first next` starts with the entry `first`, and each later entry was appended behind entries
it is in the relation `next` to: `next before prev a` speaks of the whole log there was and of its
last entry.  What a log is built by can be read off at every position (`Log.getElem`), and what
holds of the first entry and of every appended one holds of all (`Log.forall_mem`).
-/

namespace AppendLog

variable {α : Type*} {first : α} {next : List α → α → α → Prop}

/-- What holds of every entry, once there is another one at the end. -/
theorem forall_mem_concat {P : α → Prop} {l : List α} {a : α} :
    (∀ b ∈ l ++ [a], P b) ↔ (∀ b ∈ l, P b) ∧ P a := by
  rw [List.forall_mem_append, List.forall_mem_singleton]

/-- A log that starts with `first` and grew by entries in the relation `next` to what was there. -/
inductive Log (first : α) (next : List α → α → α → Prop) : List α → Prop
  | start : Log first next [first]
  | append {l : List α} {prev a : α} (hl : Log first next l) (hprev : l.getLast? = some prev)
      (ha : next l prev a) : Log first next (l ++ [a])

theorem Log.head?_eq {l : List α} (h : Log first next l) : l.head? = some first := by
  induction h with
  | start => rfl
  | append hl hprev ha ih => rw [List.head?_append, ih, Option.some_or]

/-- What an entry was in relation to when it was appended. -/
theorem Log.getElem {l : List α} (h : Log first next l) {i : ℕ} {prev a : α}
    (hprev : l[i]? = some prev) (ha : l[i + 1]? = some a) : next (l.take (i + 1)) prev a := by
  induction h with
  | start => simp at ha
  | @append l last b hl hlast hb ih =>
    have hlen : i + 1 < (l ++ [b]).length := (List.getElem?_eq_some_iff.mp ha).1
    rw [List.length_append, List.length_singleton] at hlen
    rw [List.getElem?_append_left (by omega)] at hprev
    by_cases hi : i + 1 < l.length
    · -- the entry was there before
      rw [List.getElem?_append_left hi] at ha
      rw [List.take_append_of_le_length (Nat.le_of_lt hi)]
      exact ih hprev ha
    · -- the entry is the one appended last
      have hend : i + 1 = l.length := by omega
      rw [hend, List.getElem?_concat_length] at ha
      rw [List.getLast?_eq_getElem?, ← hend, Nat.add_sub_cancel] at hlast
      obtain rfl := Option.some.inj ha
      obtain rfl := Option.some.inj (hlast.symm.trans hprev)
      rw [hend, List.take_left]
      exact hb

/-- The first entry and every appended one. -/
theorem Log.forall_mem {P : α → Prop} {l : List α} (h : Log first next l) (hfirst : P first)
    (hnext : ∀ before prev a, before.getLast? = some prev → next before prev a → P a) :
    ∀ a ∈ l, P a := by
  induction h with
  | start => simpa using hfirst
  | append hl hprev ha ih => exact forall_mem_concat.mpr ⟨ih, hnext _ _ _ hprev ha⟩

/-- The last entry is the first one, or was appended behind all the others. -/
theorem Log.last {l : List α} {a : α} (h : Log first next l) (ha : l.getLast? = some a) :
    (l = [first] ∧ a = first) ∨
      ∃ before prev, before.getLast? = some prev ∧ next before prev a ∧ l = before ++ [a] := by
  cases h with
  | start => exact Or.inl ⟨rfl, (Option.some.inj ha).symm⟩
  | append hl hprev hb =>
    rw [List.getLast?_concat] at ha
    obtain rfl := Option.some.inj ha
    exact Or.inr ⟨_, _, hprev, hb, rfl⟩

end AppendLog
