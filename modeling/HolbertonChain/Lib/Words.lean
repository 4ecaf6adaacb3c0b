import Mathlib.Data.List.Basic

/-!
# Splitting into words

`words sep` are the longest pieces of a list without the separator, in order, the empty ones left
out: what a loop over `strtok` finds.  Words that are joined by the separator come out again
(`words_join`), and a list has no words if it is made of separators (`words_eq_nil_iff`).
-/

namespace Words

variable {α : Type*} [DecidableEq α]

/-- The words of a list behind the beginning `w` of a word. -/
def wordsFrom (sep : α) : List α → List α → List (List α)
  | w, [] => if w = [] then [] else [w]
  | w, c :: cs =>
    if c = sep then if w = [] then wordsFrom sep [] cs else w :: wordsFrom sep [] cs
    else wordsFrom sep (w ++ [c]) cs

/-- The words of a list. -/
def words (sep : α) (l : List α) : List (List α) := wordsFrom sep [] l

/-- Something in which there is no separator, and not nothing. -/
structure IsWord (sep : α) (w : List α) : Prop where
  ne_nil : w ≠ []
  not_mem : sep ∉ w

/-- Words one behind the other, each with a separator in front but the first. -/
def join (sep : α) : List (List α) → List α
  | [] => []
  | [w] => w
  | w :: ws => w ++ sep :: join sep ws

variable {sep : α} {w : List α}

theorem wordsFrom_append (hw : sep ∉ w) (w' l : List α) :
    wordsFrom sep w' (w ++ l) = wordsFrom sep (w' ++ w) l := by
  induction w generalizing w' with
  | nil => rw [List.nil_append, List.append_nil]
  | cons c cs ih =>
    rw [List.mem_cons, not_or] at hw
    rw [List.cons_append, wordsFrom, if_neg (Ne.symm hw.1), ih hw.2, List.append_assoc]
    rfl

theorem words_word (h : IsWord sep w) : words sep w = [w] := by
  have happend := wordsFrom_append h.not_mem [] []
  rw [List.append_nil, List.nil_append] at happend
  rw [words, happend, wordsFrom, if_neg h.ne_nil]

theorem words_word_cons (h : IsWord sep w) (l : List α) :
    words sep (w ++ sep :: l) = w :: words sep l := by
  rw [words, wordsFrom_append h.not_mem, List.nil_append, wordsFrom, if_pos rfl, if_neg h.ne_nil]
  rfl

/-- Words that are joined come out again. -/
theorem words_join {ws : List (List α)} (h : ∀ w ∈ ws, IsWord sep w) :
    words sep (join sep ws) = ws := by
  induction ws with
  | nil => rfl
  | cons w ws ih =>
    rw [List.forall_mem_cons] at h
    cases ws with
    | nil => exact words_word h.1
    | cons w' ws =>
      show words sep (w ++ sep :: join sep (w' :: ws)) = _
      rw [words_word_cons h.1, ih h.2]

/-- A word that was begun comes out. -/
theorem wordsFrom_ne_nil (hw : w ≠ []) (l : List α) : wordsFrom sep w l ≠ [] := by
  induction l generalizing w with
  | nil => simp [wordsFrom, hw]
  | cons c cs ih =>
    rw [wordsFrom]
    split_ifs
    · simp
    · exact ih (by simp)

/-- There are no words in separators alone. -/
theorem words_eq_nil_iff {l : List α} : words sep l = [] ↔ ∀ c ∈ l, c = sep := by
  induction l with
  | nil => simp [words, wordsFrom]
  | cons c cs ih =>
    rw [List.forall_mem_cons, ← ih, words, wordsFrom]
    by_cases hc : c = sep
    · rw [if_pos hc, if_pos rfl]
      exact (and_iff_right hc).symm
    · rw [if_neg hc]
      exact ⟨fun h => absurd h (wordsFrom_ne_nil (by simp) cs), fun h => absurd h.1 hc⟩

end Words
