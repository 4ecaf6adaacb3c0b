import Mathlib.Data.List.Basic
import Mathlib.Data.List.Infix

/-!
# Texts from which what was written can be read

`IsReadable F w f` says that the text `w x`, with a rest behind it that `F` allows, determines both
`f x` and the rest.  Lines have this property, and it passes to texts behind a
label, to two texts in a row, and to lists of entries that begin in a way that the rest does not
(`IsReadable.list`): no text of such a list is another one too.
-/

namespace Readable

variable {α β γ δ ε : Type} {F G : List β → Prop} {w v : α → List β} {f : α → δ} {g : α → ε}

/-- What there is to know of what was written, and the rest, are determined by the text. -/
def IsReadable (F : List β → Prop) (w : α → List β) (f : α → δ) : Prop :=
  ∀ ⦃x y : α⦄ ⦃r r' : List β⦄, F r → F r' → w x ++ r = w y ++ r' → f x = f y ∧ r = r'

/-- With nothing behind them, the texts are different. -/
theorem IsReadable.eq (h : IsReadable F w f) (hnil : F []) {x y : α} (heq : w x = w y) :
    f x = f y :=
  (h hnil hnil (by rw [heq])).1

theorem IsReadable.comap (h : IsReadable F w f) (k : γ → α) :
    IsReadable F (fun z => w (k z)) fun z => f (k z) :=
  fun _ _ _ _ hr hr' heq => h hr hr' heq

/-- Less can be known. -/
theorem IsReadable.view (h : IsReadable F w f) (hfg : ∀ x y, f x = f y → g x = g y) :
    IsReadable F w g := by
  intro x y r r' hr hr' heq
  obtain ⟨hxy, hrest⟩ := h hr hr' heq
  exact ⟨hfg x y hxy, hrest⟩

/-! ### Texts without parts -/

theorem isReadable_const (l : List β) : IsReadable F (fun _ : α => l) fun _ => () :=
  fun _ _ _ _ _ _ heq => ⟨rfl, List.append_cancel_left heq⟩

/-- The first separator marks the end. -/
theorem append_cons_inj {stop : β} {l l' r r' : List β} (hl : stop ∉ l) (hl' : stop ∉ l')
    (heq : l ++ stop :: r = l' ++ stop :: r') : l = l' ∧ r = r' := by
  induction l generalizing l' with
  | nil =>
    cases l' with
    | nil => exact ⟨rfl, List.tail_eq_of_cons_eq heq⟩
    | cons b l' => exact absurd (List.head_eq_of_cons_eq heq) (List.ne_of_not_mem_cons hl')
  | cons b l ih =>
    cases l' with
    | nil => exact absurd (List.head_eq_of_cons_eq heq).symm (List.ne_of_not_mem_cons hl)
    | cons b' l' =>
      obtain ⟨rfl, htail⟩ := List.cons_eq_cons.mp heq
      obtain ⟨rfl, hrest⟩ := ih (List.not_mem_of_not_mem_cons hl)
        (List.not_mem_of_not_mem_cons hl') htail
      exact ⟨rfl, hrest⟩

/-- Lines, which end with a symbol that is not in them. -/
theorem isReadable_line {stop : β} (hstop : ∀ x, stop ∉ w x)
    (hinj : ∀ x y, w x = w y → f x = f y) : IsReadable F (fun x => w x ++ [stop]) f := by
  intro x y r r' _ _ heq
  rw [List.append_assoc, List.append_assoc] at heq
  obtain ⟨hxy, hrest⟩ := append_cons_inj (hstop x) (hstop y) heq
  exact ⟨hinj x y hxy, hrest⟩

/-! ### Texts in a row -/

/-- A label in front. -/
theorem IsReadable.label (h : IsReadable F w f) (l : List β) :
    IsReadable F (fun x => l ++ w x) f := by
  intro x y r r' hr hr' heq
  rw [List.append_assoc, List.append_assoc] at heq
  exact h hr hr' (List.append_cancel_left heq)

/-- Two texts in a row. -/
theorem IsReadable.append (hw : IsReadable G w f) (hv : IsReadable F v g)
    (hG : ∀ x r, F r → G (v x ++ r)) :
    IsReadable F (fun x => w x ++ v x) fun x => (f x, g x) := by
  intro x y r r' hr hr' heq
  rw [List.append_assoc, List.append_assoc] at heq
  obtain ⟨hf, hrest⟩ := hw (hG x r hr) (hG y r' hr') heq
  obtain ⟨hg, hrr'⟩ := hv hr hr' hrest
  exact ⟨Prod.ext hf hg, hrr'⟩

/-- Two texts, the first of which ends where a label begins. -/
theorem IsReadable.append_label {l : List β} (hw : IsReadable (fun r => l <+: r) w f)
    (hv : IsReadable F v g) : IsReadable F (fun x => w x ++ (l ++ v x)) fun x => (f x, g x) := by
  refine hw.append (hv.label l) fun x r _ => ?_
  rw [List.append_assoc]
  exact List.prefix_append _ _

/-- A list of entries that begin with `a`, in front of rests that do not. -/
theorem IsReadable.list {a : List β} (hw : IsReadable (fun r => F r ∨ a <+: r) w f)
    (hstart : ∀ x, a <+: w x) (hstop : ∀ r, F r → ¬ a <+: r) :
    IsReadable F (List.flatMap w) (List.map f) := by
  have hrest : ∀ (xs : List α) r, F r → F (xs.flatMap w ++ r) ∨ a <+: xs.flatMap w ++ r := by
    intro xs r hr
    cases xs with
    | nil => exact Or.inl hr
    | cons x xs =>
      rw [List.flatMap_cons, List.append_assoc]
      exact Or.inr ((hstart x).trans (List.prefix_append _ _))
  have hcons : ∀ x xs (r r' : List β), F r' → List.flatMap w (x :: xs) ++ r ≠ r' := by
    rintro x xs r r' hr' rfl
    rw [List.flatMap_cons, List.append_assoc] at hr'
    exact hstop _ hr' ((hstart x).trans (List.prefix_append _ _))
  intro xs ys r r' hr hr' heq
  induction xs generalizing ys with
  | nil =>
    cases ys with
    | nil => exact ⟨rfl, heq⟩
    | cons y ys => exact absurd heq.symm (hcons y ys r' r hr)
  | cons x xs ih =>
    cases ys with
    | nil => exact absurd heq (hcons x xs r r' hr')
    | cons y ys =>
      rw [List.flatMap_cons, List.flatMap_cons, List.append_assoc, List.append_assoc] at heq
      obtain ⟨hxy, htail⟩ := hw (hrest xs r hr) (hrest ys r' hr') heq
      obtain ⟨hmap, hrr'⟩ := ih htail
      exact ⟨by rw [List.map_cons, List.map_cons, hxy, hmap], hrr'⟩

/-- What begins with `b` does not begin with `a`, if neither of them begins with the other one. -/
theorem not_prefix_of_prefix {a b r : List β} (hab : ¬ a <+: b) (hba : ¬ b <+: a) (h : b <+: r) :
    ¬ a <+: r := by
  intro ha
  rcases List.prefix_or_prefix_of_prefix ha h with hab' | hba'
  · exact hab hab'
  · exact hba hba'

end Readable
