import Mathlib.Data.List.Basic

/-!
# Concatenations of pieces of one width

A list of pieces that all have the same positive width can be cut out of its concatenation again:
`l.flatMap f` determines `l.map f` (`map_eq_map_of_flatMap_eq`).  Two such concatenations of
different widths, one behind the other, are only cut at the same place when the first has equally
many pieces (`map_eq_map_of_append_flatMap_eq`).
-/

namespace FixedWidth

variable {α β γ : Type*} {n : ℕ}

theorem length_flatMap {f : α → List γ} (hf : ∀ a, (f a).length = n) (l : List α) :
    (l.flatMap f).length = n * l.length := by
  induction l with
  | nil => simp
  | cons a l ih =>
    rw [List.flatMap_cons, List.length_append, hf, ih, List.length_cons]
    rw [Nat.mul_succ, Nat.add_comm]

/-- What a piece determines, entry by entry. -/
theorem map_eq_map_of_forall_mem {δ : Type*} {f : α → γ} {g : α → δ} {l l' : List α}
    (hfg : ∀ a ∈ l, ∀ b ∈ l', f a = f b → g a = g b) (h : l.map f = l'.map f) :
    l.map g = l'.map g := by
  induction l generalizing l' with
  | nil =>
    have hl' : l' = [] := List.map_eq_nil_iff.mp h.symm
    rw [hl']
  | cons a l ih =>
    obtain ⟨a', t', rfl, ha, ht⟩ := List.map_eq_cons_iff.mp h.symm
    have htail := ih (fun b hb b' hb' => hfg b (List.mem_cons_of_mem _ hb) b'
      (List.mem_cons_of_mem _ hb')) ht.symm
    rw [List.map_cons, List.map_cons, hfg a List.mem_cons_self a' List.mem_cons_self ha.symm,
      htail]

/-- What a piece determines wherever it stands. -/
theorem map_eq_map_of_map_eq_map {δ : Type*} {f : α → γ} {g : α → δ}
    (hfg : ∀ a b, f a = f b → g a = g b) {l l' : List α} (h : l.map f = l'.map f) :
    l.map g = l'.map g :=
  map_eq_map_of_forall_mem (fun a _ b _ => hfg a b) h

/-- The pieces are determined by their concatenation. -/
theorem map_eq_map_of_flatMap_eq {f : α → List γ} (hf : ∀ a, (f a).length = n) (hn : 0 < n)
    {l l' : List α} (h : l.flatMap f = l'.flatMap f) : l.map f = l'.map f := by
  induction l generalizing l' with
  | nil =>
    -- no piece is empty, so there is none on the other side either
    have hlen := congrArg List.length h
    rw [length_flatMap hf, length_flatMap hf, List.length_nil, Nat.mul_zero] at hlen
    have hl' : l' = [] := by
      rcases Nat.mul_eq_zero.mp hlen.symm with h0 | h0
      · omega
      · exact List.length_eq_zero_iff.mp h0
    rw [hl']
  | cons a l ih =>
    cases l' with
    | nil =>
      have hlen := congrArg List.length h
      rw [List.flatMap_cons, List.length_append, hf, List.flatMap_nil, List.length_nil] at hlen
      omega
    | cons a' l' =>
      rw [List.flatMap_cons, List.flatMap_cons] at h
      obtain ⟨hhead, htail⟩ := List.append_inj h (by rw [hf, hf])
      rw [List.map_cons, List.map_cons, hhead, ih htail]

/-- Two concatenations one behind the other, the first of equally many pieces. -/
theorem map_eq_map_of_append_flatMap_eq {m : ℕ} {f : α → List γ} {g : β → List γ}
    (hf : ∀ a, (f a).length = m) (hg : ∀ b, (g b).length = n) (hm : 0 < m) (hn : 0 < n)
    {l l' : List α} {k k' : List β} (hlen : l.length = l'.length)
    (h : l.flatMap f ++ k.flatMap g = l'.flatMap f ++ k'.flatMap g) :
    l.map f = l'.map f ∧ k.map g = k'.map g := by
  obtain ⟨hl, hk⟩ := List.append_inj h (by rw [length_flatMap hf, length_flatMap hf, hlen])
  exact ⟨map_eq_map_of_flatMap_eq hf hm hl, map_eq_map_of_flatMap_eq hg hn hk⟩

end FixedWidth
