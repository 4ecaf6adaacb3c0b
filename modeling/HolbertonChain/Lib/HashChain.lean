import Mathlib.Data.List.Basic
import Mathlib.Data.Nat.Find

/-!
# Lists linked by hashes

In a `Linked` list each entry names the hash of the entry in front of it.  Where equal hashes mean
equal content, as far as a `view` of the entries shows it, and the content says where an entry
stands, one hash fixes a whole list up to there: two lists that have it agree on everything in front
(`take_map_view_eq`).  So two such lists have one fork: a common part, and behind it no hash of the
one is in the other (`exists_fork`).
-/

namespace HashChain

variable {α δ γ : Type*} {hash prev : α → δ} {pos : α → ℕ} {view : α → γ} {l l' : List α}

/-- Each entry names the hash of the one in front and stands where it says. -/
structure Linked (hash prev : α → δ) (pos : α → ℕ) (l : List α) : Prop where
  prev_eq : ∀ i a b, l[i]? = some a → l[i + 1]? = some b → prev b = hash a
  pos_eq : ∀ i a, l[i]? = some a → pos a = i

/-- Entries with one hash have one view, and the view shows the hash named and the position. -/
structure Commits (hash prev : α → δ) (pos : α → ℕ) (view : α → γ) (l l' : List α) : Prop where
  view_eq : ∀ a ∈ l, ∀ b ∈ l', hash a = hash b → view a = view b
  prev_eq : ∀ a b, view a = view b → prev a = prev b
  pos_eq : ∀ a b, view a = view b → pos a = pos b

/-- Entries with one hash stand at one position. -/
theorem position_eq (hl : Linked hash prev pos l) (hl' : Linked hash prev pos l')
    (h : Commits hash prev pos view l l') {i j : ℕ} {a b : α} (ha : l[i]? = some a)
    (hb : l'[j]? = some b) (heq : hash a = hash b) : i = j := by
  have hview := h.view_eq a (List.mem_of_getElem? ha) b (List.mem_of_getElem? hb) heq
  rw [← hl.pos_eq i a ha, ← hl'.pos_eq j b hb]
  exact h.pos_eq a b hview

/-- Up to an entry with one hash the lists look the same. -/
theorem take_map_view_eq (hl : Linked hash prev pos l) (hl' : Linked hash prev pos l')
    (h : Commits hash prev pos view l l') {i : ℕ} {a b : α} (ha : l[i]? = some a)
    (hb : l'[i]? = some b) (heq : hash a = hash b) :
    (l.take (i + 1)).map view = (l'.take (i + 1)).map view := by
  -- back along the links: the entries in front have one hash again
  induction i generalizing a b with
  | zero =>
    have hview := h.view_eq a (List.mem_of_getElem? ha) b (List.mem_of_getElem? hb) heq
    rw [List.take_add_one, List.take_add_one, ha, hb]
    simp [hview]
  | succ i ih =>
    have hview := h.view_eq a (List.mem_of_getElem? ha) b (List.mem_of_getElem? hb) heq
    have hlt : i < l.length := Nat.lt_of_succ_lt (List.getElem?_eq_some_iff.mp ha).1
    have hlt' : i < l'.length := Nat.lt_of_succ_lt (List.getElem?_eq_some_iff.mp hb).1
    have hfront := List.getElem?_eq_getElem hlt
    have hfront' := List.getElem?_eq_getElem hlt'
    have hlink : hash l[i] = hash l'[i] := by
      calc hash l[i] = prev a := (hl.prev_eq i _ _ hfront ha).symm
        _ = prev b := h.prev_eq a b hview
        _ = hash l'[i] := hl'.prev_eq i _ _ hfront' hb
    rw [List.take_add_one, ha, List.take_add_one (l := l'), hb, List.map_append, List.map_append,
      ih hfront hfront' hlink]
    simp [hview]

/-- Two lists have a common part, and behind it no hash of the one is in the other. -/
theorem exists_fork (hl : Linked hash prev pos l) (hl' : Linked hash prev pos l')
    (h : Commits hash prev pos view l l') :
    ∃ k, (l.take k).map view = (l'.take k).map view ∧ k ≤ l.length ∧ k ≤ l'.length ∧
      ∀ (i j : ℕ) (a b : α), k ≤ i → l[i]? = some a → l'[j]? = some b → hash a ≠ hash b := by
  classical
  -- the last position at which the lists have one hash
  let P : ℕ → Prop := fun k => 0 < k ∧ ∃ a b, l[k - 1]? = some a ∧ l'[k - 1]? = some b ∧
    hash a = hash b
  have hlast : ∀ (i j : ℕ) (a b : α), Nat.findGreatest P l.length ≤ i → l[i]? = some a →
      l'[j]? = some b → hash a ≠ hash b := by
    intro i j a b hi ha hb heq
    obtain rfl := position_eq hl hl' h ha hb heq
    have hlt : i < l.length := (List.getElem?_eq_some_iff.mp ha).1
    have hP : P (i + 1) := ⟨Nat.succ_pos i, a, b, ha, hb, heq⟩
    have hle := Nat.le_findGreatest (Nat.succ_le_of_lt hlt) hP
    omega
  refine ⟨Nat.findGreatest P l.length, ?_, Nat.findGreatest_le _, ?_, hlast⟩
  · by_cases hzero : Nat.findGreatest P l.length = 0
    · rw [hzero]
      rfl
    · obtain ⟨hpos, a, b, ha, hb, heq⟩ := Nat.findGreatest_of_ne_zero rfl hzero
      have hview := take_map_view_eq hl hl' h ha hb heq
      rwa [Nat.sub_add_cancel hpos] at hview
  · by_cases hzero : Nat.findGreatest P l.length = 0
    · rw [hzero]
      exact Nat.zero_le _
    · obtain ⟨hpos, a, b, ha, hb, heq⟩ := Nat.findGreatest_of_ne_zero rfl hzero
      have hlt := (List.getElem?_eq_some_iff.mp hb).1
      omega

end HashChain
