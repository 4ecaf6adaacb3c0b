import Mathlib.Data.List.Perm.Subperm

/-!
# Taking entries out of a list by their keys

`eraseKeys key ks l` goes through the keys `ks` and takes out, for each of them, the first entry of
`l` with that key.  The order of the keys does not matter (`eraseKeys_perm`).  Where every key is
there often enough, the entries taken out have exactly the keys `ks` (`exists_perm_eraseKeys`) and
the entries behind them stay (`eraseKeys_append`).

A key says less than an entry: to take out *chosen* entries by their keys succeeds exactly when no
chosen entry stands behind one with the same key that was not chosen (`eraseKeys_eq_filter_iff`).
-/

namespace List

variable {α κ : Type*} [DecidableEq κ] (key : α → κ)

/-- For each key in turn, take out the first entry with that key, if there is one. -/
def eraseKeys (ks : List κ) (l : List α) : List α :=
  ks.foldl (fun l k => l.eraseP fun a => key a == k) l

@[simp] theorem eraseKeys_nil (l : List α) : eraseKeys key [] l = l := rfl

theorem eraseKeys_cons (k : κ) (ks : List κ) (l : List α) :
    eraseKeys key (k :: ks) l = eraseKeys key ks (l.eraseP fun a => key a == k) := rfl

theorem eraseKeys_append_keys (ks ks' : List κ) (l : List α) :
    eraseKeys key (ks ++ ks') l = eraseKeys key ks' (eraseKeys key ks l) :=
  List.foldl_append

theorem eraseKeys_list_nil (ks : List κ) : eraseKeys key ks [] = [] := by
  induction ks with
  | nil => rfl
  | cons k ks ih => rw [eraseKeys_cons, eraseP_nil, ih]

/-- Entry by entry: the head goes if its key is asked for, and that uses the key up. -/
theorem eraseKeys_list_cons (ks : List κ) (a : α) (l : List α) :
    eraseKeys key ks (a :: l) =
      if key a ∈ ks then eraseKeys key (ks.erase (key a)) l else a :: eraseKeys key ks l := by
  induction ks generalizing l with
  | nil => simp
  | cons k ks ih =>
    rw [eraseKeys_cons]
    -- the first key takes out the head, or passes it on
    by_cases hk : key a = k
    · subst hk
      rw [eraseP_cons_of_pos (by simp), if_pos mem_cons_self, erase_cons_head]
    · rw [eraseP_cons_of_neg (by simpa using hk), ih]
      have hmem : key a ∈ k :: ks ↔ key a ∈ ks := by simp [hk]
      by_cases h : key a ∈ ks
      · rw [if_pos h, if_pos (hmem.mpr h), erase_cons_tail (by simpa using Ne.symm hk),
          eraseKeys_cons]
      · rw [if_neg h, if_neg (mt hmem.mp h), eraseKeys_cons]

theorem eraseKeys_perm {ks ks' : List κ} (h : ks ~ ks') (l : List α) :
    eraseKeys key ks l = eraseKeys key ks' l := by
  induction l generalizing ks ks' with
  | nil => rw [eraseKeys_list_nil, eraseKeys_list_nil]
  | cons a l ih =>
    rw [eraseKeys_list_cons, eraseKeys_list_cons]
    by_cases ha : key a ∈ ks
    · rw [if_pos ha, if_pos (h.mem_iff.mp ha), ih (h.erase _)]
    · rw [if_neg ha, if_neg (mt h.mem_iff.mpr ha), ih h]

theorem eraseKeys_sublist (ks : List κ) (l : List α) : eraseKeys key ks l <+ l := by
  induction ks generalizing l with
  | nil => exact Sublist.refl l
  | cons k ks ih => exact (ih _).trans eraseP_sublist

/-- Keys that no entry has take out nothing. -/
theorem eraseKeys_of_forall_ne {ks : List κ} {l : List α} (h : ∀ k ∈ ks, ∀ a ∈ l, key a ≠ k) :
    eraseKeys key ks l = l := by
  induction ks with
  | nil => rfl
  | cons k ks ih =>
    have hk : l.eraseP (fun a => key a == k) = l :=
      eraseP_of_forall_not fun a ha => by simpa using h k mem_cons_self a ha
    rw [eraseKeys_cons, hk]
    exact ih fun k' hk' => h k' (mem_cons_of_mem k hk')

/-- What has none of the keys is found where it was. -/
theorem find?_eraseKeys {ks : List κ} {p : α → Bool} (h : ∀ a, p a = true → key a ∉ ks)
    (l : List α) : (eraseKeys key ks l).find? p = l.find? p := by
  induction l generalizing ks with
  | nil => rw [eraseKeys_list_nil]
  | cons a l ih =>
    rw [eraseKeys_list_cons]
    split_ifs with ha
    · rw [ih fun b hb hk => h b hb (mem_of_mem_erase hk), find?_cons_of_neg fun hp => h a hp ha]
    · rw [find?_cons, find?_cons, ih h]

/-- Entries with none of the keys all stay. -/
theorem filter_eraseKeys {ks : List κ} {p : α → Bool} {l : List α}
    (h : ∀ a ∈ l, p a = true → key a ∉ ks) : (eraseKeys key ks l).filter p = l.filter p := by
  induction l generalizing ks with
  | nil => rw [eraseKeys_list_nil]
  | cons a l ih =>
    rw [forall_mem_cons] at h
    rw [eraseKeys_list_cons]
    split_ifs with ha
    · rw [ih fun b hb hp hk => h.2 b hb hp (mem_of_mem_erase hk),
        filter_cons_of_neg fun hp => h.1 hp ha]
    · rw [filter_cons, filter_cons, ih h.2]

/-- Seen by their keys, the entries left are what is left of the keys. -/
theorem map_eraseKeys (ks : List κ) (l : List α) :
    (eraseKeys key ks l).map key = (l.map key).diff ks := by
  induction ks generalizing l with
  | nil => rfl
  | cons k ks ih =>
    have hhead : (l.eraseP fun a => key a == k).map key = (l.map key).erase k := by
      rw [erase_eq_eraseP', eraseP_map]
      rfl
    rw [eraseKeys_cons, ih, hhead, diff_cons]

/-! ### Every key is there -/

/-- Asked for among the keys of `a :: l`, the keys left after the head are among those of `l`. -/
theorem subperm_map_of_cons {ks : List κ} {a : α} {l : List α} (h : ks <+~ (a :: l).map key) :
    ks.erase (key a) <+~ l.map key := by
  simpa using h.erase (key a)

/-- The entries taken out, where every key is there often enough: they have exactly the keys asked
for, and with the entries left they make up the list. -/
theorem exists_perm_eraseKeys {ks : List κ} {l : List α} (h : ks <+~ l.map key) :
    ∃ removed, removed.map key ~ ks ∧ removed ++ eraseKeys key ks l ~ l := by
  -- along the list: a key is used up at the first entry that has it
  induction l generalizing ks with
  | nil =>
    rw [map_nil, subperm_nil] at h
    subst h
    exact ⟨[], Perm.refl _, Perm.refl _⟩
  | cons a l ih =>
    obtain ⟨removed, hkeys, hall⟩ := ih (subperm_map_of_cons key h)
    rw [eraseKeys_list_cons]
    by_cases ha : key a ∈ ks
    · rw [if_pos ha]
      refine ⟨a :: removed, ?_, hall.cons a⟩
      exact (hkeys.cons (key a)).trans (perm_cons_erase ha).symm
    · rw [if_neg ha]
      rw [erase_of_not_mem ha] at hkeys hall
      exact ⟨removed, hkeys, perm_middle.trans (hall.cons a)⟩

/-- Keys asked for together are there one after the other. -/
theorem subperm_map_eraseKeys {ks ks' : List κ} {l : List α} (h : ks ++ ks' <+~ l.map key) :
    ks' <+~ (eraseKeys key ks l).map key := by
  have hks : ks <+~ l.map key := (sublist_append_left ks ks').subperm.trans h
  obtain ⟨removed, hkeys, hall⟩ := exists_perm_eraseKeys key hks
  have hsplit : l.map key ~ ks ++ (eraseKeys key ks l).map key := by
    calc l.map key ~ (removed ++ eraseKeys key ks l).map key := (hall.map key).symm
      _ = removed.map key ++ (eraseKeys key ks l).map key := map_append
      _ ~ ks ++ (eraseKeys key ks l).map key := hkeys.append_right _
  exact (subperm_append_left ks).mp (h.trans hsplit.subperm)

/-- The first entries with the keys are found before what stands behind. -/
theorem eraseKeys_append {ks : List κ} {l : List α} (h : ks <+~ l.map key) (l' : List α) :
    eraseKeys key ks (l ++ l') = eraseKeys key ks l ++ l' := by
  induction l generalizing ks with
  | nil =>
    rw [map_nil, subperm_nil] at h
    subst h
    rfl
  | cons a l ih =>
    have hl := subperm_map_of_cons key h
    rw [cons_append, eraseKeys_list_cons, eraseKeys_list_cons]
    by_cases ha : key a ∈ ks
    · rw [if_pos ha, if_pos ha, ih hl]
    · rw [erase_of_not_mem ha] at hl
      rw [if_neg ha, if_neg ha, ih hl, cons_append]

/-! ### Chosen entries -/

/-- Chosen entries are taken out by their keys, and no others, exactly when an entry with the key of
a chosen one behind it is chosen itself. -/
theorem eraseKeys_eq_filter_iff {chosen : α → Prop} [DecidablePred chosen] {l : List α}
    (hl : l.Nodup) :
    eraseKeys key ((l.filter (chosen ·)).map key) l = l.filter (¬ chosen ·) ↔
      l.Pairwise fun a b => key a = key b → chosen b → chosen a := by
  induction l with
  | nil => simp
  | cons a l ih =>
    obtain ⟨hal, hl⟩ := nodup_cons.mp hl
    rw [eraseKeys_list_cons, pairwise_cons]
    by_cases hchosen : chosen a
    · rw [filter_cons_of_pos (by simpa using hchosen), filter_cons_of_neg (by simpa using hchosen),
        map_cons, if_pos mem_cons_self, erase_cons_head, ih hl]
      exact ⟨fun h => ⟨fun _ _ _ _ => hchosen, h⟩, fun h => h.2⟩
    · rw [filter_cons_of_neg (by simpa using hchosen), filter_cons_of_pos (by simpa using hchosen)]
      by_cases ha : key a ∈ (l.filter (chosen ·)).map key
      · -- the head is taken out for a chosen entry behind it
        rw [if_pos ha]
        constructor
        · intro h
          have hmem : a ∈ eraseKeys key (((l.filter (chosen ·)).map key).erase (key a)) l := by
            rw [h]
            exact mem_cons_self
          exact absurd ((eraseKeys_sublist key _ l).subset hmem) hal
        · rintro ⟨hhead, -⟩
          obtain ⟨b, hb, hkey⟩ := mem_map.mp ha
          rw [mem_filter, decide_eq_true_eq] at hb
          exact absurd (hhead b hb.1 hkey.symm hb.2) hchosen
      · rw [if_neg ha, cons.injEq, ih hl]
        constructor
        · rintro ⟨-, h⟩
          refine ⟨fun b hb hkey hbc => absurd ?_ ha, h⟩
          exact mem_map.mpr ⟨b, mem_filter.mpr ⟨hb, by simpa using hbc⟩, hkey.symm⟩
        · rintro ⟨-, h⟩
          exact ⟨rfl, h⟩

/-! ### Places in the list -/

/-- A relation between entries with one key is one between the entries with each key. -/
theorem pairwise_key_iff {R : α → α → Prop} {l : List α} :
    l.Pairwise (fun a b => key a = key b → R a b) ↔
      ∀ a ∈ l, (l.filter (key · = key a)).Pairwise R := by
  constructor
  · intro h a ha
    refine (h.sublist filter_sublist).imp_of_mem fun {b c} hb hc hbc => hbc ?_
    rw [mem_filter, decide_eq_true_eq] at hb hc
    rw [hb.2, hc.2]
  · intro h
    induction l with
    | nil => exact Pairwise.nil
    | cons a l ih =>
      refine pairwise_cons.mpr ⟨fun b hb hkey => ?_, ih fun b hb => ?_⟩
      · have hhead := h a mem_cons_self
        rw [filter_cons_of_pos (by simp)] at hhead
        exact (pairwise_cons.mp hhead).1 b (mem_filter.mpr ⟨hb, by simp [hkey]⟩)
      · exact (h b (mem_cons_of_mem a hb)).sublist ((sublist_cons_self a l).filter _)

/-- Of the entries with a property, those in front of one of the first `k` are among them. -/
theorem pairwise_mem_take_filter (p : α → Bool) {l : List α} (hl : l.Nodup) (k : ℕ) :
    l.Pairwise fun a b => b ∈ (l.filter p).take k → p a = true → a ∈ (l.filter p).take k := by
  induction l generalizing k with
  | nil => exact Pairwise.nil
  | cons a l ih =>
    obtain ⟨hal, hl⟩ := nodup_cons.mp hl
    by_cases ha : p a = true
    · rw [filter_cons_of_pos ha]
      cases k with
      | zero =>
        rw [take_zero]
        exact (pairwise_of_forall fun _ _ hb => absurd hb not_mem_nil)
      | succ k =>
        rw [take_succ_cons]
        refine pairwise_cons.mpr ⟨fun b _ _ _ => mem_cons_self, ?_⟩
        refine (ih hl k).imp_of_mem fun {b c} _ hc hbc hmem hb => mem_cons_of_mem a (hbc ?_ hb)
        rcases mem_cons.mp hmem with rfl | hmem
        · exact absurd hc hal
        · exact hmem
    · rw [filter_cons_of_neg ha]
      exact pairwise_cons.mpr ⟨fun b _ _ hpa => absurd hpa ha, ih hl k⟩

end List
