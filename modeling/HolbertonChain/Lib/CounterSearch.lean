import Mathlib.Data.Nat.Find
import Mathlib.Data.UInt
import Mathlib.Tactic.Ring

/-!
# Searching with a 64-bit counter

`for (n = 0; ; n++) if (test(n)) return;` over a `uint64_t`: a test fails, finds a result, or lets
the search go on with the next counter, which wraps around.

`Ends test n r` says that the loop, started at `n`, ends with `r`.  `run` is the same loop cut off
after a number of rounds.  Started at 0 it ends with what the least counter gives whose test is not
negative (`ends_zero_iff`), and `2 ^ 64` rounds are as good as no bound (`run_eq_iff`).
-/

namespace CounterSearch

variable {ε α : Type}

/-- The loop started at a counter ends with a result or a failure. -/
inductive Ends (test : UInt64 → Except ε (Option α)) : UInt64 → Except ε α → Prop
  | stop {n : UInt64} {r : Except ε α} (h : test n = r.map some) : Ends test n r
  | next {n : UInt64} {r : Except ε α} (h : test n = .ok none) (hr : Ends test (n + 1) r) :
      Ends test n r

/-- The loop started at a counter, given up with `stuck` after a number of rounds. -/
def run (stuck : ε) (test : UInt64 → Except ε (Option α)) : ℕ → UInt64 → Except ε α
  | 0, _ => .error stuck
  | rounds + 1, n =>
    match test n with
    | .error e => .error e
    | .ok (some a) => .ok a
    | .ok none => run stuck test rounds (n + 1)

variable {stuck : ε} {test : UInt64 → Except ε (Option α)} {n : UInt64} {r : Except ε α}

/-- A test is negative, or the search ends with it. -/
theorem eq_none_or_exists (test : UInt64 → Except ε (Option α)) (n : UInt64) :
    test n = .ok none ∨ ∃ r : Except ε α, test n = r.map some := by
  cases h : test n with
  | error e => exact Or.inr ⟨.error e, rfl⟩
  | ok x =>
    cases x with
    | none => exact Or.inl rfl
    | some a => exact Or.inr ⟨.ok a, rfl⟩

theorem map_some_ne_none : r.map some ≠ (.ok none : Except ε (Option α)) := by
  cases r with
  | error e => exact nofun
  | ok a => exact nofun

theorem map_some_injective {r' : Except ε α}
    (h : r.map some = (r'.map some : Except ε (Option α))) : r = r' := by
  cases r with
  | error e =>
    cases r' with
    | error e' => exact congrArg _ (Except.error.inj h)
    | ok a' => cases h
  | ok a =>
    cases r' with
    | error e' => cases h
    | ok a' => exact congrArg _ (Option.some.inj (Except.ok.inj h))

/-! ### The counters of a search -/

theorem add_ofNat_zero (n : UInt64) : n + UInt64.ofNat 0 = n := UInt64.add_zero n

theorem add_ofNat_succ (n : UInt64) (k : ℕ) :
    n + UInt64.ofNat (k + 1) = n + 1 + UInt64.ofNat k := by
  rw [UInt64.ofNat_add, UInt64.add_assoc, UInt64.add_comm (UInt64.ofNat k)]
  rfl

/-- Counters below a number of rounds that does not wrap. -/
theorem forall_lt_iff {k : ℕ} (hk : k < 2 ^ 64) {p : UInt64 → Prop} :
    (∀ m < UInt64.ofNat k, p m) ↔ ∀ j < k, p (UInt64.ofNat j) := by
  have hofNat : (UInt64.ofNat k).toNat = k := UInt64.toNat_ofNat_of_lt' hk
  constructor
  · intro h j hj
    apply h
    rw [UInt64.lt_iff_toNat_lt, hofNat, UInt64.toNat_ofNat_of_lt' (show j < 2 ^ 64 by omega)]
    exact hj
  · intro h m hm
    rw [UInt64.lt_iff_toNat_lt, hofNat] at hm
    have hp := h m.toNat hm
    rwa [UInt64.ofNat_toNat] at hp

/-! ### The round that ends the search -/

/-- The loop ends after some number of negative tests. -/
theorem Ends.exists_rounds (h : Ends test n r) :
    ∃ k : ℕ, (∀ j < k, test (n + UInt64.ofNat j) = .ok none) ∧
      test (n + UInt64.ofNat k) = r.map some := by
  induction h with
  | stop h => exact ⟨0, nofun, by rwa [add_ofNat_zero]⟩
  | next h _ ih =>
    obtain ⟨k, hnone, hstop⟩ := ih
    refine ⟨k + 1, fun j hj => ?_, by rwa [add_ofNat_succ]⟩
    cases j with
    | zero => rwa [add_ofNat_zero]
    | succ j =>
      rw [add_ofNat_succ]
      exact hnone j (by omega)

theorem ends_of_rounds {k : ℕ} (hnone : ∀ j < k, test (UInt64.ofNat j) = .ok none)
    (h : Ends test (UInt64.ofNat k) r) : Ends test 0 r := by
  induction k with
  | zero => exact h
  | succ k ih =>
    apply ih (fun j hj => hnone j (by omega))
    apply Ends.next (hnone k (by omega))
    rwa [UInt64.ofNat_add] at h

/-- Started at 0, the loop ends with what the least counter gives whose test is not negative. -/
theorem ends_zero_iff :
    Ends test 0 r ↔ ∃ n, (∀ m < n, test m = .ok none) ∧ test n = r.map some := by
  constructor
  · intro h
    obtain ⟨k, hnone, hstop⟩ := h.exists_rounds
    simp only [UInt64.zero_add] at hnone hstop
    by_cases hk : k < 2 ^ 64
    · exact ⟨UInt64.ofNat k, (forall_lt_iff hk).mpr hnone, hstop⟩
    · -- the counter has been around, and its test was negative the first time
      have hmod : UInt64.ofNat (k % 2 ^ 64) = UInt64.ofNat k := by
        apply UInt64.toNat_inj.mp
        simp
      have hfirst := hnone (k % 2 ^ 64) (by omega)
      rw [hmod, hstop] at hfirst
      exact absurd hfirst map_some_ne_none
  · rintro ⟨n, hnone, hstop⟩
    have hn : UInt64.ofNat n.toNat = n := UInt64.ofNat_toNat
    rw [← hn] at hnone hstop
    exact ends_of_rounds ((forall_lt_iff n.toNat_lt).mp hnone) (Ends.stop hstop)

/-- A loop ends in one way only. -/
theorem Ends.unique {r' : Except ε α} (h : Ends test n r) (h' : Ends test n r') : r = r' := by
  induction h with
  | stop h =>
    cases h' with
    | stop h' => exact map_some_injective (h.symm.trans h')
    | next h' _ => exact absurd (h.symm.trans h') map_some_ne_none
  | next h _ ih =>
    cases h' with
    | stop h' => exact absurd (h'.symm.trans h) map_some_ne_none
    | next _ hr' => exact ih hr'

/-! ### A bound on the rounds -/

theorem run_of_none {k : ℕ} (hnone : ∀ j < k, test (n + UInt64.ofNat j) = .ok none)
    (rounds : ℕ) :
    run stuck test (k + rounds) n = run stuck test rounds (n + UInt64.ofNat k) := by
  induction k generalizing n with
  | zero => rw [Nat.zero_add, add_ofNat_zero]
  | succ k ih =>
    have hfirst := hnone 0 (by omega)
    rw [add_ofNat_zero] at hfirst
    rw [show k + 1 + rounds = k + rounds + 1 by ring, run, hfirst, add_ofNat_succ]
    apply ih
    intro j hj
    rw [← add_ofNat_succ]
    exact hnone (j + 1) (by omega)

theorem run_of_stop (hstop : test n = r.map some) (rounds : ℕ) :
    run stuck test (rounds + 1) n = r := by
  rw [run, hstop]
  cases r with
  | error e => rfl
  | ok a => rfl

/-- `2 ^ 64` rounds from 0 on give what the loop ends with, and the loop does not end where they do
not give anything. -/
theorem run_eq_iff :
    run stuck test (2 ^ 64) 0 = r ↔
      Ends test 0 r ∨ (∀ n, test n = .ok none) ∧ r = .error stuck := by
  by_cases hall : ∀ n, test n = .ok none
  · have hrun : run stuck test (2 ^ 64 + 0) 0 = run stuck test 0 (0 + UInt64.ofNat (2 ^ 64)) :=
      run_of_none (fun j _ => hall _) 0
    have hends : ¬ Ends test 0 r := by
      rw [ends_zero_iff]
      rintro ⟨n, -, hstop⟩
      exact map_some_ne_none (hstop.symm.trans (hall n))
    rw [Nat.add_zero] at hrun
    rw [hrun, run, or_iff_right hends, and_iff_right hall]
    exact eq_comm
  · -- the least counter whose test is not negative
    obtain ⟨n, hn⟩ := not_forall.mp hall
    have hnat : test (UInt64.ofNat n.toNat) ≠ .ok none := by rwa [UInt64.ofNat_toNat]
    have hex : ∃ k : ℕ, test (UInt64.ofNat k) ≠ .ok none := ⟨n.toNat, hnat⟩
    classical
    have hlt : Nat.find hex < 2 ^ 64 := (Nat.find_min' hex hnat).trans_lt n.toNat_lt
    have hnone : ∀ j < Nat.find hex, test (UInt64.ofNat j) = .ok none :=
      fun j hj => not_not.mp (Nat.find_min hex hj)
    obtain ⟨s, hs⟩ := (eq_none_or_exists test (UInt64.ofNat (Nat.find hex))).resolve_left
      (Nat.find_spec hex)
    have hends : Ends test 0 s :=
      ends_zero_iff.mpr ⟨_, (forall_lt_iff hlt).mpr hnone, hs⟩
    have hrun : run stuck test (2 ^ 64) 0 = s := by
      obtain ⟨rest, hrest⟩ : ∃ rest, 2 ^ 64 = Nat.find hex + (rest + 1) :=
        ⟨2 ^ 64 - Nat.find hex - 1, by omega⟩
      rw [hrest, run_of_none (by simpa using hnone)]
      apply run_of_stop
      rwa [UInt64.zero_add]
    rw [hrun]
    constructor
    · rintro rfl
      exact Or.inl hends
    · rintro (hr | ⟨hno, -⟩)
      · exact hends.unique hr
      · exact absurd hno hall

end CounterSearch
