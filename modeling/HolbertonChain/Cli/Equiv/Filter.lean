import HolbertonChain.Cli.Mine

/-!
# Filtering the pool

`mine` calls `llist_remove_node` once for each node the pool had, and each call takes out the first
transaction that is not valid.  The calls after the last of these find nothing, so what is left are
the valid transactions in their order (`filterPool_spec`).
-/

namespace HolbertonChain

variable {κ : Type} (E : Env κ)

/-! ### One call -/

/-- Nothing is found, or the first node that is identified is taken out. -/
theorem llistRemoveNode_eq_ok {α : Type} {identifier : α → Exec Bool} {l l' : List α}
    (h : llistRemoveNode identifier l = .ok l') :
    (l' = l ∧ ∀ a ∈ l, identifier a = .ok false) ∨
      ∃ before a after, l = before ++ a :: after ∧ l' = before ++ after ∧
        identifier a = .ok true := by
  induction l generalizing l' with
  | nil =>
    obtain rfl := Except.ok.inj h
    exact Or.inl ⟨rfl, by simp⟩
  | cons a l ih =>
    rw [llistRemoveNode] at h
    obtain ⟨found, hfound, h⟩ := Except.bind_eq_ok_iff.mp h
    cases found with
    | true =>
      obtain rfl := Except.ok.inj h
      exact Or.inr ⟨[], a, _, rfl, rfl, hfound⟩
    | false =>
      obtain ⟨rest, hrest, h⟩ := Except.bind_eq_ok_iff.mp h
      obtain rfl := Except.ok.inj h
      rcases ih hrest with ⟨rfl, hall⟩ | ⟨before, b, after, rfl, rfl, hb⟩
      · exact Or.inl ⟨rfl, List.forall_mem_cons.mpr ⟨hfound, hall⟩⟩
      · exact Or.inr ⟨a :: before, b, after, rfl, rfl, hb⟩

theorem llistRemoveNode_of_forall {α : Type} {identifier : α → Exec Bool} {l : List α}
    (h : ∀ a ∈ l, identifier a = .ok false) : llistRemoveNode identifier l = .ok l := by
  induction l with
  | nil => rfl
  | cons a l ih =>
    rw [List.forall_mem_cons] at h
    rw [llistRemoveNode, h.1, Except.ok_bind, if_neg Bool.false_ne_true, ih h.2]
    rfl

theorem invalidTx_eq_ok_iff {hashBuff : Digest} {U : List UnspentTxOut} {t : Transaction}
    {invalid : Bool} :
    invalidTx E hashBuff U t = .ok invalid ↔
      transactionIsValid E hashBuff t U = .ok !invalid := by
  rw [invalidTx, Except.bind_eq_ok_iff]
  constructor
  · rintro ⟨valid, hvalid, h⟩
    obtain rfl := Except.ok.inj h
    rw [hvalid, Bool.not_not]
  · intro h
    exact ⟨!invalid, h, by simp⟩

/-! ### All calls -/

/-- Whether `transaction_is_valid` accepts a transaction against a list of unspent outputs. -/
def accepts (hashBuff : Digest) (U : List UnspentTxOut) (t : Transaction) : Bool :=
  decide (transactionIsValid E hashBuff t U = .ok true)

theorem accepts_eq_true_iff {hashBuff : Digest} {U : List UnspentTxOut} {t : Transaction} :
    accepts E hashBuff U t = true ↔ transactionIsValid E hashBuff t U = .ok true :=
  decide_eq_true_iff

theorem filterPool_of_valid {hashBuff : Digest} {U : List UnspentTxOut} {pool : List Transaction}
    (h : ∀ t ∈ pool, transactionIsValid E hashBuff t U = .ok true) (n : ℕ) :
    filterPool E hashBuff U n pool = .ok pool := by
  induction n with
  | zero => rfl
  | succ n ih =>
    have hremove : llistRemoveNode (invalidTx E hashBuff U) pool = .ok pool :=
      llistRemoveNode_of_forall fun t ht => (invalidTx_eq_ok_iff E).mpr (h t ht)
    rw [filterPool, hremove, Except.ok_bind, ih]

/-- With a call for each node there was, the valid transactions are left, and every transaction was
found to be valid or not. -/
theorem filterPool_spec {hashBuff : Digest} {U : List UnspentTxOut} {n : ℕ}
    {pool pool' : List Transaction} (hn : pool.length ≤ n)
    (h : filterPool E hashBuff U n pool = .ok pool') :
    pool' = pool.filter (accepts E hashBuff U) ∧
      ∀ t ∈ pool, ∃ valid, transactionIsValid E hashBuff t U = .ok valid := by
  -- a call takes out a transaction or leaves a pool of valid ones, which stays as it is
  induction n generalizing pool with
  | zero =>
    have hnil : pool = [] := List.length_eq_zero_iff.mp (Nat.le_zero.mp hn)
    obtain rfl := Except.ok.inj h
    rw [hnil]
    exact ⟨rfl, by simp⟩
  | succ n ih =>
    rw [filterPool] at h
    obtain ⟨once, honce, hrest⟩ := Except.bind_eq_ok_iff.mp h
    rcases llistRemoveNode_eq_ok honce with ⟨rfl, hall⟩ | ⟨before, a, after, rfl, rfl, ha⟩
    · have hvalid : ∀ t ∈ once, transactionIsValid E hashBuff t U = .ok true :=
        fun t ht => (invalidTx_eq_ok_iff E).mp (hall t ht)
      rw [filterPool_of_valid E hvalid] at hrest
      obtain rfl := Except.ok.inj hrest
      refine ⟨(List.filter_eq_self.mpr fun t ht => ?_).symm, fun t ht => ⟨true, hvalid t ht⟩⟩
      exact (accepts_eq_true_iff E).mpr (hvalid t ht)
    · have hinvalid : transactionIsValid E hashBuff a U = .ok false :=
        (invalidTx_eq_ok_iff E).mp ha
      have hnot : ¬ accepts E hashBuff U a = true := by
        rw [accepts_eq_true_iff, hinvalid]
        simp
      rw [List.length_append, List.length_cons] at hn
      obtain ⟨hfilter, hfound⟩ := ih (by rw [List.length_append]; omega) hrest
      constructor
      · rw [hfilter, List.filter_append, List.filter_append, List.filter_cons_of_neg hnot]
      · intro t ht
        rcases List.mem_append.mp ht with ht | ht
        · exact hfound t (List.mem_append_left _ ht)
        · rcases List.mem_cons.mp ht with rfl | ht
          · exact ⟨false, hinvalid⟩
          · exact hfound t (List.mem_append_right _ ht)

/-- What is left of the pool is valid. -/
theorem filterPool_eq_ok {hashBuff : Digest} {U : List UnspentTxOut} {n : ℕ}
    {pool pool' : List Transaction} (hn : pool.length ≤ n)
    (h : filterPool E hashBuff U n pool = .ok pool') :
    pool'.Sublist pool ∧ ∀ t ∈ pool', transactionIsValid E hashBuff t U = .ok true := by
  rw [(filterPool_spec E hn h).1]
  refine ⟨List.filter_sublist, fun t ht => ?_⟩
  exact (accepts_eq_true_iff E).mp (List.mem_filter.mp ht).2

end HolbertonChain
