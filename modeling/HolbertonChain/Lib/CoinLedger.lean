import Mathlib.Algebra.BigOperators.Group.Multiset.Basic
import Mathlib.Algebra.Order.BigOperators.Group.Multiset
import Mathlib.Data.Multiset.AddSub
import Mathlib.Data.Multiset.MapFold
import Mathlib.Data.Set.Function
import Mathlib.Tactic.Abel

/-!
# Ledgers of coins

A `Ledger` counts the coins that were ever created, those that were spent since and those that are
still unspent; that the last two make up the first is a field, so that a ledger that lost a coin or
kept a spent one cannot be built.  `Ledger.transfer` spends coins and creates others.

Coins have a value and a name.  A transfer adds to the value of the unspent coins what it creates
and takes away what it spends (`value_transfer`), and a bag of coins is known by the bag of its
names, as long as no two coins in question share one (`eq_of_map_eq_map`).
-/

namespace CoinLedger

variable {α β : Type*}

/-! ### Bags of coins -/

/-- The value of a bag of coins. -/
def value (v : α → ℕ) (coins : Multiset α) : ℕ := (coins.map v).sum

@[simp] theorem value_add (v : α → ℕ) (s t : Multiset α) :
    value v (s + t) = value v s + value v t := by
  simp [value]

/-- Coins are determined by their names where no two of them share one. -/
theorem eq_of_map_eq_map {name : α → β} {S : Set α} (hname : Set.InjOn name S) {s t : Multiset α}
    (hs : ∀ a ∈ s, a ∈ S) (ht : ∀ a ∈ t, a ∈ S) (h : s.map name = t.map name) : s = t := by
  rcases isEmpty_or_nonempty α with hα | hα
  · exact Subsingleton.elim s t
  · -- the inverse of `name` on `S` leads back from the names
    have hback : ∀ r : Multiset α, (∀ a ∈ r, a ∈ S) →
        (r.map name).map (Function.invFunOn name S) = r := by
      intro r hr
      rw [Multiset.map_map]
      conv_rhs => rw [← Multiset.map_id r]
      exact Multiset.map_congr rfl fun a ha => hname.leftInvOn_invFunOn (hr a ha)
    rw [← hback s hs, h, hback t ht]

/-! ### Ledgers -/

/-- Coins created, spent and unspent. -/
structure Ledger (α : Type*) where
  created : Multiset α
  spent : Multiset α
  unspent : Multiset α
  balanced : unspent + spent = created

namespace Ledger

/-- The ledger without coins. -/
def empty : Ledger α where
  created := 0
  spent := 0
  unspent := 0
  balanced := rfl

/-- The coins `ins` are spent, `kept` are the unspent coins that stay, and the coins `outs` are
created. -/
def transfer (L : Ledger α) (kept ins outs : Multiset α) (h : kept + ins = L.unspent) :
    Ledger α where
  created := L.created + outs
  spent := L.spent + ins
  unspent := kept + outs
  balanced := by
    rw [← L.balanced, ← h]
    abel

/-- Coins are created, and none is spent. -/
def mint (L : Ledger α) (outs : Multiset α) : Ledger α :=
  L.transfer L.unspent 0 outs (add_zero _)

theorem mem_created_of_mem_unspent {L : Ledger α} {a : α} (h : a ∈ L.unspent) : a ∈ L.created := by
  rw [← L.balanced]
  exact Multiset.mem_add.mpr (Or.inl h)

/-- What a transfer does to the value of the unspent coins. -/
theorem value_transfer (v : α → ℕ) (L : Ledger α) {kept ins : Multiset α} (outs : Multiset α)
    (h : kept + ins = L.unspent) :
    value v (L.transfer kept ins outs h).unspent + value v ins =
      value v L.unspent + value v outs := by
  rw [transfer, ← h, value_add, value_add]
  omega

theorem value_mint (v : α → ℕ) (L : Ledger α) (outs : Multiset α) :
    value v (L.mint outs).unspent = value v L.unspent + value v outs :=
  value_transfer v L outs (add_zero L.unspent)

end Ledger

end CoinLedger
