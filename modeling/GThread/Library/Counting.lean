import Mathlib.Algebra.BigOperators.Group.Finset.Piecewise
import Mathlib.Algebra.Order.BigOperators.Group.Finset

/-! Counting the elements of a list by value and by owner. -/
namespace Counting
open Finset
variable {α : Type*}

theorem length_le_of_count [DecidableEq α] {as : List α} {n : ℕ} {S : Finset α}
    (hS : ∀ a ∈ as, a ∈ S) (hn : ∀ a, as.count a ≤ n) : as.length ≤ n * S.card := by
  have hsub : as.toFinset ⊆ S := fun a ha => hS a (List.mem_toFinset.mp ha)
  calc as.length = ∑ a ∈ as.toFinset, as.count a := as.sum_toFinset_count_eq_length.symm
    _ ≤ as.toFinset.card * n := sum_le_card_nsmul _ _ _ fun a _ => hn a
    _ ≤ S.card * n := Nat.mul_le_mul_right n (card_le_card hsub)
    _ = n * S.card := Nat.mul_comm ..

theorem sum_foreign {β : Type*} [DecidableEq β] (P : Finset β) (owner : α → β) (as : List α)
    (h : ∀ a ∈ as, owner a ∈ P) :
    ∑ q ∈ P, as.countP (fun a => owner a ≠ q) = (P.card - 1) * as.length := by
  induction as with
  | nil => simp
  | cons a as ih =>
    have hone : ∑ q ∈ P, (if owner a ≠ q then 1 else 0) = P.card - 1 := by
      rw [← card_filter,filter_ne,card_erase_of_mem (h a List.mem_cons_self)]
    simp only [List.countP_cons,decide_eq_true_eq,sum_add_distrib,hone,List.length_cons,
      ih fun b hb => h b (List.mem_cons_of_mem _ hb),Nat.mul_succ]

end Counting
