import Mathlib.Algebra.BigOperators.Fin
import Mathlib.Tactic

/-! Threads that are each at some place: what the places add up to, when one thread goes to another place. -/

namespace Threads
variable {n : Nat} {π M : Type} [AddCommMonoid M]

theorem sum_update (f : π → M) (places : Fin n → π) (i : Fin n) (x : π) :
    ∑ j, f (Function.update places i x j) + f (places i) = f x + ∑ j, f (places j) := by
  have moved : (fun j => f (Function.update places i x j)) = Function.update (fun j => f (places j)) i (f x) := by
    funext j
    exact Function.apply_update (fun _ => f) places i x j
  rw [moved, Finset.sum_update_of_mem (Finset.mem_univ i), ← Finset.add_sum_erase _ _ (Finset.mem_univ i),
    Finset.sdiff_singleton_eq_erase]
  abel

end Threads
