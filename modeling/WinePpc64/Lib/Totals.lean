import Mathlib

namespace WinePpc64.Lib

open Finset Function

variable {T A : Type} [Fintype T]

def total (f : A → ℕ) (g : T → A) : ℕ := ∑ t, f (g t)

variable {f : A → ℕ} {g g' : T → A}

theorem le_total (f : A → ℕ) (g : T → A) (t : T) : f (g t) ≤ total f g :=
  single_le_sum (f := fun u => f (g u)) (fun _ _ => Nat.zero_le _) (mem_univ t)

theorem total_congr (h : ∀ t, f (g' t) = f (g t)) : total f g' = total f g :=
  sum_congr rfl fun t _ => h t

theorem total_update [DecidableEq T] (f : A → ℕ) (g : T → A) (t : T) (a : A) :
    total f (update g t a) + f (g t) = total f g + f a := by
  have hrest : ∑ u ∈ Finset.univ.erase t, f (update g t a u) = ∑ u ∈ Finset.univ.erase t, f (g u) := by
    apply sum_congr rfl
    intro u hu
    rw [update_of_ne (ne_of_mem_erase hu)]
  have hnew := add_sum_erase Finset.univ (fun u => f (update g t a u)) (mem_univ t)
  have hold := add_sum_erase Finset.univ (fun u => f (g u)) (mem_univ t)
  rw [update_self] at hnew
  rw [total, total]
  omega

end WinePpc64.Lib
