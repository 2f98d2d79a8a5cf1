import Mathlib.Algebra.Order.BigOperators.Group.Finset
import Mathlib.Algebra.Order.Group.Int
import Mathlib.Logic.Function.Basic

/-!
# Accounts

Each of finitely many parties holds something with a weight. When one party exchanges what it holds,
the sum changes by the difference of the two weights.
-/

namespace K439

variable {ι α : Type _} {T : Finset ι} {w : α → Int} {r : ι → α} {x : α} {i j : ι}

/-- The weight of what the parties hold. -/
def account (T : Finset ι) (w : α → Int) (r : ι → α) : Int := T.sum fun i => w (r i)

theorem account_update [DecidableEq ι] (hi : i ∈ T) :
    account T w (Function.update r i x) = account T w r - w (r i) + w x := by
  have hrest : (T.erase i).sum (fun j => w (Function.update r i x j)) = (T.erase i).sum fun j =>
      w (r j) := by
    apply Finset.sum_congr rfl
    intro j hj
    rw [Function.update_of_ne (Finset.ne_of_mem_erase hj)]
  have hx := Finset.add_sum_erase T (fun j => w (Function.update r i x j)) hi
  have hr := Finset.add_sum_erase T (fun j => w (r j)) hi
  rw [hrest, Function.update_self] at hx
  rw [account, account]
  omega

theorem account_nonneg (h : ∀ i, 0 ≤ w (r i)) : 0 ≤ account T w r :=
  Finset.sum_nonneg fun i _ => h i

theorem le_account (h : ∀ i, 0 ≤ w (r i)) (hi : i ∈ T) : w (r i) ≤ account T w r :=
  Finset.single_le_sum (fun i _ => h i) hi

/-- Two parties do not hold more than all of them. -/
theorem add_le_account [DecidableEq ι] (h : ∀ i, 0 ≤ w (r i)) (hi : i ∈ T) (hj : j ∈ T)
    (hij : i ≠ j) : w (r i) + w (r j) ≤ account T w r := by
  have hr := Finset.add_sum_erase T (fun j => w (r j)) hi
  have hle : w (r j) ≤ (T.erase i).sum fun j => w (r j) :=
    le_account h (Finset.mem_erase.mpr ⟨Ne.symm hij, hj⟩)
  rw [account]
  omega

theorem account_eq_zero (h : ∀ i ∈ T, w (r i) = 0) : account T w r = 0 := Finset.sum_eq_zero h

end K439
