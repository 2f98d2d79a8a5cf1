import Mathlib.Tactic.Common

/-!
# Counting loops

`for (i = s; i < s + n; i++)` is a fold over `List.range' s n`. An invariant indexed by the
counter, kept by the body, holds at the end for the final value of the counter.
-/

namespace K439

variable {S : Type _} {P : Nat → S → Prop} {s n : Nat} {a a' : S}

theorem foldl_range'_inv {f : S → Nat → S}
    (h : ∀ k a, s ≤ k → k < s + n → P k a → P (k + 1) (f a k)) (h0 : P s a) :
    P (s + n) ((List.range' s n).foldl f a) := by
  induction n generalizing s a with
  | zero => exact h0
  | succ n ih =>
    have := ih (fun k a hs hn => h k a (by omega) (by omega))
      (h s a (Nat.le_refl s) (by omega) h0)
    rwa [Nat.add_assoc, Nat.add_comm 1] at this

/-- The same for a body that may fail. -/
theorem foldlM_range'_inv {f : S → Nat → Option S}
    (h : ∀ k a a', s ≤ k → k < s + n → P k a → f a k = some a' → P (k + 1) a')
    (h0 : P s a) (hf : (List.range' s n).foldlM f a = some a') : P (s + n) a' := by
  induction n generalizing s a with
  | zero => cases hf; exact h0
  | succ n ih =>
    rw [List.range'_succ, List.foldlM_cons] at hf
    obtain ⟨b, hb, hf⟩ := Option.bind_eq_some_iff.mp hf
    have := ih (fun k a a' hs hn => h k a a' (by omega) (by omega))
      (h s a b (Nat.le_refl s) (by omega) h0 hb) hf
    rwa [Nat.add_assoc, Nat.add_comm 1] at this

end K439
