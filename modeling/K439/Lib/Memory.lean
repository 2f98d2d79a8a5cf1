import Mathlib.Logic.Function.Basic
import Mathlib.Tactic.Common

/-!
# Private memories

Each name has a memory of cells, which lie in pages. A page that is not there reads as zeros, and so
does one that is new. An operation changes the memory of one name: a page appears, a cell is stored,
the whole becomes a copy of another memory or empty. `Memories.run` is what a history of operations
leaves.
-/

namespace K439

variable {N C Q V : Type _} [Zero V] {page : C → Q}

@[ext]
structure Memory (page : C → Q) (V : Type _) [Zero V] where
  mapped : Q → Prop
  word : C → V
  zero : ∀ c, ¬mapped (page c) → word c = 0

namespace Memory

/-- No page. -/
def empty : Memory page V where
  mapped _ := False
  word _ := 0
  zero _ _ := rfl

/-- The page `q` is there. -/
def map (M : Memory page V) (q : Q) : Memory page V where
  mapped q' := M.mapped q' ∨ q' = q
  word := M.word
  zero c h := M.zero c fun hc => h (.inl hc)

/-- `v` is stored in the cell `c`, and its page is there. -/
def store [DecidableEq C] (M : Memory page V) (c : C) (v : V) : Memory page V where
  mapped q := M.mapped q ∨ q = page c
  word := Function.update M.word c v
  zero c' h := by
    have hne : c' ≠ c := fun he => h (.inr (he ▸ rfl))
    rw [Function.update_of_ne hne]
    exact M.zero c' fun hc => h (.inl hc)

@[simp] theorem store_word [DecidableEq C] {M : Memory page V} {c : C} {v : V} :
    (M.store c v).word c = v :=
  Function.update_self ..

/-- An operation on the memory of `n`. -/
inductive Op (N C Q V : Type _)
  | map (n : N) (q : Q)
  | store (n : N) (c : C) (v : V)
  /-- from the memory of `n'` -/
  | copy (n' n : N)
  | clear (n : N)

def Op.name : Op N C Q V → N
  | .map n _ => n
  | .store n _ _ => n
  | .copy _ n => n
  | .clear n => n

end Memory

namespace Memories

variable [DecidableEq N] [DecidableEq C] {S : N → Memory page V} {n n' : N} {c : C} {v : V}
  {q : Q}
  {ops ops' : List (Memory.Op N C Q V)}

def apply (S : N → Memory page V) : Memory.Op N C Q V → N → Memory page V
  | .map n q => Function.update S n ((S n).map q)
  | .store n c v => Function.update S n ((S n).store c v)
  | .copy n' n => Function.update S n (S n')
  | .clear n => Function.update S n .empty

def run (S : N → Memory page V) (ops : List (Memory.Op N C Q V)) : N → Memory page V :=
  ops.foldl apply S

theorem run_append : run S (ops ++ ops') = run (run S ops) ops' := List.foldl_append

theorem run_snoc {op : Memory.Op N C Q V} : run S (ops ++ [op]) = apply (run S ops) op := by
  rw [run_append]
  rfl

@[simp] theorem apply_map : apply S (.map n q) n = (S n).map q := Function.update_self ..

@[simp] theorem apply_store : apply S (.store n c v) n = (S n).store c v := Function.update_self ..

@[simp] theorem apply_copy : apply S (.copy n' n) n = S n' := Function.update_self ..

@[simp] theorem apply_clear : apply S (.clear n) n = .empty := Function.update_self ..

/-- The other memories stay. -/
theorem apply_of_ne {op : Memory.Op N C Q V} (h : op.name ≠ n) : apply S op n = S n := by
  cases op with
  | map | store | copy | clear => exact Function.update_of_ne (Ne.symm h) ..

/-- What is done to others does not matter. -/
theorem run_of_ne (h : ∀ op ∈ ops, op.name ≠ n) : run S ops n = S n := by
  induction ops generalizing S with
  | nil => rfl
  | cons op ops ih =>
    have hrest : ∀ op' ∈ ops, op'.name ≠ n := fun op' h' => h op' (List.mem_cons_of_mem _ h')
    exact (ih hrest).trans (apply_of_ne (h op List.mem_cons_self))

/-- Pages that appear do not matter: without a store or a copy the words stay zeros. -/
theorem run_word_zero (h0 : ∀ c, (S n).word c = 0) (hs : ∀ c v, .store n c v ∉ ops)
    (hc : ∀ n', .copy n' n ∉ ops) (c : C) : (run S ops n).word c = 0 := by
  induction ops generalizing S with
  | nil => exact h0 c
  | cons op ops ih =>
    refine ih (fun c => ?_) (fun c v h => hs c v (List.mem_cons_of_mem _ h)) fun n' h =>
      hc n' (List.mem_cons_of_mem _ h)
    rcases eq_or_ne op.name n with he | hne
    · cases op with
      | map n₀ q =>
        obtain rfl : n₀ = n := he
        rw [apply_map]
        exact h0 c
      | store n₀ c v =>
        obtain rfl : n₀ = n := he
        exact absurd List.mem_cons_self (hs c v)
      | copy n' n₀ =>
        obtain rfl : n₀ = n := he
        exact absurd List.mem_cons_self (hc n')
      | clear n₀ =>
        obtain rfl : n₀ = n := he
        rw [apply_clear]
        rfl
    · rw [apply_of_ne hne]
      exact h0 c

end Memories

end K439
