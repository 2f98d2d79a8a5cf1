import Mathlib.Data.List.Basic
import Mathlib.Logic.Function.Basic
import Mathlib.Tactic.Common

/-!
# Blocks

A memory of blocks that are allocated and freed as wholes. A block is a list of cells; an access
outside of its block, or to a block that is not there, has no result. A new block has the next
number.
-/

namespace K439

structure Blocks (α : Type _) where
  next : Nat
  block : Nat → Option (List α)
  fresh : ∀ b, next ≤ b → block b = none

theorem bind_of_eq_some {α β : Type _} {x : Option α} {a : α} {f : α → Option β}
    (h : x = some a) : (x >>= f) = f a := by
  rw [h]
  rfl

namespace Blocks

variable {α : Type _} {m : Blocks α} {a b i n : Nat} {x : α} {l : List α}

def empty : Blocks α := ⟨0, fun _ => none, fun _ _ => rfl⟩

theorem lt_next (h : m.block b = some l) : b < m.next := by
  by_contra hge
  rw [m.fresh b (Nat.le_of_not_lt hge)] at h
  cases h

/-- The memory with a new block, which has the number `m.next`. -/
def malloc (m : Blocks α) (l : List α) : Blocks α where
  next := m.next + 1
  block := Function.update m.block m.next (some l)
  fresh b hb := by
    rw [Function.update_of_ne (by omega)]
    exact m.fresh b (by omega)

/-- The memory with other contents of a block that is there. -/
def set (m : Blocks α) (b : Nat) (l : List α) : Option (Blocks α) :=
  if h : b < m.next ∧ (m.block b).isSome then
    some ⟨m.next, Function.update m.block b (some l), fun c hc => by
      rw [Function.update_of_ne (by omega)]
      exact m.fresh c hc⟩
  else none

def free (m : Blocks α) (b : Nat) : Option (Blocks α) :=
  match m.block b with
  | some _ => some ⟨m.next, Function.update m.block b none, fun c hc => by
      rw [Function.update_apply, m.fresh c hc, ite_self]⟩
  | none => none

def load (m : Blocks α) (b i : Nat) : Option α := do
  let l ← m.block b
  l[i]?

def store (m : Blocks α) (b i : Nat) (x : α) : Option (Blocks α) := do
  let l ← m.block b
  if i < l.length then m.set b (l.set i x) else none

/-- `memset` from the start of a block. -/
def fill (m : Blocks α) (b n : Nat) (x : α) : Option (Blocks α) := do
  let l ← m.block b
  if n ≤ l.length then m.set b (List.replicate n x ++ l.drop n) else none

/-- `memcpy` from the start of a block to the start of another. -/
def copy (m : Blocks α) (dest src n : Nat) : Option (Blocks α) := do
  let l ← m.block dest
  let l' ← m.block src
  if n ≤ l.length ∧ n ≤ l'.length then m.set dest (l'.take n ++ l.drop n) else none

theorem malloc_block : (m.malloc l).block b = if b = m.next then some l else m.block b :=
  Function.update_apply ..

/-- A block that is there can be set, which changes this block only. -/
theorem set_some (l' : List α) (h : m.block b = some l) :
    ∃ m', m.set b l' = some m' ∧ m'.next = m.next ∧
      ∀ c, m'.block c = if c = b then some l' else m.block c := by
  refine ⟨_, dif_pos ⟨lt_next h, by rw [h]; rfl⟩, rfl, fun c => Function.update_apply ..⟩

theorem free_some (h : m.block b = some l) :
    ∃ m', m.free b = some m' ∧ m'.next = m.next ∧ ∀ c, m'.block c = if c = b then none
    else m.block c := by
  refine ⟨⟨m.next, Function.update m.block b none, fun c hc => ?_⟩, ?_, rfl,
    fun c => Function.update_apply ..⟩
  · rw [Function.update_apply, m.fresh c hc, ite_self]
  · rw [free]
    split
    · rfl
    · rename_i hn
      rw [h] at hn
      cases hn

theorem load_some (h : m.block b = some l) (hi : i < l.length) : m.load b i = some l[i] := by
  rw [load, h]
  exact List.getElem?_eq_getElem hi

theorem store_some (h : m.block b = some l) (hi : i < l.length) :
    ∃ m', m.store b i x = some m' ∧ m'.next = m.next ∧
      ∀ c, m'.block c = if c = b then some (l.set i x) else m.block c := by
  obtain ⟨m', hm, hrest⟩ := set_some (l.set i x) h
  refine ⟨m', ?_, hrest⟩
  rw [store, h]
  exact (if_pos hi).trans hm

/-- A store outside of its block has no result. -/
theorem store_none (h : m.block b = some l) (hi : l.length ≤ i) : m.store b i x = none := by
  rw [store, h]
  exact if_neg (Nat.not_lt_of_le hi)

theorem fill_some (h : m.block b = some l) (hn : n ≤ l.length) :
    ∃ m', m.fill b n x = some m' ∧ m'.next = m.next ∧
      ∀ c, m'.block c = if c = b then some (List.replicate n x ++ l.drop n) else m.block c := by
  obtain ⟨m', hm, hrest⟩ := set_some (List.replicate n x ++ l.drop n) h
  refine ⟨m', ?_, hrest⟩
  rw [fill, h]
  exact (if_pos hn).trans hm

theorem copy_some {l' : List α} (h : m.block a = some l) (h' : m.block b = some l')
    (hn : n ≤ l.length) (hn' : n ≤ l'.length) :
    ∃ m', m.copy a b n = some m' ∧ m'.next = m.next ∧
      ∀ c, m'.block c = if c = a then some (l'.take n ++ l.drop n) else m.block c := by
  obtain ⟨m', hm, hrest⟩ := set_some (l'.take n ++ l.drop n) h
  refine ⟨m', ?_, hrest⟩
  rw [copy, h, h']
  exact (if_pos ⟨hn, hn'⟩).trans hm

end Blocks

end K439
