import K439.Fs.Block

/-!
# Stores of the kernel

What the kernel does at an address that it did not make itself. The page below `0x1000` is not
mapped: a store there is a page fault that kills the process. From there to `limit` every address is
mapped to itself, for the kernel and its heap; from `limit` to `0x80000000` a fault is a panic. The
upper half is the user's, and its pages are mapped when they are touched. The frames of the user's
pages are taken to be nobody else's, so memory is one byte for each address.
-/

namespace K439.User

open Fs (w32 w32_of_lt)

abbrev Mem := Nat → UInt8

/-- How an access ends that does not succeed. -/
inductive Fault
  | killed
  | panic
  /-- a string that does not end -/
  | endless
  deriving DecidableEq

/-- `handlePageFault`, for an address that is not mapped. -/
def fault (limit a : Nat) : Option Fault :=
  if a < 0x1000 then some .killed
  else if a < limit ∨ 0x80000000 ≤ a then none
  else some .panic

/-- The stores of `memcpy` from the address `a` on, and the fault that ends them. -/
def stores (limit : Nat) : Nat → List UInt8 → List (Nat × UInt8) × Option Fault
  | _, [] => ([], none)
  | a, b :: bytes =>
    match fault limit a with
    | some e => ([], some e)
    | none =>
      let (log, e) := stores limit (w32 (a + 1)) bytes
      ((a, b) :: log, e)

/-- The memory after some stores. -/
def Mem.after (mem : Mem) (log : List (Nat × UInt8)) : Mem :=
  log.foldl (fun mem w => Function.update mem w.1 w.2) mem

def memcpy (limit : Nat) (mem : Mem) (a : Nat) (bytes : List UInt8) : Except Fault Mem :=
  match stores limit a bytes with
  | (log, none) => .ok (mem.after log)
  | (_, some e) => .error e

/-- `K::strlen` -/
def strlen (mem : Mem) (str : Nat) : Except Fault Nat := go 0x100000000 str
where
  go : Nat → Nat → Except Fault Nat
    | 0, _ => .error .endless
    | fuel + 1, str => if mem str = 0 then .ok 0 else (go fuel (w32 (str + 1))).map (· + 1)

variable {limit a n : Nat} {mem : Mem} {bytes : List UInt8}

theorem fault_user (h : 0x80000000 ≤ a) : fault limit a = none := by
  rw [fault, if_neg (by omega), if_pos (.inr h)]

/-- A byte that is not stored to stays. -/
theorem Mem.after_of_notMem {log : List (Nat × UInt8)} {x : Nat} (h : ∀ w ∈ log, w.1 ≠ x) :
    mem.after log x = mem x := by
  induction log generalizing mem with
  | nil => rfl
  | cons w log ih =>
    refine (@ih (Function.update mem w.1 w.2) fun v hv => h v (List.mem_cons_of_mem w hv)).trans ?_
    exact Function.update_of_ne (h w List.mem_cons_self).symm ..

theorem put_singleton (b : UInt8) : put mem a [b] = Function.update mem a b := by
  funext x
  rcases Nat.lt_trichotomy x a with h | rfl | h
  · rw [put_of_lt h, Function.update_of_ne (Nat.ne_of_lt h)]
  · rw [Function.update_self]
    have h : put mem x [b] (x + 0) = [b][0] := put_add (by simp)
    exact h
  · rw [put_of_le h, Function.update_of_ne (Nat.ne_of_gt h)]

/-- In the user half all bytes of a copy that does not wrap are stored. -/
theorem stores_user_put (h : 0x80000000 ≤ a) (hle : a + bytes.length ≤ 0x100000000) :
    ∃ log, stores limit a bytes = (log, none) ∧ ∀ mem :
    Mem, mem.after log = put mem a bytes := by
  induction bytes generalizing a with
  | nil => exact ⟨[], rfl, fun mem => put_nil.symm⟩
  | cons b bytes ih =>
    rw [List.length_cons] at hle
    have hput (mem : Mem) :
        put mem a (b :: bytes) = put (Function.update mem a b) (a + 1) bytes := by
      have h : put (put mem a [b]) (a + [b].length) bytes = put mem a ([b] ++ bytes) := put_put
      rw [← put_singleton]
      exact h.symm
    simp only [stores, fault_user h, hput]
    rcases bytes with _ | ⟨c, bytes⟩
    · exact ⟨[(a, b)], rfl, fun mem => put_nil.symm⟩
    · rw [List.length_cons] at hle
      rw [w32_of_lt (by omega)]
      obtain ⟨log, hlog, hafter⟩ := @ih (a + 1) (by omega) (by rw [List.length_cons]; omega)
      exact ⟨(a, b) :: log, by rw [hlog], fun mem => hafter (Function.update mem a b)⟩

/-- In the user half a copy that does not wrap succeeds. -/
theorem memcpy_user (h : 0x80000000 ≤ a) (hle : a + bytes.length ≤ 0x100000000) :
    memcpy limit mem a bytes = .ok (put mem a bytes) := by
  obtain ⟨log, hlog, hafter⟩ := @stores_user_put limit a bytes h hle
  rw [memcpy, hlog, ← hafter]

/-- A string before a zero byte ends. -/
theorem strlen_eq {p z : Nat} (hz : z < 0x100000000) (hle : p ≤ z) (h0 : mem z = 0) :
    ∃ n, strlen mem p = .ok n ∧ p + n ≤ z := by
  have hgo (fuel : Nat) (hf : z - p < fuel) : ∃ n, strlen.go mem fuel p = .ok n ∧
      p + n ≤ z := by
    induction fuel generalizing p with
    | zero => exact absurd hf (Nat.not_lt_zero _)
    | succ fuel ih =>
      rw [strlen.go]
      split
      · exact ⟨0, rfl, hle⟩
      next h =>
        have hne : p ≠ z := by
          rintro rfl
          exact h h0
        obtain ⟨n, hn, hle'⟩ := @ih (p + 1) (by omega) (by omega)
        rw [w32_of_lt (by omega), hn]
        exact ⟨n + 1, rfl, by omega⟩
  exact hgo _ (by omega)

end K439.User
