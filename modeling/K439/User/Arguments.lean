import K439.User.Memory

/-!
# The arguments of a program

The part of `Process::execv` that puts the arguments into the address space that `exec` has cleared:
the count and the pointer `argv` where the stack of the program begins, then the pointers, then the
strings. No zero is written behind a string; the pages are zero.
-/

namespace K439.User

open Fs (w32 w32_of_lt)

def userESP : Nat := 0xeeeeeee0

/-- `(char**)&stack[1]` -/
def argv : Nat := userESP + 4

/-- The loop over the arguments, which are the strings in the queue. -/
def copyArgs (limit : Nat) (mem : Mem) (topOfStack i : Nat) : List (List UInt8) → Except Fault Mem
  | [] => .ok mem
  | arg :: args => do
    let mem ← memcpy limit mem (w32 (argv + 4 * i)) (le32 topOfStack)
    let mem ← memcpy limit mem topOfStack arg
    copyArgs limit mem (w32 (topOfStack + arg.length + 1)) (i + 1) args

def memset (limit : Nat) (mem : Mem) (p sz : Nat) : Except Fault Mem :=
  memcpy limit mem p (List.replicate sz 0)

/-- `execv` from `argc+=1` to `stack[1] = (long)&argv[0]`. -/
def execArgs (limit : Nat) (mem : Mem) (fileName : Nat) (args : List (List UInt8)) :
    Except Fault Mem := do
  let argc := args.length + 1
  let mem ← memset limit mem argv (4 * argc)
  let topOfStack := w32 (argv + 4 * argc + 4)
  let mem ← memcpy limit mem argv (le32 topOfStack)
  let sizeOfArg ← strlen mem fileName
  let mem ← memcpy limit mem topOfStack (slice (fun a => mem (w32 a)) fileName sizeOfArg)
  let mem ← copyArgs limit mem (w32 (topOfStack + sizeOfArg + 1)) 1 args
  let mem ← memcpy limit mem (w32 (argv + 4 * argc)) (le32 0)
  let mem ← memcpy limit mem userESP (le32 argc)
  memcpy limit mem argv (le32 argv)

/-- The strings with the zeros behind them. -/
def stringsSize : List (List UInt8) → Nat
  | [] => 0
  | arg :: args => arg.length + 1 + stringsSize args

/-- The length of the name, which is read when the user's memory is cleared and `argv[0]` is set. -/
def nameLength (mem : Mem) (fileName : Nat) (args : List (List UInt8)) : Except Fault Nat :=
  strlen (put mem argv (le32 (argv + 4 * (args.length + 2)))) fileName

/-- Where the string number `j` is when the first one is at `topOfStack`. -/
def start (topOfStack : Nat) (args : List (List UInt8)) (j : Nat) : Nat :=
  topOfStack + stringsSize (args.take j)

/-- What `main(argc, argv)` sees: its parameters are the two words at `userESP`. -/
structure Decodes (mem : Mem) (args : List (List UInt8)) : Prop where
  argc : word mem userESP = args.length + 1
  argv : word mem (userESP + 4) = argv
  arg : ∀ i (h : i < args.length), slice mem (word mem (User.argv + 4 * (i + 1))) args[i].length =
    args[i] ∧ mem (word mem (User.argv + 4 * (i + 1)) + args[i].length) = 0
  null : word mem (User.argv + 4 * (args.length + 1)) = 0
  /-- the strings are behind the array -/
  behind : ∀ i < args.length, User.argv + 4 * (args.length + 2) ≤
    word mem (User.argv + 4 * (i + 1))
  /-- and one behind the other -/
  apart : ∀ i j (hij : i < j) (hj : j < args.length),
    word mem (User.argv + 4 * (i + 1)) + args[i].length + 1 ≤ word mem (User.argv + 4 * (j + 1))

variable {limit top i j fileName : Nat} {mem : Mem} {args : List (List UInt8)}

/-! ## Where the strings are -/

theorem stringsSize_append (l l' : List (List UInt8)) :
    stringsSize (l ++ l') = stringsSize l + stringsSize l' := by
  induction l with
  | nil => exact (Nat.zero_add _).symm
  | cons arg l ih => rw [List.cons_append, stringsSize, stringsSize, ih, ← Nat.add_assoc]

theorem start_zero : start top args 0 = top := rfl

theorem start_cons {arg : List UInt8} :
    start top (arg :: args) (j + 1) = start (top + arg.length + 1) args j := by
  rw [start, start, List.take_succ_cons, stringsSize]
  omega

theorem start_succ (h : j < args.length) :
    start top args (j + 1) = start top args j + args[j].length + 1 := by
  rw [start, start, List.take_succ_eq_append_getElem h, stringsSize_append, stringsSize,
    stringsSize]
  omega

theorem start_mono (h : i ≤ j) : start top args i ≤ start top args j := by
  obtain ⟨k, rfl⟩ := Nat.exists_eq_add_of_le h
  rw [start, start, List.take_add, stringsSize_append]
  omega

theorem start_length : start top args args.length = top + stringsSize args := by
  rw [start, List.take_length]

/-! ## The loop -/

/-- Behind the last argument the pointer does not matter. -/
theorem copyArgs_w32 (h : top + stringsSize args ≤ 0x100000000) :
    copyArgs limit mem (w32 top) i args = copyArgs limit mem top i args := by
  cases args with
  | nil => rfl
  | cons arg args =>
    rw [stringsSize] at h
    rw [w32_of_lt (by omega)]

/-- What the loop leaves: the pointers from the number `i` on and the strings. -/
structure Copied (mem mem' : Mem) (top i : Nat) (args : List (List UInt8)) : Prop where
  other : ∀ x, (x < argv + 4 * i ∨ argv + 4 * (i + args.length) ≤ x) →
    (x < top ∨ top + stringsSize args ≤ x) → mem' x = mem x
  pointer : ∀ j < args.length, word mem' (argv + 4 * (i + j)) = start top args j
  string : ∀ j (h : j < args.length), slice mem' (start top args j) args[j].length = args[j]
  zero : ∀ j (h : j < args.length),
    mem' (start top args j + args[j].length) = mem (start top args j + args[j].length)

theorem copyArgs_spec (hlo : argv + 4 * (i + args.length) ≤ top)
    (hhi : top + stringsSize args ≤ 0x100000000) :
    ∃ mem', copyArgs limit mem top i args = .ok mem' ∧ Copied mem mem' top i args := by
  have hargv : argv = 0xeeeeeee4 := rfl
  induction args generalizing mem top i with
  | nil => exact ⟨mem, rfl, fun _ _ _ => rfl, fun _ h => absurd h (Nat.not_lt_zero _),
      fun _ h => absurd h (Nat.not_lt_zero _), fun _ h => absurd h (Nat.not_lt_zero _)⟩
  | cons arg args ih =>
    rw [stringsSize] at hhi
    rw [List.length_cons] at hlo
    obtain ⟨mem', hcopy, C⟩ := @ih (top + arg.length + 1) (i + 1)
      (put (put mem (argv + 4 * i) (le32 top)) top arg) (by omega) (by omega)
    have hother : ∀ x, (x < argv + 4 * (i + 1) ∨ argv + 4 * (i + 1 + args.length) ≤ x) →
        x < top + arg.length + 1 → mem' x = put (put mem (argv + 4 * i) (le32 top)) top arg x :=
      fun x h h' => C.other x h (.inl h')
    refine ⟨mem', ?_, ?_, ?_, ?_, ?_⟩
    · rw [copyArgs, w32_of_lt (by omega), memcpy_user (by omega) (by rw [le32_length]; omega)]
      dsimp only [bind, Except.bind]
      rw [memcpy_user (by omega) (by omega)]
      dsimp only [bind, Except.bind]
      rw [copyArgs_w32 (by omega), hcopy]
    · intro x hx hx'
      rw [List.length_cons] at hx
      rw [stringsSize] at hx'
      rw [C.other x (by omega) (by omega), put_of_outside (by omega),
        put_of_outside (by rw [le32_length]; omega)]
    · intro j hj
      cases j with
      | zero =>
        have hw : word mem' (argv + 4 * (i + 0)) =
            word (put (put mem (argv + 4 * i) (le32 top)) top arg) (argv + 4 * i) := by
          rw [word, word, Nat.add_zero, slice_congr fun k hk => hother _ (by omega) (by omega)]
        rw [hw, word_put_of_disjoint (by omega), word_put_le32 (by omega), start_zero]
      | succ j =>
        have h := C.pointer j (Nat.lt_of_succ_lt_succ hj)
        rw [start_cons, ← h, Nat.add_assoc, Nat.add_comm 1 j]
    · intro j hj
      cases j with
      | zero =>
        rw [start_zero, List.getElem_cons_zero, slice_congr fun k hk => hother (top + k) (by omega)
          (by omega), slice_put]
      | succ j =>
        simp only [start_cons, List.getElem_cons_succ]
        exact C.string j (Nat.lt_of_succ_lt_succ hj)
    · intro j hj
      cases j with
      | zero =>
        rw [start_zero, List.getElem_cons_zero, hother (top + arg.length) (by omega) (by omega),
          put_of_outside (by omega), put_of_outside (by rw [le32_length]; omega)]
      | succ j =>
        simp only [start_cons, List.getElem_cons_succ]
        have hle : top + arg.length + 1 ≤ start (top + arg.length + 1) args j :=
          Nat.le_add_right ..
        rw [C.zero j (Nat.lt_of_succ_lt_succ hj), put_of_outside (by omega),
          put_of_outside (by rw [le32_length]; omega)]

/-! ## The whole -/

theorem put_zeros {a n : Nat} (h : ∀ x, a ≤ x → x < a + n → mem x = 0) :
    put mem a (List.replicate n 0) = mem := by
  have hs : List.replicate n 0 = slice mem a n := by
    apply List.ext_getElem
    · rw [List.length_replicate, slice_length]
    · intro k hk _
      rw [List.length_replicate] at hk
      rw [List.getElem_replicate, getElem_slice, h _ (by omega) (by omega)]
  rw [hs, put_slice]

theorem nameLength_eq (hzero : ∀ a, 0x80000000 ≤ a → a < 0x100000000 → mem a = 0)
    (hname : fileName < 0x100000000) : ∃ n, nameLength mem fileName args = .ok n := by
  have hargv : argv = 0xeeeeeee4 := rfl
  have hz : put mem argv (le32 (argv + 4 * (args.length + 2))) 0xffffffff = 0 := by
    rw [put_of_outside (by rw [le32_length]; omega)]
    exact hzero _ (by omega) (by omega)
  obtain ⟨n, hn, -⟩ := strlen_eq (by omega) (by omega : fileName ≤ 0xffffffff) hz
  exact ⟨n, hn⟩

/-- What the last stores of `execv` make of the memory after the loop. -/
theorem Copied.decodes {mem' : Mem} (C : Copied mem mem' top 1 args)
    (hlo : argv + 4 * (args.length + 2) < top) (hhi : top + stringsSize args ≤ 0x100000000)
    (hzero : ∀ x, top ≤ x → x < 0x100000000 → mem x = 0) :
    Decodes (put (put (put mem' (argv + 4 * (args.length + 1)) (le32 0)) userESP
      (le32 (args.length + 1))) argv (le32 argv)) args := by
  generalize hm :
    put (put (put mem' (argv + 4 * (args.length + 1)) (le32 0)) userESP (le32 (args.length + 1)))
    argv (le32 argv) = mem₂
  have hargv : argv = userESP + 4 := rfl
  have hesp : userESP = 0xeeeeeee0 := rfl
  have hother : ∀ x, argv + 4 ≤ x →
      (x < argv + 4 * (args.length + 1) ∨ argv + 4 * (args.length + 2) ≤ x) →
      mem₂ x = mem' x := by
    intro x hx hx'
    rw [← hm, put_of_outside (by rw [le32_length]; omega),
      put_of_outside (by rw [le32_length]; omega), put_of_outside (by rw [le32_length]; omega)]
  have hpointer : ∀ j < args.length, word mem₂ (argv + 4 * (j + 1)) = start top args j := by
    intro j hj
    rw [← C.pointer j hj, word, word, Nat.add_comm 1 j,
      slice_congr fun k hk => hother _ (by omega) (by omega)]
  have hstart (j : Nat) : top ≤ start top args j := Nat.le_add_right ..
  have hend : ∀ j (h : j < args.length), start top args j + args[j].length + 1 ≤ top +
      stringsSize args := by
    intro j h
    rw [← start_succ h, ← start_length]
    exact start_mono h
  refine ⟨?_, ?_, ?_, ?_, ?_, ?_⟩
  · rw [← hm, word_put_of_disjoint (by rw [le32_length]; omega), word_put_le32 (by omega)]
  · rw [← hm, ← hargv, word_put_le32 (by omega)]
  · intro j hj
    have hj' := hend j hj
    have hj'' := hstart j
    rw [hpointer j hj, slice_congr fun k hk => hother (start top args j + k) (by omega) (by omega),
      hother _ (by omega) (by omega), C.zero j hj]
    exact ⟨C.string j hj, hzero _ (by omega) (by omega)⟩
  · rw [← hm, word_put_of_disjoint (by rw [le32_length]; omega),
      word_put_of_disjoint (by rw [le32_length]; omega), word_put_le32 (by omega)]
  · intro j hj
    have hj'' := hstart j
    rw [hpointer j hj]
    omega
  · intro i j hij hj
    rw [hpointer i (by omega), hpointer j hj, ← start_succ (by omega)]
    exact start_mono hij

/-- **The arguments reach the program**: the name has a length, and if everything fits below `2 ^
32` the memory decodes to the arguments. -/
theorem execArgs_decodes (hzero : ∀ a, 0x80000000 ≤ a → a < 0x100000000 → mem a = 0)
    (hname : fileName < 0x100000000) :
    ∃ n, nameLength mem fileName args = .ok n ∧
      (argv + 4 * (args.length + 2) + (n + 1) + stringsSize args ≤ 0x100000000 →
        ∃ mem', execArgs limit mem fileName args = .ok mem' ∧ Decodes mem' args) := by
  obtain ⟨n, hn⟩ : ∃ n, nameLength mem fileName args = .ok n := nameLength_eq hzero hname
  refine ⟨n, hn, fun hfit => ?_⟩
  have hargv : argv = userESP + 4 := rfl
  have hesp : userESP = 0xeeeeeee0 := rfl
  have htop : w32 (argv + 4 * (args.length + 1) + 4) = argv + 4 * (args.length + 2) :=
    w32_of_lt (by omega)
  rw [nameLength] at hn
  generalize hmem : put mem argv (le32 (argv + 4 * (args.length + 2))) = mem₁ at hn
  generalize hname : slice (fun a => mem₁ (w32 a)) fileName n = name
  have hlen : name.length = n := by rw [← hname, slice_length]
  generalize hmem' : put mem₁ (argv + 4 * (args.length + 2)) name = mem₂
  have hzero₂ : ∀ x, argv + 4 * (args.length + 2) + n + 1 ≤ x → x < 0x100000000 →
      mem₂ x = 0 := by
    intro x hx hx'
    rw [← hmem', put_of_outside (by omega), ← hmem, put_of_outside (by rw [le32_length]; omega)]
    exact hzero x (by omega) hx'
  obtain ⟨mem', hcopy, C⟩ :
      ∃ mem', copyArgs limit mem₂ (argv + 4 * (args.length + 2) + n + 1) 1 args = .ok mem' ∧
      Copied mem₂ mem' (argv + 4 * (args.length + 2) + n + 1) 1 args :=
    copyArgs_spec (by omega) (by omega)
  refine ⟨_, ?_, C.decodes (by omega) (by omega) hzero₂⟩
  rw [execArgs, memset]
  dsimp only
  rw [memcpy_user (by omega) (by rw [List.length_replicate]; omega),
    put_zeros fun x hx hx' => hzero x (by omega) (by omega)]
  dsimp only [bind, Except.bind]
  rw [htop, memcpy_user (by omega) (by rw [le32_length]; omega), hmem]
  dsimp only
  rw [hn]
  dsimp only
  rw [hname, memcpy_user (by omega) (by omega), hmem']
  dsimp only
  rw [copyArgs_w32 (by omega), hcopy]
  dsimp only
  rw [w32_of_lt (by omega), memcpy_user (by omega) (by rw [le32_length]; omega)]
  dsimp only
  rw [memcpy_user (by omega) (by rw [le32_length]; omega)]
  dsimp only
  rw [memcpy_user (by omega) (by rw [le32_length]; omega)]

/-- Two arguments, one of them empty. -/
theorem execArgs_decodes_two :
    ∃ mem', execArgs 0x400000 (fun _ => 0) 0x80000000 [[0x61, 0x62], []] = .ok mem' ∧
    Decodes mem' [[0x61, 0x62], []] := by
  have hall : ∃ n, nameLength (fun _ => 0) 0x80000000 [[0x61, 0x62], []] = .ok n ∧
      (_ → ∃ mem', execArgs 0x400000 (fun _ => 0) 0x80000000 [[0x61, 0x62], []] = .ok mem' ∧
        Decodes mem' [[0x61, 0x62], []]) :=
    execArgs_decodes (fun _ _ _ => rfl) (by decide)
  obtain ⟨n, hn, h⟩ := hall
  have h0 : nameLength (fun _ => 0) 0x80000000 [[0x61, 0x62], []] = .ok 0 := rfl
  cases h0.symm.trans hn
  exact h (by decide)

end K439.User
