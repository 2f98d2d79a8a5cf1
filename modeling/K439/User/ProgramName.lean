import K439.User.Image

/-!
# The name of a program

`execv` stores the pointer `argv` itself in `argv[0]`, and it reads the name when the memory that
holds it has been cleared. `frame` is what it leaves where the stack of the program begins.
-/

namespace K439.User

open Fs

/-- `AddressSpace::exec`: the pages of the user half are gone, and those that come back are
zeros. -/
def exec (mem : Mem) : Mem := fun a => if a < 0x80000000 then mem a else 0

/-- `execv` of a file that has been found, up to `switchToUser`. -/
def execv (limit : Nat) (fs : Fat439) (prog : Fat439File) (hdr : List UInt8)
    (phdrs : Nat → List UInt8) (mem : Mem) (fileName : Nat) (args : List (List UInt8)) :
    Option Mem :=
  match execArgs limit (exec mem) fileName args with
  | .error _ => none
  | .ok mem => do
    let (log, e) ← load limit fs prog hdr phdrs
    if e = none then some (mem.after log) else none

/-- `argv[0]`, when `main` is called with the two words at `userESP`. -/
def argv0 (mem : Mem) : Nat := word mem (word mem (userESP + 4))

/-- There is a copy of `name` and a NUL at `p`. -/
def CopyAt (mem : Mem) (p : Nat) (name : List UInt8) : Prop :=
  slice mem p name.length = name ∧ mem (p + name.length) = 0

/-- A string of the user. -/
structure IsName (mem : Mem) (a : Nat) (name : List UInt8) : Prop where
  ne_nil : name ≠ []
  nul : 0 ∉ name
  copy : CopyAt mem a name
  user : 0x80000000 ≤ a
  inside : a + name.length < 0x100000000

/-- What `execv` reads as the name: the cleared memory, with a pointer in `argv[0]`. -/
def leftOfName (fileName : Nat) (args : List (List UInt8)) : List UInt8 :=
  if argv ≤ fileName ∧ fileName < argv + 4 then
    ((le32 (argv + 4 * (args.length + 2))).drop (fileName - argv)).takeWhile (· ≠ 0)
  else []

/-- Where the strings are, the first one at `top`. -/
def pointers (top : Nat) : List (List UInt8) → List Nat
  | [] => []
  | arg :: args => top :: pointers (top + arg.length + 1) args

/-- `argv[0]`, the other pointers and the null pointer. -/
def argvBytes (fileName : Nat) (args : List (List UInt8)) : List UInt8 :=
  le32 argv ++
    (pointers (argv + 4 * (args.length + 2) + (leftOfName fileName args).length + 1) args).flatMap
    le32 ++
    le32 0

/-- The bytes from `userESP` on. -/
def frame (fileName : Nat) (args : List (List UInt8)) : List UInt8 :=
  le32 (args.length + 1) ++
    (argvBytes fileName args ++ (leftOfName fileName args ++ [0] ++ args.flatMap (· ++ [0])))

/-- Bytes at an address and the following ones. -/
def placed (a : Nat) : List UInt8 → Log
  | [] => []
  | b :: bytes => (a, b) :: placed (w32 (a + 1)) bytes

/-- The bytes of the segments of a file, each where its program header says. -/
def segments (fs : Fat439) (start : Nat) (phdrs : List Elf32_Phdr) : Log :=
  phdrs.flatMap fun phdr =>
    if phdr.p_type = PT_LOAD then placed phdr.p_vaddr (bytesAt fs start phdr.p_offset phdr.p_filesz)
      else []

/-- The string at `argv[0]` is `name`: it is what the pointers spell, if the segments of the program
leave the frame alone, and else what the frame with the segments over it has there. -/
def Spells (mem : Mem) (fileName : Nat) (args : List (List UInt8)) (log : Log)
    (name : List UInt8) : Prop :=
  if ∀ w ∈ log, w.1 < userESP ∨ userESP + (frame fileName args).length ≤ w.1 then
    name = (argvBytes fileName args).takeWhile (· ≠ 0)
  else
    let laid : Mem := Mem.after (put (exec mem) userESP (frame fileName args)) log
    CopyAt laid (argv0 laid) name

variable {limit p i n top fuel fileName : Nat} {mem mem' : Mem} {args : List (List UInt8)}
  {l name : List UInt8}
  {log : Log}

/-! ## The arguments -/

theorem stringsSize_eq (args : List (List UInt8)) :
    (args.flatMap (· ++ [0])).length = stringsSize args := by
  induction args with
  | nil => rfl
  | cons arg args ih =>
    rw [List.flatMap_cons, List.length_append, ih, stringsSize, List.length_append,
      List.length_singleton]

theorem pointers_length : ((pointers top args).flatMap le32).length = 4 * args.length := by
  induction args generalizing top with
  | nil => rfl
  | cons arg args ih =>
    rw [pointers, List.flatMap_cons, List.length_append, ih, le32_length, List.length_cons]
    omega

/-- The loop stores the pointers and the strings; the zeros behind the strings are there. -/
theorem copyArgs_put (hlo : argv + 4 * (i + args.length) ≤ top)
    (hhi : top + stringsSize args ≤ 0x100000000)
    (hzero : ∀ x, top ≤ x → x < 0x100000000 → mem x = 0) :
    copyArgs limit mem top i args =
    .ok (put (put mem (argv + 4 * i) ((pointers top args).flatMap le32)) top
      (args.flatMap (· ++ [0]))) := by
  have hargv : argv = 0xeeeeeee4 := rfl
  induction args generalizing mem top i with
  | nil => rw [pointers, List.flatMap_nil, List.flatMap_nil, put_nil, put_nil]; rfl
  | cons arg args ih =>
    rw [stringsSize] at hhi
    rw [List.length_cons] at hlo
    have hz (x : Nat) (hx : top + arg.length ≤ x) (hx' : x < 0x100000000) :
        put (put mem (argv + 4 * i) (le32 top)) top arg x = 0 := by
      rw [put_of_outside (by omega), put_of_outside (by rw [le32_length]; omega)]
      exact hzero x (by omega) hx'
    rw [copyArgs, w32_of_lt (by omega), memcpy_user (by omega) (by rw [le32_length]; omega)]
    dsimp only [bind, Except.bind]
    rw [memcpy_user (by omega) (by omega)]
    dsimp only
    rw [copyArgs_w32 (by omega), ih (by omega) (by omega) fun x hx hx' =>
      hz x (by omega) hx', pointers, List.flatMap_cons, List.flatMap_cons]
    generalize hP : (pointers (top + arg.length + 1) args).flatMap le32 = P
    have hPlen : P.length = 4 * args.length := by rw [← hP, pointers_length]
    have hptrs : put mem (argv + 4 * i) (le32 top ++ P) =
        put (put mem (argv + 4 * i) (le32 top)) (argv + 4 * (i + 1)) P := by
      rw [← put_put, le32_length, Nat.mul_add, Nat.mul_one, Nat.add_assoc]
    have hstrs (M : Mem) : put M top (arg ++ [0] ++ args.flatMap (· ++ [0])) =
        put (put (put M top arg) (top + arg.length) [0]) (top + arg.length + 1)
          (args.flatMap (· ++ [0])) := by
      rw [← put_put, ← put_put, List.length_append, List.length_singleton, Nat.add_assoc]
    have hcomm : put (put (put mem (argv + 4 * i) (le32 top)) top arg) (argv + 4 * (i + 1)) P =
        put (put (put mem (argv + 4 * i) (le32 top)) (argv + 4 * (i + 1)) P) top arg :=
      put_comm (.inr (by omega))
    -- the zero behind the string is there
    have hnul : put (put (put (put mem (argv + 4 * i) (le32 top)) top arg) (argv + 4 * (i + 1)) P)
        (top + arg.length) [0] = put (put (put mem (argv + 4 * i) (le32 top)) top arg)
          (argv + 4 * (i + 1)) P :=
      put_zeros (n := 1) fun x hx hx' => by
        rw [put_of_outside (by omega)]
        exact hz x hx (by omega)
    rw [hptrs, hstrs, ← hcomm, hnul]

/-! ## The name -/

/-- The string at the start of some bytes. -/
theorem strlen_slice (hs : slice mem p l.length = l) (hz : mem (p + l.length) = 0)
    (hlt : p + l.length < 0x100000000) : strlen mem p = .ok (l.takeWhile (· ≠ 0)).length := by
  have hgo (fuel : Nat) (hf : l.length < fuel) :
      strlen.go mem fuel p = .ok (l.takeWhile (· ≠ 0)).length := by
    induction l generalizing p fuel with
    | nil =>
      obtain ⟨fuel, rfl⟩ := Nat.exists_eq_succ_of_ne_zero (Nat.ne_zero_of_lt hf)
      rw [strlen.go, if_pos (show mem p = 0 from hz)]
      rfl
    | cons c l ih =>
      obtain ⟨fuel, rfl⟩ := Nat.exists_eq_succ_of_ne_zero (Nat.ne_zero_of_lt hf)
      rw [List.length_cons] at hs hz hlt hf
      rw [slice_succ, List.cons.injEq] at hs
      rw [strlen.go, hs.1]
      split
      case isTrue hc =>
        rw [List.takeWhile_cons_of_neg (by simpa using hc)]
        rfl
      case isFalse hc =>
        rw [w32_of_lt (by omega), ih hs.2 (by rwa [Nat.add_assoc, Nat.add_comm 1]) (by omega) fuel
          (by omega), List.takeWhile_cons_of_pos (by simpa using hc)]
        rfl
  exact hgo _ (by omega)

/-- What is read as the name. -/
theorem strlen_left (args : List (List UInt8)) (hzero : ∀ x, 0x80000000 ≤ x → mem x = 0)
    (hu : 0x80000000 ≤ fileName) (hlt : fileName < 0x100000000)
    (hmem : mem' = put mem argv (le32 (argv + 4 * (args.length + 2)))) :
    strlen mem' fileName = .ok (leftOfName fileName args).length ∧
      slice mem' fileName (leftOfName fileName args).length = leftOfName fileName args := by
  have hargv : argv = 0xeeeeeee4 := rfl
  have hout (x : Nat) (hx : 0x80000000 ≤ x) (hx' : x < argv ∨ argv + 4 ≤ x) : mem' x = 0 := by
    rw [hmem, put_of_outside (by rw [le32_length]; exact hx')]
    exact hzero x hx
  rw [leftOfName]
  split
  case isTrue hin =>
    obtain ⟨k, rfl⟩ := Nat.exists_eq_add_of_le hin.1
    generalize hL : (le32 (argv + 4 * (args.length + 2))).drop (argv + k - argv) = L
    have hlen : L.length = 4 - k := by
      rw [← hL, List.length_drop, le32_length]
      omega
    have hs : slice mem' (argv + k) L.length = L := by
      have hk : k + (4 - k) = 4 := by omega
      have hslice := slice_drop (m := mem') (a := argv) (n := k) (k := 4 - k)
      rw [hk, hmem] at hslice
      rw [hlen, hmem, ← hslice, ← hL, Nat.add_sub_cancel_left]
      exact congrArg (List.drop k) (slice_put (l := le32 (argv + 4 * (args.length + 2))))
    have hz : mem' (argv + k + L.length) = 0 := hout _ (by omega) (.inr (by omega))
    refine ⟨strlen_slice hs hz (by omega), ?_⟩
    have hp := List.takeWhile_prefix (l := L) (fun x => decide (x ≠ 0))
    rw [← slice_take hp.length_le, hs]
    exact (List.prefix_iff_eq_take.mp hp).symm
  case isFalse hin =>
    exact ⟨strlen_slice (l := []) rfl (hout fileName hu (by omega)) hlt, rfl⟩

/-! ## The frame -/

/-- A store that holds a list and agrees with another elsewhere. -/
theorem eq_put {a : Nat} (hs : slice mem' a l.length = l)
    (hout : ∀ x, x < a ∨ a + l.length ≤ x → mem' x = mem x) : mem' = put mem a l := by
  funext x
  by_cases hx : x < a ∨ a + l.length ≤ x
  · rw [hout x hx, put_of_outside hx]
  · obtain ⟨i, rfl⟩ := Nat.exists_eq_add_of_le (show a ≤ x by omega)
    have hi : i < l.length := by omega
    rw [put_add hi]
    have := List.getElem_of_eq hs (i := i) (by rwa [slice_length])
    rwa [getElem_slice] at this

theorem slice_append {a b : Nat} {l' : List UInt8} (h : slice mem a l.length = l)
    (hb : b = a + l.length) (h' : slice mem b l'.length = l') :
    slice mem a (l ++ l').length = l ++ l' := by
  rw [List.length_append, slice_add, h, ← hb, h']

theorem argvBytes_length : (argvBytes fileName args).length = 4 * (args.length + 2) := by
  rw [argvBytes, List.length_append, List.length_append, pointers_length, le32_length, le32_length]
  omega

theorem frame_length : (frame fileName args).length =
    4 + 4 * (args.length + 2) + (leftOfName fileName args).length + 1 + stringsSize args := by
  rw [frame, List.length_append, List.length_append, List.length_append, List.length_append,
    le32_length, argvBytes_length, stringsSize_eq, List.length_singleton]
  omega

theorem leftOfName_length : (leftOfName fileName args).length ≤ min 4 (argv + 4 - fileName) := by
  rw [leftOfName]
  split
  case isTrue hin =>
    have hle := (List.takeWhile_prefix
        (l := (le32 (argv + 4 * (args.length + 2))).drop (fileName - argv))
      (fun x => decide (x ≠ 0))).length_le
    rw [List.length_drop, le32_length] at hle
    omega
  case isFalse => exact Nat.zero_le _

/-- What `execv` does before it loads the file. -/
theorem execArgs_frame (hzero : ∀ x, 0x80000000 ≤ x → mem x = 0)
    (hu : 0x80000000 ≤ fileName) (hlt : fileName < 0x100000000)
    (hfit : userESP + (frame fileName args).length ≤ 0x100000000) :
    execArgs limit mem fileName args = .ok (put mem userESP (frame fileName args)) := by
  have hargv : argv = userESP + 4 := rfl
  have hesp : userESP = 0xeeeeeee0 := rfl
  rw [frame_length] at hfit
  have htop : w32 (argv + 4 * (args.length + 1) + 4) = argv + 4 * (args.length + 2) :=
    w32_of_lt (by omega)
  generalize hmem₁ : put mem argv (le32 (argv + 4 * (args.length + 2))) = mem₁
  obtain ⟨hstrlen, hslice⟩ := strlen_left args hzero hu hlt hmem₁.symm
  generalize hleft : leftOfName fileName args = left at *
  have hname : slice (fun a => mem₁ (w32 a)) fileName left.length = left := by
    refine (slice_congr fun k hk => ?_).trans hslice
    rw [w32_of_lt]
    have hle : (leftOfName fileName args).length ≤ min 4 (argv + 4 - fileName) :=
      leftOfName_length
    rw [hleft] at hle
    omega
  generalize hmem₂ : put mem₁ (argv + 4 * (args.length + 2)) left = mem₂
  generalize hP : (pointers (argv + 4 * (args.length + 2) + left.length + 1) args).flatMap le32 = P
  have hPlen : P.length = 4 * args.length := by rw [← hP, pointers_length]
  generalize hS : args.flatMap (· ++ [0]) = S
  have hSlen : S.length = stringsSize args := by rw [← hS, stringsSize_eq]
  have hcopy : copyArgs limit mem₂ (argv + 4 * (args.length + 2) + left.length + 1) 1 args =
      .ok (put (put mem₂ (argv + 4) P) (argv + 4 * (args.length + 2) + left.length + 1) S) := by
    rw [← hP, ← hS]
    refine copyArgs_put (by omega) (by omega) fun x hx hx' => ?_
    rw [← hmem₂, put_of_outside (by omega), ← hmem₁,
      put_of_outside (by rw [le32_length]; omega)]
    exact hzero x (by omega)
  generalize hmem₃ :
    put (put mem₂ (argv + 4) P) (argv + 4 * (args.length + 2) + left.length + 1) S =
    mem₃ at hcopy
  generalize hmem₄ :
    put (put (put mem₃ (argv + 4 * (args.length + 1)) (le32 0)) userESP (le32 (args.length + 1)))
    argv (le32 argv) = mem₄
  have hrun : execArgs limit mem fileName args = .ok mem₄ := by
    rw [execArgs, memset]
    dsimp only
    rw [memcpy_user (by omega) (by rw [List.length_replicate]; omega),
      put_zeros fun x hx hx' => hzero x (by omega)]
    dsimp only [bind, Except.bind]
    rw [htop, memcpy_user (by omega) (by rw [le32_length]; omega), hmem₁]
    dsimp only
    rw [hstrlen]
    dsimp only
    rw [hname, memcpy_user (by omega) (by omega), hmem₂]
    dsimp only
    rw [copyArgs_w32 (by omega), hcopy]
    dsimp only
    rw [w32_of_lt (by omega), memcpy_user (by omega) (by rw [le32_length]; omega)]
    dsimp only
    rw [memcpy_user (by omega) (by rw [le32_length]; omega)]
    dsimp only
    rw [memcpy_user (by omega) (by rw [le32_length]; omega), hmem₄]
  have hframe : frame fileName args =
      le32 (args.length + 1) ++ ((le32 argv ++ P ++ le32 0) ++ (left ++ [0] ++ S)) := by
    rw [frame, argvBytes, hleft, hP, hS]
  have hlen : (frame fileName args).length = 4 + 4 * (args.length + 2) + left.length + 1 +
      stringsSize args := by
    rw [frame_length, hleft]
  have hlast (x : Nat)
      (hx : (x < userESP ∨ argv + 4 ≤ x) ∧ (x < argv + 4 * (args.length + 1) ∨
      argv + 4 * (args.length + 2) ≤ x)) : mem₄ x = mem₃ x := by
    rw [← hmem₄, put_of_outside (by rw [le32_length]; omega),
      put_of_outside (by rw [le32_length]; omega), put_of_outside (by rw [le32_length]; omega)]
  have hmid (x : Nat) (hx : argv + 4 * (args.length + 2) ≤ x ∧
      x < argv + 4 * (args.length + 2) + left.length + 1) : mem₄ x = mem₂ x := by
    rw [hlast x (by omega), ← hmem₃, put_of_outside (by omega), put_of_outside (by omega)]
  have hargc : slice mem₄ userESP (le32 (args.length + 1)).length = le32 (args.length + 1) := by
    rw [← hmem₄, slice_put_of_disjoint (by rw [le32_length]; omega), slice_put]
  have hfirst : slice mem₄ argv (le32 argv).length = le32 argv := by
    rw [← hmem₄, slice_put]
  have hpointers : slice mem₄ (argv + 4) P.length = P := by
    rw [slice_congr (m := mem₃) (a := argv + 4) fun i hi => hlast _ (by omega), ← hmem₃,
      slice_put_of_disjoint (by omega), slice_put]
  have hnull : slice mem₄ (argv + 4 * (args.length + 1)) (le32 0).length = le32 0 := by
    rw [← hmem₄, slice_put_of_disjoint (by simp only [le32_length]; omega),
      slice_put_of_disjoint (by simp only [le32_length]; omega), slice_put]
  have hleft' : slice mem₄ (argv + 4 * (args.length + 2)) left.length = left := by
    rw [slice_congr (m := mem₂) (a := argv + 4 * (args.length + 2)) fun i hi => hmid _ (by omega),
      ← hmem₂, slice_put]
  have hnul : slice mem₄ (argv + 4 * (args.length + 2) + left.length) [(0 : UInt8)].length =
      [0] := by
    change [mem₄ (argv + 4 * (args.length + 2) + left.length)] = [0]
    rw [hmid _ (by omega), ← hmem₂, put_of_le (Nat.le_refl _), ← hmem₁,
      put_of_outside (by rw [le32_length]; omega), hzero _ (by omega)]
  have hstrings : slice mem₄ (argv + 4 * (args.length + 2) + left.length + 1) S.length = S := by
    rw [slice_congr (m := mem₃) (a := argv + 4 * (args.length + 2) + left.length + 1)
      fun i hi => hlast _ (by omega), ← hmem₃, slice_put]
  rw [hrun]
  refine congrArg Except.ok (eq_put ?_ fun x hx => ?_)
  · rw [hframe]
    have hwords := slice_append (slice_append hfirst (by rw [le32_length]) hpointers)
      (by rw [List.length_append, le32_length]; omega) hnull
    have htail := slice_append (slice_append hleft' rfl hnul)
      (by rw [List.length_append, List.length_singleton]; omega) hstrings
    refine slice_append hargc (by rw [le32_length]; exact hargv) (slice_append hwords ?_ htail)
    simp only [List.length_append, le32_length]
    omega
  · rw [hlen] at hx
    rw [hlast x (by omega), ← hmem₃, put_of_outside (by omega),
      put_of_outside (by omega), ← hmem₂,
      put_of_outside (by omega), ← hmem₁, put_of_outside (by rw [le32_length]; omega)]

/-! ## What `main` receives -/

/-- The only string at `a` is the one that the bytes there spell. -/
theorem copyAt_iff {a : Nat} (hs : slice mem a l.length = l) (hz : 0 ∈ l) (hn : 0 ∉ name) :
    CopyAt mem a name ↔ name = l.takeWhile (· ≠ 0) := by
  induction l generalizing a name with
  | nil => cases hz
  | cons c l ih =>
    rw [List.length_cons, slice_succ, List.cons.injEq] at hs
    by_cases hc : c = 0
    · rw [List.takeWhile_cons_of_neg (by simpa using hc)]
      cases name with
      | nil => exact iff_of_true ⟨rfl, hs.1.trans hc⟩ rfl
      | cons x name =>
        refine iff_of_false (fun h => hn ?_) (by simp)
        have hx := h.1
        rw [List.length_cons, slice_succ, List.cons.injEq] at hx
        rw [← hx.1, hs.1, hc]
        exact List.mem_cons_self
    · rw [List.takeWhile_cons_of_pos (by simpa using hc)]
      cases name with
      | nil => exact iff_of_false (fun h => hc (hs.1.symm.trans h.2)) (by simp)
      | cons x name =>
        rw [List.mem_cons, not_or] at hn
        have hrest := ih hs.2 ((List.mem_cons.mp hz).resolve_left (Ne.symm hc)) hn.2
        rw [List.cons.injEq, ← hrest, CopyAt, CopyAt, List.length_cons, slice_succ,
          List.cons.injEq, hs.1, and_assoc, Nat.add_assoc, Nat.add_comm 1, eq_comm (a := c)]

/-! ## The segments -/

section

variable {fs : Fat439} {prog f' : Fat439File} {hoff a togo length : Nat} {hdr : Elf32_Ehdr}
  {phdrs : Nat → List UInt8} {bytes : List UInt8} {code : Int} {fuel : Nat}

/-- A copy that goes on to its end places its bytes. -/
theorem stores_placed (h : (stores limit a bytes).2 = none) :
    (stores limit a bytes).1 = placed a bytes := by
  induction bytes generalizing a with
  | nil => rfl
  | cons b bytes ih =>
    rw [stores] at h ⊢
    cases hf : fault limit a with
    | some e =>
      rw [hf] at h
      cases h
    | none =>
      rw [hf] at h
      exact congrArg ((a, b) :: ·) (ih h)

theorem read_openFile : (prog.read fs n).2.openFile = prog.openFile := by
  rw [Fat439File.read]
  split <;> rfl

theorem readFullyLoop_openFile (h : prog.readFullyLoop fs length fuel togo =
      some (code, bytes, f')) :
    f'.openFile = prog.openFile := by
  induction fuel generalizing prog togo code bytes with
  | zero => cases h
  | succ fuel ih =>
    rw [Fat439File.readFullyLoop] at h
    have hopen : (prog.read fs togo).2.openFile = prog.openFile := read_openFile
    split at h
    case isFalse =>
      cases h
      rfl
    case isTrue =>
      split at h
      next hread =>
        cases h
        rw [← hopen, hread]
      next hread =>
        rw [hread] at hopen
        split at h
        next =>
          cases h
          exact hopen
        next =>
          obtain ⟨⟨code', rest, f''⟩, hrest, he⟩ := Option.map_eq_some_iff.mp h
          cases he
          exact (ih hrest).trans hopen

/-- What `readFully` gives after a `seek`. -/
theorem readFully_eq_bytesAt {o : Nat} (h : (prog.seek o).readFully fs n = some (code, bytes, f')) :
    bytes = bytesAt fs prog.openFile o n ∧ f'.openFile = prog.openFile := by
  have hbytes : bytesAt fs prog.openFile o n = bytes := by
    rw [bytesAt]
    exact congrArg (fun r => (r.map (·.2.1)).getD []) h
  have hopen : f'.openFile = (prog.seek o).openFile := readFullyLoop_openFile h
  exact ⟨hbytes.symm, hopen⟩

/-- A program that is loaded to its end is stored segment by segment. -/
theorem loadLoop_segments (h : loadLoop limit fs hdr phdrs n i hoff prog = some (log, none)) :
    log = segments fs prog.openFile (phdrsFrom fs prog.openFile hdr phdrs n i hoff) := by
  induction n generalizing i hoff prog log with
  | zero =>
    cases h
    rfl
  | succ n ih =>
    rw [loadLoop] at h
    obtain ⟨⟨code, bytes, prog'⟩, hread, h⟩ := Option.bind_eq_some_iff.mp h
    obtain ⟨rfl, hopen⟩ := readFully_eq_bytesAt hread
    dsimp only at h
    rw [← phdrAt] at h
    rw [phdrsFrom, segments, List.flatMap_cons]
    split at h
    case isTrue hload =>
      obtain ⟨⟨code', bytes, prog''⟩, hread', h⟩ := Option.bind_eq_some_iff.mp h
      obtain ⟨hbytes, hopen'⟩ := readFully_eq_bytesAt hread'
      rw [hopen] at hbytes hopen'
      dsimp only at h
      rw [if_pos hload]
      split at h
      next => cases h
      next log₁ hst =>
        obtain ⟨⟨rest, e⟩, hrest, he⟩ := Option.bind_eq_some_iff.mp h
        cases he
        have hlog : log₁ = placed _ bytes :=
          (congrArg Prod.fst hst).symm.trans (stores_placed (congrArg Prod.snd hst))
        have hlast := ih hrest
        rw [hopen'] at hlast
        dsimp only at hlast ⊢
        rw [hlog, hlast, hbytes, segments]
    case isFalse hload =>
      rw [if_neg hload, ih h, hopen]
      rfl

theorem load_segments {hdr : List UInt8} (h : load limit fs prog hdr phdrs = some (log, none)) :
    log = segments fs prog.openFile (programHeaders fs prog.openFile hdr phdrs) := by
  obtain ⟨⟨code, bytes, prog'⟩, hread, h⟩ := Option.bind_eq_some_iff.mp h
  obtain ⟨rfl, hopen⟩ := readFully_eq_bytesAt hread
  rw [loadLoop_segments h, hopen]
  rfl

end

theorem execv_eq {fs : Fat439} {prog : Fat439File} {hdr : List UInt8} {phdrs : Nat → List UInt8}
    (hu : 0x80000000 ≤ fileName) (hlt : fileName < 0x100000000)
    (hfit : userESP + (frame fileName args).length ≤ 0x100000000)
    (h : execv limit fs prog hdr phdrs mem fileName args = some mem') :
    mem' = Mem.after (put (exec mem) userESP (frame fileName args))
    (segments fs prog.openFile (programHeaders fs prog.openFile hdr phdrs)) := by
  have hzero (x : Nat) (hx : 0x80000000 ≤ x) : exec mem x = 0 := if_neg (Nat.not_lt_of_le hx)
  rw [execv, execArgs_frame hzero hu hlt hfit] at h
  dsimp only at h
  obtain ⟨r, hr, hmem'⟩ := Option.bind_eq_some_iff.mp h
  obtain ⟨log, e⟩ := r
  split at hmem'
  next he =>
    dsimp only at he
    subst he
    dsimp only at hmem'
    rw [load_segments hr] at hmem'
    exact (Option.some.inj hmem').symm
  next => cases hmem'

/-- With the frame as `execv` left it, `argv[0]` is `argv`, and there are the pointers. -/
theorem copyAt_argv0_iff (hs : slice mem userESP (frame fileName args).length = frame fileName args)
    (hn : 0 ∉ name) :
    CopyAt mem (argv0 mem) name ↔ name = (argvBytes fileName args).takeWhile (· ≠ 0) := by
  have hframe : frame fileName args = le32 (args.length + 1) ++
    (argvBytes fileName args ++ (leftOfName fileName args ++ [0] ++ args.flatMap (· ++ [0]))) :=
      rfl
  rw [hframe, List.length_append, slice_add, List.length_append, slice_add] at hs
  have hargv := (List.append_inj (List.append_inj hs (by simp)).2 (by simp)).1
  rw [le32_length] at hargv
  change slice mem argv _ = _ at hargv
  have hword : word mem argv = argv := by
    have htake := congrArg (List.take 4) hargv
    rw [argvBytes, List.append_assoc, List.take_left' le32_length, slice_take (by simp)] at htake
    rw [word, htake, decode_le32 (by decide)]
  have h0 : argv0 mem = argv := by
    change word mem (word mem argv) = argv
    rw [hword, hword]
  rw [h0]
  exact copyAt_iff hargv (List.mem_append_right _ (by decide)) hn

/-- The arguments are copies in the kernel's heap, which has `0x100000` bytes. -/
def InHeap (args : List (List UInt8)) : Prop := stringsSize args ≤ 0x100000

theorem length_le_stringsSize (args : List (List UInt8)) : args.length ≤ stringsSize args := by
  induction args with
  | nil => exact Nat.le_refl 0
  | cons arg args ih =>
    rw [List.length_cons, stringsSize]
    omega

theorem InHeap.fits (H : InHeap args) : userESP + (frame fileName args).length ≤ 0x100000000 := by
  have hlen := length_le_stringsSize args
  have hleft : (leftOfName fileName args).length ≤ min 4 (argv + 4 - fileName) :=
    leftOfName_length
  rw [frame_length, userESP]
  unfold InHeap at H
  omega

/-- **`argv[0]` is not the name**, except for the one name that the pointers spell. -/
theorem argv0_iff (limit : Nat) (fs : Fat439) (prog : Fat439File) (hdr : List UInt8)
    (phdrs : Nat → List UInt8) (mem : Mem) (fileName : Nat) (name : List UInt8)
    (args : List (List UInt8)) (hname : IsName mem fileName name) (hargs : InHeap args) (mem' : Mem)
    (h : execv limit fs prog hdr phdrs mem fileName args = some mem') :
    CopyAt mem' (argv0 mem') name ↔
    Spells mem fileName args (segments fs prog.openFile (programHeaders fs prog.openFile hdr phdrs))
    name := by
  have hlt : fileName < 0x100000000 := by
    have := hname.inside
    omega
  have hmem' := execv_eq hname.user hlt hargs.fits h
  rw [Spells]
  split
  case isTrue havoid =>
    refine copyAt_argv0_iff ?_ hname.nul
    have hsame : slice mem' userESP (frame fileName args).length =
        slice (put (exec mem) userESP (frame fileName args)) userESP
          (frame fileName args).length := by
      refine slice_congr fun i hi => ?_
      rw [hmem', Mem.after_of_notMem]
      intro w hw he
      have := havoid w hw
      omega
    rw [hsame, slice_put]
  case isFalse =>
    rw [hmem']

/-- The memory of a process with the string `a`. -/
def nameMem : Mem := put (fun _ => 0) 0x80000000 [97, 0]

theorem nameMem_isName : IsName nameMem 0x80000000 [97] :=
  ⟨by decide, by decide, ⟨rfl, rfl⟩, Nat.le_refl _, by decide⟩

theorem execv_nameMem :
    ∃ mem, execv 0x400000 elfFs ⟨3, 0⟩ [] (fun _ => []) nameMem 0x80000000 [] = some mem ∧
    mem (argv0 mem) = 0xe4 := by
  have h : (execv 0x400000 elfFs ⟨3, 0⟩ [] (fun _ => []) nameMem 0x80000000 []).map
      (fun mem => mem (argv0 mem)) =
    some 0xe4 := by decide +kernel
  exact Option.map_eq_some_iff.mp h

theorem argv0_iff_a :
    ∃ mem, execv 0x400000 elfFs ⟨3, 0⟩ [] (fun _ => []) nameMem 0x80000000 [] = some mem ∧
    (CopyAt mem (argv0 mem) [97] ↔
      Spells nameMem 0x80000000 [] (segments elfFs 3 (programHeaders elfFs 3 [] fun _ => []))
    [97]) := by
  obtain ⟨mem, h, -⟩ := execv_nameMem
  exact ⟨mem, h, argv0_iff 0x400000 elfFs ⟨3, 0⟩ [] (fun _ => []) nameMem 0x80000000 [97]
    [] nameMem_isName
    (Nat.zero_le _) mem h⟩

/-- The program `a` without arguments. -/
theorem argv0_other :
    ¬∀ (limit : Nat) (fs : Fat439) (prog : Fat439File) (hdr : List UInt8)
    (phdrs : Nat → List UInt8) (mem : Mem) (fileName : Nat) (name : List UInt8)
    (args : List (List UInt8)), IsName mem fileName name →
    InHeap args → ∀ mem', execv limit fs prog hdr phdrs mem fileName args = some mem' →
    CopyAt mem' (argv0 mem') name := by
  intro hall
  obtain ⟨mem, h, hbyte⟩ := execv_nameMem
  have hcopy :=
    hall 0x400000 elfFs ⟨3, 0⟩ [] (fun _ => []) nameMem 0x80000000 [97]
      [] nameMem_isName (Nat.zero_le _) mem h
  have hfirst : [mem (argv0 mem)] = [97] := hcopy.1
  rw [hbyte] at hfirst
  cases hfirst

end K439.User
