import K439.Lib.Blocks
import K439.Lib.Words

/-!
# The words of a line

`delimitBy` of `user/libc.c` and what `main` of `user/shell.c` does with a line until `delimitBy`
has returned. `malloc` gives new blocks, of the size that is asked for; an access outside of its
block has no result. Of the line there are the bytes from `in[idx]` to the end of its block.
-/

namespace K439.Shell

/-- The blocks of characters and those of pointers to them. -/
structure Memory where
  chars : Blocks UInt8
  pointers : Blocks (Option Nat)

/-- What is in the new blocks. -/
structure Junk where
  chars : Nat → Nat → UInt8
  pointers : Nat → Nat → Option Nat

/-- The local variables of `delimitBy`. -/
structure Splitter where
  mem : Memory
  args : Nat
  numArgs : Nat
  argNum : Nat
  setArg : Bool
  argIdx : Nat

/-- How `open` and the first bytes of the file classify a name. -/
inductive Kind
  | missing
  | text
  | elf
  deriving DecidableEq, Repr

/-- What `main` has after it has taken a line apart. -/
structure Parsed where
  prog : Nat
  args : Option Nat
  mem : Memory

def MAX_PROG_SZ : Nat := 12

section
variable (junk : Junk)

def Memory.mallocChars (m : Memory) (n : Nat) : Memory :=
  { m with chars := m.chars.malloc ((List.range n).map (junk.chars m.chars.next)) }

def Memory.mallocPointers (m : Memory) (n : Nat) : Memory :=
  { m with pointers := m.pointers.malloc ((List.range n).map (junk.pointers m.pointers.next)) }

/-- `delimitBy` up to its loop. -/
def Splitter.start (m : Memory) : Option Splitter := do
  let args := m.pointers.next
  let m := m.mallocPointers junk 1
  let pointers ← m.pointers.fill args 1 none
  return ⟨{ m with pointers := pointers }, args, 1, 0, false, 0⟩

/-- `if(argNum == numArgs) { … }` -/
def Splitter.grow (s : Splitter) : Option Splitter :=
  if s.argNum = s.numArgs then do
    let newsz := s.numArgs + 2
    let temp := s.mem.pointers.next
    let m := s.mem.mallocPointers junk newsz
    let pointers ← m.pointers.fill temp newsz none
    let pointers ← pointers.copy temp s.args s.numArgs
    let pointers ← pointers.free s.args
    return { s with mem := { m with pointers := pointers }, numArgs := newsz, args := temp }
  else return s

/-- `if(!setArg) { … }` -/
def Splitter.begin (s : Splitter) : Option Splitter :=
  if s.setArg then return s
  else do
    let s ← s.grow junk
    let arg := s.mem.chars.next
    let m := s.mem.mallocChars junk 12
    let pointers ← m.pointers.store s.args s.argNum (some arg)
    let arg ← pointers.load s.args s.argNum
    let chars ← m.chars.fill (← arg) 12 0
    return { s with mem := ⟨chars, pointers⟩, setArg := true }

/-- `args[argNum][argIdx++] = c` -/
def Splitter.put (s : Splitter) (c : UInt8) : Option Splitter := do
  let arg ← s.mem.pointers.load s.args s.argNum
  let chars ← s.mem.chars.store (← arg) s.argIdx c
  return { s with mem := { s.mem with chars := chars }, argIdx := s.argIdx + 1 }

section
variable (delimiter : UInt8)

/-- The body of the loop of `delimitBy`. -/
def Splitter.step (s : Splitter) (c : UInt8) : Option Splitter :=
  if c ≠ delimiter then do
    let s ← s.begin junk
    s.put c
  else if s.setArg then return { s with setArg := false, argIdx := 0, argNum := s.argNum + 1 }
  else return s

def delimitLoop (s : Splitter) : List UInt8 → Option Splitter
  | [] => none
  | c :: rest =>
    if c ≠ 0 ∧ c ≠ 13 then do
      let s ← s.step junk delimiter c
      delimitLoop s rest
    else some s

def delimitBy (m : Memory) (input : List UInt8) : Option (Nat × Memory) := do
  let s ← Splitter.start junk m
  let s ← delimitLoop junk delimiter s input
  return (s.args, s.mem)

end

/-- `while(in[idx] == ' ') ++idx;` -/
def skipSpaces : List UInt8 → Option (List UInt8)
  | [] => none
  | c :: rest => if c = 32 then skipSpaces rest else some (c :: rest)

/-- `while(in[idx] != ' ' && in[idx] != '\r' && in[idx] != 0) prog[progIdx++] = in[idx++];` -/
def copyProg (chars : Blocks UInt8) (prog progIdx : Nat) :
    List UInt8 → Option (Blocks UInt8 × List UInt8)
  | [] => none
  | c :: rest =>
    if c ≠ 32 ∧ c ≠ 13 ∧ c ≠ 0 then do
      let chars ← chars.store prog progIdx c
      copyProg chars prog (progIdx + 1) rest
    else some (chars, c :: rest)

/-- `prog[0] == 'c' && prog[1] == 'd' && prog[2] == 0` -/
def isCd (chars : Blocks UInt8) (prog : Nat) : Option Bool := do
  if (← chars.load prog 0) ≠ 99 then return false
  if (← chars.load prog 1) ≠ 100 then return false
  return (← chars.load prog 2) = 0

/-- The string that the kernel reads at the start of a block. -/
def cstring (chars : Blocks UInt8) (b : Nat) : Option (List UInt8) := do
  let l ← chars.block b
  if 0 ∈ l then some (l.takeWhile (· ≠ 0)) else none

section
variable (kind : List UInt8 → Kind)

/-- Without what it prints. -/
def checkProg (chars : Blocks UInt8) (prog : Nat) : Option Int := do
  if ← isCd chars prog then return -4
  match kind (← cstring chars prog) with
  | .missing => return -1
  | .text => return -3
  | .elf => return -2

/-- What `main` does with the rest of the line, from `checkProg` to `delimitBy`. -/
def splitArgs (m : Memory) (prog : Nat) (input : List UInt8) : Option Parsed := do
  let numArgs ← checkProg kind m.chars prog
  if numArgs = -4 then
    -- this loop stops at NUL and `\r` as well, which are no spaces
    let input ← skipSpaces input
    let (args, m) ← delimitBy junk 47 m input
    return ⟨prog, some args, m⟩
  else if numArgs = -1 then return ⟨prog, none, m⟩
  else if numArgs = -3 then return ⟨prog, none, m⟩
  else
    let (args, m) ← delimitBy junk 32 m input
    return ⟨prog, some args, m⟩

/-- A round of the loop of `main`, from the line to its words. -/
def parse (m : Memory) (input : List UInt8) : Option Parsed := do
  let input ← skipSpaces input
  let prog := m.chars.next
  let m := m.mallocChars junk MAX_PROG_SZ
  let chars ← m.chars.fill prog 12 0
  let (chars, input) ← copyProg chars prog 0 input
  splitArgs junk kind { m with chars := chars } prog input

end

end

/-! ## What the line says -/

/-- The first maximal run of characters other than a space. -/
def progOf (line : List UInt8) : List UInt8 := (words 32 line).headD []

/-- What is behind it. -/
def restOf (line : List UInt8) : List UInt8 := (line.dropWhile (· = 32)).dropWhile (· ≠ 32)

/-- The words that `delimitBy` is asked for. -/
def argsOf (kind : List UInt8 → Kind) (line : List UInt8) : Option (List (List UInt8)) :=
  if progOf line = [99, 100] then some (words 47 ((restOf line).dropWhile (· = 32)))
  else if kind (progOf line) = .elf then some (words 32 line).tail
  else none

/-- The block starts with `w` and a NUL. -/
def HasString (chars : Blocks UInt8) (b : Nat) (w : List UInt8) : Prop :=
  ∃ l, chars.block b = some l ∧ w ++ [0] <+: l

/-- An array of strings, each in its own block, and a null pointer. -/
structure HasArray (m : Memory) (prog args : Nat) (ws : List (List UInt8))
    (l : List (Option Nat)) : Prop where
  array : m.pointers.block args = some l
  word : ∀ i (h : i < ws.length), ∃ b, l[i]? = some (some b) ∧ b ≠ prog ∧
    HasString m.chars b ws[i]
  apart : ∀ (i j b : Nat), l[i]? = some (some b) → l[j]? = some (some b) → i = j
  null : l[ws.length]? = some none

/-- The line is taken apart, without an access outside of a block. -/
def Splits (junk : Junk) (kind : List UInt8 → Kind) (m : Memory)
    (line rest : List UInt8) : Prop :=
  ∃ r, parse junk kind m (line ++ rest) = some r ∧
    HasString r.mem.chars r.prog (progOf line) ∧
    ∀ ws, argsOf kind line = some ws → ∃ args l, r.args = some args ∧
      HasArray r.mem r.prog args ws l

/-- Every word has room for its NUL and the array for the null pointer. -/
def Fits (kind : List UInt8 → Kind) (line : List UInt8) : Prop :=
  (progOf line).length < 12 ∧
    ∀ ws, argsOf kind line = some ws → (∀ w ∈ ws, w.length < 12) ∧ ws.length % 2 = 0

/-! ## The array -/

/-- What is in the block of a word. -/
def padded (w : List UInt8) : List UInt8 := w ++ List.replicate (12 - w.length) 0

/-- The array and the blocks of the words; the blocks that `old` had are untouched. -/
structure Filled (old : Blocks UInt8) (s : Splitter) (l : List (Option Nat))
    (ws : List (List UInt8)) : Prop where
  array : s.mem.pointers.block s.args = some l
  length : l.length = s.numArgs
  word : ∀ i (h : i < ws.length), ∃ b, l[i]? = some (some b) ∧ old.next ≤ b ∧
    s.mem.chars.block b = some (padded ws[i])
  apart : ∀ (i j b : Nat), l[i]? = some (some b) → l[j]? = some (some b) → i = j
  null : ∀ i, ws.length ≤ i → i < s.numArgs → l[i]? = some none
  short : ∀ w ∈ ws, w.length ≤ 12
  kept : ∀ b < old.next, s.mem.chars.block b = old.block b
  next_le : old.next ≤ s.mem.chars.next

/-- The state of the loop after the words `ws` and a part `w` of a word. -/
structure Reading (old : Blocks UInt8) (s : Splitter) (l : List (Option Nat))
    (ws : List (List UInt8)) (w : List UInt8) : Prop where
  filled : Filled old s l (ws ++ begun w)
  numArgs : s.numArgs = 2 * ((ws ++ begun w).length / 2) + 1
  argNum : s.argNum = ws.length
  setArg : s.setArg = !w.isEmpty
  argIdx : s.argIdx = w.length

variable {kind : List UInt8 → Kind} {m : Memory} {old : Blocks UInt8} {s : Splitter}
  {l : List (Option Nat)} {ws : List (List UInt8)} {w line rest : List UInt8} {c d : UInt8}
    {b : Nat}

theorem padded_length (h : w.length ≤ 12) : (padded w).length = 12 := by
  rw [padded, List.length_append, List.length_replicate]
  omega

theorem padded_set (h : w.length < 12) : (padded w).set w.length c = padded (w ++ [c]) := by
  obtain ⟨n, hn⟩ : ∃ n, 12 - w.length = n + 1 := ⟨11 - w.length, by omega⟩
  have hn' : 12 - (w ++ [c]).length = n := by
    rw [List.length_append, List.length_singleton]
    omega
  rw [padded, padded, hn, hn', List.replicate_succ,
    List.set_append_right w.length c (Nat.le_refl _), Nat.sub_self,
    List.set_cons_zero, List.append_assoc]
  rfl

theorem padded_string (h : w.length < 12) : w ++ [0] <+: padded w := by
  obtain ⟨n, hn⟩ : ∃ n, 12 - w.length = n + 1 := ⟨11 - w.length, by omega⟩
  rw [padded, hn, List.replicate_succ]
  exact ⟨List.replicate n 0, by rw [List.append_assoc]; rfl⟩

/-- A word of twelve characters has no NUL behind it. -/
theorem padded_full (h : w.length = 12) : ¬w ++ [0] <+: padded w := by
  intro hp
  have hle := hp.length_le
  rw [padded_length (Nat.le_of_eq h), List.length_append, List.length_singleton] at hle
  omega

/-- `malloc` and `memset`. -/
theorem malloc_fill {α : Type} {m : Blocks α} {n : Nat} (f : Nat → α) (x : α) :
    ∃ m', (m.malloc ((List.range n).map f)).fill m.next n x = some m' ∧ m'.next = m.next + 1 ∧
      ∀ b, m'.block b = if b = m.next then some (List.replicate n x) else m.block b := by
  have hnew : (m.malloc ((List.range n).map f)).block m.next = some ((List.range n).map f) := by
    rw [Blocks.malloc_block, if_pos rfl]
  obtain ⟨m', hr, hnext, hblock⟩ := Blocks.fill_some (n := n) (x := x) hnew (by simp)
  refine ⟨m', hr, hnext, fun b => ?_⟩
  rw [hblock b, Blocks.malloc_block]
  split
  · rw [List.drop_eq_nil_of_le (by simp), List.append_nil]
  · rfl

/-! ## One round of the loop -/

theorem start_spec (junk : Junk) (m : Memory) :
    ∃ s, Splitter.start junk m = some s ∧ Reading m.chars s [none] [] [] := by
  obtain ⟨p, hr, -, hblock⟩ :=
    malloc_fill (m := m.pointers) (n := 1) (junk.pointers m.pointers.next) none
  refine ⟨⟨{ m with pointers := p }, m.pointers.next, 1, 0, false, 0⟩, ?_,
    ⟨⟨?_, rfl, ?_, ?_, ?_, ?_, fun _ _ => rfl, Nat.le_refl _⟩, rfl, rfl, rfl, rfl⟩⟩
  · exact bind_of_eq_some hr
  · exact (hblock _).trans (if_pos rfl)
  · intro i h
    exact absurd h (Nat.not_lt_zero i)
  · intro i j b h
    cases i with
    | zero => cases h
    | succ i => cases h
  · intro i _ h
    cases Nat.lt_one_iff.mp h
    rfl
  · intro w hw
    cases hw

/-- After `grow` the array has a null for one more word. -/
theorem grow_spec (junk : Junk) (F : Filled old s l ws)
    (hcap : s.numArgs = 2 * (ws.length / 2) + 1) (hnum : s.argNum = ws.length) :
    ∃ s' l', s.grow junk = some s' ∧ Filled old s' l' ws ∧
      s'.numArgs = 2 * ((ws.length + 1) / 2) + 1 ∧
      s'.argNum = s.argNum ∧ s'.setArg = s.setArg ∧ s'.argIdx = s.argIdx := by
  by_cases hfull : s.argNum = s.numArgs
  · obtain ⟨p₁, hr₁, hnext₁, hblock₁⟩ :=
      malloc_fill (m := s.mem.pointers) (n := s.numArgs + 2)
      (junk.pointers s.mem.pointers.next) none
    have hne : s.args ≠ s.mem.pointers.next := Nat.ne_of_lt (Blocks.lt_next F.array)
    have htemp := (hblock₁ s.mem.pointers.next).trans (if_pos rfl)
    have hargs := (hblock₁ s.args).trans ((if_neg hne).trans F.array)
    obtain ⟨p₂, hr₂, hnext₂, hblock₂⟩ := Blocks.copy_some (n := s.numArgs) htemp hargs
      (by rw [List.length_replicate]; omega) (Nat.le_of_eq F.length.symm)
    obtain ⟨p₃, hr₃, hnext₃, hblock₃⟩ :=
      Blocks.free_some ((hblock₂ s.args).trans ((if_neg hne).trans hargs))
    have hl : l.take s.numArgs ++ (List.replicate (s.numArgs + 2) none).drop s.numArgs = l ++
        [none, none] := by
      rw [List.take_of_length_le (Nat.le_of_eq F.length), List.drop_replicate,
        Nat.add_sub_cancel_left]
      rfl
    have hold {i : Nat} {b : Nat} (h : (l ++ [none, none])[i]? = some (some b)) :
        l[i]? = some (some b) := by
      rcases Nat.lt_or_ge i l.length with hi | hi
      · rwa [List.getElem?_append_left hi] at h
      · rw [List.getElem?_append_right hi] at h
        have hmem := List.mem_of_getElem? h
        simp at hmem
    refine ⟨{ s with
        mem := ⟨s.mem.chars, p₃⟩
        args := s.mem.pointers.next
        numArgs := s.numArgs + 2 }, l ++ [none, none], ?_,
      ⟨?_, ?_, fun i h => ?_, fun i j b h h' => F.apart i j b (hold h) (hold h'),
        fun i h h' => ?_, F.short, F.kept, F.next_le⟩, ?_, rfl, rfl, rfl⟩
    · rw [Splitter.grow, if_pos hfull]
      exact (bind_of_eq_some hr₁).trans ((bind_of_eq_some hr₂).trans (bind_of_eq_some hr₃))
    · rw [← hl]
      exact (hblock₃ _).trans ((if_neg hne.symm).trans ((hblock₂ _).trans (if_pos rfl)))
    · rw [List.length_append, F.length]
      rfl
    · obtain ⟨b, hb, hrest⟩ := F.word i h
      refine ⟨b, ?_, hrest⟩
      have hi := (List.getElem?_eq_some_iff.mp hb).1
      rwa [List.getElem?_append_left hi]
    · have hlen := F.length
      rw [List.getElem?_append_right (by omega)]
      dsimp only at h'
      obtain hi | hi : i - l.length = 0 ∨ i - l.length = 1 := by omega
      · rw [hi]
        rfl
      · rw [hi]
        rfl
    · dsimp only
      omega
  · exact ⟨s, l, if_neg hfull, F, by omega, rfl, rfl, rfl⟩

/-- The block of a new word. -/
theorem begin_spec (junk : Junk) (F : Filled old s l ws)
    (hcap : s.numArgs = 2 * (ws.length / 2) + 1) (hnum : s.argNum = ws.length)
    (hset : s.setArg = false) :
    ∃ s' l', s.begin junk = some s' ∧ Filled old s' l' (ws ++ [[]]) ∧
      s'.numArgs = 2 * ((ws.length + 1) / 2) + 1 ∧ s'.argNum = s.argNum ∧
      s'.argIdx = s.argIdx ∧ s'.setArg = true := by
  obtain ⟨s₁, l₁, hr₁, F₁, hcap₁, hnum₁, -, hidx₁⟩ := grow_spec junk F hcap hnum
  have hi : s₁.argNum < l₁.length := by
    rw [F₁.length, hnum₁, hnum, hcap₁]
    omega
  obtain ⟨p, hr₂, -, hp⟩ := Blocks.store_some (x := some s₁.mem.chars.next) F₁.array hi
  have harray : p.block s₁.args = some (l₁.set s₁.argNum (some s₁.mem.chars.next)) :=
    (hp _).trans (if_pos rfl)
  have hr₃ := Blocks.load_some harray (i := s₁.argNum) (by rwa [List.length_set])
  rw [List.getElem_set_self] at hr₃
  obtain ⟨q, hr₄, hnext, hq⟩ :=
    malloc_fill (m := s₁.mem.chars) (n := 12) (junk.chars s₁.mem.chars.next) 0
  have hnew (i b : Nat)
      (hb : (l₁.set s₁.argNum (some s₁.mem.chars.next))[i]? = some (some b)) :
      i = s₁.argNum ∧ b = s₁.mem.chars.next ∨ i < ws.length ∧ l₁[i]? = some (some b) ∧
        b < s₁.mem.chars.next := by
    by_cases he : i = s₁.argNum
    · rw [he, List.getElem?_set_self hi] at hb
      cases hb
      exact .inl ⟨he, rfl⟩
    · rw [List.getElem?_set_ne (Ne.symm he)] at hb
      have hlt : i < ws.length := by
        by_contra hge
        have hil := (List.getElem?_eq_some_iff.mp hb).1
        rw [F₁.null i (Nat.le_of_not_lt hge) (F₁.length ▸ hil)] at hb
        cases hb
      obtain ⟨b', hb', -, hblock⟩ := F₁.word i hlt
      rw [hb] at hb'
      cases hb'
      exact .inr ⟨hlt, hb, Blocks.lt_next hblock⟩
  refine ⟨{ s₁ with mem := ⟨q, p⟩, setArg := true },
    l₁.set s₁.argNum (some s₁.mem.chars.next), ?_,
    ⟨harray, ?_, fun i h => ?_, fun i j b h h' => ?_, fun i h h' => ?_, fun w hw => ?_,
      fun b hb => ?_, ?_⟩,
    hcap₁, hnum₁, hidx₁, rfl⟩
  · rw [Splitter.begin, if_neg (by rw [hset]; exact Bool.false_ne_true), bind_of_eq_some hr₁]
    exact (bind_of_eq_some hr₂).trans ((bind_of_eq_some hr₃).trans (bind_of_eq_some hr₄))
  · rw [List.length_set]
    exact F₁.length
  · rw [List.length_append, List.length_singleton] at h
    rcases Nat.lt_or_ge i ws.length with hlt | hge
    · obtain ⟨b, hb, hold, hblock⟩ := F₁.word i hlt
      refine ⟨b, ?_, hold, ?_⟩
      · rwa [List.getElem?_set_ne (by omega)]
      · rw [List.getElem_append_left hlt]
        exact (hq b).trans ((if_neg (Nat.ne_of_lt (Blocks.lt_next hblock))).trans hblock)
    · obtain rfl : i = ws.length := by omega
      refine ⟨s₁.mem.chars.next, ?_, F₁.next_le, ?_⟩
      · rw [← hnum, ← hnum₁, List.getElem?_set_self hi]
      · rw [List.getElem_concat_length rfl]
        exact (hq _).trans (if_pos rfl)
  · rcases hnew i b h with ⟨hi, hb⟩ | ⟨hi, hb, hlt⟩
    · rcases hnew j b h' with ⟨hj, -⟩ | ⟨-, -, hlt⟩
      · exact hi.trans hj.symm
      · omega
    · rcases hnew j b h' with ⟨-, hb'⟩ | ⟨-, hb', -⟩
      · omega
      · exact F₁.apart i j b hb hb'
  · rw [List.length_append, List.length_singleton] at h
    rw [List.getElem?_set_ne (by omega)]
    exact F₁.null i (by omega) h'
  · rcases List.mem_append.mp hw with hw | hw
    · exact F₁.short w hw
    · cases List.mem_singleton.mp hw
      exact Nat.zero_le _
  · have := F₁.next_le
    exact (hq b).trans ((if_neg (by omega)).trans (F₁.kept b hb))
  · have := F₁.next_le
    exact hnext ▸ Nat.le_succ_of_le this

/-- A character more in the last word. -/
theorem put_spec (F : Filled old s l (ws ++ [w])) (hnum : s.argNum = ws.length)
    (hidx : s.argIdx = w.length) (hw : w.length < 12) (c : UInt8) :
    ∃ s', s.put c = some s' ∧ Filled old s' l (ws ++ [w ++ [c]]) ∧ s'.numArgs = s.numArgs ∧
      s'.argNum = s.argNum ∧ s'.setArg = s.setArg ∧ s'.argIdx = (w ++ [c]).length := by
  obtain ⟨b, hb, hold, hblock⟩ := F.word ws.length (by simp)
  rw [List.getElem_concat_length rfl] at hblock
  have hload : s.mem.pointers.load s.args s.argNum = some (some b) := by
    rw [Blocks.load, F.array, hnum]
    exact hb
  obtain ⟨q, hr, hnext, hq⟩ := Blocks.store_some (i := s.argIdx) (x := c) hblock
    (by rw [padded_length (Nat.le_of_lt hw), hidx]; exact hw)
  rw [hidx, padded_set hw] at hq
  refine ⟨{ s with mem := { s.mem with chars := q }, argIdx := s.argIdx + 1 }, ?_,
    ⟨F.array, F.length, fun i h => ?_, F.apart, fun i h => F.null i (by simpa using h),
      fun v hv => ?_, fun b' hb' => ?_, ?_⟩,
    rfl, rfl, rfl, ?_⟩
  · exact (bind_of_eq_some hload).trans (bind_of_eq_some hr)
  · obtain ⟨b', hb', hold', hblock'⟩ := F.word i (by simpa using h)
    rw [List.length_append, List.length_singleton] at h
    rcases Nat.lt_or_ge i ws.length with hlt | hge
    · have hne : b' ≠ b := by
        rintro rfl
        exact absurd (F.apart i ws.length b' hb' hb) (Nat.ne_of_lt hlt)
      rw [List.getElem_append_left hlt] at hblock' ⊢
      exact ⟨b', hb', hold', (hq b').trans ((if_neg hne).trans hblock')⟩
    · obtain rfl : i = ws.length := by omega
      rw [List.getElem_concat_length rfl]
      exact ⟨b, hb, hold, (hq b).trans (if_pos rfl)⟩
  · rcases List.mem_append.mp hv with hv | hv
    · exact F.short v (List.mem_append_left _ hv)
    · rw [List.mem_singleton.mp hv, List.length_append, List.length_singleton]
      omega
  · exact (hq b').trans ((if_neg (by omega)).trans (F.kept b' hb'))
  · rw [hnext]
    exact F.next_le
  · rw [List.length_append, List.length_singleton, ← hidx]

/-- There is no room for a thirteenth character. -/
theorem put_none (F : Filled old s l (ws ++ [w])) (hnum : s.argNum = ws.length)
    (hidx : s.argIdx = w.length) (hw : w.length = 12) (c : UInt8) : s.put c = none := by
  obtain ⟨b, hb, -, hblock⟩ := F.word ws.length (by simp)
  rw [List.getElem_concat_length rfl] at hblock
  have hload : s.mem.pointers.load s.args s.argNum = some (some b) := by
    rw [Blocks.load, F.array, hnum]
    exact hb
  rw [Splitter.put, bind_of_eq_some hload]
  change (s.mem.chars.store b s.argIdx c).bind _ = none
  rw [Blocks.store_none hblock (Nat.le_of_eq (by rw [padded_length (Nat.le_of_eq hw), hidx, hw]))]
  rfl

namespace Reading

theorem short (R : Reading old s l ws w) : w.length ≤ 12 := by
  by_cases hw : w = []
  · rw [hw]
    exact Nat.zero_le _
  · exact R.filled.short w
      (List.mem_append_right _ (by rw [begun_of_ne_nil hw]; exact List.mem_singleton.mpr rfl))

/-- A delimiter ends the word that has been begun. -/
theorem delimiter (junk : Junk) (R : Reading old s l ws w) :
    ∃ s', s.step junk d d = some s' ∧ Reading old s' l (ws ++ begun w) [] := by
  have hnil : ws ++ begun w ++ begun [] = ws ++ begun w := List.append_nil _
  by_cases hw : w = []
  · subst hw
    refine ⟨s, ?_, by rw [hnil]; exact R.filled, by rw [hnil]; exact R.numArgs, ?_,
      R.setArg, R.argIdx⟩
    · rw [Splitter.step, if_neg (fun h => h rfl),
        if_neg (by rw [R.setArg]; exact Bool.false_ne_true)]
      rfl
    · exact R.argNum.trans (congrArg List.length (List.append_nil ws).symm)
  · have hset : s.setArg = true := by
      rw [R.setArg]
      simpa using hw
    have F := R.filled
    refine ⟨{ s with setArg := false, argIdx := 0, argNum := s.argNum + 1 }, ?_, ?_,
      by rw [hnil]; exact R.numArgs, ?_, rfl, rfl⟩
    · rw [Splitter.step, if_neg (fun h => h rfl), if_pos hset]
      rfl
    · rw [hnil]
      exact ⟨F.array, F.length, F.word, F.apart, F.null, F.short, F.kept, F.next_le⟩
    · rw [begun_of_ne_nil hw, List.length_append, List.length_singleton, ← R.argNum]

/-- Any other character is put into the block of its word. -/
theorem character (junk : Junk) (R : Reading old s l ws w) (hc : c ≠ d) (hw : w.length < 12) :
    ∃ s' l', s.step junk d c = some s' ∧ Reading old s' l' ws (w ++ [c]) := by
  have hne : w ++ [c] ≠ [] := by simp
  have hset' : (!(w ++ [c]).isEmpty) = true := by simp
  have hlen : (ws ++ [w ++ [c]]).length = ws.length + 1 := by
    rw [List.length_append, List.length_singleton]
  by_cases hnil : w = []
  · subst hnil
    have hws : ws ++ begun [] = ws := List.append_nil ws
    have F := R.filled
    have hcap := R.numArgs
    rw [hws] at F hcap
    obtain ⟨s₁, l₁, hr₁, F₁, hcap₁, hnum₁, hidx₁, hset₁⟩ :=
      begin_spec junk F hcap R.argNum R.setArg
    obtain ⟨s₂, hr₂, F₂, hcap₂, hnum₂, hset₂, hidx₂⟩ :=
      put_spec F₁ (hnum₁.trans R.argNum) (hidx₁.trans R.argIdx) hw c
    refine ⟨s₂, l₁, ?_, ?_, ?_, hnum₂.trans (hnum₁.trans R.argNum), ?_, hidx₂⟩
    · rw [Splitter.step, if_pos hc, bind_of_eq_some hr₁, hr₂]
    · rwa [begun_of_ne_nil hne]
    · rw [begun_of_ne_nil hne, hlen, hcap₂, hcap₁]
    · rw [hset₂, hset₁, hset']
  · have hset : s.setArg = true := by
      rw [R.setArg]
      simpa using hnil
    have F := R.filled
    have hcap := R.numArgs
    rw [begun_of_ne_nil hnil] at F hcap
    obtain ⟨s₂, hr₂, F₂, hcap₂, hnum₂, hset₂, hidx₂⟩ :=
      put_spec F R.argNum R.argIdx hw c
    refine ⟨s₂, l, ?_, ?_, ?_, hnum₂.trans R.argNum, ?_, hidx₂⟩
    · have hbegin : s.begin junk = some s := if_pos hset
      rw [Splitter.step, if_pos hc, bind_of_eq_some hbegin, hr₂]
    · rwa [begun_of_ne_nil hne]
    · rw [begun_of_ne_nil hne, hlen, hcap₂, hcap, List.length_append, List.length_singleton]
    · rw [hset₂, hset, hset']

/-- The thirteenth character of a word leaves its block. -/
theorem overflow (junk : Junk) (R : Reading old s l ws w) (hc : c ≠ d) (hw : w.length = 12) :
    s.step junk d c = none := by
  have hnil : w ≠ [] := by
    rintro rfl
    cases hw
  have hset : s.setArg = true := by
    rw [R.setArg]
    simpa using hnil
  have F := R.filled
  rw [begun_of_ne_nil hnil] at F
  have hbegin : s.begin junk = some s := if_pos hset
  rw [Splitter.step, if_pos hc, bind_of_eq_some hbegin, put_none F R.argNum R.argIdx hw]

/-- The loop stores the words of the line, up to one that has no room. -/
theorem loop (junk : Junk) (R : Reading old s l ws w) (h0 : 0 ∉ line) (h13 : 13 ∉ line)
    {t : UInt8} (ht : t = 0 ∨ t = 13) (rest : List UInt8) :
    (∃ s' l', delimitLoop junk d s (line ++ t :: rest) = some s' ∧
      Filled old s' l' (ws ++ wordsFrom d w line) ∧
      s'.numArgs = 2 * ((ws ++ wordsFrom d w line).length / 2) + 1) ∨
    (delimitLoop junk d s (line ++ t :: rest) = none ∧ ∃ v ∈ wordsFrom d w line,
      12 < v.length) := by
  induction line generalizing s l ws w with
  | nil =>
    refine .inl ⟨s, l, ?_, ?_, ?_⟩
    · rw [List.nil_append, delimitLoop, if_neg]
      rintro ⟨hne0, hne13⟩
      exact ht.elim hne0 hne13
    · rw [wordsFrom_end]
      exact R.filled
    · rw [wordsFrom_end]
      exact R.numArgs
  | cons c line ih =>
    rw [List.mem_cons, not_or] at h0 h13
    have hgo : c ≠ 0 ∧ c ≠ 13 := ⟨Ne.symm h0.1, Ne.symm h13.1⟩
    by_cases hc : c = d
    · obtain ⟨s₁, hr, R₁⟩ := R.delimiter junk (d := d)
      rw [hc] at hgo ⊢
      rw [wordsFrom_delimiter, List.cons_append, delimitLoop, if_pos hgo, bind_of_eq_some hr]
      rcases ih R₁ h0.2 h13.2 with ⟨s', l', hr', F', hcap⟩ | ⟨hr', v, hv, hlen⟩
      · rw [wordsFrom_nil, List.append_assoc] at F' hcap
        exact .inl ⟨s', l', hr', F', hcap⟩
      · rw [wordsFrom_nil] at hv
        exact .inr ⟨hr', v, List.mem_append_right _ hv, hlen⟩
    · rw [wordsFrom_cons hc, List.cons_append, delimitLoop, if_pos hgo]
      rcases Nat.lt_or_eq_of_le R.short with hw | hw
      · obtain ⟨s₁, l₁, hr, R₁⟩ := R.character junk hc hw
        rw [bind_of_eq_some hr]
        exact ih R₁ h0.2 h13.2
      · obtain ⟨v, hv, hp⟩ := exists_prefix (d := d) (l := line) (w := w ++ [c]) (by simp)
        have hlen := hp.length_le
        rw [List.length_append, List.length_singleton] at hlen
        refine .inr ⟨?_, v, hv, by omega⟩
        rw [R.overflow junk hc hw]
        rfl

end Reading

/-! ## `delimitBy` -/

/-- The array of the words of the line, unless a word has no room. -/
theorem delimitBy_spec (junk : Junk) (m : Memory) (d : UInt8) (h0 : 0 ∉ line) (h13 : 13 ∉ line)
    {t : UInt8} (ht : t = 0 ∨ t = 13) (rest : List UInt8) :
    (∃ s l, delimitBy junk d m (line ++ t :: rest) = some (s.args, s.mem) ∧
      Filled m.chars s l (words d line) ∧ s.numArgs = 2 * ((words d line).length / 2) + 1) ∨
    (delimitBy junk d m (line ++ t :: rest) = none ∧ ∃ v ∈ words d line, 12 < v.length) := by
  obtain ⟨s, hr, R⟩ := start_spec junk m
  rw [delimitBy, bind_of_eq_some hr, ← wordsFrom_nil]
  rcases R.loop junk (d := d) h0 h13 ht rest with ⟨s', l', hr', F, hcap⟩ | ⟨hr', hlong⟩
  · exact .inl ⟨s', l', bind_of_eq_some hr', F, hcap⟩
  · refine .inr ⟨?_, hlong⟩
    rw [hr']
    rfl

/-- The array is the one that is asked for when every word has its NUL and a pointer is left. -/
theorem Filled.hasArray_iff (F : Filled old s l ws) (hcap : s.numArgs = 2 * (ws.length / 2) + 1)
    (hb : b < old.next) :
    (∃ l, HasArray s.mem b s.args ws l) ↔ (∀ w ∈ ws, w.length < 12) ∧
    ws.length % 2 = 0 := by
  constructor
  · rintro ⟨l', H⟩
    obtain rfl : l = l' := Option.some.inj (F.array.symm.trans H.array)
    refine ⟨fun w hw => ?_, ?_⟩
    · obtain ⟨i, hi, rfl⟩ := List.getElem_of_mem hw
      obtain ⟨b₁, hb₁, -, hblock₁⟩ := F.word i hi
      obtain ⟨b₂, hb₂, -, bytes, hblock₂, hp⟩ := H.word i hi
      rw [hb₁] at hb₂
      cases hb₂
      rw [hblock₁] at hblock₂
      cases hblock₂
      exact Nat.lt_of_le_of_ne (F.short _ hw) fun hfull => padded_full hfull hp
    · have hlt := (List.getElem?_eq_some_iff.mp H.null).1
      rw [F.length] at hlt
      omega
  · rintro ⟨hshort, heven⟩
    refine ⟨l, F.array, fun i h => ?_, F.apart, F.null _ (Nat.le_refl _) (by omega)⟩
    obtain ⟨b', hb', hold, hblock⟩ := F.word i h
    exact ⟨b', hb', by omega, _, hblock, padded_string (hshort _ (List.getElem_mem h))⟩

/-! ## The name of the program -/

theorem skipSpaces_eq {t : UInt8} (ht : t = 0 ∨ t = 13) :
    skipSpaces (line ++ t :: rest) = some (line.dropWhile (· = 32) ++ t :: rest) := by
  induction line with
  | nil => exact if_neg (by rcases ht with rfl | rfl <;> decide)
  | cons c line ih =>
    rw [List.cons_append, skipSpaces]
    by_cases hc : c = 32
    · rw [if_pos hc, ih, List.dropWhile_cons_of_pos (by simpa using hc)]
    · rw [if_neg hc, List.dropWhile_cons_of_neg (by simpa using hc)]
      rfl

/-- The loop that copies the name, up to a name that has no room. -/
theorem copyProg_spec {chars : Blocks UInt8} (hblock : chars.block b = some (padded w))
    (hw : w.length ≤ 12) (h0 : 0 ∉ line) (h13 : 13 ∉ line) {t : UInt8} (ht : t = 0 ∨ t = 13)
    (rest : List UInt8) :
    (∃ chars', copyProg chars b w.length (line ++ t :: rest) =
        some (chars', line.dropWhile (· ≠ 32) ++ t :: rest) ∧
      chars'.block b = some (padded (w ++ line.takeWhile (· ≠ 32))) ∧
      chars'.next = chars.next ∧ (w ++ line.takeWhile (· ≠ 32)).length ≤ 12) ∨
    (copyProg chars b w.length (line ++ t :: rest) = none ∧
      12 < (w ++ line.takeWhile (· ≠ 32)).length) := by
  induction line generalizing chars w with
  | nil =>
    rw [List.takeWhile_nil, List.append_nil]
    refine .inl ⟨chars, if_neg ?_, hblock, rfl, hw⟩
    rintro ⟨-, hne13, hne0⟩
    exact ht.elim hne0 hne13
  | cons c line ih =>
    rw [List.mem_cons, not_or] at h0 h13
    rw [List.cons_append, copyProg]
    by_cases hc : c = 32
    · rw [if_neg (fun h => h.1 hc), List.takeWhile_cons_of_neg (by simpa using hc),
        List.dropWhile_cons_of_neg (by simpa using hc), List.append_nil]
      exact .inl ⟨chars, rfl, hblock, rfl, hw⟩
    · have hassoc : w ++ c :: line.takeWhile (· ≠ 32) = w ++ [c] ++
          line.takeWhile (· ≠ 32) := by
        rw [List.append_assoc]
        rfl
      rw [if_pos ⟨hc, Ne.symm h13.1, Ne.symm h0.1⟩,
        List.takeWhile_cons_of_pos (by simpa using hc),
        List.dropWhile_cons_of_pos (by simpa using hc), hassoc]
      rcases Nat.lt_or_eq_of_le hw with hlt | hfull
      · obtain ⟨chars₁, hr, hnext, hblock₁⟩ :=
          Blocks.store_some (i := w.length) (x := c) hblock
          (by rwa [padded_length hw])
        have hb₁ := (hblock₁ b).trans (if_pos rfl)
        rw [padded_set hlt] at hb₁
        have hlen : (w ++ [c]).length = w.length + 1 := by
          rw [List.length_append, List.length_singleton]
        rw [bind_of_eq_some hr, ← hlen, ← hnext]
        exact ih hb₁ (by omega) h0.2 h13.2
      · refine .inr ⟨?_, ?_⟩
        · rw [Blocks.store_none hblock (Nat.le_of_eq (by rw [padded_length hw, hfull]))]
          rfl
        · rw [List.length_append, List.length_append, List.length_singleton]
          omega

theorem isCd_eq {chars : Blocks UInt8} (hblock : chars.block b = some (padded w)) (h0 : 0 ∉ w)
    (hw : w.length ≤ 12) : isCd chars b = some (decide (w = [99, 100])) := by
  have hload (i : Nat) (hi : i < 12) : chars.load b i = (padded w)[i]? := by
    rw [Blocks.load, hblock]
    rfl
  rw [isCd, hload 0 (by decide), hload 1 (by decide), hload 2 (by decide), padded]
  rcases w with _ | ⟨x, _ | ⟨y, _ | ⟨z, w⟩⟩⟩
  · rfl
  · by_cases hx : x = 99
    · simp [hx]
    · simp [hx]
  · by_cases hx : x = 99
    · by_cases hy : y = 100
      · simp [hx, hy]
      · simp [hx, hy]
    · simp [hx]
  · -- the third character is not the NUL
    have hz : z ≠ 0 := fun hz => h0 (by rw [hz]; simp)
    by_cases hx : x = 99
    · by_cases hy : y = 100
      · simp [hx, hy, hz]
      · simp [hx, hy]
    · simp [hx]

theorem cstring_eq {chars : Blocks UInt8} (hblock : chars.block b = some (padded w))
    (h0 : 0 ∉ w) : cstring chars b = if w.length < 12 then some w else none := by
  have htake : ∀ x ∈ w, decide (x ≠ 0) = true :=
    fun x hx => decide_eq_true fun h => h0 (h ▸ hx)
  rw [cstring, bind_of_eq_some hblock, padded]
  split
  case isTrue hmem =>
    obtain ⟨n, hn⟩ : ∃ n, 12 - w.length = n + 1 := by
      rcases List.mem_append.mp hmem with hm | hm
      · exact absurd hm h0
      · have := (List.mem_replicate.mp hm).1
        exact ⟨11 - w.length, by omega⟩
    rw [if_pos (by omega), hn, List.replicate_succ, List.takeWhile_append_of_pos htake,
      List.takeWhile_cons_of_neg (by decide), List.append_nil]
  case isFalse hmem =>
    rw [if_neg]
    intro hlt
    exact hmem (List.mem_append_right _ (List.mem_replicate.mpr ⟨by omega, rfl⟩))

theorem checkProg_cd {chars : Blocks UInt8} (hblock : chars.block b = some (padded [99, 100])) :
    checkProg kind chars b = some (-4) := by
  rw [checkProg, bind_of_eq_some (isCd_eq hblock (by decide) (by decide))]
  rfl

theorem checkProg_eq (kind : List UInt8 → Kind) {chars : Blocks UInt8}
    (hblock : chars.block b = some (padded w)) (h0 : 0 ∉ w) (hw : w.length ≤ 12)
    (hcd : w ≠ [99, 100]) :
    checkProg kind chars b =
    if w.length < 12 then some (match kind w with | .missing => -1 | .text => -3 | .elf => -2)
    else none := by
  rw [checkProg, bind_of_eq_some (isCd_eq hblock h0 hw), decide_eq_false hcd,
    if_neg Bool.false_ne_true, cstring_eq hblock h0]
  split
  · rw [bind_of_eq_some rfl]
    cases kind w with
    | missing => rfl
    | text => rfl
    | elf => rfl
  · rfl

theorem progOf_eq (line : List UInt8) :
    progOf line = (line.dropWhile (· = 32)).takeWhile (· ≠ 32) := by
  rw [progOf]
  by_cases hnil : line.dropWhile (· = 32) = []
  · rw [← words_dropWhile, hnil]
    rfl
  · rw [words_eq hnil]
    rfl

theorem tail_words (line : List UInt8) : (words 32 line).tail = words 32 (restOf line) := by
  rw [restOf]
  by_cases hnil : line.dropWhile (· = 32) = []
  · rw [← words_dropWhile, hnil]
    rfl
  · rw [words_eq hnil]
    rfl

/-- `delimitBy` behind the name of the program. -/
theorem delimitBy_iff (junk : Junk) (hblock : m.chars.block b = some (padded w))
    (hw : w.length < 12) (d : UInt8) (h0 : 0 ∉ line) (h13 : 13 ∉ line) {t : UInt8}
    (ht : t = 0 ∨ t = 13) (rest : List UInt8) :
    (∃ r, delimitBy junk d m (line ++ t :: rest) = some r ∧ HasString r.2.chars b w ∧
      ∃ l, HasArray r.2 b r.1 (words d line) l) ↔
    (∀ v ∈ words d line, v.length < 12) ∧ (words d line).length % 2 = 0 := by
  rcases delimitBy_spec junk m d h0 h13 ht rest with ⟨s, l, hr, F, hcap⟩ |
    ⟨hr, v, hv, hlong⟩
  · have hb := Blocks.lt_next hblock
    rw [← F.hasArray_iff hcap hb]
    constructor
    · rintro ⟨r, hr', -, H⟩
      rw [hr] at hr'
      cases hr'
      exact H
    · intro H
      exact ⟨_, hr, ⟨_, (F.kept b hb).trans hblock, padded_string hw⟩, H⟩
  · refine iff_of_false ?_ fun h => absurd (h.1 v hv) (by omega)
    rintro ⟨r, hr', -⟩
    rw [hr] at hr'
    cases hr'

/-- What holds of the line holds of the call that `main` makes. -/
theorem call_iff (junk : Junk) {d : UInt8} (hblock : m.chars.block b = some (padded w))
    (hw : w.length < 12) (h0 : 0 ∉ line) (h13 : 13 ∉ line) {t : UInt8} (ht : t = 0 ∨ t = 13)
    (rest : List UInt8) {parsed : Option Parsed}
    (hr : parsed = (delimitBy junk d m (line ++ t :: rest)).map fun r => ⟨b, some r.1, r.2⟩) :
    (∃ r, parsed = some r ∧ HasString r.mem.chars r.prog w ∧
      ∀ ws, some (words d line) = some ws → ∃ args l,
      r.args = some args ∧ HasArray r.mem r.prog args ws l) ↔
    w.length < 12 ∧ ∀ ws, some (words d line) = some ws → (∀ v ∈ ws, v.length < 12) ∧
    ws.length % 2 = 0 := by
  have hiff := delimitBy_iff junk hblock hw d h0 h13 ht rest
  constructor
  · rintro ⟨r, hr', hs, H⟩
    refine ⟨hw, fun ws hws => ?_⟩
    cases hws
    obtain ⟨args, l, hargs, H'⟩ := H _ rfl
    rw [hr, Option.map_eq_some_iff] at hr'
    obtain ⟨q, hq, rfl⟩ := hr'
    cases hargs
    exact hiff.mp ⟨q, hq, hs, l, H'⟩
  · rintro ⟨-, H⟩
    obtain ⟨q, hq, hs, l, H'⟩ := hiff.mpr (H _ rfl)
    refine ⟨⟨b, some q.1, q.2⟩, by rw [hr, hq]; rfl, hs, fun ws hws => ?_⟩
    cases hws
    exact ⟨q.1, l, rfl, H'⟩

theorem splitArgs_iff (junk : Junk) (hblock : m.chars.block b = some (padded w)) (hw0 : 0 ∉ w)
    (hw : w.length ≤ 12) (h0 : 0 ∉ line) (h13 : 13 ∉ line) {t : UInt8} (ht : t = 0 ∨ t = 13)
    {asked : Option (List (List UInt8))}
    (hasked : asked = if w = [99, 100] then some (words 47 (line.dropWhile (· = 32)))
      else if kind w = .elf then some (words 32 line) else none) :
    (∃ r, splitArgs junk kind m b (line ++ t :: rest) = some r ∧
      HasString r.mem.chars r.prog w ∧ ∀ ws, asked = some ws → ∃ args l,
      r.args = some args ∧ HasArray r.mem r.prog args ws l) ↔
    w.length < 12 ∧ ∀ ws, asked = some ws → (∀ v ∈ ws, v.length < 12) ∧
    ws.length % 2 = 0 := by
  by_cases hcd : w = [99, 100]
  · subst hcd
    rw [if_pos rfl] at hasked
    subst hasked
    have hsub := List.dropWhile_sublist (l := line) (fun x => decide (x = 32))
    refine call_iff junk hblock (by decide) (fun h => h0 (hsub.mem h))
      (fun h => h13 (hsub.mem h)) ht rest ?_
    rw [splitArgs, bind_of_eq_some (checkProg_cd hblock), if_pos rfl,
      bind_of_eq_some (skipSpaces_eq ht)]
    exact Option.map_eq_bind.symm
  · rw [if_neg hcd] at hasked
    have hcheck := checkProg_eq kind hblock hw0 hw hcd
    rw [splitArgs]
    rcases Nat.lt_or_eq_of_le hw with hlt | hfull
    · rw [if_pos hlt] at hcheck
      rw [bind_of_eq_some hcheck]
      have hstring : HasString m.chars b w := ⟨_, hblock, padded_string hlt⟩
      cases hkind : kind w with
      | elf =>
        rw [hkind, if_pos rfl] at hasked
        subst hasked
        exact call_iff junk hblock hlt h0 h13 ht rest Option.map_eq_bind.symm
      | missing =>
        rw [hkind] at hasked
        subst hasked
        exact iff_of_true ⟨_, rfl, hstring, fun ws hws => by cases hws⟩ ⟨hlt,
          fun ws hws => by cases hws⟩
      | text =>
        rw [hkind] at hasked
        subst hasked
        exact iff_of_true ⟨_, rfl, hstring, fun ws hws => by cases hws⟩ ⟨hlt,
          fun ws hws => by cases hws⟩
    · rw [if_neg (by omega)] at hcheck
      refine iff_of_false ?_ fun h => absurd h.1 (by omega)
      rintro ⟨r, hr, -⟩
      rw [hcheck] at hr
      cases hr

/-- **The shell splits a line into its words** exactly when every word is shorter than twelve
characters and the number of words behind the first is even. -/
theorem splits_iff (junk : Junk) (kind : List UInt8 → Kind) (m : Memory) (line : List UInt8)
    (h0 : 0 ∉ line) (h13 : 13 ∉ line) (t : UInt8) (ht : t = 0 ∨ t = 13) (rest : List UInt8) :
    Splits junk kind m line (t :: rest) ↔ Fits kind line := by
  have hsub := List.dropWhile_sublist (l := line) (fun x => decide (x = 32))
  have hsub' :=
    (List.dropWhile_sublist (l := line.dropWhile (· = 32)) (fun x => decide (x ≠ 32))).trans hsub
  obtain ⟨chars, hr, -, hnew⟩ :=
    malloc_fill (m := m.chars) (n := 12) (junk.chars m.chars.next) 0
  have hprog := (hnew m.chars.next).trans (if_pos rfl)
  rcases copyProg_spec (w := []) hprog (Nat.zero_le _) (fun h => h0 (hsub.mem h))
    (fun h => h13 (hsub.mem h)) ht rest with ⟨chars', hcopy, hblock, -,
      hlen⟩ | ⟨hcopy, hlen⟩
  · rw [List.nil_append, ← progOf_eq] at hblock hlen
    have hparse : parse junk kind m (line ++ t :: rest) =
        splitArgs junk kind ⟨chars', m.pointers⟩ m.chars.next (restOf line ++ t :: rest) :=
      (bind_of_eq_some (skipSpaces_eq ht)).trans ((bind_of_eq_some hr).trans
        (bind_of_eq_some hcopy))
    have hprog0 : 0 ∉ progOf line := by
      rw [progOf_eq]
      exact fun h => h0 (hsub.mem ((List.takeWhile_sublist _).mem h))
    rw [Splits, hparse]
    refine splitArgs_iff junk hblock hprog0 hlen (fun h => h0 (hsub'.mem h))
      (fun h => h13 (hsub'.mem h)) ht ?_
    rw [argsOf, tail_words]
    rfl
  · rw [List.nil_append, ← progOf_eq] at hlen
    refine iff_of_false ?_ fun h => absurd h.1 (by omega)
    rintro ⟨r, hr', -⟩
    have hparse : parse junk kind m (line ++ t :: rest) = none := by
      rw [parse, bind_of_eq_some (skipSpaces_eq ht)]
      refine (bind_of_eq_some hr).trans ?_
      exact (congrArg (· >>= _) hcopy)
    rw [hparse] at hr'
    cases hr'

/-- A memory without blocks, with bytes of ones in the new ones. -/
def onesJunk : Junk := ⟨fun _ _ => 255, fun _ _ => some 0⟩

/-- `e a b` -/
theorem splits_iff_even :
    Splits onesJunk (fun _ => .elf) ⟨.empty, .empty⟩ [101, 32, 97, 32, 98] [0] := by
  have hargs : argsOf (fun _ => .elf) [101, 32, 97, 32, 98] = some [[97], [98]] := by decide
  refine (splits_iff onesJunk _ _ [101, 32, 97, 32, 98] (by decide) (by decide) 0 (.inl rfl) []).mpr
    ⟨by decide, fun ws hws => ?_⟩
  rw [hargs] at hws
  cases hws
  exact ⟨by decide, rfl⟩

/-- `e a b c`: there is no room for the null pointer. -/
theorem splits_odd :
    ¬∀ (junk : Junk) (kind : List UInt8 → Kind) (m : Memory)
    (line : List UInt8), 0 ∉ line →
    13 ∉ line → ∀ t : UInt8, t = 0 ∨ t = 13 →
    ∀ rest, Splits junk kind m line (t :: rest) := by
  intro hall
  obtain ⟨r, hr, -, H⟩ :=
    hall onesJunk (fun _ => .elf) ⟨.empty, .empty⟩ [101, 32, 97, 32, 98, 32, 99] (by decide)
      (by decide) 0
    (.inl rfl) []
  obtain ⟨args, l, hargs, HA⟩ := H [[97], [98], [99]] (by decide)
  have hrun : (parse onesJunk (fun _ => .elf) ⟨.empty, .empty⟩
      ([101, 32, 97, 32, 98, 32, 99] ++ [0])).bind
      (fun r => r.args.bind r.mem.pointers.block) = some [some 1, some 2, some 3] := by
        decide +kernel
  rw [hr, Option.bind_some, hargs, Option.bind_some, HA.array] at hrun
  cases hrun
  cases HA.null

end K439.Shell
