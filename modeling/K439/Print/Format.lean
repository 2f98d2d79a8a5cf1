import K439.Print.Dopr
import Mathlib.Logic.Relation

/-!
# What a format means

A format is a list of pieces: characters, and conversions with flags, a width, a precision and a
modifier. `Piece.print` is what a piece prints. The automaton of `dopr`, which never sees a piece as
a whole, prints the pieces of a format in order.
-/

namespace K439.Print

/-- The characters that set a flag. -/
inductive Flag
  | minus
  | plus
  | space
  | num
  | zero

def Flag.char : Flag → UInt8
  | .minus => 45
  | .plus => 43
  | .space => 32
  | .num => 35
  | .zero => 48

def Flag.set (flags : Flags) : Flag → Flags
  | .minus => { flags with MINUS := true }
  | .plus => { flags with PLUS := true }
  | .space => { flags with SPACE := true }
  | .num => { flags with NUM := true }
  | .zero => { flags with ZERO := true }

/-- A number in decimal. -/
def decimal (n : Nat) : List UInt8 :=
  if n < 10 then [.ofNat (48 + n)] else decimal (n / 10) ++ [.ofNat (48 + n % 10)]

/-- The width. It does not start with a 0, which would be a flag. -/
inductive Width
  | none
  | num (w : Nat) (pos : 0 < w) (lt : w < 0x80000000)
  | star

/-- The precision; a point alone is none. -/
inductive Precision
  | none
  | dot
  | num (p : Nat) (lt : p < 0x80000000)
  | star

inductive Conv
  | d
  | i
  | o
  | u
  | X
  | x
  | c
  | s
  | p
  | percent

structure Spec where
  flags : List Flag
  width : Width
  precision : Precision
  modifier : Option Modifier
  conv : Conv

inductive Piece
  | char (c : UInt8) (nul : c ≠ 0) (percent : c ≠ 37)
  | spec (s : Spec)

/-! ## How a format is written -/

def Width.render : Width → List UInt8
  | .none => []
  | .num w _ _ => decimal w
  | .star => [42]

def Precision.render : Precision → List UInt8
  | .none => []
  | .dot => [46]
  | .num p _ => 46 :: decimal p
  | .star => [46, 42]

def Modifier.render : Option Modifier → List UInt8
  | .none => []
  | .some .SHORT => [104]
  | .some .LONG => [108]
  | .some .LDOUBLE => [76]

def Conv.char : Conv → UInt8
  | .d => 100
  | .i => 105
  | .o => 111
  | .u => 117
  | .X => 88
  | .x => 120
  | .c => 99
  | .s => 115
  | .p => 112
  | .percent => 37

def Spec.render (s : Spec) : List UInt8 :=
  37 :: (s.flags.map Flag.char ++
    (s.width.render ++ (s.precision.render ++ (Modifier.render s.modifier ++ [s.conv.char]))))

def Piece.render : Piece → List UInt8
  | .char c _ _ => [c]
  | .spec s => s.render

/-! ## What is printed -/

/-- The next argument. -/
def arg : List UInt32 → Option (UInt32 × List UInt32)
  | [] => none
  | a :: args => some (a, args)

def Width.value : Width → List UInt32 → Option (Int × List UInt32)
  | .none, args => some (0, args)
  | .num w _ _, args => some (w, args)
  | .star, args => (arg args).map fun (a, args) => (long a, args)

def Precision.value : Precision → List UInt32 → Option (Int × List UInt32)
  | .none, args | .dot, args => some (-1, args)
  | .num p _, args => some (p, args)
  | .star, args => (arg args).map fun (a, args) => (long a, args)

/-- What a conversion prints of a word. -/
def Conv.text (str : UInt32 → List UInt8) (maxlen min max : Int) (flags : Flags) (a : UInt32) :
    Conv → List UInt8
  | .d | .i => fmtint a 10 min max flags
  | .o => fmtint a 8 min max { flags with UNSIGNED := true }
  | .u => fmtint a 10 min max { flags with UNSIGNED := true }
  | .X => fmtint a 16 min max { flags with UP := true, UNSIGNED := true }
  | .x => fmtint a 16 min max { flags with UNSIGNED := true }
  | .c => [a.toUInt8]
  | .s => fmtstr (if a = 0 then none else some (str a)) flags min (if max < 0 then maxlen else max)
  | .p => fmtint a 16 min max flags
  | .percent => [37]

def Spec.print (str : UInt32 → List UInt8) (maxlen : Int) (s : Spec) (args : List UInt32) :
    Option (List UInt8 × List UInt32) := do
  let flags := s.flags.foldl Flag.set .none
  let (min, args) ← s.width.value args
  let (max, args) ← s.precision.value args
  match s.conv with
  | .percent => some ([37], args)
  | conv =>
    let (a, args) ← arg args
    some (conv.text str maxlen min max flags a, args)

def Piece.print (str : UInt32 → List UInt8) (maxlen : Int) :
    Piece → List UInt32 → Option (List UInt8 × List UInt32)
  | .char c _ _, args => some ([c], args)
  | .spec s, args => s.print str maxlen args

/-- The pieces in order, until `maxlen` characters are out. -/
def print (str : UInt32 → List UInt8) (maxlen : Int) :
    List Piece → List UInt32 → List UInt8 → Option (List UInt8)
  | [], _, out => some out
  | p :: ps, args, out =>
    if wrap out.length ≥ maxlen then some out
    else do
      let (text, args) ← p.print str maxlen args
      print str maxlen ps args (out ++ text)

/-! ## Numbers -/

theorem wrap_of_range {x : Int} (h0 : -0x80000000 ≤ x) (h1 : x < 0x80000000) : wrap x = x :=
  Int.bmod_eq_of_le (by omega) (by omega)

theorem toNat_digit {n : Nat} (h : n < 10) : (UInt8.ofNat (48 + n)).toNat = 48 + n :=
  UInt8.toNat_ofNat_of_lt (show 48 + n < 256 by omega)

theorem ofNat_ne {c : UInt8} {x : Char} (h : c ≠ .ofNat x.toNat) (hx : x.toNat < 256) :
    Char.ofNat c.toNat ≠ x := by
  intro he
  have hv : (Char.ofNat c.toNat).toNat = c.toNat := by
    have hlt := c.toNat_lt
    unfold Char.ofNat
    rw [dif_pos (.inl (by omega))]
    rfl
  rw [he] at hv
  exact h (UInt8.toNat_inj.mp (hv.symm.trans (UInt8.toNat_ofNat_of_lt hx).symm))

/-! ## The automaton -/

namespace Dopr

variable {str : UInt32 → List UInt8} {maxlen : Int} {d d' : Dopr} {c : UInt8} {l t : List UInt8}

/-- The memory from the character in `ch` on. -/
def feed (d : Dopr) : List UInt8 → Dopr
  | [] => { d with ch := 0, format := [] }
  | c :: l => { d with ch := c, format := l }

theorem next_feed : (d.feed (c :: l)).next = d.feed l := by
  cases l with
  | nil => rfl
  | cons => rfl

variable (str maxlen) in
/-- Turns of the loop, one after the other. -/
def Steps : Dopr → Dopr → Prop :=
  Relation.ReflTransGen fun a b => a.state ≠ .DONE ∧ a.step str maxlen = some b

/-- A turn while there is room for more and the format goes on. -/
theorem steps_of (hs : d.state ≠ .DONE) (h0 : c ≠ 0) (hr : d.currlen < maxlen)
    (h : (d.feed (c :: l)).switch str maxlen = some d') :
    Steps str maxlen (d.feed (c :: l)) d' := by
  refine .single ⟨hs, (if_neg ?_).trans h⟩
  rintro (h | h)
  · exact h0 h
  · exact absurd hr (Int.not_lt.mpr h)

theorem steps_percent (hr : d.currlen < maxlen) :
    Steps str maxlen ({ d with state := .DEFAULT }.feed (37 :: l))
    ({ d with state := .FLAGS }.feed l) :=
  steps_of nofun (by decide) hr
    (congrArg some (next_feed (d := { d with state := .FLAGS }) (c := 37)))

theorem steps_char (h0 : c ≠ 0) (h1 : c ≠ 37) (hr : d.currlen < maxlen) :
    Steps str maxlen ({ d with state := .DEFAULT }.feed (c :: l))
      ({ d with state := .DEFAULT, out := d.out ++ [c] }.feed l) := by
  refine steps_of nofun h0 hr ?_
  dsimp only [switch, feed]
  rw [if_neg h1]
  exact congrArg some (next_feed (d := { d with state := .DEFAULT, out := d.out ++ [c] }) (c := c))

theorem steps_flag (f : Flag) (hr : d.currlen < maxlen) :
    Steps str maxlen ({ d with state := .FLAGS }.feed (f.char :: l))
      ({ d with state := .FLAGS, flags := f.set d.flags }.feed l) := by
  have hnext :=
    next_feed (d := { d with state := .FLAGS, flags := f.set d.flags }) (c := f.char) (l := l)
  cases f with
  | minus | plus | space | num | zero => exact steps_of nofun (by decide) hr (congrArg some hnext)

theorem steps_flags (fs : List Flag) (hr : d.currlen < maxlen) :
    Steps str maxlen ({ d with state := .FLAGS }.feed (fs.map Flag.char ++ l))
      ({ d with state := .FLAGS, flags := fs.foldl Flag.set d.flags }.feed l) := by
  induction fs generalizing d with
  | nil => exact .refl
  | cons f fs ih => exact .trans (steps_flag f hr) (ih (d := { d with flags := f.set d.flags }) hr)

/-- The flags are over at the first other character. -/
theorem steps_flags_end (h0 : c ≠ 0) (hc : ∀ f : Flag, c ≠ f.char) (hr : d.currlen < maxlen) :
    Steps str maxlen ({ d with state := .FLAGS }.feed (c :: l))
    ({ d with state := .MIN }.feed (c :: l)) := by
  refine steps_of nofun h0 hr ?_
  dsimp only [switch, feed]
  split
  next h => exact (ofNat_ne (hc .minus) (by decide) h).elim
  next h => exact (ofNat_ne (hc .plus) (by decide) h).elim
  next h => exact (ofNat_ne (hc .space) (by decide) h).elim
  next h => exact (ofNat_ne (hc .num) (by decide) h).elim
  next h => exact (ofNat_ne (hc .zero) (by decide) h).elim
  · rfl

theorem digit?_feed {n : Nat} (h : n < 10) :
    (d.feed (.ofNat (48 + n) :: l)).digit? = some (n : Int) := by
  have hn := toNat_digit h
  have h48 : 48 ≤ (UInt8.ofNat (48 + n)) :=
    UInt8.le_iff_toNat_le.mpr (by rw [hn]; exact Nat.le_add_right ..)
  have h57 : (UInt8.ofNat (48 + n)) ≤ 57 :=
    UInt8.le_iff_toNat_le.mpr (by rw [hn]; exact Nat.add_le_add_left (Nat.le_of_lt_succ h) 48)
  refine (if_pos ⟨h48, h57⟩).trans ?_
  dsimp only [feed]
  rw [hn]
  congr 1
  omega

theorem digit_ne {n : Nat} (h : n < 10) : UInt8.ofNat (48 + n) ≠ 0 := by
  intro h0
  have hn := toNat_digit h
  rw [h0, show (0 : UInt8).toNat = 0 from rfl] at hn
  omega

theorem decimal_induction {P : Nat → Prop} (digit : ∀ n, n < 10 → P n)
    (more : ∀ n, 10 ≤ n → P (n / 10) → P n) (n : Nat) : P n := by
  induction n using Nat.strongRecOn with
  | _ n ih =>
    by_cases h : n < 10
    · exact digit n h
    · exact more n (Nat.not_lt.mp h) (ih (n / 10) (by omega))

theorem steps_min_digit {n : Nat} (h : n < 10) (hr : d.currlen < maxlen) :
    Steps str maxlen ({ d with state := .MIN }.feed (.ofNat (48 + n) :: l))
      ({ d with state := .MIN, min := wrap (10 * d.min + n) }.feed l) := by
  refine steps_of nofun (digit_ne h) hr ?_
  have hnext :=
    next_feed (d := { d with state := .MIN, min := wrap (10 * d.min + n) }) (c := .ofNat (48 + n))
      (l := l)
  unfold switch
  rw [digit?_feed h]
  exact congrArg some hnext

/-- The width is read in decimal. -/
theorem steps_min {n : Nat} (hn : n < 0x80000000) (hr : d.currlen < maxlen) :
    Steps str maxlen ({ d with state := .MIN, min := 0 }.feed (decimal n ++ l))
      ({ d with state := .MIN, min := n }.feed l) := by
  induction n using decimal_induction generalizing l with
  | digit n h =>
    have hs : Steps str maxlen _ _ := steps_min_digit (d := { d with min := 0 }) (l := l) h hr
    dsimp only at hs
    rw [Int.mul_zero, Int.zero_add, wrap_of_range (by omega) (by omega)] at hs
    rw [decimal, if_pos h]
    exact hs
  | more n h ih =>
    rw [decimal, if_neg (Nat.not_lt.mpr h), List.append_assoc]
    refine .trans (ih (by omega)) ?_
    have hs : Steps str maxlen _ _ :=
      steps_min_digit (l := l) (d := { d with min := (n / 10 : Nat) }) (n := n % 10)
      (Nat.mod_lt _ (by decide)) hr
    have hval : wrap (10 * ((n / 10 : Nat) : Int) + ((n % 10 : Nat) : Int)) = n := by
      rw [wrap_of_range (by omega) (by omega)]
      omega
    dsimp only at hs
    rwa [hval] at hs

theorem steps_max_digit {n : Nat} (h : n < 10) (hr : d.currlen < maxlen) :
    Steps str maxlen ({ d with state := .MAX }.feed (.ofNat (48 + n) :: l))
    ({ d with state := .MAX, max := wrap (10 * (if d.max < 0 then 0 else d.max) + n) }.feed l) := by
  refine steps_of nofun (digit_ne h) hr ?_
  have hnext :=
    next_feed (d :=
    { d with state := .MAX, max := wrap (10 * (if d.max < 0 then 0 else d.max) + n) })
    (c := .ofNat (48 + n)) (l := l)
  unfold switch
  rw [digit?_feed h]
  exact congrArg some hnext

/-- The precision is read in decimal. -/
theorem steps_max {n : Nat} (hn : n < 0x80000000) (hr : d.currlen < maxlen) :
    Steps str maxlen ({ d with state := .MAX, max := -1 }.feed (decimal n ++ l))
      ({ d with state := .MAX, max := n }.feed l) := by
  induction n using decimal_induction generalizing l with
  | digit n h =>
    have hs : Steps str maxlen _ _ := steps_max_digit (d := { d with max := -1 }) (l := l) h hr
    dsimp only at hs
    rw [if_pos (by decide), Int.mul_zero, Int.zero_add, wrap_of_range (by omega) (by omega)] at hs
    rw [decimal, if_pos h]
    exact hs
  | more n h ih =>
    rw [decimal, if_neg (Nat.not_lt.mpr h), List.append_assoc]
    refine .trans (ih (by omega)) ?_
    have hs : Steps str maxlen _ _ :=
      steps_max_digit (l := l) (d := { d with max := (n / 10 : Nat) }) (n := n % 10)
      (Nat.mod_lt _ (by decide)) hr
    have hval : wrap (10 * (if ((n / 10 : Nat) : Int) < 0 then 0 else ((n / 10 : Nat) : Int)) +
        ((n % 10 : Nat) : Int)) = n := by
      rw [if_neg (by omega), wrap_of_range (by omega) (by omega)]
      omega
    dsimp only at hs
    rwa [hval] at hs

theorem digit?_star : (d.feed (42 :: l)).digit? = none :=
  if_neg (show ¬((48 : UInt8) ≤ 42 ∧ (42 : UInt8) ≤ 57) by decide)

/-- A star takes the next argument. -/
theorem steps_min_star {a : UInt32} {args : List UInt32} (ha : d.args = a :: args)
    (hr : d.currlen < maxlen) :
    Steps str maxlen ({ d with state := .MIN }.feed (42 :: l))
    ({ d with state := .DOT, min := long a, args := args }.feed l) := by
  refine steps_of nofun (by decide) hr ?_
  have harg : ({ d with state := .MIN }.feed (42 :: l)).arg =
      some (a, { d with state := .MIN, args := args }.feed (42 :: l)) := by
    unfold arg feed
    dsimp only
    rw [ha]
  unfold switch
  rw [digit?_star]
  refine (if_pos rfl).trans ?_
  rw [harg]
  cases l with
  | nil => rfl
  | cons => rfl

theorem steps_max_star {a : UInt32} {args : List UInt32} (ha : d.args = a :: args)
    (hr : d.currlen < maxlen) :
    Steps str maxlen ({ d with state := .MAX }.feed (42 :: l))
    ({ d with state := .MOD, max := long a, args := args }.feed l) := by
  refine steps_of nofun (by decide) hr ?_
  have harg : ({ d with state := .MAX }.feed (42 :: l)).arg =
      some (a, { d with state := .MAX, args := args }.feed (42 :: l)) := by
    unfold arg feed
    dsimp only
    rw [ha]
  unfold switch
  rw [digit?_star]
  refine (if_pos rfl).trans ?_
  rw [harg]
  cases l with
  | nil => rfl
  | cons => rfl

/-- A character that is neither a digit nor a star. -/
def Late (c : UInt8) : Prop := c ≠ 0 ∧ ¬(48 ≤ c ∧ c ≤ 57) ∧ c ≠ 42

theorem digit?_late (hc : Late c) : (d.feed (c :: l)).digit? = none := if_neg hc.2.1

theorem steps_min_end (hc : Late c) (hr : d.currlen < maxlen) :
    Steps str maxlen ({ d with state := .MIN }.feed (c :: l))
    ({ d with state := .DOT }.feed (c :: l)) := by
  refine steps_of nofun hc.1 hr ?_
  unfold switch
  rw [digit?_late hc]
  exact if_neg hc.2.2

theorem steps_max_end (hc : Late c) (hr : d.currlen < maxlen) :
    Steps str maxlen ({ d with state := .MAX }.feed (c :: l))
    ({ d with state := .MOD }.feed (c :: l)) := by
  refine steps_of nofun hc.1 hr ?_
  unfold switch
  rw [digit?_late hc]
  exact if_neg hc.2.2

theorem steps_dot (hr : d.currlen < maxlen) :
    Steps str maxlen ({ d with state := .DOT }.feed (46 :: l)) ({ d with state := .MAX }.feed l) :=
  steps_of nofun (by decide) hr
    (congrArg some (next_feed (d := { d with state := .MAX }) (c := 46)))

theorem steps_dot_end (h0 : c ≠ 0) (h1 : c ≠ 46) (hr : d.currlen < maxlen) :
    Steps str maxlen ({ d with state := .DOT }.feed (c :: l))
    ({ d with state := .MOD }.feed (c :: l)) := by
  refine steps_of nofun h0 hr ?_
  unfold switch
  exact congrArg some (if_neg h1)

/-- What comes after the precision starts with a late character, which is no point and sets no
flag. -/
structure Tail (l : List UInt8) (c : UInt8) (t : List UInt8) : Prop where
  eq : l = c :: t
  late : Late c
  point : c ≠ 46
  flag : ∀ f : Flag, c ≠ f.char

theorem tail_conv (k : Conv) : Tail (k.char :: t) k.char t := by
  refine ⟨rfl, ?_, ?_, fun f => ?_⟩
  · unfold Late
    cases k <;> decide
  · cases k <;> decide
  · cases k <;> cases f <;> decide

theorem tail_modifier (m : Option Modifier) (k : Conv) :
    ∃ c t', Tail (Modifier.render m ++ k.char :: t) c t' := by
  rcases m with _ | m
  · exact ⟨_, _, tail_conv k⟩
  · cases m with
    | SHORT | LONG | LDOUBLE =>
      refine ⟨_, _, rfl, ?_, by decide, fun f => ?_⟩
      · unfold Late
        decide
      · cases f <;> decide

theorem steps_modifier (m : Option Modifier) (k : Conv) (hr : d.currlen < maxlen) :
    Steps str maxlen ({ d with state := .MOD, cflags := none }.feed
      (Modifier.render m ++ k.char :: l))
    ({ d with state := .CONV, cflags := m }.feed (k.char :: l)) := by
  rcases m with _ | m
  · have hk : k.char ≠ 0 := (tail_conv (t := l) k).late.1
    refine steps_of nofun hk hr ?_
    cases k with
    | _ => rfl
  · cases m with
    | SHORT | LONG | LDOUBLE => exact steps_of nofun (by decide) hr rfl

/-- The automaton between two pieces. -/
def idle (args : List UInt32) (out : List UInt8) : Dopr where
  state := .DEFAULT
  ch := 0
  format := []
  flags := .none
  cflags := none
  min := 0
  max := -1
  args := args
  out := out
  stores := []

variable {args args' : List UInt32} {out text : List UInt8} {flags : Flags} {min max : Int}
  {cflags : Option Modifier}

/-- The automaton at a conversion. -/
def converting (flags : Flags) (cflags : Option Modifier) (min max : Int) (args : List UInt32)
    (out : List UInt8) : Dopr :=
  { idle args out with state := .CONV, flags := flags, cflags := cflags, min := min, max := max }

theorem steps_conv (k : Conv) {a : UInt32} (hk : k.char ≠ 37)
    (hr : (idle args out).currlen < maxlen) :
    Steps str maxlen ((converting flags cflags min max (a :: args) out).feed (k.char :: l))
    ((idle args (out ++ k.text str maxlen min max flags a)).feed l) := by
  have hk0 : k.char ≠ 0 := (tail_conv (t := l) k).late.1
  refine steps_of nofun hk0 hr ?_
  cases k with
  | percent => exact (hk rfl).elim
  | d | i | o | u | X | x | p | c | s =>
    cases l with
    | nil => rfl
    | cons => rfl

theorem steps_conv_percent (hr : (idle args out).currlen < maxlen) :
    Steps str maxlen ((converting flags cflags min max args out).feed (37 :: l))
    ((idle args (out ++ [37])).feed l) := by
  refine steps_of nofun (by decide) hr ?_
  cases l with
  | nil => rfl
  | cons => rfl

theorem arg_some {args args' : List UInt32} {a : UInt32} (h : Print.arg args = some (a, args')) :
    args = a :: args' := by
  cases args with
  | nil => cases h
  | cons => cases h; rfl

/-- The width, up to the point. -/
theorem steps_width (w : Width) (hr : d.currlen < maxlen) (hw : w.value d.args = some (min, args))
    (ht : ∃ c t, l = c :: t ∧ Late c) :
    Steps str maxlen ({ d with state := .MIN, min := 0 }.feed (w.render ++ l))
      ({ d with state := .DOT, min := min, args := args }.feed l) := by
  obtain ⟨c, t, rfl, hc⟩ := ht
  cases w with
  | none =>
    cases hw
    exact steps_min_end (d := { d with min := 0 }) hc hr
  | num w pos lt =>
    cases hw
    exact .trans (steps_min lt hr) (steps_min_end (d := { d with min := w }) hc hr)
  | star =>
    obtain ⟨⟨a, as⟩, ha, he⟩ := Option.map_eq_some_iff.mp hw
    obtain ⟨rfl, rfl⟩ := Prod.mk.inj he
    exact steps_min_star (d := { d with min := 0 }) (arg_some ha) hr

/-- The precision, up to the modifier. -/
theorem steps_precision (p : Precision) (hr : d.currlen < maxlen)
    (hp : p.value d.args = some (max, args)) (ht : ∃ c t, Tail l c t) :
    Steps str maxlen ({ d with state := .DOT, max := -1 }.feed (p.render ++ l))
    ({ d with state := .MOD, max := max, args := args }.feed l) := by
  obtain ⟨c, t, rfl, hc, hpoint, -⟩ := ht
  cases p with
  | none =>
    cases hp
    exact steps_dot_end (d := { d with max := -1 }) hc.1 hpoint hr
  | dot =>
    cases hp
    exact .trans (steps_dot (d := { d with max := -1 }) hr)
      (steps_max_end (d := { d with max := -1 }) hc hr)
  | num p lt =>
    cases hp
    have hdot : Steps str maxlen _ _ :=
      steps_dot (d := { d with max := -1 }) (l := decimal p ++ c :: t) hr
    exact hdot.trans (.trans (steps_max lt hr) (steps_max_end (d := { d with max := p }) hc hr))
  | star =>
    obtain ⟨⟨a, as⟩, ha, he⟩ := Option.map_eq_some_iff.mp hp
    obtain ⟨rfl, rfl⟩ := Prod.mk.inj he
    have hdot : Steps str maxlen _ _ := steps_dot (d := { d with max := -1 }) (l := 42 :: c :: t) hr
    exact hdot.trans (steps_max_star (d := { d with max := -1 }) (arg_some ha) hr)

/-- What comes after the flags starts neither with a flag nor with a NUL. -/
theorem decimal_head (n : Nat) (h : 0 < n) :
    ∃ k t, 0 < k ∧ k < 10 ∧ decimal n = .ofNat (48 + k) :: t := by
  induction n using decimal_induction with
  | digit n hn => exact ⟨n, [], h, hn, by rw [decimal, if_pos hn]⟩
  | more n hn ih =>
    obtain ⟨k, t, hk, hk', he⟩ := ih (by omega)
    exact ⟨k, t ++ [.ofNat (48 + n % 10)], hk, hk',
      by rw [decimal, if_neg (Nat.not_lt.mpr hn), he]; rfl⟩

theorem digit_not_flag {n : Nat} (h0 : 0 < n) (h : n < 10) (f : Flag) :
    UInt8.ofNat (48 + n) ≠ f.char := by
  intro he
  have hn := toNat_digit h
  rw [he] at hn
  cases f with
  | minus => exact absurd hn (by rw [show (Flag.minus.char).toNat = 45 from rfl]; omega)
  | plus => exact absurd hn (by rw [show (Flag.plus.char).toNat = 43 from rfl]; omega)
  | space => exact absurd hn (by rw [show (Flag.space.char).toNat = 32 from rfl]; omega)
  | num => exact absurd hn (by rw [show (Flag.num.char).toNat = 35 from rfl]; omega)
  | zero => exact absurd hn (by rw [show (Flag.zero.char).toNat = 48 from rfl]; omega)

/-- The first character of the precision and of what follows it. -/
theorem precision_head (p : Precision) {c : UInt8} (ht : Tail l c t) :
    ∃ c t, p.render ++ l = c :: t ∧ Late c ∧ ∀ f : Flag, c ≠ f.char := by
  cases p with
  | none => exact ⟨c, t, ht.eq, ht.late, ht.flag⟩
  | dot | num | star =>
    refine ⟨46, _, rfl, ?_, fun f => ?_⟩
    · unfold Late
      decide
    · cases f <;> decide

theorem width_head (w : Width) {c : UInt8} (hl : l = c :: t) (h0 : c ≠ 0)
    (hf : ∀ f : Flag, c ≠ f.char) :
    ∃ c t, w.render ++ l = c :: t ∧ c ≠ 0 ∧ ∀ f : Flag, c ≠ f.char := by
  cases w with
  | none => exact ⟨c, t, hl, h0, hf⟩
  | num w pos lt =>
    obtain ⟨k, t', hk, hk', he⟩ := decimal_head w pos
    refine ⟨_, t' ++ l, ?_, digit_ne hk', digit_not_flag hk hk'⟩
    rw [Width.render, he]
    rfl
  | star => exact ⟨42, l, rfl, by decide, fun f => by cases f <;> decide⟩

/-- A conversion, with all that is before it. -/
theorem steps_spec (s : Spec) (hr : (idle args out).currlen < maxlen)
    (h : s.print str maxlen args = some (text, args')) :
    Steps str maxlen ((idle args out).feed (s.render ++ l))
    ((idle args' (out ++ text)).feed l) := by
  obtain ⟨⟨min, as₁⟩, hw, h⟩ := Option.bind_eq_some_iff.mp h
  obtain ⟨⟨max, as₂⟩, hp, h⟩ := Option.bind_eq_some_iff.mp h
  obtain ⟨c, t, htail⟩ := tail_modifier (t := l) s.modifier s.conv
  obtain ⟨c', t', hpre, hlate, hflag⟩ := precision_head s.precision htail
  obtain ⟨c'', t'', hwid, h0, hflag'⟩ := width_head s.width hpre hlate.1 hflag
  have hrender :
      s.render ++ l = 37 :: (s.flags.map Flag.char ++ (s.width.render ++ (s.precision.render ++
      (Modifier.render s.modifier ++ s.conv.char :: l)))) := by
    simp only [Spec.render, List.cons_append, List.append_assoc, List.nil_append]
  rw [hrender]
  have hflags : Steps str maxlen _ _ :=
    steps_flags (d := idle args out) (l := s.width.render ++ (s.precision.render ++
    (Modifier.render s.modifier ++ s.conv.char :: l))) s.flags hr
  have hend : Steps str maxlen _ _ := steps_flags_end (l := t'') (d := { idle args out with
    flags := s.flags.foldl Flag.set .none }) h0 hflag' hr
  rw [← hwid] at hend
  have hwidth : Steps str maxlen _ _ :=
    steps_width (d := { idle args out with flags := s.flags.foldl Flag.set .none }) s.width hr hw
    ⟨c', t', hpre, hlate⟩
  have hprec : Steps str maxlen _ _ := steps_precision (d := { idle args out with
    flags := s.flags.foldl Flag.set .none, min := min, args :=
      as₁ }) s.precision hr hp ⟨c, t, htail⟩
  have hmod : Steps str maxlen _ _ := steps_modifier (l := l) (d := { idle args out with
    flags := s.flags.foldl Flag.set .none, min := min, max := max, args :=
      as₂ }) s.modifier s.conv hr
  refine .trans (steps_percent hr)
    (hflags.trans (hend.trans (hwidth.trans (hprec.trans (hmod.trans ?_)))))
  dsimp only at h
  split at h
  next hk =>
    cases h
    rw [hk]
    exact steps_conv_percent hr
  next hk =>
    obtain ⟨⟨a, as⟩, ha, he⟩ := Option.bind_eq_some_iff.mp h
    obtain ⟨rfl, rfl⟩ := Prod.mk.inj (Option.some.inj he)
    obtain rfl := arg_some ha
    have hne : s.conv.char ≠ 37 := by
      generalize s.conv = k at hk
      cases k with
      | percent => exact (hk rfl).elim
      | d | i | o | u | X | x | c | s | p => decide
    exact steps_conv s.conv hne hr

theorem steps_piece (p : Piece) (hr : (idle args out).currlen < maxlen)
    (h : p.print str maxlen args = some (text, args')) :
    Steps str maxlen ((idle args out).feed (p.render ++ l))
    ((idle args' (out ++ text)).feed l) := by
  cases p with
  | char c nul percent =>
    cases h
    exact steps_char (d := idle args out) nul percent hr
  | spec s => exact steps_spec s hr h

/-- The automaton stops at the NUL, or when it is out of room. -/
theorem steps_done (h : c = 0 ∨ (idle args out).currlen ≥ maxlen) :
    Steps str maxlen ((idle args out).feed (c :: l))
    { (idle args out).feed (c :: l) with state := .DONE } :=
  .single ⟨nofun, if_pos h⟩

/-- The pieces of a format, up to the NUL. -/
theorem steps_print (ps : List Piece) (h : print str maxlen ps args out = some text) :
    ∃ d', Steps str maxlen ((idle args out).feed (ps.flatMap Piece.render ++ 0 :: l)) d' ∧
    d'.state = .DONE ∧
      d'.out = text := by
  induction ps generalizing args out with
  | nil =>
    cases h
    exact ⟨_, steps_done (.inl rfl), rfl, rfl⟩
  | cons p ps ih =>
    rw [print] at h
    split at h
    next hfull =>
      cases h
      obtain ⟨c, t, he⟩ : ∃ c t, (p :: ps).flatMap Piece.render ++ 0 :: l = c :: t := by
        cases hl : (p :: ps).flatMap Piece.render with
        | nil => exact ⟨0, l, rfl⟩
        | cons c t => exact ⟨c, t ++ 0 :: l, rfl⟩
      rw [he]
      exact ⟨_, steps_done (.inr hfull), rfl, rfl⟩
    next hroom =>
      obtain ⟨⟨text', args'⟩, hp, h⟩ := Option.bind_eq_some_iff.mp h
      obtain ⟨d', hs, hd, ho⟩ := ih h
      rw [List.flatMap_cons, List.append_assoc]
      exact ⟨d', (steps_piece p (Int.not_le.mp hroom) hp).trans hs, hd, ho⟩

/-- Turns to the end are what the loop does with enough fuel. -/
theorem Steps.loop (h : Steps str maxlen d d') (hd : d'.state = .DONE) :
    ∃ n, ∀ fuel, n ≤ fuel → d.loop str maxlen fuel = some d' := by
  induction h using Relation.ReflTransGen.head_induction_on with
  | refl =>
    refine ⟨1, fun fuel hf => ?_⟩
    obtain ⟨fuel, rfl⟩ := Nat.exists_eq_succ_of_ne_zero (Nat.ne_of_gt hf)
    exact if_pos hd
  | head hstep _ ih =>
    obtain ⟨n, hn⟩ := ih
    refine ⟨n + 1, fun fuel hf => ?_⟩
    obtain ⟨fuel, rfl⟩ :=
      Nat.exists_eq_succ_of_ne_zero (Nat.ne_of_gt (Nat.lt_of_lt_of_le (Nat.succ_pos n) hf))
    rw [Dopr.loop, if_neg hstep.1, hstep.2]
    exact hn fuel (Nat.le_of_succ_le_succ hf)

end Dopr

variable {str : UInt32 → List UInt8} {maxlen : Int} {text : List UInt8}

/-- **A format prints its pieces.** Whatever lies behind the NUL of the format, the loop ends, and
what it has put into the stream is the text of the pieces in order. -/
theorem vsnprintf_prints (ps : List Piece) (args : List UInt32) (rest : List UInt8)
    (h : print str maxlen ps args [] = some text) :
    ∃ n, ∀ fuel, n ≤ fuel →
    vsnprintf fuel str maxlen (ps.flatMap Piece.render ++ 0 :: rest) args = some text := by
  obtain ⟨d', hs, hd, ho⟩ := Dopr.steps_print (l := rest) ps h
  have hstart : start (ps.flatMap Piece.render ++ 0 :: rest) args =
      (Dopr.idle args []).feed (ps.flatMap Piece.render ++ 0 :: rest) := by
    cases ps.flatMap Piece.render ++ 0 :: rest with
    | nil => rfl
    | cons => rfl
  obtain ⟨n, hn⟩ := hs.loop hd
  refine ⟨n, fun fuel hf => ?_⟩
  rw [vsnprintf, hstart, hn fuel hf, Option.map_some, ho]

/-- `"%-5d|%s\n"`: a number on the left of five characters, and a string. -/
def numberAndString : List Piece :=
  [.spec ⟨[.minus], .num 5 (by decide) (by decide), .none, none, .d⟩,
    .char 124 (by decide) (by decide),
    .spec ⟨[], .none, .none, none, .s⟩, .char 10 (by decide) (by decide)]

/-- `"42   |ls\n"` -/
theorem vsnprintf_prints_numberAndString :
    ∃ fuel, vsnprintf fuel (fun _ => [108, 115]) 1000 (numberAndString.flatMap Piece.render ++
      0 :: []) [42, 7] = some [52, 50, 32, 32, 32, 124, 108, 115, 10] := by
  have h : print (fun _ => [108, 115]) 1000 numberAndString [42, 7] [] =
      some [52, 50, 32, 32, 32, 124, 108, 115, 10] := by
    decide
  obtain ⟨n, hn⟩ := vsnprintf_prints numberAndString [42, 7] [] h
  exact ⟨n, hn n (Nat.le_refl n)⟩

end K439.Print
