import Mathlib.Tactic.Common

/-!
# Formatted output

`kernel/snprintf.cc` without floating point. `dopr` reads the format a character at a time, as an
automaton; `fmtint` and `fmtstr` print what it has collected. `long` and `int` are of 32 bits, the
arguments are words, and `str` gives the bytes of the string at an address up to its NUL. The format
is all of the memory from its address on: beyond `%w` the automaton reads past the NUL. `none` is a
read of an argument that is not there, or a conversion of floating point.
-/

namespace K439.Print

/-- A value of `int` or `long`. -/
def wrap (x : Int) : Int := x.bmod 4294967296

/-- A word as a `long`. -/
def long (x : UInt32) : Int := wrap x.toNat

/-- `DP_F_*` -/
structure Flags where
  MINUS : Bool
  PLUS : Bool
  SPACE : Bool
  NUM : Bool
  ZERO : Bool
  UP : Bool
  UNSIGNED : Bool
  deriving DecidableEq

def Flags.none : Flags := ⟨false, false, false, false, false, false, false⟩

/-- `DP_C_*` -/
inductive Modifier
  | SHORT
  | LONG
  | LDOUBLE
  deriving DecidableEq

/-- `DP_S_*` -/
inductive Phase
  | DEFAULT
  | FLAGS
  | MIN
  | DOT
  | MAX
  | MOD
  | CONV
  | DONE
  deriving DecidableEq

/-- The characters of the loops that print while `cnt < max`, and `cnt` after them. -/
def put : List UInt8 → Int → Int → List UInt8 × Int
  | [], cnt, _ => ([], cnt)
  | c :: l, cnt, max =>
    if cnt < max then
      let (l', cnt') := put l (cnt + 1) max
      (c :: l', cnt')
    else ([], cnt)

/-- `"<NULL>"` -/
def nullText : List UInt8 := [60, 78, 85, 76, 76, 62]

def fmtstr (value : Option (List UInt8)) (flags : Flags) (min max : Int) : List UInt8 :=
  let value := value.getD nullText
  let padlen := wrap (min - value.length)
  let padlen := if padlen < 0 then 0 else padlen
  let padlen := if flags.MINUS then -padlen else padlen
  let (left, cnt) := put (List.replicate padlen.toNat 32) 0 max
  let (text, cnt) := put value cnt max
  let (right, _) := put (List.replicate (-padlen).toNat 32) cnt max
  left ++ text ++ right

/-- `(caps? "0123456789ABCDEF":"0123456789abcdef")[d]` -/
def digit (caps : Bool) (d : Nat) : UInt8 :=
  if d < 10 then .ofNat (48 + d) else if caps then .ofNat (55 + d) else .ofNat (87 + d)

/-- The loop of `fmtint` with the places that are left. The lowest digit comes first. -/
def convert (caps : Bool) (base : Nat) : Nat → Nat → List UInt8
  | 0, _ => []
  | places + 1, uvalue =>
    digit caps (uvalue % base) :: if uvalue / base = 0 then []
    else convert caps base places (uvalue / base)

/-- The sign that is printed, and `uvalue`. -/
def signvalue (value : UInt32) (flags : Flags) : Option UInt8 × Nat :=
  if flags.UNSIGNED then (none, value.toNat)
  else if long value < 0 then (some 45, (-value).toNat)
  else if flags.PLUS then (some 43, value.toNat)
  else if flags.SPACE then (some 32, value.toNat)
  else (none, value.toNat)

def fmtint (value : UInt32) (base : Nat) (min max : Int) (flags : Flags) : List UInt8 :=
  let max := if max < 0 then 0 else max
  let (sign, uvalue) := signvalue value flags
  let digits := convert flags.UP base 20 uvalue
  let digits := if digits.length = 20 then digits.take 19 else digits
  let place : Int := digits.length
  let zpadlen := wrap (max - place)
  let spadlen := wrap (wrap (min - if max ≥ place then max else place) - sign.toList.length)
  let zpadlen := if zpadlen < 0 then 0 else zpadlen
  let spadlen := if spadlen < 0 then 0 else spadlen
  let (zpadlen, spadlen) :=
    if flags.ZERO then (if zpadlen ≥ spadlen then zpadlen else spadlen, 0) else (zpadlen, spadlen)
  let spadlen := if flags.MINUS then -spadlen else spadlen
  List.replicate spadlen.toNat 32 ++ sign.toList ++ List.replicate zpadlen.toNat 48 ++
    digits.reverse ++
    List.replicate (-spadlen).toNat 32

/-- The variables of `dopr`. -/
structure Dopr where
  state : Phase
  ch : UInt8
  /-- the memory from `format` on -/
  format : List UInt8
  flags : Flags
  cflags : Option Modifier
  min : Int
  max : Int
  args : List UInt32
  /-- what was put into the stream -/
  out : List UInt8
  /-- what `%n` has stored: the address, the kind of number and the number -/
  stores : List (UInt32 × Option Modifier × Int)

namespace Dopr

variable (d : Dopr)

/-- `ch = *format++` -/
def next : Dopr :=
  match d.format with
  | [] => { d with ch := 0 }
  | c :: format => { d with ch := c, format := format }

def currlen : Int := wrap d.out.length

/-- `ch - '0'` where `K::isdigit(ch)` -/
def digit? : Option Int := if 48 ≤ d.ch ∧ d.ch ≤ 57 then some (d.ch.toNat - 48) else none

/-- `va_arg` -/
def arg : Option (UInt32 × Dopr) :=
  match d.args with
  | [] => none
  | a :: args => some (a, { d with args := args })

def put (l : List UInt8) : Dopr := { d with out := d.out ++ l }

/-- The conversions to numbers. -/
def printInt (base : Nat) (flags : Flags) : Option Dopr := do
  let (value, d) ← d.arg
  some (d.put (fmtint value base d.min d.max flags))

/-- The `switch` of `DP_S_CONV`. -/
def conv (str : UInt32 → List UInt8) (maxlen : Int) : Option Dopr :=
  match Char.ofNat d.ch.toNat with
  | 'd' | 'i' => d.printInt 10 d.flags
  | 'o' => d.printInt 8 { d.flags with UNSIGNED := true }
  | 'u' => d.printInt 10 { d.flags with UNSIGNED := true }
  | 'X' => d.printInt 16 { d.flags with UP := true, UNSIGNED := true }
  | 'x' => d.printInt 16 { d.flags with UNSIGNED := true }
  | 'f' | 'E' | 'e' | 'G' | 'g' => none
  | 'c' => do
    let (a, d) ← d.arg
    some (d.put [a.toUInt8])
  | 's' => do
    let (a, d) ← d.arg
    let max := if d.max < 0 then maxlen else d.max
    some (d.put (fmtstr (if a = 0 then none else some (str a)) d.flags d.min max))
  | 'p' => d.printInt 16 d.flags
  | 'n' => do
    let (a, d) ← d.arg
    some { d with stores := d.stores ++ [(a, d.cflags, d.currlen)] }
  | '%' => some (d.put [d.ch])
  | 'w' => some d.next
  | _ => some d

/-- `switch(state)` -/
def switch (str : UInt32 → List UInt8) (maxlen : Int) : Option Dopr :=
  match d.state with
  | .DEFAULT => some (if d.ch = 37 then { d with state := .FLAGS } else d.put [d.ch]).next
  | .FLAGS =>
    match Char.ofNat d.ch.toNat with
    | '-' => some { d with flags.MINUS := true }.next
    | '+' => some { d with flags.PLUS := true }.next
    | ' ' => some { d with flags.SPACE := true }.next
    | '#' => some { d with flags.NUM := true }.next
    | '0' => some { d with flags.ZERO := true }.next
    | _ => some { d with state := .MIN }
  | .MIN =>
    match d.digit? with
    | some n => some { d with min := wrap (10 * d.min + n) }.next
    | none =>
      if d.ch = 42 then do
        let (a, d) ← d.arg
        some { d with min := long a, state := .DOT }.next
      else some { d with state := .DOT }
  | .DOT => some (if d.ch = 46 then { d with state := .MAX }.next else { d with state := .MOD })
  | .MAX =>
    match d.digit? with
    | some n => some { d with max := wrap (10 * (if d.max < 0 then 0 else d.max) + n) }.next
    | none =>
      if d.ch = 42 then do
        let (a, d) ← d.arg
        some { d with max := long a, state := .MOD }.next
      else some { d with state := .MOD }
  | .MOD =>
    match Char.ofNat d.ch.toNat with
    | 'h' => some { d with cflags := some .SHORT, state := .CONV }.next
    | 'l' => some { d with cflags := some .LONG, state := .CONV }.next
    | 'L' => some { d with cflags := some .LDOUBLE, state := .CONV }.next
    | _ => some { d with state := .CONV }
  | .CONV => do
    let d ← d.conv str maxlen
    some { d.next with state := .DEFAULT, flags := .none, cflags := none, min := 0, max := -1 }
  | .DONE => some d

/-- One turn of the loop. -/
def step (str : UInt32 → List UInt8) (maxlen : Int) : Option Dopr :=
  if d.ch = 0 ∨ d.currlen ≥ maxlen then some { d with state := .DONE } else d.switch str maxlen

/-- The loop, for at most `fuel` turns. -/
def loop (str : UInt32 → List UInt8) (maxlen : Int) : Nat → Dopr → Option Dopr
  | 0, _ => none
  | fuel + 1, d =>
    if d.state = .DONE then some d else (d.step str maxlen).bind (loop str maxlen fuel)

end Dopr

/-- `dopr` at the start of its loop. -/
def start (format : List UInt8) (args : List UInt32) : Dopr :=
  Dopr.next {
    state := .DEFAULT
    ch := 0
    format := format
    flags := .none
    cflags := none
    min := 0
    max := -1
    args := args
    out := []
    stores := [] }

/-- `K::vsnprintf`: what it puts into the stream. -/
def vsnprintf (fuel : Nat) (str : UInt32 → List UInt8) (maxlen : Int) (format : List UInt8)
    (args : List UInt32) :
    Option (List UInt8) := ((start format args).loop str maxlen fuel).map (·.out)

end K439.Print
