import K439.Print.Format
import Mathlib.Algebra.Group.Nat.Defs

/-!
# Printed numbers

`fmtint` prints a number so that it can be read again: `strtol` skips blanks and takes a sign and
digits. The text fills the width.
-/

namespace K439.Print

/-- The value of a character that is a digit in some base. -/
def digitValue (c : UInt8) : Option Nat :=
  if 48 ≤ c ∧ c ≤ 57 then some (c.toNat - 48)
  else if 65 ≤ c ∧ c ≤ 70 then some (c.toNat - 55)
  else if 97 ≤ c ∧ c ≤ 102 then some (c.toNat - 87)
  else none

/-- The digits at the head of a text, as a number on top of `n`. -/
def readDigits (base : Nat) : List UInt8 → Nat → Nat
  | [], n => n
  | c :: l, n =>
    match digitValue c with
    | some d => readDigits base l (base * n + d)
    | none => n

/-- A number at the head of a text. -/
def strtol (base : Nat) : List UInt8 → Int
  | [] => 0
  | c :: l =>
    if c = 32 then strtol base l
    else if c = 45 then -readDigits base l 0
    else if c = 43 then readDigits base l 0
    else readDigits base (c :: l) 0

variable {base n d places : Nat} {caps : Bool} {l l' : List UInt8} {c : UInt8} {value : UInt32}
  {min max : Int}
  {flags : Flags}

theorem digit_toNat (h : d < 16) : (digit caps d).toNat = if d < 10 then 48 + d
    else if caps then 55 + d else 87 + d := by
  unfold digit
  split
  · exact UInt8.toNat_ofNat_of_lt (show 48 + d < 256 by omega)
  · split
    · exact UInt8.toNat_ofNat_of_lt (show 55 + d < 256 by omega)
    · exact UInt8.toNat_ofNat_of_lt (show 87 + d < 256 by omega)

theorem digitValue_digit (h : d < 16) : digitValue (digit caps d) = some d := by
  have hd : (digit caps d).toNat = _ := digit_toNat h
  unfold digitValue
  simp only [UInt8.le_iff_toNat_le, hd, show (48 : UInt8).toNat = 48 from rfl,
    show (57 : UInt8).toNat = 57 from rfl,
    show (65 : UInt8).toNat = 65 from rfl, show (70 : UInt8).toNat = 70 from rfl,
      show (97 : UInt8).toNat = 97 from rfl,
    show (102 : UInt8).toNat = 102 from rfl]
  by_cases h10 : d < 10
  · rw [if_pos h10, if_pos (by omega)]
    congr 1
    omega
  · rw [if_neg h10]
    cases caps with
    | true =>
      rw [if_pos rfl, if_neg (by omega), if_pos (by omega)]
      congr 1
      omega
    | false =>
      rw [if_neg Bool.false_ne_true, if_neg (by omega), if_neg (by omega), if_pos (by omega)]
      congr 1
      omega

/-- All the characters are digits. -/
def Digits (l : List UInt8) : Prop := ∀ c ∈ l, (digitValue c).isSome

theorem readDigits_append (h : Digits l) :
    readDigits base (l ++ l') n = readDigits base l' (readDigits base l n) := by
  induction l generalizing n with
  | nil => rfl
  | cons c l ih =>
    obtain ⟨d, hd⟩ := Option.isSome_iff_exists.mp (h c List.mem_cons_self)
    rw [List.cons_append, readDigits, readDigits, hd]
    exact ih fun x hx => h x (List.mem_cons_of_mem _ hx)

theorem convert_digits (hb : 0 < base) (hb' : base ≤ 16) :
    Digits (convert caps base places n) := by
  induction places generalizing n with
  | zero => exact nofun
  | succ places ih =>
    intro c hc
    rw [convert] at hc
    rcases List.mem_cons.mp hc with rfl | hc
    · rw [digitValue_digit (Nat.lt_of_lt_of_le (Nat.mod_lt n hb) hb')]
      rfl
    · split at hc
      · cases hc
      · exact ih c hc

/-- The digits, highest first, read the number. -/
theorem readDigits_convert (hb : 1 < base) (hb' : base ≤ 16) (h : n < base ^ places) :
    readDigits base (convert caps base places n).reverse 0 = n := by
  induction places generalizing n with
  | zero =>
    rw [pow_zero, Nat.lt_one_iff] at h
    rw [h]
    rfl
  | succ places ih =>
    have hmod : n % base < 16 := Nat.lt_of_lt_of_le (Nat.mod_lt n (Nat.zero_lt_of_lt hb)) hb'
    have hlast (k : Nat) : readDigits base [digit caps (n % base)] k = base * k + n % base := by
      rw [readDigits, digitValue_digit hmod]
      rfl
    rw [convert, List.reverse_cons]
    split
    next h0 =>
      rw [List.reverse_nil, List.nil_append, hlast, Nat.mul_zero, Nat.zero_add]
      exact Nat.mod_eq_of_lt ((Nat.div_eq_zero_iff_lt (Nat.zero_lt_of_lt hb)).mp h0)
    · have hdiv : n / base < base ^ places :=
        Nat.div_lt_of_lt_mul (by rwa [pow_succ, Nat.mul_comm] at h)
      have hall : Digits (convert caps base places (n / base)).reverse := fun c hc =>
        convert_digits (Nat.zero_lt_of_lt hb) hb' c (List.mem_reverse.mp hc)
      rw [readDigits_append hall, ih hdiv, hlast]
      exact Nat.div_add_mod n base

theorem convert_length (h : n < base ^ (d + 1)) :
    (convert caps base places n).length ≤ d + 1 := by
  induction places generalizing n d with
  | zero => exact Nat.zero_le _
  | succ places ih =>
    rw [convert]
    split
    · exact Nat.succ_le_succ (Nat.zero_le d)
    next h0 =>
      have hdiv : n / base < base ^ d := Nat.div_lt_of_lt_mul (by rwa [pow_succ, Nat.mul_comm] at h)
      cases d with
      | zero =>
        rw [pow_zero, Nat.lt_one_iff] at hdiv
        exact (h0 hdiv).elim
      | succ d => exact Nat.succ_le_succ (ih hdiv)

theorem convert_ne_nil : convert caps base (places + 1) n ≠ [] := List.cons_ne_nil _ _

/-! ## The sign -/

/-- What `fmtint` prints: the signed or the unsigned value of a word. -/
def number (value : UInt32) (flags : Flags) : Int :=
  if flags.UNSIGNED then value.toNat else long value

theorem long_of_lt (h : value.toNat < 0x80000000) : long value = value.toNat :=
  wrap_of_range (by omega) (by omega)

theorem long_of_le (h : 0x80000000 ≤ value.toNat) :
    long value = (value.toNat : Int) - 0x100000000 := by
  have hlt := value.toNat_lt
  rw [long, wrap, Int.bmod_def]
  split
  · omega
  · omega

theorem signvalue_lt : (signvalue value flags).2 < 2 ^ 32 := by
  unfold signvalue
  split
  · exact value.toNat_lt
  · split
    · exact (-value).toNat_lt
    · split
      · exact value.toNat_lt
      · split
        · exact value.toNat_lt
        · exact value.toNat_lt

variable (value flags) in
/-- The sign and the digits make the number. -/
theorem signvalue_number :
    ((signvalue value flags).1 = some 45 ∧
      number value flags = -((signvalue value flags).2 : Int)) ∨
    (signvalue value flags).1 ∈ [none, some 43, some 32] ∧
    number value flags = (signvalue value flags).2 := by
  unfold signvalue number
  split
  next hu => exact .inr ⟨List.mem_cons_self, rfl⟩
  next hu =>
    split
    next hneg =>
      refine .inl ⟨rfl, ?_⟩
      have hlt := value.toNat_lt
      have hle : 0x80000000 ≤ value.toNat := by
        by_contra hc
        rw [long_of_lt (Nat.lt_of_not_le hc)] at hneg
        omega
      have hneg : (-value).toNat = 0x100000000 - value.toNat := by
        rw [UInt32.toNat_neg]
        exact Nat.mod_eq_of_lt (Nat.sub_lt (by decide) (Nat.lt_of_lt_of_le (by decide) hle))
      rw [long_of_le hle, hneg]
      omega
    next hpos =>
      have hl : long value = value.toNat := by
        refine long_of_lt (Nat.lt_of_not_le fun hc => hpos ?_)
        have hlt := value.toNat_lt
        rw [long_of_le hc]
        omega
      split
      · exact .inr ⟨List.mem_cons_of_mem _ List.mem_cons_self, hl⟩
      · split
        · exact .inr ⟨List.mem_cons_of_mem _ (List.mem_cons_of_mem _ List.mem_cons_self), hl⟩
        · exact .inr ⟨List.mem_cons_self, hl⟩

/-! ## The text -/

/-- The zeros and the blanks around a number of `n` digits with a sign of `s` characters. -/
def padding (flags : Flags) (min max : Int) (n s : Nat) : Nat × Nat :=
  let z := max.toNat - n
  let b := min.toNat - Max.max max.toNat n - s
  if flags.ZERO then (Max.max z b, 0) else (z, b)

/-- Blanks, the sign, zeros, the digits and blanks. -/
theorem fmtint_eq (hb : 8 ≤ base) (h0 : Max.max max 11 - 0x80000000 < min) (h1 : min < 0x80000000)
    (h2 : max < 0x80000000) :
    let ds := (convert flags.UP base 20 (signvalue value flags).2).reverse
    let sign := (signvalue value flags).1.toList
    let pad := padding flags min max ds.length sign.length
    fmtint value base min max flags =
      List.replicate (if flags.MINUS then 0 else pad.2) 32 ++ sign ++ List.replicate pad.1 48 ++
        ds ++
        List.replicate (if flags.MINUS then pad.2 else 0) 32 := by
  have hlen : (convert flags.UP base 20 (signvalue value flags).2).length ≤ 11 := by
    refine convert_length (Nat.lt_of_lt_of_le signvalue_lt ?_)
    exact Nat.le_trans (by decide : 2 ^ 32 ≤ 8 ^ 11) (Nat.pow_le_pow_left hb 11)
  have hsign : (signvalue value flags).1.toList.length ≤ 1 := by
    cases (signvalue value flags).1 with
    | none => exact Nat.zero_le _
    | some => exact Nat.le_refl _
  dsimp only
  unfold fmtint padding
  rw [List.length_reverse]
  generalize signvalue value flags = sv at hlen hsign ⊢
  obtain ⟨sign, u⟩ := sv
  dsimp only at hlen hsign ⊢
  generalize convert flags.UP base 20 u = ds at hlen ⊢
  rw [if_neg (show ¬ds.length = 20 by omega)]
  generalize ds.length = n at hlen ⊢
  generalize sign.toList.length = s at hsign ⊢
  have hmax : (if max < 0 then 0 else max) = (max.toNat : Int) := by
    split
    · omega
    · omega
  have hz : wrap ((max.toNat : Int) - n) = (max.toNat : Int) - n :=
    wrap_of_range (by omega) (by omega)
  have hwidth : (if (max.toNat : Int) ≥ n then (max.toNat : Int) else n) =
      (Max.max max.toNat n : Nat) := by
    split
    · omega
    · omega
  rw [hmax, hz, hwidth]
  -- a negative width is none
  have hs : wrap (wrap (min - (Max.max max.toNat n : Nat)) - s) =
      min - (Max.max max.toNat n : Nat) - s := by
    rw [wrap_of_range (x := min - (Max.max max.toNat n : Nat)) (by omega) (by omega)]
    exact wrap_of_range (by omega) (by omega)
  rw [hs]
  generalize hp : max.toNat = p
  have hzpad : (if (p : Int) - n < 0 then 0 else (p : Int) - n) = ((p - n : Nat) : Int) := by
    split
    · omega
    · omega
  have hspad : (if min - (Max.max p n : Nat) - s < 0 then 0 else min - (Max.max p n : Nat) - s) =
      ((min.toNat - Max.max p n - s : Nat) : Int) := by
    split
    · omega
    · omega
  rw [hzpad, hspad]
  generalize p - n = z
  generalize min.toNat - Max.max p n - s = b
  have hpair :
      (if flags.ZERO = true then ((if (z : Int) ≥ b then (z : Int) else b), (0 : Int)) else
      ((z : Int), (b : Int))) =
      ((((if flags.ZERO = true then (Max.max z b, 0) else (z, b)).1 : Nat) : Int),
        (((if flags.ZERO = true then (Max.max z b, 0) else (z, b)).2 : Nat) : Int)) := by
    split
    · congr 1
      split
      · omega
      · omega
    · rfl
  rw [hpair]
  generalize (if flags.ZERO = true then (Max.max z b, 0) else (z, b)) = pad
  obtain ⟨z, b⟩ := pad
  cases flags.MINUS with
  | true =>
    have hleft : (-(b : Int)).toNat = 0 := by omega
    have hright : (-(-(b : Int))).toNat = b := by omega
    simp only [if_true, hleft, hright, Int.toNat_natCast]
  | false =>
    have hright : (-(b : Int)).toNat = 0 := by omega
    simp only [Bool.false_eq_true, if_false, hright, Int.toNat_natCast]

variable (flags min max) in
/-- The text of a number: how long it is. -/
theorem padding_length {n s : Nat} (hz : flags.ZERO = false ∨ max.toNat ≤ n) :
    (padding flags min max n s).2 + s + (padding flags min max n s).1 + n =
    Max.max min.toNat (s + Max.max max.toNat n) := by
  unfold padding
  dsimp only
  split
  next hzero =>
    have hle := hz.resolve_left fun h => nomatch h.symm.trans hzero
    dsimp only
    omega
  · dsimp only
    omega

theorem strtol_blanks (k : Nat) : strtol base (List.replicate k 32 ++ l) = strtol base l := by
  induction k with
  | zero => rfl
  | succ k ih =>
    rw [List.replicate_succ, List.cons_append, strtol, if_pos rfl]
    exact ih

theorem digits_replicate (k : Nat) : Digits (List.replicate k 48) := by
  intro c hc
  rw [(List.mem_replicate.mp hc).2]
  rfl

theorem readDigits_zeros (k : Nat) :
    readDigits base (List.replicate k 48 ++ l) 0 = readDigits base l 0 := by
  induction k with
  | zero => rfl
  | succ k ih =>
    rw [List.replicate_succ, List.cons_append, readDigits, show digitValue 48 = some 0 from rfl]
    exact ih

theorem readDigits_blanks (k : Nat) : readDigits base (List.replicate k 32) n = n := by
  cases k with
  | zero => rfl
  | succ k => rfl

/-- A number without a sign starts with a digit. -/
theorem strtol_digits (h : Digits l) (hne : l ≠ []) :
    strtol base (l ++ l') = readDigits base (l ++ l') 0 := by
  cases l with
  | nil => exact (hne rfl).elim
  | cons c l =>
    have hc := h c List.mem_cons_self
    have hnot (x : UInt8) (hx : digitValue x = none) : c ≠ x := by
      rintro rfl
      rw [hx] at hc
      cases hc
    rw [List.cons_append, strtol, if_neg (hnot 32 rfl), if_neg (hnot 45 rfl), if_neg (hnot 43 rfl)]

/-- Zeros, digits and blanks. -/
theorem readDigits_text {z b : Nat} (h : Digits l) :
    readDigits base (List.replicate z 48 ++ (l ++ List.replicate b 32)) 0 =
    readDigits base l 0 := by
  rw [readDigits_zeros, readDigits_append h, readDigits_blanks]

theorem strtol_text {z b : Nat} (h : Digits l) (hne : l ≠ []) :
    strtol base (List.replicate z 48 ++ (l ++ List.replicate b 32)) = readDigits base l 0 := by
  have hall : Digits (List.replicate z 48 ++ l) := fun c hc =>
    (List.mem_append.mp hc).elim (digits_replicate z c) (h c)
  rw [← List.append_assoc, strtol_digits hall (List.append_ne_nil_of_right_ne_nil _ hne),
    List.append_assoc, readDigits_text h]

/-- **A printed number reads back.** In every base and with all flags, a width and a precision, what
`fmtint` prints is read as the number again; and it fills the width, unless zeros stand for blanks
next to a precision. A negative width is none, and does not put the number on the left; `spadlen`
must not overflow. -/
theorem fmtint_reads (hb : 8 ≤ base) (hb' : base ≤ 16) (h0 : Max.max max 11 - 0x80000000 < min)
    (h1 : min < 0x80000000) (h2 : max < 0x80000000) :
    strtol base (fmtint value base min max flags) = number value flags ∧
      (flags.ZERO = false ∨ max ≤ 1 → (fmtint value base min max flags).length =
        Max.max min.toNat ((signvalue value flags).1.toList.length + Max.max max.toNat
          (convert flags.UP base 20 (signvalue value flags).2).length)) := by
  have hds : Digits (convert flags.UP base 20 (signvalue value flags).2).reverse := fun c hc =>
    convert_digits (by omega) hb' c (List.mem_reverse.mp hc)
  have hne : (convert flags.UP base 20 (signvalue value flags).2).reverse ≠ [] :=
    fun h => convert_ne_nil (List.reverse_eq_nil_iff.mp h)
  have hread : readDigits base (convert flags.UP base 20 (signvalue value flags).2).reverse 0 =
      (signvalue value flags).2 := by
    refine readDigits_convert (by omega) hb' (Nat.lt_of_lt_of_le signvalue_lt ?_)
    exact Nat.le_trans (by decide : 2 ^ 32 ≤ 8 ^ 20) (Nat.pow_le_pow_left hb 20)
  have hlen := List.length_pos_iff.mpr hne
  rw [fmtint_eq hb h0 h1 h2]
  constructor
  · simp only [List.append_assoc, strtol_blanks]
    rcases signvalue_number value flags with ⟨hs, hn⟩ | ⟨hs, hn⟩
    · rw [hs, hn]
      refine (if_neg (by decide)).trans ((if_pos rfl).trans ?_)
      exact congrArg (fun k : Nat => -(k : Int)) ((readDigits_text hds).trans hread)
    · rw [hn]
      simp only [List.mem_cons, List.not_mem_nil, or_false] at hs
      rcases hs with hs | hs | hs
      · rw [hs]
        exact (strtol_text hds hne).trans (congrArg _ hread)
      · rw [hs]
        refine (if_neg (by decide)).trans ((if_neg (by decide)).trans ((if_pos rfl).trans ?_))
        exact congrArg (fun k : Nat => (k : Int)) ((readDigits_text hds).trans hread)
      · rw [hs]
        exact (strtol_text hds hne).trans (congrArg _ hread)
  · intro hz
    rw [List.length_reverse] at hlen
    have hpad := padding_length min max flags
      (n := (convert flags.UP base 20 (signvalue value flags).2).length)
        (s := (signvalue value flags).1.toList.length)
      (hz.imp_right fun h => by omega)
    simp only [List.length_append, List.length_replicate, List.length_reverse]
    rw [← hpad]
    split
    · omega
    · omega

/-- `-42` in eight characters, and with the width `-8`. -/
theorem fmtint_reads_negative : (strtol 10 (fmtint 0xffffffd6 10 8 (-1) .none) = -42 ∧
    (fmtint 0xffffffd6 10 8 (-1) .none).length = 8) ∧
    strtol 10 (fmtint 0xffffffd6 10 (-8) (-1) .none) = -42 ∧
    (fmtint 0xffffffd6 10 (-8) (-1) .none).length = 3 := by
  have hnum : number 0xffffffd6 .none = -42 := by decide
  obtain ⟨hread, hlen⟩ := @fmtint_reads 10 0xffffffd6 8 (-1) .none
    (by decide) (by decide) (by decide) (by decide) (by decide)
  obtain ⟨hread', hlen'⟩ := @fmtint_reads 10 0xffffffd6 (-8) (-1) .none
    (by decide) (by decide) (by decide) (by decide) (by decide)
  exact ⟨⟨hread.trans hnum, (hlen (.inl rfl)).trans (by decide)⟩,
    hread'.trans hnum, (hlen' (.inl rfl)).trans (by decide)⟩

end K439.Print
