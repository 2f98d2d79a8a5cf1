import Mathlib.Algebra.Group.Nat.Defs
import Mathlib.Data.List.Basic
import Mathlib.Logic.Function.Basic
import Mathlib.Tactic.Common

/-!
# Fields scattered over the bits of a record of words

A `Slice` says that the bits `right` to `left` of one word hold the bits of a value from `shift` on.
A field is a list of slices: `put` stores a value slice by slice and `get` collects it again.

Everything is decided bit by bit. A `Lawful` field, whose slices do not meet and carry the bits
below `n` of the value, reads back what was put into it (`get_put`); fields without a common bit do
not see each other (`get_put_of_apart`), and the order of two puts does not matter (`put_comm`).

The words are indexed by an arbitrary type and have an arbitrary width.
-/

namespace K439

namespace BitField

variable {w : Nat}

/-- The bits `right` to `left`. -/
def mask (w left right : Nat) : BitVec w := (((1 : BitVec w) <<< (left - right + 1)) - 1) <<< right

/-- `p` with the low bits of `v` at the bits `right` to `left`. -/
def insert (p v : BitVec w) (left right : Nat) : BitVec w :=
  (p &&& ~~~mask w left right) ||| ((v <<< right) &&& mask w left right)

/-- The bits `right` to `left` of `v`, moved to the right end. -/
def extract (v : BitVec w) (left right : Nat) : BitVec w := (v &&& mask w left right) >>> right

section
variable {left right i j n : Nat} {p v : BitVec w}

theorem toNat_ones (hn : n ≤ w) : (((1 : BitVec w) <<< n) - 1).toNat = 2 ^ n - 1 := by
  have hpos : 0 < 2 ^ n := Nat.two_pow_pos n
  rcases Nat.eq_or_lt_of_le hn with rfl | hlt
  · rw [BitVec.shiftLeft_eq_zero (Nat.le_refl n), BitVec.zero_sub]
    exact (congrArg BitVec.toNat BitVec.neg_one_eq_allOnes).trans BitVec.toNat_allOnes
  · have hpow : 2 ^ n < 2 ^ w := Nat.pow_lt_pow_right Nat.one_lt_two hlt
    have hone : 1 % 2 ^ w = 1 := Nat.mod_eq_of_lt (Nat.lt_of_le_of_lt hpos hpow)
    rw [BitVec.toNat_sub_of_le]
    · simp [hone, Nat.shiftLeft_eq, Nat.mod_eq_of_lt hpow]
    · simpa [BitVec.le_def, hone, Nat.shiftLeft_eq, Nat.mod_eq_of_lt hpow] using Nat.succ_le_of_lt
        hpos

theorem getLsbD_mask (h : right ≤ left) (hl : left < w) :
    (mask w left right).getLsbD i = (decide (right ≤ i) && decide (i ≤ left)) := by
  rw [mask, BitVec.getLsbD_shiftLeft, ← BitVec.testBit_toNat, toNat_ones (by omega),
    Nat.testBit_two_pow_sub_one]
  by_cases hr : right ≤ i <;> by_cases hi : i ≤ left <;> simp [hr, hi] <;> omega

theorem getLsbD_insert (h : right ≤ left) (hl : left < w) :
    (insert p v left right).getLsbD i = if right ≤ i ∧ i ≤ left then v.getLsbD (i - right)
    else p.getLsbD i := by
  rw [insert, BitVec.getLsbD_or, BitVec.getLsbD_and, BitVec.getLsbD_not, BitVec.getLsbD_and,
    BitVec.getLsbD_shiftLeft, getLsbD_mask h hl]
  by_cases hi : i < w
  · by_cases hr : right ≤ i <;> by_cases hl : i ≤ left <;> simp [hi, hr, hl]
  · have hil : ¬i ≤ left := fun hil => hi (Nat.lt_of_le_of_lt hil hl)
    simp [hi, hil, BitVec.getLsbD_of_ge p i (Nat.le_of_not_lt hi)]

theorem getLsbD_extract (h : right ≤ left) (hl : left < w) :
    (extract v left right).getLsbD j = (decide (j ≤ left - right) && v.getLsbD (right + j)) := by
  rw [extract, BitVec.getLsbD_ushiftRight, BitVec.getLsbD_and, getLsbD_mask h hl, Bool.and_comm]
  simp [Nat.le_sub_iff_add_le' h]

/-- A range of bits is read in two parts. -/
theorem extract_split {m : Nat} (hr : right < m) (hm : m ≤ left) (hl : left < w) :
    extract v left right = extract v left m <<< (m - right) ||| extract v (m - 1) right := by
  refine BitVec.eq_of_getLsbD_eq fun j hj => ?_
  rw [BitVec.getLsbD_or, BitVec.getLsbD_shiftLeft,
    getLsbD_extract (Nat.le_trans (Nat.le_of_lt hr) hm) hl, getLsbD_extract hm hl,
    getLsbD_extract (Nat.le_sub_one_of_lt hr)
      (Nat.lt_of_le_of_lt (Nat.sub_le ..) (Nat.lt_of_le_of_lt hm hl))]
  by_cases hlt : j < m - right
  · have h₁ : j ≤ left - right := by omega
    have h₂ : j ≤ m - 1 - right := by omega
    simp [hlt, h₁, h₂]
  · have h₁ : ¬j ≤ m - 1 - right := by omega
    have h₂ : j - (m - right) ≤ left - m ↔ j ≤ left - right := by omega
    have h₃ : m + (j - (m - right)) = right + j := by omega
    simp [hlt, hj, h₁, h₂, h₃]

end

/-- The bits `right` to `left` of a word hold the bits of a value from `shift` on. -/
structure Slice (ι : Type _) where
  word : ι
  left : Nat
  right : Nat
  shift : Nat

variable {ι : Type _}

namespace Slice

/-- The bit `i` of the word `k` is in the slice. -/
def Has (s : Slice ι) (k : ι) (i : Nat) : Prop := s.word = k ∧ s.right ≤ i ∧ i ≤ s.left

/-- The slice carries the bit `j` of the value. -/
def Carries (s : Slice ι) (j : Nat) : Prop := s.shift ≤ j ∧ j ≤ s.shift + (s.left - s.right)

def Apart (s t : Slice ι) : Prop := s.word = t.word → s.left < t.right ∨ t.left < s.right

def Inside (w : Nat) (s : Slice ι) : Prop := s.right ≤ s.left ∧ s.left < w

instance [DecidableEq ι] (s : Slice ι) (k : ι) (i : Nat) : Decidable (s.Has k i) :=
  inferInstanceAs (Decidable (_ ∧ _))
instance (s : Slice ι) (j : Nat) : Decidable (s.Carries j) := inferInstanceAs (Decidable (_ ∧ _))
instance [DecidableEq ι] (s t : Slice ι) : Decidable (s.Apart t) :=
  inferInstanceAs (Decidable (_ → _))
instance (s : Slice ι) : Decidable (s.Inside w) := inferInstanceAs (Decidable (_ ∧ _))

theorem Apart.symm {s t : Slice ι} (h : s.Apart t) : t.Apart s := fun he => (h he.symm).symm

theorem Apart.not_has {s t : Slice ι} {k : ι} {i : Nat} (h : s.Apart t) (hs : s.Has k i) :
    ¬t.Has k i := by
  intro ht
  rcases h (hs.1.trans ht.1.symm) with hlt | hlt
  · exact Nat.lt_irrefl _ (Nat.lt_of_lt_of_le hlt (Nat.le_trans ht.2.1 hs.2.2))
  · exact Nat.lt_irrefl _ (Nat.lt_of_lt_of_le hlt (Nat.le_trans hs.2.1 ht.2.2))

theorem Carries.has {s : Slice ι} {j : Nat} (hc : s.Carries j) (h : s.Inside w) :
    s.Has s.word (s.right + (j - s.shift)) := by
  have hle : j - s.shift ≤ s.left - s.right := Nat.sub_le_iff_le_add'.mpr hc.2
  exact ⟨rfl, Nat.le_add_right .., (Nat.le_sub_iff_add_le' h.1).mp hle⟩

end Slice

section
variable [DecidableEq ι]

/-- The low bits of `v >> shift` are stored in the slice. -/
def putSlice (v : BitVec w) (d : ι → BitVec w) (s : Slice ι) : ι → BitVec w :=
  Function.update d s.word (insert (d s.word) (v >>> s.shift) s.left s.right)

def put (f : List (Slice ι)) (d : ι → BitVec w) (v : BitVec w) : ι → BitVec w :=
  f.foldl (putSlice v) d

end

def get (f : List (Slice ι)) (d : ι → BitVec w) : BitVec w :=
  f.foldr (fun s x => extract (d s.word) s.left s.right <<< s.shift ||| x) 0

/-- The slices do not meet, and they carry exactly the bits below `n`. -/
structure Lawful (w : Nat) (f : List (Slice ι)) (n : Nat) : Prop where
  inside : ∀ s ∈ f, s.Inside w
  apart : f.Pairwise Slice.Apart
  below : ∀ s ∈ f, s.shift + (s.left - s.right) < n
  covers : ∀ j < n, ∃ s ∈ f, s.Carries j
  fits : n ≤ w

/-- The fields have no bit in common. -/
def Apart (f g : List (Slice ι)) : Prop := ∀ s ∈ f, ∀ t ∈ g, s.Apart t

instance [DecidableEq ι] (f g : List (Slice ι)) : Decidable (Apart f g) :=
  inferInstanceAs (Decidable (∀ _ ∈ _, ∀ _ ∈ _, _))

theorem Apart.symm {f g : List (Slice ι)} (h : Apart f g) : Apart g f :=
  fun s hs t ht => (h t ht s hs).symm

variable {f g : List (Slice ι)} {d : ι → BitVec w} {v u : BitVec w} {k : ι} {i j n : Nat}

section
variable [DecidableEq ι]

theorem getLsbD_putSlice {s : Slice ι} (h : s.Inside w) : (putSlice v d s k).getLsbD i =
    if s.Has k i then v.getLsbD (s.shift + (i - s.right)) else (d k).getLsbD i := by
  rw [putSlice, Function.update_apply]
  split
  next hk =>
    subst hk
    rw [getLsbD_insert h.1 h.2]
    simp only [BitVec.getLsbD_ushiftRight, Slice.Has, true_and]
  next hk => rw [if_neg fun hs => hk hs.1.symm]

/-- A bit outside of the field is left. -/
theorem getLsbD_put_of_not (hf : ∀ s ∈ f, s.Inside w) (h : ∀ s ∈ f, ¬s.Has k i) :
    (put f d v k).getLsbD i = (d k).getLsbD i := by
  induction f generalizing d with
  | nil => rfl
  | cons s f ih =>
    obtain ⟨hs, hf⟩ := List.forall_mem_cons.mp hf
    obtain ⟨hn, h⟩ := List.forall_mem_cons.mp h
    refine (ih hf h).trans ?_
    rw [getLsbD_putSlice hs, if_neg hn]

/-- A bit of a slice is the bit of the value that the slice carries there. -/
theorem getLsbD_put {s : Slice ι} (hf : ∀ s ∈ f, s.Inside w) (ha : f.Pairwise Slice.Apart)
    (hs : s ∈ f) (h : s.Has k i) :
    (put f d v k).getLsbD i = v.getLsbD (s.shift + (i - s.right)) := by
  induction f generalizing d with
  | nil => exact absurd hs List.not_mem_nil
  | cons t f ih =>
    obtain ⟨hin, hf'⟩ := List.forall_mem_cons.mp hf
    obtain ⟨hn, ha'⟩ := List.pairwise_cons.mp ha
    rcases List.mem_cons.mp hs with rfl | hs
    · have hput : put (s :: f) d v = put f (putSlice v d s) v := rfl
      rw [hput, getLsbD_put_of_not hf' fun t ht => (hn t ht).not_has h,
        getLsbD_putSlice hin, if_pos h]
    · exact ih hf' ha' hs

end

theorem getLsbD_getSlice {s : Slice ι} (h : s.Inside w) :
    (extract (d s.word) s.left s.right <<< s.shift).getLsbD j = true ↔
    j < w ∧ s.Carries j ∧ (d s.word).getLsbD (s.right + (j - s.shift)) = true := by
  rw [BitVec.getLsbD_shiftLeft, getLsbD_extract h.1 h.2]
  simp only [Bool.and_eq_true, decide_eq_true_eq, Bool.not_eq_true', decide_eq_false_iff_not,
    Nat.not_lt, and_assoc, Slice.Carries]
  refine and_congr_right fun _ => and_congr_right fun hj => and_congr_left fun _ => ?_
  exact Nat.sub_le_iff_le_add'

/-- The bit `j` of a field is in a slice that carries it. -/
theorem getLsbD_get (hf : ∀ s ∈ f, s.Inside w) : (get f d).getLsbD j = true ↔
    j < w ∧ ∃ s ∈ f, s.Carries j ∧ (d s.word).getLsbD (s.right + (j - s.shift)) = true := by
  induction f with
  | nil => simp [get]
  | cons s f ih =>
    obtain ⟨hs, hf⟩ := List.forall_mem_cons.mp hf
    have hget : get (s :: f) d = extract (d s.word) s.left s.right <<< s.shift ||| get f d := rfl
    rw [hget, BitVec.getLsbD_or, Bool.or_eq_true, ih hf, getLsbD_getSlice hs,
      List.exists_mem_cons_iff, and_or_left]

variable [DecidableEq ι]

/-- A field reads back the low `n` bits of what was put into it. -/
theorem get_put (L : Lawful w f n) : get f (put f d v) = (v.setWidth n).setWidth w := by
  refine BitVec.eq_of_getLsbD_eq fun j hj => Bool.eq_iff_iff.mpr ?_
  rw [getLsbD_get L.inside, BitVec.getLsbD_setWidth, BitVec.getLsbD_setWidth]
  simp only [hj, decide_true, true_and, Bool.true_and, Bool.and_eq_true, decide_eq_true_eq]
  have hbit : ∀ s ∈ f, s.Carries j →
      (put f d v s.word).getLsbD (s.right + (j - s.shift)) = v.getLsbD j := by
    intro s hs hc
    rw [getLsbD_put L.inside L.apart hs (hc.has (L.inside s hs)), Nat.add_sub_cancel_left,
      Nat.add_sub_cancel' hc.1]
  constructor
  · rintro ⟨s, hs, hc, h⟩
    exact ⟨Nat.lt_of_le_of_lt hc.2 (L.below s hs), hbit s hs hc ▸ h⟩
  · rintro ⟨hn, h⟩
    obtain ⟨s, hs, hc⟩ := L.covers j hn
    exact ⟨s, hs, hc, (hbit s hs hc).trans h⟩

theorem get_put_of_lt (L : Lawful w f n) (hv : v.toNat < 2 ^ n) : get f (put f d v) = v := by
  rw [get_put L]
  refine BitVec.eq_of_toNat_eq ?_
  rw [BitVec.toNat_setWidth, BitVec.toNat_setWidth, Nat.mod_eq_of_lt hv, Nat.mod_eq_of_lt v.isLt]

/-- A field does not see what is put into the others. -/
theorem get_put_of_apart (hf : ∀ s ∈ f, s.Inside w) (hg : ∀ s ∈ g, s.Inside w)
    (h : Apart f g) : get f (put g d v) = get f d := by
  refine BitVec.eq_of_getLsbD_eq fun j hj => Bool.eq_iff_iff.mpr ?_
  rw [getLsbD_get hf, getLsbD_get hf]
  refine and_congr_right fun _ => exists_congr fun s => and_congr_right fun hs =>
    and_congr_right fun hc => ?_
  rw [getLsbD_put_of_not hg fun t ht => (h s hs t ht).not_has (hc.has (hf s hs))]

/-- The order of two fields without a common bit does not matter. -/
theorem put_comm (hf : ∀ s ∈ f, s.Inside w) (hg : ∀ s ∈ g, s.Inside w)
    (ha : f.Pairwise Slice.Apart) (hb : g.Pairwise Slice.Apart) (h : Apart f g) :
    put f (put g d u) v = put g (put f d v) u := by
  funext k
  refine BitVec.eq_of_getLsbD_eq fun i _ => ?_
  by_cases hs : ∃ s ∈ f, s.Has k i
  · obtain ⟨s, hs, hi⟩ := hs
    have hn := fun t ht => (h s hs t ht).not_has hi
    rw [getLsbD_put hf ha hs hi, getLsbD_put_of_not hg hn, getLsbD_put hf ha hs hi]
  · have hs : ∀ s ∈ f, ¬s.Has k i := fun s hs' hi => hs ⟨s, hs', hi⟩
    rw [getLsbD_put_of_not hf hs]
    by_cases ht : ∃ t ∈ g, t.Has k i
    · obtain ⟨t, ht, hi⟩ := ht
      rw [getLsbD_put hg hb ht hi, getLsbD_put hg hb ht hi]
    · have ht : ∀ t ∈ g, ¬t.Has k i := fun t ht' hi => ht ⟨t, ht', hi⟩
      rw [getLsbD_put_of_not hg ht, getLsbD_put_of_not hg ht, getLsbD_put_of_not hf hs]

end BitField
end K439
