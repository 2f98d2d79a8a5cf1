import Mathlib.Tactic.Ring
import K439.Vmm.Basic

/-!
# Addresses of frames and entries of tables

The bit operations of `vmm.cc` as arithmetic: `frame` rounds down to a page, the flags of an entry
do not touch its frame, and `vaOf` is inverse to the two indices.
-/

namespace K439.Vmm

theorem and_mask (x : Nat) : x &&& 0xfffff000 = x / 2 ^ 12 % 2 ^ 20 * 2 ^ 12 := by
  apply Nat.eq_of_testBit_eq
  intro i
  rw [show 0xfffff000 = (2 ^ 20 - 1) * 2 ^ 12 from rfl, Nat.testBit_and, Nat.testBit_mul_two_pow,
    Nat.testBit_two_pow_sub_one, Nat.testBit_mul_two_pow, Nat.testBit_mod_two_pow,
    Nat.testBit_div_two_pow]
  by_cases h : 12 ≤ i
  · rw [Nat.sub_add_cancel h]
    simp [h, Bool.and_comm]
  · simp [h]

theorem frame_toNat (e : UInt32) : (frame e).toNat = e.toNat / 4096 * 4096 := by
  have he := e.toNat_lt
  rw [frame, UInt32.toNat_and]
  rw [show (0xfffff000 : UInt32).toNat = 0xfffff000 from rfl, and_mask]
  omega

/-- The address of a frame. -/
def Aligned (p : UInt32) : Prop := p.toNat % 4096 = 0

instance (p : UInt32) : Decidable (Aligned p) := inferInstanceAs (Decidable (_ = _))

theorem Aligned.frame {p : UInt32} (h : Aligned p) : frame p = p := by
  apply UInt32.toNat_inj.mp
  rw [frame_toNat]; unfold Aligned at h; omega

theorem frame_or {p f : UInt32} (h : Aligned p) (hf : f < 0x1000) : Vmm.frame (p ||| f) = p := by
  apply UInt32.toNat_inj.mp
  unfold Aligned at h
  have hf : f.toNat < 2 ^ 12 := hf
  have hp : p.toNat = (p.toNat / 2 ^ 12) <<< 12 := by rw [Nat.shiftLeft_eq]; omega
  rw [frame_toNat, UInt32.toNat_or, hp, ← Nat.shiftLeft_add_eq_or_of_lt hf, Nat.shiftLeft_eq]
  omega

theorem present_or (e f : UInt32) (hf : Present f) : Present (e ||| f) := by
  unfold Present at *
  have : (e ||| f) &&& P = (e &&& P) ||| (f &&& P) := by
    apply UInt32.toBitVec_inj.mp
    simp [BitVec.and_or_distrib_right]
  intro h
  rw [this, UInt32.or_eq_zero_iff] at h
  exact hf h.2

theorem index0_toNat (va : UInt32) : index0 va = va.toNat / 2 ^ 22 := by
  have := va.toNat_lt
  rw [index0, UInt32.toNat_and, show (0x3ff : UInt32).toNat = 2 ^ 10 - 1 from rfl,
    Nat.and_two_pow_sub_one_eq_mod, UInt32.toNat_shiftRight, Nat.shiftRight_eq_div_pow]
  simp
  omega

theorem index1_toNat (va : UInt32) : index1 va = va.toNat / 2 ^ 12 % 2 ^ 10 := by
  have := va.toNat_lt
  rw [index1, UInt32.toNat_and, show (0x3ff : UInt32).toNat = 2 ^ 10 - 1 from rfl,
    Nat.and_two_pow_sub_one_eq_mod, UInt32.toNat_shiftRight, Nat.shiftRight_eq_div_pow]
  simp

theorem vaOf_toNat {i0 i1 : Nat} (h0 : i0 < 1024) (h1 : i1 < 1024) :
    (AddressSpace.vaOf i0 i1).toNat = i0 * 2 ^ 22 + i1 * 2 ^ 12 := by
  have e0 : (i0.toUInt32 <<< 22).toNat = i0 <<< 22 := by
    rw [UInt32.toNat_shiftLeft]
    simp [Nat.shiftLeft_eq]
    omega
  have e1 : (i1.toUInt32 <<< 12).toNat = i1 * 2 ^ 12 := by
    rw [UInt32.toNat_shiftLeft]
    simp [Nat.shiftLeft_eq]
    omega
  rw [AddressSpace.vaOf, UInt32.toNat_or, e0, e1, ← Nat.shiftLeft_add_eq_or_of_lt (by omega),
    Nat.shiftLeft_eq]

/-- A present entry for the frame `f`. -/
def Entry (e f : UInt32) : Prop := Present e ∧ frame e = f

theorem Entry.unique {e f f' : UInt32} (h : Entry e f) (h' : Entry e f') : f = f' :=
  h.2.symm.trans h'.2

theorem not_entry_zero (f : UInt32) : ¬Entry 0 f := fun h => h.1 (by simp)

/-- What `getPTE` stores in a directory. -/
theorem entry_table {p : UInt32} (h : Aligned p) : Entry (p ||| 7) p :=
  ⟨present_or p 7 (by decide), frame_or h (by decide)⟩

/-- What `pmap` stores in a table. -/
theorem entry_page {p : UInt32} (h : Aligned p) (forUser forWrite : Bool) :
    Entry (frame p ||| (if forUser then U else 0) ||| (if forWrite then W else 0) ||| 1) p := by
  rw [h.frame, UInt32.or_assoc, UInt32.or_assoc]
  constructor
  · apply present_or
    cases forUser <;> cases forWrite <;> decide
  · apply frame_or h
    cases forUser <;> cases forWrite <;> decide

end K439.Vmm
