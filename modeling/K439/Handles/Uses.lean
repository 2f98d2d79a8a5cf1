import K439.Handles.Kept

/-!
# Objects that are in use

An object with a count of zero that is not deleted stays for ever. The operations that drop
references leave none (`Lowered`), and those that take references lower no count (`Raised`).
-/

namespace K439.Handles

open Exit (ResourceType)

variable {E : Type} {s s' s'' : Objects} {place : E → Option Id} {others : Id → Nat}
  {r p f b : Id} {x : Resource}

/-- Of the objects that are left, no count is raised, and none gets to zero. -/
def Lowered (s s' : Objects) : Prop :=
  ∀ x, s'.Live x → s.Live x ∧ (s'.resources x).count ≤ (s.resources x).count ∧
  (0 < (s.resources x).count → 0 < (s'.resources x).count)

/-- Of the objects there were, no count is lowered. -/
def Raised (s s' : Objects) : Prop :=
  ∀ x < s.next, s'.Live x → s.Live x ∧ (s.resources x).count ≤ (s'.resources x).count

theorem Lowered.refl : Lowered s s := fun _ h => ⟨h, Nat.le_refl _, id⟩

theorem Lowered.trans (h₁ : Lowered s s') (h₂ : Lowered s' s'') : Lowered s s'' := by
  intro x hx
  obtain ⟨hx', hle', hpos'⟩ := h₂ x hx
  obtain ⟨hx₁, hle, hpos⟩ := h₁ x hx'
  exact ⟨hx₁, hle'.trans hle, fun h => hpos' (hpos h)⟩

theorem Raised.trans (h₁ : Raised s s') (hn : s.next ≤ s'.next) (h₂ : Raised s' s'') :
    Raised s s'' := by
  intro x hlt hx
  obtain ⟨hx', hle'⟩ := h₂ x (hlt.trans_le hn) hx
  obtain ⟨hx₁, hle⟩ := h₁ x hlt hx'
  exact ⟨hx₁, hle.trans hle'⟩

namespace Objects

theorem use_lowered (s : Objects) (r : Id) : Lowered s (s.use r) :=
  fun _ h => ⟨h, Nat.le_refl _, id⟩

theorem use_raised (s : Objects) (r : Id) : Raised s (s.use r) :=
  fun _ _ h => ⟨h, Nat.le_refl _⟩

theorem release_lowered (h0 : 0 < (s.resources r).count)
    (hlt : (s.resources r).count < 0x100000000) : Lowered s (s.release r).2 := by
  have hcount : ((s.resources r).count + 0xffffffff) % 0x100000000 = (s.resources r).count - 1 := by
    omega
  intro x hx
  rcases eq_or_ne x r with rfl | hne
  · rw [release] at hx ⊢
    split at hx
    next h1 =>
      exact absurd rfl (delete_live.mp hx).2
    next h1 =>
      rw [Live, setCount_resources] at hx
      rw [if_neg h1, setCount_resources, if_pos rfl, hcount]
      exact ⟨hx, Nat.sub_le _ _,
        fun _ => Nat.sub_pos_of_lt (Nat.lt_of_le_of_ne h0 (Ne.symm h1))⟩
  · rw [Live, release_same hne, release_next] at hx
    rw [release_same hne]
    exact ⟨hx, Nat.le_refl _, id⟩

/-- Every `OpenFile` has a reference. -/
theorem closeFile_lowered (hopen : ∀ b q, s.openFiles b = some q →
    0 < (s.resources q).count ∧ (s.resources q).count < 0x100000000) :
    Lowered s (s.closeFile p) := by
  rw [closeFile]
  dsimp only
  split
  · exact use_lowered s p
  next q hq =>
    exact (use_lowered s p).trans (release_lowered (s := s.use p) (hopen _ q hq).1 (hopen _ q hq).2)

theorem unref_next (s : Objects) (r : Option Id) : (s.unref r).next = s.next := by
  have hclose : ∀ s : Objects, ∀ p, (s.closeFile p).next = s.next := by
    intro s p
    rw [closeFile]
    dsimp only
    split
    · rfl
    · exact release_next
  cases r with
  | none => rfl
  | some r =>
    simp only [unref]
    split
    · rw [destructor]
      split
      · exact (hclose ..).trans release_next
      · exact release_next
    · exact release_next

theorem ref_raised (hlt : (s.resources r).count + 1 < 0x100000000) : Raised s (s.ref r) := by
  intro x _ hx
  rw [Live, ref_resources] at hx
  rw [ref_resources, Nat.mod_eq_of_lt hlt]
  refine ⟨hx, ?_⟩
  dsimp only
  split
  next h =>
    rw [h]
    exact Nat.le_succ _
  next => exact Nat.le_refl _

theorem make_raised (s : Objects) (x : Resource) : Raised s (s.make x).2 := by
  intro y hy hlive
  rw [Live, make_resources, if_neg (Nat.ne_of_lt hy)] at hlive
  rw [make_resources, if_neg (Nat.ne_of_lt hy)]
  exact ⟨⟨hy, hlive.2⟩, Nat.le_refl _⟩

theorem cloneFile_count (hf : s.Live f) :
    ((s.cloneFile f).2.resources s.next).count = (s.resources f).count := by
  rw [cloneFile_eq hf, setCount_resources]
  exact if_pos rfl

theorem cloneFile_raised (hf : s.Live f) : Raised s (s.cloneFile f).2 := by
  intro y hy hlive
  rw [Live, cloneFile_same hf hy] at hlive
  rw [cloneFile_same hf hy]
  exact ⟨⟨hy, hlive.2⟩, Nat.le_refl _⟩

theorem use_openFile : ((s.use r).openFile b).1 = (s.openFile b).1 := by
  rcases hb : s.openFiles b with _ | p
  · rw [openFile_none hb, openFile_none (s := s.use r) hb]
    rfl
  · rw [openFile_some hb, openFile_some (s := s.use r) hb]

/-- The `OpenFile` of a block has a reference after `openFile`. -/
theorem openFile_raised (hlt : (s.resources (s.openFile b).1).count + 1 < 0x100000000) :
    Raised s (s.openFile b).2 ∧ ∀ x, s.next ≤ x → (s.openFile b).2.Live x →
      0 < ((s.openFile b).2.resources x).count ∧
      ((s.openFile b).2.resources x).type = .OTHER := by
  rcases hb : s.openFiles b with _ | p
  · rw [openFile_none hb] at hlt ⊢
    have hself : (s.addOpenFile b).resources s.next = newOpenFile b := Function.update_self ..
    have hfit : ((s.addOpenFile b).resources s.next).count + 1 < 0x100000000 := by
      rw [hself]
      change 0 + 1 < 0x100000000
      decide
    have h₁ : Raised s (s.addOpenFile b) := make_raised s (newOpenFile b)
    refine ⟨h₁.trans (Nat.le_succ _) (ref_raised hfit), fun x hx hlive => ?_⟩
    obtain rfl := Nat.le_antisymm (Nat.le_of_lt_succ hlive.1) hx
    rw [ref_resources, Nat.mod_eq_of_lt hfit, hself]
    simp [newOpenFile]
  · rw [openFile_some hb] at hlt ⊢
    exact ⟨ref_raised hlt, fun x hx hlive => absurd hlive.1 (Nat.not_lt.mpr hx)⟩

end Objects

namespace Inv

variable (I : Inv s place others)
include I

theorem unref_lowered (hopen : ∀ b q, s.openFiles b = some q → 0 < (s.resources q).count)
    (h0 : 0 < (s.resources r).count) (ht : (s.resources r).type ≠ .OTHER) :
    Lowered s (s.unref (some r)) := by
  have h₁ := Objects.release_lowered h0 (I.count_lt r)
  simp only [Objects.unref]
  split
  · rw [Objects.destructor]
    split
    · refine h₁.trans (Objects.closeFile_lowered fun b q hq => ?_)
      rw [Objects.release_openFiles] at hq
      have hne : q ≠ r := by
        rintro rfl
        exact ht (I.cached b q hq)
      rw [Objects.release_same hne]
      exact ⟨hopen b q hq, I.count_lt q⟩
    · exact h₁
  · exact h₁

end Inv

end K439.Handles
