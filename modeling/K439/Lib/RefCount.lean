import Mathlib.Data.Finset.Card
import Mathlib.Tactic.Common

/-!
# Reference counts

Holders hold items. A count of the items is exact if it is, for each item, the number of its
holders. Taking and dropping a reference keeps it exact, and an item with a holder has a positive
count.
-/

namespace K439

variable {H I : Type _} {holds holds' : H → I → Prop} {count count' : I → Nat} {a b : H}
  {x y : I}

/-- The count of each item is the number of its holders. -/
def RefCounted (holds : H → I → Prop) (count : I → Nat) : Prop :=
  ∀ x, ∃ s : Finset H, (∀ a, a ∈ s ↔ holds a x) ∧ s.card = count x

namespace RefCounted

theorem congr (R : RefCounted holds count) (h : ∀ a x, holds' a x ↔ holds a x)
    (hc : ∀ x, count' x = count x) : RefCounted holds' count' := by
  intro x
  obtain ⟨s, hs, hcard⟩ := R x
  exact ⟨s, fun a => (hs a).trans (h a x).symm, hcard.trans (hc x).symm⟩

theorem pos (R : RefCounted holds count) (h : holds a x) : 0 < count x := by
  obtain ⟨s, hs, hcard⟩ := R x
  rw [← hcard]
  exact Finset.card_pos.mpr ⟨a, (hs a).mpr h⟩

theorem exists_of_pos (R : RefCounted holds count) (h : 0 < count x) : ∃ a, holds a x := by
  obtain ⟨s, hs, hcard⟩ := R x
  rw [← hcard] at h
  obtain ⟨a, ha⟩ := Finset.card_pos.mp h
  exact ⟨a, (hs a).mp ha⟩

theorem eq_zero (R : RefCounted holds count) (h : ∀ a, ¬holds a x) : count x = 0 := by
  apply Nat.eq_zero_of_not_pos
  intro hp
  obtain ⟨a, ha⟩ := R.exists_of_pos hp
  exact h a ha

theorem eq_one (R : RefCounted holds count) (h : ∀ b, holds b x ↔ b = a) : count x = 1 := by
  obtain ⟨s, hs, hcard⟩ := R x
  have hs' : s = {a} := Finset.ext fun b => (hs b).trans ((h b).trans Finset.mem_singleton.symm)
  rw [← hcard, hs', Finset.card_singleton]

/-- Each item has one holder or none. -/
theorem of_owner {owner : I → Option H} (h : ∀ a x, holds a x ↔ owner x = some a)
    (hc : ∀ x, count x = (owner x).elim 0 fun _ => 1) : RefCounted holds count := by
  intro x
  rw [hc]
  cases ho : owner x with
  | none => exact ⟨∅, fun a => by simp [h, ho], rfl⟩
  | some b => exact ⟨{b}, fun a => by simp [h, ho, eq_comm], rfl⟩

/-- The last holder is the only one. -/
theorem unique (R : RefCounted holds count) (h1 : count x = 1) (ha : holds a x) (hb : holds b x) :
    a = b := by
  obtain ⟨s, hs, hcard⟩ := R x
  obtain ⟨c, rfl⟩ := Finset.card_eq_one.mp (hcard.trans h1)
  have ha' := Finset.mem_singleton.mp ((hs a).mpr ha)
  have hb' := Finset.mem_singleton.mp ((hs b).mpr hb)
  exact ha'.trans hb'.symm

/-- There are no more holders than candidates. -/
theorem le_card (R : RefCounted holds count) {t : Finset H} (h : ∀ a, holds a x → a ∈ t) :
    count x ≤ t.card := by
  obtain ⟨s, hs, hcard⟩ := R x
  rw [← hcard]
  exact Finset.card_le_card fun a ha => h a ((hs a).mp ha)

/-- The new holder `a` takes a reference to `x`. -/
theorem take [DecidableEq I] (R : RefCounted holds count) (ha : ¬holds a x)
    (h : ∀ b y, holds' b y ↔ holds b y ∨ b = a ∧ y = x)
    (hc : ∀ y, count' y = if y = x then count x + 1 else count y) : RefCounted holds' count' := by
  classical
  intro y
  obtain ⟨s, hs, hcard⟩ := R y
  rcases decEq y x with hne | rfl
  · refine ⟨s, fun b => ?_, ?_⟩
    · rw [hs, h]
      simp [hne]
    · rw [hc, if_neg hne, hcard]
  · have hnot : a ∉ s := fun hm => ha ((hs a).mp hm)
    refine ⟨insert a s, fun b => ?_, ?_⟩
    · rw [Finset.mem_insert, hs, h]
      simp [or_comm]
    · rw [Finset.card_insert_of_notMem hnot, hc, if_pos rfl, hcard]

/-- The holder `a` drops its reference to `x`. -/
theorem drop [DecidableEq I] (R : RefCounted holds count) (ha : holds a x)
    (h : ∀ b y, holds' b y ↔ holds b y ∧ ¬(b = a ∧ y = x))
    (hc : ∀ y, count' y = if y = x then count x - 1 else count y) : RefCounted holds' count' := by
  classical
  intro y
  obtain ⟨s, hs, hcard⟩ := R y
  rcases decEq y x with hne | rfl
  · refine ⟨s, fun b => ?_, ?_⟩
    · rw [hs, h]
      simp [hne]
    · rw [hc, if_neg hne, hcard]
  · refine ⟨s.erase a, fun b => ?_, ?_⟩
    · rw [Finset.mem_erase, hs, h]
      simp [and_comm]
    · rw [Finset.card_erase_of_mem ((hs a).mpr ha), hc, if_pos rfl, hcard]

/-- The holder `b` takes over the reference of `a` to `x`. -/
theorem move [DecidableEq I] (R : RefCounted holds count) (ha : holds a x) (hb : ¬holds b x)
    (h : ∀ c y, holds' c y ↔ holds c y ∧ ¬(c = a ∧ y = x) ∨ c = b ∧ y = x)
    (hc : ∀ y, count' y = count y) : RefCounted holds' count' := by
  have hpos := R.pos ha
  refine (R.drop ha (fun _ _ => Iff.rfl) fun _ => rfl).take (fun h => hb h.1) h fun y => ?_
  rw [hc]
  rcases decEq y x with hne | rfl
  · rw [if_neg hne, if_neg hne]
  · rw [if_pos rfl, if_pos rfl, Nat.sub_add_cancel hpos]

end RefCounted

end K439
