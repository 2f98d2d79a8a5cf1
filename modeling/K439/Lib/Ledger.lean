import Mathlib.Tactic.Common

/-!
# Ledgers

A ledger says which holder has which item. It is exact for a set of items if every item of the set
has exactly one holder and no other item has one. Handing an item over from its holder to another
one, or giving out a new item, keeps a ledger exact. `Once` is the same for places that count: every
item is at exactly one place, and there once.
-/

namespace K439

variable {H I : Type _} {own own' : H → I → Prop} {F F' : I → Prop} {a b : H} {x y : I}

/-- Every item of `F`, and no other item, has exactly one holder. -/
structure Exact (own : H → I → Prop) (F : I → Prop) : Prop where
  total : ∀ x, F x → ∃ a, own a x
  sound : ∀ a x, own a x → F x
  unique : ∀ a b x, own a x → own b x → a = b

namespace Exact

theorem congr (E : Exact own F) (h : ∀ a x, own' a x ↔ own a x) (hF : ∀ x, F' x ↔ F x) :
    Exact own' F' where
  total x hx := (E.total x ((hF x).mp hx)).imp fun a => (h a x).mpr
  sound a x ha := (hF x).mpr (E.sound a x ((h a x).mp ha))
  unique a b x ha hb := E.unique a b x ((h a x).mp ha) ((h b x).mp hb)

/-- `x` goes from `a` to `b`. -/
theorem move (E : Exact own F) (ha : own a x)
    (h : ∀ c y, own' c y ↔ own c y ∧ ¬(c = a ∧ y = x) ∨ c = b ∧ y = x) :
    Exact own' F where
  total y hy := by
    by_cases hyx : y = x
    · exact ⟨b, (h b y).mpr (.inr ⟨rfl, hyx⟩)⟩
    · obtain ⟨c, hc⟩ := E.total y hy
      exact ⟨c, (h c y).mpr (.inl ⟨hc, fun he => hyx he.2⟩)⟩
  sound c y hc := by
    rcases (h c y).mp hc with ⟨hc, -⟩ | ⟨-, rfl⟩
    exacts [E.sound c y hc, E.sound a y ha]
  unique c d y hc hd := by
    rcases (h c y).mp hc with ⟨hc, hca⟩ | ⟨rfl, rfl⟩ <;>
      rcases (h d y).mp hd with ⟨hd, hda⟩ | ⟨rfl, hy⟩
    · exact E.unique c d y hc hd
    · subst hy; exact (hca ⟨E.unique c a y hc ha, rfl⟩).elim
    · exact (hda ⟨E.unique d a y hd ha, rfl⟩).elim
    · rfl

/-- Everything of `a` goes to `b`. -/
theorem handOver (E : Exact own F) (hab : a ≠ b)
    (h : ∀ c y, own' c y ↔ own c y ∧ c ≠ a ∨ c = b ∧ own a y) : Exact own' F where
  total y hy := by
    obtain ⟨c, hc⟩ := E.total y hy
    by_cases hca : c = a
    · exact ⟨b, (h b y).mpr (.inr ⟨rfl, hca ▸ hc⟩)⟩
    · exact ⟨c, (h c y).mpr (.inl ⟨hc, hca⟩)⟩
  sound c y hc := by
    rcases (h c y).mp hc with ⟨hc, -⟩ | ⟨-, hc⟩
    exacts [E.sound c y hc, E.sound a y hc]
  unique c d y hc hd := by
    rcases (h c y).mp hc with ⟨hc, hca⟩ | ⟨rfl, hc⟩ <;>
      rcases (h d y).mp hd with ⟨hd, hda⟩ | ⟨rfl, hd⟩
    · exact E.unique c d y hc hd
    · exact (hca (E.unique c a y hc hd)).elim
    · exact (hda (E.unique d a y hd hc)).elim
    · rfl

/-- The new item `x` goes to `b`. -/
theorem add (E : Exact own F) (hx : ¬F x) (hF : ∀ y, F' y ↔ F y ∨ y = x)
    (h : ∀ c y, own' c y ↔ own c y ∨ c = b ∧ y = x) : Exact own' F' where
  total y hy := by
    rcases (hF y).mp hy with hy | rfl
    · obtain ⟨c, hc⟩ := E.total y hy
      exact ⟨c, (h c y).mpr (.inl hc)⟩
    · exact ⟨b, (h b y).mpr (.inr ⟨rfl, rfl⟩)⟩
  sound c y hc := (hF y).mpr (((h c y).mp hc).imp (E.sound c y) (·.2))
  unique c d y hc hd := by
    rcases (h c y).mp hc with hc | ⟨rfl, rfl⟩ <;> rcases (h d y).mp hd with hd | ⟨rfl, hy⟩
    · exact E.unique c d y hc hd
    · subst hy; exact (hx (E.sound c y hc)).elim
    · exact (hx (E.sound d y hd)).elim
    · rfl

/-- Different holders have different items. -/
theorem ne (E : Exact own F) (ha : own a x) (hb : own b y) (hab : a ≠ b) : x ≠ y := by
  rintro rfl
  exact hab (E.unique a b x ha hb)

end Exact

/-- Every item of `F` is at exactly one place, once. -/
def Once [DecidableEq H] (cnt : H → I → Nat) (F : I → Prop) : Prop :=
  ∀ x, F x → ∃ a, ∀ b, cnt b x = if b = a then 1 else 0

namespace Once

variable [DecidableEq H] {cnt cnt' : H → I → Nat}

theorem congr (O : Once cnt F) (hF : ∀ x, F' x → F x)
    (h : ∀ a x, F' x → cnt' a x = cnt a x) : Once cnt' F' := by
  intro x hx
  obtain ⟨a, ha⟩ := O x (hF x hx)
  exact ⟨a, fun b => (h b x hx).trans (ha b)⟩

theorem at_unique (O : Once cnt F) (hx : F x) (ha : 0 < cnt a x) (hb : 0 < cnt b x) : a = b := by
  obtain ⟨c, hc⟩ := O x hx
  rw [hc] at ha hb
  split at ha
  · split at hb
    · simp [*]
    · exact absurd hb (Nat.lt_irrefl 0)
  · exact absurd ha (Nat.lt_irrefl 0)

/-- `x` goes from the place `a` to the place `b`. -/
theorem move [DecidableEq I] (O : Once cnt F) (hF : ∀ y, F' y → F y) (hab : a ≠ b)
    (h : ∀ c y, F' y → cnt' c y + (if c = a ∧ y = x then 1 else 0) =
      cnt c y + (if c = b ∧ y = x then 1 else 0)) : Once cnt' F' := by
  intro y hy
  obtain ⟨d, hd⟩ := O y (hF y hy)
  by_cases hyx : y = x
  · subst hyx
    have had : a = d := by
      by_contra hne
      have ha := h a y hy
      simp [hab, hne, hd] at ha
    refine ⟨b, fun c => ?_⟩
    have hc := h c y hy
    simp only [and_true, hd, ← had] at hc
    omega
  · refine ⟨d, fun c => ?_⟩
    have hc := h c y hy
    simpa [hyx, hd] using hc

end Once

end K439
