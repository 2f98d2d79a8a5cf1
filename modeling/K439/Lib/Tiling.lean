import Mathlib.Data.List.Nodup
import Mathlib.Data.Int.Basic
import Mathlib.Tactic.Common

/-!
# Tilings of an interval

`Tiles start size lo hi bs`: the pieces `bs` lie one after the other and cover `[lo, hi)` exactly.
The type of the pieces is arbitrary; `start` and `size` read their position off.
-/

namespace K439

variable {β : Type _} {start size : β → Int} {lo hi mid : Int} {b c : β} {bs l r : List β}

/-- The pieces of the list cover `[lo, hi)` in order, without gap or overlap. -/
def Tiles (start size : β → Int) : Int → Int → List β → Prop
  | lo, hi, [] => lo = hi
  | lo, hi, b :: bs => start b = lo ∧ 0 < size b ∧ Tiles start size (lo + size b) hi bs

namespace Tiles

theorem append :
    Tiles start size lo hi (l ++ r) ↔
      ∃ mid, Tiles start size lo mid l ∧ Tiles start size mid hi r := by
  induction l generalizing lo with
  | nil => exact ⟨fun h => ⟨lo, rfl, h⟩, fun ⟨_, h, h'⟩ => h ▸ h'⟩
  | cons b l ih =>
    simp only [List.cons_append, Tiles, ih]
    constructor
    · rintro ⟨hs, hb, mid, hl, hr⟩; exact ⟨mid, ⟨hs, hb, hl⟩, hr⟩
    · rintro ⟨mid, ⟨hs, hb, hl⟩, hr⟩; exact ⟨hs, hb, mid, hl, hr⟩

theorem le (h : Tiles start size lo hi bs) : lo ≤ hi := by
  induction bs generalizing lo with
  | nil => exact Int.le_of_eq h
  | cons b bs ih => have := ih h.2.2; have := h.2.1; omega

/-- The two sides of a piece are tiled. -/
theorem at_piece :
    Tiles start size lo hi (l ++ b :: r) ↔ Tiles start size lo (start b) l ∧ 0 < size b ∧
      Tiles start size (start b + size b) hi r := by
  rw [append]
  constructor
  · rintro ⟨_, hl, rfl, hb, hr⟩; exact ⟨hl, hb, hr⟩
  · rintro ⟨hl, hb, hr⟩; exact ⟨_, hl, rfl, hb, hr⟩

/-- A piece can be exchanged for one of the same place. -/
theorem replace (h : Tiles start size lo hi (l ++ b :: r)) (hs : start c = start b)
    (hz : size c = size b) : Tiles start size lo hi (l ++ c :: r) := by
  rw [at_piece] at h ⊢
  rwa [hs, hz]

theorem bounds (h : Tiles start size lo hi bs) (hb : b ∈ bs) :
    lo ≤ start b ∧ 0 < size b ∧ start b + size b ≤ hi := by
  obtain ⟨l, r, rfl⟩ := List.append_of_mem hb
  obtain ⟨hl, hpos, hr⟩ := at_piece.mp h
  exact ⟨hl.le, hpos, hr.le⟩

/-- Two pieces are the same piece or do not meet. -/
theorem apart (h : Tiles start size lo hi bs) (hb : b ∈ bs) (hc : c ∈ bs) :
    b = c ∨ start b + size b ≤ start c ∨ start c + size c ≤ start b := by
  obtain ⟨l, r, rfl⟩ := List.append_of_mem hb
  obtain ⟨hl, hpos, hr⟩ := at_piece.mp h
  rcases List.mem_append.mp hc with hc | hc
  · exact .inr (.inr (bounds hl hc).2.2)
  rcases List.mem_cons.mp hc with hc | hc
  · exact .inl hc.symm
  · exact .inr (.inl (bounds hr hc).1)

theorem eq_of_start (h : Tiles start size lo hi bs) (hb : b ∈ bs) (hc : c ∈ bs)
    (he : start b = start c) : b = c := by
  have hb' := h.bounds hb
  have hc' := h.bounds hc
  rcases h.apart hb hc with h | h | h
  · exact h
  · omega
  · omega

theorem nodup (h : Tiles start size lo hi bs) : bs.Nodup := by
  induction bs generalizing lo with
  | nil => exact List.nodup_nil
  | cons b bs ih =>
    refine List.nodup_cons.mpr ⟨fun hb => ?_, ih h.2.2⟩
    have h1 := (bounds h.2.2 hb).1
    have h2 := h.1
    have h3 := h.2.1
    omega

/-- Every point of the interval lies in a piece. -/
theorem cover (h : Tiles start size lo hi bs) {x : Int} (hlo : lo ≤ x) (hhi : x < hi) :
    ∃ b ∈ bs, start b ≤ x ∧ x < start b + size b := by
  induction bs generalizing lo with
  | nil => have : lo = hi := h; omega
  | cons b bs ih =>
    obtain ⟨rfl, hb, h⟩ := h
    by_cases hx : x < start b + size b
    · exact ⟨b, by simp, hlo, hx⟩
    · obtain ⟨c, hc, h'⟩ := ih h (by omega)
      exact ⟨c, by simp [hc], h'⟩

/-- The piece that ends where a later piece starts is its left neighbour. -/
theorem left_neighbour (h : Tiles start size lo hi (l ++ b :: r)) (hlo : lo < start b) :
    ∃ l' a, l = l' ++ [a] ∧ start a + size a = start b := by
  obtain ⟨hl, _⟩ := at_piece.mp h
  rcases List.eq_nil_or_concat l with rfl | ⟨l', a, rfl⟩
  · exact absurd hl (Int.ne_of_lt hlo)
  · rw [List.concat_eq_append] at hl ⊢
    obtain ⟨_, _, he⟩ := at_piece.mp hl
    exact ⟨l', a, rfl, he⟩

theorem right_neighbour (h : Tiles start size lo hi (l ++ b :: r)) (hhi : start b + size b < hi) :
    ∃ c r', r = c :: r' ∧ start c = start b + size b := by
  obtain ⟨_, _, hr⟩ := at_piece.mp h
  cases r with
  | nil => exact absurd hr (Int.ne_of_lt hhi)
  | cons c r' => exact ⟨c, r', rfl, hr.1⟩

end Tiles

end K439
