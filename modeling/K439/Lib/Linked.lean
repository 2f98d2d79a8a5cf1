import Mathlib.Data.List.Nodup
import Mathlib.Data.List.Perm.Subperm
import Mathlib.Logic.Function.Iterate
import Mathlib.Tactic.Common

/-!
# Linked lists threaded through a memory

`Linked next nil x l`: following `next` from `x` visits exactly `l` and ends at `nil`. The list
is determined by `next` and `x` (`Linked.unique`), so a chain that ends has no repetition
(`Linked.nodup`). `DLinked` adds the inverse links of a doubly linked list.

`next` and `prev` are arbitrary functions; an update of the memory they are read from is stated
by where the new functions agree with the old ones.
-/

namespace K439

variable {α : Type _} {next next' prev prev' : α → α} {nil x y z p : α}
  {l l₁ l₂ : List α}

/-- Following `next` from `x` visits the elements of `l` in order and ends at `nil`. -/
def Linked (next : α → α) (nil : α) : α → List α → Prop
  | x, [] => x = nil
  | x, y :: l => x = y ∧ y ≠ nil ∧ Linked next nil (next y) l

instance Linked.decidable [DecidableEq α] {next : α → α} {nil : α} :
    ∀ (x : α) (l : List α), Decidable (Linked next nil x l)
  | x, [] => inferInstanceAs (Decidable (x = nil))
  | x, y :: l =>
    have : Decidable (Linked next nil (next y) l) := Linked.decidable (next y) l
    inferInstanceAs (Decidable (x = y ∧ y ≠ nil ∧ Linked next nil (next y) l))

namespace Linked

theorem congr (h : Linked next nil x l) (he : ∀ z ∈ l, next' z = next z) :
    Linked next' nil x l := by
  induction l generalizing x with
  | nil => exact h
  | cons y l ih =>
    obtain ⟨rfl, hy, h⟩ := h
    refine ⟨rfl, hy, ?_⟩
    rw [he x (by simp)]
    exact ih h fun z hz => he z (by simp [hz])

theorem ne_nil (h : Linked next nil x l) (hz : z ∈ l) : z ≠ nil := by
  induction l generalizing x with
  | nil => cases hz
  | cons y l ih =>
    obtain ⟨rfl, hy, h⟩ := h
    rcases List.mem_cons.mp hz with rfl | hz
    exacts [hy, ih h hz]

theorem eq_nil_iff (h : Linked next nil x l) : x = nil ↔ l = [] := by
  cases l with
  | nil => exact iff_of_true h rfl
  | cons y l => obtain ⟨rfl, hy, _⟩ := h; simpa using hy

theorem unique (h₁ : Linked next nil x l₁) (h₂ : Linked next nil x l₂) : l₁ = l₂ := by
  induction l₁ generalizing x l₂ with
  | nil => exact (h₂.eq_nil_iff.mp h₁).symm
  | cons y l₁ ih =>
    obtain ⟨rfl, hy, h₁⟩ := h₁
    cases l₂ with
    | nil => exact (hy h₂).elim
    | cons z l₂ => obtain ⟨rfl, _, h₂⟩ := h₂; rw [ih h₁ h₂]

/-- The rest of the chain from one of its elements. -/
theorem suffix (h : Linked next nil x (l₁ ++ y :: l₂)) : Linked next nil y (y :: l₂) := by
  induction l₁ generalizing x with
  | nil => obtain ⟨rfl, h⟩ := h; exact ⟨rfl, h⟩
  | cons z l₁ ih => exact ih h.2.2

theorem head_mem (h : Linked next nil x l) (hx : x ≠ nil) : ∃ l', l = x :: l' := by
  cases l with
  | nil => exact (hx h).elim
  | cons y l => obtain ⟨rfl, _⟩ := h; exact ⟨l, rfl⟩

/-- A chain that ends is acyclic. -/
theorem nodup (h : Linked next nil x l) : l.Nodup := by
  induction l generalizing x with
  | nil => exact List.nodup_nil
  | cons y l ih =>
    refine List.nodup_cons.mpr ⟨fun hy => ?_, ih h.2.2⟩
    obtain ⟨l₁, l₂, rfl⟩ := List.append_of_mem hy
    have h1 : Linked next nil y (y :: l₂) :=
      suffix (by simpa using h : Linked next nil x ((y :: l₁) ++ y :: l₂))
    have h2 : Linked next nil y (y :: (l₁ ++ y :: l₂)) := ⟨rfl, h.2⟩
    have := congrArg List.length (h1.unique h2)
    simp at this
    omega

/-- Taking the head off, whatever is then stored in it. -/
theorem pop (h : Linked next nil x (y :: l)) (he : ∀ z, z ≠ y → next' z = next z) :
    Linked next' nil (next y) l :=
  h.2.2.congr fun z hz => he z fun hzy => by
    subst hzy; exact (List.nodup_cons.mp h.nodup).1 hz

/-- A new head in front. -/
theorem push (h : Linked next nil x l) (hy : y ≠ nil) (hl : y ∉ l) (hx : next' y = x)
    (he : ∀ z, z ≠ y → next' z = next z) : Linked next' nil y (y :: l) := by
  refine ⟨rfl, hy, ?_⟩
  rw [hx]
  exact h.congr fun z hz => he z fun hzy => hl (hzy ▸ hz)

/-- Redirecting the end of one chain to the head of another joins them. -/
theorem join {w : α} (h₁ : Linked next nil x (l₁ ++ [w])) (h₂ : Linked next nil y l₂)
    (hd : ∀ z ∈ l₁ ++ [w], z ∉ l₂) (hw : next' w = y)
    (he : ∀ z, z ≠ w → next' z = next z) : Linked next' nil x (l₁ ++ w :: l₂) := by
  induction l₁ generalizing x with
  | nil =>
    obtain ⟨rfl, hx, _⟩ := h₁
    exact push h₂ hx (hd x (by simp)) hw he
  | cons z l₁ ih =>
    have hz : z ≠ w := by
      have := h₁.nodup
      simp only [List.cons_append, List.nodup_cons, List.mem_append, not_or] at this
      exact fun h => this.1.2 (by simp [h])
    obtain ⟨rfl, hx, h₁⟩ := h₁
    refine ⟨rfl, hx, ?_⟩
    rw [he x hz]
    exact ih h₁ fun z hz => hd z (by simp at hz ⊢; tauto)

/-- The second of two chains that were joined. -/
theorem unjoin {w : α} (h₁ : Linked next nil x (l₁ ++ [w])) (h : Linked next' nil x l)
    (hw : next' w = y) (he : ∀ z, z ≠ w → next' z = next z) :
    ∃ l₂, l = l₁ ++ w :: l₂ ∧ Linked next nil y l₂ := by
  induction l₁ generalizing x l with
  | nil =>
    obtain ⟨rfl, hx, -⟩ := h₁
    obtain ⟨l₂, rfl⟩ := h.head_mem hx
    have hnd := (List.nodup_cons.mp h.nodup).1
    exact ⟨l₂, rfl, hw ▸ h.2.2.congr fun z hz => (he z fun h => hnd (h ▸ hz)).symm⟩
  | cons z l₁ ih =>
    have hz : z ≠ w := by
      have := h₁.nodup
      simp only [List.cons_append, List.nodup_cons, List.mem_append, not_or] at this
      exact fun h => this.1.2 (by simp [h])
    obtain ⟨rfl, hx, h₁⟩ := h₁
    obtain ⟨l', rfl⟩ := h.head_mem hx
    have hl' := h.2.2
    rw [he x hz] at hl'
    obtain ⟨l₂, rfl, h₂⟩ := ih h₁ hl'
    exact ⟨l₂, rfl, h₂⟩

theorem iterate (h : Linked next nil x l) {k : Nat} (hk : k < l.length) : next^[k] x = l[k] := by
  induction l generalizing x k with
  | nil => simp at hk
  | cons y l ih =>
    obtain ⟨rfl, _, h⟩ := h
    cases k with
    | zero => rfl
    | succ k => exact ih h (by simpa using hk)

theorem iterate_length (h : Linked next nil x l) : next^[l.length] x = nil := by
  induction l generalizing x with
  | nil => exact h
  | cons y l ih => obtain ⟨rfl, _, h⟩ := h; exact ih h

/-- The elements, then `nil`. -/
theorem iterate_getD (h : Linked next nil x l) {k : Nat} (hk : k ≤ l.length) :
    next^[k] x = l.getD k nil := by
  rcases Nat.lt_or_eq_of_le hk with hk | rfl
  · rw [h.iterate hk]; simp [hk]
  · rw [h.iterate_length]; simp

/-- An element links to another one or to `nil`. -/
theorem next_mem (h : Linked next nil x l) (hz : z ∈ l) : next z = nil ∨ next z ∈ l := by
  obtain ⟨l₁, l₂, rfl⟩ := List.append_of_mem hz
  cases l₂ with
  | nil => exact .inl (suffix h).2.2
  | cons y l₂ => exact .inr (by rw [(suffix h).2.2.1]; simp)

/-- What follows an element. -/
theorem drop (h : Linked next nil x l) {k : Nat} (hk : k < l.length) :
    Linked next nil (next l[k]) (l.drop (k + 1)) := by
  induction l generalizing x k with
  | nil => simp at hk
  | cons y l ih =>
    obtain ⟨rfl, _, h⟩ := h
    cases k with
    | zero => exact h
    | succ k => exact ih h (by simpa using hk)

/-- No element links to the first one. -/
theorem next_ne_head (h : Linked next nil x l) (hz : z ∈ l) : next z ≠ x := by
  obtain ⟨l₁, l₂, rfl⟩ := List.append_of_mem hz
  intro he
  have hnd := h.nodup
  have hl₂ : Linked next nil x l₂ := he ▸ (suffix h).2.2
  have := congrArg List.length (h.unique hl₂)
  simp at this
  omega

/-- Two elements of a chain do not link to the same one. -/
theorem inj (h : Linked next nil x l) (hy : y ∈ l) (hz : z ∈ l) (he : next y = next z) :
    y = z := by
  obtain ⟨i, hi, rfl⟩ := List.getElem_of_mem hy
  obtain ⟨j, hj, rfl⟩ := List.getElem_of_mem hz
  have hlen := congrArg List.length ((h.drop hi).unique (he ▸ h.drop hj))
  simp only [List.length_drop] at hlen
  have : i = j := by omega
  subst this
  rfl

/-- When no two elements link to the same one, two chains with different heads that nothing links to
are disjoint. -/
theorem disjoint (h₁ : Linked next nil x l₁) (h₂ : Linked next nil y l₂)
    (hinj : ∀ a b, next a = next b → next a ≠ nil → a = b) (hx : ∀ a, next a ≠ x)
    (hy : ∀ a, next a ≠ y) (hne : x ≠ y) (hz : z ∈ l₁) : z ∉ l₂ := by
  have hpos : ∀ i j, i < l₁.length → j < l₂.length → next^[i] x ≠ next^[j] y := by
    intro i
    induction i with
    | zero =>
      rintro (_ | j) hi hj
      · exact hne
      · rw [Function.iterate_succ_apply']
        exact (hx _).symm
    | succ i ih =>
      rintro (_ | j) hi hj
      · rw [Function.iterate_succ_apply']
        exact hy _
      · have hnil : next^[i + 1] x ≠ nil := by
          rw [h₁.iterate hi]
          exact h₁.ne_nil (List.getElem_mem hi)
        rw [Function.iterate_succ_apply'] at hnil ⊢
        rw [Function.iterate_succ_apply']
        exact fun he => ih j (Nat.lt_of_succ_lt hi) (Nat.lt_of_succ_lt hj) (hinj _ _ he hnil)
  intro hz'
  obtain ⟨i, hi, rfl⟩ := List.getElem_of_mem hz
  obtain ⟨j, hj, he⟩ := List.getElem_of_mem hz'
  refine hpos i j hi hj ?_
  rw [h₁.iterate hi, h₂.iterate hj, he]

/-- A chain of numbers below a bound is not longer than the bound. -/
theorem length_le {next : Nat → Nat} {nil x n : Nat} {l : List Nat} (h : Linked next nil x l)
    (hl : ∀ z ∈ l, z < n) : l.length ≤ n := by
  have := (h.nodup.subperm fun z hz => List.mem_range.mpr (hl z hz)).length_le
  rwa [List.length_range] at this

/-- The elements of a chain are in a set that its links do not leave. -/
theorem forall_mem {P : α → Prop} (h : Linked next nil x l) (hx : x ≠ nil → P x)
    (hnext : ∀ z, next z ≠ nil → P (next z)) : ∀ z ∈ l, P z := by
  induction l generalizing x with
  | nil => nofun
  | cons y l ih =>
    obtain ⟨rfl, hy, h⟩ := h
    intro z hz
    rcases List.mem_cons.mp hz with rfl | hz
    · exact hx hy
    · exact ih h (hnext x) z hz

/-- A chain still ends when some of its links are cut. -/
theorem cut (h : Linked next nil x l) (hcut : ∀ z, next' z = next z ∨ next' z = nil) :
    ∃ l', Linked next' nil x l' := by
  induction l generalizing x with
  | nil => exact ⟨[], h⟩
  | cons y l ih =>
    obtain ⟨rfl, hy, h⟩ := h
    rcases hcut x with he | he
    · obtain ⟨l', hl'⟩ := ih h
      exact ⟨x :: l', rfl, hy, he ▸ hl'⟩
    · exact ⟨[x], rfl, hy, he⟩

/-- A chain still ends when a last element `p` goes on with a chain that does not have it. -/
theorem splice (h : Linked next nil x l) (hp : p ≠ nil) (h₁ : Linked next nil y l₁)
    (hl : p ∉ l₁) (hlink : next' p = y) (he : ∀ z, z ≠ p → next' z = next z) :
    ∃ l', Linked next' nil x l' := by
  have h₁' : Linked next' nil y l₁ := h₁.congr fun z hz => he z fun h => hl (h ▸ hz)
  induction l generalizing x with
  | nil => exact ⟨[], h⟩
  | cons z l ih =>
    obtain ⟨rfl, hz, h⟩ := h
    rcases Classical.em (x = p) with rfl | hne
    · exact ⟨x :: l₁, rfl, hz, hlink ▸ h₁'⟩
    · obtain ⟨l', hl'⟩ := ih h
      exact ⟨x :: l', rfl, hz, he x hne ▸ hl'⟩

end Linked

/-- A doubly linked list: `next` from `x` visits `l` and ends at `nil`, and `prev` of each
element is the one before it, of the first one `p`. -/
def DLinked (next prev : α → α) (nil : α) : α → α → List α → Prop
  | _, x, [] => x = nil
  | p, x, y :: l => x = y ∧ y ≠ nil ∧ prev y = p ∧ DLinked next prev nil y (next y) l

namespace DLinked

theorem linked (h : DLinked next prev nil p x l) : Linked next nil x l := by
  induction l generalizing p x with
  | nil => exact h
  | cons y l ih => exact ⟨h.1, h.2.1, ih h.2.2.2⟩

theorem congr (h : DLinked next prev nil p x l) (hn : ∀ z ∈ l, next' z = next z)
    (hp : ∀ z ∈ l, prev' z = prev z) : DLinked next' prev' nil p x l := by
  induction l generalizing p x with
  | nil => exact h
  | cons y l ih =>
    obtain ⟨rfl, hy, hpy, h⟩ := h
    refine ⟨rfl, hy, by rw [hp x (by simp), hpy], ?_⟩
    rw [hn x (by simp)]
    exact ih h (fun z hz => hn z (by simp [hz])) fun z hz => hp z (by simp [hz])

/-- The element before `y` is the last one of the part before it, or `p`. -/
theorem prev_eq (h : DLinked next prev nil p x (l₁ ++ y :: l₂)) :
    prev y = l₁.getLastD p := by
  induction l₁ generalizing p x with
  | nil => exact h.2.2.1
  | cons z l₁ ih =>
    rw [ih h.2.2.2, List.getLastD_cons]

/-- The element after `y` is the first one of the part after it, or `nil`. -/
theorem next_eq (h : DLinked next prev nil p x (l₁ ++ y :: l₂)) : next y = l₂.headD nil := by
  induction l₁ generalizing p x with
  | nil => cases l₂ with
    | nil => exact h.2.2.2
    | cons z l₂ => exact h.2.2.2.1
  | cons z l₁ ih => exact ih h.2.2.2

theorem head_eq (h : DLinked next prev nil p x l) : x = l.headD nil := by
  cases l with
  | nil => exact h
  | cons y l => exact h.1

/-- A new head in front of a list that starts after `nil`. -/
theorem push (h : DLinked next prev nil nil x l) (hy : y ≠ nil) (hl : y ∉ l)
    (hny : next' y = x) (hpy : prev' y = nil) (hpx : x ≠ nil → prev' x = y)
    (hn : ∀ z ∈ l, next' z = next z) (hp : ∀ z ∈ l, z ≠ x → prev' z = prev z) :
    DLinked next' prev' nil nil y (y :: l) := by
  refine ⟨rfl, hy, hpy, ?_⟩
  rw [hny]
  cases l with
  | nil => exact h
  | cons z l =>
    have hnd := List.nodup_cons.mp h.linked.nodup
    obtain ⟨rfl, hx, _, h⟩ := h
    refine ⟨rfl, hx, hpx hx, ?_⟩
    rw [hn x (by simp)]
    exact h.congr (fun w hw => hn w (by simp [hw]))
      fun w hw => hp w (by simp [hw]) fun he => hnd.1 (he ▸ hw)

/-- A new last element. -/
theorem snoc (h : DLinked next prev nil p x l) (hy : y ≠ nil) (hny : next' y = nil)
    (hpy : prev' y = l.getLastD p) (hp : ∀ z ∈ l, prev' z = prev z)
    (hn : ∀ z ∈ l, z ≠ l.getLastD p → next' z = next z)
    (hlast : l ≠ [] → next' (l.getLastD p) = y) :
    DLinked next' prev' nil p (if l = [] then y else x) (l ++ [y]) := by
  induction l generalizing p x with
  | nil => exact ⟨rfl, hy, hpy, hny⟩
  | cons z l ih =>
    have hnd := (List.nodup_cons.mp h.linked.nodup).1
    obtain ⟨rfl, hx, hpx, h⟩ := h
    rw [List.getLastD_cons] at hpy hn hlast
    refine ⟨if_neg (List.cons_ne_nil x l), hx, (hp x List.mem_cons_self).trans hpx, ?_⟩
    have hrest :=
      ih h hpy (fun z hz => hp z (List.mem_cons_of_mem _ hz))
        (fun z hz => hn z (List.mem_cons_of_mem _ hz))
      fun _ => hlast (List.cons_ne_nil x l)
    cases l with
    | nil =>
      rw [show next' x = y from hlast (List.cons_ne_nil x [])]
      exact hrest
    | cons w l =>
      rw [if_neg (List.cons_ne_nil w l)] at hrest
      have hne : x ≠ (w :: l).getLastD x := by
        intro he
        rw [List.getLastD_cons] at he
        exact hnd (he ▸ List.getLastD_mem_cons)
      rwa [hn x List.mem_cons_self hne]

/-- Without the first element, the next one has none before it. -/
theorem tail (h : DLinked next prev nil p x (y :: l)) (hhead : ∀ w ∈ l.head?, prev' w = nil)
    (hn : ∀ z ∈ l, next' z = next z) (hp : ∀ z ∈ l, z ∉ l.head? → prev' z = prev z) :
    DLinked next' prev' nil nil (next y) l := by
  obtain ⟨-, -, -, h⟩ := h
  cases l with
  | nil => exact h
  | cons w l =>
    have hnd := (List.nodup_cons.mp h.linked.nodup).1
    obtain ⟨hw, hw0, -, h⟩ := h
    refine ⟨hw, hw0, hhead w rfl, ?_⟩
    rw [hn w List.mem_cons_self]
    refine h.congr (fun z hz => hn z (List.mem_cons_of_mem _ hz)) fun z hz =>
      hp z (List.mem_cons_of_mem _ hz) fun he => ?_
    obtain rfl := Option.some.inj he
    exact hnd hz

/-- Taking an element out: its two neighbours are linked to each other. -/
theorem remove [DecidableEq α] (h : DLinked next prev nil p x (l₁ ++ y :: l₂))
    (hp : p ∉ l₁ ++ y :: l₂)
    (hn : ∀ z ∈ l₁ ++ l₂, next' z = if z = prev y then next y else next z)
    (hpr : ∀ z ∈ l₁ ++ l₂, prev' z = if z = next y then prev y else prev z) :
    DLinked next' prev' nil p (if l₁ = [] then next y else x) (l₁ ++ l₂) := by
  have hnd := h.linked.nodup
  induction l₁ generalizing p x with
  | nil =>
    obtain ⟨rfl, hx, hpx, h⟩ := h
    simp only [List.nil_append, List.mem_cons, not_or] at hp hn hpr
    rw [if_pos rfl]
    cases l₂ with
    | nil => exact h
    | cons w l₂ =>
      obtain ⟨hw, hwn, hpw, h⟩ := h
      have hnd' := List.nodup_cons.mp (List.nodup_cons.mp hnd).2
      have hwp : w ≠ prev x := by rw [hpx]; exact fun he => hp.2 (by simp [he])
      refine ⟨hw, hwn, by rw [hpr w (by simp), if_pos hw.symm, hpx], ?_⟩
      rw [hn w (by simp), if_neg hwp]
      refine h.congr (fun z hz => ?_) fun z hz => ?_
      · rw [hn z (by simp [hz]), if_neg]
        rw [hpx]; exact fun he => hp.2 (by simp [← he, hz])
      · rw [hpr z (by simp [hz]), if_neg]
        rw [hw]; exact fun he => hnd'.1 (he ▸ hz)
  | cons v l₁ ih =>
    have hnext := next_eq h
    have hprev := prev_eq h
    obtain ⟨rfl, hx, hpx, h⟩ := h
    have hnd' := List.nodup_cons.mp hnd
    have hyx : x ∉ l₁ ++ y :: l₂ := hnd'.1
    have hrest := ih h (by simpa using hyx) (fun z hz => hn z (by simp at hz ⊢; tauto))
      (fun z hz => hpr z (by simp at hz ⊢; tauto)) hnd'.2
    simp only [if_neg (List.cons_ne_nil x l₁)]
    refine ⟨rfl, hx, ?_, ?_⟩
    · rw [hpr x (by simp), if_neg, hpx]
      rw [hnext]
      cases l₂ with
      | nil => exact hx
      | cons w l₂ => intro he; exact hyx (by simp [he])
    · rw [hn x (by simp)]
      cases l₁ with
      | nil => simpa [hprev] using hrest
      | cons w l₁ =>
        rw [if_neg (List.cons_ne_nil w l₁)] at hrest
        rw [if_neg]
        · exact hrest
        · rw [hprev]
          intro he
          refine hyx ?_
          rw [he]
          simp only [List.getLastD_eq_getLast?, List.getLast?_cons_cons]
          obtain ⟨v, hv⟩ :=
            List.getLast?_isSome.mpr (List.cons_ne_nil w l₁) |> Option.isSome_iff_exists.mp
          rw [hv]
          exact List.mem_append_left _ (List.mem_of_getLast? hv)

end DLinked

end K439
