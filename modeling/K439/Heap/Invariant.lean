import K439.Heap.Layout
import Mathlib.Order.Interval.Finset.Nat
import Mathlib.Data.Int.Interval

/-!
# The heap invariant, and what `malloc` and `free` do

`Inv` is the invariant between two calls. `mallocInts_spec` and `freeIndex_spec` say which blocks
are taken afterwards and that the other taken blocks keep every int.
-/

namespace K439.Heap

/-- Between two calls: the tags of every block are in place, the first and the last block are the
taken sentinels, the other blocks have at least four ints, no two available blocks touch, and the
list holds exactly the available blocks. -/
structure Inv (h : State) (bs : List Block) (fl : List Int) : Prop extends Layout h bs fl where
  built : ∀ b ∈ bs, b.kind ≠ .raw
  first : ⟨0, 2, .taken⟩ ∈ bs
  last : ⟨h.len - 2, 2, .taken⟩ ∈ bs
  sizes : ∀ b ∈ bs, b.start ≠ 0 → b.start ≠ h.len - 2 → 4 ≤ b.size
  coalesced : ∀ b ∈ bs, ∀ c ∈ bs, b.start + b.size = c.start →
    ¬ (b.kind = .free ∧ c.kind = .free)
  free_listed : ∀ b ∈ bs, b.kind = .free → b.start ∈ fl

variable {h h' : State} {v : Build} {bs bs' l r : List Block} {fl fl' l₁ l₂ : List Int}
  {a b c : Block} {ints p : Int}

/-- Exactly the block `t` has been added to the taken blocks. -/
def Takes (bs bs' : List Block) (t : Block) : Prop :=
  t.kind = .taken ∧ t ∉ bs ∧ ∀ c, c.kind = .taken → (c ∈ bs' ↔ c ∈ bs ∨ c = t)

/-- The taken blocks keep every int. -/
def KeepsTaken (h h' : State) (bs : List Block) : Prop :=
  ∀ c ∈ bs, c.kind = .taken → Keeps h h' c

namespace Inv

theorem listed_iff (I : Inv h bs fl) :
    p ∈ fl ↔ ∃ b ∈ bs, b.kind = .free ∧ b.start = p := by
  constructor
  · intro hp
    obtain ⟨b, hb, he, hk, _⟩ := I.listed p hp
    exact ⟨b, hb, hk, he⟩
  · rintro ⟨b, hb, hk, rfl⟩
    exact I.free_listed b hb hk

theorem free_size (I : Inv h bs fl) (hb : b ∈ bs) (hk : b.kind = .free) : 4 ≤ b.size := by
  obtain ⟨c, hc, he, _, hs⟩ := I.listed _ (I.free_listed b hb hk)
  rwa [I.tiles.eq_of_start hb hc he.symm]

theorem free_ne_sentinel (I : Inv h bs fl) (hb : b ∈ bs) (hk : b.kind = .free) :
    b.start ≠ 0 ∧ b.start ≠ h.len - 2 := by
  constructor
  · intro he
    have := I.tiles.eq_of_start hb I.first he
    simp [this] at hk
  · intro he
    have := I.tiles.eq_of_start hb I.last he
    simp [this] at hk

/-- A block that is not a sentinel has a neighbour on each side. -/
theorem neighbours (I : Inv h bs fl) (hb : b ∈ bs) (h0 : b.start ≠ 0)
    (hlast : b.start ≠ h.len - 2) :
    ∃ l a c r, bs = l ++ a :: b :: c :: r ∧ a.start + a.size = b.start ∧
      c.start = b.start + b.size := by
  obtain ⟨l, r, rfl⟩ := List.append_of_mem hb
  have hbd := I.bounds hb
  have hend : b.start + b.size < h.len := by
    rcases I.tiles.apart hb I.last with he | h | h
    · exact absurd (congrArg Block.start he) hlast
    · dsimp only at h; omega
    · dsimp only at h; omega
  obtain ⟨l, a, rfl, ha⟩ := I.tiles.left_neighbour (by omega)
  obtain ⟨c, r, rfl, hc⟩ := I.tiles.right_neighbour hend
  exact ⟨l, a, c, r, by simp, ha, hc⟩

/-- The list is not longer than the array, so a search ends. -/
theorem length_le (I : Inv h bs fl) : fl.length ≤ h.len.toNat := by
  have hnd := I.links.linked.nodup
  have hsub : fl.toFinset ⊆ Finset.Ico 0 h.len := by
    intro i hi
    obtain ⟨b, hb, rfl, _, hs⟩ := I.listed i (by simpa using hi)
    have := I.bounds hb
    simp; omega
  have := Finset.card_le_card hsub
  rwa [List.toFinset_card_of_nodup hnd, Int.card_Ico, Int.sub_zero] at this

end Inv

/-- Exchanging the blocks `m` in the middle for `m'` keeps the invariant, if the list follows and
no available block of `m'` touches an available one. -/
theorem Inv.rebuild {m m' : List Block} (I : Inv h (l ++ (m ++ r)) fl)
    (L : Layout h' (l ++ (m' ++ r)) fl') (hreg : SameRegion h h')
    (hold : ∀ c ∈ m, c.start ≠ 0 ∧ c.start ≠ h.len - 2)
    (hnew : ∀ c ∈ m', c.kind ≠ .raw ∧ 4 ≤ c.size)
    (hfl : ∀ c ∈ l ++ (m' ++ r), c.kind = .free → c.start ∈ fl')
    (hin : ∀ c ∈ m', ∀ d ∈ m', c.start + c.size = d.start →
      ¬ (c.kind = .free ∧ d.kind = .free))
    (hside : ∀ c ∈ m', c.kind = .free → ∀ d ∈ l ++ r, d.start + d.size = c.start ∨
      c.start + c.size = d.start → d.kind ≠ .free) :
    Inv h' (l ++ (m' ++ r)) fl' := by
  have hcases : ∀ c, c ∈ l ++ (m' ++ r) ↔ c ∈ m' ∨ c ∈ l ++ r := by
    intro c; simp only [List.mem_append]; tauto
  have hmem : ∀ c ∈ l ++ r, c ∈ l ++ (m ++ r) := by
    intro c; simp only [List.mem_append]; tauto
  have hsent : ∀ c ∈ l ++ (m ++ r), c.start = 0 ∨ c.start = h.len - 2 →
      c ∈ l ++ (m' ++ r) := by
    intro c hc h0
    have : c ∉ m := fun hm => by have := hold c hm; tauto
    simp only [List.mem_append] at hc ⊢; tauto
  refine { L with built := ?_, first := ?_, last := ?_, sizes := ?_, coalesced := ?_,
                  free_listed := hfl }
  · intro c hc
    rcases (hcases c).mp hc with hc | hc
    exacts [(hnew c hc).1, I.built c (hmem c hc)]
  · exact hsent _ I.first (.inl rfl)
  · rw [hreg.2]; exact hsent _ I.last (.inr rfl)
  · intro c hc h0 hl
    rw [hreg.2] at hl
    rcases (hcases c).mp hc with hc | hc
    exacts [(hnew c hc).2, I.sizes c (hmem c hc) h0 hl]
  · rintro c hc d hd he ⟨hkc, hkd⟩
    rcases (hcases c).mp hc with hc | hc <;> rcases (hcases d).mp hd with hd | hd
    · exact hin c hc d hd he ⟨hkc, hkd⟩
    · exact hside c hc hkc d hd (.inr he) hkd
    · exact hside d hd hkd c hc (.inl he) hkc
    · exact I.coalesced c (hmem c hc) d (hmem d hd) he ⟨hkc, hkd⟩

/-! ## `Heap::init` -/

theorem initBlocks_spec (hlen : 8 ≤ h.len) (havail : h.avail = 0) :
    ∃ h', initBlocks h = .ok () h' ∧ SameRegion h h' ∧
      Inv h' [⟨0, 2, .taken⟩, ⟨2, h.len - 4, .free⟩, ⟨h.len - 2, 2, .taken⟩] [2] := by
  have L₀ : Layout h ([] ++ ⟨0, 2 + (h.len - 4 + 2), .raw⟩ :: []) [] := by
    refine ⟨⟨rfl, by change 0 < 2 + (h.len - 4 + 2); omega, ?_⟩, fun b hb hk => ?_,
      havail, by simp⟩
    · change 0 + (2 + (h.len - 4 + 2)) = h.len; omega
    · simp at hb; exact absurd (by rw [hb]) hk
  have L₁ := (Layout.cut_raw (by omega) (by omega)).mp L₀
  obtain ⟨h₁, hr₁, hs₁, L₂, _⟩ := L₁.makeTaken_layout
  have L₃ := (Layout.cut_raw (l := [⟨0, 2, .taken⟩]) (by omega) (by omega)).mp L₂
  obtain ⟨h₂, hr₂, hs₂, L₄, _, _⟩ := L₃.makeAvail_layout (by omega) (by omega)
  obtain ⟨h₃, hr₃, hs₃, L₅, _⟩ :=
    Layout.makeTaken_layout (l := [⟨0, 2, .taken⟩, ⟨2, h.len - 4, .free⟩]) (r := []) L₄
  have hp : (0 : Int) + 2 + (h.len - 4) = h.len - 2 := by omega
  have hs := (hs₁.trans hs₂).trans hs₃
  rw [hp] at hr₃ L₅
  refine ⟨h₃, ?_, hs, L₅, ?_, by simp, by simp [hs.2], ?_, ?_, by simp⟩
  · rw [initBlocks, bind_ok (show getLen h = .ok h.len h from rfl), bind_ok hr₁,
      bind_ok (show makeAvail 2 (h.len - 4) h₁ = .ok () h₂ from hr₂), hr₃]
  · intro b hb; simp at hb; rcases hb with rfl | rfl | rfl <;> simp
  · intro b hb h0 hl
    simp at hb
    rcases hb with rfl | rfl | rfl
    · exact absurd rfl h0
    · change 4 ≤ h.len - 4; omega
    · exact absurd (by rw [hs.2]) hl
  · rintro b hb c hc he ⟨hkb, hkc⟩
    simp at hb hc
    rcases hb with rfl | rfl | rfl <;> rcases hc with rfl | rfl | rfl <;> simp at hkb hkc he
    omega

/-! ## `malloc` -/

theorem Inv.mem_of_remove (I : Inv h bs (l₁ ++ b.start :: l₂)) (hb : b ∈ bs) (hc : c ∈ bs)
    (hk : c.kind = .free) (hne : c ≠ b) : c.start ∈ l₁ ++ l₂ := by
  have h1 := I.free_listed c hc hk
  have h2 : c.start ≠ b.start := fun he => hne (I.tiles.eq_of_start hc hb he)
  simp only [List.mem_append, List.mem_cons] at h1 ⊢
  tauto

/-- Taking an available block that is large enough, whole or split. -/
theorem take_spec (I : Inv h bs fl) (hb : b ∈ bs) (hk : b.kind = .free) (h4 : 4 ≤ ints)
    (hs : ints ≤ b.size) :
    ∃ h' bs' fl' t, take v ints b.start b.size h = .ok () h' ∧ SameRegion h h' ∧
      Inv h' bs' fl' ∧ Takes bs bs' t ∧ t.start = b.start ∧ ints ≤ t.size ∧
      KeepsTaken h h' bs := by
  obtain ⟨l₁, l₂, rfl⟩ := List.append_of_mem (I.free_listed b hb hk)
  obtain ⟨h₁, hr₁, hs₁, L₁, hk₁, -⟩ := I.remove_layout (v := v)
  have hsent := I.free_ne_sentinel hb hk
  have hbd := I.bounds hb
  have hout : b.start ∉ l₁ ++ l₂ :=
    (List.nodup_cons.mp (List.nodup_middle.mp I.links.linked.nodup)).1
  obtain ⟨l, r, rfl⟩ := List.append_of_mem hb
  have hne : ∀ c ∈ l ++ r, c ≠ b := by
    have := List.nodup_middle.mp I.tiles.nodup
    rintro c hc rfl
    exact (List.nodup_cons.mp this).1 hc
  have hmem : ∀ c ∈ l ++ r, c ∈ l ++ b :: r := by
    intro c hc; simp only [List.mem_append, List.mem_cons] at hc ⊢; tauto
  have hfl : ∀ c ∈ l ++ r, c.kind = .free → c.start ∈ l₁ ++ l₂ :=
    fun c hc hkc => I.mem_of_remove hb (hmem c hc) hkc (hne c hc)
  have htaken : ∀ c ∈ l ++ b :: r, c.kind = .taken → c ∈ l ++ r := by
    intro c hc hkc
    have : c ≠ b := by rintro rfl; simp [hk] at hkc
    simp only [List.mem_append, List.mem_cons] at hc ⊢; tauto
  have htakes : ∀ n rest, (∀ c ∈ rest, c.kind = .free) →
      Takes (l ++ b :: r) (l ++ (⟨b.start, n, .taken⟩ :: rest ++ r))
        ⟨b.start, n, .taken⟩ := by
    intro n rest hrest
    refine ⟨rfl, fun hm => ?_, fun c hkc => ?_⟩
    · have := I.tiles.eq_of_start hm hb rfl
      rw [← this] at hk; simp at hk
    · have h1 : c ≠ b := by rintro rfl; simp [hk] at hkc
      have h2 : c ∉ rest := fun h => by simp [hrest c h] at hkc
      simp only [List.mem_append, List.mem_cons]; tauto
  have L₂ := L₁.to_raw hout
  by_cases hextra : 4 ≤ b.size - ints
  · rw [show b.size = ints + (b.size - ints) by omega] at L₂
    have L₃ := (Layout.cut_raw (by omega) (by omega)).mp L₂
    obtain ⟨h₂, hr₂, hs₂, L₄, hk₂⟩ := L₃.makeTaken_layout
    have L₄' : Layout h₂ ((l ++ [⟨b.start, ints, .taken⟩]) ++
        ⟨b.start + ints, b.size - ints, .raw⟩ :: r) (l₁ ++ l₂) := by simpa using L₄
    obtain ⟨h₃, hr₃, hs₃, L₅, hk₃, -⟩ := L₄'.makeAvail_layout hextra (by omega)
    have hreg := (hs₁.trans hs₂).trans hs₃
    have L₅' : Layout h₃ (l ++ ([⟨b.start, ints, .taken⟩,
        ⟨b.start + ints, b.size - ints, .free⟩] ++
          r)) ((b.start + ints) :: (l₁ ++ l₂)) := by
      simpa using L₅
    refine ⟨h₃, _, _, ⟨b.start, ints, .taken⟩, ?_, hreg,
      Inv.rebuild (m := [b]) I L₅' hreg ?_ ?_ ?_ ?_ ?_, htakes _ _ (by simp), rfl, Int.le_refl _,
      fun c hc hkc => ?_⟩
    · rw [take, bind_ok hr₁, if_pos hextra, bind_ok hr₂, hr₃]
    · simpa using hsent
    · simp only [List.mem_cons, List.not_mem_nil, or_false]
      rintro c (rfl | rfl)
      exacts [⟨by simp, h4⟩, ⟨by simp, hextra⟩]
    · intro c hc hkc
      by_cases hlr : c ∈ l ++ r
      · exact List.mem_cons_of_mem _ (hfl c hlr hkc)
      · have : c = ⟨b.start, ints, .taken⟩ ∨
            c = ⟨b.start + ints, b.size - ints, .free⟩ := by
          simp at hc hlr; tauto
        rcases this with rfl | rfl
        · simp at hkc
        · simp
    · simp only [List.mem_cons, List.not_mem_nil, or_false]
      rintro c (rfl | rfl) d (rfl | rfl) he ⟨hkc, hkd⟩
      · simp at hkc
      · simp at hkc
      · simp at hkd
      · dsimp only at he; omega
    · simp only [List.mem_cons, List.not_mem_nil, or_false]
      rintro c (rfl | rfl) hkc d hd he hkd
      · simp at hkc
      · have := (L₁.to_raw hout).beside hd
        have := I.bounds (hmem d hd)
        dsimp only at he
        exact I.coalesced b hb d (hmem d hd) (by omega) ⟨hk, hkd⟩
    · have hc' := htaken c hc hkc
      refine ((hk₁ c hc (by simp [hkc])).trans (hk₂ c ?_)).trans (hk₃ c ?_ (by simp [hkc]))
      · simp only [List.mem_append, List.mem_cons] at hc' ⊢; tauto
      · simp only [List.mem_append, List.mem_cons] at hc' ⊢; tauto
  · obtain ⟨h₂, hr₂, hs₂, L₄, hk₂⟩ := L₂.makeTaken_layout
    have hreg := hs₁.trans hs₂
    refine ⟨h₂, _, _, ⟨b.start, b.size, .taken⟩, ?_, hreg,
      Inv.rebuild (m := [b]) I
        (show Layout h₂ (l ++ ([⟨b.start, b.size, .taken⟩] ++ r)) _ from L₄)
        hreg ?_ ?_ ?_ ?_ ?_, htakes _ [] (by simp), rfl, hs, fun c hc hkc => ?_⟩
    · rw [take, bind_ok hr₁, if_neg hextra, hr₂]
    · simpa using hsent
    · simpa using I.free_size hb hk
    · intro c hc hkc
      refine hfl c ?_ hkc
      have : c ≠ ⟨b.start, b.size, .taken⟩ := by rintro rfl; simp at hkc
      simp at hc ⊢; tauto
    · simp
    · simp
    · exact (hk₁ c hc (by simp [hkc])).trans (hk₂ c (htaken c hc hkc))

/-- The search takes the first block of the rest of the list that is large enough, if there is
one, and changes nothing before it has found it. -/
theorem search_spec (I : Inv h bs fl) {rest done : List Int} {fuel : Nat} (hfl : fl = done ++ rest)
    (hfuel : rest.length < fuel) :
    (search v ints fuel (rest.headD 0) h = .ok none h ∧
      ∀ b ∈ bs, b.start ∈ rest → b.size < ints) ∨
    ∃ b ∈ bs, b.kind = .free ∧ ints ≤ b.size ∧ search v ints fuel (rest.headD 0) h =
      (do take v ints b.start b.size; return some b.start : HeapM (Option Int)) h := by
  induction rest generalizing done fuel with
  | nil =>
    obtain ⟨fuel, rfl⟩ := Nat.exists_eq_succ_of_ne_zero (Nat.ne_of_gt hfuel)
    exact .inl ⟨by simp [search], by simp⟩
  | cons i rest ih =>
    obtain ⟨fuel, rfl⟩ := Nat.exists_eq_succ_of_ne_zero (Nat.ne_zero_of_lt hfuel)
    obtain ⟨b, hb, rfl, hk, _⟩ := I.listed i (by simp [hfl])
    have h0 := (I.free_ne_sentinel hb hk).1
    have hbuilt := I.built b hb
    have hstep : search v ints (fuel + 1) b.start h =
        (if ints ≤ b.size then (do take v ints b.start b.size; return some b.start)
          else search v ints fuel (rest.headD 0) : HeapM (Option Int)) h := by
      rw [search, if_neg h0, bind_ok (I.isAvail_block hb hbuilt)]
      simp only [hk, decide_true, Bool.not_true, Bool.false_eq_true, if_false]
      rw [bind_ok (I.size_block hb hbuilt)]
      split
      · rfl
      · subst hfl
        rw [bind_ok I.next_listed]
    rw [List.headD_cons, hstep]
    by_cases hs : ints ≤ b.size
    · exact .inr ⟨b, hb, hk, hs, by rw [if_pos hs]⟩
    rw [if_neg hs]
    have hfl' : fl = (done ++ [b.start]) ++ rest := by simp [hfl]
    rcases ih hfl' (by simpa using hfuel) with
      ⟨hrun, hall⟩ | h
    · refine .inl ⟨hrun, fun c hc hi => ?_⟩
      rcases List.mem_cons.mp hi with he | hi
      · rw [I.tiles.eq_of_start hc hb he]; omega
      · exact hall c hc hi
    · exact .inr h

theorem mallocInts_spec (I : Inv h bs fl) (h4 : 4 ≤ ints) :
    (mallocInts v ints h = .ok none h ∧ ∀ b ∈ bs, b.kind = .free → b.size < ints) ∨
    ∃ h' bs' fl' t, mallocInts v ints h = .ok (some t.start) h' ∧ SameRegion h h' ∧
      Inv h' bs' fl' ∧ Takes bs bs' t ∧ t.start ≠ 0 ∧ t.start ≠ h.len - 2 ∧
      ints ≤ t.size ∧
      KeepsTaken h h' bs ∧ ∃ b ∈ bs, b.kind = .free ∧ ints ≤ b.size := by
  have hrun : mallocInts v ints h = search v ints (h.len.toNat + 1) (fl.headD 0) h := by
    rw [mallocInts, bind_ok (show getAvail h = .ok h.avail h from rfl), I.links.head_eq,
      bind_ok (I.sanity_listed (i := fl.headD 0) ?_),
      bind_ok (show getLen h = .ok h.len h from rfl)]
    cases fl with
    | nil => exact .inl rfl
    | cons i fl => right; simp
  rw [hrun]
  have hsearch := @search_spec h v bs fl ints I fl [] (h.len.toNat + 1) rfl
    (Nat.lt_succ_of_le I.length_le)
  rcases hsearch with ⟨hnone, hall⟩ | ⟨b, hb, hk, hs, hsome⟩
  · exact .inl ⟨hnone, fun b hb hk => hall b hb (I.free_listed b hb hk)⟩
  · obtain ⟨h', bs', fl', t, ht, hreg, I', htakes, hstart, hsize, hkeeps⟩ :=
      take_spec (v := v) I hb hk h4 hs
    have hsent := I.free_ne_sentinel hb hk
    refine .inr ⟨h', bs', fl', t, ?_, hreg, I', htakes, ?_, ?_, hsize, hkeeps, b, hb, hk, hs⟩
    · rw [hsome, bind_ok ht, hstart]; rfl
    · rw [hstart]; exact hsent.1
    · rw [hstart]; exact hsent.2

/-! ## `free` -/

/-- Exactly the block `t` has been taken away from the taken blocks. -/
def Releases (bs bs' : List Block) (t : Block) : Prop :=
  ∀ c, c.kind = .taken → (c ∈ bs' ↔ c ∈ bs ∧ c ≠ t)

/-- `remove` and `size` of an available neighbour. -/
theorem absorb (L : Layout h bs fl) (ha : a ∈ bs) (hk : a.kind = .free) (hl : a.start ∈ fl) :
    ∃ h' fl', remove v a.start h = .ok () h' ∧ size a.start h' = .ok a.size h' ∧
      SameRegion h h' ∧ Layout h' bs fl' ∧ a.start ∉ fl' ∧
      (∀ i ∈ fl, i ≠ a.start → i ∈ fl') ∧
      (∀ c ∈ bs, c.kind ≠ .free → Keeps h h' c) ∧
      (∀ i ∈ fl', i ∈ fl) ∧ KeepsBut h h' fl := by
  obtain ⟨l₁, l₂, rfl⟩ := List.append_of_mem hl
  obtain ⟨h', hr, hs, L', hkeep, hbut⟩ := L.remove_layout (v := v)
  refine ⟨h', _, hr, L'.size_block ha (by simp [hk]), hs, L', ?_, fun i hi hne => ?_, hkeep,
    fun i hi => ?_, hbut⟩
  · exact (List.nodup_cons.mp (List.nodup_middle.mp L.links.linked.nodup)).1
  · simp only [List.mem_append, List.mem_cons] at hi ⊢; tauto
  · simp only [List.mem_append, List.mem_cons] at hi ⊢; tauto

/-- The freed block grows to the left over an available neighbour. -/
theorem absorbLeft_spec (I : Inv h (l ++ a :: b :: r) fl) (hkb : b.kind = .taken)
    (hend : a.start + a.size = b.start) :
    ∃ h' p n la ma fl', absorbLeft v a.start b.start b.size h = .ok (p, n) h' ∧
      SameRegion h h' ∧ la ++ ma = l ++ [a] ∧ (∀ x ∈ ma, x.kind = .free) ∧
      (∀ x ∈ la, x.start + x.size = p → x.kind ≠ .free) ∧ p + n = b.start + b.size ∧
      b.size ≤ n ∧ Layout h' (la ++ ⟨p, n, .raw⟩ :: r) fl' ∧
      (∀ x ∈ la ++ r, x.kind = .free → x.start ∈ fl') ∧
      (∀ x ∈ la ++ r, x.kind ≠ .free → Keeps h h' x) ∧
      (∀ i ∈ fl', i ∈ fl) ∧ KeepsBut h h' fl ∧
      (p = if a.kind = .free then a.start else b.start) ∧
      ∀ x ∈ ma, x = a := by
  have hbm : b ∈ l ++ a :: b :: r := by simp
  have ham : a ∈ l ++ a :: b :: r := by simp
  have hbout : b.start ∉ fl := I.not_listed hbm (by simp [hkb])
  have L₀ : Layout h ((l ++ [a]) ++ ⟨b.start, b.size, .raw⟩ :: r) fl :=
    Layout.to_raw (by simpa using I.toLayout) hbout
  by_cases hk : a.kind = .free
  · obtain ⟨h', fl', hr, hsz, hreg, L', hout, hin, hkeep, hsub, hbut⟩ :=
      absorb (v := v) L₀ (a := a) (by simp) hk (I.free_listed a ham hk)
    have L₁ : Layout h' (l ++ a :: ⟨b.start, b.size, .raw⟩ :: r) fl' := by simpa using L'
    have L₂ := L₁.to_raw hout
    rw [← hend] at L₂
    have L₃ := (Layout.cut_raw (I.bounds ham).2.1 (I.bounds hbm).2.1).mpr L₂
    rw [Int.add_comm] at L₃
    have hmem : ∀ x ∈ l ++ r, x ∈ l ++ a :: b :: r := by
      intro x hx; simp only [List.mem_append, List.mem_cons] at hx ⊢; tauto
    refine ⟨h', a.start, b.size + a.size, l, [a], fl', ?_, hreg, rfl, by simpa using hk, ?_,
      by omega, by have := I.bounds ham; omega, L₃, fun x hx hkx => ?_, fun x hx hkx => ?_, hsub,
        hbut,
      (if_pos hk).symm, by simp⟩
    · rw [absorbLeft, bind_ok (I.isAvail_block ham (I.built a ham)), if_pos (by simpa using hk),
        bind_ok hr, bind_ok hsz]
      rfl
    · intro x hx he hkx
      exact I.coalesced x (by simp [hx]) a ham he ⟨hkx, hk⟩
    · refine hin _ (I.free_listed x (hmem x hx) hkx) fun he => ?_
      have := I.bounds (hmem x hx)
      have := I.bounds ham
      have := I.bounds hbm
      have := (L₃.beside hx).2
      omega
    · exact hkeep x (by simp only [List.mem_append, List.mem_cons] at hx ⊢; tauto) hkx
  · refine ⟨h, b.start, b.size, l ++ [a], [], fl, ?_, ⟨rfl, rfl⟩, by simp, by simp, ?_, rfl,
      Int.le_refl _, L₀, fun x hx hkx => ?_, fun _ _ _ _ _ _ => rfl, fun _ => id, fun _ _ => rfl,
      (if_neg hk).symm, by simp⟩
    · rw [absorbLeft, bind_ok (I.isAvail_block ham (I.built a ham)), if_neg (by simpa using hk)]
      rfl
    · intro x hx he hkx
      have hxm : x ∈ l ++ a :: b :: r := by simp at hx ⊢; tauto
      have : x = a := by
        rcases I.tiles.apart hxm ham with h | h | h
        · exact h
        · have := I.bounds ham; omega
        · have := I.bounds hxm; omega
      exact hk (this ▸ hkx)
    · exact I.free_listed x (by simp at hx ⊢; tauto) hkx

/-- Then it grows to the right. -/
theorem absorbRight_spec {p n : Int} (L : Layout h (l ++ ⟨p, n, .raw⟩ :: c :: r) fl)
    (hkc : c.kind ≠ .raw) (hlist : ∀ x ∈ l ++ c :: r, x.kind = .free → x.start ∈ fl)
    (hco : ∀ x ∈ r, c.start + c.size = x.start → ¬ (c.kind = .free ∧ x.kind = .free)) :
    ∃ h' n' mc rc fl', absorbRight v c.start n h = .ok n' h' ∧
      SameRegion h h' ∧ mc ++ rc = c :: r ∧ (∀ x ∈ mc, x.kind = .free) ∧
      (∀ x ∈ rc, p + n' = x.start → x.kind ≠ .free) ∧ n ≤ n' ∧
      Layout h' (l ++ ⟨p, n', .raw⟩ :: rc) fl' ∧
      (∀ x ∈ l ++ rc, x.kind = .free → x.start ∈ fl') ∧
      (∀ x ∈ l ++ rc, x.kind ≠ .free → Keeps h h' x) ∧
      (∀ i ∈ fl', i ∈ fl) ∧ KeepsBut h h' fl ∧
      (n' = n + if c.kind = .free then c.size else 0) ∧ ∀ x ∈ mc, x = c := by
  obtain ⟨_, hn, hend, hc, hr⟩ := Tiles.at_piece.mp L.tiles
  dsimp only at hn hend hr
  by_cases hk : c.kind = .free
  · obtain ⟨h', fl', hr', hsz, hreg, L', hout, hin, hkeep, hsub, hbut⟩ :=
      absorb (v := v) L (a := c) (by simp) hk (hlist c (by simp) hk)
    have L₁ : Layout h' ((l ++ [⟨p, n, .raw⟩]) ++ c :: r) fl' := by simpa using L'
    have L₂ := L₁.to_raw hout
    rw [hend] at L₂
    have L₃ := (Layout.cut_raw (l := l) hn hc).mpr (by simpa using L₂)
    refine ⟨h', n + c.size, [c], r, fl', ?_, hreg, rfl, by simpa using hk, ?_, by omega, L₃,
      fun x hx hkx => ?_, fun x hx hkx => ?_, hsub, hbut, by rw [if_pos hk], by simp⟩
    · rw [absorbRight, bind_ok (L.isAvail_block (by simp) hkc), if_pos (by simpa using hk),
        bind_ok hr', bind_ok hsz]
      rfl
    · intro x hx he hkx
      exact hco x hx (by omega) ⟨hk, hkx⟩
    · refine hin _ (hlist x (by simp at hx ⊢; tauto) hkx) fun he => ?_
      have := (L₃.beside hx).2
      have := L₃.bounds (L₃.beside hx).1
      omega
    · exact hkeep x (by simp only [List.mem_append, List.mem_cons] at hx ⊢; tauto) hkx
  · refine ⟨h, n, [], c :: r, fl, ?_, ⟨rfl, rfl⟩, by simp, by simp, ?_,
      Int.le_refl _, L, hlist,
      fun _ _ _ _ _ _ => rfl, fun _ => id, fun _ _ => rfl, by rw [if_neg hk, Int.add_zero], by
        simp⟩
    · rw [absorbRight, bind_ok (L.isAvail_block (by simp) hkc), if_neg (by simpa using hk)]
      rfl
    · intro x hx he hkx
      rcases List.mem_cons.mp hx with rfl | hx
      · exact hk hkx
      · have := (hr.bounds hx).1; omega

/-- What `free` of `b` makes of its neighbourhood: `b` becomes one available block with its
available neighbours, and nothing but tags and links of available blocks is written. -/
structure Merges (h h' : State) (bs bs' : List Block) (a b c d : Block) : Prop where
  left : a ∈ bs ∧ a.start + a.size = b.start
  right : c ∈ bs ∧ c.start = b.start + b.size
  merged : d ∈ bs' ∧ d.kind = .free
  start : d.start = if a.kind = .free then a.start else b.start
  stop : d.start + d.size = if c.kind = .free then c.start + c.size else c.start
  others : ∀ x ∈ bs, x.kind = .free → x ∈ bs' ∨ d.start ≤ x.start ∧
    x.start + x.size ≤ d.start + d.size
  keeps : ∀ j, j ≠ d.start → j ≠ d.start + 1 → j ≠ d.start + 2 →
    j ≠ d.start + d.size - 1 →
    (∀ x ∈ bs, x.kind = .free → j ≠ x.start + 1 ∧ j ≠ x.start + 2) →
      h'.array j = h.array j

/-- The block `b` between its neighbours `a` and `c`, with those of them that are available, is one
piece of `n` ints at `q`, which is not in the list. -/
structure Grown (h h' : State) (bs : List Block) (fl fl' : List Int) (a b c : Block)
    (la ma mc rc : List Block) (q n : Int) : Prop where
  split : bs = la ++ ((ma ++ b :: mc) ++ rc)
  left : ∀ x ∈ ma, x = a ∧ x.kind = .free
  right : ∀ x ∈ mc, x = c ∧ x.kind = .free
  region : SameRegion h h'
  layout : Layout h' (la ++ ⟨q, n, .raw⟩ :: rc) fl'
  listed : ∀ x ∈ la ++ rc, x.kind = .free → x.start ∈ fl'
  keeps : ∀ x ∈ la ++ rc, x.kind ≠ .free → Keeps h h' x
  keepsBut : KeepsBut h h' fl
  sub : ∀ i ∈ fl', i ∈ fl
  before : ∀ x ∈ la, x.start + x.size = q → x.kind ≠ .free
  after : ∀ x ∈ rc, q + n = x.start → x.kind ≠ .free
  start : q = if a.kind = .free then a.start else b.start
  stop : q + n = if c.kind = .free then c.start + c.size else c.start
  inside : q ≤ b.start ∧ b.start + b.size ≤ q + n

/-- `freeIndex` up to `makeAvail`. -/
theorem freeIndex_absorbs (I : Inv h bs fl) (hb : b ∈ bs) (hk : b.kind = .taken)
    (h0 : b.start ≠ 0) (hlast : b.start ≠ h.len - 2) :
    ∃ h' fl' a c la ma mc rc q n, (a ∈ bs ∧ a.start + a.size = b.start) ∧
    (c ∈ bs ∧ c.start = b.start + b.size) ∧
      Grown h h' bs fl fl' a b c la ma mc rc q n ∧
      freeIndex v p b.start h = makeAvail q n h' := by
  have hbuilt : b.kind ≠ .raw := I.built b hb
  obtain ⟨l, a, c, r, rfl, hend, hstart⟩ := I.neighbours hb h0 hlast
  have ham : a ∈ l ++ a :: b :: c :: r := by simp
  have hcm : c ∈ l ++ a :: b :: c :: r := by simp
  obtain ⟨h₁, q, n, la, ma, fl₁, hr₁, hs₁, hma, hmafree, hla, hqn, hn, L₁, hlist₁,
      hk₁, hsub₁,
    hbut₁, hqe, hmae⟩ :=
    absorbLeft_spec (v := v) I hk hend
  obtain ⟨h₂, n', mc, rc, fl₂, hr₂, hs₂, hmc, hmcfree, hrc, hnn, L₂, hlist₂, hk₂,
      hsub₂, hbut₂, hne, hmce⟩ :=
    absorbRight_spec (v := v) L₁ (I.built c hcm) hlist₁ fun x hx he =>
      I.coalesced c hcm x (by simp [hx]) he
  have hout : ∀ x ∈ la ++ rc, x ∈ la ++ c :: r := by
    intro x hx
    rw [← hmc]
    simp only [List.mem_append] at hx ⊢; tauto
  have hbs : l ++ a :: b :: c :: r = la ++ ((ma ++ b :: mc) ++ rc) := by
    have : l ++ a :: b :: c :: r = (l ++ [a]) ++ b :: (c :: r) := by simp
    rw [this, ← hma, ← hmc]; simp
  refine ⟨h₂, fl₂, a, c, la, ma, mc, rc, q, n', ⟨ham, hend⟩, ⟨hcm, hstart⟩, {
    split := hbs
    left := fun x hx => ⟨hmae x hx, hmafree x hx⟩
    right := fun x hx => ⟨hmce x hx, hmcfree x hx⟩
    region := hs₁.trans hs₂
    layout := L₂
    listed := hlist₂
    keeps := fun x hx hkx => (hk₁ x (hout x hx) hkx).trans (hk₂ x hx hkx)
    keepsBut := fun j hj => (hbut₂ j fun z hz => hj z (hsub₁ z hz)).trans (hbut₁ j hj)
    sub := fun z hz => hsub₁ z (hsub₂ z hz)
    before := hla
    after := hrc
    start := hqe
    stop := by rw [hne]; split <;> omega
    inside := ⟨by omega, by omega⟩ }, ?_⟩
  rw [freeIndex, bind_ok (I.sanity_block hb hbuilt), bind_ok (I.isTaken_block hb hbuilt)]
  simp only [hk, decide_true, Bool.not_true, Bool.false_eq_true, if_false]
  rw [bind_ok (I.size_block hb hbuilt), bind_ok (I.left_block hb ham (I.built a ham) hend),
    bind_ok (I.right_block hb hbuilt hcm (I.built c hcm) hstart), bind_ok hr₁, bind_ok hr₂]

namespace Grown

variable {a c x : Block} {la ma mc rc : List Block} {q n : Int}

theorem mem_split (A : Grown h h' bs fl fl' a b c la ma mc rc q n) :
    x ∈ bs ↔ x ∈ la ++ rc ∨ x ∈ ma ∨ x = b ∨ x ∈ mc := by
  rw [A.split]
  simp only [List.mem_append, List.mem_cons]
  tauto

/-- The other taken blocks are left. -/
theorem taken_mem (A : Grown h h' bs fl fl' a b c la ma mc rc q n) (hx : x ∈ bs)
    (hkx : x.kind = .taken) (hxb : x ≠ b) : x ∈ la ++ rc := by
  have hnot : x.kind ≠ .free := by simp [hkx]
  rcases A.mem_split.mp hx with hx | hx | hx | hx
  · exact hx
  · exact absurd (A.left x hx).2 hnot
  · exact absurd hx hxb
  · exact absurd (A.right x hx).2 hnot

theorem ne (A : Grown h h' bs fl fl' a b c la ma mc rc q n) (hb : 0 < b.size)
    (hx : x ∈ la ++ rc) : x ≠ b := by
  rintro rfl
  have := (A.layout.beside hx).2
  have := A.inside
  omega

/-- The block that is absorbed is none of the two sentinels. -/
theorem piece_ne (A : Grown h h' bs fl fl' a b c la ma mc rc q n) (I : Inv h bs fl)
    (h0 : b.start ≠ 0) (hlast : b.start ≠ h.len - 2) (hx : x ∈ ma ++ b :: mc) :
    x.start ≠ 0 ∧ x.start ≠ h.len - 2 := by
  have hfree (hx : x ∈ ma ∨ x ∈ mc) : x.start ≠ 0 ∧ x.start ≠ h.len - 2 := by
    have hkx : x.kind = .free := hx.elim (fun hx => (A.left x hx).2) fun hx => (A.right x hx).2
    exact I.free_ne_sentinel (A.mem_split.mpr (by tauto)) hkx
  rcases List.mem_append.mp hx with hx | hx
  · exact hfree (.inl hx)
  rcases List.mem_cons.mp hx with rfl | hx
  · exact ⟨h0, hlast⟩
  · exact hfree (.inr hx)

/-- The first block of the region is not part of it. -/
theorem start_ne_zero (A : Grown h h' bs fl fl' a b c la ma mc rc q n) (I : Inv h bs fl)
    (h0 : b.start ≠ 0) : q ≠ 0 := by
  rw [A.start]
  split
  next hka =>
    -- the first block is taken
    intro ha
    have hbd := A.layout.bounds (b := ⟨q, n, .raw⟩) (by simp)
    have hqa := A.start
    rw [if_pos hka, ha] at hqa
    have hfirst : (⟨0, 2, .taken⟩ : Block) ∈ la ++ rc :=
      A.taken_mem I.first rfl fun h => h0 (by rw [← h])
    have := (A.layout.beside hfirst).2
    dsimp only at this hbd
    omega
  next => exact h0

end Grown

theorem freeIndex_spec (I : Inv h bs fl) (hb : b ∈ bs) (hk : b.kind = .taken) (h0 : b.start ≠ 0)
    (hlast : b.start ≠ h.len - 2) :
    ∃ h' bs' fl', freeIndex v p b.start h = .ok () h' ∧ SameRegion h h' ∧ Inv h' bs' fl' ∧
      Releases bs bs' b ∧ (∀ c ∈ bs, c.kind = .taken → c ≠ b → Keeps h h' c) ∧
      ∃ a c d, Merges h h' bs bs' a b c d := by
  obtain ⟨h₂, fl₂, a, c, la, ma, mc, rc, q, n, ha, hc, A, hrun⟩ :=
    freeIndex_absorbs (v := v) (p := p) I hb hk h0 hlast
  have hsize := I.sizes b hb h0 hlast
  have hin := A.inside
  obtain ⟨h₃, hr₃, hs₃, L₃, hk₃, hbut₃⟩ :=
    A.layout.makeAvail_layout (by omega) (A.start_ne_zero I h0)
  have hreg := A.region.trans hs₃
  have hmem {x : Block} : x ∈ la ++ ([⟨q, n, .free⟩] ++ rc) ↔ x = ⟨q, n, .free⟩ ∨
      x ∈ la ++ rc := by
    simp only [List.mem_append, List.mem_cons, List.not_mem_nil, or_false]; tauto
  have I' := I
  rw [A.split] at I'
  refine ⟨h₃, _, _, hrun.trans hr₃, hreg,
    Inv.rebuild I' (show Layout h₃ (la ++ ([⟨q, n, .free⟩] ++ rc)) _ from L₃) hreg
      (fun x hx => A.piece_ne I h0 hlast hx) ?_ (fun x hx hkx => ?_) ?_ ?_,
    fun x hkx => ⟨fun hx => ?_, fun hx => ?_⟩, fun x hx hkx hxb => ?_, a, c, ⟨q, n, .free⟩,
    ha, hc, ⟨by simp, rfl⟩, A.start, A.stop, fun x hx hkx => ?_, fun j h1 h2 h3 h4 hj => ?_⟩
  · simp; omega
  · rcases hmem.mp hx with rfl | hx
    · exact List.mem_cons_self
    · exact List.mem_cons_of_mem _ (A.listed x hx hkx)
  · simp; omega
  · -- what lies beside the new block is not available
    obtain ⟨hl, -, hr⟩ := Tiles.at_piece.mp A.layout.tiles
    simp only [List.mem_cons, List.not_mem_nil, or_false]
    rintro x rfl - y hy (he | he) hky
    · rcases List.mem_append.mp hy with hy | hy
      · exact A.before y hy he hky
      · have := hr.bounds hy
        dsimp only at this he; omega
    · rcases List.mem_append.mp hy with hy | hy
      · have := hl.bounds hy
        dsimp only at this he; omega
      · exact A.after y hy he hky
  · have hx' : x ∈ la ++ rc := (hmem.mp hx).resolve_left (by rintro rfl; simp at hkx)
    exact ⟨A.mem_split.mpr (.inl hx'), A.ne (I.bounds hb).2.1 hx'⟩
  · exact hmem.mpr (.inr (A.taken_mem hx.1 hkx hx.2))
  · have hx' := A.taken_mem hx hkx hxb
    exact (A.keeps x hx' (by simp [hkx])).trans (hk₃ x hx' (by simp [hkx]))
  · have hstart := A.start
    have hstop := A.stop
    dsimp only
    rcases A.mem_split.mp hx with hx | hx | rfl | hx
    · exact .inl (hmem.mpr (.inr hx))
    · obtain ⟨rfl, -⟩ := A.left x hx
      rw [if_pos hkx] at hstart
      exact .inr ⟨by omega, by omega⟩
    · rw [hk] at hkx
      cases hkx
    · obtain ⟨rfl, -⟩ := A.right x hx
      rw [if_pos hkx] at hstop
      exact .inr ⟨by omega, by omega⟩
  · have hfree {z : Int} (hz : z ∈ fl) : j ≠ z + 1 ∧ j ≠ z + 2 := by
      obtain ⟨x, hx, rfl, hkx, -⟩ := I.listed z hz
      exact hj x hx hkx
    rw [hbut₃ j h1 h4 fun z hz => ?_, A.keepsBut j fun z hz => hfree hz]
    rcases List.mem_cons.mp hz with rfl | hz
    · exact ⟨h2, h3⟩
    · exact hfree (A.sub z hz)

end K439.Heap
