import K439.Vmm.Contents

/-!
# One address space and the others

What an operation on the address space `a` does to the pages of another one: nothing. `Kept` says
that the pages of `b` are the same, at the same frames and with the same contents; every step of
every operation keeps the others.
-/

namespace K439.Vmm

variable {r : Region} {m m' m'' : PhysMem} {g g' g'' : Ghost} {a b child p t f va x : UInt32}
  {i j k l : Nat}
  {s : Slot} {live live' : List UInt32}

/-- The pages of `b` and what is in them. -/
structure Kept (m : PhysMem) (g : Ghost) (m' : PhysMem) (g' : Ghost) (b : UInt32) : Prop where
  page : ∀ k l f, Own m' g' (.page b k l) f ↔ Own m g (.page b k l) f
  mem : ∀ k l f, Own m g (.page b k l) f → m'.mem f = m.mem f

namespace Kept

theorem refl : Kept m g m g b := ⟨fun _ _ _ => Iff.rfl, fun _ _ _ _ => rfl⟩

theorem trans (K : Kept m g m' g' b) (K' : Kept m' g' m'' g'' b) : Kept m g m'' g'' b where
  page k l f := (K'.page k l f).trans (K.page k l f)
  mem k l f h := (K'.mem k l f ((K.page k l f).mpr h)).trans (K.mem k l f h)

/-- The free list does not matter. -/
theorem withFree {free free' : List UInt32}
    (K : Kept m { g with free := free } m' { g' with free := free' } b) :
    Kept m g m' g' b := ⟨K.page, K.mem⟩

/-- Only the ghost changes, and not for `b`. -/
theorem ghost (hlive : b ∈ g'.live ↔ b ∈ g.live)
    (ht : ∀ k, g'.dead (.table b k) ↔ g.dead (.table b k))
    (hp : ∀ k l, g'.dead (.page b k l) ↔ g.dead (.page b k l)) : Kept m g m g' b where
  page k l f := by simp only [Own, OwnTable, hlive, ht, hp]
  mem _ _ _ _ := rfl

/-- A frame changes that is not the directory, a table or a page of `b`. -/
theorem write (I : Inv r m g) (h : Own m g s p) (hd : s ≠ .dir b)
    (ht : ∀ i, 512 ≤ i → s ≠ .table b i) (hp : ∀ k l, s ≠ .page b k l)
    (he : ∀ q, q ≠ p → m'.mem q = m.mem q) : Kept m g m' g b := by
  refine ⟨fun k l f => ?_, fun k l f hf => he f (I.exact.ne hf h (hp k l).symm)⟩
  have htab (t : UInt32) : OwnTable m' g b k t ↔ OwnTable m g b k t :=
    and_congr_right fun hb => by rw [he b (I.dir_ne hb h hd)]
  refine and_congr_right fun hk => and_congr_right fun _ => and_congr_right fun _ =>
    exists_congr fun t => ?_
  rw [htab]
  exact and_congr_right fun hown => by rw [he t (I.table_ne hown h (ht k hk))]

theorem alloc (I : Inv r m g) (A : m.Allocated p m') : Kept m g m' g b where
  page := I.page_alloc A b
  mem k l f hf := A.same f (I.ne_allocated A (s := .page b k l) hf nofun)

/-- `getPTE` in the identity mapping or in the user half -/
theorem getPTE (I : Inv r m g) (ha : a ∈ g.live) (hdead : ∀ s, ¬g.dead s)
    (hlow : index0 va = 0 ∨ 512 ≤ index0 va)
    (h : AddressSpace.getPTE m a va = some ((t, j), m')) : Kept m g m' g b where
  page := (I.getPTE ha hdead hlow h).2.2.2 b
  mem _ _ _ hf := I.getPTE_mem ha h hf nofun nofun

/-- `pmap` below 4 MB -/
theorem pmap_low (I : Inv r m g) (ha : a ∈ g.live) (hdead : ∀ s, ¬g.dead s)
    (hva : index0 va = 0) {pa : UInt32} {u w : Bool}
    (h : AddressSpace.pmap m a va pa u w = some m') : Kept m g m' g b := by
  obtain ⟨⟨⟨t, j⟩, m₁⟩, hg, h⟩ := Option.bind_eq_some_iff.mp h
  cases h
  obtain ⟨⟨free, I₁⟩, ht, -, -⟩ := I.getPTE ha hdead (.inl hva) hg
  rw [hva] at ht
  have hown : Own m₁ { g with free := free } (.table a 0) t := ht
  have h0 (i' : Nat) (hi : 512 ≤ i') : Slot.table a 0 ≠ .table b i' := by
    intro he
    rw [Slot.table.injEq] at he
    omega
  have K : Kept m g m₁ g b := getPTE I ha hdead (.inl hva) hg
  have K' := write (b := b) I₁ hown nofun h0 (fun _ _ => nofun) fun q hq =>
    m₁.write_mem_ne (i := j)
      (x := frame pa ||| (if u then U else 0) ||| (if w then W else 0) ||| 1) hq
  exact K.trans K'.withFree

/-- `pmap` in the user half of another address space -/
theorem pmap (I : Inv r m g) (ha : a ∈ g.live) (hdead : ∀ s, ¬g.dead s)
    (hva : 512 ≤ index0 va) (hb : b ≠ a) {pa : UInt32} {u w : Bool}
    (h : AddressSpace.pmap m a va pa u w = some m') : Kept m g m' g b := by
  obtain ⟨⟨⟨t, j⟩, m₁⟩, hg, h⟩ := Option.bind_eq_some_iff.mp h
  cases h
  obtain ⟨⟨free, I₁⟩, ht, -, -⟩ := I.getPTE ha hdead (.inr hva) hg
  have K : Kept m g m₁ g b := getPTE I ha hdead (.inr hva) hg
  refine K.trans ⟨fun k l f => ?_, fun k l f hf => ?_⟩
  · exact (I₁.page_write ht b k l f).trans (by rw [if_neg fun h => hb h.1]; exact Iff.rfl)
  · exact m₁.write_mem_ne (I₁.table_ne ht (s := .page b k l) hf nofun).symm

end Kept

/-- The pages of `b` between two steps. -/
abbrev Same (m : PhysMem) (live : List UInt32) (m' : PhysMem) (live' : List UInt32)
    (b : UInt32) : Prop :=
  Kept m (Ghost.rest live []) m' (Ghost.rest live' []) b

/-- The identity mapping. -/
theorem Kept.mapIdentity (I : Inv r m g) (ha : a ∈ g.live) (hdead : ∀ s, ¬g.dead s)
    {fuel : Nat} (h : AddressSpace.mapIdentity a fuel m va = some m') : Kept m g m' g b := by
  induction fuel generalizing m g va with
  | zero =>
    cases h
    exact .refl
  | succ fuel ih =>
    rw [AddressSpace.mapIdentity] at h
    split at h
    next hlt =>
      obtain ⟨m₁, hm, h⟩ := Option.bind_eq_some_iff.mp h
      have hva : index0 va = 0 := by
        have h1 := r.limit_le
        rw [I.limit, UInt32.lt_iff_toNat_lt] at hlt
        rw [UInt32.le_iff_toNat_le, show (0x400000 : UInt32).toNat = 0x400000 from rfl] at h1
        rw [index0_toNat]
        omega
      obtain ⟨⟨free, I₁⟩, -⟩ := I.pmap_low ha hdead hva hm
      exact (Kept.pmap_low I ha hdead hva hm).trans (ih I₁ ha hdead h).withFree
    · cases h
      exact .refl

/-- A new address space leaves the others. -/
theorem Rest.create_same (R : Rest r live m) (h : AddressSpace.create m = some (a, m'))
    (hb : b ∈ live) : Same m live m' (a :: live) b := by
  obtain ⟨free, I⟩ := R
  obtain ⟨⟨pd, m₁⟩, hal, h⟩ := Option.bind_eq_some_iff.mp h
  obtain ⟨m₂, hm, h⟩ := Option.bind_eq_some_iff.mp h
  cases h
  have A := m.allocated hal
  have I₁ := (I.alloc A).addDir (.inr rfl) A.zero
  have hne : b ≠ a := (I.alloc A).dir_ne hb (show Own m₁ _ .held a from .inr rfl) nofun
  have K₁ : Kept m₁ (Ghost.rest live free) m₁
      (((Ghost.rest live free).take a).drop a |>.withLive (a :: live)) b :=
    .ghost (by simp [Ghost.withLive, Ghost.rest, hne]) (fun _ => Iff.rfl) fun _ _ => Iff.rfl
  have K₂ := Kept.mapIdentity (b := b) I₁ List.mem_cons_self (fun _ => not_false) hm
  have K := ((Kept.alloc I A).trans K₁).trans K₂
  exact ⟨K.page, K.mem⟩

/-- A page fault of `a` leaves the others. -/
theorem Rest.fault_same (R : Rest r live m) (ha : a ∈ live) (hva : 0x80000000 ≤ va)
    (hb : b ≠ a) (h : AddressSpace.handlePageFault m a va = .mapped m') :
    Same m live m' live b := by
  obtain ⟨free, I⟩ := R
  unfold AddressSpace.handlePageFault at h
  split at h
  · cases h
  split at h
  next m₂ hm =>
    cases h
    obtain ⟨⟨p, m₁⟩, hal, hm⟩ := Option.bind_eq_some_iff.mp hm
    have A := m.allocated hal
    have K₁ : Kept m (Ghost.rest live free) m₁ (Ghost.rest live free) b := .alloc I A
    have K₂ := Kept.pmap (I.alloc A) ha (fun _ => not_false) (index0_user hva) hb hm
    exact ⟨(K₁.trans ⟨K₂.page, K₂.mem⟩).page,
      (K₁.trans ⟨K₂.page, K₂.mem⟩).mem⟩
  · cases h

/-- A store of `a` leaves the others. -/
theorem Rest.store_same (R : Rest r live m) (ha : a ∈ live) (hva : 0x80000000 ≤ va)
    (hb : b ≠ a) (hm : AddressSpace.Mapped m a va) :
    Same m live (AddressSpace.store m a va x) live b := by
  obtain ⟨free, I⟩ := R
  obtain ⟨f, hf⟩ := (mapped_iff ha (index0_user hva)).mp hm
  have hown : Own m (Ghost.rest live free) (.page a (index0 va) (index1 va)) f := hf
  rw [AddressSpace.store, hf.translate]
  have K := Kept.write (b := b) I hown (by simp) (fun _ _ => (by simp))
    (fun k l he => hb (Slot.page.inj he).1.symm) fun q hq =>
      m.write_mem_ne (x := x) (i := (va &&& 0xfff).toNat / 4) hq
  exact ⟨K.page, K.mem⟩

/-- The body of the inner loop of `exec`. -/
theorem Rest.execPage_same (R : Rest r live m) (ht : OwnTable m (Ghost.rest live []) a i t)
    (hi : 512 ≤ i) (hj : j < 1024) (hb : b ≠ a) :
    Same m live (AddressSpace.execPage t m j) live b := by
  refine ⟨fun k l f => ?_, fun k l f hf => ?_⟩
  · exact (R.execPage_page ht hi hj b k l f).trans (and_iff_left fun h => hb h.1)
  · obtain ⟨free, I⟩ := R
    unfold AddressSpace.execPage
    dsimp only
    split
    next hP =>
      have hpage : Own m (Ghost.rest live free) (.page a i j) (frame (m.mem t j)) :=
        ⟨hi, hj, not_false, t, ht, hP, rfl⟩
      have hf' : Own m (Ghost.rest live free) (.page b k l) f := hf
      have h1 : f ≠ frame (m.mem t j) := I.exact.ne hf' hpage fun he => hb (Slot.page.inj he).1
      have h2 : f ≠ t := (I.table_ne (g := Ghost.rest live free) ht hf' nofun).symm
      rw [PhysMem.free_mem_ne _ h1, m.write_mem_ne h2]
    · rfl

theorem Rest.execTable_same (R : Rest r live m) (ha : a ∈ live) (hi : 512 ≤ i) (hi' : i < 1024)
    (hb : b ≠ a) : Same m live (AddressSpace.execTable a m i) live b := by
  unfold AddressSpace.execTable
  dsimp only
  split
  next hP =>
    rw [List.range_eq_range']
    exact (foldl_range'_inv (f := AddressSpace.execPage (frame (m.mem a i))) (P := fun _ m' =>
        (Rest r live m' ∧ OwnTable m' (Ghost.rest live []) a i (frame (m.mem a i))) ∧
          Same m live m' live b)
      (fun j m' _ hj P => ⟨Rest.execPage hi (by omega) P.1,
        P.2.trans (P.1.1.execPage_same P.1.2 hi (by omega) hb)⟩)
      ⟨⟨R, ha, not_false, hi', hP, rfl⟩, .refl⟩).2
  · exact .refl

/-- `exec` leaves the others. -/
theorem Rest.exec_same (R : Rest r live m) (ha : a ∈ live) (hb : b ≠ a) :
    Same m live (AddressSpace.exec m a) live b :=
  (foldl_range'_inv (f := AddressSpace.execTable a) (P := fun _ m' => Rest r live m' ∧
    Same m live m' live b)
    (fun i m' hi hi' P => ⟨P.1.execTable ha hi (by omega),
      P.2.trans (P.1.execTable_same ha hi (by omega) hb)⟩)
    ⟨R, .refl⟩).2

/-! ## The destructor -/

namespace Torn

theorem same (T : Torn r live a i j m g) (hb : b ≠ a) : Kept m (Ghost.rest live []) m g b := by
  refine .ghost (by rw [T.live]; exact Iff.rfl)
    (fun k => iff_of_false (fun h => ?_) not_false) fun k l =>
    iff_of_false (fun h => ?_) not_false
  · exact hb (T.dead _ h).1
  · exact hb (T.dead _ h).1

/-- A step of the destructor that changes one frame of `a`. -/
theorem write_same (T : Torn r live a i j m g) (hb : b ≠ a) (h : Own m g s p) (hd : s ≠ .dir b)
    (ht : ∀ i, s ≠ .table b i) (hp : ∀ k l, s ≠ .page b k l) :
    Same m live (m.free p) live b := by
  have K := T.same hb
  have K' : Kept m g (m.free p) g b :=
    Kept.write T.inv h hd (fun i _ => ht i) hp fun q hq => m.free_mem_ne hq
  have hghost : Kept (m.free p) g (m.free p) (Ghost.rest live []) b := by
    refine .ghost (by rw [T.live]; exact Iff.rfl)
      (fun k => iff_of_false not_false fun h => ?_) fun k l =>
      iff_of_false not_false fun h => ?_
    · exact hb (T.dead _ h).1
    · exact hb (T.dead _ h).1
  exact (K.trans K').trans hghost

theorem destroyPage_same (T : Torn r live a i j m g) (ht : OwnTable m g a i t) (hi : 512 ≤ i)
    (hj : j < 1024) (hb : b ≠ a) : Same m live (AddressSpace.destroyPage t m j) live b := by
  unfold AddressSpace.destroyPage
  dsimp only
  split
  next hP =>
    have hnd : ¬g.dead (.page a i j) := fun h => by
      have hbelow := (T.dead _ h).2
      omega
    have hown : Own m g (.page a i j) (frame (m.mem t j)) := ⟨hi, hj, hnd, t, ht, hP, rfl⟩
    exact T.write_same hb hown nofun (fun _ => nofun) fun k l he => hb (Slot.page.inj he).1.symm
  · exact .refl

theorem destroyTable_same (T : Torn r live a i 0 m g) (ha : a ∈ live) (hi : i < 1024)
    (hb : b ≠ a) : Same m live (AddressSpace.destroyTable a m i) live b := by
  unfold AddressSpace.destroyTable
  dsimp only
  split
  next hP =>
    have hnd : ¬g.dead (.table a i) := fun h => Nat.lt_irrefl _ (T.dead _ h).2
    have ht : OwnTable m g a i (frame (m.mem a i)) := ⟨T.live ▸ ha, hnd, hi, hP, rfl⟩
    have htable {j : Nat} {m₁ : PhysMem} {g₁ : Ghost} (T₁ : Torn r live a i j m₁ g₁)
        (ht₁ : OwnTable m₁ g₁ a i (frame (m.mem a i))) :
          Same m₁ live (m₁.free (frame (m.mem a i))) live b :=
      T₁.write_same hb (s := .table a i) ht₁ nofun (fun k he => hb (Slot.table.inj he).1.symm)
        fun _ _ => nofun
    split
    next h0 =>
      have hi512 : 512 ≤ i := not_lt.mp fun hlt => T.inv.low a ht.1 i h0 hlt hP
      rw [List.range_eq_range']
      obtain ⟨⟨g₁, T₁, ht₁⟩, K⟩ := foldl_range'_inv (s := 0) (n := 1024)
        (f := AddressSpace.destroyPage (frame (m.mem a i)))
        (P := fun j m' => (∃ g, Torn r live a i j m' g ∧
          OwnTable m' g a i (frame (m.mem a i))) ∧ Same m live m' live b)
        (fun j m' _ hj P => by
          obtain ⟨⟨g₁, T₁, ht₁⟩, K⟩ := P
          exact ⟨Torn.destroyPage hi512 (by omega) ⟨g₁, T₁, ht₁⟩,
            K.trans (T₁.destroyPage_same ht₁ hi512 (by omega) hb)⟩)
              ⟨⟨g, T, ht⟩, .refl⟩
      exact K.trans (htable T₁ ht₁)
    · exact htable T ht
  · exact .refl

end Torn

/-- The destructor of `a` leaves the others. -/
theorem Rest.destroy_same (R : Rest r live m) (ha : a ∈ live) (hb : b ≠ a) :
    Same m live (AddressSpace.destroy m a) (live.erase a) b := by
  obtain ⟨free, I⟩ := R
  have T₀ : Torn r live a 0 0 m (Ghost.rest live free) :=
    ⟨I, rfl, fun _ => id, fun _ => False.elim, nofun, nofun⟩
  unfold AddressSpace.destroy
  rw [List.range_eq_range']
  obtain ⟨⟨g, T⟩, K⟩ :=
    foldl_range'_inv (s := 0) (n := 1024) (f := AddressSpace.destroyTable a)
    (P := fun i m' => (∃ g, Torn r live a i 0 m' g) ∧ Same m live m' live b)
    (fun i m' _ hi P => by
      obtain ⟨⟨g, T⟩, K⟩ := P
      exact ⟨Torn.destroyTable ⟨g, T⟩ ha (by omega),
        K.trans (T.destroyTable_same ha (by omega) hb)⟩)
    ⟨⟨_, T₀⟩, .refl⟩
  have Kpd := T.write_same (s := .dir a) hb ⟨T.live ▸ ha,
      rfl⟩ (fun he => hb (Slot.dir.inj he).symm) (fun _ => nofun)
    fun _ _ => nofun
  exact (K.trans Kpd).trans (.ghost (List.mem_erase_of_ne hb) (fun _ => Iff.rfl) fun _ _ => Iff.rfl)

end K439.Vmm
