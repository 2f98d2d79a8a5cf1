import K439.Vmm.Isolation

/-!
# What `fork` copies

The loops of `fork` go through the entries of the parent and give the child a page for each page,
with the same contents. `Copied` says how far they are.
-/

namespace K439.Vmm

variable {r : Region} {m m' : PhysMem} {a b child t f va : UInt32} {i j k l : Nat}
  {live : List UInt32}

/-- `pmap` leaves the other directories. -/
theorem Inv.pmap_dir {g : Ghost} (I : Inv r m g) (ha : a ∈ g.live) (hdead : ∀ s, ¬g.dead s)
    (hva : 512 ≤ index0 va) (hb : b ∈ g.live) (hne : b ≠ a) {pa : UInt32} {u w : Bool}
    (h : AddressSpace.pmap m a va pa u w = some m') : m'.mem b = m.mem b := by
  obtain ⟨⟨⟨t, j⟩, m₁⟩, hg, h⟩ := Option.bind_eq_some_iff.mp h
  cases h
  obtain ⟨⟨free, I₁⟩, ht, -, -⟩ := I.getPTE ha hdead (.inr hva) hg
  have hdir : b ≠ t :=
    I₁.dir_ne hb (show Own m₁ { g with free := free } (.table a (index0 va)) t from ht) nofun
  rw [m₁.write_mem_ne hdir]
  exact I.getPTE_mem (s := .dir b) ha hg ⟨hb, rfl⟩ nofun fun he => hne (Slot.dir.inj he)

/-- The body of the inner loop at an entry that is present: the child gets a page with what is in
the page of `a`, and no other page changes. -/
theorem Rest.forkPage_page (R : Rest r live m) (hc : child ∈ live) (hi : 512 ≤ i)
    (hi' : i < 1024) (hj : j < 1024) (hclear : Clear m live child i j) (hP : Present (m.mem t j))
    (hsrc : Page m live a i j (frame (m.mem t j)))
    (h : AddressSpace.forkPage child t i m j = some m') :
    ∃ dest, m'.mem dest = m.mem (frame (m.mem t j)) ∧
      (∀ b k l f, Page m' live b k l f ↔ if b = child ∧ k = i ∧
        l = j then f = dest else Page m live b k l f) ∧
      (∀ b k l f, Page m live b k l f → m'.mem f = m.mem f) ∧ ∀ b ∈ live, b ≠ child →
      m'.mem b = m.mem b := by
  unfold AddressSpace.forkPage at h
  dsimp only at h
  rw [if_pos hP] at h
  obtain ⟨⟨dest, m₁⟩, hal, h⟩ := Option.bind_eq_some_iff.mp h
  obtain ⟨free, I⟩ := R
  obtain ⟨e0, e1⟩ := index_vaOf hi' hj
  have A := m.allocated hal
  have hva : 512 ≤ index0 (AddressSpace.vaOf i j) := by rwa [e0]
  have hnone f : ¬Own m (Ghost.rest live free)
      (.page child (index0 (AddressSpace.vaOf i j)) (index1 (AddressSpace.vaOf i j))) f := by
    rw [e0, e1]
    intro hf
    have hbefore := hclear i j f hf
    omega
  obtain ⟨-, hpage⟩ :=
    I.alloc_pmap hc (fun _ => not_false) hva hnone A (m₁.mem (frame (m.mem t j))) h
  have hdest : Own m₁ ((Ghost.rest live free).take dest) .held dest := .inr rfl
  have I₂ := (I.alloc A).scribble hdest nofun (fun _ => nofun) (fun _ _ _ => nofun)
      (m₁.mem (frame (m.mem t j)))
  refine ⟨dest, ?_, fun b k l f => ?_, fun b k l f hf => ?_, fun b hb hne => ?_⟩
  · have hmem :=
      I₂.pmap_mem (s := .held) (f := dest) hc (fun _ => not_false) hva h (.inl rfl) (.inr rfl)
    rw [hmem]
    exact (Function.update_self ..).trans
      (A.same _ (I.ne_allocated A (s := .page a i j) hsrc nofun))
  · have hp := hpage b k l f
    rw [e0, e1] at hp
    exact hp
  · have hne : f ≠ dest := I.ne_allocated A (s := .page b k l) hf nofun
    have hf₁ : Own m₁ ((Ghost.rest live free).take dest) (.page b k l) f :=
      (I.page_alloc A b k l f).mpr hf
    have hf₂ : Own
        { m₁ with mem := Function.update m₁.mem dest (m₁.mem (frame (m.mem t j))) }
        ((Ghost.rest live free).take dest) (.page b k l) f :=
      ((I.alloc A).own_congr hdest (fun _ => nofun) (fun _ _ _ => nofun) (fun q hq =>
        Function.update_of_ne hq (m₁.mem (frame (m.mem t j))) m₁.mem) (.page b k l) f).mpr hf₁
    have hmem := I₂.pmap_mem hc (fun _ => not_false) hva h (.inr ⟨b, k, l, rfl⟩) hf₂
    exact hmem.trans ((Function.update_of_ne hne ..).trans (A.same f hne))
  · have hdir := I₂.pmap_dir hc (fun _ => not_false) hva hb hne h
    have hbd : b ≠ dest := (I.alloc A).dir_ne hb hdest nofun
    exact hdir.trans ((Function.update_of_ne hbd ..).trans (A.same b hbd))

/-- The entries before `i` and `j` are copied, and the others are as they were in `m₀`. -/
structure Copied (m₀ m : PhysMem) (live : List UInt32) (a child : UInt32) (i j : Nat) : Prop where
  others : ∀ b, b ≠ child → Same m₀ live m live b
  dir : m.mem a = m₀.mem a
  page : ∀ k l, k < i ∨ k = i ∧ l < j →
    ((∃ f, Page m live child k l f) ↔ ∃ f, Page m₀ live a k l f)
  mem : ∀ k l f f', Page m₀ live a k l f → Page m live child k l f' → m.mem f' = m₀.mem f

theorem Rest.forkPage_copied {m₀ : PhysMem} (R : Rest r live m) (ha : a ∈ live)
    (hc : child ∈ live) (hne : a ≠ child) (hi : 512 ≤ i) (hi' : i < 1024) (hj : j < 1024)
    (ht : Entry (m₀.mem a i) t) (hclear : Clear m live child i j)
    (C : Copied m₀ m live a child i j) (h : AddressSpace.forkPage child t i m j = some m') :
    Copied m₀ m' live a child i (j + 1) := by
  have hown : OwnTable m (Ghost.rest live []) a i t := ⟨ha, not_false, hi', C.dir ▸ ht⟩
  have hsplit {k l : Nat} (hkl : k < i ∨ k = i ∧ l < j + 1) : (k < i ∨ k = i ∧ l < j) ∨
      k = i ∧ l = j := by omega
  by_cases hP : Present (m.mem t j)
  · have hsrc : Page m live a i j (frame (m.mem t j)) := ⟨hi, hj, not_false, t, hown, hP, rfl⟩
    obtain ⟨dest, hdest, hpage, hmem, hdir⟩ := R.forkPage_page hc hi hi' hj hclear hP hsrc h
    have hother (b : UInt32) (hb : b ≠ child) : Same m live m' live b :=
      ⟨fun k l f => (hpage b k l f).trans (by rw [if_neg fun h => hb h.1]; exact Iff.rfl),
        hmem b⟩
    refine ⟨fun b hb => (C.others b hb).trans (hother b hb), (hdir a ha hne).trans C.dir,
      fun k l hkl => ?_, fun k l f f' hf hf' => ?_⟩
    · rcases hsplit hkl with hkl | ⟨rfl, rfl⟩
      · rw [← C.page k l hkl]
        refine exists_congr fun f => (hpage child k l f).trans ?_
        rw [if_neg (by omega)]
      · refine iff_of_true ⟨dest, ?_⟩ ⟨_, ((C.others a hne).page _ _ _).mp hsrc⟩
        rw [hpage, if_pos ⟨rfl, rfl, rfl⟩]
    · rw [hpage] at hf'
      split at hf'
      next hkl =>
        obtain ⟨-, rfl, rfl⟩ := hkl
        have he : f = frame (m.mem t l) :=
          Own.page_unique (((C.others a hne).page _ _ _).mpr hf) hsrc
        rw [hf', hdest, ← he]
        exact (C.others a hne).mem k l f hf
      · rw [hmem child k l f' hf']
        exact C.mem k l f f' hf hf'
  · have hm : m' = m := by
      unfold AddressSpace.forkPage at h
      dsimp only at h
      rw [if_neg hP] at h
      cases h
      rfl
    subst hm
    refine ⟨C.others, C.dir, fun k l hkl => ?_, C.mem⟩
    rcases hsplit hkl with hkl | ⟨rfl, rfl⟩
    · exact C.page k l hkl
    · refine iff_of_false (fun ⟨f, hf⟩ => ?_) fun ⟨f, hf⟩ => ?_
      · have hbefore := hclear k l f hf
        omega
      · obtain ⟨-, -, -, t', ht', he⟩ := ((C.others a hne).page _ _ _).mpr hf
        obtain rfl := ht'.2.2.2.unique hown.2.2.2
        exact hP he.1

theorem Rest.forkTable_copied {m₀ : PhysMem} (R : Rest r live m) (ha : a ∈ live)
    (hc : child ∈ live) (hne : a ≠ child) (hi : 512 ≤ i) (hi' : i < 1024)
    (hclear : Clear m live child i 0) (C : Copied m₀ m live a child i 0)
    (h : AddressSpace.forkTable a child m i = some m') : Copied m₀ m' live a child (i + 1) 0 := by
  have hnext {k l : Nat} (hkl : k < i + 1 ∨ k = i + 1 ∧ l < 0) : k < i ∨ k = i := by omega
  unfold AddressSpace.forkTable at h
  dsimp only at h
  split at h
  next hP =>
    rw [List.range_eq_range'] at h
    have ht : Entry (m₀.mem a i) (frame (m.mem a i)) := C.dir ▸ ⟨hP, rfl⟩
    obtain ⟨-, hclear', C'⟩ := foldlM_range'_inv
      (P := fun j m => Rest r live m ∧ Clear m live child i j ∧ Copied m₀ m live a child i j)
      (fun j m m' _ hj P h => by
        obtain ⟨R', hclear'⟩ := P.1.forkPage hc hi hi' (by omega) P.2.1 h
        exact ⟨R', hclear', P.1.forkPage_copied ha hc hne hi hi' (by omega) ht P.2.1 P.2.2 h⟩)
          ⟨R, hclear, C⟩ h
    refine ⟨C'.others, C'.dir, fun k l hkl => ?_, C'.mem⟩
    rcases hnext hkl with hk | rfl
    · exact C'.page k l (.inl hk)
    · by_cases hl : l < 0 + 1024
      · exact C'.page k l (.inr ⟨rfl, hl⟩)
      · exact iff_of_false (fun ⟨f, hf⟩ => hl (by have := hf.2.1; omega)) fun ⟨f, hf⟩ =>
          hl (by have := hf.2.1; omega)
  next hP =>
    cases h
    refine ⟨C.others, C.dir, fun k l hkl => ?_, C.mem⟩
    rcases hnext hkl with hk | rfl
    · exact C.page k l (.inl hk)
    · refine iff_of_false (fun ⟨f, hf⟩ => ?_) fun ⟨f, hf⟩ => ?_
      · have hbefore := hclear k l f hf
        omega
      · obtain ⟨-, -, -, t, ht, -⟩ := ((C.others a hne).page _ _ _).mpr hf
        exact hP ht.2.2.2.1

/-- Without pages there is nothing to copy. -/
theorem fork_eq_self (ha : a ∈ live) (hn : ∀ i j f, ¬Page m live a i j f)
    (h : AddressSpace.fork m a child = some m') : m' = m := by
  refine foldlM_range'_inv (P := fun _ m' => m' = m) (fun i m₁ m₂ hi hi' hm htable => ?_) rfl h
  rw [hm] at htable
  unfold AddressSpace.forkTable at htable
  dsimp only at htable
  split at htable
  next hP =>
    rw [List.range_eq_range'] at htable
    refine foldlM_range'_inv (P := fun _ m' => m' = m)
      (fun j m₃ m₄ _ hj hm hpage => ?_) rfl htable
    rw [hm] at hpage
    unfold AddressSpace.forkPage at hpage
    dsimp only at hpage
    split at hpage
    next hP' =>
      exact absurd ⟨hi, by omega, not_false, _, ⟨ha, not_false, by omega, hP, rfl⟩, hP',
        rfl⟩ (hn i j _)
    · cases hpage
      rfl
  · cases htable
    rfl

/-- After `fork` the child has the pages of the parent with the same contents, and the parent is
unchanged. -/
theorem Rest.fork_copied (R : Rest r live m) (ha : a ∈ live) (hc : child ∈ live)
    (hne : a ≠ child) (hn : ∀ i j f, ¬Page m live child i j f)
    (h : AddressSpace.fork m a child = some m') : Copied m m' live a child 1024 0 := by
  have hclear : Clear m live child 512 0 := fun k l f hf => (hn k l f hf).elim
  have C : Copied m m live a child 512 0 := by
    refine ⟨fun _ _ => .refl, rfl, fun k l hkl => ?_,
      fun k l f f' _ hf' => (hn k l f' hf').elim⟩
    exact iff_of_false (fun ⟨f, hf⟩ => hn k l f hf) fun ⟨f, hf⟩ => by have := hf.1; omega
  exact (foldlM_range'_inv (P := fun i m' => Rest r live m' ∧ Clear m' live child i 0 ∧
    Copied m m' live a child i 0)
    (fun i m₁ m₂ hi hi' P h => by
      obtain ⟨R', hclear'⟩ := P.1.forkTable hc hi (by omega) P.2.1 h
      exact ⟨R', hclear', P.1.forkTable_copied ha hc hne hi (by omega) P.2.1 P.2.2 h⟩)
        ⟨R, hclear, C⟩ h).2.2

/-- `fork` into `child` leaves the others. -/
theorem Rest.fork_same (R : Rest r live m) (ha : a ∈ live) (hc : child ∈ live)
    (hn : ∀ i j f, ¬Page m live child i j f) (hb : b ≠ child)
    (h : AddressSpace.fork m a child = some m') : Same m live m' live b := by
  rcases decEq a child with hne | rfl
  · exact (R.fork_copied ha hc hne hn h).others b hb
  · rw [fork_eq_self ha hn h]
    exact .refl

end K439.Vmm
