import K439.Lib.Store
import K439.Vmm.Runs

/-!
# The bytes of the user half

A user address is accessed through the tables of its address space. The first access to a page that
is not present is a fault, which maps a frame of zeros: the page has been zero all along
(`Rest.access`). `exec` takes all pages away, so it leaves zeros (`Rest.exec_bytes`).
-/

namespace K439.Vmm

/-- The byte `k` of a word in memory. -/
def byteOf (w : UInt32) (k : Nat) : UInt8 := (le32 w.toNat).getD k 0

/-- The word after a store to its byte `k`. -/
def setByte (w : UInt32) (k : Nat) (b : UInt8) : UInt32 :=
  (decodeLE ((le32 w.toNat).set k b)).toUInt32

/-- `va & 0xfff` -/
def pageOffset (va : UInt32) : Nat := (va &&& 0xfff).toNat

namespace AddressSpace

variable (m : PhysMem) (pd : UInt32)

/-- The MMU at an address: a page that is not present is a page fault. -/
def access (va : UInt32) : PageFault :=
  if Mapped m pd va then .mapped m else handlePageFault m pd va

/-- The byte at an address that is mapped. -/
def loadByte (va : UInt32) : UInt8 :=
  byteOf (m.mem (translate m pd va) (pageOffset va / 4)) (pageOffset va % 4)

/-- A store of a byte. -/
def storeByte (va : UInt32) (b : UInt8) : PageFault :=
  match access m pd va with
  | .mapped m =>
    let f := translate m pd va
    let i := pageOffset va / 4
    .mapped (m.write f i (setByte (m.mem f i) (pageOffset va % 4) b))
  | .kill => .kill
  | .panic => .panic

/-- The byte at a user address. -/
def bytes (va : UInt32) : UInt8 := if Mapped m pd va then loadByte m pd va else 0

end AddressSpace

variable {r : Region} {m m' : PhysMem} {g : Ghost} {p a t f pd va va' : UInt32} {i j k : Nat}
  {live : List UInt32}
  {w : UInt32} {b : UInt8}

/-! ## Bytes and words -/

theorem byteOf_zero : byteOf 0 k = 0 := by
  have h : le32 (0 : UInt32).toNat = List.replicate 4 0 := rfl
  rw [byteOf, h, List.getD_eq_getElem?_getD, List.getElem?_replicate]
  split <;> rfl

theorem byteOf_setByte (hk : k < 4) : byteOf (setByte w k b) i = if i = k then b
    else byteOf w i := by
  have hlen : ((le32 w.toNat).set k b).length = 4 := by simp
  have hlt := decodeLE_lt ((le32 w.toNat).set k b)
  rw [hlen] at hlt
  have hset : le32 (setByte w k b).toNat = (le32 w.toNat).set k b := by
    have h := encode_decodeLE ((le32 w.toNat).set k b)
    rw [hlen] at h
    rw [setByte, le32, Nat.toUInt32, UInt32.toNat_ofNat_of_lt' hlt, h]
  rw [byteOf, hset, byteOf]
  split
  next h =>
    rw [h, List.getD_eq_getElem?_getD, List.getElem?_set_self (by rwa [le32_length]),
      Option.getD_some]
  next h =>
    rw [List.getD_eq_getElem?_getD, List.getElem?_set_ne (Ne.symm h),
      ← List.getD_eq_getElem?_getD]

theorem pageOffset_eq : pageOffset va = va.toNat % 4096 := by
  rw [pageOffset, UInt32.toNat_and, show (0xfff : UInt32).toNat = 2 ^ 12 - 1 from rfl,
    Nat.and_two_pow_sub_one_eq_mod]

/-- An address is a page and an offset. -/
theorem eq_of_page (h0 : index0 va' = index0 va) (h1 : index1 va' = index1 va)
    (h : pageOffset va' = pageOffset va) : va' = va := by
  rw [index0_toNat, index0_toNat] at h0
  rw [index1_toNat, index1_toNat] at h1
  rw [pageOffset_eq, pageOffset_eq] at h
  apply UInt32.toNat_inj.mp
  omega

/-! ## What `pmap` leaves alone -/

namespace Inv

variable {s : Slot}

/-- A frame just handed out was owned by nobody, or free. -/
theorem ne_allocated (I : Inv r m g) (A : m.Allocated p m') (h : Own m g s f) (hs : s ≠ .free) :
    f ≠ p := by
  rintro rfl
  rcases A.source with ⟨hf, hp0, -⟩ | ⟨-, -, rfl, -⟩
  · obtain ⟨l, hl⟩ := (hf ▸ I.chain).head_mem hp0
    have hfree : Own m g .free f := by rw [Own, hl]; exact List.mem_cons_self
    exact hs (I.exact.unique _ _ f h hfree)
  · exact UInt32.lt_irrefl _ (I.handed h).2.2

theorem getPTE_mem (I : Inv r m g) (ha : a ∈ g.live)
    (h : AddressSpace.getPTE m a va = some ((t, j), m')) (hs : Own m g s f) (hfree : s ≠ .free)
    (hd : s ≠ .dir a) : m'.mem f = m.mem f := by
  obtain ⟨m₂, hm, h⟩ := Option.bind_eq_some_iff.mp h
  cases h
  split at hm
  · cases hm
    rfl
  · obtain ⟨⟨p, m₁⟩, hal, rfl⟩ := Option.map_eq_some_iff.mp hm
    have A := m.allocated hal
    rw [m₁.write_mem_ne (I.dir_ne ha hs hd).symm, A.same f (I.ne_allocated A hs hfree)]

/-- `pmap` changes neither a held frame nor a page. -/
theorem pmap_mem (I : Inv r m g) (ha : a ∈ g.live) (hdead : ∀ s, ¬g.dead s)
    (hva : 512 ≤ index0 va) {pa : UInt32} {u w : Bool}
    (h : AddressSpace.pmap m a va pa u w = some m') (hs : s = .held ∨ ∃ b k l, s = .page b k l)
    (hf : Own m g s f) : m'.mem f = m.mem f := by
  obtain ⟨⟨⟨t, j⟩, m₁⟩, hg, h⟩ := Option.bind_eq_some_iff.mp h
  cases h
  obtain ⟨⟨free, I₁⟩, ht, -, hpage⟩ := I.getPTE ha hdead (.inr hva) hg
  have hf₁ : Own m₁ { g with free := free } s f := by
    rcases hs with rfl | ⟨b, k, l, rfl⟩
    · exact hf
    · exact (hpage b k l f).mpr hf
  have hne : s ≠ .table a (index0 va) ∧ s ≠ .free ∧ s ≠ .dir a := by
    rcases hs with rfl | ⟨b, k, l, rfl⟩ <;> simp
  rw [m₁.write_mem_ne (I₁.table_ne ht hf₁ hne.1).symm, I.getPTE_mem ha hg hf hne.2.1 hne.2.2]

end Inv

/-! ## Page faults -/

/-- A page fault maps a frame of zeros, and changes no other page. -/
theorem Rest.fault_page (R : Rest r live m) (ha : pd ∈ live) (hva : 0x80000000 ≤ va)
    (hn : ¬AddressSpace.Mapped m pd va) (h : AddressSpace.handlePageFault m pd va = .mapped m') :
    Rest r live m' ∧ ∃ p, m'.mem p = (fun _ => 0) ∧
      (∀ b k l f, Page m' live b k l f ↔
        if b = pd ∧ k = index0 va ∧ l = index1 va then f = p else Page m live b k l f) ∧
      ∀ b k l f, Page m live b k l f → m'.mem f = m.mem f := by
  refine ⟨R.fault ha hva hn h, ?_⟩
  obtain ⟨free, I⟩ := R
  unfold AddressSpace.handlePageFault at h
  split at h
  · cases h
  split at h
  next m₂ hm =>
    cases h
    obtain ⟨⟨p, m₁⟩, hal, hm⟩ := Option.bind_eq_some_iff.mp hm
    have hnone f : ¬Own m (Ghost.rest live free) (.page pd (index0 va) (index1 va)) f :=
      fun hf => hn ((mapped_iff ha (index0_user hva)).mpr ⟨f, hf⟩)
    have A := m.allocated hal
    have hpmap :=
      (I.alloc A).pmap_mem (s := .held) ha (fun _ => not_false) (index0_user hva) hm (.inl rfl)
        (.inr rfl)
    obtain ⟨-, hpage⟩ := I.alloc_pmap ha (fun _ => not_false) (index0_user hva) hnone A
      (m₁.mem p) (by rwa [Function.update_eq_self])
    refine ⟨p, hpmap.trans A.zero, hpage, fun b k l f hf => ?_⟩
    have hf₁ : Own m₁ ((Ghost.rest live free).take p) (.page b k l) f :=
      (I.page_alloc A b k l f).mpr hf
    have hpmap :=
      (I.alloc A).pmap_mem ha (fun _ => not_false)
        (index0_user hva) hm (.inr ⟨b, k, l, rfl⟩) hf₁
    exact hpmap.trans (A.same f (I.ne_allocated A (s := .page b k l) hf nofun))
  · cases h

theorem Page.bytes (ha : pd ∈ live) (hva : 0x80000000 ≤ va)
    (h : Page m live pd (index0 va) (index1 va) f) :
    AddressSpace.bytes m pd va = byteOf (m.mem f (pageOffset va / 4)) (pageOffset va % 4) := by
  rw [AddressSpace.bytes, if_pos ((mapped_iff ha (index0_user hva)).mpr ⟨f, h⟩),
    AddressSpace.loadByte, h.translate]

theorem bytes_of_not_mapped (h : ¬AddressSpace.Mapped m pd va) : AddressSpace.bytes m pd va = 0 :=
  if_neg h

/-- An access maps the page, and changes no byte of the user half. -/
theorem Rest.access (R : Rest r live m) (ha : pd ∈ live) (hva : 0x80000000 ≤ va)
    (h : AddressSpace.access m pd va = .mapped m') :
    Rest r live m' ∧ AddressSpace.Mapped m' pd va ∧
      ∀ va', 0x80000000 ≤ va' → AddressSpace.bytes m' pd va' =
      AddressSpace.bytes m pd va' := by
  rw [AddressSpace.access] at h
  split at h
  next hm =>
    cases h
    exact ⟨R, hm, fun _ _ => rfl⟩
  next hn =>
    obtain ⟨R', p, hzero, hpage, hsame⟩ := R.fault_page ha hva hn h
    have hnew : Page m' live pd (index0 va) (index1 va) p := by
      rw [hpage, if_pos ⟨rfl, rfl, rfl⟩]
    refine ⟨R', (mapped_iff ha (index0_user hva)).mpr ⟨p, hnew⟩, fun va' hva' => ?_⟩
    by_cases he : index0 va' = index0 va ∧ index1 va' = index1 va
    · -- the new page
      have hn' : ¬AddressSpace.Mapped m pd va' := by
        rw [mapped_iff ha (index0_user hva'), he.1, he.2, ← mapped_iff ha (index0_user hva)]
        exact hn
      rw [← he.1, ← he.2] at hnew
      rw [hnew.bytes ha hva', hzero, byteOf_zero, bytes_of_not_mapped hn']
    · have hpage' : ∀ f, Page m' live pd (index0 va') (index1 va') f ↔
          Page m live pd (index0 va') (index1 va') f :=
        fun f => by rw [hpage, if_neg fun h => he h.2]
      by_cases hm : AddressSpace.Mapped m pd va'
      · obtain ⟨f, hf⟩ := (mapped_iff ha (index0_user hva')).mp hm
        rw [((hpage' f).mpr hf).bytes ha hva', hf.bytes ha hva', hsame _ _ _ _ hf]
      · have hm' : ¬AddressSpace.Mapped m' pd va' := by
          rw [mapped_iff ha (index0_user hva')] at hm ⊢
          simp only [hpage']
          exact hm
        rw [bytes_of_not_mapped hm', bytes_of_not_mapped hm]

/-- A store in the user half changes the byte it stores. -/
theorem Rest.storeByte (R : Rest r live m) (ha : pd ∈ live) (hva : 0x80000000 ≤ va)
    (h : AddressSpace.storeByte m pd va b = .mapped m') :
    Rest r live m' ∧ ∀ va', 0x80000000 ≤ va' →
      AddressSpace.bytes m' pd va' = if va' = va then b else AddressSpace.bytes m pd va' := by
  rw [AddressSpace.storeByte] at h
  split at h
  next m₁ hacc =>
    cases h
    obtain ⟨⟨free, I⟩, hm, hbytes⟩ := R.access ha hva hacc
    obtain ⟨f, hf⟩ := (mapped_iff ha (index0_user hva)).mp hm
    have hown : Own m₁ (Ghost.rest live free) (.page pd (index0 va) (index1 va)) f := hf
    rw [hf.translate]
    generalize hx : setByte (m₁.mem f (pageOffset va / 4)) (pageOffset va % 4) b = x
    refine ⟨⟨free, I.scribble hown nofun (fun _ => nofun) (fun _ _ _ => nofun) _⟩,
      fun va' hva' => ?_⟩
    rw [← hbytes va' hva']
    have hpage : ∀ f', Page (m₁.write f (pageOffset va / 4) x) live pd (index0 va')
        (index1 va') f' ↔
        Page m₁ live pd (index0 va') (index1 va') f' := fun f' =>
      I.own_congr hown (fun _ => nofun) (fun _ _ _ => nofun) (fun q hq => m₁.write_mem_ne hq)
        (.page pd (index0 va') (index1 va')) f'
    by_cases hm' : AddressSpace.Mapped m₁ pd va'
    · obtain ⟨f', hf'⟩ := (mapped_iff ha (index0_user hva')).mp hm'
      have hown' : Own m₁ (Ghost.rest live free) (.page pd (index0 va') (index1 va')) f' := hf'
      rw [((hpage f').mpr hf').bytes ha hva', hf'.bytes ha hva']
      by_cases hff : f' = f
      · -- the same page
        subst hff
        have hs := I.exact.unique _ _ _ hown' hown
        rw [Slot.page.injEq] at hs
        have hva_iff : va' = va ↔ pageOffset va' = pageOffset va :=
          ⟨fun h => h ▸ rfl, eq_of_page hs.2.1 hs.2.2⟩
        rw [m₁.write_mem]
        by_cases hi : pageOffset va' / 4 = pageOffset va / 4
        · rw [if_pos hi, ← hx, hi, byteOf_setByte (Nat.mod_lt _ (by decide))]
          have : pageOffset va' % 4 = pageOffset va % 4 ↔ va' = va := by rw [hva_iff]; omega
          simp only [this]
        · rw [if_neg hi, if_neg fun h => hi (by rw [h])]
      · rw [m₁.write_mem_ne hff, if_neg]
        rintro rfl
        exact hff (hown'.page_unique hown)
    · have hn : ¬AddressSpace.Mapped (m₁.write f (pageOffset va / 4) x) pd va' := by
        rw [mapped_iff ha (index0_user hva')] at hm' ⊢
        simp only [hpage]
        exact hm'
      rw [bytes_of_not_mapped hn, bytes_of_not_mapped hm', if_neg]
      rintro rfl
      exact hm' hm
  · cases h
  · cases h

/-! ## `exec` -/

/-- The body of the inner loop takes away one page. -/
theorem Rest.execPage_page (R : Rest r live m) (ht : OwnTable m (Ghost.rest live []) a i t)
    (hi : 512 ≤ i) (hj : j < 1024) (b : UInt32) (k l : Nat) (f : UInt32) :
    Page (AddressSpace.execPage t m j) live b k l f ↔
      Page m live b k l f ∧ ¬(b = a ∧ k = i ∧ l = j) := by
  obtain ⟨free, I⟩ := R
  unfold AddressSpace.execPage
  dsimp only
  split
  next hP =>
    have hpage : Own m (Ghost.rest live free) (.page a i j) (frame (m.mem t j)) :=
      ⟨hi, hj, not_false, t, ht, hP, rfl⟩
    have I₁ := I.removePage ht hpage
    have hheld :
        Own (m.write t j 0)
        ((Ghost.rest live free).hold (frame (m.mem t j))) .held (frame (m.mem t j)) :=
      .inr rfl
    have hfree : Page ((m.write t j 0).free (frame (m.mem t j))) live b k l f ↔
        Page (m.write t j 0) live b k l f :=
      I₁.own_congr hheld (fun _ => nofun) (fun _ _ _ => nofun)
        (fun q hq => PhysMem.free_mem_ne _ hq) (.page b k l) f
    refine hfree.trans ((I.page_write ht b k l f).trans ?_)
    split
    next h => exact iff_of_false (fun h0 => not_entry_zero f h0.2.2.2) fun h0 => h0.2 h
    next h => exact (and_iff_left h).symm
  next hP =>
    refine (and_iff_left_of_imp ?_).symm
    rintro ⟨-, -, -, t', ht', he⟩ ⟨rfl, rfl, rfl⟩
    obtain rfl := ht'.2.2.2.unique ht.2.2.2
    exact hP he.1

/-- The pages of the tables below `i`, and of the first `j` entries of the table `i`, are away. -/
def Cleared (m : PhysMem) (live : List UInt32) (a : UInt32) (i j : Nat) : Prop :=
  ∀ k l f, k < i ∨ k = i ∧ l < j → ¬Page m live a k l f

theorem Rest.execTable_cleared (R : Rest r live m) (ha : a ∈ live) (hi : 512 ≤ i)
    (hi' : i < 1024) (hc : Cleared m live a i 0) :
    Cleared (AddressSpace.execTable a m i) live a (i + 1) 0 := by
  unfold AddressSpace.execTable
  dsimp only
  split
  next hP =>
    rw [List.range_eq_range']
    have h := foldl_range'_inv (f := AddressSpace.execPage (frame (m.mem a i))) (P := fun j m' =>
        (Rest r live m' ∧ OwnTable m' (Ghost.rest live []) a i (frame (m.mem a i))) ∧
          Cleared m' live a i j)
      (fun j m' _ hj P => ⟨Rest.execPage hi (by omega) P.1, fun k l f hkl hf => ?_⟩)
      (n := 1024) ⟨⟨R, ha, not_false, hi', hP, rfl⟩, hc⟩
    · intro k l f hk hf
      exact h.2 k l f (by have := hf.2.1; omega) hf
    · obtain ⟨hf, hne⟩ := (P.1.1.execPage_page P.1.2 hi (by omega) a k l f).mp hf
      have hne' : ¬(k = i ∧ l = j) := fun h => hne ⟨rfl, h⟩
      exact P.2 k l f (by omega) hf
  next hP =>
    rintro k l f hk ⟨h1, h2, h3, t, ht, he⟩
    rcases Nat.lt_succ_iff_lt_or_eq.mp (by omega : k < i + 1) with h | rfl
    · exact hc k l f (.inl h) ⟨h1, h2, h3, t, ht, he⟩
    · exact hP ht.2.2.2.1

/-- `exec` leaves no page. -/
theorem Rest.exec_cleared (R : Rest r live m) (ha : a ∈ live) :
    ∀ i j f, ¬Page (AddressSpace.exec m a) live a i j f := by
  have h := foldl_range'_inv (f := AddressSpace.execTable a)
      (P := fun i m => Rest r live m ∧ Cleared m live a i 0)
    (fun i m hi hi' P => ⟨P.1.execTable ha hi (by omega),
      P.1.execTable_cleared ha hi (by omega) P.2⟩)
    (n := 512) ⟨R, fun k l f hk hf => by have := hf.1; omega⟩
  intro i j f hf
  obtain ⟨-, -, -, t, ht, -⟩ := id hf
  exact h.2 i j f (.inl ht.2.2.1) hf

/-- Without a table in the user half `exec` does nothing. -/
theorem exec_eq_self (h : ∀ i ∈ List.range' 512 512, ¬Present (m.mem pd i)) :
    AddressSpace.exec m pd = m :=
  foldl_range'_inv (f := AddressSpace.execTable pd) (P := fun _ m' => m' = m)
    (fun i m' hi hi' hm => by
      rw [AddressSpace.execTable, hm, if_neg (h i (List.mem_range'_1.mpr ⟨hi, hi'⟩))]) rfl

/-- After `exec` the user half reads as zeros. -/
theorem Rest.exec_bytes (R : Rest r live m) (ha : pd ∈ live) (hva : 0x80000000 ≤ va) :
    AddressSpace.bytes (AddressSpace.exec m pd) pd va = 0 := by
  refine bytes_of_not_mapped fun hm => ?_
  obtain ⟨f, hf⟩ := (mapped_iff ha (index0_user hva)).mp hm
  exact R.exec_cleared ha _ _ f hf

end K439.Vmm
