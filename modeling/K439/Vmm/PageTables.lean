import K439.Vmm.Operations

/-!
# Page tables as a finite map

For the MMU a directory with its tables is a map from pages to entries. `pmap` and `punmap` change
the map at one page, also when `getPTE` has to allocate the table: the new table is zero and nobody
else's, so the walk through it finds what it found before, nothing. `Owned` is what this needs of
the frames; every address space between two steps of the kernel is in this state (`Rest.owned`).
-/

namespace K439.Vmm

/-- The number of the page. -/
def page (va : UInt32) : UInt32 := va >>> 12

theorem page_eq_iff {va va' : UInt32} :
    page va = page va' ↔ index0 va = index0 va' ∧ index1 va = index1 va' := by
  have hpage : ∀ va, (page va).toNat = va.toNat / 2 ^ 12 := fun va => by
    rw [page, UInt32.toNat_shiftRight, Nat.shiftRight_eq_div_pow]
    rfl
  rw [← UInt32.toNat_inj, hpage, hpage, index0_toNat, index0_toNat, index1_toNat, index1_toNat]
  omega

theorem index0_lt (va : UInt32) : index0 va < 1024 := by
  have := va.toNat_lt
  rw [index0_toNat]
  omega

namespace AddressSpace

/-- The entry at the two indices, 0 where there is no table. -/
def entry (m : PhysMem) (pd : UInt32) (i0 i1 : Nat) : UInt32 :=
  if Present (m.mem pd i0) then m.mem (frame (m.mem pd i0)) i1 else 0

/-- What the MMU finds for the page of `va`. -/
def walk (m : PhysMem) (pd va : UInt32) : Option UInt32 :=
  let pte := entry m pd (index0 va) (index1 va)
  if Present pte then some pte else none

/-- The calls that change one page. -/
inductive PageOp
  | pmap (va pa : UInt32) (forUser forWrite : Bool)
  | punmap (va : UInt32)

namespace PageOp

/-- `none` is the panic of `alloc`. -/
def run (m : PhysMem) (pd : UInt32) : PageOp → Option PhysMem
  | .pmap va pa forUser forWrite => AddressSpace.pmap m pd va pa forUser forWrite
  | .punmap va => AddressSpace.punmap m pd va

def va : PageOp → UInt32
  | .pmap va .. => va
  | .punmap va => va

/-- The word that is stored in the table. -/
def word : PageOp → UInt32
  | .pmap _ pa forUser forWrite =>
    frame pa ||| (if forUser then U else 0) ||| (if forWrite then W else 0) ||| 1
  | .punmap _ => 0

/-- The entry that the page has from then on. -/
def entry : PageOp → Option UInt32
  | .pmap va pa forUser forWrite => some (word (.pmap va pa forUser forWrite))
  | .punmap _ => none

/-- The effect on a map from pages to entries. -/
def apply (f : UInt32 → Option UInt32) (op : PageOp) : UInt32 → Option UInt32 :=
  fun va => if page va = page op.va then op.entry else f va

theorem foldl_apply (ops : List PageOp) (f : UInt32 → Option UInt32) (va : UInt32) :
    ops.foldl apply f va =
    match ops.reverse.find? fun op => page op.va = page va with
    | some op => op.entry
    | none => f va := by
  induction ops generalizing f with
  | nil => rfl
  | cons op ops ih =>
    rw [List.foldl_cons, ih, List.reverse_cons, List.find?_append]
    generalize List.find? _ ops.reverse = last
    cases last with
    | none =>
      rw [Option.none_or, List.find?_singleton, apply]
      by_cases h : page va = page op.va
      · simp [h]
      · simp [h, Ne.symm h]
    | some op' => rfl

theorem present_word (va pa : UInt32) (forUser forWrite : Bool) :
    Present (word (.pmap va pa forUser forWrite)) :=
  present_or _ 1 (by decide)

/-- A call fails only when there is no frame left. -/
theorem run_none {m : PhysMem} {pd : UInt32} {op : PageOp} (h : op.run m pd = none) :
    m.firstFree = 0 ∧ m.avail = m.limit := by
  have hpte : getPTE m pd op.va = none := by
    cases hg : getPTE m pd op.va with
    | none => rfl
    | some x =>
      cases op with
      | pmap | punmap => cases Option.bind_eq_none_iff.mp h x hg
  have halloc : m.alloc = none := by
    cases ha : m.alloc with
    | none => rfl
    | some x =>
      by_cases hp : Present (m.mem pd (index0 op.va)) <;> simp [getPTE, ha, hp] at hpte
  unfold PhysMem.alloc at halloc
  split at halloc
  · cases halloc
  next hf =>
    split at halloc
    next hl => exact ⟨not_not.mp hf, hl⟩
    · cases halloc

end PageOp

end AddressSpace

open AddressSpace

/-- The frames that `alloc` hands out next. -/
def Spare (m : PhysMem) (free : List UInt32) (f : UInt32) : Prop :=
  f ∈ free ∨ Aligned f ∧ m.avail ≤ f ∧ f < m.limit

/-- The frame is the directory or one of its tables. -/
def Used (m : PhysMem) (pd f : UInt32) : Prop := f = pd ∨ ∃ i < 1024, Entry (m.mem pd i) f

/-- The directory, its tables and the spare frames are all different. -/
structure Owned (m : PhysMem) (pd : UInt32) (free : List UInt32) : Prop where
  chain : Linked (fun p => m.mem p 0) 0 m.firstFree free
  free_aligned : ∀ f ∈ free, Aligned f
  free_old : ∀ f ∈ free, ¬(m.avail ≤ f ∧ f < m.limit)
  avail_aligned : Aligned m.avail
  limit_aligned : Aligned m.limit
  avail_le : m.avail ≤ m.limit
  used : ∀ f, Used m pd f → ¬Spare m free f
  table_ne : ∀ i < 1024, ∀ t, Entry (m.mem pd i) t → t ≠ pd
  table_inj : ∀ i < 1024, ∀ j < 1024, ∀ t, Entry (m.mem pd i) t → Entry (m.mem pd j) t →
    i = j

namespace Owned

variable {m m' : PhysMem} {pd p t va : UInt32} {free free' : List UInt32} {i j i0 i1 : Nat}

theorem spare_of_source (O : Owned m pd free) (A : m.Allocated p m') :
    Aligned p ∧ Spare m free p := by
  rcases A.source with ⟨hf, hp0, -, -⟩ | ⟨-, -, rfl, hl, -⟩
  · obtain ⟨free', rfl⟩ := O.chain.head_mem (hf ▸ hp0)
    have hp : p ∈ m.firstFree :: free' := hf ▸ List.mem_cons_self
    exact ⟨O.free_aligned p hp, .inl hp⟩
  · exact ⟨O.avail_aligned,
      .inr ⟨O.avail_aligned, UInt32.le_refl _, UInt32.lt_of_le_of_ne O.avail_le hl⟩⟩

theorem used_congr (h : m'.mem pd = m.mem pd) (f : UInt32) : Used m' pd f ↔ Used m pd f := by
  rw [Used, Used, h]

/-- The memory of the directory and of the spare frames is all that matters of the memory. -/
theorem congr (O : Owned m pd free) (hpd : m'.mem pd = m.mem pd)
    (hfree : ∀ f ∈ free', m'.mem f = m.mem f)
    (hsub : ∀ f, Spare m' free' f → Spare m free f)
    (hchain : Linked (fun p => m.mem p 0) 0 m'.firstFree free') (hal : ∀ f ∈ free', Aligned f)
    (hold : ∀ f ∈ free', ¬(m'.avail ≤ f ∧ f < m'.limit)) (ha : Aligned m'.avail)
    (hl : m'.limit = m.limit) (hle : m'.avail ≤ m'.limit) : Owned m' pd free' where
  chain := hchain.congr fun f hf => congrFun (hfree f hf) 0
  free_aligned := hal
  free_old := hold
  avail_aligned := ha
  limit_aligned := hl ▸ O.limit_aligned
  avail_le := hle
  used f hf hs := O.used f ((used_congr hpd f).mp hf) (hsub f hs)
  table_ne := by
    rw [hpd]
    exact O.table_ne
  table_inj := by
    rw [hpd]
    exact O.table_inj

/-- The head of the free list, or the next new frame, is not spare any more. -/
theorem alloc (O : Owned m pd free) (A : m.Allocated p m') :
    ∃ free', Owned m' pd free' ∧ ¬Spare m' free' p ∧ ¬Used m' pd p ∧
    ∀ t, Used m pd t → m'.mem t = m.mem t := by
  obtain ⟨hp, hspare⟩ := O.spare_of_source A
  have hne : ∀ t, Used m pd t → t ≠ p := fun t ht he => O.used t ht (he ▸ hspare)
  have hpd : m'.mem pd = m.mem pd := A.same pd (hne pd (.inl rfl))
  have hused : ¬Used m' pd p := fun h => O.used p ((used_congr hpd p).mp h) hspare
  suffices h : ∃ free', Owned m' pd free' ∧ ¬Spare m' free' p by
    obtain ⟨free', O', hn⟩ := h
    exact ⟨free', O', hn, hused, fun t ht => A.same t (hne t ht)⟩
  have hchain := O.chain
  rcases A.source with ⟨hf, hp0, hf', ha⟩ | ⟨hf, hf', rfl, hl, ha⟩
  · rw [hf] at hchain
    cases free with
    | nil => exact absurd hchain hp0
    | cons q free =>
      have hnodup := hchain.nodup
      obtain ⟨rfl, -, hchain⟩ := hchain
      have hnot := (List.nodup_cons.mp hnodup).1
      have hav : ∀ f, m'.avail ≤ f ∧ f < m'.limit ↔ m.avail ≤ f ∧ f < m.limit :=
        fun f => by rw [ha, A.limit]
      refine ⟨free, O.congr hpd (fun f hf => A.same f fun he => hnot (he ▸ hf))
        ?_ ?_ ?_ ?_ ?_ A.limit ?_, ?_⟩
      · rintro f (hf | ⟨hal, hf⟩)
        · exact .inl (List.mem_cons_of_mem _ hf)
        · exact .inr ⟨hal, (hav f).mp hf⟩
      · rwa [hf']
      · exact fun f hf => O.free_aligned f (List.mem_cons_of_mem _ hf)
      · exact fun f hf h => O.free_old f (List.mem_cons_of_mem _ hf) ((hav f).mp h)
      · rw [ha]
        exact O.avail_aligned
      · rw [ha, A.limit]
        exact O.avail_le
      · rintro (h | ⟨-, h⟩)
        · exact hnot h
        · exact O.free_old p List.mem_cons_self ((hav p).mp h)
  · rw [hf] at hchain
    obtain rfl := hchain.eq_nil_iff.mp rfl
    have hal := O.avail_aligned
    have hll := O.limit_aligned
    have hlt : m.avail.toNat < m.limit.toNat :=
      UInt32.lt_iff_toNat_lt.mp (UInt32.lt_of_le_of_ne O.avail_le hl)
    have hlim := m.limit.toNat_lt
    have hnext : m'.avail.toNat = m.avail.toNat + 4096 := by
      rw [ha, UInt32.toNat_add, show frameSize.toNat = 4096 from rfl]
      unfold Aligned at hal hll
      omega
    refine ⟨[], O.congr hpd (fun f hf => absurd hf List.not_mem_nil) ?_ ?_ ?_ ?_ ?_ A.limit ?_,
      ?_⟩
    · rintro f (hf | ⟨hf, h₁, h₂⟩)
      · exact absurd hf List.not_mem_nil
      · refine .inr ⟨hf, ?_, A.limit ▸ h₂⟩
        rw [UInt32.le_iff_toNat_le] at h₁ ⊢
        omega
    · exact hf'
    · exact fun f hf => absurd hf List.not_mem_nil
    · exact fun f hf => absurd hf List.not_mem_nil
    · unfold Aligned at hal ⊢
      omega
    · rw [A.limit, UInt32.le_iff_toNat_le]
      unfold Aligned at hal hll
      omega
    · rintro (h | ⟨-, h, -⟩)
      · exact absurd h List.not_mem_nil
      · rw [UInt32.le_iff_toNat_le] at h
        omega

/-- A store into a table. -/
theorem write (O : Owned m pd free) (i1 : Nat) (x : UInt32) (hi : i0 < 1024)
    (ht : Entry (m.mem pd i0) t) :
    Owned (m.write t i1 x) pd free ∧ ∀ i < 1024, ∀ j, entry (m.write t i1 x) pd i j =
      if i = i0 ∧ j = i1 then x else entry m pd i j := by
  have hused : Used m pd t := .inr ⟨i0, hi, ht⟩
  have hpd : (m.write t i1 x).mem pd = m.mem pd := m.write_mem_ne (O.table_ne i0 hi t ht).symm
  refine ⟨O.congr hpd (fun f hf => m.write_mem_ne fun he => O.used t hused (he ▸ .inl hf))
    (fun _ h => h) O.chain
    O.free_aligned O.free_old O.avail_aligned rfl O.avail_le, fun i hi' j => ?_⟩
  rw [entry, entry, hpd]
  by_cases hp : Present (m.mem pd i)
  · rw [if_pos hp, if_pos hp]
    by_cases he : frame (m.mem pd i) = t
    · obtain rfl := O.table_inj i hi' i0 hi t ⟨hp, he⟩ ht
      rw [he, m.write_mem]
      simp only [true_and]
    · rw [m.write_mem_ne he, if_neg]
      rintro ⟨rfl, -⟩
      exact he ht.2
  · rw [if_neg hp, if_neg hp, if_neg]
    rintro ⟨rfl, -⟩
    exact hp ht.1

/-- A frame that is neither spare nor used becomes the table at `i0`. -/
theorem addTable (O : Owned m pd free) (hi : i0 < 1024) (h0 : ¬Present (m.mem pd i0))
    (hp : Aligned p) (hspare : ¬Spare m free p) (hused : ¬Used m pd p) :
    Owned (m.write pd i0 (p ||| 7)) pd free ∧
      Entry ((m.write pd i0 (p ||| 7)).mem pd i0) p ∧
      ∀ i < 1024, ∀ j, entry (m.write pd i0 (p ||| 7)) pd i j = if i = i0 then m.mem p j
      else entry m pd i j := by
  have hself : (m.write pd i0 (p ||| 7)).mem pd i0 = p ||| 7 := by rw [m.write_mem, if_pos rfl]
  have hother : ∀ i, i ≠ i0 → (m.write pd i0 (p ||| 7)).mem pd i = m.mem pd i :=
    fun i h => by rw [m.write_mem, if_neg h]
  have htable := entry_table hp
  have hcases : ∀ i t, Entry ((m.write pd i0 (p ||| 7)).mem pd i) t → i = i0 ∧ t = p ∨
      i ≠ i0 ∧ Entry (m.mem pd i) t := by
    intro i t h
    rcases eq_or_ne i i0 with rfl | hne
    · rw [hself] at h
      exact .inl ⟨rfl, h.unique htable⟩
    · rw [hother i hne] at h
      exact .inr ⟨hne, h⟩
  have hpdp : p ≠ pd := fun he => hused (.inl he)
  refine ⟨⟨O.chain.congr fun f hf => ?_, O.free_aligned, O.free_old, O.avail_aligned,
    O.limit_aligned, O.avail_le, ?_, ?_, ?_⟩, ?_, fun i hi' j => ?_⟩
  · exact congrFun (m.write_mem_ne fun he : f = pd => O.used pd (.inl rfl) (.inl (he ▸ hf))) 0
  · rintro f (rfl | ⟨i, hi', h⟩)
    · exact O.used f (.inl rfl)
    · rcases hcases i f h with ⟨-, rfl⟩ | ⟨-, h⟩
      · exact hspare
      · exact O.used f (.inr ⟨i, hi', h⟩)
  · intro i hi' t h
    rcases hcases i t h with ⟨-, rfl⟩ | ⟨-, h⟩
    · exact hpdp
    · exact O.table_ne i hi' t h
  · intro i hi' j hj t h h'
    rcases hcases i t h with ⟨hi₀, ht⟩ | ⟨-, h₁⟩ <;>
      rcases hcases j t h' with ⟨hj₀, ht'⟩ | ⟨-, h₂⟩
    · exact hi₀.trans hj₀.symm
    · exact absurd (.inr ⟨j, hj, ht ▸ h₂⟩) hused
    · exact absurd (.inr ⟨i, hi', ht' ▸ h₁⟩) hused
    · exact O.table_inj i hi' j hj t h₁ h₂
  · rwa [hself]
  · rw [entry]
    rcases eq_or_ne i i0 with rfl | hne
    · rw [hself, if_pos htable.1, htable.2, m.write_mem_ne hpdp, if_pos rfl]
    · rw [hother i hne, if_neg hne, entry]
      split
      next h =>
        rw [m.write_mem_ne (O.table_ne i hi' _ ⟨h, rfl⟩)]
      next => rfl

/-- `getPTE` leaves the entries: the entries of a new table are 0. -/
theorem getPTE (O : Owned m pd free) (h : AddressSpace.getPTE m pd va = some ((t, j), m')) :
    j = index1 va ∧ Entry (m'.mem pd (index0 va)) t ∧ (∃ free', Owned m' pd free') ∧
      ∀ i < 1024, ∀ j, entry m' pd i j = entry m pd i j := by
  obtain ⟨m₁, h₁, h⟩ := Option.bind_eq_some_iff.mp h
  cases h
  have hi := index0_lt va
  by_cases hp : Present (m.mem pd (index0 va))
  · rw [if_pos hp] at h₁
    cases h₁
    exact ⟨rfl, ⟨hp, rfl⟩, ⟨free, O⟩, fun _ _ _ => rfl⟩
  · rw [if_neg hp] at h₁
    obtain ⟨⟨p, m₀⟩, h₀, rfl⟩ := Option.map_eq_some_iff.mp h₁
    have A := m.allocated h₀
    obtain ⟨hal, hspare⟩ := O.spare_of_source A
    obtain ⟨free', O₀, hn, hu, hsame⟩ := O.alloc A
    have hpd := hsame pd (.inl rfl)
    have hp₀ : ¬Present (m₀.mem pd (index0 va)) := by rwa [hpd]
    obtain ⟨O', ht, hentry⟩ := O₀.addTable hi hp₀ hal hn hu
    refine ⟨rfl, ⟨ht.1, rfl⟩, ⟨free', O'⟩, fun i hi' j => ?_⟩
    rw [hentry i hi' j]
    rcases eq_or_ne i (index0 va) with rfl | hne
    · rw [if_pos rfl, A.zero, entry, if_neg hp]
    · rw [if_neg hne, entry, entry, hpd]
      split
      next h => rw [hsame _ (.inr ⟨i, hi', h, rfl⟩)]
      next => rfl

/-- One call changes the entry of its page, and no other. -/
theorem run (O : Owned m pd free) {op : PageOp} (h : op.run m pd = some m') :
    (∃ free', Owned m' pd free') ∧
    ∀ i < 1024, ∀ j, entry m' pd i j = if i = index0 op.va ∧ j = index1 op.va then op.word
    else entry m pd i j := by
  obtain ⟨t, j, m₁, h₁, rfl⟩ : ∃ t j m₁, AddressSpace.getPTE m pd op.va =
      some ((t, j), m₁) ∧ m' = m₁.write t j op.word := by
    cases op with
    | pmap | punmap =>
      obtain ⟨⟨⟨t, j⟩, m₁⟩, h₁, h⟩ := Option.bind_eq_some_iff.mp h
      cases h
      exact ⟨t, j, m₁, h₁, rfl⟩
  obtain ⟨rfl, ht, ⟨free', O₁⟩, hsame⟩ := O.getPTE h₁
  obtain ⟨O', hentry⟩ := O₁.write (index1 op.va) op.word (index0_lt op.va) ht
  refine ⟨⟨free', O'⟩, fun i hi j => ?_⟩
  rw [hentry i hi j, hsame i hi j]

/-- The walk follows the map from pages to entries. -/
theorem walk_run (O : Owned m pd free) {op : PageOp} (h : op.run m pd = some m') :
    walk m' pd = op.apply (walk m pd) := by
  obtain ⟨-, hentry⟩ := O.run h
  funext va
  rw [walk, hentry _ (index0_lt va), PageOp.apply]
  by_cases hpage : page va = page op.va
  · rw [if_pos (page_eq_iff.mp hpage), if_pos hpage]
    cases op with
    | pmap va' pa forUser forWrite => exact if_pos (PageOp.present_word va' pa forUser forWrite)
    | punmap => exact if_neg (by decide : ¬Present 0)
  · rw [if_neg fun h => hpage (page_eq_iff.mpr h), if_neg hpage]
    rfl

end Owned

theorem Owned.walk_foldlM {m m' : PhysMem} {pd : UInt32} {free : List UInt32} (O : Owned m pd free)
    {ops : List PageOp} (h : ops.foldlM (PageOp.run · pd) m = some m') :
    (∃ free', Owned m' pd free') ∧ walk m' pd = ops.foldl PageOp.apply (walk m pd) := by
  induction ops generalizing m free with
  | nil =>
    cases h
    exact ⟨⟨free, O⟩, rfl⟩
  | cons op ops ih =>
    obtain ⟨m₁, h₁, h⟩ := Option.bind_eq_some_iff.mp h
    obtain ⟨free₁, O₁⟩ := (O.run h₁).1
    obtain ⟨O', hwalk⟩ := ih O₁ h
    exact ⟨O', by rw [hwalk, List.foldl_cons, O.walk_run h₁]⟩

/-- Every address space between two steps of the kernel is in this state. -/
theorem Rest.owned {r : Region} {live : List UInt32} {m : PhysMem} {pd : UInt32} (R : Rest r live m)
    (hpd : pd ∈ live) : ∃ free, Owned m pd free := by
  obtain ⟨free, I⟩ := R
  have hdir : Own m (Ghost.rest live free) (.dir pd) pd := ⟨hpd, rfl⟩
  have htable : ∀ i < 1024, ∀ t, Entry (m.mem pd i) t →
      Own m (Ghost.rest live free) (.table pd i) t :=
    fun i hi t ht => ⟨hpd, id, hi, ht⟩
  have hused : ∀ f, Used m pd f → ∃ s, s ≠ .free ∧ Own m (Ghost.rest live free) s f := by
    rintro f (rfl | ⟨i, hi, ht⟩)
    · exact ⟨_, Slot.noConfusion, hdir⟩
    · exact ⟨_, Slot.noConfusion, htable i hi f ht⟩
  refine ⟨free, I.chain, fun f hf => ?_, fun f hf h => ?_, I.aligned, ?_, ?_, fun f hf hs => ?_,
    fun i hi t ht he => ?_,
    fun i hi j hj t h h' => ?_⟩
  · exact (I.exact.sound .free f hf).1
  · exact absurd (I.exact.sound .free f hf).2.2 (UInt32.not_lt.mpr h.1)
  · exact I.limit ▸ r.limit_aligned
  · exact I.limit ▸ I.avail_le
  · obtain ⟨s, hs', hown⟩ := hused f hf
    rcases hs with hs | ⟨-, hle, -⟩
    · exact hs' (I.exact.unique s .free f hown hs)
    · exact absurd (I.exact.sound s f hown).2.2 (UInt32.not_lt.mpr hle)
  · have := I.exact.unique _ _ t (htable i hi t ht) (he ▸ hdir)
    cases this
  · have := I.exact.unique _ _ t (htable i hi t h) (htable j hj t h')
    exact (Slot.table.inj this).2

/-- Walking the tables gives the entry of the last call for the page, and the entry from before
where there was none. A call does not change the entry of another page, and it fails only when there
is no frame left. -/
theorem page_tables_refine {m m' : PhysMem} {pd : UInt32} {free : List UInt32} {ops : List PageOp}
    (O : Owned m pd free) (h : ops.foldlM (PageOp.run · pd) m = some m') :
    (∃ free', Owned m' pd free') ∧
    (∀ va, walk m' pd va = match ops.reverse.find? fun op => page op.va = page va with
      | some op => op.entry
      | none => walk m pd va) ∧
    ∀ op : PageOp, (∀ m'', op.run m' pd = some m'' → ∀ va, page va ≠ page op.va →
        entry m'' pd (index0 va) (index1 va) = entry m' pd (index0 va) (index1 va)) ∧
      (op.run m' pd = none → m'.firstFree = 0 ∧ m'.avail = m'.limit) := by
  obtain ⟨⟨free', O'⟩, hwalk⟩ := O.walk_foldlM h
  refine ⟨⟨free', O'⟩, fun va => ?_, fun op => ⟨fun m'' hop va hne => ?_, op.run_none⟩⟩
  · rw [hwalk, PageOp.foldl_apply]
  · rw [(O'.run hop).2 _ (index0_lt va), if_neg fun h => hne (page_eq_iff.mpr h)]

/-- An empty address space, and three frames. -/
def emptySpace : PhysMem :=
  { mem := fun _ _ => 0, firstFree := 0, avail := 0x2000, limit := 0x5000, calls := [] }

theorem emptySpace_owned : Owned emptySpace 0x1000 [] := by
  have hentry : ∀ i t, ¬Entry (emptySpace.mem 0x1000 i) t := fun _ t => not_entry_zero t
  refine ⟨rfl, nofun, nofun, by decide, by decide, by decide, ?_,
    fun i _ t h => absurd h (hentry i t),
    fun i _ _ _ t h => absurd h (hentry i t)⟩
  rintro f (rfl | ⟨i, -, h⟩) (hf | ⟨-, h₁, -⟩)
  · exact absurd hf List.not_mem_nil
  · exact absurd h₁ (by decide)
  · exact hentry i f h
  · exact hentry i f h

theorem page_tables_refine_emptySpace : ∃ m', walk m' 0x1000 0x80000abc = some 0xb8007007 ∧
    walk m' 0x1000 0x80001000 = none ∧ walk m' 0x1000 0xc0000000 = none := by
  have hsome :
      (([.pmap 0x80000000 0xb8007123 true true, .pmap 0x80001000 0xb8008000 true false,
      .punmap 0x80001fff] :
      List PageOp).foldlM (PageOp.run · 0x1000) emptySpace).isSome := by decide
  obtain ⟨m', h⟩ := Option.isSome_iff_exists.mp hsome
  obtain ⟨-, hwalk, -⟩ := page_tables_refine emptySpace_owned h
  exact ⟨m', hwalk 0x80000abc, hwalk 0x80001000, hwalk 0xc0000000⟩

end K439.Vmm
