import K439.Lib.Loop
import K439.Vmm.Ownership

/-!
# The operations keep the ledger

`Inv` before an operation of an address space gives `Inv` after it, with no frame held in between
left over. For the loops of `fork`, `exec` and the destructor an invariant indexed by the two
loop counters says which entries are already done.
-/

namespace K439.Vmm

namespace Inv

variable {r : Region} {m m' : PhysMem} {g : Ghost} {p a t va : UInt32} {i j : Nat} {s : Slot}
  {free : List UInt32}

theorem congr_held {held : UInt32 → Prop} (I : Inv r m g) (h : ∀ f, g.held f ↔ held f) :
    Inv r m { g with held := held } := by
  obtain rfl : g.held = held := funext fun f => propext (h f)
  exact I

/-- Nothing is held, and what is dead has no owner left. -/
theorem settle {live : List UInt32} (I : Inv r m g) (hl : g.live = live) (hh : ∀ f, ¬g.held f)
    (hd : ∀ s, g.dead s → ∀ f, ¬Own m (Ghost.rest live g.free) s f) :
    Inv r m (Ghost.rest live g.free) := by
  subst hl
  have htab b k t : OwnTable m (Ghost.rest g.live g.free) b k t ↔ OwnTable m g b k t :=
    ⟨fun h => ⟨h.1, fun hs => hd _ hs t h, h.2.2⟩, fun h => ⟨h.1, not_false, h.2.2⟩⟩
  refine { I with exact := I.exact.congr (fun s f => ?_) fun _ => Iff.rfl }
  cases s with
  | free | dir => exact Iff.rfl
  | held => exact iff_of_false id (hh f)
  | table b k => exact htab b k f
  | page b k l =>
    constructor
    · intro h
      obtain ⟨t, ht, he⟩ := h.2.2.2
      exact ⟨h.1, h.2.1, fun hs => hd _ hs f h, t, (htab b k t).mp ht, he⟩
    · rintro ⟨h1, h2, -, t, ht, he⟩
      exact ⟨h1, h2, not_false, t, (htab b k t).mpr ht, he⟩

/-- A frame just handed out was held by nobody. -/
theorem not_held (I : Inv r m g) (A : m.Allocated p m') : ¬g.held p := by
  intro hp
  have hown : Own m g .held p := hp
  obtain ⟨hf, hp0, -⟩ | ⟨-, -, rfl, -⟩ := A.source
  · obtain ⟨l, hl⟩ := (hf ▸ I.chain).head_mem hp0
    have hfree : Own m g .free p := by rw [Own, hl]; exact List.mem_cons_self
    have := I.exact.unique _ _ p hown hfree
    simp at this
  · exact UInt32.lt_irrefl _ (I.handed hown).2.2

/-- `alloc` leaves the address spaces. -/
theorem page_alloc (I : Inv r m g) (A : m.Allocated p m') (b : UInt32) (k l : Nat) (f : UInt32) :
    Own m' g (.page b k l) f ↔ Own m g (.page b k l) f := by
  have I' := I.alloc A
  have hown : Own m' (g.take p) .held p := .inr rfl
  exact (Own.congr (g := g.take p) (fun a ha => (A.same a (I'.dir_ne ha hown nofun)).symm)
    (fun a i t _ ht => (A.same t (I'.table_ne ht hown nofun)).symm) (.page b k l) f).symm

/-- `getPTE` in the identity mapping or in the user half -/
theorem getPTE (I : Inv r m g) (ha : a ∈ g.live) (hdead : ∀ s, ¬g.dead s)
    (hlow : index0 va = 0 ∨ 512 ≤ index0 va)
    (h : AddressSpace.getPTE m a va = some ((t, j), m')) :
    (∃ free, Inv r m' { g with free := free }) ∧ OwnTable m' g a (index0 va) t ∧
    j = index1 va ∧
      ∀ b k l f, Own m' g (.page b k l) f ↔ Own m g (.page b k l) f := by
  have hi : index0 va < 1024 := by
    have := va.toNat_lt
    rw [index0_toNat]; omega
  obtain ⟨m₂, hm, h⟩ := Option.bind_eq_some_iff.mp h
  cases h
  split at hm
  next hP =>
    cases hm
    exact ⟨⟨g.free, I⟩, ⟨ha, hdead _, hi, hP, rfl⟩, rfl, fun _ _ _ _ => Iff.rfl⟩
  next hP =>
    obtain ⟨⟨p, m₁⟩, hal, rfl⟩ := Option.map_eq_some_iff.mp hm
    have A := m.allocated hal
    have I₁ := I.alloc A
    have hne : a ≠ p := I₁.dir_ne ha (show Own m₁ (g.take p) .held p from .inr rfl) nofun
    have hP₁ : ¬Present (m₁.mem a (index0 va)) := by rwa [A.same a hne]
    have hp : Aligned p := (I₁.handed (show Own m₁ (g.take p) .held p from .inr rfl)).1
    refine ⟨⟨g.free.tail, ?_⟩, ?_, rfl, fun b k l f => ?_⟩
    · refine (I₁.addTable ha (hdead _) hi hlow hP₁ (.inr rfl) A.zero).congr_held fun f => ?_
      have := I.not_held A
      simp only [Ghost.take, Ghost.drop]
      grind
    · have := (table_addTable (g := g) ha (hdead _) hi hP₁ hp a (index0 va) p).mpr
        (.inr ⟨rfl, rfl, rfl⟩)
      simpa [m₁.write_mem, frame_or hp] using this
    · exact (I₁.page_addTable ha (hdead _) hi hP₁ (.inr rfl) A.zero b k l f).trans
        (I.page_alloc A b k l f)

/-- `pmap` below 4 MB -/
theorem pmap_low (I : Inv r m g) (ha : a ∈ g.live) (hdead : ∀ s, ¬g.dead s)
    (hva : index0 va = 0) {pa : UInt32} {u w : Bool}
    (h : AddressSpace.pmap m a va pa u w = some m') :
    (∃ free, Inv r m' { g with free := free }) ∧
      ∀ b k l f, Own m' g (.page b k l) f ↔ Own m g (.page b k l) f := by
  obtain ⟨⟨⟨t, j⟩, m₁⟩, hg, h⟩ := Option.bind_eq_some_iff.mp h
  cases h
  obtain ⟨⟨free, I₁⟩, ht, -, hpage⟩ := I.getPTE ha hdead (.inl hva) hg
  rw [hva] at ht
  have hown : Own m₁ { g with free := free } (.table a 0) t := ht
  have h0 : ∀ a' i', 512 ≤ i' → Slot.table a 0 ≠ .table a' i' := by
    intro a' i' hi' he
    rw [Slot.table.injEq] at he
    omega
  refine ⟨⟨free, I₁.scribble hown nofun (fun _ => nofun) h0 _⟩, fun b k l f => ?_⟩
  exact (I₁.own_congr hown (fun _ => nofun) h0 (fun q hq => m₁.write_mem_ne hq)
    (.page b k l) f).trans (hpage b k l f)

/-- `pmap` of a held frame in the user half, where nothing is mapped -/
theorem pmap_user (I : Inv r m g) (ha : a ∈ g.live) (hdead : ∀ s, ¬g.dead s)
    (hva : 512 ≤ index0 va) (hp : g.held p)
    (hnone : ∀ f, ¬Own m g (.page a (index0 va) (index1 va)) f) {u w : Bool}
    (h : AddressSpace.pmap m a va p u w = some m') :
    (∃ free, Inv r m' { g.drop p with free := free }) ∧
      ∀ b k l f, Own m' g (.page b k l) f ↔
        if b = a ∧ k = index0 va ∧ l = index1 va then f = p else Own m g (.page b k l) f := by
  have hown : Own m g .held p := hp
  have hj : index1 va < 1024 := by rw [index1_toNat]; omega
  have he := entry_page (I.handed hown).1 u w
  obtain ⟨⟨⟨t, j⟩, m₁⟩, hg, h⟩ := Option.bind_eq_some_iff.mp h
  cases h
  obtain ⟨⟨free, I₁⟩, ht, rfl, hpage⟩ := I.getPTE ha hdead (.inr hva) hg
  have hn : ¬Present (m₁.mem t (index1 va)) := fun hP =>
    hnone (frame (m₁.mem t (index1 va)))
      ((hpage _ _ _ _).mp ⟨hva, hj, hdead _, t, ht, hP, rfl⟩)
  refine ⟨⟨free, I₁.addPage ht hva hj (hdead _) hn hp he⟩, fun b k l f => ?_⟩
  refine (I₁.page_write ht b k l f).trans ?_
  split
  · exact ⟨fun h => h.2.2.2.unique he, fun h => ⟨hva, hj, hdead _, h ▸ he⟩⟩
  · exact hpage b k l f

/-- An allocation followed by the mapping of the frame. -/
theorem alloc_pmap (I : Inv r m g) (ha : a ∈ g.live) (hdead : ∀ s, ¬g.dead s)
    (hva : 512 ≤ index0 va) (hnone : ∀ f, ¬Own m g (.page a (index0 va) (index1 va)) f)
    {m₁ : PhysMem} (A : m.Allocated p m₁) (v : Nat → UInt32) {u w : Bool}
    (h : AddressSpace.pmap { m₁ with mem := Function.update m₁.mem p v } a va p u w = some m') :
    (∃ free, Inv r m' { g with free := free }) ∧
      ∀ b k l f, Own m' g (.page b k l) f ↔
        if b = a ∧ k = index0 va ∧ l = index1 va then f = p else Own m g (.page b k l) f := by
  have I₁ := I.alloc A
  have hown : Own m₁ (g.take p) .held p := .inr rfl
  have I₂ := I₁.scribble hown nofun (fun _ => nofun) (fun _ _ _ => nofun) v
  have hpage b k l f : Own { m₁ with mem := Function.update m₁.mem p v } g (.page b k l) f ↔
      Own m g (.page b k l) f :=
    (I₁.own_congr hown (fun _ => nofun) (fun _ _ _ => nofun)
      (fun q hq => Function.update_of_ne hq v m₁.mem) (.page b k l) f).trans
      (I.page_alloc A b k l f)
  obtain ⟨⟨free, I'⟩, hp'⟩ := I₂.pmap_user ha hdead hva (.inr rfl)
    (fun f hf => hnone f ((hpage _ _ _ _).mp hf)) h
  refine ⟨⟨free, I'.congr_held fun f => ?_⟩, fun b k l f => ?_⟩
  · have := I.not_held A
    simp only [Ghost.take, Ghost.drop]
    grind
  · refine (hp' b k l f).trans ?_
    split
    · exact Iff.rfl
    · exact hpage b k l f

/-- The identity mapping. -/
theorem mapIdentity (I : Inv r m g) (ha : a ∈ g.live) (hdead : ∀ s, ¬g.dead s) {fuel : Nat}
    (h : AddressSpace.mapIdentity a fuel m va = some m') :
    (∃ free, Inv r m' { g with free := free }) ∧
      ∀ b k l f, Own m' g (.page b k l) f ↔ Own m g (.page b k l) f := by
  induction fuel generalizing m g va with
  | zero => cases h; exact ⟨⟨g.free, I⟩, fun _ _ _ _ => Iff.rfl⟩
  | succ fuel ih =>
    rw [AddressSpace.mapIdentity] at h
    split at h
    next hlt =>
      obtain ⟨m₁, hm, h⟩ := Option.bind_eq_some_iff.mp h
      have hva : index0 va = 0 := by
        have h1 := r.limit_le
        rw [I.limit] at hlt
        rw [UInt32.lt_iff_toNat_lt] at hlt
        rw [UInt32.le_iff_toNat_le, show (0x400000 : UInt32).toNat = 0x400000 from rfl] at h1
        rw [index0_toNat]
        omega
      obtain ⟨⟨free, I₁⟩, hpage⟩ := I.pmap_low ha hdead hva hm
      obtain ⟨⟨free', I'⟩, hpage'⟩ := ih I₁ ha hdead h
      exact ⟨⟨free', I'⟩, fun b k l f => (hpage' b k l f).trans (hpage b k l f)⟩
    · cases h
      exact ⟨⟨g.free, I⟩, fun _ _ _ _ => Iff.rfl⟩

end Inv

section

variable {r : Region} {m m' : PhysMem} {a t va child : UInt32} {i j : Nat} {live : List UInt32}

/-- Between two steps. -/
def Rest (r : Region) (live : List UInt32) (m : PhysMem) : Prop :=
  ∃ free, Inv r m (Ghost.rest live free)

/-- `f` is the page at the two indices of the user half of `a`. -/
def Page (m : PhysMem) (live : List UInt32) (a : UInt32) (i j : Nat) (f : UInt32) : Prop :=
  Own m (Ghost.rest live []) (.page a i j) f

theorem index0_user (h : 0x80000000 ≤ va) : 512 ≤ index0 va := by
  rw [UInt32.le_iff_toNat_le, show (0x80000000 : UInt32).toNat = 0x80000000 from rfl] at h
  rw [index0_toNat]
  omega

theorem mapped_iff (ha : a ∈ live) (hva : 512 ≤ index0 va) :
    AddressSpace.Mapped m a va ↔ ∃ f, Page m live a (index0 va) (index1 va) f := by
  have hi : index0 va < 1024 := by
    have := va.toNat_lt
    rw [index0_toNat]; omega
  have hj : index1 va < 1024 := by rw [index1_toNat]; omega
  constructor
  · intro ⟨h0, h1⟩
    exact ⟨_, hva, hj, not_false, _, ⟨ha, not_false, hi, h0, rfl⟩, h1, rfl⟩
  · rintro ⟨f, -, -, -, t, ⟨-, -, -, h0, rfl⟩, h1⟩
    exact ⟨h0, h1.1⟩

theorem Rest.init (r : Region) (mem : UInt32 → Nat → UInt32) :
    Rest r [] (PhysMem.init mem r.start r.limit) := by
  have hnone s f : ¬Own (PhysMem.init mem r.start r.limit) (Ghost.rest [] []) s f := by
    cases s <;> simp [Own, OwnTable, Ghost.rest]
  have hempty f : ¬Handed r (PhysMem.init mem r.start r.limit) f := fun h =>
    absurd (UInt32.lt_of_le_of_lt h.2.1 h.2.2) (UInt32.lt_irrefl _)
  refine ⟨[], ⟨?_, rfl, by simp [Ghost.rest], List.nodup_nil, rfl, UInt32.le_refl _, r.start_le,
    r.start_aligned, trivial, fun f => ?_⟩⟩
  · exact ⟨fun x hx => (hempty x hx).elim, fun s x hs => (hnone s x hs).elim,
      fun s _ x hs => (hnone s x hs).elim⟩
  · exact iff_of_false id fun h => hempty f h.1

/-- `AddressSpace::AddressSpace` -/
theorem Rest.create (R : Rest r live m) (h : AddressSpace.create m = some (a, m')) :
    Rest r (a :: live) m' ∧ ∀ i j f, ¬Page m' (a :: live) a i j f := by
  obtain ⟨free, I⟩ := R
  obtain ⟨⟨pd, m₁⟩, hal, h⟩ := Option.bind_eq_some_iff.mp h
  obtain ⟨m₂, hm, h⟩ := Option.bind_eq_some_iff.mp h
  cases h
  have A := m.allocated hal
  have I₁ := (I.alloc A).addDir (.inr rfl) A.zero
  obtain ⟨⟨free', I'⟩, hpage⟩ := I₁.mapIdentity List.mem_cons_self (fun _ => not_false) hm
  refine ⟨⟨free', I'.congr_held fun f => ?_⟩, fun i j f hp => ?_⟩
  · simp [Ghost.withLive, Ghost.drop, Ghost.take, Ghost.rest]
  · obtain ⟨-, -, -, t, ht, -⟩ := (hpage a i j f).mp hp
    have := ht.2.2.2
    rw [A.zero] at this
    exact not_entry_zero t this

/-- A page fault at an address that is not mapped. -/
theorem Rest.fault (R : Rest r live m) (ha : a ∈ live) (hva : 0x80000000 ≤ va)
    (hn : ¬AddressSpace.Mapped m a va)
    (h : AddressSpace.handlePageFault m a va = .mapped m') : Rest r live m' := by
  obtain ⟨free, I⟩ := R
  unfold AddressSpace.handlePageFault at h
  split at h
  · cases h
  · split at h
    next m₂ hm =>
      cases h
      obtain ⟨⟨p, m₁⟩, hal, hm⟩ := Option.bind_eq_some_iff.mp hm
      have hnone f : ¬Own m (Ghost.rest live free) (.page a (index0 va) (index1 va)) f :=
        fun hf => hn ((mapped_iff ha (index0_user hva)).mpr ⟨f, hf⟩)
      have A := m.allocated hal
      obtain ⟨⟨free', I'⟩, -⟩ :=
        I.alloc_pmap ha (fun _ => not_false) (index0_user hva) hnone A
        (m₁.mem p) (by rwa [Function.update_eq_self])
      exact ⟨free', I'⟩
    · cases h

theorem index_vaOf (hi : i < 1024) (hj : j < 1024) :
    index0 (AddressSpace.vaOf i j) = i ∧ index1 (AddressSpace.vaOf i j) = j := by
  rw [index0_toNat, index1_toNat, vaOf_toNat hi hj]
  omega

/-- No page of `child` from the indices on. -/
def Clear (m : PhysMem) (live : List UInt32) (child : UInt32) (i j : Nat) : Prop :=
  ∀ k l f, Page m live child k l f → k < i ∨ k = i ∧ l < j

theorem Rest.forkPage (R : Rest r live m) (hc : child ∈ live) (hi : 512 ≤ i) (hi' : i < 1024)
    (hj : j < 1024) (hclear : Clear m live child i j)
    (h : AddressSpace.forkPage child t i m j = some m') :
    Rest r live m' ∧ Clear m' live child i (j + 1) := by
  unfold AddressSpace.forkPage at h
  dsimp only at h
  split at h
  · obtain ⟨⟨dest, m₁⟩, hal, h⟩ := Option.bind_eq_some_iff.mp h
    obtain ⟨free, I⟩ := R
    obtain ⟨e0, e1⟩ := index_vaOf hi' hj
    have hnone f : ¬Own m (Ghost.rest live free)
        (.page child (index0 (AddressSpace.vaOf i j)) (index1 (AddressSpace.vaOf i j))) f := by
      rw [e0, e1]
      intro hf
      have := hclear i j f hf
      omega
    obtain ⟨⟨free', I'⟩, hpage⟩ := I.alloc_pmap hc (fun _ => not_false) (by rwa [e0]) hnone
      (m.allocated hal) _ h
    refine ⟨⟨free', I'⟩, fun k l f hf => ?_⟩
    have hf := (hpage child k l f).mp hf
    rw [e0, e1] at hf
    split at hf
    · omega
    · have := hclear k l f hf
      omega
  · cases h
    refine ⟨R, fun k l f hf => ?_⟩
    have := hclear k l f hf
    omega

theorem Rest.forkTable (R : Rest r live m) (hc : child ∈ live) (hi : 512 ≤ i) (hi' : i < 1024)
    (hclear : Clear m live child i 0) (h : AddressSpace.forkTable a child m i = some m') :
    Rest r live m' ∧ Clear m' live child (i + 1) 0 := by
  unfold AddressSpace.forkTable at h
  dsimp only at h
  split at h
  · rw [List.range_eq_range'] at h
    obtain ⟨R', hclear'⟩ := foldlM_range'_inv
      (P := fun j m => Rest r live m ∧ Clear m live child i j)
      (fun j m m' _ hj P h => P.1.forkPage hc hi hi' (by omega) P.2 h) ⟨R, hclear⟩ h
    refine ⟨R', fun k l f hf => ?_⟩
    have := hclear' k l f hf
    omega
  · cases h
    refine ⟨R, fun k l f hf => ?_⟩
    have := hclear k l f hf
    omega

/-- `AddressSpace::fork` into an address space with no page in the user half -/
theorem Rest.fork (R : Rest r live m) (hc : child ∈ live)
    (hn : ∀ i j f, ¬Page m live child i j f) (h : AddressSpace.fork m a child = some m') :
    Rest r live m' := by
  refine (foldlM_range'_inv (P := fun i m => Rest r live m ∧ Clear m live child i 0) ?_
    ⟨R, fun k l f hf => (hn k l f hf).elim⟩ h).1
  exact fun i m m' hi hi' P h => P.1.forkTable hc hi (by omega) P.2 h

/-- The loop over a table in `exec`: the table stays and the ledger is kept. -/
theorem Rest.execPage (hi : 512 ≤ i) (hj : j < 1024)
    (R : Rest r live m ∧ OwnTable m (Ghost.rest live []) a i t) :
    Rest r live (AddressSpace.execPage t m j) ∧
      OwnTable (AddressSpace.execPage t m j) (Ghost.rest live []) a i t := by
  unfold AddressSpace.execPage
  dsimp only
  split
  next hP =>
    obtain ⟨⟨free, I⟩, ht⟩ := R
    set p := frame (m.mem t j)
    have I₁ := I.removePage ht ⟨hi, hj, not_false, t, ht, hP, rfl⟩
    have hheld : ((Ghost.rest live free).hold p).held p := .inr rfl
    have ht₁ := (I.table_write (j := j) (e := 0) ht a i t).mpr ht
    refine ⟨⟨_, (I₁.free hheld).congr_held fun f => ?_⟩, ?_⟩
    · simp [Ghost.give, Ghost.hold, Ghost.rest, p]
    · have ha : a ≠ p :=
        I₁.dir_ne ht.1 (show Own _ ((Ghost.rest live free).hold p) .held p from hheld) (by simp)
      obtain ⟨h1, h2, h3, h4⟩ := ht₁
      exact ⟨h1, h2, h3, by rwa [PhysMem.free_mem_ne _ ha]⟩
  · exact R

theorem Rest.execTable (R : Rest r live m) (ha : a ∈ live) (hi : 512 ≤ i) (hi' : i < 1024) :
    Rest r live (AddressSpace.execTable a m i) := by
  unfold AddressSpace.execTable
  dsimp only
  split
  next hP =>
    rw [List.range_eq_range']
    exact (foldl_range'_inv
      (P := fun _ m' => Rest r live m' ∧ OwnTable m' (Ghost.rest live []) a i (frame (m.mem a i)))
      (fun j m' _ hj P => Rest.execPage hi (by omega) P) ⟨R, ha, not_false, hi', hP, rfl⟩).1
  · exact R

/-- `AddressSpace::exec` -/
theorem Rest.exec (R : Rest r live m) (ha : a ∈ live) : Rest r live (AddressSpace.exec m a) := by
  refine foldl_range'_inv (P := fun _ m => Rest r live m) (fun i m hi hi' R => ?_) R
  exact R.execTable ha hi (by omega)

/-- The slots of `a` that the destructor has given up at the counters `i` and `j`. -/
def Below (a : UInt32) (i j : Nat) : Slot → Prop
  | .table b k => b = a ∧ k < i
  | .page b k l => b = a ∧ (k < i ∨ k = i ∧ l < j)
  | _ => False

theorem Below.mono {i' j' : Nat} {s : Slot} (h : Below a i j s)
    (hij : i < i' ∨ i = i' ∧ j ≤ j') : Below a i' j' s := by
  cases s with
  | table b k => obtain ⟨h1, h2⟩ := h; exact ⟨h1, by omega⟩
  | page b k l => obtain ⟨h1, h2⟩ := h; exact ⟨h1, by omega⟩
  | _ => exact h

/-- The destructor of `a` at the counters `i` and `j`. -/
structure Torn (r : Region) (live : List UInt32) (a : UInt32) (i j : Nat) (m : PhysMem)
    (g : Ghost) : Prop where
  inv : Inv r m g
  live : g.live = live
  held : ∀ f, ¬g.held f
  dead : ∀ s, g.dead s → Below a i j s
  tables : ∀ k < i, ∀ f, ¬OwnTable m g a k f
  pages : ∀ l < j, ∀ f, ¬Own m g (.page a i l) f

namespace Torn

variable {g : Ghost}

theorem destroyPage (hi : 512 ≤ i) (hj : j < 1024)
    (T : ∃ g, Torn r live a i j m g ∧ OwnTable m g a i t) :
    ∃ g, Torn r live a i (j + 1) (AddressSpace.destroyPage t m j) g ∧
      OwnTable (AddressSpace.destroyPage t m j) g a i t := by
  obtain ⟨g, T, ht⟩ := T
  unfold AddressSpace.destroyPage
  dsimp only
  split
  next hP =>
    set p := frame (m.mem t j)
    have hnd : ¬g.dead (.page a i j) := fun h => by
      have := T.dead _ h
      simp [Below] at this
    have I₁ := T.inv.killPage ⟨hi, hj, hnd, t, ht, hP, rfl⟩
    have hheld : ((g.hold p).kill (.page a i j)).held p := .inr rfl
    have hown : Own m ((g.hold p).kill (.page a i j)) .held p := hheld
    have hsame : ∀ q, q ≠ p → (m.free p).mem q = m.mem q := fun q hq => m.free_mem_ne hq
    have hc := I₁.own_congr hown (fun _ => nofun) (fun _ _ _ => nofun) hsame
    have htab k f (h : OwnTable (m.free p) ((g.hold p).kill (.page a i j)) a k f) :
        OwnTable m g a k f := by
      obtain ⟨h1, h2, h3⟩ := (hc (.table a k) f).mp h
      exact ⟨h1, fun hd => h2 (.inl hd), h3⟩
    refine ⟨_, ⟨I₁.free hheld, T.live, ?_, ?_,
      fun k hk f h => T.tables k hk f (htab k f h), ?_⟩, ?_⟩
    · intro f hf
      rcases hf with ⟨hf | rfl, hne⟩
      exacts [T.held f hf, hne rfl]
    · rintro s (hs | rfl)
      · exact (T.dead s hs).mono (by omega)
      · exact ⟨rfl, by omega⟩
    · intro l hl f h
      obtain ⟨h1, h2, h3, u, hu, hf⟩ := (hc (.page a i l) f).mp h
      have hlj : l ≠ j := by
        rintro rfl
        exact h3 (.inr rfl)
      obtain ⟨h4, h5, h6⟩ := hu
      exact T.pages l (by omega) f
        ⟨h1, h2, fun hd => h3 (.inl hd), u, ⟨h4, fun hd => h5 (.inl hd), h6⟩, hf⟩
    · refine (hc (.table a i) t).mpr ⟨ht.1, ?_, ht.2.2⟩
      rintro (hd | hd)
      exacts [ht.2.1 hd, nomatch hd]
  next hP =>
    refine ⟨g, ⟨T.inv, T.live, T.held, fun s hs => (T.dead s hs).mono (by omega),
      T.tables, ?_⟩, ht⟩
    · intro l hl f h
      by_cases hlj : l = j
      · obtain ⟨-, -, -, u, hu, hf⟩ := h
        obtain rfl := hu.2.2.2.unique ht.2.2.2
        exact hP (hlj ▸ hf.1)
      · exact T.pages l (by omega) f h

theorem destroyTable (T : ∃ g, Torn r live a i 0 m g) (ha : a ∈ live) (hi : i < 1024) :
    ∃ g, Torn r live a (i + 1) 0 (AddressSpace.destroyTable a m i) g := by
  obtain ⟨g, T⟩ := T
  unfold AddressSpace.destroyTable
  dsimp only
  split
  next hP =>
    set t := frame (m.mem a i)
    set m₁ := if 0 < i then (List.range 1024).foldl (AddressSpace.destroyPage t) m
      else m with hm₁
    have hnd : ¬g.dead (.table a i) := fun h => by
      have := T.dead _ h
      simp [Below] at this
    have ht : OwnTable m g a i t := ⟨T.live ▸ ha, hnd, hi, hP, rfl⟩
    -- the pages of the table are given up; below 2 GB there are none
    obtain ⟨g₁, j, T₁, ht₁, hpages⟩ : ∃ g₁ j, Torn r live a i j m₁ g₁ ∧
        OwnTable m₁ g₁ a i t ∧ ∀ l f, ¬Own m₁ g₁ (.page a i l) f := by
      by_cases h0 : 0 < i
      · have hi512 : 512 ≤ i := not_lt.mp fun hlt => T.inv.low a ht.1 i h0 hlt hP
        rw [hm₁, if_pos h0, List.range_eq_range']
        obtain ⟨g₁, T₁, ht₁⟩ := foldl_range'_inv (s := 0) (n := 1024)
          (P := fun j m => ∃ g, Torn r live a i j m g ∧ OwnTable m g a i t)
          (fun j m _ hj T => Torn.destroyPage hi512 (by omega) T) ⟨g, T, ht⟩
        exact ⟨g₁, _, T₁, ht₁, fun l f h => T₁.pages l (by have := h.2.1; omega) f h⟩
      · rw [hm₁, if_neg h0]
        exact ⟨g, 0, T, ht, fun l f h => by have := h.1; omega⟩
    have I₂ := T₁.inv.killTable ht₁ hpages
    have hheld : ((g₁.hold t).kill (.table a i)).held t := .inr rfl
    refine ⟨_, I₂.free hheld, T₁.live, ?_, ?_, ?_, nofun⟩
    · intro f hf
      rcases hf with ⟨hf | rfl, hne⟩
      exacts [T₁.held f hf, hne rfl]
    · rintro s (hs | rfl)
      · exact (T₁.dead s hs).mono (by omega)
      · exact ⟨rfl, by omega⟩
    · rintro k hk f ⟨h1, h2, h3, h4⟩
      have hat : a ≠ t :=
        I₂.dir_ne h1 (show Own m₁ ((g₁.hold t).kill (.table a i)) .held t from hheld) nofun
      rw [PhysMem.free_mem_ne _ hat] at h4
      by_cases hki : k = i
      · exact h2 (.inr (hki ▸ rfl))
      · exact T₁.tables k (by omega) f ⟨h1, fun hd => h2 (.inl hd), h3, h4⟩
  next hP =>
    refine ⟨g, T.inv, T.live, T.held, fun s hs => (T.dead s hs).mono (by omega), ?_, nofun⟩
    intro k hk f h
    by_cases hki : k = i
    · exact hP (hki ▸ h.2.2.2.1)
    · exact T.tables k (by omega) f h

end Torn

/-- `AddressSpace::~AddressSpace` -/
theorem Rest.destroy (R : Rest r live m) (ha : a ∈ live) :
    Rest r (live.erase a) (AddressSpace.destroy m a) := by
  obtain ⟨free, I⟩ := R
  have h0 : Torn r live a 0 0 m (Ghost.rest live free) :=
    ⟨I, rfl, fun _ => id, fun _ => False.elim, nofun, nofun⟩
  unfold AddressSpace.destroy
  rw [List.range_eq_range']
  obtain ⟨g, T⟩ := foldl_range'_inv (s := 0) (n := 1024)
    (P := fun i m => ∃ g, Torn r live a i 0 m g)
    (fun i m _ hi T => Torn.destroyTable T ha (by omega)) ⟨_, h0⟩
  have hnone i f : ¬OwnTable _ g a i f := fun h => T.tables i (by have := h.2.2.1; omega) f h
  have I₁ := (T.inv.removeDir (T.live ▸ ha) hnone).free (p := a) (.inr rfl)
  have hnot : a ∉ live.erase a := fun h => (I.nodup.mem_erase_iff.mp h).1 rfl
  refine ⟨a :: g.free, I₁.settle (congrArg (·.erase a) T.live) ?_ fun s hs f h => ?_⟩
  · rintro f ⟨hf | rfl, hne⟩
    exacts [T.held f hf, hne rfl]
  · -- what is dead belongs to `a`, which is no longer live
    have hb := T.dead s hs
    cases s with
    | table b k => obtain ⟨rfl, -⟩ := hb; exact hnot h.1
    | page b k l =>
      obtain ⟨rfl, -⟩ := hb
      obtain ⟨t, ht, -⟩ := h.2.2.2
      exact hnot ht.1
    | _ => exact hb

end

end K439.Vmm
