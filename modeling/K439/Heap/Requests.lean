import K439.Heap.Clients

/-!
# What the kernel heap gives out

A hole is a maximal run of ints that belong to no live block and to no sentinel. The holes are
exactly the available blocks, so `malloc` fails only when no hole has room (`malloc_fails_iff`).
What it gives out is large enough unless the sum `bytes + 3` wraps around (`malloc_large_iff`).
-/

namespace K439.Heap

/-- `array[i]` is outside the region, in a sentinel or in a live block. -/
def Occupied (s : Clients) (i : Int) : Prop :=
  i < 2 ∨ s.heap.len - 2 ≤ i ∨
    ∃ p ∈ s.live, header s.heap p ≤ i ∧
      i < header s.heap p + abs (s.heap.array (header s.heap p))

/-- The `k` ints from `a` on are a maximal run of ints that are not occupied. -/
structure Hole (s : Clients) (a k : Int) : Prop where
  pos : 0 < k
  inside : ∀ i, a ≤ i → i < a + k → ¬Occupied s i
  before : Occupied s (a - 1)
  behind : Occupied s (a + k)

/-- One available block covers everything between the sentinels. -/
def OneBlock (h : State) : Prop :=
  Inv h [⟨0, 2, .taken⟩, ⟨2, h.len - 4, .free⟩, ⟨h.len - 2, 2, .taken⟩] [2]

/-- The size in bytes of the payload of the block that `p` points into. -/
def payload (h : State) (p : Int) : Int := 4 * (abs (h.array (header h p)) - 2)

variable {s s' : Clients} {bs : List Block} {fl : List Int} {b c : Block} {i a k p : Int}
  {h : State}

theorem payload_block (I : Inv h bs fl) (hb : b ∈ bs) (hp : p = h.base + 4 * (b.start + 1)) :
    payload h p = 4 * (b.size - 2) := by
  rw [payload, header_block hp, (I.tagged b hb (I.built b hb)).1, Block.abs_tag (I.bounds hb).2.1]

namespace Clients.Inv

/-- What lies in a block is occupied unless the block is available. -/
theorem occupied_iff (I : s.Inv bs fl) (hb : b ∈ bs) (h1 : b.start ≤ i)
    (h2 : i < b.start + b.size) : Occupied s i ↔ b.kind = .taken := by
  have hbd := I.heap.bounds hb
  have hbuilt := I.heap.built b hb
  constructor
  · intro ho
    rcases ho with ho | ho | ⟨p, hp, hl, hr⟩
    · have hb' : b = ⟨0, 2, .taken⟩ := by
        rcases I.heap.tiles.apart hb I.heap.first with he | he | he
        · exact he
        · dsimp only at he; omega
        · dsimp only at he; omega
      rw [hb']
    · have hb' : b = ⟨s.heap.len - 2, 2, .taken⟩ := by
        rcases I.heap.tiles.apart hb I.heap.last with he | he | he
        · exact he
        · dsimp only at he; omega
        · dsimp only at he; omega
      rw [hb']
    · obtain ⟨c, hc, hk, _, _, hpe⟩ := I.live_block hp
      rw [header_block hpe] at hl hr
      rw [(I.heap.tagged c hc (I.heap.built c hc)).1, Block.abs_tag (I.heap.bounds hc).2.1] at hr
      rcases I.heap.tiles.apart hb hc with rfl | he | he
      · exact hk
      · omega
      · omega
  · intro hk
    by_cases h0 : b.start = 0
    · rw [I.heap.tiles.eq_of_start hb I.heap.first h0] at h2
      exact .inl h2
    by_cases hl : b.start = s.heap.len - 2
    · exact .inr (.inl (hl ▸ h1))
    · have hhead := header_block (h := s.heap) (b := b) rfl
      refine .inr (.inr ⟨s.heap.base + 4 * (b.start + 1),
        (I.live_iff _).mpr ⟨b, hb, hk, h0, hl, rfl⟩, ?_, ?_⟩)
      · rwa [hhead]
      · rwa [hhead, (I.heap.tagged b hb hbuilt).1, Block.abs_tag hbd.2.1]

/-- The holes are the available blocks. -/
theorem hole_iff (I : s.Inv bs fl) : Hole s a k ↔ ⟨a, k, .free⟩ ∈ bs := by
  constructor
  · intro H
    have hina := H.inside a (Int.le_refl a) (by have := H.pos; omega)
    have hrange : 0 ≤ a ∧ a < s.heap.len := by
      simp only [Occupied, not_or] at hina
      omega
    obtain ⟨b, hb, h1, h2⟩ := I.heap.tiles.cover hrange.1 hrange.2
    have hk : b.kind = .free := by
      have hbuilt := I.heap.built b hb
      have hnot := mt (I.occupied_iff hb h1 h2).mpr hina
      cases hkind : b.kind with
      | taken => exact absurd hkind hnot
      | free => rfl
      | raw => exact absurd hkind hbuilt
    have hnot {j : Int} (hj1 : b.start ≤ j) (hj2 : j < b.start + b.size) : ¬Occupied s j := by
      rw [I.occupied_iff hb hj1 hj2, hk]
      simp
    have hstart : b.start = a := by
      by_contra hne
      exact hnot (j := a - 1) (by omega) (by omega) H.before
    have hle : a + k ≤ b.start + b.size → k = b.size := by
      intro hle
      by_contra hne
      exact hnot (j := a + k) (by have := H.pos; omega) (by omega) H.behind
    have hge : ¬b.start + b.size < a + k := by
      intro hlt
      obtain ⟨h0, hl⟩ := I.heap.free_ne_sentinel hb hk
      obtain ⟨l, x, c, r, rfl, -, hc⟩ := I.heap.neighbours hb h0 hl
      have hcm : c ∈ l ++ x :: b :: c :: r := by simp
      have hcbd := I.heap.bounds hcm
      have hocc := H.inside c.start (by omega) (by omega)
      rw [I.occupied_iff hcm (Int.le_refl _) (by omega)] at hocc
      have hck : c.kind = .free := by
        cases hkind : c.kind with
        | taken => exact absurd hkind hocc
        | free => rfl
        | raw => exact absurd hkind (I.heap.built c hcm)
      exact I.heap.coalesced b hb c hcm hc.symm ⟨hk, hck⟩
    have hsize : k = b.size := hle (Int.not_lt.mp hge)
    rw [hsize, ← hstart, ← hk]
    exact hb
  · intro hb
    have hbd := I.heap.bounds hb
    obtain ⟨h0, hl⟩ := I.heap.free_ne_sentinel hb rfl
    obtain ⟨l, x, c, r, rfl, hx, hc⟩ := I.heap.neighbours hb h0 hl
    have hxm : x ∈ l ++ x :: ⟨a, k, .free⟩ :: c :: r := by simp
    have hcm : c ∈ l ++ x :: ⟨a, k, .free⟩ :: c :: r := by simp
    have hxbd := I.heap.bounds hxm
    have hcbd := I.heap.bounds hcm
    dsimp only at hbd hx hc
    refine ⟨hbd.2.1, fun i h1 h2 => ?_, ?_, ?_⟩
    · rw [I.occupied_iff hb h1 h2]
      simp
    · rw [I.occupied_iff hxm (by omega) (by omega)]
      cases hkind : x.kind with
      | taken => rfl
      | free => exact absurd ⟨hkind, rfl⟩ (I.heap.coalesced x hxm _ hb hx)
      | raw => exact absurd hkind (I.heap.built x hxm)
    · rw [I.occupied_iff hcm (by omega) (by omega)]
      cases hkind : c.kind with
      | taken => rfl
      | free => exact absurd ⟨rfl, hkind⟩ (I.heap.coalesced _ hb c hcm hc.symm)
      | raw => exact absurd hkind (I.heap.built c hcm)

/-- Without live pointers there is one available block. -/
theorem oneBlock (I : s.Inv bs fl) (hlen : 8 ≤ s.heap.len) (hlive : s.live = []) :
    OneBlock s.heap := by
  obtain ⟨b, hb, h1, h2⟩ := I.heap.tiles.cover (x := 2) (by omega) (by omega)
  have hfree (c : Block) (hc : c ∈ bs) (h0 : c.start ≠ 0) (hl : c.start ≠ s.heap.len - 2) :
      c.kind = .free := by
    cases hkind : c.kind with
    | taken =>
      have hp := (I.live_iff _).mpr ⟨c, hc, hkind, h0, hl, rfl⟩
      rw [hlive] at hp
      cases hp
    | free => rfl
    | raw => exact absurd hkind (I.heap.built c hc)
  have h0 : b.start ≠ 0 := by
    intro h0
    rw [I.heap.tiles.eq_of_start hb I.heap.first h0] at h2
    exact absurd h2 (by decide)
  have hl : b.start ≠ s.heap.len - 2 := by omega
  have hk := hfree b hb h0 hl
  obtain ⟨l, x, c, r, rfl, hx, hc⟩ := I.heap.neighbours hb h0 hl
  have hxm : x ∈ l ++ x :: b :: c :: r := by simp
  have hcm : c ∈ l ++ x :: b :: c :: r := by simp
  have hxbd := I.heap.bounds hxm
  have hx0 : x = ⟨0, 2, .taken⟩ := by
    refine I.heap.tiles.eq_of_start hxm I.heap.first ?_
    by_contra hne
    have hxk := hfree x hxm hne (by omega)
    exact I.heap.coalesced x hxm b hb hx ⟨hxk, hk⟩
  have hcl : c = ⟨s.heap.len - 2, 2, .taken⟩ := by
    refine I.heap.tiles.eq_of_start hcm I.heap.last ?_
    by_contra hne
    have hck := hfree c hcm (by have := I.heap.bounds hb; omega) hne
    exact I.heap.coalesced b hb c hcm hc.symm ⟨hk, hck⟩
  subst hx0 hcl
  have hbl : b = ⟨2, s.heap.len - 4, .free⟩ := by
    obtain ⟨start, size, kind⟩ := b
    dsimp only at hx hc hk
    rw [Block.mk.injEq]
    exact ⟨hx.symm, by omega, hk⟩
  subst hbl
  have hnil : l = [] := by
    have hleft := (Tiles.at_piece.mp I.heap.tiles).1
    cases l with
    | nil => rfl
    | cons y l =>
      have hy := hleft.bounds (b := y) List.mem_cons_self
      dsimp only at hy
      omega
  subst hnil
  have hrnil : r = [] := by
    obtain ⟨-, -, -, -, -, -, ht⟩ := I.heap.tiles
    cases r with
    | nil => rfl
    | cons y r =>
      have hy := ht.bounds (b := y) List.mem_cons_self
      dsimp only at hy
      omega
  subst hrnil
  have hfl : fl = [2] := by
    have hmem (i : Int) : i ∈ fl ↔ i = 2 := by
      rw [I.heap.listed_iff]
      simp [eq_comm]
    have hnd := I.heap.links.linked.nodup
    cases fl with
    | nil => exact absurd ((hmem 2).mpr rfl) (by simp)
    | cons i fl =>
      obtain rfl := (hmem i).mp List.mem_cons_self
      cases fl with
      | nil => rfl
      | cons j fl =>
        obtain rfl := (hmem j).mp (by simp)
        simp at hnd
  subst hfl
  exact I.heap

end Clients.Inv

/-- The region keeps its size. -/
theorem Reachable.large {rg : Region} {mem : Int → Int} (hs : Reachable rg mem s) :
    8 ≤ s.heap.len := by
  obtain ⟨h, calls, hr, hrun⟩ := hs
  obtain ⟨h', bs, fl, hr', I⟩ := init_spec rg mem
  rw [hr] at hr'
  cases hr'
  have hlen : 8 ≤ h.len := by
    have hlarge := rg.large
    obtain ⟨h₁, hr₁, hreg, -⟩ := initBlocks_spec
      (h := { boot mem with base := rg.base, len := rg.bytes.toNat / 4 }) (by dsimp only; omega) rfl
    have he : init rg.base rg.bytes (boot mem) = .ok () h₁ := hr₁
    rw [hr] at he
    cases he
    rw [hreg.2]
    dsimp only
    omega
  refine (hrun.inv (I := fun s => (∃ bs fl, s.Inv bs fl) ∧ 8 ≤ s.heap.len)
    (fun s c s' hI hstep => ?_)
    ⟨⟨bs, fl, I⟩, hlen⟩).2
  obtain ⟨⟨bs, fl, I⟩, hlen⟩ := hI
  refine ⟨I.step hstep, ?_⟩
  rw [(I.region hstep).2]
  exact hlen

/-- `malloc` of some bytes, with the block it takes. -/
theorem malloc_cases (I : s.Inv bs fl) {bytes : UInt32} (hz : bytes ≠ 0) :
    (Kernel.malloc bytes s.heap = .error (.panic (.heapIsFull bytes)) s.heap ∧
      ∀ b ∈ bs, b.kind = .free → b.size < Kernel.ints bytes) ∨
    ∃ t h' bs' fl', Kernel.malloc bytes s.heap = .ok (s.heap.base + 4 * (t.start + 1)) h' ∧
      SameRegion s.heap h' ∧ Inv h' bs' fl' ∧ Gets s.heap h' bs bs' t (Kernel.ints bytes) := by
  rcases I.reserve (v := .kernel) (Kernel.four_le_ints bytes) with
    ⟨hr, hall⟩ | ⟨t, h', bs', fl', hr, I', hreg, G⟩
  · refine .inl ⟨?_, hall⟩
    rw [Kernel.malloc, if_neg hz, bind_ok hr]
    rfl
  · refine .inr ⟨t, h', bs', fl', ?_, hreg, I'.heap, G⟩
    rw [Kernel.malloc_some hz hr, hreg.1]

/-- **The heap loses no memory.** `malloc` fails exactly when no hole has room for the request, and
without live pointers the heap is one available block. -/
theorem malloc_fails_iff (rg : Region) (mem : Int → Int) (s : Clients) (hs : Reachable rg mem s) :
    (∀ bytes ≠ 0, Kernel.malloc bytes s.heap = .error (.panic (.heapIsFull bytes)) s.heap ↔
      ¬∃ a k, Hole s a k ∧ Kernel.ints bytes ≤ k) ∧
    (s.live = [] → OneBlock s.heap) := by
  obtain ⟨bs, fl, I⟩ := hs.inv
  refine ⟨fun bytes hz => ?_, I.oneBlock hs.large⟩
  rcases malloc_cases I hz with ⟨hr, hall⟩ | ⟨t, h', bs', fl', hr, hreg, I', G⟩
  · refine iff_of_true hr ?_
    rintro ⟨a, k, H, hk⟩
    have hlt := hall ⟨a, k, .free⟩ (I.hole_iff.mp H) rfl
    dsimp only at hlt
    omega
  · obtain ⟨b, hb, hk, hfits⟩ := G.fits
    refine iff_of_false ?_ fun hno => hno ⟨b.start, b.size, I.hole_iff.mpr ?_, hfits⟩
    · rw [hr]
      intro he
      cases he
    · rw [← hk]
      exact hb

theorem malloc_fails_iff_smallHeap :
    ∃ a k, Hole ⟨smallHeap, [0x10000c]⟩ a k ∧ Kernel.ints 5 ≤ k := by
  have hiff := (malloc_fails_iff smallRegion _ _ smallHeap_reachable).1 5 (by decide)
  have hok : Kernel.malloc 5 smallHeap = .ok 0x10001c (stateAfter (Kernel.malloc 5) smallHeap) :=
    rfl
  by_contra hno
  have hfail := hiff.mpr hno
  rw [hok] at hfail
  cases hfail

/-! ## The size of what is given out -/

/-- Without wrap-around the request is covered, with the two tags. -/
theorem ints_covers {bytes : UInt32} (hb : bytes ≤ 0xFFFFFFFC) :
    (bytes.toNat : Int) ≤ 4 * (Kernel.ints bytes - 2) := by
  have hle : bytes.toNat ≤ 4294967292 := UInt32.le_iff_toNat_le.mp hb
  have hadd : (bytes + 3).toNat = bytes.toNat + 3 := by
    rw [UInt32.toNat_add]
    exact Nat.mod_eq_of_lt (by change bytes.toNat + 3 < 4294967296; omega)
  have hdiv : ((bytes + 3) / 4).toNat = (bytes.toNat + 3) / 4 := by
    rw [UInt32.toNat_div, hadd]
    rfl
  have hmax := Int.le_max_right 4 ((((bytes + 3) / 4).toNat : Int) + 2)
  rw [← Kernel.ints, hdiv] at hmax
  omega

/-- The three largest requests count as empty ones. -/
theorem ints_wraps {bytes : UInt32} (hb : ¬bytes ≤ 0xFFFFFFFC) :
    Kernel.ints bytes = 4 ∧ 4294967293 ≤ bytes.toNat := by
  have hlt : 4294967292 < bytes.toNat :=
    Nat.lt_of_not_le fun hle => hb (UInt32.le_iff_toNat_le.mpr hle)
  have hmax := bytes.toNat_lt
  have hadd : (bytes + 3).toNat = bytes.toNat + 3 - 4294967296 := by
    rw [UInt32.toNat_add]
    change (bytes.toNat + 3) % 4294967296 = _
    omega
  have hdiv : ((bytes + 3) / 4).toNat = 0 := by
    rw [UInt32.toNat_div, hadd]
    exact Nat.div_eq_of_lt (by change _ < 4; omega)
  refine ⟨?_, hlt⟩
  rw [Kernel.ints, hdiv]
  rfl

/-- **How much `malloc` gives out.** The payload holds the bytes that were asked for, except when
`bytes + 3` wraps around and there is some available block. -/
theorem malloc_large_iff (rg : Region) (mem : Int → Int) (s : Clients) (hs : Reachable rg mem s)
    (bytes : UInt32) (hz : bytes ≠ 0) :
    (∀ p h', Kernel.malloc bytes s.heap = .ok p h' → (bytes.toNat : Int) ≤ payload h' p) ↔
      bytes ≤ 0xFFFFFFFC ∨ s.heap.avail = 0 := by
  obtain ⟨bs, fl, I⟩ := hs.inv
  rcases malloc_cases I hz with ⟨hr, hall⟩ | ⟨t, h', bs', fl', hr, hreg, I', G⟩
  · refine iff_of_true (fun p h' he => ?_) ?_
    · rw [hr] at he
      cases he
    · by_cases hw : bytes ≤ 0xFFFFFFFC
      · exact .inl hw
      -- the request counts as 4 ints, which every available block has
      · refine .inr ?_
        rw [I.heap.links.linked.eq_nil_iff]
        refine List.eq_nil_iff_forall_not_mem.mpr fun i hi => ?_
        obtain ⟨b, hb, -, hk, h4⟩ := I.heap.listed i hi
        have := hall b hb hk
        rw [(ints_wraps hw).1] at this
        omega
  · have ht := G.taken.1
    have hsize := G.large
    obtain ⟨b, hb, hk, hfits⟩ := G.fits
    have hpay : payload h' (s.heap.base + 4 * (t.start + 1)) = 4 * (t.size - 2) :=
      payload_block I' ht (by rw [hreg.1])
    have havail : s.heap.avail ≠ 0 := by
      intro h0
      have hnil := I.heap.links.linked.eq_nil_iff.mp h0
      have hmem := I.heap.free_listed b hb hk
      rw [hnil] at hmem
      cases hmem
    by_cases hw : bytes ≤ 0xFFFFFFFC
    · refine iff_of_true (fun p h'' he => ?_) (.inl hw)
      rw [hr] at he
      cases he
      rw [hpay]
      have := ints_covers hw
      omega
    · refine iff_of_false (fun hall => ?_) (not_or.mpr ⟨hw, havail⟩)
      have hle := hall _ _ hr
      rw [hpay] at hle
      have := (ints_wraps hw).2
      have := I'.bounds ht
      have := I.in_memory
      have := I.base_nonneg
      have hlen := hreg.2
      omega

theorem malloc_large_iff_smallHeap :
    9 ≤ payload (stateAfter (Kernel.malloc 9) smallHeap) 0x10001c :=
  (malloc_large_iff smallRegion _ _ smallHeap_reachable 9 (by decide)).mpr (.inl (by decide)) _ _
    rfl

/-- In `smallHeap` a request for `2 ^ 32 - 1` bytes is granted, with a payload of 8 bytes. -/
theorem malloc_too_small :
    ¬∀ (rg : Region) (mem : Int → Int) (s : Clients), Reachable rg mem s →
    ∀ bytes ≠ 0, ∀ p h', Kernel.malloc bytes s.heap = .ok p h' →
    (bytes.toNat : Int) ≤ payload h' p := by
  intro hall
  have hle := hall smallRegion _ _ smallHeap_reachable 0xFFFFFFFF (by decide) 0x10001c
    (stateAfter (Kernel.malloc 0xFFFFFFFF) smallHeap) rfl
  exact absurd hle (by decide)

end K439.Heap
