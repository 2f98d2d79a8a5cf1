import K439.Heap.Invariant
import K439.Lib.Run

/-!
# Runs of the kernel heap

The clients of the kernel heap call `malloc` and `free` in any order and write inside the payloads
they own. `Clients.inv` carries the heap invariant through such a run, together with the fact that
the live pointers are those of the taken blocks.
-/

namespace K439.Heap

/-- The heap and the pointers `malloc` has returned that have not been freed since. -/
structure Clients where
  heap : State
  live : List Int

/-- The index of the header of the block that `p` points into. -/
def header (h : State) (p : Int) : Int := (p - h.base) / 4 - 1

/-- `array[i]` lies strictly between the header and the footer of the block of `p`. -/
def InPayload (h : State) (p i : Int) : Prop :=
  header h p < i ∧ i < header h p + abs (h.array (header h p)) - 1

inductive Call
  | malloc (bytes : UInt32)
  | free (p : Int)
  /-- A client writes `x` to `array[i]`. -/
  | store (i x : Int)

/-- The pointers a client may free: null, the pointer `malloc(0)` returns, and the live ones. -/
def MayFree (s : Clients) (p : Int) : Prop := p = 0 ∨ p = s.heap.base ∨ p ∈ s.live

inductive Step : Clients → Call → Clients → Prop
  | malloc : Kernel.malloc bytes s.heap = .ok p h' →
    Step s (.malloc bytes) ⟨h', if bytes = 0 then s.live else p :: s.live⟩
  | free : MayFree s p → Kernel.free p s.heap = .ok () h' →
    Step s (.free p) ⟨h', s.live.erase p⟩
  | store : p ∈ s.live → InPayload s.heap p i →
    Step s (.store i x) ⟨{ s.heap with array := Function.update s.heap.array i x }, s.live⟩

/-- The invariant of `Clients`: that of the heap, a region inside the address space, and the live
pointers are those of the taken blocks that are not sentinels. -/
structure Clients.Inv (s : Clients) (bs : List Block) (fl : List Int) : Prop where
  heap : Heap.Inv s.heap bs fl
  base_nonneg : 0 ≤ s.heap.base
  in_memory : s.heap.base + 4 * s.heap.len ≤ 2 ^ 32
  nodup : s.live.Nodup
  live_iff : ∀ p, p ∈ s.live ↔ ∃ b ∈ bs, b.kind = .taken ∧ b.start ≠ 0 ∧
    b.start ≠ s.heap.len - 2 ∧ p = s.heap.base + 4 * (b.start + 1)

variable {s s' t : Clients} {bs bs' : List Block} {fl fl' : List Int} {p q i x ints : Int}
  {bytes : UInt32} {h h' : State} {b : Block} {v : Build}

theorem header_block (hp : p = h.base + 4 * (b.start + 1)) : header h p = b.start := by
  unfold header; omega

/-- The payload of a taken block: everything but its two tags. -/
theorem inPayload_iff (I : Heap.Inv h bs fl) (hb : b ∈ bs)
    (hp : p = h.base + 4 * (b.start + 1)) :
    InPayload h p i ↔ b.start < i ∧ i < b.start + b.size - 1 := by
  rw [InPayload, header_block hp, (I.tagged b hb (I.built b hb)).1, Block.abs_tag (I.bounds hb).2.1]

/-- Only ints of the payload of `b` differ. -/
structure WritesIn (h h' : State) (b : Block) : Prop where
  region : SameRegion h h'
  avail : h'.avail = h.avail
  kept : ∀ j, ¬(b.start < j ∧ j < b.start + b.size - 1) → h'.array j = h.array j

/-- What happens inside the payload of a taken block is no concern of the heap. -/
theorem Inv.writes (I : Heap.Inv h bs fl) (hb : b ∈ bs) (hk : b.kind = .taken)
    (W : WritesIn h h' b) : Heap.Inv h' bs fl := by
  have hsame : ∀ c ∈ bs, ∀ j, (j = c.start ∨ j = c.start + c.size - 1 ∨
      c.kind = .free ∧ c.start ≤ j ∧ j < c.start + c.size) → h'.array j = h.array j := by
    intro c hc j hj
    refine W.kept j ?_
    rintro ⟨h1, h2⟩
    have hbd := I.bounds hc
    rcases I.tiles.apart hb hc with rfl | h | h
    · rcases hj with hj | hj | ⟨hj, _⟩
      · omega
      · omega
      · simp [hk] at hj
    · omega
    · omega
  have hlen := W.region.2
  refine { I with tiles := ?_, tagged := fun c hc hkc => ?_, links := ?_, last := ?_, sizes := ?_ }
  · rw [hlen]; exact I.tiles
  · rw [hsame c hc _ (.inl rfl), hsame c hc _ (.inr (.inl rfl))]
    exact I.tagged c hc hkc
  · rw [W.avail]
    refine I.links.congr (fun z hz => ?_) fun z hz => ?_
    · obtain ⟨c, hc, rfl, hkc, hs⟩ := I.listed z hz
      exact hsame c hc _ (.inr (.inr ⟨hkc, by omega, by omega⟩))
    · obtain ⟨c, hc, rfl, hkc, hs⟩ := I.listed z hz
      exact hsame c hc _ (.inr (.inr ⟨hkc, by omega, by omega⟩))
  · rw [hlen]; exact I.last
  · rw [hlen]; exact I.sizes

/-- One int written into the payload. -/
theorem WritesIn.store (h1 : b.start < i) (h2 : i < b.start + b.size - 1) :
    WritesIn h { h with array := Function.update h.array i x } b := by
  refine ⟨⟨rfl, rfl⟩, rfl, fun j hj => ?_⟩
  change Function.update h.array i x j = h.array j
  rw [Function.update_apply, if_neg]
  rintro rfl
  exact hj ⟨h1, h2⟩

/-- What `mallocInts` does to the blocks when it hands out `t`. -/
structure Gets (h h' : State) (bs bs' : List Block) (t : Block) (ints : Int) : Prop where
  taken : t ∈ bs' ∧ t.kind = .taken
  ne_first : t.start ≠ 0
  ne_last : t.start ≠ h.len - 2
  fresh : t ∉ bs
  large : ints ≤ t.size
  kept : ∀ b ∈ bs, b.kind = .taken → b ∈ bs' ∧ Keeps h h' b
  fits : ∃ b ∈ bs, b.kind = .free ∧ ints ≤ b.size

theorem Kernel.four_le_ints (bytes : UInt32) : 4 ≤ Kernel.ints bytes := Int.le_max_left _ _

theorem Kernel.malloc_some (hz : bytes ≠ 0)
    (hr : mallocInts .kernel (Kernel.ints bytes) h = .ok (some i) h') :
    Kernel.malloc bytes h = .ok (h'.base + 4 * (i + 1)) h' := by
  rw [Kernel.malloc, if_neg hz, bind_ok hr]; rfl

/-- `free` computes the index of the header. -/
theorem Kernel.free_header (hbase : 0 ≤ h.base) (hmem : h.base + 4 * h.len ≤ 2 ^ 32)
    (h0 : 0 ≤ i) (h1 : i < h.len - 1) (hp : p = h.base + 4 * (i + 1)) :
    Kernel.free p h = freeIndex .kernel p i h := by
  have hidx : (p - h.base) % 4294967296 / 4 - 1 = i := by
    rw [Int.emod_eq_of_lt (by omega) (by omega)]; omega
  rw [Kernel.free, if_neg (by omega), bind_ok (show getBase h = .ok h.base h from rfl),
    if_neg (by omega), hidx]

/-- `free` of null and of the pointer `malloc(0)` returns does nothing. -/
theorem Kernel.free_idle (hp : p = 0 ∨ p = h.base) : Kernel.free p h = .ok () h := by
  by_cases hp0 : p = 0
  · rw [Kernel.free, if_pos hp0]; rfl
  · rw [Kernel.free, if_neg hp0, bind_ok (show getBase h = .ok h.base h from rfl),
      if_pos (hp.resolve_left hp0)]
    rfl

theorem MayFree.idle (hp : MayFree s p) (hlive : p ∉ s.live) : p = 0 ∨ p = s.heap.base := by
  rcases hp with hp | hp | hp
  · exact .inl hp
  · exact .inr hp
  · exact absurd hp hlive

namespace Clients.Inv

/-- A live pointer points into a taken block. -/
theorem live_block (I : s.Inv bs fl) (hp : p ∈ s.live) :
    ∃ b ∈ bs, b.kind = .taken ∧ b.start ≠ 0 ∧ b.start ≠ s.heap.len - 2 ∧
      p = s.heap.base + 4 * (b.start + 1) := (I.live_iff p).mp hp

theorem live_ne (I : s.Inv bs fl) (hp : p ∈ s.live) : p ≠ 0 ∧ p ≠ s.heap.base := by
  obtain ⟨b, hb, _, _, _, rfl⟩ := I.live_block hp
  have := I.heap.bounds hb
  have := I.base_nonneg
  omega

/-- `free` finds the header of a block that a pointer was handed out for. -/
theorem free_block (I : s.Inv bs fl) (hb : b ∈ bs) (h0 : b.start ≠ 0)
    (hl : b.start ≠ s.heap.len - 2) (hp : p = s.heap.base + 4 * (b.start + 1)) :
    Kernel.free p s.heap = freeIndex .kernel p b.start s.heap := by
  have hbd := I.heap.bounds hb
  have hsize := I.heap.sizes b hb h0 hl
  exact Kernel.free_header I.base_nonneg I.in_memory (by omega) (by omega) hp

/-- `mallocInts` hands out a new taken block, or there is no room. -/
theorem reserve (I : s.Inv bs fl) (h4 : 4 ≤ ints) :
    (mallocInts v ints s.heap = .ok none s.heap ∧ ∀ b ∈ bs, b.kind = .free →
      b.size < ints) ∨
    ∃ t h' bs' fl', mallocInts v ints s.heap = .ok (some t.start) h' ∧
      Clients.Inv ⟨h', (s.heap.base + 4 * (t.start + 1)) :: s.live⟩ bs' fl' ∧
      SameRegion s.heap h' ∧ Gets s.heap h' bs bs' t ints := by
  rcases mallocInts_spec (v := v) I.heap h4 with hfull |
    ⟨h', bs', fl', t, hr, hreg, I', ⟨hkt, hnew, htaken⟩, ht0, htl, hsize, hkeeps, hfits⟩
  · exact .inl hfull
  · right
    have hmem : ∀ b ∈ bs, b.kind = .taken → b ∈ bs' :=
      fun b hb hk => (htaken b hk).mpr (.inl hb)
    have htm : t ∈ bs' := (htaken t hkt).mpr (.inr rfl)
    have hlive : ∀ p, p ∈ (s.heap.base + 4 * (t.start + 1)) :: s.live ↔
        ∃ b ∈ bs', b.kind = .taken ∧
        b.start ≠ 0 ∧ b.start ≠ h'.len - 2 ∧ p = h'.base + 4 * (b.start + 1) := by
      intro p
      rw [hreg.1, hreg.2, List.mem_cons, I.live_iff]
      constructor
      · rintro (rfl | ⟨b, hb, hk, h⟩)
        exacts [⟨t, htm, hkt, ht0, htl, rfl⟩, ⟨b, hmem b hb hk, hk, h⟩]
      · rintro ⟨b, hb, hk, h0, hl, rfl⟩
        rcases (htaken b hk).mp hb with hb | rfl
        exacts [.inr ⟨b, hb, hk, h0, hl, rfl⟩, .inl rfl]
    refine ⟨t, h', bs', fl', hr, ⟨I', ?_, ?_, ?_, hlive⟩, hreg, ⟨htm, hkt⟩, ht0, htl,
      hnew, hsize, fun b hb hk => ⟨hmem b hb hk, hkeeps b hb hk⟩, hfits⟩
    · dsimp only; rw [hreg.1]; exact I.base_nonneg
    · dsimp only; rw [hreg.1, hreg.2]; exact I.in_memory
    · refine List.nodup_cons.mpr ⟨fun hp => ?_, I.nodup⟩
      obtain ⟨b, hb, hk, _, _, he⟩ := I.live_block hp
      have : t = b := I'.tiles.eq_of_start htm (hmem b hb hk) (by omega)
      exact hnew (this ▸ hb)

/-- `freeIndex` of the block of a live pointer releases that block. -/
theorem release (I : s.Inv bs fl) (hb : b ∈ bs) (hk : b.kind = .taken) (h0 : b.start ≠ 0)
    (hl : b.start ≠ s.heap.len - 2) (hp : p = s.heap.base + 4 * (b.start + 1)) :
    ∃ h' bs' fl', freeIndex v p b.start s.heap = .ok () h' ∧
      Clients.Inv ⟨h', s.live.erase p⟩ bs' fl' ∧ SameRegion s.heap h' ∧
      (∀ c ∈ bs, c.kind = .taken → c ≠ b → c ∈ bs' ∧ Keeps s.heap h' c) ∧
      ∃ a c d, Merges s.heap h' bs bs' a b c d := by
  obtain ⟨h', bs', fl', hr, hreg, I', hrel, hkeeps, hmerges⟩ :=
    freeIndex_spec (v := v) (p := p) I.heap hb hk h0 hl
  refine ⟨h', bs', fl', hr, ⟨I', ?_, ?_, I.nodup.erase p, fun q => ?_⟩, hreg,
    fun c hc hkc hcb =>
    ⟨(hrel c hkc).mpr ⟨hc, hcb⟩, hkeeps c hc hkc hcb⟩, hmerges⟩
  · dsimp only; rw [hreg.1]; exact I.base_nonneg
  · dsimp only; rw [hreg.1, hreg.2]; exact I.in_memory
  · dsimp only
    rw [I.nodup.mem_erase_iff, I.live_iff, hreg.1, hreg.2]
    constructor
    · rintro ⟨hq, c, hc, hkc, hc0, hcl, rfl⟩
      refine ⟨c, (hrel c hkc).mpr ⟨hc, fun he => hq ?_⟩, hkc, hc0, hcl, rfl⟩
      rw [he, hp]
    · rintro ⟨c, hc, hkc, hc0, hcl, rfl⟩
      obtain ⟨hc, hcb⟩ := (hrel c hkc).mp hc
      refine ⟨fun he => hcb ?_, c, hc, hkc, hc0, hcl, rfl⟩
      exact I.heap.tiles.eq_of_start hc hb (by omega)

/-- What is written inside a payload keeps the invariant. -/
theorem writes (I : s.Inv bs fl) (hb : b ∈ bs) (hk : b.kind = .taken) (W : WritesIn s.heap h' b) :
    Clients.Inv ⟨h', s.live⟩ bs fl := by
  refine ⟨I.heap.writes hb hk W, ?_, ?_, I.nodup, ?_⟩
  · rw [W.region.1]; exact I.base_nonneg
  · rw [W.region.1, W.region.2]; exact I.in_memory
  · rw [W.region.1, W.region.2]; exact I.live_iff

theorem write (I : s.Inv bs fl) (hp : p ∈ s.live) (hi : InPayload s.heap p i) :
    Clients.Inv ⟨{ s.heap with array := Function.update s.heap.array i x }, s.live⟩ bs fl := by
  obtain ⟨b, hb, hk, h0, hl, hpe⟩ := I.live_block hp
  have hin := (inPayload_iff I.heap hb hpe).mp hi
  exact I.writes hb hk (.store hin.1 hin.2)

/-- `malloc` returns a pointer into a new taken block, or there is no room. -/
theorem malloc (I : s.Inv bs fl) (bytes : UInt32) :
    (∃ p h' bs' fl', Kernel.malloc bytes s.heap = .ok p h' ∧
      Clients.Inv ⟨h', if bytes = 0 then s.live else p :: s.live⟩ bs' fl' ∧
      KeepsTaken s.heap h' bs ∧ (∀ b ∈ bs, b.kind = .taken → b ∈ bs') ∧
      SameRegion s.heap h') ∨
    Kernel.malloc bytes s.heap = .error (.panic (.heapIsFull bytes)) s.heap := by
  by_cases hz : bytes = 0
  · refine .inl ⟨s.heap.base, s.heap, bs, fl, ?_, ?_, fun _ _ _ _ _ _ => rfl, fun _ h _ => h,
      rfl, rfl⟩
    · rw [Kernel.malloc, if_pos hz]; rfl
    · rw [if_pos hz]; exact I
  · rcases I.reserve (v := .kernel) (Kernel.four_le_ints bytes) with
      ⟨hr, _⟩ | ⟨t, h', bs', fl', hr, I', hreg, G⟩
    · right
      rw [Kernel.malloc, if_neg hz, bind_ok hr]; rfl
    · refine .inl ⟨s.heap.base + 4 * (t.start + 1), h', bs', fl', ?_, ?_,
        fun b hb hk => (G.kept b hb hk).2, fun b hb hk => (G.kept b hb hk).1, hreg⟩
      · rw [Kernel.malloc_some hz hr, hreg.1]
      · rw [if_neg hz]; exact I'

/-- `free` of a pointer that may be freed returns, and releases the block of a live one. -/
theorem free (I : s.Inv bs fl) (hp : MayFree s p) :
    ∃ h' bs' fl', Kernel.free p s.heap = .ok () h' ∧
    Clients.Inv ⟨h', s.live.erase p⟩ bs' fl' ∧
      (∀ b ∈ bs, b.kind = .taken → p ≠ s.heap.base + 4 * (b.start + 1) →
        b ∈ bs' ∧ Keeps s.heap h' b) ∧ SameRegion s.heap h' := by
  by_cases hlive : p ∈ s.live
  · obtain ⟨b, hb, hk, h0, hl, hpe⟩ := I.live_block hlive
    obtain ⟨h', bs', fl', hr, I', hreg, hkept, -⟩ := I.release (v := .kernel) hb hk h0 hl hpe
    refine ⟨h', bs', fl', ?_, I', fun c hc hkc hcp => hkept c hc hkc ?_, hreg⟩
    · rw [I.free_block hb h0 hl hpe, hr]
    · rintro rfl
      exact hcp hpe
  · refine ⟨s.heap, bs, fl, Kernel.free_idle (hp.idle hlive), ?_,
      fun b hb _ _ => ⟨hb, fun _ _ _ => rfl⟩,
      rfl, rfl⟩
    rw [List.erase_of_not_mem hlive]
    exact I

theorem step (I : s.Inv bs fl) (hstep : Step s c s') : ∃ bs' fl', s'.Inv bs' fl' := by
  cases hstep with
  | @malloc bytes _ p h' hr =>
    rcases I.malloc bytes with ⟨p', h'', bs', fl', hr', I', _⟩ | hr'
    · rw [hr] at hr'; cases hr'; exact ⟨bs', fl', I'⟩
    · rw [hr] at hr'; cases hr'
  | free hp hr =>
    obtain ⟨h'', bs', fl', hr', I', _⟩ := I.free hp
    rw [hr] at hr'; cases hr'; exact ⟨bs', fl', I'⟩
  | store hp hi => exact ⟨bs, fl, I.write hp hi⟩

/-- No call moves the region. -/
theorem region (I : s.Inv bs fl) (hstep : Step s c s') : SameRegion s.heap s'.heap := by
  cases hstep with
  | @malloc bytes _ _ h' hr =>
    rcases I.malloc bytes with ⟨q, h'', bs', fl', hr', -, -, -, hreg⟩ | hr'
    · rw [hr] at hr'; cases hr'; exact hreg
    · rw [hr] at hr'; cases hr'
  | free hq hr =>
    obtain ⟨h'', bs', fl', hr', -, -, hreg⟩ := I.free hq
    rw [hr] at hr'; cases hr'; exact hreg
  | store => exact ⟨rfl, rfl⟩

end Clients.Inv

/-- A region that `Heap::init` is called with: it lies in the address space, and it is large enough
for one block beside the sentinels. -/
structure Region where
  base : Int
  bytes : UInt32
  base_nonneg : 0 ≤ base
  in_memory : base + bytes.toNat ≤ 2 ^ 32
  large : 8 ≤ bytes.toNat / 4

/-- The state before `Heap::init`: the statics are zero, the memory holds anything. -/
def boot (mem : Int → Int) : State := ⟨0, mem, 0, 0⟩

theorem init_spec (rg : Region) (mem : Int → Int) :
    ∃ h bs fl, init rg.base rg.bytes (boot mem) = .ok () h ∧ Clients.Inv ⟨h, []⟩ bs fl := by
  have hlarge := rg.large
  obtain ⟨h, hr, hreg, I⟩ := initBlocks_spec
    (h := { boot mem with base := rg.base, len := rg.bytes.toNat / 4 })
    (by dsimp only; omega) rfl
  refine ⟨h, _, _, ?_, I, ?_, ?_, List.nodup_nil, fun p => ?_⟩
  · exact hr
  · dsimp only; rw [hreg.1]; exact rg.base_nonneg
  · have := rg.in_memory
    dsimp only; rw [hreg.1, hreg.2]; dsimp only; omega
  · dsimp only
    rw [hreg.2]
    constructor
    · intro hp; cases hp
    · rintro ⟨b, hb, hk, h0, hl, _⟩
      simp at hb
      rcases hb with rfl | rfl | rfl
      · exact absurd rfl h0
      · simp at hk
      · exact absurd rfl hl

/-- The states that runs of the heap reach. -/
def Reachable (rg : Region) (mem : Int → Int) (s : Clients) : Prop :=
  ∃ h calls, init rg.base rg.bytes (boot mem) = .ok () h ∧ Run Step ⟨h, []⟩ calls s

theorem Reachable.inv {rg : Region} {mem : Int → Int} (hs : Reachable rg mem s) :
    ∃ bs fl, s.Inv bs fl := by
  obtain ⟨h, calls, hr, hrun⟩ := hs
  obtain ⟨h', bs, fl, hr', I⟩ := init_spec rg mem
  rw [hr] at hr'; cases hr'
  exact hrun.inv (I := fun s => ∃ bs fl, s.Inv bs fl)
    (fun _ _ _ ⟨_, _, I⟩ hstep => I.step hstep) ⟨bs, fl, I⟩

/-- **The representation invariant.** In every reachable state the tags, the tiling and the free
list are in order; `malloc` returns unless the heap is full, and `free` returns. -/
theorem heap_invariant (rg : Region) (mem : Int → Int) :
    (∃ h, init rg.base rg.bytes (boot mem) = .ok () h) ∧
    ∀ s, Reachable rg mem s → (∃ bs fl, Inv s.heap bs fl) ∧
      (∀ bytes, (∃ p h', Kernel.malloc bytes s.heap = .ok p h') ∨
        Kernel.malloc bytes s.heap = .error (.panic (.heapIsFull bytes)) s.heap) ∧
      ∀ p, MayFree s p → ∃ h', Kernel.free p s.heap = .ok () h' := by
  obtain ⟨h, _, _, hr, _⟩ := init_spec rg mem
  refine ⟨⟨h, hr⟩, fun s hs => ?_⟩
  obtain ⟨bs, fl, I⟩ := hs.inv
  refine ⟨⟨bs, fl, I.heap⟩, fun bytes => ?_, fun p hp => ?_⟩
  · rcases I.malloc bytes with ⟨p, h', _, _, hr, _⟩ | hr
    exacts [.inl ⟨p, h', hr⟩, .inr hr]
  · obtain ⟨h', _, _, hr, _⟩ := I.free hp
    exact ⟨h', hr⟩

/-- A region of 16 ints, full of sevens before `Heap::init`. -/
def smallRegion : Region := ⟨0x100000, 64, by decide, by decide, by decide⟩

/-- The state a call leaves behind. -/
def stateAfter (m : HeapM α) (h : State) : State :=
  match m h with
  | .ok _ h' => h'
  | .error _ h' => h'

/-- `smallRegion` after `malloc(5)`. -/
def smallHeap : State :=
  stateAfter (Kernel.malloc 5) (stateAfter (init 0x100000 64) (boot fun _ => 7))

theorem smallHeap_reachable :
    Reachable smallRegion (fun _ => 7) ⟨smallHeap, [0x10000c]⟩ :=
  ⟨_, [.malloc 5], show init 0x100000 64 (boot fun _ => 7) = .ok () _ from rfl,
    .single (.malloc (s := ⟨stateAfter (init 0x100000 64) (boot fun _ => 7), []⟩)
      (show Kernel.malloc 5 _ = .ok 0x10000c smallHeap from rfl))⟩

theorem heap_invariant_smallHeap : ∃ bs fl, Inv smallHeap bs fl :=
  ((heap_invariant smallRegion fun _ => 7).2 _ smallHeap_reachable).1

/-- **Isolation of the clients.** The payloads of live blocks are disjoint and inside the heap, and
neither `malloc` nor `free` changes an int of the payload of a block that stays live. -/
theorem payloads_isolated (rg : Region) (mem : Int → Int) (s : Clients)
    (hs : Reachable rg mem s) :
    (∀ p ∈ s.live, ∀ q ∈ s.live, p ≠ q → ∀ i,
      ¬ (InPayload s.heap p i ∧ InPayload s.heap q i)) ∧
    (∀ p ∈ s.live, ∀ i, InPayload s.heap p i → 0 ≤ i ∧ i < s.heap.len) ∧
    ∀ c s', Step s c s' → (∀ i x, c ≠ .store i x) → ∀ p ∈ s.live, p ∈ s'.live →
    ∀ i, (InPayload s'.heap p i ↔ InPayload s.heap p i) ∧
      (InPayload s.heap p i → s'.heap.array i = s.heap.array i) := by
  obtain ⟨bs, fl, I⟩ := hs.inv
  refine ⟨fun p hp q hq hpq i ⟨h1, h2⟩ => ?_, fun p hp i hi => ?_, ?_⟩
  · obtain ⟨b, hb, hkb, _, _, hpe⟩ := I.live_block hp
    obtain ⟨c, hc, hkc, _, _, hqe⟩ := I.live_block hq
    rw [inPayload_iff I.heap hb hpe] at h1
    rw [inPayload_iff I.heap hc hqe] at h2
    rcases I.heap.tiles.apart hb hc with rfl | h | h
    · exact hpq (hpe.trans hqe.symm)
    · omega
    · omega
  · obtain ⟨b, hb, hkb, _, _, hpe⟩ := I.live_block hp
    rw [inPayload_iff I.heap hb hpe] at hi
    have := I.heap.bounds hb
    omega
  · intro c s' hstep hns p hp hp' i
    obtain ⟨b, hb, hk, h0, hl, hpe⟩ := I.live_block hp
    -- the block of `p` is still there with the same ints
    have hsame : ∃ bs' fl', s'.Inv bs' fl' ∧ b ∈ bs' ∧ Keeps s.heap s'.heap b ∧
        SameRegion s.heap s'.heap := by
      cases hstep with
      | @malloc bytes _ _ h' hr =>
        rcases I.malloc bytes with ⟨q, h'', bs', fl', hr', I', hkeeps, hmem, hreg⟩ | hr'
        · rw [hr] at hr'; cases hr'
          exact ⟨bs', fl', I', hmem b hb hk, hkeeps b hb hk, hreg⟩
        · rw [hr] at hr'; cases hr'
      | @free _ q h' hq hr =>
        obtain ⟨h'', bs', fl', hr', I', hkeeps, hreg⟩ := I.free hq
        rw [hr] at hr'; cases hr'
        have hqp : q ≠ s.heap.base + 4 * (b.start + 1) := by
          rintro rfl
          rw [hpe] at hp'
          exact I.nodup.not_mem_erase hp'
        obtain ⟨hb', hkeep⟩ := hkeeps b hb hk hqp
        exact ⟨bs', fl', I', hb', hkeep, hreg⟩
      | store => exact absurd rfl (hns _ _)
    obtain ⟨bs', fl', I', hb', hkeep, hreg⟩ := hsame
    rw [inPayload_iff I.heap hb hpe, inPayload_iff I'.heap hb' (by rw [hreg.1]; exact hpe)]
    exact ⟨Iff.rfl, fun hi => hkeep i (by omega) (by omega)⟩

/-- A second block behind the one of `smallHeap`. -/
def twoBlocks : State := stateAfter (Kernel.malloc 5) smallHeap

/-- The second block is apart from the first one, and is freed without a change of its payload. -/
theorem payloads_isolated_twoBlocks :
    InPayload twoBlocks 0x10001c 8 ∧ ¬InPayload twoBlocks 0x10000c 8 ∧
    (stateAfter (Kernel.free 0x10001c) twoBlocks).array 4 = twoBlocks.array 4 := by
  obtain ⟨h, calls, hinit, hrun⟩ := smallHeap_reachable
  have hmalloc :
      Step ⟨smallHeap, [0x10000c]⟩ (.malloc 5) ⟨twoBlocks, [0x10001c, 0x10000c]⟩ :=
    .malloc (show Kernel.malloc 5 smallHeap = .ok 0x10001c twoBlocks from rfl)
  have hreach : Reachable smallRegion (fun _ => 7) ⟨twoBlocks, [0x10001c, 0x10000c]⟩ :=
    ⟨h, _, hinit, hrun.snoc hmalloc⟩
  have hsecond : InPayload twoBlocks 0x10001c 8 := ⟨by decide, by decide⟩
  have hfirst : InPayload twoBlocks 0x10000c 4 := ⟨by decide, by decide⟩
  obtain ⟨hapart, -, hsame⟩ := payloads_isolated smallRegion _ _ hreach
  refine ⟨hsecond, fun h => hapart _ (by simp) _ (by simp) (by decide) 8 ⟨hsecond, h⟩, ?_⟩
  have hfree : Step ⟨twoBlocks, [0x10001c, 0x10000c]⟩ (.free 0x10001c)
      ⟨stateAfter (Kernel.free 0x10001c) twoBlocks, [0x10000c]⟩ :=
        .free (.inr (.inr (by simp))) rfl
  exact (hsame _ _ hfree nofun 0x10000c (by simp) (by simp) 4).2 hfirst

end K439.Heap
