import K439.Heap.User

/-!
# Freeing a block twice

`free` merges a block with its available neighbours and leaves the tags inside the merged block as
they were. `Remains` says what these tags look like afterwards, whatever is freed or written to a
payload in between (`Merges.carries`, `WritesIn.carries`). A second `free` of the same pointer reads
only such tags: in the kernel it panics before it writes anything (`double_free_caught`), in the
user library it does nothing exactly when the left neighbour was not available the first time
(`double_free_ignored_iff`).
-/

namespace K439.Heap

/-- `d` is the available block of `bs` that covers the ints from `i` on, `n` of them. -/
structure Covers (bs : List Block) (d : Block) (i n : Int) : Prop where
  mem : d ∈ bs
  free : d.kind = .free
  start : i = d.start ∨ d.start + 4 ≤ i
  size : 4 ≤ n
  stop : i + n ≤ d.start + d.size

/-- The header of the block is still the header of an available block, or was one. -/
structure Opened (h : State) (bs : List Block) (idx n : Int) : Prop where
  covered : ∃ d, Covers bs d idx n
  header : 0 < h.array idx

/-- The block was merged into its left neighbour: its header still says taken, and what follows it
does not fit to that. -/
structure Absorbed (h : State) (bs : List Block) (idx n : Int) : Prop where
  covered : ∃ d, Covers bs d idx n ∧ d.start + 4 ≤ idx ∧ 0 < h.array (idx - 1) ∧
    (idx - h.array (idx - 1) = d.start ∨ d.start + 4 ≤ idx - h.array (idx - 1)) ∧
    (h.array (idx + n - 1) = -n → 4 ≤ h.array (idx + n) ∧
      idx + n + h.array (idx + n) ≤ d.start + d.size ∧
      h.array (idx + n) < h.array (idx + n + h.array (idx + n) - 1))
  header : h.array idx = -n
  leftHeader : 0 < h.array (idx - h.array (idx - 1))
  footer : 0 < h.array (idx + n - 1) ∨ h.array (idx + n - 1) = -n

/-- What is left of a block of `n` ints at `idx` that was freed. -/
def Remains (h : State) (bs : List Block) (idx n : Int) : Prop :=
  Opened h bs idx n ∨ Absorbed h bs idx n

variable {h h' : State} {bs bs' : List Block} {fl fl' : List Int} {a b c d d' y : Block}
  {i j n x idx p : Int}
  {v : Build}

/-! ## What a later call leaves of it -/

/-- What a merge of `b` with its neighbours does to an available block: it is part of an available
block, and its ints, except for the two links, are kept or are one of the two tags of that block. -/
structure Grows (h h' : State) (bs' : List Block) (d d' : Block) : Prop where
  mem : d' ∈ bs'
  free : d'.kind = .free
  start : d'.start = d.start ∨ d'.start + 4 ≤ d.start
  stop : d.start + d.size ≤ d'.start + d'.size
  kept : ∀ j, d.start ≤ j → j < d.start + d.size → j ≠ d.start + 1 →
    j ≠ d.start + 2 →
    h'.array j = h.array j ∨ (j = d'.start ∨ j = d'.start + d'.size - 1) ∧
      h'.array j = d'.size

theorem Covers.grows (C : Covers bs d i n) (G : Grows h h' bs' d d') : Covers bs' d' i n := by
  refine ⟨G.mem, G.free, ?_, C.size, by have := C.stop; have := G.stop; omega⟩
  rcases C.start with h1 | h1
  · rcases G.start with h2 | h2
    · exact .inl (h1.trans h2.symm)
    · exact .inr (by omega)
  · rcases G.start with h2 | h2
    · exact .inr (by omega)
    · exact .inr (by omega)

/-- A positive int that is no link stays positive. -/
theorem Grows.pos (G : Grows h h' bs' d d') (hd : 0 < d.size)
    (h1 : j = d.start ∨ d.start + 3 ≤ j) (h2 : j < d.start + d.size) (hpos : 0 < h.array j) :
    0 < h'.array j := by
  rcases G.kept j (by omega) h2 (by omega) (by omega) with he | ⟨-, he⟩
  · rwa [he]
  · have := G.start
    have := G.stop
    omega

/-- An int inside the block stays. -/
theorem Grows.inner (G : Grows h h' bs' d d') (h1 : d.start + 3 ≤ j)
    (h2 : j + 1 < d.start + d.size) : h'.array j = h.array j := by
  rcases G.kept j (by omega) (by omega) (by omega) (by omega) with he | ⟨hj, -⟩
  · exact he
  · have := G.start
    have := G.stop
    omega

theorem Opened.grows (O : Opened h bs idx n)
    (hgrow : ∀ d ∈ bs, d.kind = .free → 4 ≤ d.size ∧ ∃ d', Grows h h' bs' d d') :
    Opened h' bs' idx n := by
  obtain ⟨d, C⟩ := O.covered
  obtain ⟨hd, d', G⟩ := hgrow d C.mem C.free
  refine ⟨⟨d', C.grows G⟩, G.pos (by omega) ?_ ?_ O.header⟩
  · have := C.start
    omega
  · have := C.stop
    have := C.size
    omega

theorem Absorbed.grows (A : Absorbed h bs idx n)
    (hgrow : ∀ d ∈ bs, d.kind = .free → 4 ≤ d.size ∧ ∃ d', Grows h h' bs' d d') :
    Absorbed h' bs' idx n := by
  obtain ⟨d, C, hin, hleft, hleftStart, hright⟩ := A.covered
  obtain ⟨hd, d', G⟩ := hgrow d C.mem C.free
  have hn := C.size
  have hstop := C.stop
  have hidx : h'.array idx = h.array idx := G.inner (by omega) (by omega)
  have hidx1 : h'.array (idx - 1) = h.array (idx - 1) := G.inner (by omega) (by omega)
  have hfoot : h.array (idx + n - 1) = -n → h'.array (idx + n - 1) = -n := by
    intro hf
    obtain ⟨h4, hle, -⟩ := hright hf
    rw [G.inner (by omega) (by omega), hf]
  have hpos : 0 < h.array (idx + n - 1) → 0 < h'.array (idx + n - 1) :=
    G.pos (by omega) (by omega) (by omega)
  refine ⟨⟨d', C.grows G, ?_, by rwa [hidx1], ?_, fun hf => ?_⟩,
    hidx.trans A.header, ?_, ?_⟩
  · have := G.start
    omega
  · rw [hidx1]
    have := G.start
    omega
  · -- the footer still says taken, so it said so before
    have hf' : h.array (idx + n - 1) = -n := by
      rcases A.footer with hp | hp
      · have := hpos hp
        omega
      · exact hp
    obtain ⟨h4, hle, hlt⟩ := hright hf'
    have hnext : h'.array (idx + n) = h.array (idx + n) := G.inner (by omega) (by omega)
    rw [hnext]
    refine ⟨h4, by have := G.stop; omega, ?_⟩
    rcases G.kept (idx + n + h.array (idx + n) - 1) (by omega) (by omega) (by omega)
      (by omega) with he | ⟨-, he⟩
    · rwa [he]
    · rw [he]
      have := G.start
      have := G.stop
      omega
  · rw [hidx1]
    exact G.pos (by omega) (by omega) (by omega) A.leftHeader
  · rcases A.footer with hp | hp
    · exact .inl (hpos hp)
    · exact .inr (hfoot hp)

/-- The remains of every freed block outlast the call. -/
structure Carries (h h' : State) (bs bs' : List Block) : Prop where
  opened : ∀ idx n, Opened h bs idx n → Opened h' bs' idx n
  absorbed : ∀ idx n, Absorbed h bs idx n → Absorbed h' bs' idx n

theorem Carries.of_grows (hgrow : ∀ d ∈ bs, d.kind = .free → 4 ≤ d.size ∧ ∃ d',
      Grows h h' bs' d d') : Carries h h' bs bs' :=
  ⟨fun _ _ O => O.grows hgrow, fun _ _ A => A.grows hgrow⟩

theorem Carries.refl : Carries h h bs bs := ⟨fun _ _ => id, fun _ _ => id⟩

theorem Carries.trans {h'' : State} {bs'' : List Block} (h1 : Carries h h' bs bs')
    (h2 : Carries h' h'' bs' bs'') : Carries h h'' bs bs'' :=
  ⟨fun i n O => h2.opened i n (h1.opened i n O),
    fun i n A => h2.absorbed i n (h1.absorbed i n A)⟩

theorem Carries.remains (hc : Carries h h' bs bs') (R : Remains h bs idx n) :
    Remains h' bs' idx n :=
  R.imp (hc.opened idx n) (hc.absorbed idx n)

/-- What is no link of an available block and no tag of the merged block is kept. -/
theorem Merges.grows (M : Merges h h' bs bs' a b c d) (I : Inv h bs fl) (I' : Inv h' bs' fl')
    (hb : b ∈ bs) (h4 : 4 ≤ b.size) (hy : y ∈ bs) (hk : y.kind = .free) :
    ∃ d', Grows h h' bs' y d' := by
  obtain ⟨hd, hdk⟩ := M.merged
  have hysize := I.free_size hy hk
  have hlinks (j : Int) (h1 : y.start ≤ j) (h2 : j < y.start + y.size) (h3 : j ≠ y.start + 1)
      (h4 : j ≠ y.start + 2) : ∀ z ∈ bs, z.kind = .free → j ≠ z.start + 1 ∧
        j ≠ z.start + 2 := by
    intro z hz hkz
    have := I.free_size hz hkz
    rcases I.tiles.apart hy hz with rfl | h | h
    · exact ⟨h3, h4⟩
    · omega
    · omega
  have hout : y ∈ bs' → y ≠ d → ∃ d', Grows h h' bs' y d' := by
    intro hy' hne
    refine ⟨y, hy', hk, .inl rfl, Int.le_refl _, fun j h1 h2 h3 h4 => .inl ?_⟩
    have := I'.free_size hd hdk
    rcases I'.tiles.apart hy' hd with h | h | h
    · exact absurd h hne
    · exact M.keeps j (by omega) (by omega) (by omega) (by omega) (hlinks j h1 h2 h3 h4)
    · exact M.keeps j (by omega) (by omega) (by omega) (by omega) (hlinks j h1 h2 h3 h4)
  have hin : d.start ≤ y.start ∧ y.start + y.size ≤ d.start + d.size →
      ∃ d', Grows h h' bs' y d' := by
    rintro ⟨hle, hstop⟩
    -- `d` starts with a whole block of `bs`
    obtain ⟨f, hf, hfs, hf4⟩ : ∃ f ∈ bs, f.start = d.start ∧ 4 ≤ f.size := by
      by_cases hka : a.kind = .free
      · exact ⟨a, M.left.1, by rw [M.start, if_pos hka], I.free_size M.left.1 hka⟩
      · exact ⟨b, hb, by rw [M.start, if_neg hka], h4⟩
    have hstart : d.start = y.start ∨ d.start + 4 ≤ y.start := by
      rcases I.tiles.apart hy hf with rfl | h | h
      · exact .inl hfs.symm
      · omega
      · exact .inr (by omega)
    have htag := I'.tagged d hd (by simp [hdk])
    rw [Block.tag, if_pos hdk] at htag
    refine ⟨d, hd, hdk, hstart, hstop, fun j h1 h2 h3 h4 => ?_⟩
    by_cases hj : j = d.start ∨ j = d.start + d.size - 1
    · refine .inr ⟨hj, ?_⟩
      rcases hj with rfl | rfl
      · exact htag.1
      · exact htag.2
    · rw [not_or] at hj
      exact .inl (M.keeps j hj.1 (by omega) (by omega) hj.2 (hlinks j h1 h2 h3 h4))
  rcases M.others y hy hk with hy' | hcov
  · by_cases hne : y = d
    · exact hin (by rw [hne]; exact ⟨Int.le_refl _, Int.le_refl _⟩)
    · exact hout hy' hne
  · exact hin hcov

theorem Merges.carries (M : Merges h h' bs bs' a b c d) (I : Inv h bs fl) (I' : Inv h' bs' fl')
    (hb : b ∈ bs) (h4 : 4 ≤ b.size) : Carries h h' bs bs' :=
  .of_grows fun _ hy hk => ⟨I.free_size hy hk, M.grows I I' hb h4 hy hk⟩

/-- A write into a taken block leaves it alone. -/
theorem WritesIn.carries (W : WritesIn h h' b) (I : Inv h bs fl) (hb : b ∈ bs)
    (hk : b.kind = .taken) : Carries h h' bs bs := by
  refine .of_grows fun y hy hky => ⟨I.free_size hy hky, y, hy, hky, .inl rfl, Int.le_refl _,
    fun j h3 h4 _ _ => .inl (W.kept j fun hj => ?_)⟩
  rcases I.tiles.apart hb hy with rfl | h | h
  · rw [hk] at hky
    cases hky
  · omega
  · omega

/-! ## What the first `free` leaves -/

/-- With a left neighbour that is not available the merged block starts at the header. -/
theorem Merges.opened (M : Merges h h' bs bs' a b c d) (I : Inv h bs fl) (I' : Inv h' bs' fl')
    (h4 : 4 ≤ b.size) (hk : a.kind ≠ .free) : Opened h' bs' b.start b.size := by
  obtain ⟨hd, hdk⟩ := M.merged
  have htag := I'.tagged d hd (by simp [hdk])
  have hstart : d.start = b.start := by rw [M.start, if_neg hk]
  have hstop := M.stop
  have hc := I.bounds M.right.1
  have hright := M.right.2
  rw [Block.tag, if_pos hdk] at htag
  refine ⟨⟨d, hd, hdk, .inl hstart.symm, h4, ?_⟩, ?_⟩
  · split at hstop <;> omega
  · rw [← hstart, htag.1]
    exact (I'.bounds hd).2.1

/-- With an available one its header stays in place. -/
theorem Merges.absorbed (M : Merges h h' bs bs' a b c d) (I : Inv h bs fl) (I' : Inv h' bs' fl')
    (hb : b ∈ bs) (hkb : b.kind = .taken) (h4 : 4 ≤ b.size) (hk : a.kind = .free) :
    Absorbed h' bs' b.start b.size := by
  obtain ⟨hd, hdk⟩ := M.merged
  have htag := I'.tagged d hd (by simp [hdk])
  have htaga := I.tagged a M.left.1 (by simp [hk])
  have htagb := I.tagged b hb (by simp [hkb])
  rw [Block.tag, if_pos hdk] at htag
  rw [Block.tag, if_pos hk] at htaga
  rw [Block.tag, if_neg (by simp [hkb])] at htagb
  have ha4 := I.free_size M.left.1 hk
  have haend := M.left.2
  have hstart : d.start = a.start := by rw [M.start, if_pos hk]
  have hcstart := M.right.2
  have hcbd := I.bounds M.right.1
  have hstop := M.stop
  -- what lies in `b` is no link of an available block, nor is a tag of `a` or `c`
  have hkeep (j : Int) (h1 : b.start - 1 ≤ j) (h2 : j ≤ b.start + b.size)
      (h3 : j ≠ d.start + d.size - 1) : h'.array j = h.array j := by
    refine M.keeps j (by omega) (by omega) (by omega) h3 fun z hz hkz => ?_
    have hz4 := I.free_size hz hkz
    rcases I.tiles.apart hz hb with rfl | h | h
    · rw [hkb] at hkz
      cases hkz
    · rcases I.tiles.apart hz M.left.1 with rfl | h' | h'
      · omega
      · omega
      · omega
    · omega
  have hstop' : b.start + b.size ≤ d.start + d.size := by split at hstop <;> omega
  have hidx : h'.array b.start = -b.size := by
    rw [hkeep _ (by omega) (by omega) (by omega), htagb.1]
  have hidx1 : h'.array (b.start - 1) = a.size := by
    rw [hkeep _ (by omega) (by omega) (by omega), ← haend, htaga.2]
  have hL : b.start - h'.array (b.start - 1) = d.start := by omega
  have hfoot : h'.array (b.start + b.size - 1) = -b.size → c.kind = .free := by
    intro hf
    by_contra hkc
    rw [if_neg hkc] at hstop
    rw [show b.start + b.size - 1 = d.start + d.size - 1 by omega, htag.2] at hf
    omega
  refine ⟨⟨d, ⟨hd, hdk, .inr (by omega), h4, hstop'⟩, by omega, by omega, .inl hL,
    fun hf => ?_⟩, hidx, ?_, ?_⟩
  · have hkc := hfoot hf
    have hc4 := I.free_size M.right.1 hkc
    have htagc := I.tagged c M.right.1 (by simp [hkc])
    rw [Block.tag, if_pos hkc, hcstart] at htagc
    rw [if_pos hkc] at hstop
    have hnext : h'.array (b.start + b.size) = c.size := by
      rw [hkeep _ (by omega) (by omega) (by omega), htagc.1]
    rw [hnext]
    refine ⟨hc4, by omega, ?_⟩
    rw [show b.start + b.size + c.size - 1 = d.start + d.size - 1 by omega, htag.2]
    omega
  · rw [hL, htag.1]
    exact (I'.bounds hd).2.1
  · by_cases hkc : c.kind = .free
    · rw [if_pos hkc] at hstop
      have hc4 := I.free_size M.right.1 hkc
      exact .inr (by rw [hkeep _ (by omega) (by omega) (by omega), htagb.2])
    · rw [if_neg hkc] at hstop
      refine .inl ?_
      rw [show b.start + b.size - 1 = d.start + d.size - 1 by omega, htag.2]
      exact (I'.bounds hd).2.1

/-! ## What the second `free` finds -/

/-- `sanity` of a header in the region with a footer that is not the same panics in the kernel. -/
theorem sanity_mismatch (h0 : 0 < i) (h1 : i < h.len)
    (hne : 0 ≤ i + abs (h.array i) - 1 → i + abs (h.array i) - 1 < h.len →
      h.array i ≠ h.array (i + abs (h.array i) - 1)) :
    ∃ q, sanity .kernel i h = .error (.panic q) h := by
  rw [sanity, if_neg (by omega), bind_ok (show getLen h = .ok h.len h from rfl), if_neg (by omega),
    bind_ok (footerFromHeader_eq (by omega) h1)]
  by_cases hf : i + abs (h.array i) - 1 < 0 ∨ h.len ≤ i + abs (h.array i) - 1
  · rw [if_pos hf]
    exact ⟨_, rfl⟩
  · rw [if_neg hf, bind_ok (get_eq (by omega) h1), bind_ok (get_eq (by omega) (by omega)),
      if_pos (hne (by omega) (by omega))]
    exact ⟨_, rfl⟩

/-- `sanity` of a header in the region returns it, or panics in the kernel; it writes nothing. -/
theorem sanity_cases (h0 : 0 < i) (h1 : i < h.len) :
    sanity v i h = .ok i h ∨ v = .kernel ∧ ∃ q, sanity v i h = .error (.panic q) h := by
  have hpanic (q : Panic) : (v.complain q >>= fun _ => pure i) h = .ok i h ∨
      v = .kernel ∧ ∃ q', (v.complain q >>= fun _ => pure i) h = .error (.panic q') h := by
    cases v with
    | kernel => exact .inr ⟨rfl, q, rfl⟩
    | user => exact .inl rfl
  rw [sanity, if_neg (by omega), bind_ok (show getLen h = .ok h.len h from rfl), if_neg (by omega),
    bind_ok (footerFromHeader_eq (by omega) h1)]
  by_cases hf : i + abs (h.array i) - 1 < 0 ∨ h.len ≤ i + abs (h.array i) - 1
  · rw [if_pos hf]
    exact hpanic _
  · rw [if_neg hf, bind_ok (get_eq (by omega) h1), bind_ok (get_eq (by omega) (by omega))]
    by_cases hne : h.array i = h.array (i + abs (h.array i) - 1)
    · rw [if_neg (fun hn => hn hne)]
      exact .inl rfl
    · rw [if_pos hne]
      exact hpanic _

theorem bind_error {α β : Type} {m : HeapM α} {f : α → HeapM β} {e : Fault}
    (hm : m h = .error e h') : (m >>= f) h = .error e h' := by
  change EStateM.bind m f h = _
  rw [EStateM.bind, hm]

theorem Covers.inside (C : Covers bs d idx n) (I : Inv h bs fl) :
    2 ≤ idx ∧ idx + n + 2 ≤ h.len := by
  obtain ⟨h0, hl⟩ := I.free_ne_sentinel C.mem C.free
  have hbd := I.bounds C.mem
  have hstart := C.start
  have hstop := C.stop
  rcases I.tiles.apart C.mem I.first with he | he | he
  · exact absurd (congrArg Block.start he) h0
  · dsimp only at he
    omega
  rcases I.tiles.apart C.mem I.last with he' | he' | he'
  · exact absurd (congrArg Block.start he') hl
  · dsimp only at he he'
    omega
  · have := I.bounds I.last
    dsimp only at he'
    omega

/-- In the kernel a second `free` panics before it writes anything. -/
theorem Remains.caught (R : Remains h bs idx n) (I : Inv h bs fl) :
    ∃ q, freeIndex .kernel p idx h = .error (.panic q) h := by
  rcases R with O | A
  · obtain ⟨d, C⟩ := O.covered
    have hin := C.inside I
    have hn := C.size
    rw [freeIndex]
    rcases sanity_cases (v := .kernel) (i := idx) (h := h) (by omega) (by omega) with hs |
      ⟨-, q, hs⟩
    · rw [bind_ok hs, bind_ok (isTaken_eq (by omega) (by omega)),
        decide_eq_false (by have := O.header; omega)]
      exact ⟨_, rfl⟩
    · exact ⟨q, bind_error hs⟩
  · obtain ⟨d, C, hidx, hleft, hleftStart, hright⟩ := A.covered
    have hin := C.inside I
    have hn := C.size
    have hd := I.bounds C.mem
    have hstop := C.stop
    have habs : abs (h.array idx) = n := by
      rw [A.header, abs, if_pos (by omega), Int.neg_neg]
    rw [freeIndex]
    rcases A.footer with hf | hf
    · obtain ⟨q, hs⟩ := sanity_mismatch (h := h) (i := idx) (by omega) (by omega) (by
        rw [habs, A.header]
        omega)
      exact ⟨q, bind_error hs⟩
    · -- header and footer agree: it is the right neighbour that gives the block away
      obtain ⟨h4, hle, hlt⟩ := hright hf
      rcases sanity_cases (v := .kernel) (i := idx) (h := h) (by omega) (by omega) with hs |
        ⟨-, q, hs⟩
      swap
      · exact ⟨q, bind_error hs⟩
      have habs1 : abs (h.array (idx - 1)) = h.array (idx - 1) := if_neg (by omega)
      have habs2 : abs (h.array (idx + n)) = h.array (idx + n) := if_neg (by omega)
      have hheader := A.header
      have hL : 0 < idx - h.array (idx - 1) := by
        have : d.start ≠ 0 := (I.free_ne_sentinel C.mem C.free).1
        omega
      rw [bind_ok hs, bind_ok (isTaken_eq (by omega) (by omega)), decide_eq_true (by omega)]
      simp only [Bool.not_true, Bool.false_eq_true, if_false]
      rw [bind_ok (size_eq (by omega) (by omega)), left]
      have hhf : headerFromFooter (idx - 1) h = .ok (idx - h.array (idx - 1)) h := by
        rw [headerFromFooter_eq (by omega) (by omega), habs1]
        congr 1
        omega
      rcases sanity_cases (v := .kernel) (i := idx - h.array (idx - 1)) (h := h) (by omega)
        (by omega) with
        hs' | ⟨-, q, hs'⟩
      swap
      · exact ⟨q, bind_error ((bind_ok hhf).trans hs')⟩
      rw [bind_ok ((bind_ok hhf).trans hs'), right]
      obtain ⟨q, hs''⟩ := sanity_mismatch (h := h) (i := idx + n) (by omega) (by omega) (by
        rw [habs2]
        omega)
      have hsz : size idx h = .ok n h := by
        rw [size_eq (by omega) (by omega), habs]
      exact ⟨q, bind_error ((bind_ok hsz).trans hs'')⟩

/-! ## The second `free` in the user library -/

theorem bind_inv {α β : Type} {m : HeapM α} {f : α → HeapM β} {r : β}
    (hr : (m >>= f) h = .ok r h') : ∃ x h₁, m h = .ok x h₁ ∧ f x h₁ = .ok r h' := by
  change EStateM.bind m f h = _ at hr
  rw [EStateM.bind] at hr
  cases hm : m h with
  | ok x h₁ =>
    rw [hm] at hr
    exact ⟨x, h₁, rfl, hr⟩
  | error e h₁ =>
    rw [hm] at hr
    cases hr

theorem get_inv {r : Int} (hr : get i h = .ok r h') : r = h.array i ∧ h' = h := by
  rw [get] at hr
  split at hr
  · cases hr
    exact ⟨rfl, rfl⟩
  · cases hr

theorem set_inv {u : Unit} (hr : set i x h = .ok u h') :
    h'.array i = x ∧ (∀ j ≠ i, h'.array j = h.array j) ∧ h'.avail = h.avail := by
  rw [set] at hr
  split at hr
  · cases hr
    exact ⟨Function.update_self _ _ _, fun j hj => Function.update_of_ne hj _ _, rfl⟩
  · cases hr

theorem size_inv {r : Int} (hr : size i h = .ok r h') : r = abs (h.array i) ∧ h' = h := by
  obtain ⟨y, h₁, hg, hr⟩ := bind_inv hr
  obtain ⟨rfl, rfl⟩ := get_inv hg
  cases hr
  exact ⟨rfl, rfl⟩

theorem abs_nonneg (x : Int) : 0 ≤ abs x := by
  unfold abs
  split <;> omega

/-- Where `makeAvail` leaves its header and the link behind it. -/
theorem makeAvail_inv {u : Unit} (hr : makeAvail i n h = .ok u h') :
    h'.avail = i ∧
    (h'.array i = n ∨ h.avail ≠ 0 ∧ h.avail + 2 = i ∧ h'.array (i + 1) = h.avail) := by
  obtain ⟨_, h₁, hs₁, hr⟩ := bind_inv hr
  obtain ⟨foot, h₂, hs₂, hr⟩ := bind_inv hr
  obtain ⟨_, h₃, hs₃, hr⟩ := bind_inv hr
  obtain ⟨y, h₄, hs₄, hr⟩ := bind_inv hr
  obtain ⟨_, h₅, hs₅, hr⟩ := bind_inv hr
  obtain ⟨_, h₆, hs₆, hr⟩ := bind_inv hr
  obtain ⟨z, h₇, hs₇, hr⟩ := bind_inv hr
  obtain ⟨k, h₈, hs₈, hfoot⟩ := bind_inv hs₂
  obtain ⟨hset₁, -, ha₁⟩ := set_inv hs₁
  have e₈ : h₂ = h₁ := by
    cases hfoot
    exact (size_inv hs₈).2
  obtain ⟨hset₃, hkeep₃, ha₃⟩ := set_inv hs₃
  have e₄ : y = h₃.avail ∧ h₄ = h₃ := by
    cases hs₄
    exact ⟨rfl, rfl⟩
  obtain ⟨hset₅, hkeep₅, ha₅⟩ := set_inv hs₅
  obtain ⟨-, hkeep₆, ha₆⟩ := set_inv hs₆
  have e₇ : z = h₆.avail ∧ h₇ = h₆ := by
    cases hs₇
    exact ⟨rfl, rfl⟩
  have havail : h₃.avail = h.avail := by rw [ha₃, e₈, ha₁]
  have havail₆ : h₆.avail = h.avail := by rw [ha₆, ha₅, e₄.2, havail]
  have hheader₃ : h₃.array i = n := by
    by_cases hf : i = foot
    · rw [hf, hset₃]
    · rw [hkeep₃ i hf, e₈, hset₁]
  have hheader : h₆.array i = n := by
    rw [hkeep₆ i (by omega), hkeep₅ i (by omega), e₄.2, hheader₃]
  have hlink : h₆.array (i + 1) = h.avail := by
    rw [hkeep₆ (i + 1) (by omega), hset₅, e₄.1, havail]
  rw [e₇.1, e₇.2] at hr
  dsimp only at hr
  split at hr
  · rename_i hne
    obtain ⟨_, h₉, hs₉, hr⟩ := bind_inv hr
    obtain ⟨-, hkeep₉, -⟩ := set_inv hs₉
    cases hr
    refine ⟨rfl, ?_⟩
    dsimp only
    rw [havail₆] at hne hkeep₉
    by_cases he : i = h.avail + 2
    · refine .inr ⟨hne, he.symm, ?_⟩
      rw [hkeep₉ (i + 1) (by omega), hlink]
    · exact .inl (by rw [hkeep₉ i he, hheader])
  · cases hr
    exact ⟨rfl, .inl hheader⟩

/-- The size of what is freed grows over an available right neighbour. -/
theorem absorbRight_inv {r : Int} (hr : absorbRight v i n h = .ok r h') : n ≤ r := by
  obtain ⟨y, h₁, -, hr⟩ := bind_inv hr
  split at hr
  · obtain ⟨_, h₂, -, hr⟩ := bind_inv hr
    obtain ⟨k, h₃, hk, hr⟩ := bind_inv hr
    have := abs_nonneg (h₂.array i)
    obtain ⟨rfl, -⟩ := size_inv hk
    cases hr
    omega
  · cases hr
    exact Int.le_refl n

theorem sanity_user (h0 : 0 < i) (h1 : i < h.len) : sanity .user i h = .ok i h :=
  (sanity_cases h0 h1).resolve_right fun hk => by cases hk.1

/-- A header that says available makes the second `free` do nothing. -/
theorem Opened.ignored (O : Opened h bs idx n) (I : Inv h bs fl) :
    freeIndex .user p idx h = .ok () h := by
  obtain ⟨d, C⟩ := O.covered
  have hin := C.inside I
  have hn := C.size
  rw [freeIndex, bind_ok (sanity_user (by omega) (by omega)),
    bind_ok (isTaken_eq (by omega) (by omega)), decide_eq_false (by have := O.header; omega)]
  rfl

/-- A header that still says taken makes it free a part of an available block. -/
theorem Absorbed.not_ignored (A : Absorbed h bs idx n) (I : Inv h bs fl) :
    freeIndex .user p idx h ≠ .ok () h := by
  intro hr
  obtain ⟨d, C, hidx, hleft, hleftStart, -⟩ := A.covered
  have hin := C.inside I
  have hn := C.size
  have hd := I.bounds C.mem
  have hstop := C.stop
  have hheader := A.header
  have hd0 : d.start ≠ 0 := (I.free_ne_sentinel C.mem C.free).1
  have habs : abs (h.array idx) = n := by
    rw [hheader, abs, if_pos (by omega), Int.neg_neg]
  have habs1 : abs (h.array (idx - 1)) = h.array (idx - 1) := if_neg (by omega)
  have hhf : headerFromFooter (idx - 1) h = .ok (idx - h.array (idx - 1)) h := by
    rw [headerFromFooter_eq (by omega) (by omega), habs1]
    congr 1
    omega
  have hsz : size idx h = .ok n h := by
    rw [size_eq (by omega) (by omega), habs]
  generalize hL : idx - h.array (idx - 1) = L at *
  have hLpos := A.leftHeader
  rw [hL] at hLpos
  have hlrun : left .user idx h = .ok L h := (bind_ok hhf).trans (sanity_user (by omega) (by omega))
  have hrrun : right .user idx h = .ok (idx + n) h :=
    (bind_ok hsz).trans (sanity_user (by omega) (by omega))
  rw [freeIndex, bind_ok (sanity_user (by omega) (by omega)),
    bind_ok (isTaken_eq (by omega) (by omega)), decide_eq_true (by omega)] at hr
  simp only [Bool.not_true, Bool.false_eq_true, if_false] at hr
  rw [bind_ok hsz, bind_ok hlrun, bind_ok hrrun] at hr
  obtain ⟨⟨i', n'⟩, h₁, habsorb, hr⟩ := bind_inv hr
  obtain ⟨n₂, h₂, hright, hmake⟩ := bind_inv hr
  rw [absorbLeft, bind_ok (isAvail_eq (by omega) (by omega)), decide_eq_true hLpos,
    if_pos rfl] at habsorb
  obtain ⟨_, g, hremove, habsorb⟩ := bind_inv habsorb
  obtain ⟨k, g', hk, habsorb⟩ := bind_inv habsorb
  have hi' : i' = L ∧ n' = n + k := by
    cases habsorb
    exact ⟨rfl, rfl⟩
  obtain ⟨rfl, rfl⟩ := hi'
  dsimp only at hright hmake
  have hle := absorbRight_inv hright
  obtain ⟨havail, hends⟩ := makeAvail_inv hmake
  -- the merged block is the head of the list, so it is the block around `idx`
  obtain ⟨rest, rfl⟩ := I.links.linked.head_mem (by omega)
  rw [havail] at I
  obtain ⟨x, hx, hxs, hxk, -⟩ := I.listed i' List.mem_cons_self
  have hxbd := I.bounds hx
  have hxd : x = d := by
    rcases I.tiles.apart hx C.mem with he | he | he
    · exact he
    · omega
    · omega
  subst hxd
  rw [← hxs] at hremove hends hk
  obtain ⟨h₃, -, hr₃, hs₃, -⟩ :=
    absorb (v := .user) I.toLayout hx hxk (I.free_listed x hx hxk)
  rw [hr₃] at hremove
  cases hremove
  rw [hs₃] at hk
  cases hk
  have htag := (I.tagged x hx (by simp [hxk])).1
  rw [Block.tag, if_pos hxk] at htag
  rcases hends with he | ⟨hne, he, hlink⟩
  · omega
  -- the link behind the header would lead two ints to the left
  · have hlinks :
        DLinked (fun i => h.array (i + 1)) (fun i => h.array (i + 2)) 0 0 i' ([] ++ i' :: rest) :=
      havail ▸ I.links
    have hnext : h.array (i' + 1) = rest.headD 0 := hlinks.next_eq
    rw [← hxs, hlink] at hnext
    cases rest with
    | nil => exact hne hnext
    | cons y rest =>
      have hy : y = h₂.avail := hnext.symm
      rcases I.far (i := i') (n := y) List.mem_cons_self (by simp) with hf | hf | hf
      · omega
      · omega
      · omega

/-! ## Runs -/

variable {s s₁ s₂ : Clients} {call : Call} {calls : List Call}

theorem Clients.Inv.quiet (I : s.Inv bs fl) (hstep : Step s call s₁)
    (hcall : ∀ bytes, call ≠ .malloc bytes) :
    ∃ bs' fl', s₁.Inv bs' fl' ∧ Carries s.heap s₁.heap bs bs' := by
  cases hstep with
  | malloc => exact absurd rfl (hcall _)
  | @free _ q h' hq hr =>
    by_cases hlive : q ∈ s.live
    · obtain ⟨b, hb, hk, h0, hl, hqe⟩ := I.live_block hlive
      obtain ⟨h'', bs', fl', hr', I', -, -, a, c, d, M⟩ :=
        I.release (v := .kernel) hb hk h0 hl hqe
      rw [I.free_block hb h0 hl hqe, hr'] at hr
      cases hr
      exact ⟨bs', fl', I', M.carries I.heap I'.heap hb (I.heap.sizes b hb h0 hl)⟩
    · rw [Kernel.free_idle (hq.idle hlive)] at hr
      cases hr
      rw [List.erase_of_not_mem hlive]
      exact ⟨bs, fl, I, .refl⟩
  | @store q _ i x hq hi =>
    obtain ⟨b, hb, hk, h0, hl, hqe⟩ := I.live_block hq
    have hin := (inPayload_iff I.heap hb hqe).mp hi
    exact ⟨bs, fl, I.write hq hi, WritesIn.carries (.store hin.1 hin.2) I.heap hb hk⟩

theorem Clients.Inv.quiet_run (I : s.Inv bs fl) (hrun : Run Step s calls s₁)
    (hcalls : ∀ bytes, .malloc bytes ∉ calls) :
    ∃ bs' fl', s₁.Inv bs' fl' ∧ SameRegion s.heap s₁.heap ∧
    Carries s.heap s₁.heap bs bs' := by
  induction hrun with
  | nil => exact ⟨bs, fl, I, ⟨rfl, rfl⟩, .refl⟩
  | snoc _ hstep ih =>
    obtain ⟨bs', fl', I', hreg, hcar⟩ :=
      ih fun bytes hm => hcalls bytes (List.mem_append_left _ hm)
    obtain ⟨bs'', fl'', I'', hcar'⟩ := I'.quiet hstep fun bytes hm =>
      hcalls bytes (List.mem_append_right _ (hm ▸ List.mem_singleton_self _))
    exact ⟨bs'', fl'', I'', hreg.trans (I'.region hstep), hcar.trans hcar'⟩

/-- The first `free` of a live pointer leaves its remains. -/
theorem Clients.Inv.leaves (I : s.Inv bs fl) (hb : b ∈ bs) (hk : b.kind = .taken)
    (h0 : b.start ≠ 0) (hl : b.start ≠ s.heap.len - 2) (M : Merges s.heap h' bs bs' a b c d)
    (I' : Heap.Inv h' bs' fl') : Remains h' bs' b.start b.size := by
  have h4 := I.heap.sizes b hb h0 hl
  by_cases hka : a.kind = .free
  · exact .inr (M.absorbed I.heap I' hb hk h4 hka)
  · exact .inl (M.opened I.heap I' h4 hka)

/-- **Double frees are caught.** Once a live pointer is freed, whatever else is freed or written to
live blocks after that, a second `free` of it panics and changes nothing. -/
theorem double_free_caught (rg : Region) (mem : Int → Int) (s s₁ s₂ : Clients)
    (hs : Reachable rg mem s) (p : Int) (hp : p ∈ s.live) (hfree : Step s (.free p) s₁)
    (calls : List Call) (hrun : Run Step s₁ calls s₂)
    (hcalls : ∀ bytes, .malloc bytes ∉ calls) :
    ∃ q, Kernel.free p s₂.heap = .error (.panic q) s₂.heap := by
  obtain ⟨bs, fl, I⟩ := hs.inv
  obtain ⟨b, hb, hk, h0, hl, hpe⟩ := I.live_block hp
  obtain ⟨h', bs', fl', hr, I', hreg, -, a, c, d, M⟩ := I.release (v := .kernel) hb hk h0 hl hpe
  have hs₁ : s₁ = ⟨h', s.live.erase p⟩ := by
    cases hfree with
    | free _ hr' =>
      rw [I.free_block hb h0 hl hpe, hr] at hr'
      cases hr'
      rfl
  subst hs₁
  obtain ⟨bs₂, fl₂, I₂, hreg₂, hcar⟩ := I'.quiet_run hrun hcalls
  obtain ⟨q, hq⟩ := (hcar.remains (I.leaves hb hk h0 hl M I'.heap)).caught (p := p) I₂.heap
  refine ⟨q, ?_⟩
  rw [← hq]
  obtain ⟨hbase, hlen⟩ := hreg.trans hreg₂
  have hbd := I.heap.bounds hb
  have hsize := I.heap.sizes b hb h0 hl
  refine Kernel.free_header I₂.base_nonneg I₂.in_memory hbd.1 ?_ ?_
  · rw [hlen]
    omega
  · rw [hbase]
    exact hpe

theorem double_free_caught_smallHeap :
    ∃ q, Kernel.free 0x10000c (stateAfter (Kernel.free 0x10000c) smallHeap) =
      .error (.panic q) (stateAfter (Kernel.free 0x10000c) smallHeap) :=
  double_free_caught smallRegion _ _ ⟨stateAfter (Kernel.free 0x10000c) smallHeap,
    []⟩ _ smallHeap_reachable
    0x10000c (by simp) (.free (s := ⟨smallHeap, [0x10000c]⟩) (.inr (.inr (by simp))) rfl)
      [] .nil (by simp)

/-! ## Runs of the user heap -/

namespace User

/-- The calls after which a freed block is still free. -/
def Call.Quiet : Call → Prop
  | .malloc _ => False
  | .free _ => True
  | .realloc _ _ => False
  | .store _ _ => True

variable {s s₁ : Clients} {call : Call} {calls : List Call}

theorem Sound.quiet (S : Sound s bs fl) (hstep : Step s call s₁) (hcall : call.Quiet) :
    ∃ bs' fl', Sound s₁ bs' fl' ∧ SameRegion s.heap s₁.heap ∧
      Carries s.heap s₁.heap bs bs' := by
  cases hstep with
  | malloc => exact hcall.elim
  | @free _ q h' hq hr =>
    by_cases hlive : q ∈ s.live
    · obtain ⟨b, hb, hk, h0, hl, hqe⟩ := S.live_block hlive
      obtain ⟨h'', bs', fl', hr', S', hreg, -, a, c, d, M⟩ := S.free hb hk h0 hl hqe
      rw [hr'] at hr
      cases hr
      exact ⟨bs', fl', S', hreg, M.carries S.heap S'.heap hb (S.heap.sizes b hb h0 hl)⟩
    · rw [free_idle (hq.idle hlive)] at hr
      cases hr
      rw [List.erase_of_not_mem hlive]
      exact ⟨bs, fl, S, ⟨rfl, rfl⟩, .refl⟩
  | realloc => exact hcall.elim
  | @store q _ i x hq hi =>
    obtain ⟨b, hb, hk, h0, hl, hqe⟩ := S.live_block hq
    have hin := (inPayload_iff S.heap hb hqe).mp hi
    exact ⟨bs, fl, S.of_region (S.write hq hi) ⟨rfl, rfl⟩, ⟨rfl, rfl⟩,
      WritesIn.carries (.store hin.1 hin.2) S.heap hb hk⟩

theorem Sound.quiet_run (S : Sound s bs fl) (hrun : Run Step s calls s₁)
    (hcalls : ∀ c ∈ calls, c.Quiet) :
    ∃ bs' fl', Sound s₁ bs' fl' ∧ SameRegion s.heap s₁.heap ∧
      Carries s.heap s₁.heap bs bs' := by
  induction hrun with
  | nil => exact ⟨bs, fl, S, ⟨rfl, rfl⟩, .refl⟩
  | snoc _ hstep ih =>
    obtain ⟨bs', fl', S', hreg, hcar⟩ := ih fun c hc => hcalls c (List.mem_append_left _ hc)
    obtain ⟨bs'', fl'', S'', hreg', hcar'⟩ :=
      S'.quiet hstep (hcalls _ (List.mem_append_right _ (by simp)))
    exact ⟨bs'', fl'', S'', hreg.trans hreg', hcar.trans hcar'⟩

/-- **When a double free is ignored.** A second `free` of the same pointer changes nothing exactly
when the left neighbour of the block was not available at the first one. -/
theorem double_free_ignored_iff (pl : Place) (s s₁ s₂ : Clients) (hs : Reachable pl s) (p : Int)
    (hp : MayFree s p) (hfree : Step s (.free p) s₁) (calls : List Call)
    (hrun : Run Step s₁ calls s₂) (hcalls : ∀ c ∈ calls, c.Quiet) :
    free p s₂.heap = .ok () s₂.heap ↔
    ¬(p ∈ s.live ∧ 0 < s.heap.array (header s.heap p - 1)) := by
  obtain ⟨bs, fl, S⟩ := hs.sound
  cases hfree with
  | @free _ _ h' _ hr =>
  by_cases hlive : p ∈ s.live
  swap
  · rw [free_idle (hp.idle hlive)] at hr
    cases hr
    rw [List.erase_of_not_mem hlive] at hrun
    obtain ⟨-, -, -, hreg, -⟩ := S.quiet_run hrun hcalls
    have hidle := hp.idle hlive
    rw [← hreg.1] at hidle
    exact iff_of_true (free_idle hidle) fun hboth => hlive hboth.1
  obtain ⟨b, hb, hk, h0, hl, hpe⟩ := S.live_block hlive
  obtain ⟨h'', bs', fl', hr', S', hreg, -, a, c, d, M⟩ := S.free hb hk h0 hl hpe
  rw [hr'] at hr
  cases hr
  obtain ⟨bs₂, fl₂, S₂, hreg₂, hcar⟩ := S'.quiet_run hrun hcalls
  have h4 := S.heap.sizes b hb h0 hl
  have hbd := S.heap.bounds hb
  have hrunfree : free p s₂.heap = freeIndex .user p b.start s₂.heap := by
    obtain ⟨hbase, hlen⟩ := hreg.trans hreg₂
    exact free_header S₂.len S₂.base_nonneg hbd.1 (by omega) (by rw [hbase]; exact hpe)
  have hfoot : s.heap.array (header s.heap p - 1) = a.tag := by
    rw [header_block hpe, ← M.left.2]
    exact (S.heap.tagged a M.left.1 (S.heap.built a M.left.1)).2
  have hasize := (S.heap.bounds M.left.1).2.1
  rw [hrunfree, hfoot]
  by_cases hka : a.kind = .free
  · refine iff_of_false ?_ fun hno => hno ⟨hlive, ?_⟩
    · exact (hcar.absorbed _ _ (M.absorbed S.heap S'.heap hb hk h4 hka)).not_ignored S₂.heap
    · rw [Block.tag, if_pos hka]
      exact hasize
  · refine iff_of_true ?_ fun hboth => ?_
    · exact (hcar.opened _ _ (M.opened S.heap S'.heap h4 hka)).ignored S₂.heap
    · have htag := hboth.2
      rw [Block.tag, if_neg hka] at htag
      omega

theorem double_free_ignored_oneBlock :
    free 0x100c (stateAfter (free 0x100c) oneBlockHeap) =
    .ok () (stateAfter (free 0x100c) oneBlockHeap) :=
  (double_free_ignored_iff lowPlace _ ⟨stateAfter (free 0x100c) oneBlockHeap, []⟩ _
    oneBlockHeap_reachable 0x100c
    (.inr (.inr (by simp))) (.free (s := ⟨oneBlockHeap, [0x100c]⟩) (.inr (.inr (by simp)))
      (run_of_returns (by decide +kernel)))
        [] .nil (by simp)).mpr fun hboth => absurd hboth.2 (by decide +kernel)

/-- Two blocks, the first of which is freed. -/
def gapHeap : State := stateAfter (free 0x100c) (stateAfter (malloc 5) oneBlockHeap)

theorem gapHeap_reachable : Reachable lowPlace ⟨gapHeap, [0x101c]⟩ := by
  obtain ⟨h, calls, hinit, hrun⟩ := oneBlockHeap_reachable
  have hmalloc : Step ⟨oneBlockHeap, [0x100c]⟩ (.malloc 5)
      ⟨stateAfter (malloc 5) oneBlockHeap, [0x101c, 0x100c]⟩ :=
    .malloc (p := 0x101c) (run_of_returns (by decide +kernel))
  have hfree : Step ⟨stateAfter (malloc 5) oneBlockHeap, [0x101c, 0x100c]⟩ (.free 0x100c)
      ⟨gapHeap, [0x101c]⟩ :=
    .free (.inr (.inr (by simp))) (run_of_returns (by decide +kernel))
  exact ⟨h, _, hinit, .snoc (.snoc hrun hmalloc) hfree⟩

/-- The second block is freed twice: its header still says taken. -/
theorem double_free_corrupts : ¬∀ (pl : Place) (s s₁ s₂ : Clients), Reachable pl s →
    ∀ p, MayFree s p →
    Step s (.free p) s₁ → ∀ calls, Run Step s₁ calls s₂ → (∀ c ∈ calls, c.Quiet) →
    free p s₂.heap = .ok () s₂.heap := by
  intro hall
  have hsame :=
    hall lowPlace _ _ ⟨stateAfter (free 0x101c) gapHeap, []⟩ gapHeap_reachable 0x101c
    (.inr (.inr (by simp))) (.free (s := ⟨gapHeap, [0x101c]⟩) (.inr (.inr (by simp)))
      (run_of_returns (by decide +kernel))) [] .nil (by simp)
  have hheader : (stateAfter (free 0x101c) (stateAfter (free 0x101c) gapHeap)).array 2 =
      (stateAfter (free 0x101c) gapHeap).array 2 := by
    unfold stateAfter at hsame ⊢
    rw [hsame]
  exact absurd hheader (by decide +kernel)

end User

end K439.Heap
