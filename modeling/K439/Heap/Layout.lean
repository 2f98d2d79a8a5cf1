import K439.Heap.Basic
import K439.Lib.Linked
import K439.Lib.Tiling

/-!
# The layout of the heap array

A layout lists the blocks of the array and the free list. `Layout` holds between the steps of one
call: a block that is being rebuilt is `raw`, its tags are not looked at. Each operation of
`heap.cc` that writes has one lemma here, which says what it does to the layout; `malloc` and
`free` are then sequences of these.
-/

namespace K439.Heap

inductive Kind
  | taken
  | free
  /-- Being rebuilt: header and footer hold anything. -/
  | raw
  deriving DecidableEq

structure Block where
  start : Int
  size : Int
  kind : Kind

/-- The value in the header and the footer. -/
def Block.tag (b : Block) : Int := if b.kind = .free then b.size else -b.size

def Tagged (h : State) (b : Block) : Prop :=
  b.kind ≠ .raw → h.array b.start = b.tag ∧ h.array (b.start + b.size - 1) = b.tag

/-- The blocks tile the array, with their tags in place, and `fl` is the doubly linked list from
`avail`; its elements are available blocks. -/
structure Layout (h : State) (bs : List Block) (fl : List Int) : Prop where
  tiles : Tiles Block.start Block.size 0 h.len bs
  tagged : ∀ b ∈ bs, Tagged h b
  links : DLinked (fun i => h.array (i + 1)) (fun i => h.array (i + 2)) 0 0 h.avail fl
  listed : ∀ i ∈ fl, ∃ b ∈ bs, b.start = i ∧ b.kind = .free ∧ 4 ≤ b.size

/-- No int of the block differs. -/
def Keeps (h h' : State) (b : Block) : Prop :=
  ∀ j, b.start ≤ j → j < b.start + b.size → h'.array j = h.array j

theorem Keeps.trans (h1 : Keeps h h' b) (h2 : Keeps h' h'' b) : Keeps h h'' b :=
  fun j hl hr => (h2 j hl hr).trans (h1 j hl hr)

/-- No int differs but for links of the elements of `fl`. -/
def KeepsBut (h h' : State) (fl : List Int) : Prop :=
  ∀ j, (∀ z ∈ fl, j ≠ z + 1 ∧ j ≠ z + 2) → h'.array j = h.array j

/-- The region itself does not move. -/
def SameRegion (h h' : State) : Prop := h'.base = h.base ∧ h'.len = h.len

theorem SameRegion.trans (h1 : SameRegion h h') (h2 : SameRegion h' h'') : SameRegion h h'' :=
  ⟨h2.1.trans h1.1, h2.2.trans h1.2⟩

/-! ## Running the operations -/

variable {h h' : State} {v : Build} {bs l r : List Block} {fl l₁ l₂ : List Int} {b c : Block}
  {i n p x : Int}

@[simp] theorem pure_run (a : α) : (pure a : HeapM α) h = .ok a h := rfl

theorem bind_ok {m : HeapM α} {f : α → HeapM β} {a : α} (hm : m h = .ok a h') :
    (m >>= f) h = f a h' := by
  change EStateM.bind m f h = _
  rw [EStateM.bind, hm]

theorem get_eq (h0 : 0 ≤ i) (h1 : i < h.len) : get i h = .ok (h.array i) h := if_pos ⟨h0, h1⟩

theorem set_eq (h0 : 0 ≤ i) (h1 : i < h.len) :
    set i x h = .ok () { h with array := Function.update h.array i x } := if_pos ⟨h0, h1⟩

theorem size_eq (h0 : 0 ≤ i) (h1 : i < h.len) : size i h = .ok (abs (h.array i)) h := by
  rw [size, bind_ok (get_eq h0 h1)]; rfl

theorem footerFromHeader_eq (h0 : 0 ≤ i) (h1 : i < h.len) :
    footerFromHeader i h = .ok (i + abs (h.array i) - 1) h := by
  rw [footerFromHeader, bind_ok (size_eq h0 h1)]; rfl

theorem headerFromFooter_eq (h0 : 0 ≤ i) (h1 : i < h.len) :
    headerFromFooter i h = .ok (i - abs (h.array i) + 1) h := by
  rw [headerFromFooter, bind_ok (size_eq h0 h1)]; rfl

theorem isAvail_eq (h0 : 0 ≤ i) (h1 : i < h.len) :
    isAvail i h = .ok (decide (0 < h.array i)) h := by
  rw [isAvail, bind_ok (get_eq h0 h1)]; rfl

theorem isTaken_eq (h0 : 0 ≤ i) (h1 : i < h.len) :
    isTaken i h = .ok (decide (h.array i < 0)) h := by
  rw [isTaken, bind_ok (get_eq h0 h1)]; rfl

theorem Block.abs_tag (hb : 0 < b.size) : abs b.tag = b.size := by
  unfold Block.tag abs; split <;> split <;> omega

namespace Layout

theorem bounds (L : Layout h bs fl) (hb : b ∈ bs) :
    0 ≤ b.start ∧ 0 < b.size ∧ b.start + b.size ≤ h.len := L.tiles.bounds hb

theorem size_block (L : Layout h bs fl) (hb : b ∈ bs) (hk : b.kind ≠ .raw) :
    size b.start h = .ok b.size h := by
  have hbd := L.bounds hb
  rw [size_eq hbd.1 (by omega), (L.tagged b hb hk).1, Block.abs_tag hbd.2.1]

theorem sanity_block (L : Layout h bs fl) (hb : b ∈ bs) (hk : b.kind ≠ .raw) :
    sanity v b.start h = .ok b.start h := by
  have hbd := L.bounds hb
  have htag := L.tagged b hb hk
  unfold sanity
  by_cases h0 : b.start = 0
  · rw [if_pos h0, h0]; rfl
  have hfoot : footerFromHeader b.start h = .ok (b.start + b.size - 1) h := by
    rw [footerFromHeader_eq hbd.1 (by omega), htag.1, Block.abs_tag hbd.2.1]
  rw [if_neg h0, bind_ok (show getLen h = .ok h.len h from rfl), if_neg (by omega),
    bind_ok hfoot, if_neg (by omega), bind_ok (get_eq hbd.1 (by omega)),
    bind_ok (get_eq (i := b.start + b.size - 1) (by omega) (by omega)), htag.1, htag.2]
  simp

theorem isAvail_block (L : Layout h bs fl) (hb : b ∈ bs) (hk : b.kind ≠ .raw) :
    isAvail b.start h = .ok (decide (b.kind = .free)) h := by
  have hbd := L.bounds hb
  rw [isAvail_eq hbd.1 (by omega), (L.tagged b hb hk).1]
  unfold Block.tag; split
  · simp [*]
  · simp [*]; omega

theorem isTaken_block (L : Layout h bs fl) (hb : b ∈ bs) (hk : b.kind ≠ .raw) :
    isTaken b.start h = .ok (decide (b.kind = .taken)) h := by
  have hbd := L.bounds hb
  rw [isTaken_eq hbd.1 (by omega), (L.tagged b hb hk).1]
  unfold Block.tag
  cases hkind : b.kind
  · simp; omega
  · simp; omega
  · exact absurd hkind hk

/-- `right` of a block finds the block that starts where it ends. -/
theorem right_block (L : Layout h bs fl) (hb : b ∈ bs) (hk : b.kind ≠ .raw) (hc : c ∈ bs)
    (hkc : c.kind ≠ .raw) (he : c.start = b.start + b.size) :
    right v b.start h = .ok c.start h := by
  rw [right, bind_ok (L.size_block hb hk), ← he, L.sanity_block hc hkc]

/-- `left` of a block finds the block that ends where it starts, by its footer. -/
theorem left_block (L : Layout h bs fl) (hb : b ∈ bs) (hc : c ∈ bs) (hkc : c.kind ≠ .raw)
    (he : c.start + c.size = b.start) : left v b.start h = .ok c.start h := by
  have hbd := L.bounds hb
  have hcd := L.bounds hc
  have hfoot : h.array (b.start - 1) = c.tag := by rw [← he]; exact (L.tagged c hc hkc).2
  rw [left, bind_ok (headerFromFooter_eq (by omega) (by omega)), hfoot, Block.abs_tag hcd.2.1,
    show b.start - 1 - c.size + 1 = c.start by omega, L.sanity_block hc hkc]

/-- The link read from a listed block is sane: it is 0 or a listed block. -/
theorem sanity_listed (L : Layout h bs fl) (hi : i = 0 ∨ i ∈ fl) : sanity v i h = .ok i h := by
  rcases hi with rfl | hi
  · rfl
  · obtain ⟨b, hb, rfl, hk, _⟩ := L.listed i hi
    exact L.sanity_block hb (by simp [hk])

theorem prev_listed (L : Layout h bs (l₁ ++ i :: l₂)) :
    prev v i h = .ok (l₁.getLastD 0) h := by
  obtain ⟨b, hb, rfl, hk, hs⟩ := L.listed i (by simp)
  have hbd := L.bounds hb
  rw [prev, bind_ok (get_eq (by omega) (by omega)), L.links.prev_eq, L.sanity_listed]
  rcases List.eq_nil_or_concat l₁ with rfl | ⟨l, x, rfl⟩
  · exact .inl rfl
  · right; simp

theorem next_listed (L : Layout h bs (l₁ ++ i :: l₂)) : next v i h = .ok (l₂.headD 0) h := by
  obtain ⟨b, hb, rfl, hk, hs⟩ := L.listed i (by simp)
  have hbd := L.bounds hb
  rw [next, bind_ok (get_eq (by omega) (by omega)), L.links.next_eq, L.sanity_listed]
  cases l₂ with
  | nil => exact .inl rfl
  | cons x l => right; simp

/-! ## Where the links are -/

theorem far (L : Layout h bs fl) (hi : i ∈ fl) (hn : n ∈ fl) :
    i = n ∨ i + 4 ≤ n ∨ n + 4 ≤ i := by
  obtain ⟨b, hb, rfl, _, hs⟩ := L.listed i hi
  obtain ⟨c, hc, rfl, _, hs'⟩ := L.listed n hn
  rcases L.tiles.apart hb hc with rfl | h | h
  · exact .inl rfl
  · omega
  · omega

/-- The links of a listed block are neither tags of a block nor inside another block. -/
theorem link_inside (L : Layout h bs fl) (hi : i ∈ fl) (hc : c ∈ bs) :
    (c.start = i ∧ 4 ≤ c.size) ∨ i + 4 ≤ c.start ∨ c.start + c.size ≤ i := by
  obtain ⟨b, hb, rfl, hk, hs⟩ := L.listed i hi
  rcases L.tiles.apart hb hc with rfl | h | h
  · exact .inl ⟨rfl, hs⟩
  · omega
  · omega

theorem not_listed (L : Layout h bs fl) (hc : c ∈ bs) (hk : c.kind ≠ .free) :
    c.start ∉ fl := by
  intro hi
  obtain ⟨b, hb, he, hk', _⟩ := L.listed _ hi
  exact hk (L.tiles.eq_of_start hb hc he ▸ hk')

theorem zero_not_listed (L : Layout h bs fl) : 0 ∉ fl := fun h0 => L.links.linked.ne_nil h0 rfl

/-! ## Taking a block out of the list -/

theorem remove_layout (L : Layout h bs (l₁ ++ i :: l₂)) :
    ∃ h', remove v i h = .ok () h' ∧ SameRegion h h' ∧ Layout h' bs (l₁ ++ l₂) ∧
      (∀ c ∈ bs, c.kind ≠ .free → Keeps h h' c) ∧ KeepsBut h h' (l₁ ++ i :: l₂) := by
  have hfl : ∀ z ∈ l₁ ++ l₂, z ∈ l₁ ++ i :: l₂ := by intro z hz; simp at hz ⊢; tauto
  -- `p` and `q` are the neighbours in the list, or 0
  obtain ⟨p, hp⟩ : ∃ p, l₁.getLastD 0 = p := ⟨_, rfl⟩
  obtain ⟨q, hq⟩ : ∃ q, l₂.headD 0 = q := ⟨_, rfl⟩
  have hpl : p ≠ 0 → p ∈ l₁ ++ i :: l₂ := by
    intro h0
    rcases List.eq_nil_or_concat l₁ with rfl | ⟨l, x, rfl⟩
    · exact absurd hp.symm h0
    · simp at hp; simp [hp]
  have hql : q ≠ 0 → q ∈ l₁ ++ i :: l₂ := by
    intro h0
    cases l₂ with
    | nil => exact absurd hq.symm h0
    | cons x l => simp at hq; simp [hq]
  have hnil : p = 0 ↔ l₁ = [] := by
    constructor
    · intro h0
      rcases List.eq_nil_or_concat l₁ with rfl | ⟨l, x, rfl⟩
      · rfl
      · simp at hp
        exact absurd (L.links.linked.ne_nil (z := x) (by simp)) (by simp [hp, h0])
    · rintro rfl; exact hp.symm
  have hrange : ∀ z ∈ l₁ ++ i :: l₂, 0 ≤ z ∧ z + 3 < h.len := by
    intro z hz
    obtain ⟨b, hb, rfl, _, hs⟩ := L.listed z hz
    have := L.bounds hb
    omega
  obtain ⟨h₁, hh₁⟩ : ∃ h₁ : State, h₁ = if p = 0 then { h with avail := q }
    else { h with array := Function.update h.array (p + 1) q } := ⟨_, rfl⟩
  obtain ⟨h₂, hh₂⟩ : ∃ h₂ : State, h₂ = if q ≠ 0 then
    { h₁ with array := Function.update h₁.array (q + 2) p } else h₁ := ⟨_, rfl⟩
  have hreg : h₁.base = h.base ∧ h₁.len = h.len := by
    rw [hh₁]; split <;> exact ⟨rfl, rfl⟩
  have hreg₂ : h₂.base = h.base ∧ h₂.len = h.len := by rw [hh₂]; split <;> exact hreg
  have hrun : remove v i h = .ok () h₂ := by
    rw [remove, bind_ok L.prev_listed, hp, bind_ok L.next_listed, hq]
    have htail : (if q ≠ 0 then setPrev q p else pure () : HeapM Unit) h₁ = .ok () h₂ := by
      rw [hh₂]; split
      · have := hrange q (hql ‹_›)
        exact set_eq (by omega) (by omega)
      · rfl
    by_cases hp0 : p = 0
    · rw [if_pos hp0] at hh₁ ⊢
      rw [bind_ok (show setAvail q h = .ok () h₁ by rw [hh₁]; rfl)]
      exact htail
    · rw [if_neg hp0] at hh₁ ⊢
      have := hrange p (hpl hp0)
      rw [bind_ok (show setNext p q h = .ok () h₁ by
        rw [hh₁]; exact set_eq (by omega) (by omega))]
      exact htail
  have harray : ∀ j, h₂.array j = if q ≠ 0 ∧ j = q + 2 then p
      else if p ≠ 0 ∧ j = p + 1 then q else h.array j := by
    intro j
    rw [hh₂, hh₁]
    by_cases hp0 : p = 0 <;> by_cases hq0 : q = 0 <;> simp [hp0, hq0, Function.update_apply]
  have hsame : ∀ j, (∀ z ∈ l₁ ++ i :: l₂, j ≠ z + 1 ∧ j ≠ z + 2) →
      h₂.array j = h.array j := by
    intro j hj
    rw [harray, if_neg fun hc => (hj q (hql hc.1)).2 hc.2,
      if_neg fun hc => (hj p (hpl hc.1)).1 hc.2]
  refine ⟨h₂, hrun, hreg₂, ⟨?_, fun b hb hk => ?_, ?_, fun z hz => L.listed z (hfl z hz)⟩,
    ?_, hsame⟩
  · rw [hreg₂.2]; exact L.tiles
  · rw [hsame, hsame]
    · exact L.tagged b hb hk
    all_goals
      intro z hz
      have := L.link_inside hz hb
      have := L.bounds hb
      omega
  · have havail : h₂.avail = if l₁ = [] then q else h.avail := by
      simp only [hh₂, hh₁, hnil]
      split <;> split <;> rfl
    have hnp := L.links.prev_eq
    have hnn := L.links.next_eq
    rw [hp] at hnp; rw [hq] at hnn
    rw [havail, ← hnn]
    refine L.links.remove L.zero_not_listed (fun z hz => ?_) (fun z hz => ?_)
    · simp only [hnn, hnp, harray]
      have hz0 := L.links.linked.ne_nil (hfl z hz)
      rw [if_neg]
      · by_cases hzp : z = p
        · subst hzp; simp [hz0]
        · rw [if_neg (by omega), if_neg hzp]
      · rintro ⟨hq0, he⟩
        have := L.far (hfl z hz) (hql hq0)
        omega
    · simp only [hnn, hnp, harray]
      have hz0 := L.links.linked.ne_nil (hfl z hz)
      by_cases hzq : z = q
      · subst hzq; simp [hz0]
      · rw [if_neg (by omega), if_neg hzq, if_neg]
        rintro ⟨hp0, he⟩
        have := L.far (hfl z hz) (hpl hp0)
        omega
  · intro c hc hk j hl hr
    refine hsame j fun z hz => ?_
    have hne : c.start ≠ z := fun he => L.not_listed hc hk (he ▸ hz)
    have := L.link_inside hz hc
    omega

/-! ## Rebuilding blocks -/

/-- The array can be cut into blocks in another way where the blocks are raw. -/
theorem recut {bs' : List Block} (L : Layout h bs fl)
    (ht : Tiles Block.start Block.size 0 h.len bs')
    (hold : ∀ b ∈ bs', b.kind ≠ .raw → b ∈ bs)
    (hkeep : ∀ b ∈ bs, b.start ∈ fl → b ∈ bs') : Layout h bs' fl where
  tiles := ht
  tagged b hb hk := L.tagged b (hold b hb hk) hk
  links := L.links
  listed i hi := by
    obtain ⟨b, hb, rfl, hk, hs⟩ := L.listed i hi
    exact ⟨b, hkeep b hb hi, rfl, hk, hs⟩

theorem to_raw (L : Layout h (l ++ b :: r) fl) (hb : b.start ∉ fl) :
    Layout h (l ++ ⟨b.start, b.size, .raw⟩ :: r) fl := by
  refine L.recut (L.tiles.replace rfl rfl) (fun c hc hk => ?_) fun c hc hf => ?_
  · simp only [List.mem_append, List.mem_cons] at hc ⊢
    rcases hc with hc | rfl | hc
    · exact .inl hc
    · exact absurd rfl hk
    · exact .inr (.inr hc)
  · simp only [List.mem_append, List.mem_cons] at hc ⊢
    rcases hc with hc | rfl | hc
    · exact .inl hc
    · exact absurd hf hb
    · exact .inr (.inr hc)

theorem cut_raw {m : Int} (hm : 0 < m) (hn : 0 < n) :
    Layout h (l ++ ⟨p, m + n, .raw⟩ :: r) fl ↔
      Layout h (l ++ ⟨p, m, .raw⟩ :: ⟨p + m, n, .raw⟩ :: r) fl := by
  constructor
  · intro L
    refine L.recut ?_ (fun c hc hk => ?_) fun c hc hf => ?_
    · obtain ⟨hl, _, hr⟩ := Tiles.at_piece.mp L.tiles
      exact Tiles.at_piece.mpr ⟨hl, hm, rfl, hn, by rwa [Int.add_assoc]⟩
    · simp only [List.mem_append, List.mem_cons] at hc ⊢
      rcases hc with hc | rfl | rfl | hc
      exacts [.inl hc, absurd rfl hk, absurd rfl hk, .inr (.inr hc)]
    · have hfree : c.kind = .free := by_contra fun hk => L.not_listed hc hk hf
      simp only [List.mem_append, List.mem_cons] at hc ⊢
      rcases hc with hc | rfl | hc
      exacts [.inl hc, by simp at hfree, .inr (.inr (.inr hc))]
  · intro L
    refine L.recut ?_ (fun c hc hk => ?_) fun c hc hf => ?_
    · obtain ⟨hl, _, _, _, hr⟩ := Tiles.at_piece.mp L.tiles
      exact Tiles.at_piece.mpr ⟨hl, by change 0 < m + n; omega, by rwa [Int.add_assoc] at hr⟩
    · simp only [List.mem_append, List.mem_cons] at hc ⊢
      rcases hc with hc | rfl | hc
      exacts [.inl hc, absurd rfl hk, .inr (.inr (.inr hc))]
    · have hfree : c.kind = .free := by_contra fun hk => L.not_listed hc hk hf
      simp only [List.mem_append, List.mem_cons] at hc ⊢
      rcases hc with hc | rfl | rfl | hc
      exacts [.inl hc, by simp at hfree, by simp at hfree, .inr (.inr hc)]

/-- The pieces beside a raw block. -/
theorem beside (L : Layout h (l ++ ⟨p, n, .raw⟩ :: r) fl) (hc : c ∈ l ++ r) :
    c ∈ l ++ (⟨p, n, .raw⟩ : Block) :: r ∧
    (c.start + c.size ≤ p ∨ p + n ≤ c.start) := by
  obtain ⟨hl, _, hr⟩ := Tiles.at_piece.mp L.tiles
  rcases List.mem_append.mp hc with hc | hc
  · exact ⟨by simp [hc], .inl (hl.bounds hc).2.2⟩
  · exact ⟨by simp [hc], .inr (hr.bounds hc).1⟩

theorem listed_beside (L : Layout h (l ++ ⟨p, n, .raw⟩ :: r) fl) (hi : i ∈ fl) :
    ∃ c ∈ l ++ r, c.start = i ∧ c.kind = .free ∧ 4 ≤ c.size ∧
    (i + c.size ≤ p ∨ p + n ≤ i) := by
  obtain ⟨c, hc, rfl, hk, hs⟩ := L.listed i hi
  have hc' : c ∈ l ++ r := by
    simp only [List.mem_append, List.mem_cons] at hc ⊢
    rcases hc with hc | rfl | hc
    exacts [.inl hc, absurd hk (by simp), .inr hc]
  exact ⟨c, hc', rfl, hk, hs, (L.beside hc').2⟩

theorem makeTaken_layout (L : Layout h (l ++ ⟨p, n, .raw⟩ :: r) fl) :
    ∃ h', makeTaken p n h = .ok () h' ∧ SameRegion h h' ∧
      Layout h' (l ++ ⟨p, n, .taken⟩ :: r) fl ∧ ∀ c ∈ l ++ r, Keeps h h' c := by
  have hbd := L.bounds (b := ⟨p, n, .raw⟩) (by simp)
  dsimp only at hbd
  obtain ⟨h₁, hh₁⟩ : ∃ h₁ : State,
    h₁ = { h with array := Function.update h.array p (-n) } := ⟨_, rfl⟩
  obtain ⟨h₂, hh₂⟩ : ∃ h₂ : State,
    h₂ = { h₁ with array := Function.update h₁.array (p + n - 1) (-n) } := ⟨_, rfl⟩
  have hlen : h₁.len = h.len := by rw [hh₁]
  have hhead : h₁.array p = -n := by rw [hh₁]; exact Function.update_self ..
  have hrun : makeTaken p n h = .ok () h₂ := by
    have habs : abs (-n) = n := by unfold abs; split <;> omega
    rw [makeTaken,
      bind_ok (show set p (-n) h = .ok () h₁ by rw [hh₁]; exact set_eq hbd.1 (by omega)),
      bind_ok (footerFromHeader_eq hbd.1 (by omega)), hhead, habs, hh₂]
    exact set_eq (by omega) (by omega)
  have hsame : ∀ j, j < p ∨ p + n ≤ j → h₂.array j = h.array j := by
    intro j hj
    rw [hh₂, hh₁]
    simp only [Function.update_apply]
    rw [if_neg (by omega), if_neg (by omega)]
  have hkeeps : ∀ c ∈ l ++ r, Keeps h h₂ c := by
    intro c hc j hl hr
    have := (L.beside hc).2
    exact hsame j (by omega)
  refine ⟨h₂, hrun, by rw [hh₂, hh₁]; exact ⟨rfl, rfl⟩,
    ⟨?_, fun c hc hk => ?_, ?_, ?_⟩, hkeeps⟩
  · rw [hh₂, hh₁]
    exact L.tiles.replace rfl rfl
  · have hcases : c ∈ l ++ r ∨ c = ⟨p, n, .taken⟩ := by
      simp only [List.mem_append, List.mem_cons] at hc ⊢; tauto
    rcases hcases with hc | rfl
    · have hc' := (L.beside hc).1
      have := L.bounds hc'
      rw [hkeeps c hc _ (by omega) (by omega), hkeeps c hc _ (by omega) (by omega)]
      exact L.tagged c hc' hk
    · constructor
      · rw [hh₂]
        simp only [Function.update_apply, hhead, Block.tag]
        split <;> simp
      · rw [hh₂]
        simp [Block.tag]
  · rw [show h₂.avail = h.avail by rw [hh₂, hh₁]]
    refine L.links.congr (fun z hz => ?_) fun z hz => ?_
    · obtain ⟨c, _, _, _, hs, hd⟩ := L.listed_beside hz
      exact hsame _ (by omega)
    · obtain ⟨c, _, _, _, hs, hd⟩ := L.listed_beside hz
      exact hsame _ (by omega)
  · intro z hz
    obtain ⟨c, hc, he, hk, hs, _⟩ := L.listed_beside hz
    exact ⟨c, by simp at hc ⊢; tauto, he, hk, hs⟩

end Layout

/-! ## Putting a block into the list -/

/-- The words that `makeAvail` stores in front of the block `q` that was the first one. -/
structure MadeAvail (h h' : State) (p n q : Int) : Prop where
  run : makeAvail p n h = .ok () h'
  region : SameRegion h h'
  avail : h'.avail = p
  array : ∀ j, h'.array j = if q ≠ 0 ∧ j = q + 2 then p else if j = p + 2 then 0
    else if j = p + 1 then q else if j = p + n - 1 then n else if j = p then n else h.array j

theorem makeAvail_made {q : Int} (hn : 4 ≤ n) (hp : 0 ≤ p) (hlen : p + n ≤ h.len)
    (hq : h.avail = q) (hqr : q ≠ 0 → 0 ≤ q ∧ q + 3 < h.len) :
    ∃ h', MadeAvail h h' p n q := by
  obtain ⟨h₁, hh₁⟩ : ∃ h₁ : State,
    h₁ = { h with array := Function.update h.array p n } := ⟨_, rfl⟩
  obtain ⟨h₂, hh₂⟩ : ∃ h₂ : State,
    h₂ = { h₁ with array := Function.update h₁.array (p + n - 1) n } := ⟨_, rfl⟩
  obtain ⟨h₃, hh₃⟩ : ∃ h₃ : State,
    h₃ = { h₂ with array := Function.update h₂.array (p + 1) q } := ⟨_, rfl⟩
  obtain ⟨h₄, hh₄⟩ : ∃ h₄ : State,
    h₄ = { h₃ with array := Function.update h₃.array (p + 2) 0 } := ⟨_, rfl⟩
  obtain ⟨h₅, hh₅⟩ : ∃ h₅ : State, h₅ = if q ≠ 0 then
    { h₄ with array := Function.update h₄.array (q + 2) p } else h₄ := ⟨_, rfl⟩
  have hhead : h₁.array p = n := by rw [hh₁]; exact Function.update_self ..
  have hl₁ : h₁.len = h.len := by rw [hh₁]
  have hl₂ : h₂.len = h.len := by rw [hh₂, hl₁]
  have hl₃ : h₃.len = h.len := by rw [hh₃, hl₂]
  have hl₄ : h₄.len = h.len := by rw [hh₄, hl₃]
  have ha₂ : h₂.avail = q := by rw [hh₂, hh₁, ← hq]
  have ha₄ : h₄.avail = q := by rw [hh₄, hh₃, ← ha₂]
  have hrun : makeAvail p n h = .ok () { h₅ with avail := p } := by
    have habs : abs n = n := by unfold abs; split <;> omega
    rw [makeAvail,
      bind_ok (show set p n h = .ok () h₁ by rw [hh₁]; exact set_eq hp (by omega)),
      bind_ok (footerFromHeader_eq hp (by omega)), hhead, habs,
      bind_ok (show set (p + n - 1) n h₁ = .ok () h₂ by
        rw [hh₂]; exact set_eq (by omega) (by omega)),
      bind_ok (show getAvail h₂ = .ok q h₂ by rw [← ha₂]; rfl),
      bind_ok (show setNext p q h₂ = .ok () h₃ by
        rw [hh₃]; exact set_eq (by omega) (by omega)),
      bind_ok (show setPrev p 0 h₃ = .ok () h₄ by
        rw [hh₄]; exact set_eq (by omega) (by omega)),
      bind_ok (show getAvail h₄ = .ok q h₄ by rw [← ha₄]; rfl)]
    by_cases hq0 : q = 0
    · rw [if_neg (by simp [hq0])] at hh₅ ⊢
      rw [hh₅]; rfl
    · rw [if_pos hq0] at hh₅ ⊢
      have := hqr hq0
      rw [bind_ok (show setPrev q p h₄ = .ok () h₅ by
        rw [hh₅]; exact set_eq (by omega) (by omega))]
      rfl
  refine ⟨_, hrun, ?_, rfl, fun j => ?_⟩
  · rw [hh₅]; split
    · rw [hh₄, hh₃, hh₂, hh₁]; exact ⟨rfl, rfl⟩
    · rw [hh₄, hh₃, hh₂, hh₁]; exact ⟨rfl, rfl⟩
  · rw [hh₅, hh₄, hh₃, hh₂, hh₁]
    by_cases hq0 : q = 0 <;> simp [hq0, Function.update_apply]

namespace MadeAvail

variable {q j : Int}

/-- Outside the block there is only the link back from the first one. -/
theorem same (M : MadeAvail h h' p n q) (hn : 4 ≤ n) (hj : j < p ∨ p + n ≤ j)
    (hjq : q ≠ 0 → j ≠ q + 2) : h'.array j = h.array j := by
  rw [M.array, if_neg fun h => hjq h.1 h.2, if_neg (by omega), if_neg (by omega),
    if_neg (by omega), if_neg (by omega)]

theorem tags (M : MadeAvail h h' p n q) (hn : 4 ≤ n)
    (hqp : q ≠ 0 → q + 2 < p ∨ p + n < q + 2) :
    h'.array p = n ∧ h'.array (p + n - 1) = n := by
  have hother : ∀ j, p ≤ j → j < p + n → ¬(q ≠ 0 ∧ j = q + 2) := by
    rintro j h1 h2 ⟨h0, h3⟩
    have := hqp h0
    omega
  constructor
  · rw [M.array, if_neg (hother _ (by omega) (by omega)), if_neg (by omega), if_neg (by omega),
      if_neg (by omega), if_pos rfl]
  · rw [M.array, if_neg (hother _ (by omega) (by omega)), if_neg (by omega), if_neg (by omega),
      if_pos rfl]

theorem links (M : MadeAvail h h' p n q) (hn : 4 ≤ n)
    (hqp : q ≠ 0 → q + 2 < p ∨ p + n < q + 2) :
    h'.array (p + 1) = q ∧ h'.array (p + 2) = 0 ∧ (q ≠ 0 → h'.array (q + 2) = p) := by
  have hother : ∀ j, p ≤ j → j < p + n → ¬(q ≠ 0 ∧ j = q + 2) := by
    rintro j h1 h2 ⟨h0, h3⟩
    have := hqp h0
    omega
  refine ⟨?_, ?_, fun hq0 => ?_⟩
  · rw [M.array, if_neg (hother _ (by omega) (by omega)), if_neg (by omega), if_pos rfl]
  · rw [M.array, if_neg (hother _ (by omega) (by omega)), if_pos rfl]
  · rw [M.array, if_pos ⟨hq0, rfl⟩]

end MadeAvail

namespace Layout

/-- Where the first block of the list is. -/
theorem avail_beside (L : Layout h (l ++ ⟨p, n, .raw⟩ :: r) fl) (h0 : h.avail ≠ 0) :
    h.avail ∈ fl ∧
    0 ≤ h.avail ∧ h.avail + 3 < h.len ∧ (h.avail + 4 ≤ p ∨ p + n ≤ h.avail) := by
  obtain ⟨fl', rfl⟩ := L.links.linked.head_mem h0
  obtain ⟨c, hc, he, _, hs, hd⟩ :=
    L.listed_beside (List.mem_cons_self (a := h.avail) (l := fl'))
  have := L.bounds (L.beside hc).1
  exact ⟨List.mem_cons_self, by omega⟩

/-- The other blocks keep their tags, and those that are not free all their words. -/
theorem madeAvail_keeps (L : Layout h (l ++ ⟨p, n, .raw⟩ :: r) fl)
    (M : MadeAvail h h' p n h.avail) (hn : 4 ≤ n) (hc : c ∈ l ++ r) {j : Int}
    (hl : c.start ≤ j) (hr : j < c.start + c.size)
    (hj : j = c.start ∨ j = c.start + c.size - 1 ∨ c.kind ≠ .free) :
    h'.array j = h.array j := by
  obtain ⟨hc', hd⟩ := L.beside hc
  refine M.same hn (by omega) fun hq0 he => ?_
  obtain ⟨hql, -⟩ := L.avail_beside hq0
  have := L.link_inside hql hc'
  have hne : c.kind ≠ .free → c.start ≠ h.avail :=
    fun hk he => L.not_listed hc' hk (he ▸ hql)
  rcases hj with hj | hj | hj
  · omega
  · omega
  · have := hne hj; omega

theorem madeAvail_links (L : Layout h (l ++ ⟨p, n, .raw⟩ :: r) fl)
    (M : MadeAvail h h' p n h.avail) (hn : 4 ≤ n) (hp : p ≠ 0) :
    DLinked (fun i => h'.array (i + 1)) (fun i => h'.array (i + 2)) 0 0 h'.avail (p :: fl) := by
  have hz : ∀ z ∈ fl, z + 4 ≤ p ∨ p + n ≤ z := by
    intro z hz
    obtain ⟨c, _, _, _, hs, hd⟩ := L.listed_beside hz
    omega
  have hqp : h.avail ≠ 0 → h.avail + 2 < p ∨ p + n < h.avail + 2 := fun hq0 => by
    have := L.avail_beside hq0; omega
  obtain ⟨hnext, hprev, hback⟩ := M.links hn hqp
  rw [M.avail]
  refine L.links.push hp (fun hpl => ?_) hnext hprev hback (fun z hzl => ?_) fun z hzl hzq => ?_
  · have := hz p hpl; omega
  · have := hz z hzl
    refine M.same hn (by omega) fun hq0 => ?_
    have := L.far hzl (L.avail_beside hq0).1
    omega
  · have := hz z hzl
    exact M.same hn (by omega) fun hq0 he => hzq (by omega)

theorem makeAvail_layout (L : Layout h (l ++ ⟨p, n, .raw⟩ :: r) fl) (hn : 4 ≤ n)
    (hp : p ≠ 0) :
    ∃ h', makeAvail p n h = .ok () h' ∧ SameRegion h h' ∧
      Layout h' (l ++ ⟨p, n, .free⟩ :: r) (p :: fl) ∧
      (∀ c ∈ l ++ r, c.kind ≠ .free → Keeps h h' c) ∧
      ∀ j, j ≠ p → j ≠ p + n - 1 → (∀ z ∈ p :: fl, j ≠ z + 1 ∧ j ≠ z + 2) →
      h'.array j = h.array j := by
  have hbd := L.bounds (b := ⟨p, n, .raw⟩) (by simp)
  dsimp only at hbd
  have hqr : h.avail ≠ 0 → 0 ≤ h.avail ∧ h.avail + 3 < h.len := fun h0 =>
    ⟨(L.avail_beside h0).2.1, (L.avail_beside h0).2.2.1⟩
  have hqp : h.avail ≠ 0 → h.avail + 2 < p ∨ p + n < h.avail + 2 := fun hq0 => by
    have := L.avail_beside hq0; omega
  obtain ⟨h', M⟩ := makeAvail_made hn hbd.1 hbd.2.2 rfl hqr
  refine ⟨h', M.run, M.region, ⟨?_, fun c hc hk => ?_, ?_, ?_⟩, fun c hc hk j hl hr => ?_,
    fun j h1 h2 h3 => ?_⟩
  · rw [M.region.2]
    exact L.tiles.replace rfl rfl
  · have hcases : c ∈ l ++ r ∨ c = ⟨p, n, .free⟩ := by
      simp only [List.mem_append, List.mem_cons] at hc ⊢; tauto
    rcases hcases with hc | rfl
    · have hc' := (L.beside hc).1
      have := L.bounds hc'
      rw [L.madeAvail_keeps M hn hc (by omega) (by omega) (.inl rfl),
        L.madeAvail_keeps M hn hc (by omega) (by omega) (.inr (.inl rfl))]
      exact L.tagged c hc' hk
    · exact M.tags hn hqp
  · exact L.madeAvail_links M hn hp
  · intro z hz
    rcases List.mem_cons.mp hz with rfl | hz
    · exact ⟨⟨z, n, .free⟩, by simp, rfl, rfl, hn⟩
    · obtain ⟨c, hc, he, hk, hs, _⟩ := L.listed_beside hz
      exact ⟨c, by simp at hc ⊢; tauto, he, hk, hs⟩
  · exact L.madeAvail_keeps M hn hc hl hr (.inr (.inr hk))
  · have hp := h3 p List.mem_cons_self
    rw [M.array, if_neg fun hc => (h3 _ (List.mem_cons_of_mem p (L.avail_beside hc.1).1)).2 hc.2,
      if_neg hp.2, if_neg hp.1, if_neg h2, if_neg h1]

end Layout

end K439.Heap
