import K439.Fs.Cached

/-!
# A new mount

`remove` writes the FAT and the superblock, `mkdir` does not: a new `Fat439` finds the blocks that
`mkdir` took since the last removal on the free chain.
-/

namespace K439.Fs

/-- A new `Fat439` has the FAT and the superblock of this one, and no block of a directory is
free. -/
def Remount (fs : Fat439) : Prop :=
  ∃ fs', Fat439.create fs.dev = some fs' ∧ fs'.fat = fs.fat ∧ fs'.super = fs.super ∧
    ∀ s x, Dir fs' s → OnChain fs' s x → ¬OnChain fs' fs'.super.avail x

/-- The call takes a block from the free chain. -/
def Takes (m : Mount) : Op → Prop
  | .mkdir i entry _ name => m.fs.super.avail ≠ 0 ∧
      ∃ d, m.dirs[i]? = some d ∧ d.mkdirError m.fs entry name = none
  | _ => False

/-- The call gets to free blocks. -/
def Frees (m : Mount) : Op → Prop
  | .remove i entry entry' name => ∃ d, m.dirs[i]? = some d ∧ ¬Stops m.fs d entry entry' name
  | _ => False

/-- The removal of an entry of a directory of the tree that does not make the directory longer. The
blocks of the object were not freed before, and it is a file, or no entry that is left names it. -/
structure Releases (fs : Fat439) (d : Fat439Directory) (entry : Nat → UInt8) (name : List UInt8) :
    Prop where
  dir : Dir fs d.start
  metaData : fs.metaData d.start = header fs.dev d.start
  dot : name ≠ [0x2e]
  dots : name ≠ [0x2e, 0x2e]
  found : ∃ k < (header fs.dev d.start).length / 16,
    Fat439Directory.search fs d name d.entries 0 entry = some (k, d.lookup fs entry name)
  length : name.idxOf 0 * 16 + 16 ≤ (header fs.dev d.start).length
  free : ¬OnChain fs fs.super.avail (d.lookup fs entry name)
  gone : (fs.metaData (d.lookup fs entry name)).type ≠ TYPE_DIR ∧
    ¬Dir fs (d.lookup fs entry name) ∨
    d.lookup fs entry name ≠ fs.super.root ∧ ∀ t i, Dir fs t →
      i < (if t = d.start then name.idxOf 0 + 1 else (header fs.dev t).length / 16) →
        entryStart fs t i ≠ d.lookup fs entry name

/-- `mkdir` puts an entry into the first block of a directory of the tree only, and a removal that
frees blocks leaves no directory that has them. -/
def Clean (m : Mount) : Op → Prop
  | .mkdir i entry _ name => ∀ d, m.dirs[i]? = some d → d.mkdirError m.fs entry name = none →
      m.fs.super.avail ≠ 0 → Dir m.fs d.start ∧
      m.fs.metaData d.start = header m.fs.dev d.start ∧
        (m.fs.metaData d.start).length + 32 ≤ 512
  | .remove i entry entry' name => ∀ d, m.dirs[i]? = some d →
      Stops m.fs d entry entry' name ∨ Releases m.fs d entry name
  | _ => True

/-- The blocks are in order, but for the entries of files that were removed. -/
structure Proper (fs : Fat439) : Prop where
  size : fs.super.nBlocks ≤ 0x800000
  magic : fs.super.magic = 0x39333446
  root : InArea fs.super.nBlocks fs.super.root
  out : ∀ x, ¬InArea fs.super.nBlocks x → fs.fat x = 0
  area : ∀ x, fs.fat x = 0 ∨ InArea fs.super.nBlocks (fs.fat x)
  inj : ∀ x y, fs.fat x = fs.fat y → fs.fat x ≠ 0 → x = y
  avail : ∃ l, Linked fs.fat 0 fs.super.avail l ∧ ∀ x ∈ l, InArea fs.super.nBlocks x
  first : fs.super.avail ≠ 0 → ∀ x, fs.fat x ≠ fs.super.avail
  dir : ∀ s, Dir fs s → (header fs.dev s).length % 16 = 0 ∧ (header fs.dev s).length ≤ 496 ∧
    InArea fs.super.nBlocks s ∧ fs.fat s = 0 ∧ (∀ x, fs.fat x ≠ s) ∧
      ¬OnChain fs fs.super.avail s
  named : ∀ s i, Dir fs s → i < (header fs.dev s).length / 16 →
    InArea fs.super.nBlocks (entryStart fs s i) ∧
      (OnChain fs fs.super.avail (entryStart fs s i) ∨ ∀ x, fs.fat x ≠ entryStart fs s i)

section

variable {fs fs' fs₁ fs₂ : Fat439} {d : Fat439Directory} {entry entry' : Nat → UInt8}
  {name buf : List UInt8} {m m' : Mount} {op : Op} {s t x y i k b L n newsz : Nat}

/-! ## From a tree -/

theorem Owns.chain {a : Slot} (ha : Owns fs a x) :
    ∃ y l, Linked fs.fat 0 y l ∧ x ∈ l ∧ ∀ z, Owns fs a z ↔ z ∈ l := by
  cases a with
  | free =>
    obtain ⟨l, hl, hx⟩ := ha
    exact ⟨_, l, hl, hx, fun z => onChain_iff hl⟩
  | root =>
    obtain ⟨l, hl, hx⟩ := ha
    exact ⟨_, l, hl, hx, fun z => onChain_iff hl⟩
  | entry s i =>
    obtain ⟨hs, hi, l, hl, hx⟩ := ha
    refine ⟨_, l, hl, hx, fun z => ?_⟩
    rw [Owns, onChain_iff hl]
    exact ⟨fun h => h.2.2, fun h => ⟨hs, hi, h⟩⟩

/-- What a block is linked to has the same owner. -/
theorem Owns.next {a : Slot} (ha : Owns fs a x) (hx : fs.fat x ≠ 0) :
    Owns fs a (fs.fat x) := by
  obtain ⟨y, l, hl, hxl, hiff⟩ := ha.chain
  exact (hiff _).mpr ((hl.next_mem hxl).resolve_left hx)

/-- A tree on a device with a FAT of the data area only. -/
theorem Tree.proper (T : Tree fs) (hmagic : fs.super.magic = 0x39333446)
    (hout : ∀ x, ¬InArea fs.super.nBlocks x → fs.fat x = 0) : Proper fs := by
  have howner : ∀ x, fs.fat x ≠ 0 → ∃ a, Owns fs a x := fun x hx =>
    T.owned.total x (not_not.mp fun h => hx (hout x h))
  -- nothing is linked to the first block of a chain
  have hhead : ∀ {a y l}, Linked fs.fat 0 y l → y ≠ 0 → (∀ z, Owns fs a z ↔ z ∈ l) →
      ∀ x, fs.fat x ≠ y := by
    rintro a y l hl hy hiff x rfl
    obtain ⟨c, hc⟩ := howner x hy
    obtain ⟨l', rfl⟩ := hl.head_mem hy
    obtain rfl : c = a := T.owned.unique _ _ _ (hc.next hy) ((hiff _).mpr List.mem_cons_self)
    exact hl.next_ne_head ((hiff x).mp hc) rfl
  have hroot : ∀ x, fs.fat x ≠ fs.super.root :=
    hhead (a := .root) T.root_chain T.root fun z => onChain_iff T.root_chain
  have hnamed : ∀ s i, Dir fs s → i < (header fs.dev s).length / 16 →
      ∀ x, fs.fat x ≠ entryStart fs s i := by
    intro s i hs hi
    obtain ⟨hne, l, hl⟩ := T.chain s i hs hi
    refine hhead (a := .entry s i) hl hne fun z => ?_
    rw [Owns, onChain_iff hl]
    exact ⟨fun h => h.2.2, fun h => ⟨hs, hi, h⟩⟩
  obtain ⟨l, hl⟩ := T.avail
  refine ⟨T.size, hmagic, T.dir_inArea .root, hout, fun x => ?_, fun x y he hx => ?_,
    ⟨l, hl, fun x hx => T.owned.sound .free x ⟨l, hl, hx⟩⟩,
    fun hav => hhead (a := .free) hl hav fun z => onChain_iff hl, fun s hs => ?_,
      fun s i hs hi => ?_⟩
  · rcases Nat.eq_zero_or_pos (fs.fat x) with h0 | hpos
    · exact .inl h0
    · obtain ⟨a, ha⟩ := howner x (Nat.pos_iff_ne_zero.mp hpos)
      exact .inr (T.owned.sound a _ (ha.next (Nat.pos_iff_ne_zero.mp hpos)))
  · obtain ⟨a, ha⟩ := howner x hx
    obtain ⟨c, hc⟩ := howner y (he ▸ hx)
    obtain rfl : a = c :=
      T.owned.unique _ _ _ (ha.next hx) (he ▸ hc.next (he ▸ hx))
    obtain ⟨z, c, hc', hxc, hiff⟩ := ha.chain
    exact hc'.inj hxc ((hiff y).mp hc) he
  · obtain ⟨a, ha, has⟩ := T.dir_owned hs
    refine ⟨(T.dir s hs).2.1, (T.dir s hs).2.2.1, T.dir_inArea hs, (T.dir s hs).2.2.2, ?_,
      fun hfree => ha (T.owned.unique _ _ _ has hfree)⟩
    cases hs with
    | root => exact hroot
    | entry hu hi _ => exact hnamed _ _ hu hi
  · exact ⟨T.owned.sound _ _ (T.entry_owns hs hi), .inr (hnamed s i hs hi)⟩

/-! ## A directory is made -/

theorem Proper.flat (P : Proper fs) : Flat fs := by
  refine ⟨fun s hs => Nat.lt_of_lt_of_le (P.dir s hs).2.2.1.2 P.size, ?_,
    fun s hs => ⟨(P.dir s hs).1, (P.dir s hs).2.1⟩⟩
  rintro _ hs hav rfl
  obtain ⟨l, hl, -⟩ := P.avail
  exact (P.dir _ hs).2.2.2.2.2 (OnChain.head hl hav)

theorem Proper.avail_inArea (P : Proper fs) (hav : fs.super.avail ≠ 0) :
    InArea fs.super.nBlocks fs.super.avail := by
  obtain ⟨l, hl, hin⟩ := P.avail
  obtain ⟨l', rfl⟩ := hl.head_mem hav
  exact hin _ List.mem_cons_self

theorem Proper.made (P : Proper fs) (hs : Dir fs s) (hav : fs.super.avail ≠ 0)
    (hL : (header fs.dev s).length = L) (hroom : L + 32 ≤ 512)
    (M : Made fs s fs.super.avail L buf fs') (hbuf : decodeLE (buf.drop 12) = fs.super.avail) :
    Proper fs' := by
  have hmod : L % 16 = 0 := hL ▸ (P.dir s hs).1
  have hnb : fs'.super.nBlocks = fs.super.nBlocks := by rw [M.super]
  have hfat : ∀ x, x ≠ fs.super.avail → fs'.fat x = fs.fat x := fun x hx => by
    rw [M.fat, Function.update_of_ne hx]
  have hfat0 : fs'.fat fs.super.avail = 0 := by rw [M.fat, Function.update_self]
  have hav' : fs'.super.avail = fs.fat fs.super.avail := by rw [M.super]
  -- what is not linked to before is not linked to now
  have hnext : ∀ {y}, y ≠ 0 → (∀ x, fs.fat x ≠ y) → ∀ x, fs'.fat x ≠ y := by
    intro y hy h x
    rcases Nat.decEq x fs.super.avail with hne | rfl
    · rw [hfat x hne]; exact h x
    · rw [hfat0]; exact hy.symm
  obtain ⟨l, hl, hin⟩ := P.avail
  obtain ⟨l', rfl⟩ := hl.head_mem hav
  have hnd := (List.nodup_cons.mp hl.nodup).1
  have hl' : Linked fs'.fat 0 fs'.super.avail l' := by
    rw [hav']
    exact hl.pop hfat
  have hchain : ∀ {x}, x ≠ fs.super.avail → OnChain fs fs.super.avail x →
      OnChain fs' fs'.super.avail x := fun hne hx =>
    ⟨l', hl', (List.mem_cons.mp ((onChain_iff hl).mp hx)).resolve_left hne⟩
  have hchain' : ∀ {x}, OnChain fs' fs'.super.avail x → x ≠ fs.super.avail ∧
      OnChain fs fs.super.avail x :=
    fun hx => by
      have hx' := (onChain_iff hl').mp hx
      exact ⟨fun he => hnd (he ▸ hx'), _, hl, List.mem_cons_of_mem _ hx'⟩
  have hdir : ∀ t, Dir fs' t → Dir fs t ∨ t = fs.super.avail := by
    intro t ht
    induction ht with
    | root => exact .inl ((show fs'.super.root = fs.super.root by rw [M.super]) ▸ .root)
    | @entry u j _ hj htype ih =>
      rcases (M.entry_cases P.flat hs hav hL hroom hbuf ih).mp hj with ⟨hu, hlt, he⟩ |
        ⟨-, -, he⟩
      · rcases Nat.decEq (entryStart fs u j) fs.super.avail with hne | heq
        · rw [he, M.header_type hne] at htype
          exact .inl (he ▸ .entry hu hlt htype)
        · exact .inr (he.trans heq)
      · exact .inr he
  refine ⟨hnb ▸ P.size, by rw [M.super]; exact P.magic, by rw [M.super]; exact P.root,
    fun x hx => ?_, fun x => ?_, fun x y he hx => ?_,
    ⟨l', hl', fun x hx => hnb ▸ hin x (List.mem_cons_of_mem _ hx)⟩, fun h0 => ?_,
      fun t ht => ?_,
    fun t i ht hi => ?_⟩
  · rcases Nat.decEq x fs.super.avail with hne | rfl
    · rw [hfat x hne]; exact P.out x (hnb ▸ hx)
    · exact hfat0
  · rcases Nat.decEq x fs.super.avail with hne | rfl
    · rw [hfat x hne, hnb]; exact P.area x
    · exact .inl hfat0
  · rcases Nat.decEq x fs.super.avail with hne | rfl
    · rw [hfat x hne] at he hx
      rcases Nat.decEq y fs.super.avail with hne' | rfl
      · rw [hfat y hne'] at he; exact P.inj x y he hx
      · rw [hfat0] at he; exact absurd he hx
    · exact absurd hfat0 hx
  · -- the new first block was linked to by the old one only
    intro x
    rw [hav'] at h0 ⊢
    rcases Nat.decEq x fs.super.avail with hne | rfl
    · rw [hfat x hne]
      exact fun he => hne (P.inj x _ he (he ▸ h0))
    · rw [hfat0]; exact h0.symm
  · rcases hdir t ht with hd | rfl
    · obtain ⟨h16, h496, harea, hf, hfirst, hfree⟩ := P.dir t hd
      have hne := P.flat.ne_avail t hd hav
      refine ⟨?_, ?_, hnb ▸ harea, by rw [hfat t hne, hf], hnext harea.ne_zero hfirst,
        fun h => hfree (hchain' h).2⟩
      · rcases Nat.decEq t s with hts | rfl
        · rw [M.header_of_ne hne hts]; exact h16
        · rw [M.self]; dsimp only; omega
      · rcases Nat.decEq t s with hts | rfl
        · rw [M.header_of_ne hne hts]; exact h496
        · rw [M.self]; dsimp only; omega
    · rw [M.new]
      exact ⟨rfl, Nat.zero_le _, hnb ▸ P.avail_inArea hav, hfat0, hnext hav (P.first hav),
        fun h => (hchain' h).1 rfl⟩
  · rcases (M.entry_cases P.flat hs hav hL hroom hbuf (hdir t ht)).mp hi with ⟨hd, hlt, he⟩ |
      ⟨-, -, he⟩
    · obtain ⟨harea, h⟩ := P.named t i hd hlt
      rw [he, hnb]
      refine ⟨harea, ?_⟩
      rcases h with h | h
      · rcases Nat.decEq (entryStart fs t i) fs.super.avail with hne | heq
        · exact .inl (hchain hne h)
        · exact .inr (heq ▸ hnext hav (P.first hav))
      · exact .inr (hnext harea.ne_zero h)
    · rw [he, hnb]
      exact ⟨P.avail_inArea hav, .inr (hnext hav (P.first hav))⟩

/-! ## A file is removed -/

/-- The chain of a removed object is in front of the free one. -/
structure Returned (fs fs' : Fat439) (blk : Nat) (c : List Nat) (last : Nat)
    (l : List Nat) : Prop where
  chain : Linked fs.fat 0 blk (c ++ [last])
  free : Linked fs.fat 0 fs.super.avail l
  super : fs'.super = { fs.super with avail := blk }
  fat : fs'.fat = Function.update fs.fat last fs.super.avail
  join : Linked fs'.fat 0 fs'.super.avail (c ++ last :: l)
  area : ∀ x ∈ c ++ last :: l, InArea fs.super.nBlocks x
  first : ∀ x, fs.fat x ≠ blk
  ne : blk ≠ fs.super.avail

/-- The blocks that become free were not free. -/
theorem Freed.returned {blk : Nat} (P : Proper fs) (F : Freed fs s blk newsz fs')
    (hb : InArea fs.super.nBlocks blk) (hfirst : ∀ x, fs.fat x ≠ blk)
    (hfree : ¬OnChain fs fs.super.avail blk) : ∃ c last l, Returned fs fs' blk c last l := by
  obtain ⟨c, last, hc, hfat⟩ := F.fat
  obtain ⟨l, hl, hin⟩ := P.avail
  have hne : blk ≠ fs.super.avail := by
    rintro rfl
    exact hfree (OnChain.head hl hb.ne_zero)
  have hdisj : ∀ z ∈ c ++ [last], z ∉ l := by
    intro z hz
    rcases Nat.eq_zero_or_pos fs.super.avail with h0 | hpos
    · rw [hl.eq_nil_iff.mp h0]
      exact List.not_mem_nil
    · exact hc.disjoint hl P.inj hfirst (P.first (Nat.pos_iff_ne_zero.mp hpos)) hne hz
  have hjoin : Linked fs'.fat 0 fs'.super.avail (c ++ last :: l) := by
    rw [F.super]
    refine hc.join hl hdisj (by rw [hfat, Function.update_self]) fun z hz => ?_
    rw [hfat, Function.update_of_ne hz]
  have hcarea : ∀ z ∈ c ++ [last], InArea fs.super.nBlocks z :=
    hc.forall_mem (fun _ => hb) fun z hz => (P.area z).resolve_left hz
  refine ⟨c, last, l, hc, hl, F.super, hfat, hjoin, fun x hx => ?_, hfirst, hne⟩
  rw [List.append_cons] at hx
  exact (List.mem_append.mp hx).elim (hcarea x) (hin x)

namespace Returned

variable {blk last : Nat} {c l : List Nat}

theorem fat_of_ne (R : Returned fs fs' blk c last l) (hx : x ≠ last) : fs'.fat x = fs.fat x := by
  rw [R.fat, Function.update_of_ne hx]

theorem fat_last (R : Returned fs fs' blk c last l) : fs'.fat last = fs.super.avail := by
  rw [R.fat, Function.update_self]

theorem onChain_iff (R : Returned fs fs' blk c last l) :
    OnChain fs' fs'.super.avail x ↔ x ∈ c ++ [last] ∨ OnChain fs fs.super.avail x := by
  rw [Fs.onChain_iff R.join, Fs.onChain_iff R.free, List.append_cons, List.mem_append]

theorem out (R : Returned fs fs' blk c last l) (P : Proper fs) (hx : ¬InArea fs.super.nBlocks x) :
    fs'.fat x = 0 := by
  have hne : x ≠ last := by
    rintro rfl
    exact hx (R.area x (by simp))
  rw [R.fat_of_ne hne]
  exact P.out x hx

theorem fat_area (R : Returned fs fs' blk c last l) (P : Proper fs) (x : Nat) :
    fs'.fat x = 0 ∨ InArea fs.super.nBlocks (fs'.fat x) := by
  rcases Nat.decEq x last with hne | rfl
  · rw [R.fat_of_ne hne]
    exact P.area x
  · rw [R.fat_last]
    rcases Nat.eq_zero_or_pos fs.super.avail with h0 | hpos
    · exact .inl h0
    · exact .inr (P.avail_inArea (Nat.pos_iff_ne_zero.mp hpos))

theorem inj (R : Returned fs fs' blk c last l) (P : Proper fs) (he : fs'.fat x = fs'.fat y)
    (hx : fs'.fat x ≠ 0) : x = y := by
  rcases Nat.decEq x last with hne | rfl
  · rw [R.fat_of_ne hne] at he hx
    rcases Nat.decEq y last with hne' | rfl
    · rw [R.fat_of_ne hne'] at he
      exact P.inj x y he hx
    · rw [R.fat_last] at he
      exact absurd he (P.first (he ▸ hx) x)
  · rw [R.fat_last] at he hx
    rcases Nat.decEq y x with hne' | rfl
    · rw [R.fat_of_ne hne'] at he
      exact absurd he.symm (P.first hx y)
    · rfl

/-- A block that nothing was linked to, other than the first free one. -/
theorem unlinked (R : Returned fs fs' blk c last l) (h : ∀ x, fs.fat x ≠ t)
    (ht : t ≠ fs.super.avail) (x : Nat) : fs'.fat x ≠ t := by
  rcases Nat.decEq x last with hne | rfl
  · rw [R.fat_of_ne hne]
    exact h x
  · rw [R.fat_last]
    exact ht.symm

/-- Such a block is not on the chain of the object. -/
theorem notMem (R : Returned fs fs' blk c last l) (h : ∀ x, fs.fat x ≠ t) (ht : t ≠ blk) :
    t ∉ c ++ [last] := by
  intro hmem
  obtain ⟨i, hi, rfl⟩ := List.getElem_of_mem hmem
  have hstep := R.chain.iterate hi
  cases i with
  | zero => exact ht hstep.symm
  | succ i =>
    rw [Function.iterate_succ_apply'] at hstep
    exact h _ hstep

theorem head (R : Returned fs fs' blk c last l) (h0 : fs.super.avail ≠ 0) :
    OnChain fs fs.super.avail fs.super.avail :=
  OnChain.head R.free h0

end Returned

section

variable {blk : Nat}

/-- The lengths of the directories that are left. -/
theorem Freed.dir_length (F : Freed fs s blk newsz fs') (P : Proper fs) (hs : Dir fs s)
    (hne : blk ≠ s) (hdisk : fs.metaData s = header fs.dev s)
    (hnew : newsz ≤ (header fs.dev s).length) (ht : Dir fs t) (hbt : t ≠ blk) :
    (header fs'.dev t).length = (if t = s then newsz else (header fs.dev t).length) ∧
      (header fs'.dev t).length ≤ (header fs.dev t).length := by
  have h496 := (P.dir s hs).2.1
  rcases Nat.decEq t s with hts | rfl
  · rw [if_neg hts, F.header_of_ne (P.dir t ht).2.2.1 hts hbt]
    exact ⟨rfl, Nat.le_refl _⟩
  · rw [if_pos rfl, F.header_self (P.dir t ht).2.2.1 hne hdisk (by omega)]
    exact ⟨rfl, hnew⟩

theorem Freed.dir_entryStart (F : Freed fs s blk newsz fs') (P : Proper fs) (ht : Dir fs t)
    (hi : i < (header fs.dev t).length / 16) : entryStart fs' t i = entryStart fs t i := by
  have h496 := (P.dir t ht).2.1
  exact F.entryStart_eq (P.dir t ht).2.2.1 P.size (by omega)

/-- The directories are old ones, and the object is not one of them. -/
theorem Freed.dir_old (F : Freed fs s blk newsz fs') (P : Proper fs) (hs : Dir fs s)
    (hne : blk ≠ s) (hdisk : fs.metaData s = header fs.dev s)
    (hnew : newsz ≤ (header fs.dev s).length)
    (hgone : (header fs'.dev blk).type ≠ TYPE_DIR ∧ ¬Dir fs blk ∨ blk ≠ fs.super.root ∧
      ∀ t i, Dir fs t → i < (if t = s then newsz / 16 else (header fs.dev t).length / 16) →
        entryStart fs t i ≠ blk)
    (ht : Dir fs' t) : Dir fs t ∧ t ≠ blk := by
  induction ht with
  | root =>
    have hroot : fs'.super.root = fs.super.root := by rw [F.super]
    rw [hroot]
    refine ⟨.root, fun he => ?_⟩
    rcases hgone with h | h
    · exact h.2 (he ▸ .root)
    · exact h.1 he.symm
  | @entry u j _ hj htype ih =>
    obtain ⟨hu, hub⟩ := ih
    obtain ⟨hlen, hle⟩ := F.dir_length P hs hne hdisk hnew hu hub
    have hj' : j < (header fs.dev u).length / 16 := by omega
    rw [F.dir_entryStart P hu hj'] at htype ⊢
    have heb : entryStart fs u j ≠ blk := by
      rcases hgone with h | h
      · rintro rfl
        exact h.1 htype
      · refine h.2 u j hu ?_
        rw [hlen] at hj
        split at hj
        next he => rwa [if_pos he]
        next he => rwa [if_neg he]
    refine ⟨?_, heb⟩
    rcases Nat.decEq (entryStart fs u j) s with hes | heq
    · rw [F.header_of_ne (P.named u j hu hj').1 hes heb] at htype
      exact .entry hu hj' htype
    · rw [heq]
      exact hs

theorem Proper.freed (P : Proper fs) (hs : Dir fs s) (hk : k < (header fs.dev s).length / 16)
    (hblk : entryStart fs s k = blk) (hne : blk ≠ s) (hdisk : fs.metaData s = header fs.dev s)
    (hnew : newsz ≤ (header fs.dev s).length) (hmod : newsz % 16 = 0)
    (hfree : ¬OnChain fs fs.super.avail blk)
    (hgone : (header fs'.dev blk).type ≠ TYPE_DIR ∧ ¬Dir fs blk ∨ blk ≠ fs.super.root ∧
      ∀ t i, Dir fs t → i < (if t = s then newsz / 16 else (header fs.dev t).length / 16) →
        entryStart fs t i ≠ blk)
    (F : Freed fs s blk newsz fs') : Proper fs' := by
  have hnb : fs'.super.nBlocks = fs.super.nBlocks := by rw [F.super]
  have hb : InArea fs.super.nBlocks blk := hblk ▸ (P.named s k hs hk).1
  have hbfirst : ∀ x, fs.fat x ≠ blk := by
    have h := (P.named s k hs hk).2
    rw [hblk] at h
    exact h.resolve_left hfree
  obtain ⟨c, last, l, R⟩ := F.returned P hb hbfirst hfree
  have hdir {t : Nat} (ht : Dir fs' t) : Dir fs t ∧ t ≠ blk :=
    F.dir_old P hs hne hdisk hnew hgone ht
  refine ⟨hnb ▸ P.size, by rw [F.super]; exact P.magic, by rw [F.super]; exact P.root,
    fun x hx => ?_,
    fun x => ?_, fun x y => R.inj P, ⟨_, R.join, fun x hx => ?_⟩, fun _ x => ?_, fun t ht => ?_,
      fun t i ht hi => ?_⟩
  · rw [hnb] at hx
    exact R.out P hx
  · rw [hnb]
    exact R.fat_area P x
  · rw [hnb]
    exact R.area x hx
  · rw [R.super]
    exact R.unlinked R.first R.ne x
  · obtain ⟨hd, htb⟩ := hdir ht
    obtain ⟨hlen, hle⟩ := F.dir_length P hs hne hdisk hnew hd htb
    obtain ⟨h16, h496, harea, hf, hfirst, hnf⟩ := P.dir t hd
    have htc : t ∉ c ++ [last] := R.notMem hfirst htb
    have htl : t ≠ last := fun he => htc (he ▸ by simp)
    have hta : t ≠ fs.super.avail := by
      intro he
      subst he
      exact hnf (R.head harea.ne_zero)
    refine ⟨?_, Nat.le_trans hle h496, hnb ▸ harea, (R.fat_of_ne htl).trans hf,
      R.unlinked hfirst hta, fun h => (R.onChain_iff.mp h).elim htc hnf⟩
    rw [hlen]
    split
    · exact hmod
    · exact h16
  · obtain ⟨hd, htb⟩ := hdir ht
    obtain ⟨-, hle⟩ := F.dir_length P hs hne hdisk hnew hd htb
    have hi' : i < (header fs.dev t).length / 16 := by omega
    obtain ⟨harea, h⟩ := P.named t i hd hi'
    rw [F.dir_entryStart P hd hi', hnb]
    refine ⟨harea, ?_⟩
    rcases h with h | h
    · exact .inl (R.onChain_iff.mpr (.inr h))
    · rcases Nat.decEq (entryStart fs t i) fs.super.avail with hna | heq
      · exact .inr (R.unlinked h hna)
      · refine .inl (R.onChain_iff.mpr (.inr ?_))
        rw [heq]
        exact R.head (heq ▸ harea.ne_zero)

end

/-! ## Reading the device -/

/-- The chain of a directory is its first block. -/
theorem Proper.remount (P : Proper fs) (hc : Fat439.create fs.dev = some fs')
    (hfat : fs'.fat = fs.fat) (hsuper : fs'.super = fs.super) (hdev : fs'.dev = fs.dev) :
    Remount fs := by
  have hdir : ∀ s, Dir fs' s → Dir fs s := by
    intro s hs
    induction hs with
    | root => rw [hsuper]; exact .root
    | @entry u j _ hj htype ih =>
      have he : entryStart fs' u j = entryStart fs u j := by
        rw [entryStart, entryStart, Fat439Directory.entryAddr, Fat439Directory.entryAddr,
          hfat, hdev]
      rw [hdev] at hj htype
      rw [he] at htype ⊢
      exact .entry ih hj htype
  refine ⟨fs', hc, hfat, hsuper, fun s x hs hx hfree => ?_⟩
  obtain ⟨-, -, harea, hf, -, hnf⟩ := P.dir s (hdir s hs)
  have hself : Linked fs'.fat 0 s [s] := ⟨rfl, harea.ne_zero, by rw [hfat, hf]; rfl⟩
  have hxs := (onChain_iff hself).mp hx
  rw [List.mem_singleton] at hxs
  subst hxs
  rw [OnChain, hfat, hsuper] at hfree
  exact hnf hfree

/-- What `sync` wrote is what a new `Fat439` reads. -/
theorem Proper.remount_sync (P : Proper fs.sync) : Remount fs.sync := by
  have hn : fs.super.nBlocks ≤ 0x800000 := P.size
  have harea : ∀ {x}, x = 0 ∨ InArea fs.super.nBlocks x → x < 0x100000000 := by
    rintro x (rfl | hx)
    · omega
    · have := hx.2
      omega
  have havail : fs.super.avail = 0 ∨ InArea fs.super.nBlocks fs.super.avail := by
    rcases Nat.eq_zero_or_pos fs.super.avail with h0 | hpos
    · exact .inl h0
    · exact .inr (P.avail_inArea (Nat.pos_iff_ne_zero.mp hpos))
  have hroot : InArea fs.super.nBlocks fs.super.root := P.root
  have hmagic : fs.super.magic = 0x39333446 := P.magic
  have hsuper : superAt fs.sync.dev = fs.super := by
    rw [Fat439.sync_dev hn]
    refine superAt_put fun x hx => ?_
    simp only [Super.words, List.mem_cons, List.not_mem_nil, or_false] at hx
    rcases hx with rfl | rfl | rfl | rfl
    · rw [hmagic]; decide
    · omega
    · exact harea havail
    · exact harea (.inr hroot)
  have hmagic' : (superAt fs.sync.dev).magic = 0x39333446 := by rw [hsuper]; exact hmagic
  have hcreate := Fat439.create_eq hmagic' (by rw [hsuper]; exact hn)
  refine P.remount hcreate ?_ hsuper rfl
  funext i
  dsimp only
  rw [hsuper]
  split
  next hi =>
    have hlen : i < ((List.range fs.super.nBlocks).map fs.fat).length := by simpa using hi
    have hval : ((List.range fs.super.nBlocks).map fs.fat)[i] = fs.fat i := by simp
    rw [Fat439.sync_dev hn, word_put_of_disjoint (.inr (by rw [Super.bytes_length]; omega)),
      word_put_words hlen (by rw [hval]; exact harea (P.area i)), hval]
    rfl
  next hi => exact (P.out i fun h => hi h.2).symm

/-! ## Runs -/

/-- The types of the cached headers are those of words. -/
def Typed (fs : Fat439) : Prop := ∀ b o, fs.openFiles b = some o → o.metaData.type < 0x100000000

theorem Typed.fileAt (T : Typed fs) : (fs.metaData b).type < 0x100000000 := by
  cases ho : fs.openFiles b with
  | some o => rw [Fat439.metaData_of_some ho]; exact T b o ho
  | none =>
    rw [Fat439.metaData, Fat439.fileAt, ho]
    refine Nat.lt_of_lt_of_le (decodeLE_lt _) (Nat.pow_le_pow_right (by omega) ?_ : _ ≤ 256 ^ 4)
    rw [List.length_take]
    omega

theorem Typed.congr (T : Typed fs) (h : fs'.openFiles = fs.openFiles) : Typed fs' :=
  fun b o ho => T b o (by rwa [h] at ho)

theorem Typed.openFile (T : Typed fs) : Typed (fs.openFile x) := by
  intro b o ho
  rcases Nat.decEq b x with hne | rfl
  · rw [Fat439.openFile_of_ne _ hne] at ho
    exact T b o ho
  · rw [Fat439.openFile_self] at ho
    cases ho
    exact T.fileAt

theorem Typed.closeFile (T : Typed fs) : Typed (fs.closeFile x) := by
  intro b o ho
  obtain ⟨p, hp, hmeta⟩ := Fat439.closeFile_some ho
  rw [hmeta]
  exact T b p hp

theorem Typed.resize (T : Typed fs) : Typed (OpenFile.resize fs x newsz) := by
  intro b o ho
  rcases Nat.decEq b x with hne | rfl
  · rw [OpenFile.resize_openFiles_of_ne hne] at ho
    exact T b o ho
  · rw [OpenFile.resize_openFiles_self] at ho
    cases ho
    exact T.fileAt

theorem Typed.effect (T : Typed m.fs) (h : Effect m op m') : Typed m'.fs := by
  cases h with
  | same => exact T
  | opened => exact T.openFile
  | openedFile => exact T.openFile
  | openedDir => exact T.openFile
  | closedFile => exact T.closeFile
  | closedDir => exact T
  | made _ _ _ _ happ =>
    obtain ⟨fs₁, newsz, h₁, h₂⟩ := OpenFile.append_resize
      (by rw [Fat439Directory.newEntry_length]; omega) happ
    refine Typed.congr (Typed.resize (Typed.congr T ?_)) h₂
    exact h₁.trans Fat439.remNextAvail_openFiles
  | @freed i d _ _ _ fs₁ fs₂ _ _ _ _ hrem hadd =>
    obtain ⟨fs₀, newsz, h₁, h₂, -⟩ := OpenFile.remFromOffset_resize hrem
    obtain ⟨last, -, h₃⟩ := Fat439.addAvailBlk_eq hadd
    have hres : Typed (OpenFile.resize fs₀ d.start newsz) := Typed.resize (T.openFile.congr h₁)
    have hzero : Typed (OpenFile.resize fs₁ (m.target op) 0) := Typed.resize (hres.congr h₂)
    exact hzero.congr (by rw [h₃]; rfl)

theorem dir_cases (hs : Dir fs s) : s = fs.super.root ∨ (header fs.dev s).type = TYPE_DIR := by
  cases hs with
  | root => exact .inl rfl
  | entry _ _ htype => exact .inr htype

/-- A clean removal. -/
theorem Proper.removed (P : Proper fs) (hT : Typed fs) (R : Releases fs d entry name)
    (h0 : d.lookup fs entry name ≠ 0)
    (hobj : ¬((fs.metaData (d.lookup fs entry name)).type = TYPE_DIR ∧
      (fs.metaData (d.lookup fs entry name)).length ≠ 0))
    (hrem : OpenFile.remFromOffset (fs.openFile (d.lookup fs entry name)) d.start
      (d.lookupEntry (fs.openFile (d.lookup fs entry name)) entry' name * 16 + 16).toNat 16 =
        (.ret 0, fs₁))
    (hadd : (OpenFile.resize fs₁ (d.lookup fs entry name) 0).addAvailBlk (d.lookup fs entry name) =
      some fs₂) : Proper fs₂.sync := by
  obtain ⟨h16, h496, harea, -⟩ := P.dir d.start R.dir
  obtain ⟨k, hk, hsearch⟩ := R.found
  have hmeta := R.metaData
  have hlen := R.length
  have hidx := search_idxOf hsearch
  have hblk := search_entryStart hsearch (by rwa [hmeta]) (by rw [hmeta]; omega)
  rw [Fat439Directory.lookupEntry_openFile, lookupEntry_eq R.dot R.dots h0 (by rw [hmeta]; omega),
    show ((name.idxOf 0 : Int) * 16 + 16).toNat = name.idxOf 0 * 16 + 16 by omega] at hrem
  have hfs₁ : fs₁ = (OpenFile.resize (fs.openFile (d.lookup fs entry name)) d.start
      (name.idxOf 0 * 16 + 16)).unlock := by
    rcases remFromOffset_ret (by rw [Fat439.metaData_openFile, hmeta]; omega) hrem
      with ⟨h1, -⟩ | ⟨-, -, h⟩
    · rw [Fat439.metaData_openFile, hmeta] at h1
      omega
    · rwa [w32_of_lt (by omega)] at h
  have hb : InArea fs.super.nBlocks (d.lookup fs entry name) := hblk ▸ (P.named _ k R.dir hk).1
  -- the directory itself is not empty
  have hne : d.lookup fs entry name ≠ d.start := by
    intro he
    rcases R.gone with h | h
    · exact h.2 (he ▸ R.dir)
    · rcases dir_cases R.dir with hroot | htype
      · exact h.1 (he.trans hroot)
      · exact hobj ⟨by rw [he, hmeta, htype], by rw [he, hmeta]; omega⟩
  have F := freed_of_removed (hfs₁ ▸ hadd) P.size (Nat.lt_of_lt_of_le harea.2 P.size) h0
    (Nat.lt_of_lt_of_le hb.2 P.size) hne
  refine P.freed R.dir hk hblk hne hmeta hlen (by omega) R.free ?_ F
  refine R.gone.imp (fun h => ⟨?_, h.2⟩) fun h => ⟨h.1, fun t i ht hi => h.2 t i ht ?_⟩
  · rw [F.header_type hb hT.fileAt]
    exact h.1
  · rwa [show name.idxOf 0 + 1 = (name.idxOf 0 * 16 + 16) / 16 by omega]

theorem Proper.openFiles (P : Proper fs) {p : Nat → Option OpenFile} :
    Proper { fs with openFiles := p } := by
  have hdir : ∀ s, Dir { fs with openFiles := p } s ↔ Dir fs s := fun s => dir_openFiles
  exact ⟨P.size, P.magic, P.root, P.out, P.area, P.inj, P.avail, P.first,
    fun s hs => P.dir s ((hdir s).mp hs), fun s i hs => P.named s i ((hdir s).mp hs)⟩

theorem lookupEntry_ge : -1 ≤ d.lookupEntry fs entry name := by
  rw [Fat439Directory.lookupEntry]
  split
  · decide
  split
  · decide
  cases Fat439Directory.search fs d name d.entries 0 entry with
  | none => exact Int.le_refl (-1)
  | some r => exact Int.le_trans (by decide : (-1 : Int) ≤ 0) (Int.natCast_nonneg (name.idxOf 0))

/-- A removal that is not stopped frees the blocks. -/
theorem Stops.freed {o : Outcome} {d' : Fat439Directory} (hs : ¬Stops fs d entry entry' name)
    (h : d.remove fs entry entry' name = some (o, d', fs')) :
    d.lookup fs entry name ≠ 0 ∧ ∃ fs₁ fs₂,
      OpenFile.remFromOffset (fs.openFile (d.lookup fs entry name)) d.start
        (d.lookupEntry (fs.openFile (d.lookup fs entry name)) entry' name * 16 + 16).toNat 16 =
          (.ret 0, fs₁) ∧
      (OpenFile.resize fs₁ (d.lookup fs entry name) 0).addAvailBlk (d.lookup fs entry name) =
        some fs₂ ∧ fs' = fs₂.sync := by
  simp only [Stops, not_or] at hs
  obtain ⟨h0, hobj, hlen⟩ := hs
  have hge : -1 ≤ d.lookupEntry (fs.openFile (d.lookup fs entry name)) entry' name :=
    lookupEntry_ge
  rw [Fat439Directory.remove] at h
  dsimp only at h
  rw [if_neg h0, Fat439.metaData_openFile, if_neg hobj, if_neg (by omega)] at h
  split at h
  next fs₁ hrem =>
    -- it would be killed
    rw [OpenFile.remFromOffset] at hrem
    dsimp only at hrem
    rw [Fat439.metaData_openFile, Fat439Directory.lookupEntry_openFile] at hrem
    split at hrem
    · cases hrem
    split at hrem
    · cases hrem
    split at hrem
    · exact absurd ⟨by omega, by omega, by assumption⟩ hlen
    · cases hrem
  next c fs₁ hrem =>
    obtain rfl : c = 0 := by
      rcases OpenFile.remFromOffset_code hrem with ⟨hc, -⟩ | hc
      · cases hc
      · exact Outcome.ret.inj hc
    rw [if_pos (by simp)] at h
    obtain ⟨fs₂, hadd, h⟩ := Option.bind_eq_some_iff.mp h
    cases h
    exact ⟨h0, fs₁, fs₂, hrem, hadd, rfl⟩

/-- A clean step that frees blocks saves the FAT. -/
theorem Proper.step (P : Proper m.fs) (hT : Typed m.fs) (hc : AllOpen m) (hk : Clean m op)
    (h : Step m op m') : Proper m'.fs := by
  cases h.effect with
  | same => exact P
  | opened => exact P.openFiles
  | openedFile => exact P.openFiles
  | openedDir => exact P.openFiles
  | closedFile => exact P.openFiles
  | closedDir => exact P
  | @made i d entry entry' name success fs' hop hd herr hav happ =>
    subst hop
    obtain ⟨hdir, hdisk, hroom⟩ := hk d hd herr hav
    obtain ⟨o, ho⟩ := hc.isOpen (List.mem_of_getElem? hd)
    have hb := Nat.lt_of_lt_of_le (P.avail_inArea hav).2 P.size
    rw [hdisk] at hroom
    have hM := made_of_room ho ((Fat439.metaData_of_some ho).symm.trans hdisk) hav
      (P.flat.ne_avail _ hdir hav) (P.flat.lt _ hdir) hb Fat439Directory.newEntry_length hroom happ
    exact P.made hdir hav rfl hroom hM.2.1 (newEntry_start (by omega))
  | @freed i d entry entry' name fs₁ fs₂ hop hd h0 hobj hrem hadd =>
    subst hop
    have ht : m.target (.remove i entry entry' name) = d.lookup m.fs entry name := by
      rw [Mount.target, hd]; rfl
    rw [ht] at h0 hobj hrem hadd
    rcases hk d hd with hs | R
    · exact absurd hrem (hs.not_freed h0 hobj)
    · exact P.removed hT R h0 hobj hrem hadd

/-- What a removal leaves is on the device. -/
theorem Proper.remount_freed (P : Proper m'.fs) (hf : Frees m op) (h : Step m op m') :
    Remount m'.fs := by
  cases op with
  | remove i entry entry' name =>
    obtain ⟨d, hd, hs⟩ := hf
    obtain ⟨r, h⟩ := h
    obtain ⟨d', hd', h⟩ := Option.bind_eq_some_iff.mp h
    obtain rfl : d = d' := Option.some.inj (hd.symm.trans hd')
    obtain ⟨⟨o, d', fs'⟩, hrem, h⟩ := Option.bind_eq_some_iff.mp h
    obtain ⟨-, fs₁, fs₂, -, -, rfl⟩ := Stops.freed hs hrem
    cases h
    exact P.remount_sync
  | _ => exact hf.elim

/-- A step that neither takes nor frees a block. -/
theorem Step.unchanged (ht : ¬Takes m op) (hf : ¬Frees m op) (h : Step m op m') :
    m'.fs.dev = m.fs.dev ∧ m'.fs.fat = m.fs.fat ∧ m'.fs.super = m.fs.super := by
  cases h.effect with
  | same => exact ⟨rfl, rfl, rfl⟩
  | opened => exact ⟨rfl, rfl, rfl⟩
  | openedFile => exact ⟨rfl, rfl, rfl⟩
  | openedDir => exact ⟨rfl, rfl, rfl⟩
  | closedFile => exact ⟨rfl, rfl, rfl⟩
  | closedDir => exact ⟨rfl, rfl, rfl⟩
  | @made i d entry entry' name success fs' hop hd herr hav happ =>
    subst hop
    exact absurd ⟨hav, d, hd, herr⟩ ht
  | @freed i d entry entry' name fs₁ fs₂ hop hd h0 hobj hrem hadd =>
    subst hop
    have hlook : m.target (.remove i entry entry' name) = d.lookup m.fs entry name := by
      rw [Mount.target, hd]; rfl
    rw [hlook] at h0 hobj hrem
    exact absurd ⟨d, hd, fun hs => hs.not_freed h0 hobj hrem⟩ hf

/-- When the last call that takes or frees blocks is a removal, in a run of clean calls up to there,
a new mount finds what is in memory. -/
theorem remount_same {files : List HostFile} {m₁ : Mount} {ops' : List Op} (hn : n ≤ 0x800000)
    (hroom : 1 + fatBlocks n < n) (h31 : files.length ≤ 31) (hm : Mounted n files m)
    (hr : m₁ = m ∨ ∃ ops m₀ op, Run (Run.Within Step Clean) m ops m₀ ∧ Clean m₀ op ∧
      Frees m₀ op ∧ Step m₀ op m₁)
    (hq : Run (Run.Within Step fun m op => ¬Takes m op ∧ ¬Frees m op) m₁ ops' m') :
    Remount m'.fs := by
  have hc : AllOpen m := by
    obtain ⟨img, -, hmount⟩ := hm
    exact mount_allOpen hmount
  obtain ⟨img, cs, free, B, rfl, rfl⟩ := hm.built hn hroom h31
  have P : Proper img.toFs := (B.tree hn h31).proper rfl fun x hx => B.layout.out x hx
  have hT : Typed img.toFs := nofun
  have hstart : Remount m₁.fs := by
    rcases hr with rfl | ⟨ops, m₀, op, hrun, hclean, hfrees, hstep⟩
    · exact P.openFiles.remount (B.layout.create_toDev hn) rfl rfl rfl
    · obtain ⟨P₀, hT₀, hc₀⟩ :=
        hrun.inv_of (I := fun m => Proper m.fs ∧ Typed m.fs ∧ AllOpen m)
        (fun s op t hI hk hs => ⟨hI.1.step hI.2.1 hI.2.2 hk hs, hI.2.1.effect hs.effect,
          hI.2.2.effect hs.effect⟩) ⟨P.openFiles, hT.openFile, hc⟩
      exact (P₀.step hT₀ hc₀ hclean hstep).remount_freed hfrees hstep
  refine hq.inv_of (I := fun m => Remount m.fs) (fun s op t hI hk hs => ?_) hstart
  obtain ⟨hdev, hfat, hsuper⟩ := hs.unchanged hk.1 hk.2
  rw [Remount, hdev, hfat, hsuper]
  exact hI

/-- `remove("c")` through the root directory of `abcMount`. -/
def removeC : Op := .remove 0 (fun _ => 0) (fun _ => 0) [0x63]

theorem removeC_isSome : (abcMount.step removeC).isSome = true := by decide +kernel

theorem remount_same_remove : ∃ m', Step abcMount removeC m' ∧ Remount m'.fs := by
  obtain ⟨cs, free, B, -⟩ := mkfs_built (by decide) (by decide) (by decide) mkfs_abcImage
  have hdirs : abcMount.dirs[0]? = some ⟨7, 3⟩ := by decide
  have hlook : Fat439Directory.lookup abcMount.fs ⟨7, 3⟩ (fun _ => 0) [0x63] = 4 := by decide
  have htype : (abcMount.fs.metaData 4).type = TYPE_FILE := by decide +kernel
  have hmeta : abcMount.fs.metaData 7 = header abcMount.fs.dev 7 := by decide +kernel
  have hlen : (header abcMount.fs.dev 7).length = 48 := by decide +kernel
  have hidx : List.idxOf 0 ([0x63] : List UInt8) = 1 := by decide
  have hfrees : Frees abcMount removeC := by
    refine ⟨⟨7, 3⟩, hdirs, ?_⟩
    rintro (h | ⟨h, -⟩ | ⟨-, h, -⟩)
    · rw [hlook] at h
      exact absurd h (by decide)
    · rw [hlook, htype] at h
      exact absurd h (by decide)
    · rw [hmeta, hlen] at h
      exact absurd h (by decide)
  have hclean : Clean abcMount removeC := by
    intro d hd
    obtain rfl : ⟨7, 3⟩ = d := Option.some.inj (hdirs.symm.trans hd)
    have hroot : Dir abcMount.fs 7 := by
      have h : Dir abcMount.fs abcMount.fs.super.root := .root
      rwa [show abcMount.fs.super.root = 7 by decide] at h
    have hdir : ¬Dir abcMount.fs 4 := fun h =>
      absurd (B.dir_root (by decide) (by decide) (dir_openFiles.mp h)) (by decide)
    have hfree : ¬OnChain abcMount.fs abcMount.fs.super.avail 4 := by
      have hchain : Linked abcMount.fs.fat 0 abcMount.fs.super.avail [3, 2] := by
        simp only [Linked]
        decide
      rw [onChain_iff hchain]
      decide
    refine .inr ⟨hroot, hmeta, by decide, by decide, ⟨2, ?_, by decide⟩, ?_,
      hlook.symm ▸ hfree, .inl ⟨?_, hlook.symm ▸ hdir⟩⟩
    · rw [hlen]; decide
    · rw [hlen, hidx]; decide
    · rw [hlook, htype]; decide
  have hstep := Step.of_isSome removeC_isSome
  exact ⟨_, hstep, remount_same (by decide) (by decide) (by decide) mounted_abcMount
    (.inr ⟨[], abcMount, removeC, .nil, hclean, hfrees, hstep⟩) .nil⟩

/-- `mkdir("b")` through the root directory of `byteMount`. -/
def makeB : Op := .mkdir 0 (fun _ => 0) (fun _ => 0) [0x62]

theorem makeB_isSome : (byteMount.step makeB).isSome = true := by decide +kernel

/-- The block of a directory that was made is free for a new mount. -/
theorem remount_differs :
    Mounted 8 [byteFile] byteMount ∧ ∃ m', byteMount.step makeB = some (.ret 0, m') ∧
    ¬Remount m'.fs := by
  obtain ⟨⟨r, m'⟩, hm'⟩ := Option.isSome_iff_exists.mp makeB_isSome
  have hret : (byteMount.step makeB).map (·.1) = some (.ret 0) := by decide +kernel
  have hmem : (byteMount.step makeB).map (·.2.fs.super.avail) = some 4 := by decide +kernel
  have hdisk :
      (byteMount.step makeB).map (fun r => (Fat439.create r.2.fs.dev).map (·.super.avail)) =
      some (some 5) := by decide +kernel
  rw [hm'] at hret hmem hdisk
  cases hret
  refine ⟨mounted_byteMount, m', hm', ?_⟩
  rintro ⟨fs', hc, -, hsuper, -⟩
  have h5 : (Fat439.create m'.fs.dev).map (·.super.avail) = some 5 := Option.some.inj hdisk
  rw [hc, Option.map_some, hsuper] at h5
  exact absurd ((Option.some.inj hmem).symm.trans (Option.some.inj h5)) (by decide)

end

end K439.Fs
