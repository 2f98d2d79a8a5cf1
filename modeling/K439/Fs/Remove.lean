import K439.Fs.Calls

/-!
# Removing an entry

`Fat439Directory::remove` frees the blocks of the object and gives the directory a new length, which
`lookupEntry` computes from the length of the name and not from the place of the entry. It is the
right one when the entry is the last one and there are two entries more than the name has
characters.
-/

namespace K439.Fs

/-! ## Headers -/

section

variable {dev : Dev} {x y b i off n : Nat} {h : MetaData} {l : List UInt8}

theorem header_put_ne (hx : b ≠ x) : header (put dev (x * 512) h.bytes) b = header dev b :=
  header_congr fun _ hi => put_block_start_ne hx (by omega) (by simp)

/-- What is behind the header of a block. -/
theorem header_put_behind (h16 : 16 ≤ off) (hl : off + l.length ≤ 512) :
    header (put dev (x * 512 + off) l) b = header dev b := by
  refine header_congr fun i hi => ?_
  rcases Nat.decEq b x with hne | rfl
  · exact put_block_ne hne (by omega) hl
  · exact put_of_lt (by omega)

/-- The FAT and the superblock are not in the area. -/
theorem header_put_sync {s : Super} {fat : Nat → Nat} (hb : InArea n b) :
    header (put (put dev 512 (((List.range n).map fat).flatMap le32)) 0 s.bytes) b =
    header dev b := by
  have h1 := hb.1
  rw [fatBlocks] at h1
  refine header_congr fun i hi => ?_
  rw [put_of_le (by rw [Super.bytes_length]; omega),
    put_of_le (by rw [words_length, List.length_map, List.length_range]; omega)]

theorem put_header_behind (h16 : 16 ≤ i) (hi : i < 512) :
    put dev (y * 512) h.bytes (x * 512 + i) = dev (x * 512 + i) := by
  rcases Nat.decEq x y with hne | rfl
  · exact put_block_start_ne hne hi (by simp)
  · exact put_of_le (by rw [MetaData.bytes_length]; omega)

theorem header_put_type (ht : h.type < 0x100000000) :
    (header (put dev (b * 512) h.bytes) b).type = h.type := by
  rw [MetaData.bytes, MetaData.words, List.flatMap_cons]
  exact word_put ht

theorem MetaData.words_lt {k : Nat} (hw : ∀ x ∈ h.words, x < 0x100000000)
    (hk : k < 0x100000000) : ∀ x ∈ ({ h with length := k } : MetaData).words, x <
    0x100000000 := by
  simp only [MetaData.words, List.mem_cons, List.not_mem_nil, or_false, forall_eq_or_imp,
    forall_eq] at hw ⊢
  exact ⟨hw.1, hk, hw.2.2⟩

theorem InArea.ne_zero (h : InArea n x) : x ≠ 0 := by
  have := h.1
  omega

/-- The area begins behind the FAT. -/
theorem InArea.fat_le (h : InArea n x) : 512 + 4 * n ≤ x * 512 := by
  have h1 := h.1
  rw [fatBlocks] at h1
  omega

end

variable {fs fs' fs₁ fs₂ : Fat439} {d d' : Fat439Directory} {entry entry' : Nat → UInt8}
  {name : List UInt8} {code : Int} {start off s blk newsz n b x i k : Nat}

/-! ## What a removal does -/

/-- How `remFromOffset` returns when the length is that of a string address below `0x1000`. -/
theorem remFromOffset_ret (hL : (fs.metaData start).length < 0x1000)
    (h : OpenFile.remFromOffset fs start off n = (.ret code, fs')) :
    n > (fs.metaData start).length ∧ fs' = (OpenFile.resize fs start 0).unlock ∨
      n ≤ (fs.metaData start).length ∧ (fs.metaData start).length ≤ w32 (n + off) ∧
        fs' = (OpenFile.resize fs start (w32 off)).unlock := by
  unfold OpenFile.remFromOffset at h
  dsimp only at h
  split at h
  next h1 => exact .inl ⟨h1, (Prod.ext_iff.mp h).2.symm⟩
  next h1 =>
    split at h
    next h2 => exact .inr ⟨Nat.le_of_not_gt h1, h2, (Prod.ext_iff.mp h).2.symm⟩
    next h2 =>
      cases h

theorem lastBlk_linked {last fuel : Nat} (h : fs.lastBlk fuel b = some last) (hb : b ≠ 0) :
    ∃ c, Linked fs.fat 0 b (c ++ [last]) := by
  induction fuel generalizing b with
  | zero => cases h
  | succ fuel ih =>
    rw [Fat439.lastBlk] at h
    split at h
    next h0 =>
      obtain ⟨c, hc⟩ := ih h h0
      exact ⟨b :: c, rfl, hb, hc⟩
    next h0 =>
      cases h
      exact ⟨[], rfl, hb, not_not.mp h0⟩

theorem lastBlk_of_linked {last fuel : Nat} {c : List Nat} (h : Linked fs.fat 0 b (c ++ [last]))
    (hf : c.length < fuel) : fs.lastBlk fuel b = some last := by
  induction fuel generalizing b c with
  | zero => cases hf
  | succ fuel ih =>
    rw [Fat439.lastBlk]
    cases c with
    | nil =>
      obtain ⟨rfl, -, h⟩ := h
      exact if_neg (not_not.mpr h)
    | cons y c =>
      obtain ⟨rfl, -, h⟩ := h
      have hne : fs.fat b ≠ 0 := fun h0 => by
        have := h.eq_nil_iff.mp h0
        simp at this
      rw [if_pos hne]
      exact ih h (Nat.lt_of_succ_lt_succ hf)

/-- The blocks from `blk` on became free, and the directory `s` has `newsz` bytes. -/
structure Freed (fs : Fat439) (s blk newsz : Nat) (fs' : Fat439) : Prop where
  super : fs'.super = { fs.super with avail := blk }
  fat : ∃ c last, Linked fs.fat 0 blk (c ++ [last]) ∧
    fs'.fat = Function.update fs.fat last fs.super.avail
  openFiles : fs'.openFiles =
    (OpenFile.resize (OpenFile.resize (fs.openFile blk) s newsz).unlock blk 0).openFiles
  dev : ∀ a, 512 + 4 * fs.super.nBlocks ≤ a → fs'.dev a =
    put (put fs.dev (s * 512) (MetaData.bytes { fs.metaData s with length := newsz })) (blk * 512)
      (MetaData.bytes { fs.metaData blk with length := 0 }) a

theorem freed_of_removed
    (hadd : (OpenFile.resize (OpenFile.resize (fs.openFile blk) s newsz).unlock blk 0).addAvailBlk
      blk = some fs₂)
    (hn : fs.super.nBlocks ≤ 0x800000) (hs : s < 0x800000) (hb0 : blk ≠ 0) (hb : blk < 0x800000)
    (hne : blk ≠ s) : Freed fs s blk newsz fs₂.sync := by
  obtain ⟨last, hlast, hfs₂⟩ := Fat439.addAvailBlk_eq hadd
  obtain ⟨c, hc⟩ := lastBlk_linked hlast hb0
  have hnb : fs₂.super.nBlocks = fs.super.nBlocks := by rw [hfs₂]; rfl
  have hmeta : (OpenFile.resize (fs.openFile blk) s newsz).unlock.metaData blk =
      fs.metaData blk := by
    have hopen : (OpenFile.resize (fs.openFile blk) s newsz).unlock.openFiles blk = _ :=
      (OpenFile.resize_openFiles_of_ne hne).trans (Fat439.openFile_self ..)
    rw [Fat439.metaData_of_some hopen, Fat439.metaData]
  have hdev : fs₂.dev =
      put (put fs.dev (s * 512) (MetaData.bytes { fs.metaData s with length := newsz }))
      (blk * 512) (MetaData.bytes { fs.metaData blk with length := 0 }) := by
    rw [hfs₂]
    dsimp only
    rw [OpenFile.resize_dev, hmeta, w32_of_lt (by omega)]
    have h1 : (OpenFile.resize (fs.openFile blk) s newsz).unlock.dev = _ := OpenFile.resize_dev
    rw [h1, Fat439.metaData_openFile, w32_of_lt (by omega)]
    rfl
  have hfat : fs₂.sync.fat = Function.update fs.fat last fs.super.avail := by rw [hfs₂]; rfl
  refine ⟨by rw [Fat439.sync, hfs₂]; rfl, ⟨c, last, hc, hfat⟩, by rw [hfs₂]; rfl,
    fun a ha => ?_⟩
  rw [Fat439.sync_dev (hnb ▸ hn), hnb, put_of_le (by rw [Super.bytes_length]; omega),
    put_of_le (by rw [words_length, List.length_map, List.length_range]; omega), hdev]

namespace Freed

variable (F : Freed fs s blk newsz fs')
include F

/-- What is not in a header stays. -/
theorem frame (hx : InArea fs.super.nBlocks x) (h16 : 16 ≤ i) (hi : i < 512) :
    fs'.dev (x * 512 + i) = fs.dev (x * 512 + i) := by
  rw [F.dev _ (Nat.le_trans hx.fat_le (Nat.le_add_right ..)), put_header_behind h16 hi,
    put_header_behind h16 hi]

theorem header_eq (hx : InArea fs.super.nBlocks x) : header fs'.dev x =
    header (put (put fs.dev (s * 512) (MetaData.bytes { fs.metaData s with length := newsz }))
      (blk * 512) (MetaData.bytes { fs.metaData blk with length := 0 })) x :=
  header_congr fun _ _ => F.dev _ (Nat.le_trans hx.fat_le (Nat.le_add_right ..))

theorem header_of_ne (hx : InArea fs.super.nBlocks x) (hs : x ≠ s) (hb : x ≠ blk) :
    header fs'.dev x = header fs.dev x := by
  rw [F.header_eq hx, header_put_ne hb, header_put_ne hs]

theorem header_self (hs : InArea fs.super.nBlocks s) (hne : blk ≠ s)
    (hdisk : fs.metaData s = header fs.dev s) (hnew : newsz < 0x100000000) :
    header fs'.dev s = { header fs.dev s with length := newsz } := by
  rw [F.header_eq hs, header_put_ne hne.symm, hdisk,
    header_put (MetaData.words_lt header_words_lt hnew)]

theorem header_type (hb : InArea fs.super.nBlocks blk) (ht : (fs.metaData blk).type < 0x100000000) :
    (header fs'.dev blk).type = (fs.metaData blk).type := by
  rw [F.header_eq hb]
  exact header_put_type (h := { fs.metaData blk with length := 0 }) ht

theorem header_blk (hb : InArea fs.super.nBlocks blk)
    (hdisk : fs.metaData blk = header fs.dev blk) :
    header fs'.dev blk = { fs.metaData blk with length := 0 } := by
  rw [F.header_eq hb, hdisk, header_put (MetaData.words_lt header_words_lt (by omega))]

theorem metaData_self (hne : blk ≠ s) :
    fs'.metaData s = { fs.metaData s with length := newsz } := by
  have hopen : fs'.openFiles s = some { (fs.openFile blk).fileAt s with
      metaData := { (fs.openFile blk).metaData s with length := newsz } } := by
    rw [F.openFiles, OpenFile.resize_openFiles_of_ne hne.symm]
    exact OpenFile.resize_openFiles_self
  rw [Fat439.metaData_of_some hopen, Fat439.metaData_openFile]

/-- What is open keeps its header, but for the lengths of the two. -/
theorem cached {o : OpenFile} (hne : blk ≠ s) (ho : fs'.openFiles b = some o) :
    o.metaData = (if b = blk then { fs.metaData blk with length := 0 }
      else if b = s then { fs.metaData s with length := newsz } else fs.metaData b) ∧
    (b = blk ∨ b = s ∨ ∃ o, fs.openFiles b = some o) := by
  have hmeta : (OpenFile.resize (fs.openFile blk) s newsz).unlock.metaData blk =
      fs.metaData blk := by
    have hopen : (OpenFile.resize (fs.openFile blk) s newsz).unlock.openFiles blk = _ :=
      (OpenFile.resize_openFiles_of_ne hne).trans (Fat439.openFile_self ..)
    rw [Fat439.metaData_of_some hopen, Fat439.metaData]
  rw [F.openFiles] at ho
  split
  next he =>
    subst he
    rw [OpenFile.resize_openFiles_self, hmeta] at ho
    cases ho
    exact ⟨rfl, .inl rfl⟩
  next hb =>
    rw [OpenFile.resize_openFiles_of_ne hb] at ho
    split
    next he =>
      subst he
      have hself : (OpenFile.resize (fs.openFile blk) b newsz).unlock.openFiles b = _ :=
        OpenFile.resize_openFiles_self
      rw [hself, Fat439.metaData_openFile] at ho
      cases ho
      exact ⟨rfl, .inr (.inl rfl)⟩
    next hs =>
      have hother : (OpenFile.resize (fs.openFile blk) s newsz).unlock.openFiles b = _ :=
        (OpenFile.resize_openFiles_of_ne hs).trans (Fat439.openFile_of_ne _ hb)
      rw [hother] at ho
      exact ⟨(Fat439.metaData_of_some ho).symm, .inr (.inr ⟨o, ho⟩)⟩

end Freed

/-! ## What a removal is to do -/

/-- What `remove(name)` is to do: the entry and no other one is gone, and the blocks of the object
are free. -/
def Removes (fs : Fat439) (d : Fat439Directory) (entry entry' : Nat → UInt8) (name : List UInt8) :
    Prop :=
  ∃ code d' fs', d.remove fs entry entry' name = some (.ret code, d', fs') ∧ 0 ≤ code ∧
    (∀ e, d'.lookup fs' e name = 0) ∧
    (∀ e other, 0 ∉ other → other ≠ name →
      d'.lookup fs' e other = d.lookup fs e other) ∧
    (fs'.metaData d.start).length + 16 = (fs.metaData d.start).length ∧
    ∀ x, OnChain fs (d.lookup fs entry name) x → OnChain fs' fs'.super.avail x

/-- The names of the entries of the directory are pairwise distinct. -/
def NamesDistinct (fs : Fat439) (start : Nat) : Prop :=
  ∀ i j, i < j → j < (fs.metaData start).length / 16 →
    slice fs.dev (Fat439Directory.entryAddr fs start i) 12 ≠
      slice fs.dev (Fat439Directory.entryAddr fs start j) 12

/-- The entry that the search finds is the last one, the directory has two entries more than the
name has characters, and the blocks of the object are not free yet. -/
structure Removable (fs : Fat439) (d : Fat439Directory) (entry : Nat → UInt8)
    (name : List UInt8) :
    Prop where
  length : name.idxOf 0 * 16 + 32 = (fs.metaData d.start).length
  last : (Fat439Directory.search fs d name d.entries 0 entry).map (·.1) =
    some ((fs.metaData d.start).length / 16 - 1)
  chain : ∃ l, Linked fs.fat 0 (d.lookup fs entry name) l
  avail : ∃ l, Linked fs.fat 0 fs.super.avail l
  apart : ∀ x, OnChain fs (d.lookup fs entry name) x → ¬OnChain fs fs.super.avail x

/-- A directory of one block has less than 64 distinct names: two entries at the same place have the
same one. -/
theorem NamesDistinct.length_lt (h : NamesDistinct fs start) (hfat : fs.fat start = 0)
    (h0 : fs.fat 0 = 0) : (fs.metaData start).length < 1024 := by
  refine Nat.lt_of_not_ge fun hlen => h 31 63 (by omega) (by omega) ?_
  have h31 : Fat439Directory.entryAddr fs start 31 = w32 (0 * 512 + 0) := by
    rw [Fat439Directory.entryAddr, show (31 * 16 + 16) / 512 = 1 by omega,
      Function.iterate_one, hfat]
  have h63 : Fat439Directory.entryAddr fs start 63 = w32 (0 * 512 + 0) := by
    rw [Fat439Directory.entryAddr, show (63 * 16 + 16) / 512 = 1 + 1 by omega,
      Function.iterate_succ_apply, Function.iterate_one, hfat, h0]
  rw [h31, h63]

theorem lookup_ne_zero (hdot : name ≠ [0x2e]) (hdots : name ≠ [0x2e, 0x2e])
    (h0 : d.lookup fs entry name ≠ 0) : ∃ k,
      Fat439Directory.search fs d name d.entries 0 entry = some (k, d.lookup fs entry name) := by
  rw [Fat439Directory.lookup, if_neg hdot, if_neg hdots] at h0 ⊢
  cases hs : Fat439Directory.search fs d name d.entries 0 entry with
  | none => rw [hs] at h0; exact absurd rfl h0
  | some r => exact ⟨r.1, rfl⟩

/-- What is on the stack does not matter when there is an entry. -/
theorem search_stack (h16 : 16 ≤ (fs.metaData d.start).length) :
    Fat439Directory.search fs d name n 0 entry' = Fat439Directory.search fs d name n 0 entry :=
  Fat439Directory.search_junk (.inr (by
    rw [Fat439Directory.readFully_entry (by omega) (by omega), slice_length]))

/-- `lookupEntry` finds an entry when `lookup` does. -/
theorem lookupEntry_eq (hdot : name ≠ [0x2e]) (hdots : name ≠ [0x2e, 0x2e])
    (h0 : d.lookup fs entry name ≠ 0) (h16 : 16 ≤ (fs.metaData d.start).length) :
    d.lookupEntry fs entry' name = name.idxOf 0 := by
  obtain ⟨k, hk⟩ := lookup_ne_zero hdot hdots h0
  rw [Fat439Directory.lookupEntry, if_neg hdot, if_neg hdots, search_stack h16, hk]
  rfl

/-- The zero that ends a name that is found is one of its twelve bytes. -/
theorem search_idxOf (h : Fat439Directory.search fs d name n i entry = some (k, x)) :
    name.idxOf 0 < 12 := by
  induction n generalizing i entry with
  | zero => cases h
  | succ n ih =>
    simp only [Fat439Directory.search] at h
    split at h
    next hs => exact sameName_idxOf hs
    next => exact ih h

/-- The entries of a short directory lie in its first block, and a removal leaves them there. -/
theorem Freed.search_eq (F : Freed fs s blk newsz fs') (hne : blk ≠ d.start) (hs : s = d.start)
    (harea : InArea fs.super.nBlocks d.start) (hn : fs.super.nBlocks ≤ 0x800000)
    (hL : (fs.metaData d.start).length ≤ 496) (hnew : newsz ≤ (fs.metaData d.start).length)
    (hk : k ≤ newsz / 16) (hs' : d'.start = d.start) :
    Fat439Directory.search fs' d' name k 0 entry' = Fat439Directory.search fs d name k 0 entry := by
  have hlt := Nat.lt_of_lt_of_le harea.2 hn
  have hlen : (fs'.metaData d.start).length = newsz := by
    rw [← hs, F.metaData_self (hs ▸ hne)]
  have haddr : ∀ fs : Fat439, ∀ j < 31,
      Fat439Directory.entryAddr fs d.start j = d.start * 512 + (16 + j * 16) := fun fs j hj =>
    Fat439Directory.entryAddr_of_lt hj hlt
  have hbytes : ∀ j < 31, ∀ o < 16, fs'.dev (d.start * 512 + (16 + j * 16) + o) =
      fs.dev (d.start * 512 + (16 + j * 16) + o) := fun j hj o ho => by
    rw [Nat.add_assoc]
    exact F.frame harea (by omega) (by omega)
  refine Fat439Directory.search_agree hs'
    (fun j _ hj => Fat439Directory.readFully_entry (by omega) (by omega))
    (fun j _ hj => Fat439Directory.readFully_entry (by omega) (by omega)) (fun j _ hj => ?_)
    (fun j _ hj => ?_)
  · rw [haddr _ j (by omega), haddr _ j (by omega)]
    exact sameName_congr fun o _ ho => hbytes j (by omega) o (by omega)
  · rw [haddr _ j (by omega), haddr _ j (by omega)]
    exact congrArg decodeLE (slice_congr fun o ho => by
      rw [Nat.add_assoc]; exact hbytes j (by omega) _ (by omega))

/-- The lengths after a removal that ends. -/
theorem removed_length (hrem : fs₁ = (OpenFile.resize (fs.openFile blk) s newsz).unlock)
    (hadd : (OpenFile.resize fs₁ blk 0).addAvailBlk blk = some fs₂) :
    (fs₂.sync.metaData s).length = if blk = s then 0 else newsz := by
  obtain ⟨last, -, hfs₂⟩ := Fat439.addAvailBlk_eq hadd
  have hopen : fs₂.sync.openFiles = (OpenFile.resize fs₁ blk 0).openFiles := by rw [hfs₂]; rfl
  split
  next he =>
    subst he
    rw [Fat439.metaData_of_some (by rw [hopen]; exact OpenFile.resize_openFiles_self)]
  next hne =>
    have hself : fs₁.openFiles s = some { (fs.openFile blk).fileAt s with
        metaData := { (fs.openFile blk).metaData s with length := newsz } } := by
      rw [hrem]
      exact OpenFile.resize_openFiles_self
    rw [Fat439.metaData_of_some (by
      rw [hopen, OpenFile.resize_openFiles_of_ne (Ne.symm hne)]; exact hself)]

section

variable (hdir : (fs.metaData d.start).type = TYPE_DIR) (hstart : InArea fs.super.nBlocks d.start)
  (hn : fs.super.nBlocks ≤ 0x800000) (hL : (fs.metaData d.start).length < 0x1000)
  (hfats : ∀ x, fs.fat x < fs.super.nBlocks) (hblk : d.lookup fs entry name < fs.super.nBlocks)
  (hent : d.entries < 0x10000000)
  (hdot : name ≠ [0x2e]) (hdots : name ≠ [0x2e, 0x2e]) (h0 : d.lookup fs entry name ≠ 0)

include hdir hstart hn hL hblk hent hdot hdots in
theorem Removes.removable (h : Removes fs d entry entry' name) : Removable fs d entry name := by
  obtain ⟨code, d', fs', h, hc, hgone, -, hlen, hfree⟩ := h
  rcases Fat439Directory.remove_cases h with ⟨-, rfl⟩ | ⟨h0, h⟩
  · omega
  rcases h with ⟨-, rfl⟩ | ⟨-, hobj, fs₁, fs₂, hrem, hadd, rfl, rfl⟩
  · rw [Fat439.metaData_openFile] at hlen
    omega
  rcases remFromOffset_ret (by rwa [Fat439.metaData_openFile]) hrem with ⟨h16, he⟩ |
    ⟨h16, -, he⟩
  · have := removed_length he hadd
    rw [Fat439.metaData_openFile] at h16
    split at this <;> omega
  have hlen' := removed_length he hadd
  rw [Fat439.metaData_openFile] at h16
  have hne : d.lookup fs entry name ≠ d.start := fun hself =>
    -- the object would be the directory itself, which is not empty
    hobj ⟨by rw [hself]; exact hdir, by rw [hself]; omega⟩
  rw [if_neg hne, Fat439Directory.lookupEntry_openFile, lookupEntry_eq hdot hdots h0 h16] at hlen'
  obtain ⟨k, hk⟩ := lookup_ne_zero hdot hdots h0
  have hidx := search_idxOf hk
  have hoff : ((name.idxOf 0 : Int) * 16 + 16).toNat = name.idxOf 0 * 16 + 16 := by omega
  rw [hoff, w32_of_lt (by omega)] at hlen'
  have hlength : name.idxOf 0 * 16 + 32 = (fs.metaData d.start).length := by omega
  have hs₀ := hstart.ne_zero
  have F : Freed fs d.start (d.lookup fs entry name) (name.idxOf 0 * 16 + 16) fs₂.sync := by
    refine freed_of_removed ?_ hn (Nat.lt_of_lt_of_le hstart.2 hn) h0 (Nat.lt_of_lt_of_le hblk hn)
      hne
    rw [he, Fat439Directory.lookupEntry_openFile, lookupEntry_eq hdot hdots h0 h16, hoff,
      w32_of_lt (by omega)] at hadd
    exact hadd
  have hend : Fat439Directory.search fs d name d.entries 0 entry =
      Fat439Directory.search fs d name (min d.entries ((fs.metaData d.start).length / 16)) 0
        entry :=
    Fat439Directory.search_end h16 (by omega) hent
  rw [hk] at hend
  have hklt := (Fat439Directory.search_bounds hend.symm).2
  obtain ⟨c, last, hc, hfat'⟩ := F.fat
  -- the chain of the object goes on with the free one
  have hmem : ∀ x, OnChain fs (d.lookup fs entry name) x ↔ x ∈ c ++ [last] := fun x => by
    constructor
    · rintro ⟨l, hl, hx⟩
      rwa [← hl.unique hc]
    · exact fun hx => ⟨_, hc, hx⟩
  have hself : d.lookup fs entry name ∈ c ++ [last] := by
    obtain ⟨l, hl⟩ := hc.head_mem h0
    rw [hl]
    exact List.mem_cons_self
  obtain ⟨l, hl, -⟩ := hfree _ ((hmem _).mpr hself)
  rw [F.super] at hl
  have hlast : fs₂.sync.fat last = fs.super.avail := by rw [hfat', Function.update_self]
  obtain ⟨l', rfl, hl'⟩ :=
    hc.unjoin hl hlast fun z hz => by rw [hfat', Function.update_of_ne hz]
  refine ⟨hlength, ?_, ⟨_, hc⟩, ⟨l', hl'⟩, fun x hx hfree' => ?_⟩
  · rw [hk, Option.map_some]
    refine congrArg some (Nat.le_antisymm (by dsimp only; omega) (Nat.le_of_not_lt fun hlt => ?_))
    -- an entry before the last one is still there
    dsimp only at hlt
    have hsame : Fat439Directory.search fs₂.sync (d.refresh fs₂.sync) name (k + 1) 0 entry =
        Fat439Directory.search fs d name (k + 1) 0 entry :=
      F.search_eq hne rfl hstart hn (by omega) (by omega) (by omega) rfl
    rw [Fat439Directory.search_prefix hk (by omega)] at hsame
    have hent' : k + 1 ≤ (d.refresh fs₂.sync).entries := by
      rw [Fat439Directory.refresh, hlen']
      dsimp only
      omega
    have hgone' := hgone entry
    rw [Fat439Directory.lookup, if_neg hdot, if_neg hdots,
      Fat439Directory.search_prefix hsame (by omega)] at hgone'
    exact h0 hgone'
  · obtain ⟨l₂, hl₂, hx₂⟩ := hfree'
    rw [hl₂.unique hl'] at hx₂
    have hnd := hl.nodup
    rw [List.append_cons] at hnd
    exact (List.nodup_append.mp hnd).2.2 x ((hmem x).mp hx) x hx₂ rfl

include hn hstart hfats hblk hdot hdots h0 in
/-- Such a removal returns 0. -/
theorem Removable.freed (R : Removable fs d entry name) (hne : d.lookup fs entry name ≠ d.start)
    (hobj : ¬((fs.metaData (d.lookup fs entry name)).type = TYPE_DIR ∧
      (fs.metaData (d.lookup fs entry name)).length ≠ 0)) :
    ∃ fs', d.remove fs entry entry' name = some (.ret 0, d.refresh fs', fs') ∧
      Freed fs d.start (d.lookup fs entry name) (name.idxOf 0 * 16 + 16) fs' := by
  have hlen := R.length
  obtain ⟨k, hk⟩ := lookup_ne_zero hdot hdots h0
  have hidx := search_idxOf hk
  have hoff : ((name.idxOf 0 : Int) * 16 + 16).toNat = name.idxOf 0 * 16 + 16 := by omega
  have hrem : OpenFile.remFromOffset (fs.openFile (d.lookup fs entry name)) d.start
      (name.idxOf 0 * 16 + 16) 16 = (.ret 0, (OpenFile.resize (fs.openFile (d.lookup fs entry name))
        d.start (name.idxOf 0 * 16 + 16)).unlock) := by
    rw [OpenFile.remFromOffset]
    dsimp only
    rw [Fat439.metaData_openFile, if_neg (by omega), w32_of_lt (by omega), if_pos (by omega),
      w32_of_lt (by omega)]
  -- the walk to the end of the chain
  obtain ⟨l, hl⟩ := R.chain
  have hlt := hl.forall_mem (P := (· < fs.super.nBlocks)) (fun _ => hblk) fun z _ => hfats z
  obtain ⟨c, last, rfl⟩ : ∃ c last, l = c ++ [last] :=
    (List.eq_nil_or_concat' l).resolve_left fun h => h0 (hl.eq_nil_iff.mpr h)
  have hlength := hl.length_le hlt
  rw [List.length_append, List.length_singleton] at hlength
  have hlast : (OpenFile.resize (OpenFile.resize (fs.openFile (d.lookup fs entry name)) d.start
      (name.idxOf 0 * 16 + 16)).unlock (d.lookup fs entry name) 0).lastBlk (fs.super.nBlocks + 1)
        (d.lookup fs entry name) = some last :=
    lastBlk_of_linked (c := c) hl (by omega)
  have hadd : (OpenFile.resize (OpenFile.resize (fs.openFile (d.lookup fs entry name)) d.start
      (name.idxOf 0 * 16 + 16)).unlock (d.lookup fs entry name) 0).addAvailBlk
        (d.lookup fs entry name) =
        some _ := Option.bind_eq_some_iff.mpr ⟨last, hlast, rfl⟩
  refine ⟨_, ?_, freed_of_removed hadd hn (Nat.lt_of_lt_of_le hstart.2 hn) h0
    (Nat.lt_of_lt_of_le hblk hn) hne⟩
  rw [Fat439Directory.remove]
  dsimp only
  rw [if_neg h0, Fat439.metaData_openFile, if_neg hobj, Fat439Directory.lookupEntry_openFile,
    lookupEntry_eq hdot hdots h0 (by omega), if_neg (by omega), hoff, hrem]
  dsimp only
  rw [if_pos (by decide), hadd]
  rfl

include hn hstart hfats hblk hent hdot hdots h0 in
theorem Removable.removes (R : Removable fs d entry name) (hne : d.lookup fs entry name ≠ d.start)
    (hobj : ¬((fs.metaData (d.lookup fs entry name)).type = TYPE_DIR ∧
      (fs.metaData (d.lookup fs entry name)).length ≠ 0)) (hz : 0 ∉ name) :
    Removes fs d entry entry' name := by
  obtain ⟨fs', hrem, F⟩ :
      ∃ fs', d.remove fs entry entry' name = some (.ret 0, d.refresh fs', fs') ∧
      Freed fs d.start (d.lookup fs entry name) (name.idxOf 0 * 16 + 16) fs' :=
    R.freed hstart hn hfats hblk hdot hdots h0 hne hobj
  have hlen := R.length
  obtain ⟨k, hk⟩ := lookup_ne_zero hdot hdots h0
  have hlast := R.last
  rw [hk, Option.map_some] at hlast
  have hkL : k = (fs.metaData d.start).length / 16 - 1 := Option.some.inj hlast
  have hidx := search_idxOf hk
  have hkn := (Fat439Directory.search_bounds hk).2
  have hmeta := F.metaData_self hne
  have hent' : (d.refresh fs').entries = k := by
    rw [Fat439Directory.refresh, hmeta]
    dsimp only
    omega
  have hread : ∀ j, 0 ≤ j → j < 0 + (k + 1) →
      OpenFile.readFully fs d.start (w32 (j * 16)) 16 =
      slice fs.dev (Fat439Directory.entryAddr fs d.start j) 16 := fun j _ hj =>
    Fat439Directory.readFully_entry (by omega) (by omega)
  have hsame : ∀ e other, Fat439Directory.search fs' (d.refresh fs') other k 0 e =
      Fat439Directory.search fs d other k 0 e := fun e other =>
    F.search_eq hne rfl hstart hn (by omega) (by omega) (by omega) rfl
  have hbefore := Fat439Directory.search_before hk
  rw [Nat.sub_zero] at hbefore
  -- the name of the entry
  have hname :
      sameName (fun o => fs.dev (Fat439Directory.entryAddr fs d.start (0 + k) + o)) name 12 0 =
      true := by
    have hpre := Fat439Directory.search_prefix hk (m := k + 1) (by omega)
    rw [Fat439Directory.search_concat hread, hbefore, Option.none_or] at hpre
    split at hpre
    next hs => exact hs
    next => cases hpre
  obtain ⟨c, last, hc, hfat'⟩ := F.fat
  obtain ⟨l, hl⟩ := R.avail
  have hjoin : Linked fs'.fat 0 fs'.super.avail (c ++ last :: l) := by
    rw [F.super]
    exact hc.join hl (fun z hz hz' => R.apart z ⟨_, hc, hz⟩ ⟨l, hl, hz'⟩)
      (by rw [hfat', Function.update_self]) fun z hz => by rw [hfat', Function.update_of_ne hz]
  refine ⟨0, _, fs', hrem, Int.le_refl 0, fun e => ?_, fun e other hz' hother => ?_, ?_,
    fun x hx => ?_⟩
  · rw [Fat439Directory.lookup, if_neg hdot, if_neg hdots, hent', hsame,
      search_stack (by omega), hbefore]
    rfl
  · have hpar : (fs'.metaData d.start).parentDir = (fs.metaData d.start).parentDir := by rw [hmeta]
    have hold : Fat439Directory.search fs d other d.entries 0 e =
        Fat439Directory.search fs d other k 0 e := by
      rw [Fat439Directory.search_end (by omega) (by omega) hent,
        show min d.entries ((fs.metaData d.start).length / 16) = k + 1 by omega,
        Fat439Directory.search_concat hread, if_neg, Option.or_none]
      exact fun hs => hother (sameName_ext hs hname hz' hz)
    rw [Fat439Directory.lookup, Fat439Directory.lookup, hent', hsame, hold,
      show (d.refresh fs').start = d.start from rfl, hpar]
  · rw [hmeta]
    dsimp only
    omega
  · obtain ⟨l₁, hl₁, hx₁⟩ := hx
    rw [hl₁.unique hc] at hx₁
    refine ⟨_, hjoin, ?_⟩
    rw [List.append_cons]
    exact List.mem_append_left _ hx₁

include hdir hstart hn hL hfats hblk hent hdot hdots h0 in
/-- `remove` does what it is to do to a file or an empty directory in a directory of less than 256
entries if and only if its entry is the last one, the directory has two entries more than the name
has characters, and the blocks of the object are not free already. -/
theorem removes_iff (hz : 0 ∉ name)
    (hobj : ¬((fs.metaData (d.lookup fs entry name)).type = TYPE_DIR ∧
      (fs.metaData (d.lookup fs entry name)).length ≠ 0)) :
    Removes fs d entry entry' name ↔ Removable fs d entry name := by
  refine ⟨Removes.removable hdir hstart hn hL hblk hent hdot hdots, fun R => ?_⟩
  refine R.removes hstart hn hfats hblk hent hdot hdots h0 (fun hself => ?_) hobj hz
  have := R.length
  exact hobj ⟨by rw [hself]; exact hdir, by rw [hself]; omega⟩

end

theorem removes_iff_abcMount : Removes abcMount.fs ⟨7, 3⟩ (fun _ => 0) (fun _ => 0) [0x63] := by
  obtain ⟨cs, free, B, -⟩ := mkfs_built (by decide) (by decide) (by decide) mkfs_abcImage
  have hlook : Fat439Directory.lookup abcMount.fs ⟨7, 3⟩ (fun _ => 0) [0x63] = 4 := by decide
  have hchain : Linked abcMount.fs.fat 0 4 [4] := by simp only [Linked]; decide
  have hfree : Linked abcMount.fs.fat 0 abcMount.fs.super.avail [3, 2] := by
    simp only [Linked]; decide
  have R : Removable abcMount.fs ⟨7, 3⟩ (fun _ => 0) [0x63] := by
    refine ⟨by decide, by decide, ⟨[4], hlook.symm ▸ hchain⟩, ⟨_, hfree⟩, ?_⟩
    rw [hlook]
    rintro x ⟨l, hl, hx⟩ ⟨l', hl', hx'⟩
    rw [hl.unique hchain, List.mem_singleton] at hx
    subst hx
    rw [hl'.unique hfree] at hx'
    exact absurd hx' (by decide)
  have harea : InArea abcMount.fs.super.nBlocks 7 := ⟨by decide, by decide⟩
  have hdir : (abcMount.fs.metaData 7).type = TYPE_DIR := by decide
  have hobj : ¬((abcMount.fs.metaData 4).type = TYPE_DIR ∧
      (abcMount.fs.metaData 4).length ≠ 0) := by
    decide
  have hn : abcMount.fs.super.nBlocks ≤ 0x800000 := by decide
  have hdist : NamesDistinct abcMount.fs 7 := by
    have hlen : (abcMount.fs.metaData 7).length / 16 = 3 := by decide
    have hne : ∀ j < 3, ∀ i <
        j, slice abcMount.fs.dev (Fat439Directory.entryAddr abcMount.fs 7 i) 12 ≠
        slice abcMount.fs.dev (Fat439Directory.entryAddr abcMount.fs 7 j) 12 := by decide
    intro i j hij hj
    exact hne j (hlen ▸ hj) i hij
  have hL : (abcMount.fs.metaData 7).length < 0x1000 :=
    Nat.lt_trans (hdist.length_lt (by decide) (by decide)) (by decide)
  have hfats : ∀ x, abcMount.fs.fat x < abcMount.fs.super.nBlocks := by
    have hpos : 0 < abcImage.nBlocks := by decide
    have hopen : ∀ img : Image, (∀ x, img.fat x < img.nBlocks) →
        ∀ x, (img.toFs.openFile img.root).fat x < (img.toFs.openFile img.root).super.nBlocks :=
      fun _ h => h
    exact hopen abcImage fun x => B.layout.fat_lt x hpos
  have hblk : Fat439Directory.lookup abcMount.fs ⟨7, 3⟩ (fun _ => 0) [0x63] <
      abcMount.fs.super.nBlocks := by
    rw [hlook]; decide
  have h0 : Fat439Directory.lookup abcMount.fs ⟨7, 3⟩ (fun _ => 0) [0x63] ≠ 0 := by
    rw [hlook]; decide
  rw [← hlook] at hobj
  exact (removes_iff (d := ⟨7, 3⟩) hdir harea hn hL hfats hblk (by decide) (by decide)
    (by decide) h0 (by decide) hobj).mpr R

/-- The only entry of the root directory is not removed, but the block of its file is freed, and the
directory grows. -/
theorem remove_grows : Mounted 8 [byteFile] byteMount ∧ ⟨7, 1⟩ ∈ byteMount.dirs ∧
    Fat439Directory.lookup byteMount.fs ⟨7, 1⟩ (fun _ => 0) [0x61] = 6 ∧
    (byteMount.fs.metaData 6).type = TYPE_FILE ∧
    ¬Removes byteMount.fs ⟨7, 1⟩ (fun _ => 0) (fun _ => 0) [0x61] := by
  refine ⟨mounted_byteMount, by decide, by decide, by decide, ?_⟩
  rintro ⟨code, d', fs', h, -, -, -, hlen, -⟩
  have hafter :
      (Fat439Directory.remove byteMount.fs ⟨7, 1⟩ (fun _ => 0) (fun _ => 0) [0x61]).map
      (fun r => (r.2.2.metaData 7).length) = some 32 := by decide
  have hbefore : (byteMount.fs.metaData 7).length = 16 := by decide
  rw [h] at hafter
  have := Option.some.inj hafter
  dsimp only at this hlen
  omega

end K439.Fs
