import K439.Fs.Write
import K439.Fs.Directory

/-!
# Making an image

`fat439/mkfs.c`. The image file is fresh, so it holds zeros where nothing is written, and it has
room for the FAT. The superblock and the FAT are kept apart from the other bytes of the image until
it is unmapped. A call of the host's `read` may give any positive number of bytes.
-/

namespace K439.Fs

/-- The image while it is written; `blocks` are its bytes but for the superblock and the FAT. -/
structure Image where
  nBlocks : Nat
  avail : Nat
  root : Nat
  fat : Nat → Nat
  blocks : Nat → UInt8

/-- An input file: its base name, its bytes and how many bytes a `read` at a position may give. -/
structure HostFile where
  name : List UInt8
  data : List UInt8
  count : Nat → Nat

def fatBlocks (nBlocks : Nat) : Nat := (nBlocks * 4 + 511) / 512

/-- The blocks after the superblock and the FAT. -/
def InArea (nBlocks x : Nat) : Prop := 1 + fatBlocks nBlocks ≤ x ∧ x < nBlocks

namespace Image

variable (img : Image)

/-- `none` is the exit "disk is full". -/
def getBlock : Option (Nat × Image) :=
  let idx := img.avail
  if idx = 0 then none
  else some (idx, { img with avail := img.fat idx, fat := Function.update img.fat idx 0 })

/-- `*(T*) toPtr(idx, offset) = ...` -/
def write (idx offset : Nat) (l : List UInt8) : Image :=
  { img with blocks := put img.blocks (idx * 512 + offset) l }

@[simp] theorem write_blocks (idx offset : Nat) (l : List UInt8) :
    (img.write idx offset l).blocks = put img.blocks (idx * 512 + offset) l := rfl

/-- The loop of `oneFile`, with the bytes `data` that are not read yet: the size of the file. Every
round but the last one reads a byte. -/
def fill (count : Nat → Nat) : Nat → Image → Nat → Nat → Nat → Nat → List UInt8 →
    Option (Nat × Image)
  | 0, _, _, _, _, _, _ => none
  | fuel + 1, img, currentBlock, leftInBlock, blockOffset, totalSize, data => do
    let (img, currentBlock, blockOffset, leftInBlock) ←
      (if leftInBlock = 0 then
        img.getBlock.map fun (b, img) =>
          ({ img with fat := Function.update img.fat currentBlock b }, b, 0, 512)
      else some (img, currentBlock, blockOffset, leftInBlock))
    if data = [] then some (totalSize, img)
    else
      let n := min (max 1 (count totalSize)) (min leftInBlock data.length)
      fill count fuel (img.write currentBlock blockOffset (data.take n)) currentBlock
        (leftInBlock - n) (blockOffset + n) (totalSize + n) (data.drop n)

def oneFile (f : HostFile) : Option (Nat × Image) := do
  let (startBlock, img) ← img.getBlock
  let img := img.write startBlock 0 (le32 1)
  let img := img.write startBlock 8 (le32 1023 ++ le32 startBlock)
  let (totalSize, img) ← fill f.count (f.data.length + 1) img startBlock (512 - 16) 16 0 f.data
  some (startBlock, img.write startBlock 4 (le32 totalSize))

/-- `strncpy(dest, base, 12)` -/
def strncpy (base : List UInt8) : List UInt8 := (base ++ List.replicate 12 0).take 12

/-- The loop of `main` over the files from the `i`th one on. -/
def addFiles (root : Nat) : Image → Nat → List HostFile → Option Image
  | img, _, [] => some img
  | img, i, f :: files => do
    let (x, img) ← img.oneFile f
    addFiles root (img.write root (16 + i * 16) (strncpy f.name ++ le32 x)) (i + 1) files

/-- The bytes of the file when it is unmapped. -/
def toDev : Dev :=
  let super : Super :=
    { magic := 0x39333446, nBlocks := img.nBlocks, avail := img.avail, root := img.root }
  put (put img.blocks 0 super.bytes) 512 (((List.range img.nBlocks).map img.fat).flatMap le32)

end Image

/-- The free chain of a fresh image. -/
def freshImage (nBlocks : Nat) : Image :=
  let lastAvail := 1 + fatBlocks nBlocks
  let avail := nBlocks - 1
  { nBlocks := nBlocks, avail := avail, root := 0,
    fat := fun i => if lastAvail < i ∧ i ≤ avail then i - 1 else 0,
    blocks := fun _ => 0 }

/-- `main`; there is at least one file. -/
def mkfs (nBlocks : Nat) (files : List HostFile) : Option Image := do
  let (root, img) ← (freshImage nBlocks).getBlock
  let metaData : MetaData :=
    { type := TYPE_DIR, length := files.length * 16, parentDir := 0, currentBlk := root }
  let img := { img with root := root }.write root 0 metaData.bytes
  if files = [] then none else img.addFiles root 0 files

/-! ## The chains of the image -/

section

variable {img img' : Image} {cs : List (List Nat)} {c free : List Nat} {b cur : Nat}

/-- The chains `cs` and the free chain use every block of the area once. -/
structure Layout (img : Image) (cs : List (List Nat)) (free : List Nat) : Prop where
  avail : Linked img.fat 0 img.avail free
  chain : ∀ c ∈ cs, c ≠ [] ∧ Linked img.fat 0 (c.headD 0) c
  nodup : (cs.flatten ++ free).Nodup
  mem : ∀ x, x ∈ cs.flatten ++ free ↔ InArea img.nBlocks x
  out : ∀ x, ¬InArea img.nBlocks x → img.fat x = 0

namespace Layout

variable (L : Layout img cs free)
include L

theorem write (idx offset : Nat) (l : List UInt8) : Layout (img.write idx offset l) cs free :=
  ⟨L.avail, L.chain, L.nodup, L.mem, L.out⟩

theorem inArea_of_free (hb : b ∈ free) : InArea img.nBlocks b :=
  (L.mem b).mp (List.mem_append_right _ hb)

theorem inArea (hc : c ∈ cs) (hb : b ∈ c) : InArea img.nBlocks b :=
  (L.mem b).mp (List.mem_append_left _ (List.mem_flatten.mpr ⟨c, hc, hb⟩))

theorem notMem_free (hc : c ∈ cs) (hb : b ∈ c) : b ∉ free := fun h =>
  (List.nodup_append.mp L.nodup).2.2 b (List.mem_flatten.mpr ⟨c, hc, hb⟩) b h rfl

theorem chain_nodup (hc : c ∈ cs) : c.Nodup := (L.chain c hc).2.nodup

/-- `getBlock` gives the first free block. -/
theorem getBlock_eq (h : img.getBlock = some (b, img')) :
    ∃ free', free = b :: free' ∧
      img' = { img with avail := img.fat b, fat := Function.update img.fat b 0 } := by
  rw [Image.getBlock] at h
  split at h
  · cases h
  next hne =>
    cases h
    obtain ⟨free', hfree⟩ := L.avail.head_mem hne
    exact ⟨free', hfree, rfl⟩

/-- The block that `getBlock` gives starts a chain. -/
theorem new (hfree : free = b :: c) :
    Layout { img with avail := img.fat b, fat := Function.update img.fat b 0 } (cs ++ [[b]]) c := by
  subst hfree
  have hlist : (cs ++ [[b]]).flatten ++ c = cs.flatten ++ b :: c := by simp
  have hav := L.avail
  obtain ⟨-, hb0, -⟩ := hav
  refine ⟨?_, fun d hd => ?_, hlist ▸ L.nodup, fun x => hlist ▸ L.mem x, fun x hx => ?_⟩
  · exact L.avail.pop fun z hz => Function.update_of_ne hz ..
  · rcases List.mem_append.mp hd with hold | hnew
    · refine ⟨(L.chain d hold).1,
        (L.chain d hold).2.congr fun z hz => Function.update_of_ne ?_ ..⟩
      rintro rfl
      exact L.notMem_free hold hz List.mem_cons_self
    · rw [List.mem_singleton] at hnew
      subst hnew
      exact ⟨by simp, rfl, hb0, Function.update_self ..⟩
  · refine (Function.update_of_ne ?_ ..).trans (L.out x hx)
    rintro rfl
    exact hx (L.inArea_of_free List.mem_cons_self)

/-- The FAT links blocks of the area. -/
theorem fat_inArea (x : Nat) : img.fat x = 0 ∨ InArea img.nBlocks (img.fat x) := by
  by_cases hx : InArea img.nBlocks x
  · rcases List.mem_append.mp ((L.mem x).mpr hx) with h | h
    · obtain ⟨c, hc, hxc⟩ := List.mem_flatten.mp h
      exact ((L.chain c hc).2.next_mem hxc).imp_right (L.inArea hc)
    · exact (L.avail.next_mem h).imp_right L.inArea_of_free
  · exact .inl (L.out x hx)

/-- The entries of the FAT are block numbers. -/
theorem fat_lt (x : Nat) (hn : 0 < img.nBlocks) : img.fat x < img.nBlocks := by
  rcases L.fat_inArea x with h | h
  · rwa [h]
  · exact h.2

end Layout

/-- The last chain grows by the block that was given last. -/
theorem Layout.link (L : Layout img (cs ++ [c ++ [cur], [b]]) free) :
    Layout { img with fat := Function.update img.fat cur b } (cs ++ [c ++ [cur, b]]) free := by
  have hlist : (cs ++ [c ++ [cur, b]]).flatten ++ free = (cs ++ [c ++ [cur], [b]]).flatten ++
      free := by
    simp
  have hlast := L.chain (c ++ [cur]) (by simp)
  have hb := L.chain [b] (by simp)
  have hd : ∀ d ∈ cs, cur ∉ d := by
    intro d hd hc
    have := L.nodup
    simp only [List.flatten_append, List.nodup_append] at this
    exact this.1.2.2 cur (List.mem_flatten.mpr ⟨d, hd, hc⟩) cur (by simp) rfl
  have hdis : ∀ z ∈ c ++ [cur], z ∉ [b] := by
    intro z hz hzb
    have := L.nodup
    simp only [List.flatten_append, List.nodup_append, List.flatten_cons] at this
    exact this.1.2.1.2.2 z hz z (by simpa using hzb) rfl
  refine ⟨?_, fun d hd' => ?_, hlist ▸ L.nodup, fun x => hlist ▸ L.mem x, fun x hx => ?_⟩
  · refine L.avail.congr fun z hz => Function.update_of_ne ?_ ..
    rintro rfl
    exact L.notMem_free (c := c ++ [z]) (by simp) (by simp) hz
  · rcases List.mem_append.mp hd' with hold | hnew
    · refine ⟨(L.chain d (by simp [hold])).1, (L.chain d (by simp [hold])).2.congr fun z hz =>
        Function.update_of_ne ?_ ..⟩
      rintro rfl
      exact hd d hold hz
    · rw [List.mem_singleton] at hnew
      subst hnew
      have hhead : (c ++ [cur, b]).headD 0 = (c ++ [cur]).headD 0 := by cases c <;> rfl
      refine ⟨by simp, ?_⟩
      rw [hhead]
      exact hlast.2.join hb.2 hdis (Function.update_self ..) fun z hz => Function.update_of_ne hz ..
  · refine (Function.update_of_ne ?_ ..).trans (L.out x hx)
    rintro rfl
    exact hx (L.inArea (c := c ++ [x]) (by simp) (by simp))

section

variable {count : Nat → Nat} {fuel left left' off off' size total cur' : Nat} {data : List UInt8}

/-- The first part of a round of `fill`: a full block is followed by a new one. -/
theorem nextBlock_spec (L : Layout img (cs ++ [c ++ [cur]]) free)
    (hpos : 16 + size = c.length * 512 + off) (hoff : off ≤ 512) (hleft : left = 512 - off)
    (h : (if left = 0 then
        img.getBlock.map fun (b, img) =>
          ({ img with fat := Function.update img.fat cur b }, b, 0, 512)
      else some (img, cur, off, left)) = some (img', cur', off', left')) :
    ∃ c' e free', c' ++ [cur'] = c ++ [cur] ++ e ∧ Layout img' (cs ++ [c' ++ [cur']]) free' ∧
      16 + size = c'.length * 512 + off' ∧ off' < 512 ∧ left' = 512 - off' ∧
      img'.blocks = img.blocks ∧ img'.nBlocks = img.nBlocks ∧ img'.root = img.root := by
  split at h
  next h0 =>
    have hfull : 16 + size = (c.length + 1) * 512 := by omega
    obtain ⟨⟨b, img₁⟩, hb, he⟩ := Option.map_eq_some_iff.mp h
    obtain ⟨free', hfree, rfl⟩ := L.getBlock_eq hb
    cases he
    have hL := L.new hfree
    rw [List.append_assoc] at hL
    refine ⟨c ++ [cur], [cur'], free', rfl, ?_, ?_, by simp, by simp, rfl, rfl, rfl⟩
    · have := Layout.link hL
      rwa [List.append_assoc]
    · rw [List.length_append, List.length_singleton, hfull]; exact (Nat.add_zero _).symm
  next h0 =>
    have hlt : off < 512 := by
      rcases Nat.lt_or_eq_of_le hoff with h' | h'
      · exact h'
      · exact absurd (by rw [hleft, h']) h0
    cases h
    exact ⟨c, [], free, by simp, L, hpos, hlt, hleft, rfl, rfl, rfl⟩

/-- `oneFile` stores the bytes of the file one after the other in its chain. -/
theorem fill_spec (L : Layout img (cs ++ [c ++ [cur]]) free)
    (hpos : 16 + size = c.length * 512 + off) (hoff : off ≤ 512) (hleft : left = 512 - off)
    (h : Image.fill count fuel img cur left off size data = some (total, img')) :
    ∃ e free', Layout img' (cs ++ [c ++ [cur] ++ e]) free' ∧ total = size + data.length ∧
      16 + total ≤ 512 * (c ++ [cur] ++ e).length ∧
      (∀ p < 16 + size,
        view 512 img'.blocks (c ++ [cur] ++ e) p = view 512 img.blocks (c ++ [cur]) p) ∧
      slice (view 512 img'.blocks (c ++ [cur] ++ e)) (16 + size) data.length = data ∧
      (∀ x, x ∉ c ++ [cur] ++ e → ∀ i < 512, img'.blocks (x * 512 + i) =
        img.blocks (x * 512 + i)) ∧
      img'.nBlocks = img.nBlocks ∧ img'.root = img.root := by
  induction fuel generalizing img c cur free left off size data with
  | zero => cases h
  | succ fuel ih =>
    rw [Image.fill] at h
    obtain ⟨⟨img₁, cur₁, off₁, left₁⟩, h1, h⟩ := Option.bind_eq_some_iff.mp h
    obtain ⟨c₁, e, free₁, hc₁, L₁, hpos₁, hoff₁, hleft₁, hblocks, hn, hr⟩ :=
      nextBlock_spec L hpos hoff hleft h1
    have hlen : (c ++ [cur]).length = c.length + 1 := by simp
    dsimp only at h
    split at h
    next hnil =>
      cases h
      subst hnil
      refine ⟨e, free₁, hc₁ ▸ L₁, rfl, ?_, fun p hp => ?_, rfl,
        fun x _ i _ => ?_, hn, hr⟩
      · rw [← hc₁, List.length_append, List.length_singleton]; omega
      · rw [hblocks, view_append (by rw [hlen]; omega)]
      · rw [hblocks]
    next hne =>
      have hdata := List.length_pos_iff.mpr hne
      generalize hnn : min (max 1 (count size)) (min left₁ data.length) = n at h
      have hn1 : 0 < n ∧ n ≤ left₁ ∧ n ≤ data.length := by omega
      obtain ⟨e', free', L', htot, hcov, hold, hnew, hframe, hn', hr'⟩ := ih (L₁.write ..)
        (show 16 + (size + n) = c₁.length * 512 + (off₁ + n) by omega) (by omega) (by omega) h
      have hd₁ := L₁.chain_nodup (c := c₁ ++ [cur₁]) (by simp)
      have hq : (16 + size) / 512 = c₁.length := by omega
      have hq' : (16 + size) % 512 = off₁ := by omega
      -- the bytes of this round are written to the contents of the chain
      have hview : ∀ p < 16 + size + n, view 512 (img₁.write cur₁ off₁ (data.take n)).blocks
          (c₁ ++ [cur₁]) p = put (view 512 img₁.blocks (c₁ ++ [cur₁])) (16 + size)
            (data.take n) p := by
        intro p hp
        have := view_put (m := img₁.blocks) (l := data.take n) (q := 16 + size) hd₁ (by simp)
          (by rw [hq]; simp) (by rw [hq', List.length_take]; omega)
          (show p / 512 < (c₁ ++ [cur₁]).length by
            rw [List.length_append, List.length_singleton]; omega)
        simp only [hq, hq', List.getElem_append_right (Nat.le_refl _), Nat.sub_self,
          List.getElem_cons_zero] at this
        exact this
      have htake : (data.take n).length = n := List.length_take_of_le hn1.2.2
      have hall : c ++ [cur] ++ (e ++ e') = c₁ ++ [cur₁] ++ e' := by rw [hc₁]; simp
      rw [List.length_drop] at htot hnew
      refine ⟨e ++ e', free', ?_⟩
      rw [hall]
      refine ⟨L', by omega, hcov, fun p hp => ?_, ?_, fun x hx i hi => ?_, hn'.trans hn,
        hr'.trans hr⟩
      · rw [hold p (by omega), hview p (by omega), put_of_lt hp, hc₁, hblocks,
          view_append (by rw [hlen]; omega)]
      · have hfirst : slice (view 512 img'.blocks (c₁ ++ [cur₁] ++ e')) (16 + size) n =
            data.take n := by
          have hput : slice (put (view 512 img₁.blocks (c₁ ++ [cur₁])) (16 + size)
              (data.take n))
              (16 + size) n = data.take n := by
            have := slice_put (m := view 512 img₁.blocks (c₁ ++ [cur₁])) (a := 16 + size)
              (l := data.take n)
            rwa [htake] at this
          refine (slice_congr fun i hi => ?_).trans hput
          exact (hold _ (by omega)).trans (hview _ (by omega))
        obtain ⟨r, hr⟩ := Nat.exists_eq_add_of_le hn1.2.2
        rw [hr, slice_add, hfirst]
        rw [hr, Nat.add_sub_cancel_left, ← Nat.add_assoc] at hnew
        rw [hnew, List.take_append_drop]
      · rw [hframe x hx i hi]
        refine (put_block_ne (fun h => hx (by simp [h])) hi (by rw [htake]; omega)).trans ?_
        rw [hblocks]

/-- There is always enough fuel. -/
theorem fill_fuel {fuel' : Nat} (h : data.length < fuel) (h' : data.length < fuel') :
    Image.fill count fuel img cur left off size data =
      Image.fill count fuel' img cur left off size data := by
  induction fuel generalizing fuel' img cur left off size data with
  | zero => exact absurd h (Nat.not_lt_zero _)
  | succ fuel ih =>
    obtain ⟨fuel', rfl⟩ : ∃ k, fuel' = k + 1 := ⟨fuel' - 1, by omega⟩
    rw [Image.fill, Image.fill]
    generalize hr : (if left = 0 then _ else _) = r
    rcases r with - | ⟨img₁, cur₁, off₁, left₁⟩
    · rfl
    simp only [Option.bind_eq_bind, Option.bind_some]
    have hleft : 0 < left₁ := by
      split at hr
      · obtain ⟨⟨b, img₂⟩, -, he⟩ := Option.map_eq_some_iff.mp hr
        cases he
        simp
      · cases hr
        omega
    split
    · rfl
    next hne =>
      have := List.length_pos_iff.mpr hne
      exact ih (by rw [List.length_drop]; omega) (by rw [List.length_drop]; omega)

end

/-- The chain `c` holds the file `f`. -/
structure Stored (m : Nat → UInt8) (c : List Nat) (f : HostFile) : Prop where
  header : header m (c.headD 0) = ⟨TYPE_FILE, f.data.length, 1023, c.headD 0⟩
  length_le : 16 + f.data.length ≤ 512 * c.length
  data : slice (view 512 m c) 16 f.data.length = f.data

theorem Stored.congr {m m' : Nat → UInt8} {f : HostFile} (S : Stored m c f)
    (h : ∀ x ∈ c, ∀ i < 512, m' (x * 512 + i) = m (x * 512 + i)) : Stored m' c f := by
  have hne : c ≠ [] := fun he => by
    have := S.length_le
    simp [he] at this
  refine ⟨?_, S.length_le, ?_⟩
  · rw [header_congr fun i hi => ?_, S.header]
    refine h _ ?_ i (by omega)
    cases c with
    | nil => exact absurd rfl hne
    | cons s l => exact List.mem_cons_self
  · have hlen := S.length_le
    conv_rhs => rw [← S.data]
    exact slice_congr fun i hi => view_congr h (by simp) (by omega)

theorem Layout.length_lt (L : Layout img cs free) (hc : c ∈ cs) (hn : c ≠ []) :
    c.length < img.nBlocks := by
  have hsub : 0 :: c ⊆ List.range img.nBlocks := by
    intro x hx
    rw [List.mem_range]
    rcases List.mem_cons.mp hx with rfl | hx
    · obtain ⟨y, hy⟩ := List.exists_mem_of_ne_nil _ hn
      exact Nat.zero_lt_of_lt (L.inArea hc hy).2
    · exact (L.inArea hc hx).2
  have hnd : (0 :: c).Nodup :=
    List.nodup_cons.mpr ⟨fun h => (L.chain c hc).2.ne_nil h rfl, L.chain_nodup hc⟩
  have := (hnd.subperm hsub).length_le
  rwa [List.length_range] at this

theorem oneFile_spec {x : Nat} {f : HostFile} (L : Layout img cs free)
    (hn : img.nBlocks ≤ 0x800000) (h : img.oneFile f = some (x, img')) :
    ∃ c free', Layout img' (cs ++ [c]) free' ∧ c.headD 0 = x ∧ Stored img'.blocks c f ∧
      (∀ y, y ∉ c → ∀ i < 512, img'.blocks (y * 512 + i) = img.blocks (y * 512 + i)) ∧
      img'.nBlocks = img.nBlocks ∧ img'.root = img.root := by
  rw [Image.oneFile] at h
  obtain ⟨⟨s, img₁⟩, h1, h⟩ := Option.bind_eq_some_iff.mp h
  obtain ⟨free₁, rfl, rfl⟩ := L.getBlock_eq h1
  obtain ⟨⟨total, img₂⟩, h2, h⟩ := Option.bind_eq_some_iff.mp h
  cases h
  have hL := ((L.new rfl).write x 0 (le32 1)).write x 8 (le32 1023 ++ le32 x)
  obtain ⟨e, free', L', htot, hcov, hhdr, hdata, hframe, hn', hr'⟩ :=
    fill_spec (c := []) hL (by simp) (by simp) (by simp) h2
  simp only [List.nil_append, Nat.zero_add, Nat.add_zero, Image.write_blocks]
    at htot hcov hhdr hdata hframe L'
  subst htot
  have hc : [x] ++ e ∈ cs ++ [[x] ++ e] := by simp
  have hlt := L'.length_lt hc (by simp)
  have hx := (L'.inArea (b := x) hc (by simp)).2
  have hn₂ : img₂.nBlocks = img.nBlocks := hn'
  have hsize : f.data.length < 0x100000000 := by omega
  have hx32 : x < 0x100000000 := by omega
  -- the header, whose length is written last
  obtain ⟨m, hm⟩ : ∃ m, put (put img.blocks (x * 512) (le32 1)) (x * 512 + 8)
    (le32 1023 ++ le32 x) = m := ⟨_, rfl⟩
  have hfirst : ∀ p < 16, img₂.blocks (x * 512 + p) = m (x * 512 + p) := by
    intro p hp
    have := hhdr p hp
    rw [hm] at this
    simpa [view, Nat.div_eq_of_lt (show p < 512 by omega), Nat.mod_eq_of_lt (show p < 512 by omega)]
      using this
  have hword : ∀ k ≤ 12, word img₂.blocks (x * 512 + k) = word m (x * 512 + k) := fun k hk =>
    congrArg decodeLE (slice_congr fun i hi => by
      rw [Nat.add_assoc]; exact hfirst _ (by omega))
  have h0 : word m (x * 512) = 1 := by
    rw [← hm, word_put_of_disjoint (.inl (by omega)), word_put_le32 (by simp)]
  have h8 : word m (x * 512 + 8) = 1023 := by
    rw [← hm, word_put (by simp)]
  have h12 : word m (x * 512 + 12) = x := by
    rw [← hm, ← put_put, le32_length, show x * 512 + 12 = x * 512 + 8 + 4 by omega]
    exact word_put_le32 hx32
  refine ⟨[x] ++ e, free', L'.write .., rfl, ⟨?_, hcov, ?_⟩, fun y hy i hi => ?_, hn', hr'⟩
  · have h4 : word (img₂.write x 4 (le32 f.data.length)).blocks (x * 512 + 4) = f.data.length :=
      word_put_le32 hsize
    have hrest : ∀ k ≤ 12, k + 4 ≤ 4 ∨ 8 ≤ k →
        word (img₂.write x 4 (le32 f.data.length)).blocks (x * 512 + k) =
          word m (x * 512 + k) := by
      intro k hk h
      rw [← hword k hk]
      exact word_put_of_disjoint (by rw [le32_length]; omega)
    simp only [header, List.cons_append, List.headD_cons, h4, hrest 8 (by simp) (by simp),
      hrest 12 (by simp) (by simp), h8, h12, TYPE_FILE]
    have := hrest 0 (by simp) (by simp)
    rw [Nat.add_zero, h0] at this
    rw [this]
  · refine (slice_congr fun i hi => ?_).trans hdata
    have hp : (16 + i) / 512 < ([x] ++ e).length := by omega
    have := view_put (m := img₂.blocks) (l := le32 f.data.length) (q := 4) (L'.chain_nodup hc)
      (by simp) (by simp) (by simp) hp
    exact this.trans (put_of_le (by simp; omega))
  · have hyx : y ≠ x := fun h => hy (by simp [h])
    refine (put_block_ne hyx hi (by simp)).trans ((hframe y hy i hi).trans ?_)
    exact (put_block_ne hyx hi (by simp)).trans (put_block_start_ne hyx hi (by simp))

/-- What the image holds after the files `fs` were added to its root directory, of `n` files. -/
structure Built (img : Image) (n : Nat) (fs : List HostFile) (cs : List (List Nat))
    (free : List Nat) :
    Prop where
  layout : Layout img ([img.root] :: cs) free
  header : header img.blocks img.root = ⟨TYPE_DIR, n * 16, 0, img.root⟩
  length : cs.length = fs.length
  stored : ∀ (i : Nat) f c, fs[i]? = some f → cs[i]? = some c → Stored img.blocks c f
  entry : ∀ (i : Nat) f c, fs[i]? = some f → cs[i]? = some c →
    slice img.blocks (img.root * 512 + (16 + i * 16)) 16 = Image.strncpy f.name ++ le32 (c.headD 0)

variable {n : Nat} {fs files : List HostFile}

theorem strncpy_length {l : List UInt8} : (Image.strncpy l).length = 12 := by
  simp [Image.strncpy]

theorem Built.addFile {f : HostFile} {x : Nat} (B : Built img n fs cs free)
    (hn : img.nBlocks ≤ 0x800000) (h31 : fs.length < 31) (h : img.oneFile f = some (x, img')) :
    ∃ c free', Built (img'.write img.root (16 + fs.length * 16) (Image.strncpy f.name ++ le32 x))
    n (fs ++ [f]) (cs ++ [c]) free' ∧ img'.nBlocks = img.nBlocks ∧ img'.root = img.root := by
  obtain ⟨c, free', L, hx, S, hframe, hn', hr'⟩ := oneFile_spec B.layout hn h
  rw [List.cons_append] at L
  have hroot : ∀ d ∈ cs ++ [c], img.root ∉ d := by
    intro d hd hmem
    have := L.nodup
    simp only [List.flatten_cons, List.nil_append, List.cons_append, List.nodup_cons,
      List.mem_append] at this
    exact this.1 (.inl (List.mem_flatten.mpr ⟨d, hd, hmem⟩))
  have hold : ∀ d ∈ cs, ∀ y ∈ d, y ∉ c := by
    intro d hd y hy hyc
    have := L.nodup
    simp only [List.flatten_cons, List.flatten_append, List.nodup_append, List.flatten_nil,
      List.append_nil] at this
    exact this.1.2.1.2.2 y (List.mem_flatten.mpr ⟨d, hd, hy⟩) y hyc rfl
  have hel : (Image.strncpy f.name ++ le32 x).length = 16 := by
    rw [List.length_append, strncpy_length, le32_length]
  generalize hentry : Image.strncpy f.name ++ le32 x = entry at *
  have hblock : ∀ y, y ≠ img.root → ∀ i < 512,
      (img'.write img.root (16 + fs.length * 16) entry).blocks (y * 512 + i) =
        img'.blocks (y * 512 + i) :=
    fun y hy i hi => put_block_ne hy hi (by omega)
  have hlow : ∀ i < 16 + fs.length * 16,
      (img'.write img.root (16 + fs.length * 16) entry).blocks (img.root * 512 + i) =
        img.blocks (img.root * 512 + i) := by
    intro i hi
    rw [← hframe img.root (hroot c (by simp)) i (by omega)]
    exact put_of_lt (by omega)
  refine ⟨c, free', ⟨?_, ?_, ?_, ?_, ?_⟩, hn', hr'⟩
  · rw [show (img'.write _ _ _).root = img.root from hr']
    exact L.write ..
  · rw [show (img'.write _ _ _).root = img.root from hr',
      header_congr fun i hi => hlow i (by omega), B.header]
  · rw [List.length_append, List.length_append, B.length]; rfl
  · intro i g d hg hd
    rcases Nat.lt_trichotomy i fs.length with hi | rfl | hi
    · rw [List.getElem?_append_left hi] at hg
      rw [List.getElem?_append_left (B.length ▸ hi)] at hd
      refine (B.stored i g d hg hd).congr fun y hy j hj => ?_
      have hdm := List.mem_of_getElem? hd
      rw [hblock y (fun he => hroot d (by simp [hdm]) (he ▸ hy)) j hj,
        hframe y (hold d hdm y hy) j hj]
    · rw [List.getElem?_concat_length] at hg
      rw [← B.length, List.getElem?_concat_length] at hd
      cases hg; cases hd
      exact S.congr fun y hy j hj => hblock y (fun he => hroot c (by simp) (he ▸ hy)) j hj
    · rw [List.getElem?_eq_none (by simp; omega)] at hg
      cases hg
  · intro i g d hg hd
    rw [show (img'.write _ _ _).root = img.root from hr']
    rcases Nat.lt_trichotomy i fs.length with hi | rfl | hi
    · rw [List.getElem?_append_left hi] at hg
      rw [List.getElem?_append_left (B.length ▸ hi)] at hd
      rw [← B.entry i g d hg hd]
      refine slice_congr fun j hj => ?_
      rw [Nat.add_assoc]
      exact hlow _ (by omega)
    · rw [List.getElem?_concat_length] at hg
      rw [← B.length, List.getElem?_concat_length] at hd
      cases hg; cases hd
      rw [hx, hentry, Image.write_blocks, ← hel]
      exact slice_put
    · rw [List.getElem?_eq_none (by simp; omega)] at hg
      cases hg

theorem Built.addFiles (B : Built img n fs cs free) (hn : img.nBlocks ≤ 0x800000)
    (h31 : fs.length + files.length ≤ 31)
    (h : img.addFiles img.root fs.length files = some img') :
    ∃ cs' free', Built img' n (fs ++ files) cs' free' ∧ img'.nBlocks = img.nBlocks := by
  induction files generalizing img fs cs free with
  | nil =>
    cases h
    exact ⟨cs, free, by rwa [List.append_nil], rfl⟩
  | cons f files ih =>
    rw [Image.addFiles] at h
    obtain ⟨⟨x, img₁⟩, h1, h⟩ := Option.bind_eq_some_iff.mp h
    rw [List.length_cons] at h31
    obtain ⟨c, free', B', hn', hr'⟩ := B.addFile hn (by omega) h1
    obtain ⟨cs', free'', B'', hn''⟩ := ih B' (show img₁.nBlocks ≤ _ from hn' ▸ hn)
      (by simp; omega) (by
        rw [show (img₁.write _ _ _).root = img.root from hr', List.length_append]
        exact h)
    rw [List.append_assoc] at B''
    exact ⟨cs', free'', B'', hn''.trans hn'⟩

/-- The free chain of a fresh image goes down from the last block to the first one of the area. -/
theorem linked_down (fat : Nat → Nat) (lo k : Nat) (hlo : 0 < lo) (h0 : fat lo = 0)
    (h : ∀ i, lo < i → i ≤ lo + k → fat i = i - 1) :
    Linked fat 0 (lo + k) (List.range' lo (k + 1)).reverse := by
  induction k with
  | zero => exact ⟨rfl, by omega, h0⟩
  | succ k ih =>
    rw [List.range'_concat, List.reverse_append]
    refine ⟨by simp, by omega, ?_⟩
    rw [Nat.one_mul, h _ (by omega) (by omega), show lo + (k + 1) - 1 = lo + k by omega]
    exact ih fun i hi hk => h i hi (by omega)

theorem freshImage_layout (hroom : 1 + fatBlocks n < n) :
    Layout (freshImage n) []
    (List.range' (1 + fatBlocks n) (n - 1 - (1 + fatBlocks n) + 1)).reverse := by
  refine ⟨?_, by simp, ?_, fun x => ?_, fun x hx => if_neg fun h => hx ?_⟩
  · have := linked_down (freshImage n).fat (1 + fatBlocks n) (n - 1 - (1 + fatBlocks n)) (by omega)
      (by simp [freshImage]) fun i hi hk => if_pos ⟨hi, by omega⟩
    rwa [Nat.add_sub_cancel' (by omega)] at this
  · simpa using List.nodup_range'
  · simp only [List.flatten_nil, List.nil_append, List.mem_reverse, List.mem_range'_1, InArea,
      freshImage]
    omega
  · exact ⟨Nat.le_of_lt h.1, show x < n by omega⟩

/-- `mkfs` writes the header of the root directory and then adds the files. -/
theorem mkfs_root (hroom : 1 + fatBlocks n < n) (h : mkfs n files = some img) :
    ∃ img₀ free, Layout img₀ [[img₀.root]] free ∧ img₀.nBlocks = n ∧
      (img₀.write img₀.root 0
        (MetaData.bytes ⟨TYPE_DIR, files.length * 16, 0, img₀.root⟩)).addFiles
        img₀.root 0 files = some img := by
  rw [mkfs] at h
  obtain ⟨⟨root, img₁⟩, h1, h⟩ := Option.bind_eq_some_iff.mp h
  have L := freshImage_layout hroom
  obtain ⟨free, hfree, rfl⟩ := L.getBlock_eq h1
  have L₁ := L.new hfree
  dsimp only at h
  split at h
  · cases h
  exact ⟨{ freshImage n with root := root, avail := (freshImage n).fat root,
                             fat := Function.update (freshImage n).fat root 0 }, free,
    ⟨L₁.avail, L₁.chain, L₁.nodup, L₁.mem, L₁.out⟩, rfl, h⟩

theorem mkfs_built (hn : n ≤ 0x800000) (hroom : 1 + fatBlocks n < n) (h31 : files.length ≤ 31)
    (h : mkfs n files = some img) :
    ∃ cs free, Built img files.length files cs free ∧ img.nBlocks = n := by
  obtain ⟨img₀, free, L, rfl, hadd⟩ := mkfs_root hroom h
  have hroot := L.inArea (b := img₀.root) (c := [img₀.root]) (by simp) (by simp)
  have B : Built (img₀.write img₀.root 0
      (MetaData.bytes ⟨TYPE_DIR, files.length * 16, 0, img₀.root⟩))
      files.length [] [] free := by
    refine ⟨L.write .., ?_, rfl, by simp, by simp⟩
    rw [Image.write_blocks, Nat.add_zero]
    refine header_put ?_
    have hlt : img₀.root < img₀.nBlocks := hroot.2
    simp [MetaData.words, TYPE_DIR]
    omega
  obtain ⟨cs, free', B', hn'⟩ := B.addFiles hn (by simpa using h31) hadd
  exact ⟨cs, free', B', hn'⟩

/-! ## The image as a device -/

theorem Layout.avail_lt (L : Layout img cs free) (hn : 0 < img.nBlocks) :
    img.avail < img.nBlocks := by
  rcases Nat.eq_zero_or_pos img.avail with h | h
  · rwa [h]
  · obtain ⟨l, hl⟩ := L.avail.head_mem (Nat.pos_iff_ne_zero.mp h)
    exact (L.inArea_of_free (hl ▸ List.mem_cons_self)).2

namespace Layout

theorem root_inArea (L : Layout img ([img.root] :: cs) free) : InArea img.nBlocks img.root :=
  L.inArea (c := [img.root]) (by simp) (by simp)

theorem superAt_toDev (L : Layout img ([img.root] :: cs) free) (hn : img.nBlocks ≤ 0x800000) :
    superAt img.toDev = ⟨0x39333446, img.nBlocks, img.avail, img.root⟩ := by
  have hroot := L.root_inArea.2
  have hav := L.avail_lt (Nat.zero_lt_of_lt hroot)
  rw [Image.toDev, superAt_congr fun i hi => put_of_lt (by omega), superAt_put]
  simp [Super.words]
  omega

theorem word_toDev (L : Layout img cs free) (hn : img.nBlocks ≤ 0x800000) {i : Nat}
    (hi : i < img.nBlocks) : word img.toDev (512 + 4 * i) = img.fat i := by
  have hlt := L.fat_lt i (Nat.zero_lt_of_lt hi)
  rw [Image.toDev, word_put_words (by simpa using hi) (by simp; omega)]
  simp

/-- However many files there are, the chains stay apart. -/
theorem addFiles {root k : Nat} (L : Layout img cs free) (hn : img.nBlocks ≤ 0x800000)
    (h : img.addFiles root k files = some img') :
    ∃ cs' free', Layout img' (cs ++ cs') free' ∧ img'.nBlocks = img.nBlocks ∧
    img'.root = img.root := by
  induction files generalizing img cs free k with
  | nil =>
    cases h
    exact ⟨[], free, by rwa [List.append_nil], rfl, rfl⟩
  | cons f files ih =>
    rw [Image.addFiles] at h
    obtain ⟨⟨x, img₁⟩, h1, h⟩ := Option.bind_eq_some_iff.mp h
    obtain ⟨c, free', L', -, -, -, hn', hr'⟩ := oneFile_spec L hn h1
    obtain ⟨cs', free'', L'', hn'', hr''⟩ :=
      ih (L'.write root (16 + k * 16) (Image.strncpy f.name ++ le32 x))
      (show img₁.nBlocks ≤ _ from hn' ▸ hn) h
    refine ⟨c :: cs', free'', ?_, hn''.trans hn', hr''.trans hr'⟩
    rwa [List.append_assoc, List.singleton_append] at L''

end Layout

/-- The chains of the image are apart, also when there are more files than the root directory
holds. -/
theorem mkfs_layout (hn : n ≤ 0x800000) (hroom : 1 + fatBlocks n < n)
    (h : mkfs n files = some img) :
    ∃ cs free, Layout img ([img.root] :: cs) free ∧ img.nBlocks = n := by
  obtain ⟨img₀, free, L, rfl, hadd⟩ := mkfs_root hroom h
  obtain ⟨cs, free', L', hn', hr⟩ := (L.write img₀.root 0 _).addFiles hn hadd
  refine ⟨cs, free', ?_, hn'⟩
  rw [hr]
  exact L'

theorem Built.root_inArea (B : Built img n fs cs free) : InArea img.nBlocks img.root :=
  B.layout.root_inArea

theorem Image.toDev_of_inArea {x i : Nat} (hx : InArea img.nBlocks x) :
    img.toDev (x * 512 + i) = img.blocks (x * 512 + i) := by
  have hx1 := hx.1
  rw [fatBlocks] at hx1
  rw [Image.toDev, put_of_le, put_of_le]
  · rw [Super.bytes_length]; omega
  · rw [words_length, List.length_map, List.length_range]; omega

end

end K439.Fs
