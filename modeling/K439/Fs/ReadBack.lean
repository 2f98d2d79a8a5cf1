import K439.Fs.Mount

/-!
# Reading the files of an image

What `mkfs` stored in a file is what `Fat439File::read` gives, however the bytes come in.
-/

namespace K439.Fs

variable {fs : Fat439} {s o len : Nat} {c : List UInt8} {bs : List Nat}

/-- Reads of the sizes `sizes k`, `sizes (k + 1)` and so on until one gives no byte: all the bytes.
`none` is an error, or more reads than `fuel`. -/
def readAll (fs : Fat439) (sizes : Nat → Nat) : Nat → Nat → Fat439File → Option (List UInt8)
  | 0, _, _ => none
  | fuel + 1, k, f =>
    match f.read fs (sizes k) with
    | (.error _, _) => none
    | (.ok bytes, f) =>
      if bytes = [] then some [] else (readAll fs sizes fuel (k + 1) f).map (bytes ++ ·)

/-- One read gives the bytes at the offset, up to the end of the file or of the block. -/
theorem OpenFile.read_contents (hc : slice (view 512 fs.dev bs) 16 c.length = c)
    (hbs : Linked fs.fat 0 s bs) (hcov : 16 + c.length ≤ 512 * bs.length)
    (hlt : ∀ x ∈ bs, x < 0x800000) (hlen : (fs.metaData s).length = c.length)
    (hc32 : c.length + 16 < 0x100000000) (ho : o ≤ c.length) :
    OpenFile.read fs s o len =
      .ok ((c.drop o).take (min (min len (c.length - o)) (512 - (o + 16) % 512))) := by
  rw [OpenFile.read, hlen, if_neg (by omega)]
  simp only [w32_of_lt (show o + 16 < 0x100000000 by omega), BlockDevice.read_eq]
  congr 1
  rw [hbs.iterate_getD (by omega)]
  rcases Nat.lt_or_eq_of_le ho with h | rfl
  · have hk : (o + 16) / 512 < bs.length := by omega
    have hget : bs.getD ((o + 16) / 512) 0 = bs[(o + 16) / 512] := by simp [hk]
    have haddr := addr_lt (hlt _ (List.getElem_mem hk)) (Nat.mod_lt (o + 16) (show 512 > 0 by simp))
    rw [hget, w32_of_lt haddr, Nat.mul_add_mod_self_right, Nat.mod_mod]
    generalize hm : min (min len (c.length - o)) (512 - (o + 16) % 512) = m
    calc slice fs.dev (bs[(o + 16) / 512] * 512 + (o + 16) % 512) m
        = slice (view 512 fs.dev bs) (16 + o) m := by
          refine slice_congr fun i hi => ?_
          have h1 : (16 + o + i) / 512 = (o + 16) / 512 := by omega
          have h2 : (16 + o + i) % 512 = (o + 16) % 512 + i := by omega
          rw [view_of_lt (by omega), h2, ← Nat.add_assoc]
          simp only [h1]
      _ = ((slice (view 512 fs.dev bs) 16 c.length).drop o).take m := (slice_slice (by omega)).symm
      _ = (c.drop o).take m := by rw [hc]
  · simp

/-- Reads of any positive sizes give the rest of the file. -/
theorem readAll_eq {sizes : Nat → Nat} {fuel k : Nat} (hsizes : ∀ k, 0 < sizes k)
    (hc : slice (view 512 fs.dev bs) 16 c.length = c) (hbs : Linked fs.fat 0 s bs)
    (hcov : 16 + c.length ≤ 512 * bs.length) (hlt : ∀ x ∈ bs, x < 0x800000)
    (hlen : (fs.metaData s).length = c.length) (hc32 : c.length + 16 < 0x100000000)
    (ho : o ≤ c.length) (hfuel : c.length - o < fuel) :
    readAll fs sizes fuel k ⟨s, o⟩ = some (c.drop o) := by
  induction fuel generalizing o k with
  | zero => exact absurd hfuel (Nat.not_lt_zero _)
  | succ fuel ih =>
    rw [readAll, Fat439File.read]
    simp only [OpenFile.read_contents hc hbs hcov hlt hlen hc32 ho]
    generalize hm : min (min (sizes k) (c.length - o)) (512 - (o + 16) % 512) = m
    have hpos := hsizes k
    have hmod := Nat.mod_lt (o + 16) (show 512 > 0 by simp)
    rcases Nat.lt_or_eq_of_le ho with h | rfl
    · have hml : ((c.drop o).take m).length = m := by
        rw [List.length_take, List.length_drop]; omega
      rw [if_neg (List.ne_nil_of_length_pos (by omega)), hml, w32_of_lt (by omega),
        ih (by omega) (by omega), Option.map_some]
      congr 1
      rw [← List.drop_drop, List.take_append_drop]
    · simp

/-- Mounting the image that `mkfs` made of at most 31 files and reading each of them through its
entry in the root directory, in pieces of any sizes, gives the files back. -/
theorem mkfs_readBack {n : Nat} {files : List HostFile} {img : Image} (hn : n ≤ 0x800000)
    (hroom : 1 + fatBlocks n < n) (h31 : files.length ≤ 31) (h : mkfs n files = some img) :
    ∃ m, mount img.toDev = some m ∧ m.dirs = [⟨m.fs.super.root, files.length⟩] ∧
      ∀ i (hi : i < files.length),
      let entry := OpenFile.readFully m.fs m.fs.super.root (w32 (i * 16)) 16
      let start := decodeLE (entry.drop 12)
      let fs := m.fs.openFile start
      Fat439File.getLength fs ⟨start, 0⟩ = files[i].data.length ∧
        ∀ sizes : Nat → Nat, (∀ k, 0 < sizes k) →
          readAll fs sizes (files[i].data.length + 1) 0 ⟨start, 0⟩ = some files[i].data := by
  obtain ⟨cs, free, B, rfl⟩ := mkfs_built hn hroom h31 h
  refine ⟨_, B.mount_toDev hn, rfl, fun i hi => ?_⟩
  obtain ⟨c, hc⟩ : ∃ c, cs[i]? = some c := ⟨_, List.getElem?_eq_getElem (B.length ▸ hi)⟩
  have S := B.stored i files[i] c (List.getElem?_eq_getElem hi) hc
  have hcm : c ∈ [img.root] :: cs := List.mem_cons_of_mem _ (List.mem_of_getElem? hc)
  obtain ⟨hne, hlinked⟩ := B.layout.chain c hcm
  have hroot := B.root_inArea
  have hlt : ∀ x ∈ c, x < 0x800000 := fun x hx =>
    Nat.lt_of_lt_of_le (B.layout.inArea hcm hx).2 hn
  have hdev : ∀ x ∈ c, ∀ j < 512, img.toDev (x * 512 + j) = img.blocks (x * 512 + j) :=
    fun x hx j _ => Image.toDev_of_inArea (B.layout.inArea hcm hx)
  obtain ⟨l, hhead⟩ := hlinked.head_mem fun h => hne (hlinked.eq_nil_iff.mp h)
  have hlen := B.layout.length_lt hcm hne
  have hcov := S.length_le
  -- the entry of the file
  have hentry : OpenFile.readFully (img.toFs.openFile img.root) img.root (w32 (i * 16)) 16 =
      Image.strncpy files[i].name ++ le32 (c.headD 0) := by
    have hL : (img.toFs.openFile img.root).metaData img.root =
        ⟨TYPE_DIR, files.length * 16, 0, img.root⟩ := by
      rw [Fat439.metaData_openFile, Fat439.metaData_of_none rfl (by have := hroot.2; omega)]
      exact B.header_root
    rw [Fat439Directory.readFully_entry (by rw [hL]; dsimp only; omega) (by omega),
      Fat439Directory.entryAddr_of_lt (by omega) (by have := hroot.2; omega),
      ← B.entry i _ c (List.getElem?_eq_getElem hi) hc]
    refine slice_congr fun j hj => ?_
    rw [Nat.add_assoc]
    exact Image.toDev_of_inArea hroot
  have hstart : decodeLE ((Image.strncpy files[i].name ++ le32 (c.headD 0)).drop 12) =
      c.headD 0 := by
    rw [List.drop_left' strncpy_length, decode_le32]
    have := hlt _ (hhead ▸ List.mem_cons_self)
    omega
  dsimp only
  rw [show (img.toFs.openFile img.root).super.root = img.root from rfl, hentry, hstart]
  generalize hs : c.headD 0 = s at hlinked hhead
  have hmeta : ((img.toFs.openFile img.root).openFile s).metaData s =
      ⟨TYPE_FILE, files[i].data.length, 1023, s⟩ := by
    have hsc : s ∈ c := hhead ▸ List.mem_cons_self
    rw [Fat439.metaData_openFile, Fat439.metaData_openFile, Fat439.metaData_of_none rfl (hlt s hsc)]
    refine (header_congr fun j hj => hdev s hsc j (by omega)).trans ?_
    rw [← hs, S.header]
  refine ⟨by rw [Fat439File.getLength, hmeta], fun sizes hsizes => ?_⟩
  have hdata : slice (view 512 img.toDev c) 16 files[i].data.length = files[i].data :=
    (slice_congr fun j hj => view_congr hdev (by simp) (by omega)).trans S.data
  exact readAll_eq hsizes hdata hlinked hcov hlt (by rw [hmeta]) (by omega) (Nat.zero_le _)
    (by omega)

theorem mkfs_readBack_twoFiles :
    ∃ img m, mkfs 8 twoFiles = some img ∧ mount img.toDev = some m ∧
    let start i := decodeLE ((OpenFile.readFully m.fs m.fs.super.root (w32 (i * 16)) 16).drop 12)
    readAll (m.fs.openFile (start 0)) (fun k => k + 100) 601 0 ⟨start 0, 0⟩ =
      some (List.replicate 600 9) ∧
      readAll (m.fs.openFile (start 1)) (fun k => k + 1) 2 0 ⟨start 1, 0⟩ = some [7] := by
  obtain ⟨img, himg⟩ := Option.isSome_iff_exists.mp twoFiles_isSome
  obtain ⟨m, hm, -, h⟩ := mkfs_readBack (by decide) (by decide) (by decide) himg
  have h0 := (h 0 (Nat.succ_pos 1)).2 (fun k => k + 100) fun k => Nat.succ_pos _
  have h1 := (h 1 (Nat.lt_succ_self 1)).2 (fun k => k + 1) fun k => Nat.succ_pos k
  simp only [twoFiles, List.getElem_cons_zero, List.length_replicate] at h0
  exact ⟨img, m, himg, hm, h0, h1⟩

end K439.Fs
