import K439.Fs.Lookup
import K439.Fs.MkfsStores

/-!
# Looking up the files of `mkfs`

`mkfs` stores a name with `strncpy` into twelve bytes, and `lookup` needs a zero in them. A file is
found when its name leaves room for the zero; `mkdir` checks this, `mkfs` does not.
-/

namespace K439.Fs

variable {img : Image} {n : Nat} {files : List HostFile} {stores : List Store} {a b : List UInt8}
  {entry : Nat → UInt8} {cs : List (List Nat)} {free : List Nat}

/-- The stored name has a zero when it is short enough. -/
theorem strncpy_zero_mem (hz : 0 ∉ a) : 0 ∈ Image.strncpy a ↔ a.length < 12 := by
  rw [Image.strncpy, List.take_append, List.take_replicate, List.mem_append, List.mem_replicate]
  constructor
  · rintro (h | ⟨h, -⟩)
    · exact absurd (List.mem_of_mem_take h) hz
    · omega
  · exact fun h => .inr ⟨by omega, rfl⟩

theorem strncpy_takeWhile (hz : 0 ∉ a) (hlen : a.length < 12) :
    (Image.strncpy a).takeWhile (· ≠ 0) = a := by
  obtain ⟨k, hk⟩ : ∃ k, 12 - a.length = k + 1 := ⟨11 - a.length, by omega⟩
  have hpos : ∀ x ∈ a, (decide (x ≠ 0)) = true := fun x hx =>
    decide_eq_true fun h0 => hz (h0 ▸ hx)
  rw [Image.strncpy, List.take_append, List.take_of_length_le (by omega), List.take_replicate,
    List.takeWhile_append_of_pos hpos, show min (12 - a.length) 12 = k + 1 by
      omega, List.replicate_succ,
    List.takeWhile_cons_of_neg (by simp), List.append_nil]

/-- What `lookup` compares with a name that `mkfs` stored. -/
theorem sameName_strncpy (hza : 0 ∉ a) (hzb : 0 ∉ b) {p : Nat}
    (hE : slice entry p 12 = Image.strncpy a) :
    sameName (fun o => entry (p + o)) b 12 0 = true ↔ a.length < 12 ∧ a = b := by
  have hget : ∀ o (ho : o < (Image.strncpy a).length), entry (p + (0 + o)) =
      (Image.strncpy a)[o] := by
    intro o ho
    simp only [← hE, getElem_slice, Nat.zero_add]
  have htake := sameName_takeWhile (fun o => entry (p + o)) hzb (Nat.zero_le _) hget
  rw [strncpy_length, List.drop_zero] at htake
  rw [htake, strncpy_zero_mem hza]
  exact and_congr_right fun hlen => by rw [strncpy_takeWhile hza hlen]

/-- The first block of a file is behind the FAT. -/
theorem Built.head_inArea {c : List Nat} {i k : Nat} (B : Built img k files cs free)
    (hc : cs[i]? = some c) : InArea img.nBlocks (c.headD 0) := by
  have hcm : c ∈ [img.root] :: cs := List.mem_cons_of_mem _ (List.mem_of_getElem? hc)
  obtain ⟨hne, hlinked⟩ := B.layout.chain c hcm
  obtain ⟨l, hl⟩ := hlinked.head_mem fun h => hne (hlinked.eq_nil_iff.mp h)
  exact B.layout.inArea hcm (hl ▸ List.mem_cons_self)

/-- Where `lookup` ends when entry `i` is the only one of the root directory that may have the
name. -/
theorem Built.lookup {f : HostFile} {c : List Nat} {i : Nat}
    (B : Built img files.length files cs free) (hn : img.nBlocks ≤ 0x800000)
    (h31 : files.length ≤ 31) (hz : ∀ f ∈ files, 0 ∉ f.name)
    (hdot : f.name ≠ [0x2e] ∧ f.name ≠ [0x2e, 0x2e]) (hnd : (files.map (·.name)).Nodup)
    (hf : files[i]? = some f) (hc : cs[i]? = some c) :
    Fat439Directory.lookup (img.toFs.openFile img.root) ⟨img.root, files.length⟩ entry f.name =
      if f.name.length < 12 then c.headD 0 else 0 := by
  have hroot := B.root_inArea
  have hrl : img.root < 0x800000 := Nat.lt_of_lt_of_le hroot.2 hn
  have hL : ((img.toFs.openFile img.root).metaData img.root).length = files.length * 16 := by
    rw [Fat439.metaData_openFile, Fat439.metaData_of_none rfl hrl]
    exact congrArg MetaData.length B.header_root
  have hread : ∀ j, 0 ≤ j → j < 0 + files.length →
      OpenFile.readFully (img.toFs.openFile img.root) img.root (w32 (j * 16)) 16 =
        slice (img.toFs.openFile img.root).dev
          (Fat439Directory.entryAddr (img.toFs.openFile img.root) img.root j) 16 := fun j _ hj =>
    Fat439Directory.readFully_entry (by rw [hL]; omega) (by omega)
  have haddr :
      ∀ j < files.length, Fat439Directory.entryAddr (img.toFs.openFile img.root) img.root j =
      img.root * 512 + (16 + j * 16) := fun j hj => Fat439Directory.entryAddr_of_lt (by omega) hrl
  -- the entry `j` has the name `f.name` when it is the one of `f`, and the name is short
  have hentry : ∀ j g c', files[j]? = some g → cs[j]? = some c' →
      slice img.toDev (img.root * 512 + (16 + j * 16)) 16 = Image.strncpy g.name ++
        le32 (c'.headD 0) := by
    intro j g c' hg hc'
    rw [← B.entry j g c' hg hc']
    refine slice_congr fun o ho => ?_
    rw [Nat.add_assoc]
    exact Image.toDev_of_inArea hroot
  have hsame :
      ∀ j < files.length, sameName (fun o => img.toDev (img.root * 512 + (16 + j * 16) + o))
      f.name 12 0 =
      true ↔ f.name.length < 12 ∧ j = i := by
    intro j hj
    have hg := List.getElem?_eq_getElem hj
    have hc' := List.getElem?_eq_getElem (B.length ▸ hj)
    have hname : slice img.toDev (img.root * 512 + (16 + j * 16)) 12 =
        Image.strncpy files[j].name := by
      have := congrArg (List.take 12) (hentry j _ _ hg hc')
      rwa [List.take_left' strncpy_length, slice_take (by simp)] at this
    rw [sameName_strncpy (hz _ (List.getElem_mem hj)) (hz f (List.mem_of_getElem? hf)) hname]
    constructor
    · rintro ⟨hlen, heq⟩
      refine ⟨heq ▸ hlen, ?_⟩
      have hi : i < (files.map (·.name)).length := by
        rw [List.length_map]
        exact (List.getElem?_eq_some_iff.mp hf).1
      refine ((List.getElem?_inj hi hnd).mp ?_).symm
      rw [List.getElem?_map, List.getElem?_map, hf, hg, Option.map_some, Option.map_some, heq]
    · rintro ⟨hlen, rfl⟩
      rw [hg] at hf
      cases hf
      exact ⟨hlen, rfl⟩
  have hi := (List.getElem?_eq_some_iff.mp hf).1
  have hfind :
      (List.range' 0 files.length).find?
      (fun j => sameName (fun o => (img.toFs.openFile img.root).dev
      (Fat439Directory.entryAddr (img.toFs.openFile img.root) img.root j + o)) f.name 12 0) =
        if f.name.length < 12 then some i else none := by
    split
    next hlen =>
      refine List.find?_range'_eq_some.mpr ⟨?_, by simpa using hi, fun j _ hj => ?_⟩
      · rw [haddr i hi]
        exact (hsame i hi).mpr ⟨hlen, rfl⟩
      · rw [haddr j (by omega), Bool.not_eq_true', ← Bool.not_eq_true]
        exact fun h => absurd ((hsame j (by omega)).mp h).2 (Nat.ne_of_lt hj)
    next hlen =>
      refine List.find?_eq_none.mpr fun j hj h => hlen ?_
      obtain ⟨-, hj⟩ := List.mem_range'_1.mp hj
      rw [haddr j (by omega)] at h
      exact ((hsame j (by omega)).mp h).1
  rw [Fat439Directory.lookup, if_neg hdot.1, if_neg hdot.2,
    Fat439Directory.search_eq (d := ⟨img.root, files.length⟩) hread, hfind]
  split
  next hlen =>
    rw [Option.map_some, Option.map_some, Option.getD_some, haddr i hi]
    have hdrop := congrArg (List.drop 12) (hentry i f c hf hc)
    rw [show 16 = 12 + 4 from rfl, slice_drop, List.drop_left' strncpy_length] at hdrop
    calc word img.toDev (img.root * 512 + (16 + i * 16) + 12) = decodeLE (le32 (c.headD 0)) := by
          rw [← hdrop, word]
      _ = c.headD 0 := decode_le32 (by have := (B.head_inArea hc).2; omega)
  next hlen => rfl

/-- `lookup` in the root directory gives the first block of every file. -/
def Finds (m : Mount) (files : List HostFile) (cs : List (List Nat)) : Prop :=
  ∀ (i : Nat) f c, files[i]? = some f → cs[i]? = some c → ∀ d ∈ m.dirs, ∀ entry,
    d.lookup m.fs entry f.name = c.headD 0

theorem mkfs_of_mkfsMain (h : mkfsMain n files = .done img stores) :
    n ≤ 0x800000 ∧ mkfs n files = some img := by
  obtain ⟨hf, hn, hs⟩ := mkfsMain_done h
  refine ⟨by omega, ?_⟩
  rw [← mkfsStores_eq hf, hs]
  rfl

/-- **A file of `mkfs` is found when its name has less than twelve bytes.** -/
theorem mkfs_lookup_iff (h31 : files.length ≤ 31) (hz : ∀ f ∈ files, 0 ∉ f.name)
    (hdot : ∀ f ∈ files, f.name ≠ [0x2e] ∧ f.name ≠ [0x2e, 0x2e])
    (hnd : (files.map (·.name)).Nodup) (h : mkfsMain n files = .done img stores) :
    ∃ m cs free, mount img.toDev = some m ∧ m.dirs = [⟨m.fs.super.root, files.length⟩] ∧
      Built img files.length files cs free ∧
      (Finds m files cs ↔ ∀ f ∈ files, f.name.length < 12) := by
  obtain ⟨hn, himg⟩ := mkfs_of_mkfsMain h
  have hroom := (mkfs_isSome_iff.mp (Option.isSome_of_eq_some himg)).2.1
  obtain ⟨cs, free, B, rfl⟩ := mkfs_built hn hroom h31 himg
  refine ⟨_, cs, free, B.mount_toDev hn, rfl, B, ?_⟩
  constructor
  · intro hfind f hf
    obtain ⟨i, hi, rfl⟩ := List.mem_iff_getElem.mp hf
    have hc := List.getElem?_eq_getElem (B.length ▸ hi)
    have := hfind i _ _ (List.getElem?_eq_getElem hi) hc _ List.mem_cons_self fun _ => 0
    rw [B.lookup hn h31 hz (hdot _ hf) hnd (List.getElem?_eq_getElem hi) hc] at this
    by_contra hlen
    rw [if_neg hlen] at this
    have := (B.head_inArea hc).1
    omega
  · intro hlen i f c hf hc d hd entry
    obtain rfl := List.mem_singleton.mp hd
    have hfm := List.mem_of_getElem? hf
    exact (B.lookup hn h31 hz (hdot f hfm) hnd hf hc).trans (if_pos (hlen f hfm))

theorem mkfs_lookup_twoFiles : ∃ img stores, mkfsMain 8 twoFiles = .done img stores ∧
    ∃ m cs free, mount img.toDev = some m ∧ m.dirs = [⟨m.fs.super.root, 2⟩] ∧
    Built img 2 twoFiles cs free ∧
      (Finds m twoFiles cs ↔ ∀ f ∈ twoFiles, f.name.length < 12) := by
  obtain ⟨img, stores, h⟩ :=
    mkfsMain_of_mkfs (by decide) (by decide) (List.cons_ne_nil _ _) twoFiles_isSome
  exact ⟨img, stores, h, mkfs_lookup_iff (by decide) (by decide) (by decide) (by decide) h⟩

/-- A file with a name of twelve bytes. -/
theorem mkfs_lookup_lost :
    ¬∀ n files img stores, files.length ≤ 31 → (∀ f ∈ files, 0 ∉ f.name) →
    (∀ f ∈ files, f.name ≠ [0x2e] ∧ f.name ≠ [0x2e, 0x2e]) →
    (files.map (·.name)).Nodup →
    mkfsMain n files = .done img stores →
    ∀ m cs free, mount img.toDev = some m → Built img files.length files cs free →
    Finds m files cs := by
  intro hall
  obtain ⟨img, stores, h⟩ : ∃ img stores,
      mkfsMain 8 [{ byteFile with name := List.replicate 12 0x61 }] = .done img stores :=
    mkfsMain_of_mkfs (by decide) (by decide) (by simp) (by decide)
  obtain ⟨m, cs, free, hm, -, B, hiff⟩ :=
    mkfs_lookup_iff (by decide) (by decide) (by decide) (by decide) h
  have := hiff.mp
    (hall 8 _ img stores (by decide) (by decide) (by decide) (by decide) h m cs free hm B)
  exact absurd (this _ List.mem_cons_self) (by decide)

end K439.Fs
