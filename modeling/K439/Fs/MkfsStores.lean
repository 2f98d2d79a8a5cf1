import K439.Fs.Mount

/-!
# What `mkfs` stores

The functions of `fat439/mkfs.c` again, with every store into the image, also those before an exit:
what it is meant for, where it starts and how many bytes it has. In the area after the FAT the
blocks are in the chains of the root directory, of the files and of the free blocks
(`mkfs_wellFormed`). The root directory is the last block of the image, so the entry of the 32nd
file is stored behind the image (`mkfs_stores_inside_iff`).
-/

namespace K439.Fs

/-- What a store is meant for. -/
inductive Region
  | super
  | fat
  | root
  /-- the bytes of the `i`th file -/
  | file (i : Nat)
  deriving DecidableEq

structure Store where
  region : Region
  addr : Nat
  size : Nat
  deriving DecidableEq

/-- `blocks + idx * 512 + offset`; the product is a `uint32_t`. -/
def toPtr (idx offset : Nat) : Nat := w32 (idx * 512) + offset

/-- The image and the stores into it. -/
abbrev Written := Image × List Store

/-- What is written up to a result, or up to the exit "disk is full". -/
def written {α : Type} : Except Written (α × Written) → Written
  | .ok (_, r) => r
  | .error r => r

namespace Image

variable (img : Image)

def getBlockStores (stores : List Store) : Except Written (Nat × Written) :=
  match img.getBlock with
  | none => .error (img, stores)
  | some (idx, img) => .ok (idx, img, stores ++ [⟨.super, 8, 4⟩, ⟨.fat, 512 + 4 * idx, 4⟩])

/-- `fill` for the `i`th file. -/
def fillStores (i : Nat) (count : Nat → Nat) :
    Nat → Image → Nat → Nat → Nat → Nat → List UInt8 →
    List Store → Except Written (Nat × Written)
  | 0, img, _, _, _, _, _, stores => .error (img, stores)
  | fuel + 1, img, currentBlock, leftInBlock, blockOffset, totalSize, data, stores => do
    let ((currentBlock, blockOffset, leftInBlock), img, stores) ←
      (if leftInBlock = 0 then
        (img.getBlockStores stores).map fun (b, img, stores) =>
          ((b, 0, 512), { img with fat := Function.update img.fat currentBlock b },
            stores ++ [⟨.fat, 512 + 4 * currentBlock, 4⟩])
      else .ok ((currentBlock, blockOffset, leftInBlock), img, stores))
    if data = [] then .ok (totalSize, img, stores)
    else
      let n := min (max 1 (count totalSize)) (min leftInBlock data.length)
      fillStores i count fuel (img.write currentBlock blockOffset (data.take n)) currentBlock
        (leftInBlock - n) (blockOffset + n) (totalSize + n) (data.drop n)
        (stores ++ [⟨.file i, toPtr currentBlock blockOffset, n⟩])

def oneFileStores (i : Nat) (f : HostFile) (stores : List Store) :
    Except Written (Nat × Written) := do
  let (startBlock, img, stores) ← img.getBlockStores stores
  let img := img.write startBlock 0 (le32 1)
  let img := img.write startBlock 8 (le32 1023 ++ le32 startBlock)
  let stores :=
    stores ++ [⟨.file i, toPtr startBlock 0, 4⟩, ⟨.file i, toPtr startBlock 0 + 8, 4⟩,
    ⟨.file i, toPtr startBlock 0 + 12, 4⟩]
  let (totalSize, img, stores) ←
    fillStores i f.count (f.data.length + 1) img startBlock (512 - 16) 16 0 f.data stores
  .ok (startBlock, img.write startBlock 4 (le32 totalSize),
    stores ++ [⟨.file i, toPtr startBlock 0 + 4, 4⟩])

def addFilesStores (root : Nat) :
    Image → Nat → List HostFile → List Store → Except Written (Unit × Written)
  | img, _, [], stores => .ok ((), img, stores)
  | img, i, f :: files, stores => do
    let (x, img, stores) ← img.oneFileStores i f stores
    let dest := toPtr root 16 + i * 16
    addFilesStores root (img.write root (16 + i * 16) (strncpy f.name ++ le32 x)) (i + 1) files
      (stores ++ [⟨.root, dest, 12⟩, ⟨.root, dest + 12, 4⟩])

end Image

/-- The stores before the first block is taken. -/
def freshStores (nBlocks : Nat) : List Store :=
  let lastAvail := 1 + fatBlocks nBlocks
  [⟨.super, 0, 1⟩, ⟨.super, 1, 1⟩, ⟨.super, 2, 1⟩, ⟨.super, 3, 1⟩,
    ⟨.super, 4, 4⟩, ⟨.super, 8, 4⟩] ++
    (List.range' (lastAvail + 1) (nBlocks - 1 - lastAvail)).reverse.map fun i =>
      ⟨.fat, 512 + 4 * i, 4⟩

def mkfsStores (nBlocks : Nat) (files : List HostFile) : Except Written (Unit × Written) := do
  let (root, img, stores) ← (freshImage nBlocks).getBlockStores (freshStores nBlocks)
  let metaData : MetaData :=
    { type := TYPE_DIR, length := files.length * 16, parentDir := 0, currentBlk := root }
  let img := { img with root := root }.write root 0 metaData.bytes
  let stores :=
    stores ++ [⟨.super, 12, 4⟩, ⟨.root, toPtr root 0, 4⟩, ⟨.root, toPtr root 0 + 4, 4⟩,
    ⟨.root, toPtr root 0 + 8, 4⟩, ⟨.root, toPtr root 0 + 12, 4⟩]
  img.addFilesStores root 0 files stores

/-- How `mkfs` ends. -/
inductive MkfsOutcome
  | exit (img : Image) (stores : List Store)
  /-- `mapLength = nBlocks * 512` overflows an `int` -/
  | undefined
  | done (img : Image) (stores : List Store)

/-- `main`. Without a file it prints its usage, and nothing of length 0 is mapped. -/
def mkfsMain (nBlocks : Nat) (files : List HostFile) : MkfsOutcome :=
  if files = [] then .exit (freshImage nBlocks) []
  else if nBlocks * 512 ≥ 0x80000000 then .undefined
  else if nBlocks = 0 then .exit (freshImage nBlocks) []
  else match mkfsStores nBlocks files with
    | .error (img, stores) => .exit img stores
    | .ok (_, img, stores) => .done img stores

/-- The store is in the image and in its region. -/
def Store.Inside (s : Store) (nBlocks root : Nat) (chains : List (List Nat)) : Prop :=
  s.addr + s.size ≤ 512 * nBlocks ∧
  match s.region with
  | .super => s.addr + s.size ≤ 512
  | .fat => 512 ≤ s.addr ∧ s.addr + s.size ≤ 512 * (1 + fatBlocks nBlocks)
  | .root => root * 512 ≤ s.addr ∧ s.addr + s.size ≤ root * 512 + 512
  | .file i =>
    ∃ c, chains[i]? = some c ∧ ∃ b ∈ c, b * 512 ≤ s.addr ∧
      s.addr + s.size ≤ b * 512 + 512

section

variable {img img' : Image} {cs : List (List Nat)} {c free : List Nat} {stores stores' : List Store}
  {s : Store} {i n x root cur cur' left left' off off' size total fuel : Nat} {count : Nat → Nat}
  {data : List UInt8} {f : HostFile} {files : List HostFile}

/-! ## The stores change nothing -/

theorem Image.getBlockStores_ok {b : Nat} (h : img.getBlockStores stores = .ok (b, img', stores')) :
    img.getBlock = some (b, img') ∧
    stores' = stores ++ [⟨.super, 8, 4⟩, ⟨.fat, 512 + 4 * b, 4⟩] := by
  rw [getBlockStores] at h
  split at h
  · cases h
  next hget =>
    cases h
    exact ⟨hget, rfl⟩

/-- The disk is full. -/
theorem Image.getBlockStores_error {r : Image × List Store}
    (h : img.getBlockStores stores = .error r) : img.getBlock = none ∧ r = (img, stores) := by
  rw [getBlockStores] at h
  split at h
  next hget =>
    cases h
    exact ⟨hget, rfl⟩
  · cases h

theorem Image.fillStores_eq :
    (Image.fillStores i count fuel img cur left off size data stores).toOption.map
    (fun r => (r.1, r.2.1)) =
      Image.fill count fuel img cur left off size data := by
  induction fuel generalizing img cur left off size data stores with
  | zero => rfl
  | succ fuel ih =>
    rw [fillStores, fill]
    split
    next h0 =>
      rw [getBlockStores]
      cases hb : img.getBlock with
      | none => rfl
      | some r =>
        simp only [Option.bind_some, Option.map_some, Except.map, bind, Except.bind]
        split
        · rfl
        · exact ih
    next h0 =>
      simp only [Option.bind_some, bind, Except.bind]
      split
      · rfl
      · exact ih

theorem Image.oneFileStores_eq :
    (img.oneFileStores i f stores).toOption.map (fun r => (r.1, r.2.1)) = img.oneFile f := by
  rw [oneFileStores, oneFile, getBlockStores]
  cases img.getBlock with
  | none => rfl
  | some r =>
    simp only [Option.bind_some, bind, Except.bind]
    rw [← fillStores_eq (i := i)]
    generalize fillStores i f.count _ _ _ _ _ _ _ _ = r
    cases r <;> rfl

theorem Image.addFilesStores_eq :
    (Image.addFilesStores root img i files stores).toOption.map (·.2.1) =
    img.addFiles root i files := by
  induction files generalizing img i stores with
  | nil => rfl
  | cons f files ih =>
    rw [addFilesStores, addFiles, ← @oneFileStores_eq img stores i f]
    cases img.oneFileStores i f stores with
    | error => rfl
    | ok r => exact ih

/-- The image is the one of `mkfs`. -/
theorem mkfsStores_eq (hf : files ≠ []) :
    (mkfsStores n files).toOption.map (·.2.1) = mkfs n files := by
  rw [mkfsStores, mkfs, Image.getBlockStores]
  cases (freshImage n).getBlock with
  | none => rfl
  | some r =>
    simp only [Option.bind_eq_bind, Option.bind_some]
    rw [if_neg hf]
    exact Image.addFilesStores_eq

/-! ## Where the stores are -/

namespace Store.Inside

variable {chains more : List (List Nat)}

theorem append (h : s.Inside n root chains) : s.Inside n root (chains ++ more) := by
  refine ⟨h.1, ?_⟩
  have h := h.2
  cases hr : s.region with
  | super | fat | root => rwa [hr] at h
  | file i =>
    rw [hr] at h
    obtain ⟨c, hc, hb⟩ := h
    obtain ⟨hi, hc⟩ := List.getElem?_eq_some_iff.mp hc
    exact ⟨c, by rw [List.getElem?_append_left hi, List.getElem?_eq_getElem hi, hc], hb⟩

theorem of_super {a k : Nat} (h : a + k ≤ 16) (hn : 0 < n) :
    Inside ⟨.super, a, k⟩ n root chains :=
  ⟨show a + k ≤ 512 * n by omega, show a + k ≤ 512 by omega⟩

theorem of_fat (hx : InArea n x) : Inside ⟨.fat, 512 + 4 * x, 4⟩ n root chains := by
  obtain ⟨h1, h2⟩ := hx
  rw [fatBlocks] at h1
  refine ⟨?_, ?_, ?_⟩
  · show 512 + 4 * x + 4 ≤ 512 * n
    omega
  · show 512 ≤ 512 + 4 * x
    omega
  · show 512 + 4 * x + 4 ≤ 512 * (1 + fatBlocks n)
    rw [fatBlocks]
    omega

theorem of_root {a k : Nat} (hroot : root < n) (h1 : root * 512 ≤ a)
    (h2 : a + k ≤ root * 512 + 512) : Inside ⟨.root, a, k⟩ n root chains :=
  ⟨show a + k ≤ 512 * n by omega, h1, h2⟩

theorem of_file {a k b : Nat} (hc : chains[i]? = some c) (hb : b ∈ c) (hbn : b < n)
    (h1 : b * 512 ≤ a) (h2 : a + k ≤ b * 512 + 512) :
    Inside ⟨.file i, a, k⟩ n root chains :=
  ⟨show a + k ≤ 512 * n by omega, c, hc, b, hb, h1, h2⟩

end Store.Inside

theorem toPtr_eq (hx : x < n) (hn : n < 0x400000) : toPtr x off = x * 512 + off := by
  rw [toPtr, w32_of_lt (by omega)]

/-- `getBlock` stores to the entry of the block. -/
theorem Layout.getBlockStores {b : Nat} {cs : List (List Nat)} (L : Layout img cs free)
    (h : img.getBlockStores stores = .ok (b, img', stores')) :
    img.getBlock = some (b, img') ∧ InArea img.nBlocks b ∧ ∃ new, stores' = stores ++ new ∧
      ∀ s ∈ new, ∀ root chains, s.Inside img.nBlocks root chains := by
  obtain ⟨hb, rfl⟩ := Image.getBlockStores_ok h
  obtain ⟨free', rfl, -⟩ := L.getBlock_eq hb
  have harea := L.inArea_of_free List.mem_cons_self
  refine ⟨hb, harea, _, rfl, fun s hs root chains => ?_⟩
  rcases List.mem_cons.mp hs with rfl | hs
  · exact .of_super (by omega) (Nat.zero_lt_of_lt harea.2)
  · obtain rfl := List.mem_singleton.mp hs
    exact .of_fat harea

/-- The chain `c` of the last file became `c ++ e`, and only its blocks were written. -/
structure Extended (img : Image) (root : Nat) (cs : List (List Nat)) (c e : List Nat)
    (stores : List Store) (img' : Image) (stores' : List Store) : Prop where
  layout : ∃ free', Layout img' (([root] :: cs) ++ [c ++ e]) free'
  frame : ∀ x, x ∉ c ++ e → ∀ j < 512, img'.blocks (x * 512 + j) = img.blocks (x * 512 + j)
  inside : ∃ new, stores' = stores ++ new ∧
    ∀ s ∈ new, s.Inside img.nBlocks root (cs ++ [c ++ e])
  nBlocks : img'.nBlocks = img.nBlocks
  root : img'.root = img.root

theorem Extended.refl (L : Layout img (([root] :: cs) ++ [c]) free) :
    Extended img root cs c [] stores img stores where
  layout := ⟨free, by rwa [List.append_nil]⟩
  nBlocks := rfl
  root := rfl
  frame _ _ _ _ := rfl
  inside := ⟨[], (List.append_nil _).symm, fun _ hs => absurd hs List.not_mem_nil⟩

/-- The first part of a round of `fillStores`: the block that is taken when the last one is full. -/
theorem Layout.nextBlockStores {img₁ : Image} {stores₁ : List Store}
    {cur₁ off₁ left₁ : Nat} (L : Layout img (([root] :: cs) ++ [c ++ [cur]]) free)
    (h : (if left = 0 then (img.getBlockStores stores).map fun p => ((p.1, 0, 512),
      { p.2.1 with fat := Function.update p.2.1.fat cur p.1 },
    p.2.2 ++ [⟨.fat, 512 + 4 * cur, 4⟩])
    else .ok ((cur, off, left), img, stores)) =
    .ok ((cur₁, off₁, left₁), img₁, stores₁)) :
    (if left = 0 then img.getBlock.map fun p =>
      ({ p.2 with fat := Function.update p.2.fat cur p.1 }, p.1, 0, 512)
    else some (img, cur, off, left)) = some (img₁, cur₁, off₁, left₁) ∧
      ∃ pre, stores₁ = stores ++ pre ∧
      ∀ s ∈ pre, ∀ chains, s.Inside img.nBlocks root chains := by
  split at h
  next h0 =>
    cases hb : img.getBlockStores stores with
    | error =>
      rw [hb] at h
      cases h
    | ok r =>
      obtain ⟨b, img₂, stores₂⟩ := r
      rw [hb] at h
      cases h
      obtain ⟨hget, -, new, rfl, hnew⟩ := L.getBlockStores hb
      refine ⟨by rw [if_pos h0, hget]; rfl, new ++ [⟨.fat, 512 + 4 * cur, 4⟩],
        by rw [List.append_assoc], fun s hs chains => ?_⟩
      rcases List.mem_append.mp hs with hs | hs
      · exact hnew s hs root chains
      · obtain rfl := List.mem_singleton.mp hs
        exact .of_fat (L.inArea (c := c ++ [cur]) (by simp) (by simp))
  next h0 =>
    cases h
    exact ⟨if_neg h0, [], by rw [List.append_nil], fun s hs => absurd hs List.not_mem_nil⟩

/-- The bytes of a file, also when the disk is full before its end. -/
theorem Layout.fillStores (L : Layout img (([root] :: cs) ++ [c ++ [cur]]) free)
    (hn : img.nBlocks < 0x400000) (hi : cs.length = i) (hpos : 16 + size = c.length * 512 + off)
    (hoff : off ≤ 512) (hleft : left = 512 - off)
    (h : written (Image.fillStores i count fuel img cur left off size data stores) =
      (img', stores')) :
    ∃ e, Extended img root cs (c ++ [cur]) e stores img' stores' := by
  induction fuel generalizing img c cur free left off size data stores with
  | zero =>
    obtain ⟨rfl, rfl⟩ := Prod.mk.inj h
    exact ⟨[], .refl L⟩
  | succ fuel ih =>
    rw [Image.fillStores] at h
    generalize h1 : (if left = 0 then _ else _) = r at h
    cases r with
    | error r =>
      -- the last block is full, and the disk too
      split at h1
      · cases hget : img.getBlockStores stores with
        | error r' =>
          obtain ⟨-, rfl⟩ := Image.getBlockStores_error hget
          rw [hget] at h1
          cases h1
          obtain ⟨rfl, rfl⟩ := Prod.mk.inj h
          exact ⟨[], .refl L⟩
        | ok r' =>
          rw [hget] at h1
          cases h1
      · cases h1
    | ok r =>
    obtain ⟨⟨cur₁, off₁, left₁⟩, img₁, stores₁⟩ := r
    obtain ⟨hnext, pre, rfl, hpre⟩ := L.nextBlockStores h1
    obtain ⟨c₁, e, free₁, hc₁, L₁, hpos₁, hoff₁, hleft₁, hblocks, hn₁, hr₁⟩ :=
      nextBlock_spec L hpos hoff hleft hnext
    rw [show ∀ f : (Nat × Nat × Nat) × Written → Except Written (Nat × Written),
      (Except.ok ((cur₁, off₁, left₁), img₁, stores ++ pre) >>= f) =
        f ((cur₁, off₁, left₁), img₁, stores ++ pre) from fun _ => rfl] at h
    dsimp only at h
    split at h
    next hnil =>
      obtain ⟨rfl, rfl⟩ := Prod.mk.inj h
      exact ⟨e, ⟨free₁, hc₁ ▸ L₁⟩, fun x _ j _ => by rw [hblocks],
        ⟨pre, rfl, fun s hs => hpre s hs _⟩, hn₁, hr₁⟩
    next hne =>
      have hdata := List.length_pos_iff.mpr hne
      generalize hk : min (max 1 (count size)) (min left₁ data.length) = k at h
      have hk1 : 0 < k ∧ k ≤ left₁ ∧ k ≤ data.length := by omega
      obtain ⟨e', ⟨free', L'⟩, hframe, ⟨new, rfl, hnew⟩, hn', hr'⟩ :=
        ih (L₁.write cur₁ off₁ (data.take k))
        (show img₁.nBlocks < _ from hn₁ ▸ hn)
          (show 16 + (size + k) = c₁.length * 512 + (off₁ + k) by omega)
        (by omega) (by omega) h
      have hall : c ++ [cur] ++ (e ++ e') = c₁ ++ [cur₁] ++ e' := by rw [hc₁]; simp
      have hcur : cur₁ < img₁.nBlocks :=
        (L₁.inArea (c := c₁ ++ [cur₁]) (by simp) (by simp)).2
      rw [hn₁] at hcur
      refine ⟨e ++ e', ⟨free', by rwa [hall]⟩, fun x hx j hj => ?_,
        ⟨pre ++ ⟨.file i, toPtr cur₁ off₁, k⟩ :: new, by simp, fun s hs => ?_⟩,
          hn'.trans hn₁, hr'.trans hr₁⟩ <;>
        rw [hall] at *
      · rw [hframe x hx j hj]
        refine (put_block_ne (fun he => hx (by simp [he])) hj
          (by rw [List.length_take]; omega)).trans ?_
        rw [hblocks]
      · rcases List.mem_append.mp hs with hs | hs
        · exact hpre s hs _
        rcases List.mem_cons.mp hs with rfl | hs
        · rw [toPtr_eq hcur hn]
          refine .of_file (b := cur₁) (by rw [← hi, List.getElem?_concat_length])
            (by simp) hcur (by omega)
            (by omega)
        · have := hnew s hs
          rwa [show (img₁.write cur₁ off₁ (data.take k)).nBlocks = img.nBlocks from hn₁]
            at this

/-- A file, also when the disk is full before its end; it may have no block then. -/
theorem Layout.oneFileStores (L : Layout img ([root] :: cs) free) (hn : img.nBlocks < 0x400000)
    (hi : cs.length = i) (h : written (img.oneFileStores i f stores) = (img', stores')) :
    ∃ c free', Layout img' ([root] :: (cs ++ c)) free' ∧ img'.nBlocks = img.nBlocks ∧
    img'.root = img.root ∧
      (∀ y, y ∉ c.flatten → ∀ j < 512, img'.blocks (y * 512 + j) =
        img.blocks (y * 512 + j)) ∧
      (∀ x r, img.oneFileStores i f stores = .ok (x, r) → ∃ c₀, c = [c₀] ∧
        c₀.headD 0 = x) ∧
      ∃ new, stores' = stores ++ new ∧ ∀ s ∈ new, s.Inside img.nBlocks root (cs ++ c) := by
  rw [Image.oneFileStores] at h ⊢
  cases h1 : img.getBlockStores stores with
  | error r =>
    obtain ⟨-, rfl⟩ := Image.getBlockStores_error h1
    rw [h1] at h
    obtain ⟨rfl, rfl⟩ := Prod.mk.inj h
    exact ⟨[], free, by rwa [List.append_nil], rfl, rfl, fun _ _ _ _ => rfl,
      fun x r h => (by cases h),
      [], (List.append_nil _).symm, fun s hs => absurd hs List.not_mem_nil⟩
  | ok r =>
    obtain ⟨x, img₁, stores₁⟩ := r
    rw [h1] at h
    obtain ⟨hget, -, pre, rfl, hpre⟩ := L.getBlockStores h1
    obtain ⟨free₁, hfree, rfl⟩ := L.getBlock_eq hget
    simp only [bind, Except.bind] at h ⊢
    generalize h2 : Image.fillStores i f.count _ _ _ _ _ _ _ _ = r at h ⊢
    have hL := ((L.new hfree).write x 0 (le32 1)).write x 8 (le32 1023 ++ le32 x)
    obtain ⟨e, ⟨free', L'⟩, hframe, ⟨new, hw, hnew⟩, hn', hr'⟩ :=
      Layout.fillStores (c := []) hL hn hi (by simp) (by simp) (by simp) (congrArg written h2)
    rw [List.nil_append, List.cons_append] at L' hnew
    simp only [List.nil_append, Nat.add_zero, Image.write_blocks] at hframe
    have hx : x < img.nBlocks := by
      have := (L'.inArea (c := [x] ++ e) (b := x) (by simp) (by simp)).2
      rwa [hn'] at this
    have hheader : ∀ o k, o + k ≤ 16 →
        Store.Inside ⟨.file i, toPtr x 0 + o, k⟩ img.nBlocks root
        (cs ++ [[x] ++ e]) := by
      intro o k hk
      rw [toPtr_eq hx hn]
      exact .of_file (b := x) (by rw [← hi, List.getElem?_concat_length]) (by simp) hx (by omega)
        (by omega)
    have hmeta : ∀ y, y ∉ [x] ++ e → ∀ j < 512, (written r).1.blocks (y * 512 + j) =
        img.blocks (y * 512 + j) := by
      intro y hy j hj
      have hyx : y ≠ x := fun he => hy (by simp [he])
      exact (hframe y hy j hj).trans ((put_block_ne hyx hj (by simp)).trans
        (put_block_start_ne hyx hj (by simp)))
    have hstores : ∀ s ∈ pre ++ [⟨.file i, toPtr x 0, 4⟩, ⟨.file i, toPtr x 0 + 8, 4⟩,
        ⟨.file i, toPtr x 0 + 12, 4⟩] ++ new, s.Inside img.nBlocks root (cs ++ [[x] ++ e]) := by
      intro s hs
      simp only [List.mem_append, List.mem_cons, List.not_mem_nil, or_false] at hs
      rcases hs with (hs | rfl | rfl | rfl) | hs
      · exact hpre s hs _ _
      · exact hheader 0 4 (by simp)
      · exact hheader 8 4 (by simp)
      · exact hheader 12 4 (by simp)
      · exact hnew s hs
    cases r with
    | error r =>
      obtain rfl : r = (img', stores') := h
      exact ⟨[[x] ++ e], free', L', hn', hr', by simpa [written] using hmeta,
        fun x r h => (by cases h), _,
        hw.trans (by simp only [List.append_assoc]), hstores⟩
    | ok r =>
      obtain ⟨total, img₂, stores₂⟩ := r
      obtain ⟨rfl, rfl⟩ := Prod.mk.inj h
      obtain rfl : stores₂ = _ := hw
      refine ⟨[[x] ++ e], free', L'.write .., hn', hr', fun y hy j hj => ?_, fun x' r h => ?_,
        pre ++ [⟨.file i, toPtr x 0, 4⟩, ⟨.file i, toPtr x 0 + 8, 4⟩,
          ⟨.file i, toPtr x 0 + 12, 4⟩] ++ new ++
          [⟨.file i, toPtr x 0 + 4, 4⟩], by simp only [List.append_assoc], fun s hs => ?_⟩
      · have hyx : y ≠ x := fun he => hy (by simp [he])
        exact (put_block_ne hyx hj (by simp)).trans (hmeta y (by simpa using hy) j hj)
      · cases h
        exact ⟨[x] ++ e, rfl, rfl⟩
      · rcases List.mem_append.mp hs with hs | hs
        · exact hstores s hs
        · obtain rfl := List.mem_singleton.mp hs
          exact hheader 4 4 (by simp)

/-- The blocks of the files are others than that of the root directory. -/
theorem Layout.flatten_lt {root y : Nat} (L : Layout img ([root] :: cs) free)
    (hy : y ∈ cs.flatten) : y ≠ root ∧ y < img.nBlocks := by
  obtain ⟨c, hc, hyc⟩ := List.mem_flatten.mp hy
  refine ⟨?_, (L.inArea (List.mem_cons_of_mem _ hc) hyc).2⟩
  rintro rfl
  have hnd := L.nodup
  simp only [List.flatten_cons, List.cons_append, List.nil_append, List.nodup_cons] at hnd
  exact hnd.1 (List.mem_append_left _ hy)

/-- The files from the `i`th one on, with their entries. When the disk is full before the last
entry, the entries that were stored fit as long as those of the files before it do. -/
theorem Layout.addFilesStores (L : Layout img ([img.root] :: cs) free) (hn : img.nBlocks < 0x400000)
    (hlast : img.root + 1 = img.nBlocks) (hi : cs.length = i)
    (h : written (img.addFilesStores img.root i files stores) = (img', stores')) :
    ∃ cs' free', Layout img' ([img.root] :: (cs ++ cs')) free' ∧ img'.nBlocks = img.nBlocks ∧
      img'.root = img.root ∧
      (∀ a, img.root * 512 ≤ a → a < img.root * 512 + (16 + i * 16) →
        img'.blocks a = img.blocks a) ∧
      ∃ new, stores' = stores ++ new ∧
        (∀ r, img.addFilesStores img.root i files stores = .ok r → cs'.length = files.length ∧
          (∀ j c, cs'[j]? = some c →
            word img'.blocks (img.root * 512 + (16 + (i + j) * 16) + 12) = c.headD 0) ∧
          ∀ j < files.length, ⟨.root, img.root * 512 + 16 + (i + j) * 16, 12⟩ ∈ new) ∧
        (i + files.length ≤ 32 →
          ((∃ r, img.addFilesStores img.root i files stores = .ok r) →
          i + files.length ≤ 31) → ∀ s ∈ new,
          s.Inside img.nBlocks img.root (cs ++ cs')) := by
  induction files generalizing img cs free i stores with
  | nil =>
    obtain ⟨rfl, rfl⟩ := Prod.mk.inj h
    exact ⟨[], free, by rwa [List.append_nil], rfl, rfl, fun _ _ _ => rfl, [],
      (List.append_nil _).symm,
      fun _ _ => ⟨rfl, fun j c hc => (by cases hc), fun j hj => absurd hj (Nat.not_lt_zero j)⟩,
      fun _ _ s hs => absurd hs List.not_mem_nil⟩
  | cons f files ih =>
    rw [Image.addFilesStores] at h ⊢
    rcases hone : written (img.oneFileStores i f stores) with ⟨img₁, stores₁⟩
    obtain ⟨c, free₁, L₁, hn₁, hr₁, hframe, hok, pre, rfl, hpre⟩ :=
      L.oneFileStores hn hi hone
    have hrootn : img.root < img.nBlocks := by omega
    have hblk : ∀ y ∈ c.flatten, y < img.root := fun y hy => by
      have := L₁.flatten_lt (y := y) (by simp [hy])
      omega
    -- a file is stored below the root directory
    have habove : ∀ a, img.root * 512 ≤ a → img₁.blocks a = img.blocks a := by
      intro a ha
      have := hframe (a / 512) (fun hm => by have := hblk _ hm; omega) (a % 512) (by omega)
      rwa [Nat.div_add_mod'] at this
    cases hres : img.oneFileStores i f stores with
    | error r =>
      rw [hres] at h hone
      simp only [bind, Except.bind] at h ⊢
      obtain rfl : r = (img', stores') := h
      obtain ⟨rfl, rfl⟩ := Prod.mk.inj hone
      exact ⟨c, free₁, L₁, hn₁, hr₁, fun a ha _ => habove a ha, pre, rfl,
        fun r h => (by cases h),
        fun _ _ s hs => hpre s hs⟩
    | ok r =>
      obtain ⟨x, img₂, stores₂⟩ := r
      obtain ⟨c, rfl, hx⟩ := hok x _ hres
      rw [hres] at h hone
      obtain ⟨rfl, rfl⟩ := Prod.mk.inj hone
      simp only [bind, Except.bind] at h ⊢
      rw [toPtr_eq hrootn hn] at h ⊢
      generalize hentry : Image.strncpy f.name ++ le32 x = entry at h ⊢
      have hel : entry.length = 16 := by
        rw [← hentry, List.length_append, strncpy_length, le32_length]
      have hw : ∀ a, (img₂.write img.root (16 + i * 16) entry).blocks a =
          put img₂.blocks (img.root * 512 + (16 + i * 16)) entry a := fun a => rfl
      have hroot₁ : (img₂.write img.root (16 + i * 16) entry).root = img.root := hr₁
      have hsize₁ : (img₂.write img.root (16 + i * 16) entry).nBlocks = img.nBlocks := hn₁
      obtain ⟨cs', free', L', hn', hr', hkeep, new, rfl, hdone, hnew⟩ :=
        @ih (img₂.write img.root (16 + i * 16) entry) (cs ++ [c]) _ _ (i + 1)
          (by rw [hroot₁]; exact L₁.write ..) (hsize₁ ▸ hn) (by omega)
            (by rw [List.length_append, hi]; rfl)
          (by rw [hroot₁]; exact h)
      rw [hroot₁] at L' hr' hkeep hdone hnew
      rw [hsize₁] at hn' hnew
      rw [show cs ++ [c] ++ cs' = cs ++ c :: cs' by simp] at L' hnew
      refine ⟨c :: cs', free', L', hn', hr', fun a h1 h2 => ?_, pre ++
        ⟨.root, img.root * 512 + 16 + i * 16, 12⟩ :: ⟨.root, img.root * 512 + 16 + i * 16 +
          12, 4⟩ :: new,
        by simp, fun r hr => ?_, fun h32 h31 s hs => ?_⟩
      · rw [hkeep a h1 (by omega), hw, put_of_lt h2, habove a h1]
      · obtain ⟨hlen, hstart, hall⟩ := hdone r hr
        refine ⟨by rw [List.length_cons, List.length_cons, hlen], fun j d hd => ?_,
          fun j hj => ?_⟩
        · cases j with
          | zero =>
            obtain rfl : c = d := Option.some.inj hd
            have hx32 : c.headD 0 < 0x100000000 := by
              have hne := (L₁.chain c (by simp)).1
              obtain ⟨y, l, rfl⟩ := List.exists_cons_of_ne_nil hne
              have := hblk y (by simp)
              rw [List.headD_cons]
              omega
            have hkept : word img'.blocks (img.root * 512 + (16 + i * 16) + 12) =
                word (put img₂.blocks (img.root * 512 + (16 + i * 16)) entry)
                  (img.root * 512 + (16 + i * 16) + 12) :=
              congrArg decodeLE
                (slice_congr fun o ho => (hkeep _ (by omega) (by omega)).trans (hw _))
            show word img'.blocks (img.root * 512 + (16 + i * 16) + 12) = c.headD 0
            rw [hkept, ← hentry, ← hx, ← put_put, strncpy_length]
            exact word_put_le32 hx32
          | succ j =>
            have := hstart j d hd
            rwa [Nat.add_right_comm i 1 j, Nat.add_assoc i j 1] at this
        · cases j with
          | zero => simp
          | succ j =>
            rw [List.length_cons] at hj
            have := hall j (by omega)
            rw [Nat.add_right_comm i 1 j, Nat.add_assoc i j 1] at this
            simp [this]
      · rw [List.length_cons] at h32 h31
        -- the entry of `f` is not the last one that would be stored
        have h30 : i ≤ 30 := by
          by_contra hlt
          obtain rfl : files = [] := List.length_eq_zero_iff.mp (by omega)
          have := h31 ⟨_, rfl⟩
          omega
        rcases List.mem_append.mp hs with hs | hs
        · have := @(hpre s hs).append _ _ _ _ cs'
          rwa [List.append_assoc, List.singleton_append] at this
        rcases List.mem_cons.mp hs with rfl | hs
        · exact .of_root hrootn (by omega) (by omega)
        rcases List.mem_cons.mp hs with rfl | hs
        · exact .of_root hrootn (by omega) (by omega)
        · exact hnew (by omega) (fun hr => by have := h31 hr; omega) s hs

/-! ## When `mkfs` completes -/

theorem Image.getBlock_free {b : Nat} (h : Linked img.fat 0 img.avail (b :: free)) :
    img.getBlock = some (b, { img with avail := img.fat b, fat := Function.update img.fat b 0 }) ∧
      Linked (Function.update img.fat b 0) 0 (img.fat b) free := by
  obtain ⟨hav, hb, -⟩ := id h
  refine ⟨?_, h.pop fun z hz => Function.update_of_ne hz ..⟩
  rw [getBlock, if_neg (hav ▸ hb), hav]

theorem Image.getBlock_full (h : Linked img.fat 0 img.avail []) : img.getBlock = none := by
  rw [getBlock]
  exact if_pos h

/-- The result `x`, with the first `k` of the free blocks taken, or the exit when there are
fewer. -/
def TakesBlocks {α : Type} (r : Option (α × Image)) (x : α) (free : List Nat)
    (k : Nat) : Prop :=
  if k ≤ free.length then ∃ img, r = some (x, img) ∧ Linked img.fat 0 img.avail (free.drop k)
    else r = none

/-- A block is taken whenever the last one is full, also when no byte follows. -/
theorem Image.fill_takes (img : Image) (count : Nat → Nat) (size : Nat) (data : List UInt8)
    (hl : Linked img.fat 0 img.avail free) (hc : cur ∉ free) (hoff : off ≤ 512)
    (hleft : left = 512 - off) (hf : data.length < fuel) :
    TakesBlocks (fill count fuel img cur left off size data) (size + data.length) free
      ((off + data.length) / 512) := by
  induction fuel generalizing img cur free left off size data with
  | zero => exact absurd hf (Nat.not_lt_zero _)
  | succ fuel ih =>
    -- the rest of the round, with room in the block
    have hround (img : Image) (cur off left k : Nat) (free : List Nat)
        (hl : Linked img.fat 0 img.avail free)
        (hc : cur ∉ free) (hoff : off < 512) (hleft : left = 512 - off)
        (hk : min (max 1 (count size)) (min left data.length) = k) :
        TakesBlocks (if data = [] then some (size, img) else fill count fuel
          (img.write cur off (data.take k)) cur
          (left - k) (off + k) (size + k) (data.drop k)) (size + data.length) free
          ((off + data.length) / 512) := by
      split
      next hnil =>
        rw [hnil, List.length_nil, Nat.add_zero, Nat.add_zero, Nat.div_eq_of_lt hoff, TakesBlocks,
          if_pos (Nat.zero_le _)]
        exact ⟨img, rfl, hl⟩
      next hne =>
        have hdata := List.length_pos_iff.mpr hne
        have hk1 : 0 < k ∧ k ≤ left ∧ k ≤ data.length := by omega
        have := ih (img.write cur off (data.take k)) (size + k) (data.drop k)
          hl hc (show off + k ≤ 512 by omega) (show left - k = 512 - (off + k) by omega)
          (by rw [List.length_drop]; omega)
        rwa [List.length_drop, show off + k + (data.length - k) = off + data.length by omega,
          show size + k + (data.length - k) = size + data.length by omega] at this
    rw [fill]
    rcases Nat.lt_or_eq_of_le hoff with hlt | rfl
    · rw [if_neg (by omega)]
      exact hround img cur off left _ free hl hc hlt hleft rfl
    · rw [if_pos (by omega), show (512 + data.length) / 512 = (0 + data.length) / 512 + 1 by omega]
      cases free with
      | nil =>
        rw [getBlock_full hl, TakesBlocks, if_neg (by simp)]
        rfl
      | cons b free =>
        obtain ⟨hget, hl'⟩ := getBlock_free hl
        have hb := (List.nodup_cons.mp hl.nodup).1
        have hcf : cur ∉ free := fun h => hc (List.mem_cons_of_mem _ h)
        have hround₁ := hround { img with avail := img.fat b,
                                          fat := Function.update (Function.update img.fat b 0) cur
                                            b } b 0 512 _ free
          (hl'.congr fun z hz => Function.update_of_ne (ne_of_mem_of_not_mem hz hcf) ..) hb
            (by simp) rfl rfl
        rw [TakesBlocks] at hround₁
        rw [hget, TakesBlocks, List.length_cons, List.drop_succ_cons]
        simp only [Nat.add_le_add_iff_right]
        exact hround₁

/-- The blocks that a file takes: the chain has room for one byte more than the header and the
file. -/
def HostFile.blocks (f : HostFile) : Nat := 1 + (16 + f.data.length) / 512

def blocksOf : List HostFile → Nat
  | [] => 0
  | f :: files => f.blocks + blocksOf files

theorem Image.oneFile_takes (hl : Linked img.fat 0 img.avail free) :
    TakesBlocks (img.oneFile f) img.avail free f.blocks := by
  rw [oneFile, TakesBlocks, HostFile.blocks]
  cases free with
  | nil =>
    rw [getBlock_full hl, if_neg (by simp)]
    rfl
  | cons b free =>
    obtain ⟨hget, hl'⟩ := getBlock_free hl
    have hb := (List.nodup_cons.mp hl.nodup).1
    have hfill :=
      fill_takes ((Image.write { img with avail := img.fat b, fat := Function.update img.fat b 0 }
      b 0 (le32 1)).write b 8 (le32 1023 ++ le32 b)) f.count 0 f.data hl' hb (show 16 ≤
        512 by simp) rfl
      (Nat.lt_succ_self f.data.length)
    rw [TakesBlocks] at hfill
    rw [hget, List.length_cons, Nat.add_comm 1, List.drop_succ_cons]
    simp only [Nat.add_le_add_iff_right, Option.bind_eq_bind, Option.bind_some]
    split at hfill
    next hle =>
      obtain ⟨img', hf, hl''⟩ := hfill
      rw [if_pos hle, hf, hl.1]
      exact ⟨_, rfl, hl''⟩
    next hle =>
      rw [if_neg hle, hfill]
      rfl

theorem Image.addFiles_isSome (img : Image) (free : List Nat)
    (hl : Linked img.fat 0 img.avail free) :
    (img.addFiles root i files).isSome ↔ blocksOf files ≤ free.length := by
  induction files generalizing img free i with
  | nil => exact iff_of_true rfl (Nat.zero_le _)
  | cons f files ih =>
    have hone := oneFile_takes (f := f) hl
    rw [TakesBlocks] at hone
    rw [addFiles, blocksOf]
    split at hone
    next hle =>
      obtain ⟨img', hf, hl'⟩ := hone
      rw [hf, Option.bind_eq_bind, Option.bind_some]
      refine Iff.trans (ih _ (free.drop f.blocks) ?_) ?_
      · exact hl'
      rw [List.length_drop]
      omega
    next hle =>
      rw [hone]
      exact iff_of_false (by simp) (by omega)

/-- Whether `mkfs` completes: there are files, and their blocks and the root directory fit behind
the FAT. -/
theorem mkfs_isSome_iff : (mkfs n files).isSome ↔
    files ≠ [] ∧ 1 + fatBlocks n < n ∧ 1 + blocksOf files ≤ n - (1 + fatBlocks n) := by
  rw [mkfs]
  rcases Nat.lt_or_ge (1 + fatBlocks n) n with hroom | hsmall
  · have hl := (freshImage_layout hroom).avail
    generalize hfree : (List.range' (1 + fatBlocks n) (n - 1 - (1 + fatBlocks n) + 1)).reverse =
      free at hl
    have hlen : free.length = n - (1 + fatBlocks n) := by
      rw [← hfree, List.length_reverse, List.length_range']
      omega
    cases free with
    | nil =>
      rw [List.length_nil] at hlen
      omega
    | cons b free =>
      obtain ⟨hget, hl'⟩ := Image.getBlock_free hl
      rw [hget, Option.bind_eq_bind, Option.bind_some]
      dsimp only
      split
      next hnil => exact iff_of_false (by simp) fun h => h.1 hnil
      next hne =>
        refine Iff.trans (Image.addFiles_isSome _ free ?_) ?_
        · exact hl'
        rw [List.length_cons] at hlen
        exact ⟨fun h => ⟨hne, hroom, by omega⟩, fun h => by omega⟩
  · -- there is no block, or one that is the FAT
    refine iff_of_false ?_ fun h => absurd h.2.1 (Nat.not_lt.mpr hsmall)
    have hn : n = 0 ∨ n = 1 ∨ n = 2 := by
      rw [fatBlocks] at hsmall
      omega
    rcases hn with rfl | rfl | rfl
    · simp [Image.getBlock, freshImage]
    · simp [Image.getBlock, freshImage]
    · have hget : (freshImage 2).getBlock = some (1,
          { freshImage 2 with avail := 0, fat := Function.update (freshImage 2).fat 1 0 }) := rfl
      rw [hget, Option.bind_eq_bind, Option.bind_some]
      dsimp only
      split
      · simp
      next hne =>
        refine mt (Image.addFiles_isSome _ [] ?_).mp ?_
        · rfl
        obtain ⟨f, files, rfl⟩ := List.exists_cons_of_ne_nil hne
        rw [blocksOf, HostFile.blocks, List.length_nil]
        omega

/-! ## The image -/

theorem freshStores_inside {chains : List (List Nat)} (hn : 0 < n) (hs : s ∈ freshStores n) :
    s.Inside n root chains := by
  simp only [freshStores, List.mem_append, List.mem_cons, List.not_mem_nil, or_false, List.mem_map,
    List.mem_reverse, List.mem_range'_1] at hs
  rcases hs with hs | ⟨x, hx, rfl⟩
  · rcases hs with rfl | rfl | rfl | rfl | rfl | rfl
    all_goals exact .of_super (by simp) hn
  · exact .of_fat ⟨by omega, by omega⟩

/-- `main` up to the loop over the files: the root directory is the last block, and the others are
free. -/
theorem mkfsStores_start (hroom : 1 + fatBlocks n < n) (hn : n < 0x400000) (files : List HostFile) :
    ∃ img stores free, mkfsStores n files = img.addFilesStores img.root 0 files stores ∧
      Layout img ([img.root] :: []) free ∧ img.nBlocks = n ∧ img.root + 1 = n ∧
      free.length + 1 = n - (1 + fatBlocks n) ∧
      ∀ s ∈ stores, ∀ chains, s.Inside n img.root chains := by
  have L := freshImage_layout hroom
  rw [mkfsStores]
  cases h1 : (freshImage n).getBlockStores (freshStores n) with
  | error r =>
    -- a fresh image is not full
    have hav := (Image.getBlockStores_error h1).1
    rw [Image.getBlock,
      if_neg (show (freshImage n).avail ≠ 0 from by simp only [freshImage]; omega)] at hav
    cases hav
  | ok r =>
    obtain ⟨b, img₁, stores₁⟩ := r
    obtain ⟨hget, -, pre, rfl, hpre⟩ := L.getBlockStores h1
    obtain ⟨free, hfree, rfl⟩ := L.getBlock_eq hget
    have L₁ := L.new hfree
    obtain rfl : b = n - 1 := by
      rw [Image.getBlock] at hget
      split at hget
      · cases hget
      · exact (Prod.ext_iff.mp (Option.some.inj hget)).1.symm
    have hlen := congrArg List.length hfree
    rw [List.length_reverse, List.length_range', List.length_cons] at hlen
    have hlast : n - 1 < n := by omega
    -- the header of the root directory changes no chain
    have hroot : ∀ bytes, Layout (Image.write { freshImage n with
        avail := (freshImage n).fat (n - 1), fat := Function.update (freshImage n).fat (n - 1) 0,
        root := n - 1 } (n - 1) 0 bytes) [[n - 1]] free := fun _ =>
      ⟨L₁.avail, L₁.chain, L₁.nodup, L₁.mem, L₁.out⟩
    refine ⟨_, _, free, rfl, hroot _, rfl, show n - 1 + 1 = n by omega, by omega,
      fun s hs chains => ?_⟩
    show s.Inside n (n - 1) chains
    have hptr : ∀ o, toPtr (n - 1) o = (n - 1) * 512 + o := fun o => toPtr_eq hlast hn
    simp only [hptr, List.mem_append, List.mem_cons, List.not_mem_nil, or_false] at hs
    rcases hs with (hs | hs) | rfl | rfl | rfl | rfl | rfl
    · exact freshStores_inside (by omega) hs
    · exact hpre s hs _ _
    · exact .of_super (by simp) (by omega)
    all_goals exact .of_root hlast (by omega) (by omega)

/-- The end of `main` is reached. -/
theorem mkfsMain_done (h : mkfsMain n files = .done img stores) :
    files ≠ [] ∧ n * 512 < 0x80000000 ∧ mkfsStores n files = .ok ((), img, stores) := by
  rw [mkfsMain] at h
  split at h
  · cases h
  next hf =>
    split at h
    · cases h
    next hn =>
      split at h
      · cases h
      · split at h
        · cases h
        next hs =>
          cases h
          exact ⟨hf, Nat.lt_of_not_ge hn, hs⟩

/-- **`mkfs` builds a well-formed image.** The chains of the root directory, of the files and of the
free blocks use every block behind the FAT once, the FAT of the image holds them, and the entry of
every file names the first block of its chain. -/
theorem mkfs_wellFormed (hroom : 1 + fatBlocks n < n) (h : mkfsMain n files = .done img stores) :
    ∃ cs free, Layout img ([img.root] :: cs) free ∧ cs.length = files.length ∧
    img.nBlocks = n ∧
      (∀ j c, cs[j]? = some c → word img.blocks (img.root * 512 + (16 + j * 16) + 12) =
        c.headD 0) ∧
      (∀ i < n, word img.toDev (512 + 4 * i) = img.fat i) ∧
      ∀ c ∈ free :: [img.root] :: cs, ∀ x ∈ c, 1 + fatBlocks n ≤ x := by
  obtain ⟨-, hsize, hs⟩ := mkfsMain_done h
  obtain ⟨img₁, stores₁, free₁, heq, L₁, hn₁, hlast, -, -⟩ :=
    mkfsStores_start hroom (by omega) files
  rw [heq] at hs
  have hw : written _ = (img, stores) := congrArg written hs
  obtain ⟨cs, free, L, hn, hr, -, new, -, hdone, -⟩ :=
    L₁.addFilesStores (by omega) (by omega) rfl hw
  obtain ⟨hlen, hstart, -⟩ := hdone _ hs
  simp only [List.length_nil, Nat.zero_add, List.nil_append, ← hr] at L hstart
  rw [hn₁] at hn
  refine ⟨cs, free, L, hlen, hn, hstart, fun i hi => L.word_toDev (by omega) (hn ▸ hi),
    fun c hc x hx => ?_⟩
  rw [← hn]
  rcases List.mem_cons.mp hc with rfl | hc
  · exact (L.inArea_of_free hx).1
  · exact (L.inArea hc hx).1

/-- `mkfs` completes when its image can be built. -/
theorem mkfsMain_of_mkfs (hn : n * 512 < 0x80000000) (hn0 : n ≠ 0) (hf : files ≠ [])
    (h : (mkfs n files).isSome = true) : ∃ img stores, mkfsMain n files = .done img stores := by
  rw [← mkfsStores_eq hf, Option.isSome_map] at h
  cases hs : mkfsStores n files with
  | error r =>
    rw [hs] at h
    cases h
  | ok r =>
    obtain ⟨_, img, stores⟩ := r
    exact ⟨img, stores, by rw [mkfsMain, if_neg hf, if_neg (Nat.not_le.mpr hn), if_neg hn0, hs]⟩

theorem mkfs_wellFormed_twoFiles : ∃ img stores, mkfsMain 8 twoFiles = .done img stores ∧
    ∃ cs free, Layout img ([img.root] :: cs) free ∧ cs.length = 2 ∧ img.nBlocks = 8 ∧
      (∀ j c, cs[j]? = some c → word img.blocks (img.root * 512 + (16 + j * 16) + 12) =
        c.headD 0) ∧
      (∀ i < 8, word img.toDev (512 + 4 * i) = img.fat i) ∧
      ∀ c ∈ free :: [img.root] :: cs, ∀ x ∈ c, 1 + fatBlocks 8 ≤ x := by
  obtain ⟨img, stores, hmain⟩ :=
    mkfsMain_of_mkfs (by decide) (by decide) (List.cons_ne_nil _ _) twoFiles_isSome
  exact ⟨img, stores, hmain, mkfs_wellFormed (by decide) hmain⟩

/-- The chains of the files are linked by the FAT, and apart from each other and from the root
directory. -/
structure Chained (img : Image) (cs : List (List Nat)) : Prop where
  chain : ∀ c ∈ cs, c ≠ [] ∧ Linked img.fat 0 (c.headD 0) c
  nodup : (img.root :: cs.flatten).Nodup

/-- Every store is in the image and in its region, also when `mkfs` exits after it. -/
def StoresInside (n : Nat) (files : List HostFile) : Prop :=
  match mkfsMain n files with
  | .undefined => False
  | .exit img stores => ∃ cs, Chained img cs ∧ ∀ s ∈ stores, s.Inside n img.root cs
  | .done img stores =>
    ∃ cs free, Layout img ([img.root] :: cs) free ∧ cs.length = files.length ∧
      (∀ j c, cs[j]? = some c → word img.blocks (img.root * 512 + (16 + j * 16) + 12) =
        c.headD 0) ∧
      ∀ s ∈ stores, s.Inside n img.root cs

end

end K439.Fs
