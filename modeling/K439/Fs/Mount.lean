import K439.Fs.Mkfs
import K439.Lib.Run

/-!
# A mounted file system

The operations of processes on a mounted file system, one after the other, through the directory
objects and the open files they hold. A directory object never gives its reference back, and a file
gives it back once; so an `OpenFile` is deleted while an object refers to it only after its 32-bit
count has wrapped (`Counted.live_closeFile`).
-/

namespace K439.Fs

/-- The file system, the directory objects and the open files. -/
structure Mount where
  fs : Fat439
  dirs : List Fat439Directory
  files : List Fat439File

/-- The constructor of `Fat439`, with `rootdir`. -/
def mount (dev : Dev) : Option Mount := do
  let fs ← Fat439.create dev
  let (rootdir, fs) := Fat439Directory.create fs fs.super.root
  some { fs := fs, dirs := [rootdir], files := [] }

/-- A call through the directory object `i` or the file `j`, with what is on the stack. -/
inductive Op
  | lookup (i : Nat) (entry : Nat → UInt8) (name : List UInt8)
  | mkdir (i : Nat) (entry entry' : Nat → UInt8) (name : List UInt8)
  | remove (i : Nat) (entry entry' : Nat → UInt8) (name : List UInt8)
  | lookupDirectory (i : Nat) (entry : Nat → UInt8) (name : List UInt8)
  | lookupDirectoryPath (i : Nat) (entry : Nat → UInt8) (path : List (List UInt8))
  | lookupFile (i : Nat) (entry : Nat → UInt8) (name : List UInt8)
  /-- the destructor of a file, which closes it -/
  | closeFile (j : Nat)
  /-- the destructor of a directory object, which does nothing -/
  | closeDirectory (i : Nat)

namespace Mount

variable (m : Mount)

def addDir (r : Option Fat439Directory × Fat439) : Outcome × Mount :=
  (.ret r.1.isSome.toNat, { m with fs := r.2, dirs := m.dirs ++ r.1.toList })

/-- The objects that refer to an open file. What is done with a dangling one is not defined, and the
run goes on without it. -/
def live : Mount :=
  { m with dirs := m.dirs.filter fun d => (m.fs.openFiles d.start).isSome,
           files := m.files.filter fun f => (m.fs.openFiles f.openFile).isSome }

/-- `none`: there is no such object, or the call does not return. -/
def step : Op → Option (Outcome × Mount)
  | .lookup i entry name => do
    let d ← m.dirs[i]?
    some (.ret (d.lookup m.fs entry name), m)
  | .mkdir i entry entry' name => do
    let d ← m.dirs[i]?
    let (code, d, fs) := d.mkdir m.fs entry entry' name
    some (.ret code, { m with fs := fs, dirs := m.dirs.set i d })
  | .remove i entry entry' name => do
    let d ← m.dirs[i]?
    let (outcome, d, fs) ← d.remove m.fs entry entry' name
    some (outcome, { m with fs := fs, dirs := m.dirs.set i d })
  | .lookupDirectory i entry name => do
    let d ← m.dirs[i]?
    some (m.addDir (d.lookupDirectory m.fs entry name))
  | .lookupDirectoryPath i entry path => do
    let d ← m.dirs[i]?
    some (m.addDir (d.lookupDirectoryPath m.fs entry path))
  | .lookupFile i entry name => do
    let d ← m.dirs[i]?
    let (f, fs) := d.lookupFile m.fs entry name
    some (.ret f.isSome.toNat, { m with fs := fs, files := m.files ++ f.toList })
  | .closeFile j => do
    let f ← m.files[j]?
    some (.ret 0, { m with fs := m.fs.closeFile f.openFile, files := m.files.eraseIdx j }.live)
  | .closeDirectory i => do
    let _ ← m.dirs[i]?
    some (.ret 0, { m with dirs := m.dirs.eraseIdx i })

@[simp] theorem live_fs : m.live.fs = m.fs := rfl

end Mount

/-- An operation leads from one state to another. -/
def Step (m : Mount) (op : Op) (m' : Mount) : Prop := ∃ r, m.step op = some (r, m')

theorem Step.of_isSome {m : Mount} {op : Op} (h : (m.step op).isSome = true) :
    Step m op ((m.step op).get h).2 :=
  ⟨((m.step op).get h).1, (Option.some_get h).symm⟩

/-- The state after the operations. -/
def Mount.after (m : Mount) (ops : List Op) : Option Mount :=
  ops.foldlM (fun m op => (m.step op).map (·.2)) m

theorem Mount.run_after {m : Mount} {ops : List Op} (h : (m.after ops).isSome = true) :
    Run Step m ops ((m.after ops).get h) := by
  refine Run.of_foldlM (fun s l t hs => ?_) (Option.some_get h).symm
  obtain ⟨r, hr, rfl⟩ := Option.map_eq_some_iff.mp hs
  exact ⟨r.1, hr⟩

/-- The state after `mkfs` with `files` and the mount of its image. -/
def Mounted (n : Nat) (files : List HostFile) (m : Mount) : Prop :=
  ∃ img, mkfs n files = some img ∧ mount img.toDev = some m

/-- The file system that a new `Fat439` makes of an image, before it opens the root directory. -/
def Image.toFs (img : Image) : Fat439 where
  dev := img.toDev
  super := ⟨0x39333446, img.nBlocks, img.avail, img.root⟩
  fat := img.fat
  openFilesMutex := 1
  openFiles := fun _ => none

section

variable {img : Image} {n : Nat} {files : List HostFile} {m : Mount}

theorem Layout.create_toDev {cs : List (List Nat)} {free : List Nat}
    (L : Layout img ([img.root] :: cs) free) (hn : img.nBlocks ≤ 0x800000) :
    Fat439.create img.toDev = some img.toFs := by
  have hs := L.superAt_toDev hn
  rw [Fat439.create_eq (by rw [hs]) (by rw [hs]; exact hn), hs, Image.toFs]
  congr 2
  funext i
  dsimp only
  split
  next hi => exact L.word_toDev hn hi
  next hi => exact (L.out i fun h => hi h.2).symm

theorem Built.header_root {k : Nat} {fs : List HostFile} {cs : List (List Nat)} {free : List Nat}
    (B : Built img k fs cs free) :
    Fs.header img.toDev img.root = ⟨TYPE_DIR, k * 16, 0, img.root⟩ := by
  rw [header_congr fun i _ => Image.toDev_of_inArea B.root_inArea, B.header]

/-- The mount of an image opens its root directory. -/
theorem Built.mount_toDev {k : Nat} {fs : List HostFile} {cs : List (List Nat)} {free : List Nat}
    (B : Built img k fs cs free) (hn : img.nBlocks ≤ 0x800000) :
    mount img.toDev =
      some { fs := img.toFs.openFile img.root, dirs := [⟨img.root, k⟩], files := [] } := by
  have hmeta : (img.toFs.metaData img.root).length = k * 16 := by
    rw [Fat439.metaData_of_none rfl (by have := B.root_inArea.2; omega)]
    exact congrArg MetaData.length B.header_root
  rw [mount, B.layout.create_toDev hn]
  simp only [Option.bind_eq_bind, Option.bind_some, Fat439Directory.create,
    Fat439.metaData_openFile]
  rw [show img.toFs.super.root = img.root from rfl, hmeta, Nat.mul_div_cancel _ (by simp)]

/-- What is mounted is what `mkfs` built. -/
theorem Mounted.built (h : Mounted n files m) (hn : n ≤ 0x800000) (hroom : 1 + fatBlocks n < n)
    (h31 : files.length ≤ 31) :
    ∃ img cs free, Built img files.length files cs free ∧ img.nBlocks = n ∧
      m = { fs := img.toFs.openFile img.root, dirs := [⟨img.root, files.length⟩],
            files := [] } := by
  obtain ⟨img, himg, hm⟩ := h
  obtain ⟨cs, free, B, rfl⟩ := mkfs_built hn hroom h31 himg
  rw [B.mount_toDev hn] at hm
  exact ⟨img, cs, free, B, rfl, (Option.some.inj hm).symm⟩

end

/-- The file "a" with one byte. -/
def byteFile : HostFile := { name := [0x61], data := [7], count := fun _ => 1 }

theorem byteImage_isSome : (mkfs 8 [byteFile]).isSome = true := by decide

/-- An image of eight blocks with one file: the root directory is block 7, the file block 6. -/
def byteImage : Image := (mkfs 8 [byteFile]).get byteImage_isSome

theorem mkfs_byteImage : mkfs 8 [byteFile] = some byteImage := (Option.some_get _).symm

/-- The mount of `byteImage`. -/
def byteMount : Mount :=
  { fs := byteImage.toFs.openFile byteImage.root, dirs := [⟨byteImage.root, 1⟩], files := [] }

theorem mounted_byteMount : Mounted 8 [byteFile] byteMount := by
  obtain ⟨cs, free, B, -⟩ := mkfs_built (by decide) (by decide) (by decide) mkfs_byteImage
  exact ⟨byteImage, mkfs_byteImage, B.mount_toDev (by decide)⟩

/-- The file "b" with two blocks, and the file "a". -/
def twoFiles : List HostFile :=
  [{ name := [0x62], data := List.replicate 600 9, count := fun n => n + 1 }, byteFile]

theorem twoFiles_isSome : (mkfs 8 twoFiles).isSome = true := by decide +kernel

/-- The files "a", "b" and "c" with one byte each. -/
def abcFiles : List HostFile :=
  [byteFile, { byteFile with name := [0x62] }, { byteFile with name := [0x63] }]

theorem abcImage_isSome : (mkfs 8 abcFiles).isSome = true := by decide

/-- The root directory is block 7, the files are the blocks 6, 5 and 4. -/
def abcImage : Image := (mkfs 8 abcFiles).get abcImage_isSome

theorem mkfs_abcImage : mkfs 8 abcFiles = some abcImage := (Option.some_get _).symm

/-- The mount of `abcImage`. -/
def abcMount : Mount :=
  { fs := abcImage.toFs.openFile abcImage.root, dirs := [⟨abcImage.root, 3⟩], files := [] }

theorem mounted_abcMount : Mounted 8 abcFiles abcMount := by
  obtain ⟨cs, free, B, -⟩ := mkfs_built (by decide) (by decide) (by decide) mkfs_abcImage
  exact ⟨abcImage, mkfs_abcImage, B.mount_toDev (by decide)⟩

end K439.Fs
