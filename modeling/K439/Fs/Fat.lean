import K439.Fs.Block
import K439.Lib.Linked

/-!
# The FAT439 file system

`Fat439` and `OpenFile` of `kernel/fs.cc`. An open file is known by its first block: `openFiles`
holds the object, with its reference count. The array `fat` is read below `nBlocks` only.
-/

namespace K439.Fs

def ERR_TOO_LONG : Int := -1000
def ERR_NO_SPACE : Int := -1006

/-- The header of a file. -/
structure MetaData where
  type : Nat
  length : Nat
  parentDir : Nat
  currentBlk : Nat
  deriving DecidableEq

namespace MetaData

def words (h : MetaData) : List Nat := [h.type, h.length, h.parentDir, h.currentBlk]

/-- The bytes of the structure. -/
def bytes (h : MetaData) : List UInt8 := h.words.flatMap le32

def ofBytes (l : List UInt8) : MetaData where
  type := decodeLE (l.take 4)
  length := decodeLE ((l.drop 4).take 4)
  parentDir := decodeLE ((l.drop 8).take 4)
  currentBlk := decodeLE ((l.drop 12).take 4)

@[simp] theorem bytes_length (h : MetaData) : h.bytes.length = 16 := words_length

end MetaData

/-- The header on the device at the block `start`. -/
def header (dev : Dev) (start : Nat) : MetaData where
  type := word dev (start * 512)
  length := word dev (start * 512 + 4)
  parentDir := word dev (start * 512 + 8)
  currentBlk := word dev (start * 512 + 12)

theorem header_ofBytes {dev : Dev} {start : Nat} :
    MetaData.ofBytes (slice dev (start * 512) 16) = header dev start := by
  simp [MetaData.ofBytes, header, word, slice_slice, slice_take]

/-- Reading back a header that was written. -/
theorem header_put {dev : Dev} {start : Nat} {h : MetaData}
    (hh : ∀ x ∈ h.words, x < 0x100000000) :
    header (put dev (start * 512) h.bytes) start = h := by
  have hw : ∀ i (hi : i < 4), word (put dev (start * 512) h.bytes) (start * 512 + 4 * i) =
      h.words[i] :=
    fun i hi => word_put_words hi (hh _ (List.getElem_mem hi))
  have h0 := hw 0 (by simp)
  rw [Nat.mul_zero, Nat.add_zero] at h0
  simp [header, h0, hw 1 (by simp), hw 2 (by simp), hw 3 (by simp), MetaData.words]

theorem header_words_lt {dev : Dev} {start : Nat} :
    ∀ x ∈ (header dev start).words, x < 0x100000000 := by
  simp [header, MetaData.words, word_lt]

/-- The bytes of the header on the device. -/
theorem header_bytes {dev : Dev} {start : Nat} :
    (header dev start).bytes = slice dev (start * 512) 16 := by
  have h : slice dev (start * 512) (4 + (4 + (4 + 4))) = slice dev (start * 512) 4 ++
      (slice dev (start * 512 + 4) 4 ++
        (slice dev (start * 512 + 8) 4 ++ slice dev (start * 512 + 12) 4)) := by
    rw [slice_add, slice_add, slice_add]
  rw [h]
  simp [MetaData.bytes, MetaData.words, header, le32_word]

theorem header_congr {dev dev' : Dev} {start : Nat}
    (h : ∀ i < 16, dev' (start * 512 + i) = dev (start * 512 + i)) :
    header dev' start = header dev start := by
  rw [← header_ofBytes, ← header_ofBytes, slice_congr h]

structure Super where
  magic : Nat
  nBlocks : Nat
  avail : Nat
  root : Nat
  deriving DecidableEq

namespace Super

def words (s : Super) : List Nat := [s.magic, s.nBlocks, s.avail, s.root]

def bytes (s : Super) : List UInt8 := s.words.flatMap le32

def ofBytes (l : List UInt8) : Super where
  magic := decodeLE (l.take 4)
  nBlocks := decodeLE ((l.drop 4).take 4)
  avail := decodeLE ((l.drop 8).take 4)
  root := decodeLE ((l.drop 12).take 4)

@[simp] theorem bytes_length (s : Super) : s.bytes.length = 16 := words_length

end Super

/-- The superblock on the device. -/
def superAt (dev : Dev) : Super where
  magic := word dev 0
  nBlocks := word dev 4
  avail := word dev 8
  root := word dev 12

theorem super_ofBytes {dev : Dev} : Super.ofBytes (slice dev 0 16) = superAt dev := by
  simp [Super.ofBytes, superAt, word, slice_slice, slice_take]

theorem superAt_put {dev : Dev} {s : Super} (hs : ∀ x ∈ s.words, x < 0x100000000) :
    superAt (put dev 0 s.bytes) = s := by
  have hw : ∀ i (hi : i < 4), word (put dev 0 s.bytes) (0 + 4 * i) = s.words[i] :=
    fun i hi => word_put_words hi (hs _ (List.getElem_mem hi))
  have h0 := hw 0 (by simp)
  have h1 := hw 1 (by simp)
  have h2 := hw 2 (by simp)
  have h3 := hw 3 (by simp)
  simp only [Nat.mul_zero, Nat.zero_add, Nat.mul_one, Nat.reduceMul] at h0 h1 h2 h3
  simp [superAt, h0, h1, h2, h3, Super.words]

theorem superAt_congr {dev dev' : Dev} (h : ∀ i < 16, dev' i = dev i) :
    superAt dev' = superAt dev := by
  have hs : slice dev' 0 16 = slice dev 0 16 := slice_congr fun i hi => by simpa using h i hi
  rw [← super_ofBytes, ← super_ofBytes, hs]

structure OpenFile where
  metaData : MetaData
  /-- `Atomic32`, which wraps -/
  count : UInt32

structure Fat439 where
  dev : Dev
  super : Super
  fat : Nat → Nat
  /-- the count of the mutex -/
  openFilesMutex : Nat
  openFiles : Nat → Option OpenFile

namespace Fat439

variable (fs : Fat439)

/-- The constructor up to `rootdir`; `none` is the panic "bad magic". -/
def create (dev : Dev) : Option Fat439 :=
  let super := Super.ofBytes (BlockDevice.readFully dev 0 16)
  if super.magic ≠ 0x39333446 then none
  else
    let bytes := BlockDevice.readFully dev 512 (w32 (super.nBlocks * 4))
    some { dev := dev, super := super, fat := fun i => decodeLE ((bytes.drop (4 * i)).take 4),
           openFilesMutex := 1, openFiles := fun _ => none }

/-- `openFiles[start]`, with a new `OpenFile` when it is null. -/
def fileAt (start : Nat) : OpenFile :=
  (fs.openFiles start).getD
    { metaData := .ofBytes (BlockDevice.readFully fs.dev (w32 (start * 512)) 16), count := 0 }

/-- `metaData` of the file that is open at `start`. -/
def metaData (start : Nat) : MetaData := (fs.fileAt start).metaData

def openFile (start : Nat) : Fat439 :=
  let p := fs.fileAt start
  { fs with openFiles := Function.update fs.openFiles start (some { p with count := p.count + 1 }) }

def closeFile (start : Nat) : Fat439 :=
  { fs with openFiles := Function.update fs.openFiles start <|
      (fs.openFiles start).bind fun p =>
        if p.count = 1 then none else some { p with count := p.count - 1 } }

/-- `while(fat[newAvail]) newAvail = fat[newAvail];`. A walk of more than `fuel` blocks is given
up: the blocks are then linked in a cycle. -/
def lastBlk : Nat → Nat → Option Nat
  | 0, _ => none
  | fuel + 1, newAvail =>
    if fs.fat newAvail ≠ 0 then lastBlk fuel (fs.fat newAvail) else some newAvail

/-- `none`: the walk does not end. -/
def addAvailBlk (newAvail : Nat) : Option Fat439 := do
  let last ← fs.lastBlk (fs.super.nBlocks + 1) newAvail
  some { fs with fat := Function.update fs.fat last fs.super.avail,
                 super := { fs.super with avail := newAvail } }

def remNextAvail : Nat × Fat439 :=
  let nextAvail := fs.super.avail
  if nextAvail = 0 then (0, fs)
  else (nextAvail, { fs with super := { fs.super with avail := fs.fat nextAvail },
                             fat := Function.update fs.fat nextAvail 0 })

def setNextBlk (blk nextBlk : Nat) : Fat439 :=
  { fs with fat := Function.update fs.fat blk (fs.fat nextBlk) }

def syncSuper : Fat439 := { fs with dev := (BlockDevice.write fs.dev 0 fs.super.bytes).2 }

def syncFAT : Fat439 :=
  let words := (List.range fs.super.nBlocks).map fs.fat
  { fs with dev := BlockDevice.writeFully fs.dev 512 (words.flatMap le32) }

def sync : Fat439 := fs.syncFAT.syncSuper

def unlock : Fat439 := { fs with openFilesMutex := fs.openFilesMutex + 1 }

theorem create_openFiles {dev : Dev} {fs : Fat439} (h : create dev = some fs) :
    fs.openFiles = fun _ => none := by
  rw [create] at h
  dsimp only at h
  split at h
  · cases h
  · cases h
    rfl

@[simp] theorem openFile_self (start : Nat) : (fs.openFile start).openFiles start =
    some { fs.fileAt start with count := (fs.fileAt start).count + 1 } :=
  Function.update_self ..

theorem openFile_of_ne {start t : Nat} (h : t ≠ start) :
    (fs.openFile start).openFiles t = fs.openFiles t := Function.update_of_ne h ..

theorem closeFile_self (start : Nat) : (fs.closeFile start).openFiles start =
    (fs.openFiles start).bind fun p =>
      if p.count = 1 then none else some { p with count := p.count - 1 } :=
  Function.update_self ..

theorem closeFile_of_ne {start t : Nat} (h : t ≠ start) :
    (fs.closeFile start).openFiles t = fs.openFiles t := Function.update_of_ne h ..

variable {fs : Fat439} {start t : Nat}

theorem fileAt_eq {o : OpenFile} (h : fs.openFiles t = some o) : fs.fileAt t = o := by
  rw [fileAt, h]; rfl

theorem metaData_of_some {o : OpenFile} (h : fs.openFiles t = some o) :
    fs.metaData t = o.metaData := by rw [metaData, fileAt_eq h]

theorem addAvailBlk_eq {fs' : Fat439} (h : fs.addAvailBlk start = some fs') :
    ∃ last, fs.lastBlk (fs.super.nBlocks + 1) start = some last ∧
      fs' = { fs with fat := Function.update fs.fat last fs.super.avail,
                      super := { fs.super with avail := start } } := by
  obtain ⟨last, hl, h⟩ := Option.bind_eq_some_iff.mp h
  exact ⟨last, hl, (Option.some.inj h).symm⟩

/-- `sync` writes the FAT and the superblock. -/
theorem sync_dev (hn : fs.super.nBlocks ≤ 0x800000) : fs.sync.dev =
    put (put fs.dev 512 (((List.range fs.super.nBlocks).map fs.fat).flatMap le32)) 0
      fs.super.bytes := by
  rw [sync, syncSuper, syncFAT, BlockDevice.write_eq_of_le (by simp)]
  dsimp only
  rw [BlockDevice.writeFully_eq (by rw [words_length, List.length_map, List.length_range]; omega)]

/-- `sync` writes the number of the root directory. -/
theorem sync_root (hn : fs.super.nBlocks ≤ 0x800000) (hr : fs.super.root < 0x100000000) :
    word fs.sync.dev 12 = fs.super.root := by
  rw [sync_dev hn]
  have hi : 3 < fs.super.words.length := by simp [Super.words]
  have h := word_put_words (m := fs.dev) (a := 0) hi hr
  exact h

theorem fileAt_openFile : (fs.openFile start).fileAt t =
    if t = start then { fs.fileAt t with count := (fs.fileAt t).count + 1 } else fs.fileAt t := by
  split
  · subst t; exact fileAt_eq (fs.openFile_self start)
  · rw [fileAt, openFile_of_ne _ (by assumption)]; rfl

/-- Opening does not change what is known about a file. -/
@[simp] theorem metaData_openFile : (fs.openFile start).metaData t = fs.metaData t := by
  rw [metaData, fileAt_openFile]
  split <;> rfl

/-- Closing a file that stays open does not change what is known about it. -/
theorem closeFile_some {o : OpenFile} (h : (fs.closeFile start).openFiles t = some o) :
    ∃ p, fs.openFiles t = some p ∧ o.metaData = p.metaData := by
  rcases Nat.decEq t start with hne | rfl
  · rw [closeFile_of_ne _ hne] at h
    exact ⟨o, h, rfl⟩
  · rw [closeFile_self] at h
    obtain ⟨p, hp, h⟩ := Option.bind_eq_some_iff.mp h
    split at h
    · cases h
    · cases h
      exact ⟨p, hp, rfl⟩

/-- A new `Fat439` reads the superblock and the FAT from the device. -/
theorem create_eq {dev : Dev} (hmagic : (superAt dev).magic = 0x39333446)
    (hn : (superAt dev).nBlocks ≤ 0x800000) :
    create dev = some
      { dev := dev, super := superAt dev,
        fat := fun i => if i < (superAt dev).nBlocks then word dev (512 + 4 * i) else 0,
        openFilesMutex := 1, openFiles := fun _ => none } := by
  rw [create, BlockDevice.readFully_eq (by omega), super_ofBytes]
  dsimp only
  rw [if_neg (by simp [hmagic]), w32_of_lt (by omega), BlockDevice.readFully_eq (by omega)]
  congr 2
  funext i
  split
  · rw [slice_slice (by omega)]; rfl
  · rw [List.drop_of_length_le (by rw [slice_length]; omega)]; rfl

/-- Opening a file reads its header from the device. -/
theorem metaData_of_none (h : fs.openFiles t = none) (ht : t < 0x800000) :
    fs.metaData t = header fs.dev t := by
  rw [metaData, fileAt, h, w32_of_lt (by omega), BlockDevice.readFully_eq (by omega)]
  exact header_ofBytes

end Fat439

/-- The block `x` is on the chain that starts at `s`. -/
def OnChain (fs : Fat439) (s x : Nat) : Prop := ∃ l, Linked fs.fat 0 s l ∧ x ∈ l

namespace OpenFile

variable (fs : Fat439) (start : Nat)

/-- The bytes that are read, or the error. -/
def read (offset length : Nat) : Except Int (List UInt8) :=
  if offset > (fs.metaData start).length then .error ERR_TOO_LONG
  else
    let len := min length ((fs.metaData start).length - offset)
    let actualOffset := w32 (offset + 16)
    let blockInFile := actualOffset / 512
    let offsetInBlock := actualOffset % 512
    let blockNumber := fs.fat^[blockInFile] start
    .ok (BlockDevice.read fs.dev (w32 (blockNumber * 512 + offsetInBlock)) len)

/-- The bytes that are stored in the buffer. Every round reads at the same offset. -/
def readFullyLoop (offset : Nat) : Nat → Nat → List UInt8
  | 0, _ => []
  | fuel + 1, togo =>
    if togo > 0 then
      match read fs start offset togo with
      | .error _ => []
      | .ok p => if p.length = 0 then [] else p ++ readFullyLoop offset fuel (togo - p.length)
    else []

def readFully (offset length : Nat) : List UInt8 := readFullyLoop fs start offset length length

def resize (newsz : Nat) : Fat439 :=
  let p := fs.fileAt start
  let metaData := { p.metaData with length := newsz }
  { fs with openFiles := Function.update fs.openFiles start (some { p with metaData := metaData }),
            dev := (BlockDevice.write fs.dev (w32 (start * 512)) metaData.bytes).2 }

/-- The loop of `write` over the blocks after the first one: whether there was space, the state
and `totalWritten`. Every round writes a byte. -/
def writeLoop : Nat → Fat439 → Nat → List UInt8 → Nat → Bool × Fat439 × Nat
  | 0, fs, _, _, totalWritten => (true, fs, totalWritten)
  | fuel + 1, fs, blockNumber, buf, totalWritten =>
    if buf.length > 0 then
      let (nextBlk, fs) :=
        if fs.fat blockNumber = 0 then
          let (nextBlk, fs) := fs.remNextAvail
          (nextBlk, fs.setNextBlk blockNumber nextBlk)
        else (fs.fat blockNumber, fs)
      if nextBlk = 0 then (false, fs, totalWritten)
      else
        let len := min buf.length 512
        let (written, dev) := BlockDevice.write fs.dev (w32 (nextBlk * 512)) (buf.take len)
        writeLoop fuel { fs with dev := dev } nextBlk (buf.drop written) (totalWritten + written)
    else (true, fs, totalWritten)

/-- The result, and the state. -/
def write (offset : Nat) (buf : List UInt8) : Int × Fat439 :=
  let actualOffset := w32 (offset + 16)
  let len := min buf.length (w32 (0x100000000 + 512 - actualOffset))
  let blockInFile := actualOffset / 512
  let offsetInBlock := actualOffset % 512
  let blockNumber := fs.fat^[blockInFile] start
  let (written, dev) :=
    BlockDevice.write fs.dev (w32 (blockNumber * 512 + offsetInBlock)) (buf.take len)
  let (done, fs, totalWritten) :=
    writeLoop buf.length { fs with dev := dev } blockNumber (buf.drop written) written
  let fs := resize fs start (w32 ((fs.metaData start).length + totalWritten))
  if done then (0, fs) else (ERR_NO_SPACE, fs.unlock)

def append (buf : List UInt8) : Int × Fat439 := write fs start (fs.metaData start).length buf

variable {fs : Fat439} {start t newsz : Nat}

theorem resize_dev : (resize fs start newsz).dev =
    put fs.dev (w32 (start * 512)) { fs.metaData start with length := newsz }.bytes := by
  have h : w32 (start * 512) % 512 = 0 := by unfold w32; omega
  rw [resize]
  dsimp only
  rw [BlockDevice.write_eq_of_le (by rw [h]; simp)]
  rfl

/-- Resizing a file that is open. -/
theorem resize_eq {o : OpenFile} (ho : fs.openFiles start = some o) : resize fs start newsz =
    { fs with
      openFiles := Function.update fs.openFiles start
        (some { o with metaData := { o.metaData with length := newsz } }),
      dev := put fs.dev (w32 (start * 512)) { o.metaData with length := newsz }.bytes } := by
  have h : w32 (start * 512) % 512 = 0 := by unfold w32; omega
  rw [resize, Fat439.fileAt_eq ho]
  dsimp only
  rw [BlockDevice.write_eq_of_le (by rw [h]; simp)]

@[simp] theorem resize_fat : (resize fs start newsz).fat = fs.fat := rfl

@[simp] theorem resize_super : (resize fs start newsz).super = fs.super := rfl

@[simp] theorem resize_openFiles_self : (resize fs start newsz).openFiles start =
    some { fs.fileAt start with metaData := { fs.metaData start with length := newsz } } :=
  Function.update_self ..

theorem resize_openFiles_of_ne (h : t ≠ start) :
    (resize fs start newsz).openFiles t = fs.openFiles t := Function.update_of_ne h ..

theorem resize_metaData :
    (resize fs start newsz).metaData start = { fs.metaData start with length := newsz } := by
  rw [Fat439.metaData, Fat439.fileAt_eq resize_openFiles_self]

end OpenFile

end K439.Fs
