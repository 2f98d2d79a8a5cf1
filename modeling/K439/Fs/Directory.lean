import K439.Fs.Fat
import Mathlib.Data.List.Find
import Mathlib.Data.List.GetD

/-!
# Directories and files

`Fat439Directory` and `Fat439File` of `kernel/fs.cc`. The `content` of a directory object is the
open file at its first block. A name is the bytes before its terminating zero. The local variable
`entry` is memory that is not initialised: what it holds first is an argument.
-/

namespace K439.Fs

def ERR_NOT_FOUND : Int := -1001
def ERR_NOT_POSSIBLE : Int := -1004
def ERR_NOT_DIR : Int := -1007
def ERR_NO_ROOT_SPACE : Int := -1008
def ERR_DEVWRITE : Int := -1009
def ERR_FL_NAMELEN : Int := -1010
def ERR_FL_EXIST : Int := -1011
def ERR_INVL_CHAR : Int := -1012
def ERR_IS_DIR : Int := -1014

/-- How an operation ends. -/
inductive Outcome
  | ret (code : Int)
  /-- a page fault below `0x1000`: the process is killed -/
  | killed
  deriving DecidableEq

/-- The comparison of `entry.name[i]` and the `n - 1` bytes after it with those of a name. -/
def sameName (entry : Nat → UInt8) (name : List UInt8) : Nat → Nat → Bool
  | 0, _ => false
  | n + 1, i =>
    let x := entry i
    if x ≠ name.getD i 0 then false
    else if x = 0 then true
    else sameName entry name n (i + 1)

namespace OpenFile

variable (fs : Fat439) (start : Nat)

/-- Its `printf` prints the length with `%s`, as a string at that address: a length below `0x1000`
is a page fault. -/
def remFromOffset (entryOffset numBytes : Nat) : Outcome × Fat439 :=
  let fileSz := (fs.metaData start).length
  if numBytes > fileSz then (.ret 0, (resize fs start 0).unlock)
  else if w32 (numBytes + entryOffset) ≥ fileSz then
    (.ret 0, (resize fs start (w32 entryOffset)).unlock)
  else if fileSz < 0x1000 then (.killed, fs)
  else
    let newsz := fileSz - numBytes
    let n := fileSz - (entryOffset + numBytes)
    let buf := BlockDevice.readFully fs.dev (w32 (start * 512 + entryOffset + numBytes)) n
    let dev := BlockDevice.writeFully fs.dev (w32 (start * 512 + entryOffset)) buf
    (.ret 0, resize { fs with dev := dev } start newsz)

end OpenFile

structure Fat439Directory where
  start : Nat
  entries : Nat
  deriving DecidableEq

namespace Fat439Directory

variable (fs : Fat439) (d : Fat439Directory)

/-- The constructor. -/
def create (start : Nat) : Fat439Directory × Fat439 :=
  let fs := fs.openFile start
  ({ start := start, entries := (fs.metaData start).length / 16 }, fs)

def refresh : Fat439Directory := { d with entries := (fs.metaData d.start).length / 16 }

/-- The loop of `lookup` and of `lookupEntry` from the entry `i` on: the index and the block of the
first entry with the name. -/
def search (name : List UInt8) : Nat → Nat → (Nat → UInt8) → Option (Nat × Nat)
  | 0, _, _ => none
  | n + 1, i, entry =>
    let entry := put entry 0 (OpenFile.readFully fs d.start (w32 (i * 16)) 16)
    if sameName entry name 12 0 then some (i, word entry 12) else search name n (i + 1) entry

def lookup (entry : Nat → UInt8) (name : List UInt8) : Nat :=
  if name = [0x2e] then d.start
  else if name = [0x2e, 0x2e] then (fs.metaData d.start).parentDir
  else ((search fs d name d.entries 0 entry).map (·.2)).getD 0

/-- The `i` that is returned is the one of the inner loop: the place of the zero in the name, not
the index of the entry. -/
def lookupEntry (entry : Nat → UInt8) (name : List UInt8) : Int :=
  if name = [0x2e] then 12
  else if name = [0x2e, 0x2e] then 8
  else ((search fs d name d.entries 0 entry).map fun _ => (name.idxOf 0 : Int)).getD (-1)

/-- The loop of `listFiles` from the entry `i` on: the entries whose names are printed. -/
def listFrom : Nat → Nat → (Nat → UInt8) → List (List UInt8)
  | 0, _, _ => []
  | n + 1, i, entry =>
    let entry := put entry 0 (OpenFile.readFully fs d.start (w32 (i * 16)) 16)
    slice entry 0 16 :: listFrom n (i + 1) entry

def listFiles (entry : Nat → UInt8) : List (List UInt8) := listFrom fs d d.entries 0 entry

/-- `none`: `addAvailBlk` does not return. -/
def remove (entry entry' : Nat → UInt8) (name : List UInt8) :
    Option (Outcome × Fat439Directory × Fat439) :=
  let blk := lookup fs d entry name
  if blk = 0 then some (.ret ERR_NOT_FOUND, d, fs)
  else
    let fs := fs.openFile blk
    if (fs.metaData blk).type = TYPE_DIR ∧ (fs.metaData blk).length ≠ 0 then
      some (.ret ERR_IS_DIR, d, fs)
    else
      let entryOffset := lookupEntry fs d entry' name * 16 + 16
      if entryOffset < 0 then some (.ret ERR_NOT_POSSIBLE, d, fs)
      else
        match OpenFile.remFromOffset fs d.start entryOffset.toNat 16 with
        | (.killed, fs) => some (.killed, d, fs)
        | (.ret code, fs) =>
          if code ≥ 0 then do
            let fs ← (OpenFile.resize fs blk 0).addAvailBlk blk
            some (.ret code, refresh fs.sync d, fs.sync)
          else some (.ret code, d, fs)

/-- The tests of `mkdir` before it takes a block. -/
def mkdirError (entry : Nat → UInt8) (name : List UInt8) : Option Int :=
  if (fs.metaData d.start).type ≠ TYPE_DIR then some ERR_NOT_DIR
  else if name.length ≥ 12 then some ERR_FL_NAMELEN
  else if 0x2f ∈ name then some ERR_INVL_CHAR
  else if lookup fs d entry name ≠ 0 then some ERR_FL_EXIST
  else if d.start = fs.super.root ∧ w32 ((fs.metaData d.start).length + 16 + 16) ≥ 512 then
    some ERR_NO_ROOT_SPACE
  else none

/-- The new entry, which was not initialised either. -/
def newEntry (entry : Nat → UInt8) (name : List UInt8) (start : Nat) : List UInt8 :=
  slice (put entry 0 (name ++ [0])) 0 12 ++ le32 start

/-- `FileSystem::rootfs` is this file system. -/
def mkdir (entry entry' : Nat → UInt8) (name : List UInt8) : Int × Fat439Directory × Fat439 :=
  match mkdirError fs d entry name with
  | some code => (code, d, fs)
  | none =>
    let (blockToUse, fs) := fs.remNextAvail
    if blockToUse = 0 then (ERR_NO_SPACE, d, fs)
    else
      let metaData : MetaData :=
        { type := TYPE_DIR, length := 0, parentDir := d.start, currentBlk := blockToUse }
      let (_, dev) := BlockDevice.write fs.dev (w32 (blockToUse * 512)) metaData.bytes
      let (success, fs) :=
        OpenFile.append { fs with dev := dev } d.start (newEntry entry' name blockToUse)
      if success ≠ 0 then (ERR_DEVWRITE, d, fs)
      else (0, { d with entries := d.entries + 1 }, fs)

def lookupDirectory (entry : Nat → UInt8) (name : List UInt8) :
    Option Fat439Directory × Fat439 :=
  let idx := lookup fs d entry name
  if idx = 0 then (none, fs)
  else
    let (d, fs) := create fs idx
    (some d, fs)

/-- The loop of `lookupDirectory(path)`. Every name is looked up in this directory. -/
def lookupPath (entry : Nat → UInt8) : List (List UInt8) → Nat → Nat
  | [], idx => idx
  | name :: path, _ =>
    let idx := lookup fs d entry name
    if idx = 0 then 0 else lookupPath entry path idx

def lookupDirectoryPath (entry : Nat → UInt8) (path : List (List UInt8)) :
    Option Fat439Directory × Fat439 :=
  let idx := lookupPath fs d entry path 0
  if idx = 0 then (none, fs)
  else
    let (d, fs) := create fs idx
    (some d, fs)

end Fat439Directory

/-- `openFile` is known by its first block. -/
structure Fat439File where
  openFile : Nat
  offset : Nat
  deriving DecidableEq

namespace Fat439File

/-- The bytes that are read, or the error. -/
def read (fs : Fat439) (f : Fat439File) (length : Nat) : Except Int (List UInt8) × Fat439File :=
  match OpenFile.read fs f.openFile f.offset length with
  | .ok bytes => (.ok bytes, { f with offset := w32 (f.offset + bytes.length) })
  | .error code => (.error code, f)

def getLength (fs : Fat439) (f : Fat439File) : Nat := (fs.metaData f.openFile).length

end Fat439File

def Fat439Directory.lookupFile (fs : Fat439) (d : Fat439Directory) (entry : Nat → UInt8)
    (name : List UInt8) : Option Fat439File × Fat439 :=
  let idx := d.lookup fs entry name
  if idx = 0 then (none, fs) else (some { openFile := idx, offset := 0 }, fs.openFile idx)

/-! ## Reading the entries -/

section

variable {fs fs' : Fat439} {d : Fat439Directory} {entry entry' : Nat → UInt8} {name : List UInt8}
  {start offset length fuel n i : Nat}

namespace OpenFile

theorem read_congr (hdev : fs'.dev = fs.dev) (hfat : fs'.fat = fs.fat)
    (hm : (fs'.metaData start).length = (fs.metaData start).length) :
    read fs' start offset length = read fs start offset length := by
  simp only [read, hdev, hfat, hm]

theorem readFully_congr (h : ∀ n, read fs' start offset n = read fs start offset n) :
    readFully fs' start offset length = readFully fs start offset length := by
  have hloop : ∀ fuel n, readFullyLoop fs' start offset fuel n =
      readFullyLoop fs start offset fuel n := by
    intro fuel
    induction fuel with
    | zero => intro n; rfl
    | succ fuel ih => intro n; simp only [readFullyLoop, h, ih]
  exact hloop length length

/-- A read that ends before the end of the file and of the block. -/
theorem readFully_eq (hL : offset + length ≤ (fs.metaData start).length)
    (hlt : offset + 16 < 0x100000000) (hb : (offset + 16) % 512 + length ≤ 512) :
    readFully fs start offset length = slice fs.dev
      (w32 (fs.fat^[(offset + 16) / 512] start * 512 + (offset + 16) % 512)) length := by
  rcases Nat.eq_zero_or_pos length with rfl | hpos
  · rfl
  have hmod : w32 (fs.fat^[(offset + 16) / 512] start * 512 + (offset + 16) % 512) % 512 =
      (offset + 16) % 512 := by unfold w32; omega
  have hread : read fs start offset length = .ok (slice fs.dev
      (w32 (fs.fat^[(offset + 16) / 512] start * 512 + (offset + 16) % 512)) length) := by
    rw [read, if_neg (by omega), w32_of_lt hlt]
    simp only [BlockDevice.read_eq, hmod]
    congr 2
    omega
  obtain ⟨k, rfl⟩ := Nat.exists_eq_add_of_le' hpos
  simp only [readFully, readFullyLoop, if_pos hpos, hread, slice_length,
    if_neg (Nat.succ_ne_zero k), Nat.sub_self]
  have hnil : readFullyLoop fs start offset k 0 = [] := by cases k <;> rfl
  rw [hnil, List.append_nil]

/-- Nothing is read at the end of the file or behind it. -/
theorem readFully_end (hL : (fs.metaData start).length ≤ offset) :
    readFully fs start offset length = [] := by
  cases length with
  | zero => rfl
  | succ length =>
    rw [readFully, readFullyLoop, if_pos (Nat.succ_pos length), read]
    rcases Nat.lt_or_ge (fs.metaData start).length offset with hlt | hge
    · rw [if_pos hlt]
    · rw [if_neg (Nat.not_lt.mpr hge), Nat.sub_eq_zero_of_le hL, Nat.min_zero]
      simp [BlockDevice.read_eq]

end OpenFile

theorem sameName_congr (h : ∀ j, i ≤ j → j < i + n → entry' j = entry j) :
    sameName entry' name n i = sameName entry name n i := by
  induction n generalizing i with
  | zero => rfl
  | succ n ih =>
    have hrest := ih (i := i + 1) fun j hj hj' => h j (by omega) (by omega)
    simp only [sameName, h i (Nat.le_refl i) (by omega), hrest]

/-- The name of an entry is the name looked up, which ends within twelve bytes. -/
theorem sameName_iff : sameName entry name n i = true ↔
    ∃ k < n, (∀ j < k, entry (i + j) = name.getD (i + j) 0 ∧ entry (i + j) ≠ 0) ∧
      entry (i + k) = 0 ∧ name.getD (i + k) 0 = 0 := by
  induction n generalizing i with
  | zero => simp [sameName]
  | succ n ih =>
    rw [sameName]
    split
    next hne =>
      refine iff_of_false (by simp) ?_
      rintro ⟨k, -, hlt, h0, h0'⟩
      rcases Nat.eq_zero_or_pos k with rfl | hk
      · exact hne (h0.trans h0'.symm)
      · exact hne (hlt 0 hk).1
    next heq =>
      rw [not_not] at heq
      split
      next h0 => exact iff_of_true rfl ⟨0, by omega, by simp, h0, heq.symm.trans h0⟩
      next h0 =>
        rw [ih]
        constructor
        · rintro ⟨k, hk, hlt, h1, h2⟩
          refine ⟨k + 1, by omega, fun j hj => ?_, ?_, ?_⟩
          · cases j with
            | zero => exact ⟨heq, h0⟩
            | succ j =>
              have := hlt j (by omega)
              rwa [Nat.add_assoc, Nat.add_comm 1] at this
          · rwa [Nat.add_assoc, Nat.add_comm 1] at h1
          · rwa [Nat.add_assoc, Nat.add_comm 1] at h2
        · rintro ⟨k, hk, hlt, h1, h2⟩
          cases k with
          | zero => exact absurd h1 h0
          | succ k =>
            refine ⟨k, by omega, fun j hj => ?_, ?_, ?_⟩
            · have := hlt (j + 1) (by omega)
              rwa [Nat.add_assoc, Nat.add_comm 1]
            · rwa [Nat.add_assoc, Nat.add_comm 1]
            · rwa [Nat.add_assoc, Nat.add_comm 1]

/-- An entry has one name. -/
theorem sameName_ext {a b : List UInt8} (ha : sameName entry a n 0 = true)
    (hb : sameName entry b n 0 = true) (hza : 0 ∉ a) (hzb : 0 ∉ b) : a = b := by
  -- the name ends where the entry has its first zero
  have hend : ∀ {l : List UInt8}, sameName entry l n 0 = true → 0 ∉ l →
      (∀ j < l.length, entry j = l.getD j 0 ∧ entry j ≠ 0) ∧ entry l.length = 0 := by
    intro l hl hz
    obtain ⟨k, -, hlt, h0, h0'⟩ := sameName_iff.mp hl
    simp only [Nat.zero_add] at hlt h0 h0'
    have hk : k = l.length := by
      rcases Nat.lt_trichotomy k l.length with h | h | h
      · rw [List.getD_eq_getElem _ _ h] at h0'
        exact absurd (h0' ▸ List.getElem_mem h) hz
      · exact h
      · have := (hlt _ h).1
        rw [List.getD_eq_default _ _ (Nat.le_refl _)] at this
        exact absurd this (hlt _ h).2
    subst hk
    exact ⟨hlt, h0⟩
  obtain ⟨ha, ha0⟩ := hend ha hza
  obtain ⟨hb, hb0⟩ := hend hb hzb
  have hlen : a.length = b.length := by
    rcases Nat.lt_trichotomy a.length b.length with h | h | h
    · exact absurd ha0 (hb _ h).2
    · exact h
    · exact absurd hb0 (ha _ h).2
  refine List.ext_getElem hlen fun j hj hj' => ?_
  have hja := (ha j hj).1
  have hjb := (hb j hj').1
  rw [List.getD_eq_getElem _ _ hj] at hja
  rw [List.getD_eq_getElem _ _ hj'] at hjb
  exact hja.symm.trans hjb

/-- The zero that ends a name. -/
theorem sameName_idxOf (h : sameName entry name n 0 = true) : name.idxOf 0 < n := by
  obtain ⟨k, hk, -, -, h0⟩ := sameName_iff.mp h
  rw [Nat.zero_add] at h0
  refine Nat.lt_of_le_of_lt (Nat.le_of_not_lt fun hlt => ?_) hk
  have hlen : k < name.length := Nat.lt_of_lt_of_le hlt List.idxOf_le_length
  rw [List.getD_eq_getElem _ _ hlen] at h0
  have hne := List.not_of_lt_findIdx hlt
  rw [h0] at hne
  cases hne

namespace Fat439Directory

variable {d' : Fat439Directory} {k x : Nat}

theorem search_congr (hs : d'.start = d.start)
    (h : ∀ j, i ≤ j → j < i + n → OpenFile.readFully fs' d.start (w32 (j * 16)) 16 =
      OpenFile.readFully fs d.start (w32 (j * 16)) 16) :
    search fs' d' name n i entry = search fs d name n i entry := by
  induction n generalizing i entry with
  | zero => rfl
  | succ n ih =>
    have hrest (e : Nat → UInt8) :
        search fs' d' name n (i + 1) e = search fs d name n (i + 1) e :=
      ih fun j hj hj' => h j (by omega) (by omega)
    simp only [search, hs, h i (Nat.le_refl i) (by omega), hrest]

/-- Only the sixteen bytes of `entry` matter. -/
theorem search_local (h : ∀ j < 16, entry' j = entry j) :
    search fs d name n i entry' = search fs d name n i entry := by
  induction n generalizing i entry entry' with
  | zero => rfl
  | succ n ih =>
    have hput : ∀ l : List UInt8, ∀ j < 16, put entry' 0 l j = put entry 0 l j :=
      fun l j hj => put_congr (h j hj)
    generalize hl : OpenFile.readFully fs d.start (w32 (i * 16)) 16 = l
    have hname : sameName (put entry' 0 l) name 12 0 = sameName (put entry 0 l) name 12 0 :=
      sameName_congr fun j _ hj => hput l j (by omega)
    have hword : word (put entry' 0 l) 12 = word (put entry 0 l) 12 :=
      congrArg decodeLE (slice_congr fun j hj => hput l _ (by omega))
    simp only [search, hl, hname, hword, ih (hput l)]

/-- What was in `entry` before does not matter when the first read fills it. -/
theorem search_junk (h : n = 0 ∨ (OpenFile.readFully fs d.start (w32 (i * 16)) 16).length = 16) :
    search fs d name n i entry' = search fs d name n i entry := by
  cases n with
  | zero => rfl
  | succ n =>
    generalize hl : OpenFile.readFully fs d.start (w32 (i * 16)) 16 = l at h
    have hlen : l.length = 16 := h.resolve_left (Nat.succ_ne_zero n)
    have hput : ∀ j < 16, put entry' 0 l j = put entry 0 l j := by
      intro j hj
      have h1 := put_add (m := entry') (a := 0) (l := l) (i := j) (by omega)
      have h2 := put_add (m := entry) (a := 0) (l := l) (i := j) (by omega)
      rw [Nat.zero_add] at h1 h2
      rw [h1, h2]
    have hname : sameName (put entry' 0 l) name 12 0 = sameName (put entry 0 l) name 12 0 :=
      sameName_congr fun j _ hj => hput j (by omega)
    have hword : word (put entry' 0 l) 12 = word (put entry 0 l) 12 :=
      congrArg decodeLE (slice_congr fun j hj => hput _ (by omega))
    simp only [search, hl, hname, hword, search_local hput]

theorem search_bounds (h : search fs d name n i entry = some (k, x)) : i ≤ k ∧ k < i + n := by
  induction n generalizing i entry with
  | zero => cases h
  | succ n ih =>
    rw [search] at h
    split at h
    · cases h; omega
    · have := ih h; omega

/-- A search over more entries than there are finds what is there. -/
theorem search_end (h16 : 16 ≤ (fs.metaData d.start).length)
    (hmod : (fs.metaData d.start).length % 16 = 0) (hn : n < 0x10000000) :
    search fs d name n 0 entry =
      search fs d name (min n ((fs.metaData d.start).length / 16)) 0 entry := by
  generalize hL : (fs.metaData d.start).length = L at *
  -- behind the end the last entry is looked at again
  have hloop : ∀ n i entry, i + n < 0x10000000 →
      (L / 16 ≤ i → sameName entry name 12 0 = false) →
      search fs d name n i entry = search fs d name (min n (L / 16 - i)) i entry := by
    intro n
    induction n with
    | zero => intro i entry _ _; rw [Nat.zero_min]
    | succ n ih =>
      intro i entry hi hjunk
      rcases Nat.lt_or_ge i (L / 16) with hlt | hge
      · rw [show min (n + 1) (L / 16 - i) = min n (L / 16 - (i + 1)) + 1 by omega]
        simp only [search]
        split
        · rfl
        next hs => exact ih (i + 1) _ (by omega) fun _ => by simpa using hs
      · have hnil : OpenFile.readFully fs d.start (w32 (i * 16)) 16 = [] :=
          OpenFile.readFully_end (by rw [w32_of_lt (by omega)]; omega)
        have hrest := ih (i + 1) entry (by omega) fun _ => hjunk hge
        rw [Nat.sub_eq_zero_of_le (by omega), Nat.min_zero] at hrest
        rw [Nat.sub_eq_zero_of_le hge, Nat.min_zero]
        simp only [search, hnil, put_nil, hjunk hge, Bool.false_eq_true, if_false]
        exact hrest
  have h := hloop n 0 entry (by omega) fun h0 => by omega
  rwa [Nat.sub_zero] at h

/-- The entries after the one that is found are not read. -/
theorem search_prefix (h : search fs d name n i entry = some (k, x)) {m : Nat} (hm : k < i + m) :
    search fs d name m i entry = some (k, x) := by
  induction n generalizing i entry m with
  | zero => cases h
  | succ n ih =>
    obtain ⟨m, rfl⟩ : ∃ m', m = m' + 1 := by
      have := search_bounds h
      exact ⟨m - 1, by omega⟩
    rw [search] at h ⊢
    split at h
    next hn => rw [if_pos hn]; exact h
    next hn => rw [if_neg hn]; exact ih h (by omega)

/-- The entries before the one that is found do not have the name. -/
theorem search_before (h : search fs d name n i entry = some (k, x)) :
    search fs d name (k - i) i entry = none := by
  have hk := search_bounds h
  cases hs : search fs d name (k - i) i entry with
  | none => rfl
  | some r =>
    have hr := search_bounds hs
    have := search_prefix hs (m := n) (by omega)
    rw [h] at this
    cases this
    omega

/-- Where the entry `i` lies on the device. -/
def entryAddr (fs : Fat439) (start i : Nat) : Nat :=
  w32 (fs.fat^[(i * 16 + 16) / 512] start * 512 + (i * 16 + 16) % 512)

/-- The first 31 entries lie in the first block. -/
theorem entryAddr_of_lt (hi : i < 31) (hs : start < 0x800000) :
    entryAddr fs start i = start * 512 + (16 + i * 16) := by
  rw [entryAddr, Nat.div_eq_of_lt (by omega), Nat.mod_eq_of_lt (by omega), Function.iterate_zero,
    id_eq, w32_of_lt (addr_lt hs (by omega)), Nat.add_comm 16]

theorem readFully_entry (hL : i * 16 + 16 ≤ (fs.metaData start).length)
    (hlt : i * 16 + 16 < 0x100000000) :
    OpenFile.readFully fs start (w32 (i * 16)) 16 = slice fs.dev (entryAddr fs start i) 16 := by
  rw [w32_of_lt (by omega)]
  exact OpenFile.readFully_eq hL hlt (by omega)

/-- A search that reads whole entries finds the first one with the name. -/
theorem search_eq (h : ∀ j, i ≤ j → j < i + n →
      OpenFile.readFully fs d.start (w32 (j * 16)) 16 =
      slice fs.dev (entryAddr fs d.start j) 16) :
    search fs d name n i entry =
    ((List.range' i n).find? fun j =>
      sameName (fun o => fs.dev (entryAddr fs d.start j + o)) name 12 0).map fun j =>
        (j, word fs.dev (entryAddr fs d.start j + 12)) := by
  induction n generalizing i entry with
  | zero => rfl
  | succ n ih =>
    have hput : ∀ o < 16, put entry 0 (slice fs.dev (entryAddr fs d.start i) 16) o =
        fs.dev (entryAddr fs d.start i + o) := by
      intro o ho
      have := put_add (m := entry) (a := 0) (l := slice fs.dev (entryAddr fs d.start i) 16) (i := o)
        (by simpa using ho)
      rw [Nat.zero_add] at this
      rw [this, getElem_slice]
    have hname : sameName (put entry 0 (slice fs.dev (entryAddr fs d.start i) 16)) name 12 0 =
        sameName (fun o => fs.dev (entryAddr fs d.start i + o)) name 12 0 :=
      sameName_congr fun j _ hj => hput j (by omega)
    have hword : word (put entry 0 (slice fs.dev (entryAddr fs d.start i) 16)) 12 =
        word fs.dev (entryAddr fs d.start i + 12) :=
      congrArg decodeLE (slice_congr fun j hj => by rw [hput _ (by omega), Nat.add_assoc])
    rw [search, List.range'_succ, List.find?_cons]
    simp only [h i (Nat.le_refl i) (by omega), hname, hword]
    split
    next hs => rw [hs]; rfl
    next hs =>
      rw [Bool.not_eq_true] at hs
      rw [hs, ih fun j hj hj' => h j (by omega) (by omega)]

/-- A search over one more entry. -/
theorem search_concat (h : ∀ j, i ≤ j → j < i + (n + 1) →
      OpenFile.readFully fs d.start (w32 (j * 16)) 16 = slice fs.dev (entryAddr fs d.start j) 16) :
    search fs d name (n + 1) i entry = (search fs d name n i entry).or
      (if sameName (fun o => fs.dev (entryAddr fs d.start (i + n) + o)) name 12 0 then
        some (i + n, word fs.dev (entryAddr fs d.start (i + n) + 12)) else none) := by
  rw [search_eq h, search_eq fun j h1 h2 => h j h1 (by omega), List.range'_concat,
    List.find?_append, Option.map_or, Nat.one_mul, List.find?_cons]
  congr 1
  split
  next hs => rw [hs]; rfl
  next hs => rw [hs]; rfl

/-- Two searches over entries with the same names and blocks. -/
theorem search_agree (hs : d'.start = d.start)
    (h : ∀ j, i ≤ j → j < i + n → OpenFile.readFully fs d.start (w32 (j * 16)) 16 =
      slice fs.dev (entryAddr fs d.start j) 16)
    (h' : ∀ j, i ≤ j → j < i + n → OpenFile.readFully fs' d.start (w32 (j * 16)) 16 =
      slice fs'.dev (entryAddr fs' d.start j) 16)
    (hname : ∀ j, i ≤ j → j < i + n →
      sameName (fun o => fs'.dev (entryAddr fs' d.start j + o)) name 12 0 =
        sameName (fun o => fs.dev (entryAddr fs d.start j + o)) name 12 0)
    (hblk : ∀ j, i ≤ j → j < i + n → word fs'.dev (entryAddr fs' d.start j + 12) =
      word fs.dev (entryAddr fs d.start j + 12)) :
    search fs' d' name n i entry' = search fs d name n i entry := by
  have hfind : (List.range' i n).find? (fun j =>
        sameName (fun o => fs'.dev (entryAddr fs' d.start j + o)) name 12 0) =
      (List.range' i n).find? fun j =>
        sameName (fun o => fs.dev (entryAddr fs d.start j + o)) name 12 0 := by
    refine List.find?_congr fun j hj => ?_
    obtain ⟨h1, h2⟩ := List.mem_range'_1.mp hj
    exact hname j h1 h2
  rw [search_eq (d := d') (hs.symm ▸ h'), search_eq h, hs, hfind]
  refine Option.map_congr fun j hj => ?_
  obtain ⟨h1, h2⟩ := List.mem_range'_1.mp (List.mem_of_find?_eq_some hj)
  rw [hblk j h1 h2]

end Fat439Directory

end

end K439.Fs
